import JarRemap.Proofs.Json.Record
import JarRemap.Structure.Document
import Mathlib

/-!
# Structural metadata in JSON

Every record is read back from its JSON as it was, whatever is absent in it: a part that is left out
is not the same as one that is empty. So a table that was printed is read as that table, and printed
again it is the same text.
-/

namespace JarRemap

open Json (Lossless lossless_text bind_some_of fields?_record whole_of_fields record_proper)

namespace Json

theorem lossless_uint32 : Lossless (fun number : UInt32 => ofNat number.toNat) asUInt32 where
  whole number := .number number.toNat
  reads number := by
    have digits : (toString number.toNat).toList.all Char.isDigit := by
      rw [Nat.toString_eq_ofList_toDigits, String.toList_ofList, List.all_eq_true]
      intro c member
      exact Nat.isDigit_of_mem_toDigits (by decide) (by decide) member
    have bound : number.toNat < 4294967296 := number.toNat_lt
    have read : (toString number.toNat).toNat? = some number.toNat := Nat.toNat?_repr number.toNat
    simp only [asUInt32, asNat, ofNat, if_pos digits, read, Option.bind_some, if_pos bound,
      UInt32.ofNat_toNat]
  proper := by simp [ofNat]

end Json

theorem EnclosingRecord.lossless : Lossless toJson ofJson? where
  whole record := by
    apply whole_of_fields
    simp only [List.forall_mem_cons]
    exact ⟨lossless_text.whole_required _, lossless_text.whole_optional _,
      lossless_text.whole_optional _, by simp⟩
  reads record := by
    have names : ["owner", "name", "desc"].Nodup := by decide
    refine bind_some_of (fields?_record names fun _ member => member) ?_
    refine bind_some_of (lossless_text.required names rfl) ?_
    refine bind_some_of (lossless_text.optional names rfl) ?_
    refine bind_some_of (lossless_text.optional names rfl) ?_
    rfl
  proper record := record_proper _

theorem InnerRecord.lossless : Lossless toJson ofJson? where
  whole record := by
    apply whole_of_fields
    simp only [List.forall_mem_cons]
    exact ⟨lossless_text.whole_required _, lossless_text.whole_optional _,
      lossless_text.whole_optional _, lossless_text.whole_optional _,
      Json.lossless_uint32.whole_optional _, by simp⟩
  reads record := by
    have names : ["inner_class", "outer_class", "inner_name", "access", "start"].Nodup := by decide
    refine bind_some_of (fields?_record names fun _ member => member) ?_
    refine bind_some_of (lossless_text.required names rfl) ?_
    refine bind_some_of (lossless_text.optional names rfl) ?_
    refine bind_some_of (lossless_text.optional names rfl) ?_
    refine bind_some_of (lossless_text.optional names rfl) ?_
    refine bind_some_of (Json.lossless_uint32.optional names rfl) ?_
    rfl
  proper record := record_proper _

theorem MethodStructure.lossless : Lossless toJson ofJson? where
  whole record := by
    apply whole_of_fields
    simp only [List.forall_mem_cons]
    exact ⟨lossless_text.list.whole_optional _, lossless_text.list.whole_optional _,
      lossless_text.whole_optional _, by simp⟩
  reads record := by
    have names : ["exceptions", "parameters", "signature"].Nodup := by decide
    refine bind_some_of (fields?_record names fun _ member => member) ?_
    refine bind_some_of (lossless_text.list.optional names rfl) ?_
    refine bind_some_of (lossless_text.list.optional names rfl) ?_
    refine bind_some_of (lossless_text.optional names rfl) ?_
    rfl
  proper record := record_proper _

namespace ClassStructure

/-- A dictionary of methods is left out if it is empty, and an absent one is read as empty. -/
theorem methods_read (record : ClassStructure) {fields : List (String × Option Json)}
    (distinct : (fields.map Prod.fst).Nodup)
    (written : fields.lookup "methods" = some (if record.methods.size = 0 then none
      else some (.ofDictionary MethodStructure.toJson record.methods))) :
    Json.withDefault .empty (Json.asDictionary MethodStructure.ofJson?) "methods"
      (Json.present fields) = some record.methods := by
  by_cases none_ : record.methods.size = 0
  · rw [if_pos none_] at written
    have empty : record.methods = .empty := by
      apply Dictionary.eq_of_entries
      exact List.length_eq_zero_iff.mp none_
    rw [empty]
    exact Json.withDefault_absent _ distinct written
  · rw [if_neg none_] at written
    exact MethodStructure.lossless.dictionary.withDefault distinct written

theorem lossless : Lossless toJson ofJson? where
  whole record := by
    apply whole_of_fields
    simp only [List.forall_mem_cons]
    refine ⟨EnclosingRecord.lossless.whole_optional _, InnerRecord.lossless.list.whole_optional _,
      lossless_text.whole_optional _, ?_, by simp⟩
    split
    next => simp
    next => exact MethodStructure.lossless.dictionary.whole_required record.methods
  reads record := by
    -- Each field is found again under its own name.
    have names : ["enclosingMethod", "innerClasses", "signature", "methods"].Nodup := by decide
    refine bind_some_of (fields?_record names fun _ member => member) ?_
    refine bind_some_of (EnclosingRecord.lossless.optional names rfl) ?_
    refine bind_some_of (InnerRecord.lossless.list.optional names rfl) ?_
    refine bind_some_of (lossless_text.optional names rfl) ?_
    refine bind_some_of (record.methods_read names rfl) ?_
    rfl
  proper record := record_proper _

end ClassStructure

namespace StructureTable

theorem lossless : Lossless toJson ofJson? := ClassStructure.lossless.dictionary

/-- A table that was printed is read as that table, so what is printed for it the second time is the
same text. -/
theorem read?_print (table : StructureTable) :
    read? table.print = some table ∧ (read? table.print).map print = some table.print := by
  have document : Json.read? (toJson table).pretty = some (toJson table) :=
    Json.read?_printed Json.Layout.pretty_spaces (lossless.whole table)
  have read : read? table.print = some table := by
    rw [read?, print, document]
    exact lossless.reads table
  rw [read]
  exact ⟨rfl, rfl⟩

end StructureTable

end JarRemap
