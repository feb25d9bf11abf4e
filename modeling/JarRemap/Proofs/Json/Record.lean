import JarRemap.Json.Record
import JarRemap.Proofs.Json.Read
import Mathlib.Data.List.Nodup

/-!
# Reading what was written as a record

A record is read as the fields that it was written with, and a field that was left out is missing.
-/

namespace JarRemap.Json

/-- The fields that are written. -/
def present (fields : List (String × Option Json)) : List (String × Json) :=
  fields.filterMap fun (name, value) => value.map fun value => (name, value)

theorem record_eq (fields : List (String × Option Json)) :
    record fields = .object ((present fields).map fun (name, value) => (some name, value)) := by
  rw [record, present, List.map_filterMap]
  congr 2
  funext ⟨name, value⟩
  cases value <;> rfl

theorem mem_of_present {fields : List (String × Option Json)} {name : String} {value : Json}
    (written : (name, value) ∈ present fields) : (name, some value) ∈ fields := by
  obtain ⟨⟨called, found⟩, member, wrapped⟩ := List.mem_filterMap.mp written
  cases found with
  | none => simp at wrapped
  | some found =>
    obtain ⟨rfl, rfl⟩ := Prod.mk.inj (Option.some.inj wrapped)
    exact member

theorem record_whole {fields : List (String × Option Json)}
    (each : ∀ name value, (name, some value) ∈ fields → Whole value) : Whole (record fields) := by
  rw [record_eq]
  refine .object ?_ ?_
  · rintro _ member
    obtain ⟨_, _, rfl⟩ := List.mem_map.mp member
    rfl
  · rintro _ member
    obtain ⟨⟨name, value⟩, written, rfl⟩ := List.mem_map.mp member
    exact each name value (mem_of_present written)

theorem present_sublist (fields : List (String × Option Json)) :
    ((present fields).map Prod.fst).Sublist (fields.map Prod.fst) := by
  induction fields with
  | nil => exact .slnil
  | cons field fields ih =>
    obtain ⟨name, _ | value⟩ := field
    · exact .cons name ih
    · exact .cons_cons name ih

/-- Names that are no holes are all there. -/
theorem mapM_named (members : List (String × Json)) :
    (members.map fun (name, value) => ((some name, value) : Option String × Json)).mapM
      (fun (name, value) => (return (← name, value) : Option (String × Json))) = some members := by
  induction members with
  | nil => rfl
  | cons member members ih => rw [List.map_cons, List.mapM_cons, ih]; rfl

/-- The fields of a record are found as they were written. -/
theorem fields?_record {fields : List (String × Option Json)} {names : List String}
    (distinct : (fields.map Prod.fst).Nodup) (known : ∀ name ∈ fields.map Prod.fst, name ∈ names) :
    (record fields).fields? names = some (present fields) := by
  have names_ := present_sublist fields
  have all : (present fields).filter (·.1 ∈ names) = present fields :=
    List.filter_eq_self.mpr fun member written => by
      simpa using known _ (names_.subset (List.mem_map_of_mem written))
  rw [record_eq, fields?, mapM_named]
  simp only [bind, Option.bind, all]
  rw [if_pos (distinct.sublist names_)]

theorem lookup_present {fields : List (String × Option Json)}
    (distinct : (fields.map Prod.fst).Nodup) (name : String) :
    (present fields).lookup name = (fields.lookup name).join := by
  induction fields with
  | nil => rfl
  | cons field fields ih =>
    obtain ⟨called, value⟩ := field
    rw [List.map_cons, List.nodup_cons] at distinct
    -- A field that was left out must not be found further behind, where its name does not come up
    -- again.
    have later := ih distinct.2
    by_cases here : name = called
    · subst here
      cases value with
      | none =>
        have absent : fields.lookup name = none := by
          refine List.lookup_eq_none_iff.mpr fun field member => bne_iff_ne.mpr fun same => ?_
          exact distinct.1 (List.mem_map.mpr ⟨field, member, same.symm⟩)
        rw [List.lookup_cons_self]
        simpa [present, absent] using later
      | some value => simp [present]
    · have other : (name == called) = false := beq_false_of_ne here
      cases value with
      | none => simpa [present, List.lookup_cons, other] using later
      | some value => simpa [present, List.lookup_cons, other] using later

/-! ## Lossless forms -/

/-- One part is read, then the others. -/
theorem bind_some_of {α β : Type} {read : Option α} {next : α → Option β} {value : α} {result : β}
    (found : read = some value) (rest : next value = some result) : (read >>= next) = some result := by
  rw [found]
  exact rest

/-- Values are written in full, and read as they were. None is written as null, which stands for a
field that is missing. -/
structure Lossless {α : Type} (encode : α → Json) (decode : Json → Option α) : Prop where
  whole : ∀ value, Whole (encode value)
  reads : ∀ value, decode (encode value) = some value
  proper : ∀ value, encode value ≠ .null

theorem lossless_text : Lossless text asText where
  whole := .text
  reads _ := rfl
  proper := by simp [text]

theorem lossless_bool : Lossless .bool asBool where
  whole := .bool
  reads _ := rfl
  proper := by simp

section

variable {α : Type} {encode : α → Json} {decode : Json → Option α} (lossless : Lossless encode decode)

include lossless

theorem Lossless.list : Lossless (fun values => .array (values.map encode)) (asList decode) where
  whole values := by
    apply Whole.array
    intro item member
    obtain ⟨value, -, rfl⟩ := List.mem_map.mp member
    exact lossless.whole value
  reads values := by
    induction values with
    | nil => rfl
    | cons value values ih =>
      simp only [asList, List.map_cons, List.mapM_cons] at ih ⊢
      rw [lossless.reads, ih]
      rfl
  proper := by simp

theorem Lossless.dictionary : Lossless (ofDictionary encode) (asDictionary decode) where
  whole table := by
    apply Whole.object
    · intro member written
      obtain ⟨entry, -, rfl⟩ := List.mem_map.mp written
      rfl
    · intro member written
      obtain ⟨entry, -, rfl⟩ := List.mem_map.mp written
      exact lossless.whole entry.2
  reads table := by
    -- Keys and values are read back entry by entry.
    have entries (entries : List (String × α)) :
        (entries.map fun entry => (some entry.1, encode entry.2)).mapM
          (fun entry => (return (← entry.1, ← decode entry.2) : Option (String × α))) =
            some entries := by
      induction entries with
      | nil => rfl
      | cons entry entries ih =>
        rw [List.map_cons, List.mapM_cons, ih]
        simp [lossless.reads]
    exact bind_some_of (entries table.entries) (congrArg some table.ofList_entries)
  proper := by simp [ofDictionary]

theorem Lossless.whole_required (value : α) : ∀ written ∈ some (encode value), Whole written := by
  intro written member
  obtain rfl := Option.some.inj member
  exact lossless.whole value

theorem Lossless.whole_optional (value : Option α) : ∀ written ∈ value.map encode, Whole written := by
  intro written member
  obtain ⟨value, -, rfl⟩ := Option.map_eq_some_iff.mp member
  exact lossless.whole value

end

section

variable {α : Type} {encode : α → Json} {decode : Json → Option α}
  {fields : List (String × Option Json)} {name : String}

theorem Lossless.required {value : α} (lossless : Lossless encode decode)
    (distinct : (fields.map Prod.fst).Nodup)
    (written : fields.lookup name = some (some (encode value))) :
    required decode name (present fields) = some value := by
  rw [Json.required, lookup_present distinct, written]
  exact lossless.reads value

theorem Lossless.optional {value : Option α} (lossless : Lossless encode decode)
    (distinct : (fields.map Prod.fst).Nodup)
    (written : fields.lookup name = some (value.map encode)) :
    optional decode name (present fields) = some value := by
  rw [Json.optional, lookup_present distinct, written]
  cases value with
  | none => rfl
  | some found =>
    -- What is written is not null, so it is not taken for a field that is missing.
    rw [Option.map_some, Option.join_some]
    split
    next missing => cases missing
    next missing => exact absurd (Option.some.inj missing) (lossless.proper found)
    next value _ same =>
      obtain rfl := Option.some.inj same
      rw [lossless.reads]
      rfl

theorem Lossless.withDefault {default value : α} (lossless : Lossless encode decode)
    (distinct : (fields.map Prod.fst).Nodup)
    (written : fields.lookup name = some (some (encode value))) :
    withDefault default decode name (present fields) = some value := by
  rw [Json.withDefault, lookup_present distinct, written]
  exact lossless.reads value

theorem withDefault_absent {default : α} (decode : Json → Option α)
    (distinct : (fields.map Prod.fst).Nodup) (absent : fields.lookup name = some none) :
    withDefault default decode name (present fields) = some default := by
  rw [Json.withDefault, lookup_present distinct, absent]
  rfl

end

/-- A record is written in full if its fields are. -/
theorem whole_of_fields {fields : List (String × Option Json)}
    (each : ∀ field ∈ fields, ∀ value ∈ field.2, Whole value) : Whole (record fields) :=
  record_whole fun name value written => each (name, some value) written value rfl

theorem record_proper (fields : List (String × Option Json)) : record fields ≠ .null := by
  simp [record]

end JarRemap.Json
