import JarRemap.Proofs.Descriptor.Rename
import JarRemap.Proofs.Hierarchy
import JarRemap.Proofs.Mapping
import JarRemap.Proofs.Remap.Meaning

/-!
# Renamings that can be undone

When the inverse of a mapping table restores what some classes mention. A table and its inverse look
a name up in different entries, so that each entry can be read backwards is not enough: the classes
that have no entries of their own must not run into those of others.
-/

namespace JarRemap

open Descriptor (IsArray classNames)

namespace ClassFile

/-- The class declares or refers to a field or method with this owner, name and descriptor. -/
inductive HasSymbol (file : ClassFile) : MemberKind → String → String → String → Prop
  | declared {kind : MemberKind} {owner name descriptor : String} {member : Member}
      (owned : file.name = .ok owner) (found : member ∈ file.members kind)
      (read : file.symbol member = .ok (name, descriptor)) :
      HasSymbol file kind owner name descriptor
  | referenced {index : Index} {reference : MemberReference}
      (read : file.pool.memberReference index = .ok reference) :
      HasSymbol file (RenamePlan.ReferenceKind.memberKind reference.kind) reference.owner
        reference.name reference.descriptor

/-- The class has an entry for this class, or the name stands in an array or in the descriptor of a
field or method. -/
inductive Mentions (file : ClassFile) (name : String) : Prop
  | class_ {index : Index} (named : file.pool.className index = .ok name) (plain : ¬ IsArray name)
  | array {index : Index} {array : String} (named : file.pool.className index = .ok array)
      (isArray : IsArray array) (within : name ∈ classNames array)
  | symbol {kind : MemberKind} {owner member descriptor : String}
      (symbol : file.HasSymbol kind owner member descriptor) (within : name ∈ classNames descriptor)

theorem HasSymbol.className {file : ClassFile} {kind : MemberKind} {owner name descriptor : String}
    (symbol : file.HasSymbol kind owner name descriptor) :
    ∃ index, file.pool.className index = .ok owner := by
  cases symbol with
  | declared owned => exact ⟨file.thisClass, owned⟩
  | @referenced index reference read =>
    obtain ⟨constant, kind, place, slot, here, parts⟩ := ConstantPool.entry_of_memberReference read
    rw [ConstantPool.memberReference_of_entry here parts, ConstantPool.memberOf_ok_iff] at read
    exact ⟨place, read.2.1⟩

end ClassFile

/-- The class is no array, and one of the files mentions it. -/
def MentionedIn (files : List ClassFile) (name : String) : Prop :=
  ¬ IsArray name ∧ ∃ file ∈ files, file.Mentions name

/-- A table whose inverse restores all names that the classes mention. -/
structure Invertible (table inverse : MappingTable) (hierarchy : Hierarchy) (files : List ClassFile) :
    Prop where
  restores : ∀ file ∈ files, ∀ name, file.Mentions name →
    inverse.class?.apply (table.class?.apply name) = name
  plain : ∀ file ∈ files, ∀ name, file.Mentions name →
    ';' ∉ (table.class?.apply name).toList ∧ ¬ IsArray (table.class?.apply name)
  /-- Owners of members move as their classes do. -/
  owners : ∀ entry ∈ table.entries, ∀ kind : MemberKind, entry.kind = kind.mapping →
    entry.newOwner = table.class?.apply entry.oldOwner ∧ ¬ IsArray entry.oldOwner ∧
      ¬ IsArray entry.newOwner
  descriptors : ∀ entry ∈ table.entries, entry.kind = .method → ∀ descriptor renamed,
    entry.oldDescriptor = some descriptor →
    Descriptor.rename table.class? descriptor = .ok renamed → entry.newDescriptor = some renamed
  unreserved : ∀ entry ∈ table.entries, entry.kind = .method → ∀ name,
    entry.newMember = some name → name ∉ SymbolMap.reservedMethods
  /-- Read backwards, no entry takes the new name of one member for that of another. -/
  members : ∀ file ∈ files, ∀ kind owner name descriptor,
    file.HasSymbol kind owner name descriptor → ∀ new newDescriptor,
    SymbolMap.renamedSymbol ⟨table, hierarchy⟩ kind owner name descriptor =
      .ok (new, newDescriptor) →
    ∀ class_ ∈ owner :: hierarchy.ancestors owner, ∀ entry ∈ table.entries,
      entry.kind = kind.mapping → entry.newOwner = table.class?.apply class_ →
      entry.newMember = some new → (kind = .method → entry.newDescriptor = some newDescriptor) →
      entry.oldMember = some name

namespace SymbolMap

variable {symbols : SymbolMap} {name : String}

theorem renamedReference_of_plain (plain : ¬ IsArray name) :
    symbols.renamedReference name = .ok (symbols.table.class?.apply name) := by
  rw [IsArray] at plain
  rw [renamedReference, renameReference, Descriptor.renameReference, if_neg plain]
  rfl

theorem renamedReference_of_array (array : IsArray name) :
    symbols.renamedReference name = symbols.renameDescriptor name := by
  rw [IsArray] at array
  rw [renamedReference, renameReference, Descriptor.renameReference, if_pos array, renameDescriptor]
  cases Descriptor.rename symbols.table.class? name with
  | error fault => rfl
  | ok renamed =>
    by_cases same : renamed = name <;> simp [same, bind, Except.bind, pure, Except.pure, Functor.map,
      Except.map]

end SymbolMap

namespace Invertible

variable {table inverse : MappingTable} {hierarchy : Hierarchy} {files : List ClassFile}
  (invertible : Invertible table inverse hierarchy files)

include invertible

/-- The names that the classes mention stay different. -/
theorem injective (first second : String) (one : ∃ file ∈ files, file.Mentions first)
    (other : ∃ file ∈ files, file.Mentions second)
    (same : table.class?.apply first = table.class?.apply second) : first = second := by
  obtain ⟨file, member, mentions⟩ := one
  obtain ⟨file', member', mentions'⟩ := other
  rw [← invertible.restores file member first mentions,
    ← invertible.restores file' member' second mentions', same]

variable {file : ClassFile} (member : file ∈ files)

include member

theorem reference_back (others : Hierarchy) {index : Index} {name renamed : String}
    (named : file.pool.className index = .ok name)
    (renames : SymbolMap.renamedReference ⟨table, hierarchy⟩ name = .ok renamed) :
    SymbolMap.renamedReference ⟨inverse, others⟩ renamed = .ok name := by
  by_cases array : IsArray name
  · rw [SymbolMap.renamedReference_of_array array] at renames
    rw [SymbolMap.renamedReference_of_array (Descriptor.rename_array array renames)]
    exact Descriptor.rename_back renames
      (fun inner within => invertible.restores file member inner (.array named array within))
      (fun inner within => (invertible.plain file member inner (.array named array within)).1)
  · rw [SymbolMap.renamedReference_of_plain array] at renames
    obtain rfl := Except.ok.inj renames
    have mentions : file.Mentions name := .class_ named array
    rw [SymbolMap.renamedReference_of_plain (invertible.plain file member name mentions).2,
      invertible.restores file member name mentions]

theorem descriptor_back (others : Hierarchy) {kind : MemberKind}
    {owner name descriptor renamed : String}
    (symbol : file.HasSymbol kind owner name descriptor)
    (renames : SymbolMap.renameDescriptor ⟨table, hierarchy⟩ descriptor = .ok renamed) :
    SymbolMap.renameDescriptor ⟨inverse, others⟩ renamed = .ok descriptor :=
  Descriptor.rename_back renames
    (fun inner within => invertible.restores file member inner (.symbol symbol within))
    (fun inner within => (invertible.plain file member inner (.symbol symbol within)).1)

/-- A class and its ancestors, before and after. An array class has no ancestors. -/
private theorem lineage
    (names : hierarchy.Names (MentionedIn files))
    {index : Index} {owner newOwner : String} (named : file.pool.className index = .ok owner)
    (owned : SymbolMap.renamedReference ⟨table, hierarchy⟩ owner = .ok newOwner) :
    (newOwner :: (hierarchy.map table.class?.apply).ancestors newOwner =
      (owner :: hierarchy.ancestors owner).map table.class?.apply) ∨
    (IsArray owner ∧ IsArray newOwner ∧ hierarchy.ancestors owner = [] ∧
      (hierarchy.map table.class?.apply).ancestors newOwner = []) := by
  -- Only classes that are no arrays are defined, under their old names and under their new ones.
  by_cases array : IsArray owner
  · rw [SymbolMap.renamedReference_of_array array] at owned
    have array' : IsArray newOwner := Descriptor.rename_array array owned
    refine .inr ⟨array, array', Hierarchy.ancestors_of_undefined ?_,
      Hierarchy.ancestors_of_undefined ?_⟩
    · rintro definition defined rfl
      exact (names definition defined).1.1 array
    · intro definition renamed
      obtain ⟨old, defined, rfl⟩ := List.mem_map.mp renamed
      rintro rfl
      obtain ⟨-, file, member, mentions⟩ := (names old defined).1
      exact (invertible.plain file member old.name mentions).2 array'
  · rw [SymbolMap.renamedReference_of_plain array] at owned
    obtain rfl := Except.ok.inj owned
    have known : hierarchy.Names fun name => ∃ file ∈ files, file.Mentions name :=
      fun definition defined => ⟨(names definition defined).1.2,
        fun name above => ((names definition defined).2 name above).2⟩
    left
    rw [Hierarchy.ancestors_map invertible.injective known ⟨file, member, .class_ named array⟩]
    rfl

/-- The new name and descriptor of a member lead back to the old ones. -/
theorem symbol_back (inverted : table.inverse = .ok inverse)
    (names : hierarchy.Names (MentionedIn files))
    {kind : MemberKind} {owner newOwner name descriptor : String} {new : String × String}
    (symbol : file.HasSymbol kind owner name descriptor)
    (owned : SymbolMap.renamedReference ⟨table, hierarchy⟩ owner = .ok newOwner)
    (renames : SymbolMap.renamedSymbol ⟨table, hierarchy⟩ kind owner name descriptor = .ok new) :
    SymbolMap.renamedSymbol ⟨inverse, hierarchy.map table.class?.apply⟩ kind newOwner new.1 new.2 =
      .ok (name, descriptor) := by
  obtain ⟨answer, described⟩ := (SymbolMap.renamedSymbol_ok_iff _ _ _ _ _ _).mp renames
  obtain ⟨index, named⟩ := symbol.className
  have lines := invertible.lineage member names named owned
  refine (SymbolMap.renamedSymbol_ok_iff _ _ _ _ _ _).mpr
    ⟨SymbolMap.member_back inverted invertible.unreserved ?_ ?_ answer,
      invertible.descriptor_back member _ symbol described⟩
  · -- An entry that is found on the way out leads to a class that is asked on the way back.
    intro class_ above entry listed said
    obtain ⟨kinds, rfl, -, old, -⟩ := (entry.member?_eq_some_iff _ _ _ _ _).mp said
    obtain ⟨moves, plain, -⟩ := invertible.owners entry listed kind kinds
    constructor
    · rcases lines with lines | ⟨array, -, alone, -⟩
      · rw [lines, moves]
        exact List.mem_map_of_mem above
      · rw [alone, List.mem_singleton] at above
        exact absurd (above ▸ array) plain
    · rintro rfl
      exact invertible.descriptors entry listed kinds descriptor new.2 (old rfl) described
  · -- Each class that is asked on the way back is the new name of one that was asked on the way out,
    -- so the entries for it are known.
    intro class_ above entry listed old said
    obtain ⟨kinds, rfl, renamed, described', answers⟩ :=
      (entry.inverted.member?_eq_some_iff _ _ _ _ _).mp said
    rcases lines with lines | ⟨-, array, -, alone⟩
    · rw [lines] at above
      obtain ⟨origin, below, moved⟩ := List.mem_map.mp above
      have mine := invertible.members file member kind owner name descriptor symbol new.1 new.2
        renames origin below entry listed kinds moved.symm renamed described'
      exact Option.some.inj (answers.symm.trans mine)
    · rw [alone, List.mem_singleton] at above
      obtain rfl : entry.newOwner = newOwner := above
      exact absurd array (invertible.owners entry listed kind kinds).2.2

end Invertible

end JarRemap
