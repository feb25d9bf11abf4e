import JarRemap.Proofs.ClassFile.Edit
import JarRemap.Proofs.Hierarchy
import Mathlib.Data.List.Nodup
import Mathlib.Data.List.Perm.Basic

/-!
# The hierarchy of classes

Classes with different names define a hierarchy, whatever order they come in. The hierarchies of two
orders list their classes differently, but a walk takes the same way through both.
-/

namespace JarRemap.Hierarchy

private theorem exists_definition {file : ClassFile} (resolves : file.Resolves) :
    ∃ definition, Defines file definition := by
  obtain ⟨name, named⟩ := resolves.name
  obtain ⟨superName, derives⟩ := (ClassFile.exists_superName_iff file).mpr resolves.superName
  obtain ⟨interfaces, implements⟩ :=
    (exists_mapM_ok_iff file.pool.className file.interfaces).mpr resolves.interfaces
  exact ⟨⟨name, superName.toList ++ interfaces⟩, named, superName, interfaces, derives, implements, rfl⟩

private theorem exists_definitions {files : List ClassFile}
    (resolves : ∀ file ∈ files, file.Resolves) :
    ∃ definitions, List.Forall₂ Defines files definitions := by
  induction files with
  | nil => exact ⟨[], .nil⟩
  | cons file files ih =>
    obtain ⟨here, there⟩ := List.forall_mem_cons.mp resolves
    obtain ⟨definition, defines⟩ := exists_definition here
    obtain ⟨definitions, others⟩ := ih there
    exact ⟨definition :: definitions, .cons defines others⟩

private theorem names_of_defines {files : List ClassFile} {definitions : List ClassDefinition}
    (defines : List.Forall₂ Defines files definitions) :
    files.map ClassFile.name = (definitions.map ClassDefinition.name).map .ok := by
  induction defines with
  | nil => rfl
  | cons head _ ih =>
    rw [List.map_cons, List.map_cons, List.map_cons, ih, head.1]

theorem exists_ofClasses {files : List ClassFile} (resolves : ∀ file ∈ files, file.Resolves)
    (distinct : (files.map ClassFile.name).Nodup) :
    ∃ definitions, List.Forall₂ Defines files definitions ∧
      (definitions.map ClassDefinition.name).Nodup ∧ ofClasses files = .ok ⟨definitions⟩ := by
  obtain ⟨definitions, defines⟩ := exists_definitions resolves
  have apart : (definitions.map ClassDefinition.name).Nodup :=
    List.Nodup.of_map Except.ok (names_of_defines defines ▸ distinct)
  exact ⟨definitions, defines, apart, ofClasses_of_defines defines apart⟩

/-! ## Another order -/

private theorem find?_eq_some_iff {definitions : List ClassDefinition}
    (distinct : (definitions.map ClassDefinition.name).Nodup) (name : String)
    (definition : ClassDefinition) :
    definitions.find? (·.name == name) = some definition ↔
      definition ∈ definitions ∧ definition.name = name := by
  constructor
  · intro found
    exact ⟨List.mem_of_find?_eq_some found, by simpa using List.find?_some found⟩
  · rintro ⟨member, named⟩
    obtain ⟨other, found⟩ : ∃ other, definitions.find? (·.name == name) = some other := by
      rw [← Option.isSome_iff_exists, List.find?_isSome]
      exact ⟨definition, member, by simpa using named⟩
    -- No other definition has the name.
    have same : other.name = definition.name := by
      rw [named]
      simpa using List.find?_some found
    rw [found, List.inj_on_of_nodup_map distinct (List.mem_of_find?_eq_some found) member same]

section

variable {first second : Hierarchy} (order : first.classes.Perm second.classes)
include order

private theorem supertypes_perm (distinct : (first.classes.map ClassDefinition.name).Nodup)
    (name : String) : second.supertypes name = first.supertypes name := by
  have apart : (second.classes.map ClassDefinition.name).Nodup :=
    (order.map ClassDefinition.name).nodup_iff.mp distinct
  have found : second.classes.find? (·.name == name) = first.classes.find? (·.name == name) := by
    ext definition
    rw [find?_eq_some_iff apart, find?_eq_some_iff distinct, order.mem_iff]
  rw [supertypes, supertypes, found]

private theorem visits_perm : second.visits = first.visits := by
  refine (order.foldr_eq' (fun one _ other _ count => ?_) 1).symm
  exact Nat.add_left_comm other.supertypes.length one.supertypes.length count

omit order in
private theorem walk_congr (same : ∀ name, second.supertypes name = first.supertypes name)
    (visits : Nat) (waiting seen : List String) :
    second.walk visits waiting seen = first.walk visits waiting seen := by
  induction visits generalizing waiting seen with
  | zero => rfl
  | succ visits ih =>
    cases waiting with
    | nil => rfl
    | cons name waiting =>
      rw [walk, walk, same]
      exact ih _ _

theorem ancestors_perm (distinct : (first.classes.map ClassDefinition.name).Nodup) (name : String) :
    second.ancestors name = first.ancestors name := by
  rw [ancestors, ancestors, visits_perm order, walk_congr (supertypes_perm order distinct)]

end

/-- Classes with different names define hierarchies with the same ancestors in every order. -/
theorem ofClasses_perm {files others : List ClassFile} (order : files.Perm others)
    (resolves : ∀ file ∈ files, file.Resolves) (distinct : (files.map ClassFile.name).Nodup) :
    ∃ first second, ofClasses files = .ok first ∧ ofClasses others = .ok second ∧
      ∀ name, second.ancestors name = first.ancestors name := by
  obtain ⟨definitions, defines, apart, defined⟩ := exists_ofClasses resolves distinct
  -- Each class defines the same as before, only in another place.
  obtain ⟨moved, reordered, defines'⟩ : ∃ moved, definitions.Perm moved ∧
      List.Forall₂ Defines others moved := by
    obtain ⟨moved, defines', reordered⟩ := List.perm_comp_forall₂ order.symm defines
    exact ⟨moved, reordered.symm, defines'⟩
  have apart' : (moved.map ClassDefinition.name).Nodup :=
    (reordered.map ClassDefinition.name).nodup_iff.mp apart
  exact ⟨⟨definitions⟩, ⟨moved⟩, defined, ofClasses_of_defines defines' apart',
    ancestors_perm reordered apart⟩

end JarRemap.Hierarchy
