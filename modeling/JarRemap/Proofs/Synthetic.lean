import JarRemap.Proofs.Access.Sites
import JarRemap.Synthetic

/-!
# Stripping as a change of access values

Whether a class is spared is decided first. If it is not, its members lose their marks. In either case
nothing but access values is different afterwards.
-/

namespace JarRemap.Synthetic

/-- The mark is taken off members, not off the class. -/
def unmarks : Site → AccessFlags → AccessFlags
  | .wholeClass, flags => flags
  | .member _ _, flags => flags.without .accSynthetic

theorem unmarkMembers_eq (file : ClassFile) : unmarkMembers file = file.withAccess unmarks := by
  have each (kind : MemberKind) :
      (file.members kind).map unmark = (file.withAccess unmarks).members kind := by
    refine List.ext_getElem? fun position => ?_
    rw [ClassFile.members_withAccess, List.getElem?_map, List.getElem?_mapIdx]
    rfl
  have fields := each .field
  have methods := each .method
  simp only [ClassFile.members] at fields methods
  rw [unmarkMembers, fields, methods]
  rfl

/-- Whether the class is left as it is. -/
def spares (file : ClassFile) : Except Fault Bool :=
  if file.access.contains .accSynthetic then .ok true else file.isEnum

/-- There is a mark to take off. -/
def marked (file : ClassFile) : Bool := file.fields.any hasMark || file.methods.any hasMark

theorem strip_eq (file : ClassFile) :
    strip file = (spares file).map fun spared =>
      if spared then (file, false) else (unmarkMembers file, marked file) := by
  rw [strip, spares]
  split
  · rfl
  · cases file.isEnum with
    | error fault => rfl
    | ok enum => cases enum <;> rfl

variable {file stripped : ClassFile} {changed : Bool}

theorem strip_cases (strips : strip file = .ok (stripped, changed)) :
    (spares file = .ok true ∧ stripped = file ∧ changed = false) ∨
    (spares file = .ok false ∧ stripped = unmarkMembers file ∧ changed = marked file) := by
  rw [strip_eq] at strips
  cases told : spares file with
  | error fault =>
    rw [told] at strips
    cases strips
  | ok spared =>
    rw [told] at strips
    obtain same := Except.ok.inj strips
    cases spared with
    | true =>
      obtain ⟨rfl, rfl⟩ := Prod.mk.inj same
      exact .inl ⟨rfl, rfl, rfl⟩
    | false =>
      obtain ⟨rfl, rfl⟩ := Prod.mk.inj same
      exact .inr ⟨rfl, rfl, rfl⟩

theorem exists_withAccess (strips : strip file = .ok (stripped, changed)) :
    ∃ change, stripped = file.withAccess change := by
  rcases strip_cases strips with ⟨-, rfl, -⟩ | ⟨-, rfl, -⟩
  · exact ⟨_, stripped.withAccess_unchanged.symm⟩
  · exact ⟨unmarks, unmarkMembers_eq file⟩

end JarRemap.Synthetic
