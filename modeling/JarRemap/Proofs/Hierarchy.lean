import JarRemap.Hierarchy
import JarRemap.Proofs.Outcome

/-!
# Renaming a hierarchy

The walk through a hierarchy only compares names. So it takes the same way through a hierarchy with
other names, as long as different names stay different.
-/

namespace JarRemap

/-- The definition with every name changed. -/
def ClassDefinition.map (change : String → String) (definition : ClassDefinition) :
    ClassDefinition :=
  ⟨change definition.name, definition.supertypes.map change⟩

namespace Hierarchy

/-- The hierarchy with every name changed. -/
def map (change : String → String) (hierarchy : Hierarchy) : Hierarchy :=
  ⟨hierarchy.classes.map (ClassDefinition.map change)⟩

/-- Every class and supertype has the property. -/
def Names (holds : String → Prop) (hierarchy : Hierarchy) : Prop :=
  ∀ definition ∈ hierarchy.classes, holds definition.name ∧ ∀ name ∈ definition.supertypes, holds name

section

variable {change : String → String} {known : String → Prop} {hierarchy : Hierarchy}

theorem visits_map (change : String → String) (hierarchy : Hierarchy) :
    (hierarchy.map change).visits = hierarchy.visits := by
  simp [visits, map, ClassDefinition.map, List.foldr_map]

theorem known_supertypes (names : hierarchy.Names known) (name : String) :
    ∀ supertype ∈ hierarchy.supertypes name, known supertype := by
  rw [supertypes]
  split
  next definition found => exact (names definition (List.mem_of_find?_eq_some found)).2
  · simp

/-- A name is found if it is among those looked at and was not seen before. -/
theorem mem_unseen_iff {seen names : List String} {name : String} :
    name ∈ unseen seen names ↔ name ∈ names ∧ name ∉ seen := by
  -- The first of two equal names is taken, and from there on it counts as seen.
  induction names generalizing seen with
  | nil => simp [unseen]
  | cons first names ih =>
    rw [unseen]
    split
    next here =>
      rw [ih, List.mem_cons]
      constructor
      · rintro ⟨there, fresh⟩
        exact ⟨.inr there, fresh⟩
      · rintro ⟨rfl | there, fresh⟩
        · exact absurd here fresh
        · exact ⟨there, fresh⟩
    next fresh =>
      rw [List.mem_cons, ih, List.mem_cons, List.mem_cons]
      constructor
      · rintro (rfl | ⟨there, other⟩)
        · exact ⟨.inl rfl, fresh⟩
        · exact ⟨.inr there, fun here => other (.inr here)⟩
      · rintro ⟨rfl | there, new⟩
        · exact .inl rfl
        · by_cases same : name = first
          · exact .inl same
          · exact .inr ⟨there, by simp [same, new]⟩

private theorem find?_map {definitions : List ClassDefinition} {name : String}
    (injective : ∀ definition ∈ definitions, change definition.name = change name →
      definition.name = name) :
    (definitions.map (ClassDefinition.map change)).find? (·.name == change name) =
      (definitions.find? (·.name == name)).map (ClassDefinition.map change) := by
  induction definitions with
  | nil => rfl
  | cons definition definitions ih =>
    obtain ⟨here, there⟩ := List.forall_mem_cons.mp injective
    rw [List.map_cons, List.find?_cons, List.find?_cons, ih there]
    by_cases same : definition.name = name
    · simp [ClassDefinition.map, same]
    · have different : change definition.name ≠ change name := fun equal => same (here equal)
      simp only [ClassDefinition.map, beq_eq_false_iff_ne.mpr same, beq_eq_false_iff_ne.mpr different]

variable (injective : ∀ first second, known first → known second → change first = change second →
  first = second)

include injective

theorem supertypes_map (names : hierarchy.Names known) {name : String} (here : known name) :
    (hierarchy.map change).supertypes (change name) = (hierarchy.supertypes name).map change := by
  have apart : ∀ definition ∈ hierarchy.classes, change definition.name = change name →
      definition.name = name :=
    fun definition member => injective definition.name name (names definition member).1 here
  rw [supertypes, supertypes, map, find?_map apart]
  cases hierarchy.classes.find? (·.name == name) <;> rfl

private theorem unseen_map {seen names : List String} (inSeen : ∀ name ∈ seen, known name)
    (inNames : ∀ name ∈ names, known name) :
    unseen (seen.map change) (names.map change) = (unseen seen names).map change := by
  induction names generalizing seen with
  | nil => rfl
  | cons name names ih =>
    obtain ⟨here, there⟩ := List.forall_mem_cons.mp inNames
    -- Here it is needed that different names stay different.
    have same : change name ∈ seen.map change ↔ name ∈ seen := by
      constructor
      · intro member
        obtain ⟨other, member, equal⟩ := List.mem_map.mp member
        exact injective other name (inSeen other member) here equal ▸ member
      · exact List.mem_map_of_mem
    rw [List.map_cons, unseen, unseen]
    simp only [same]
    split
    · exact ih inSeen there
    · rw [List.map_cons, ← ih (List.forall_mem_cons.mpr ⟨here, inSeen⟩) there, List.map_cons]

/-- The walk commutes with the change of names. -/
private theorem walk_map (names : hierarchy.Names known) (visits : Nat) {waiting seen : List String}
    (inWaiting : ∀ name ∈ waiting, known name) (inSeen : ∀ name ∈ seen, known name) :
    (hierarchy.map change).walk visits (waiting.map change) (seen.map change) =
      (hierarchy.walk visits waiting seen).map change := by
  -- The names waiting and the names seen grow together, and all of them are known.
  induction visits generalizing waiting seen with
  | zero => rfl
  | succ visits ih =>
    cases waiting with
    | nil => rfl
    | cons name waiting =>
      obtain ⟨here, there⟩ := List.forall_mem_cons.mp inWaiting
      have above := known_supertypes names name
      have found : ∀ other ∈ unseen seen (hierarchy.supertypes name), known other :=
        fun other member => above other (mem_unseen_iff.mp member).1
      rw [List.map_cons, walk, walk, supertypes_map injective names here,
        unseen_map injective inSeen above, ← List.map_append, ← List.map_append]
      exact ih (List.forall_mem_append.mpr ⟨there, found⟩) (List.forall_mem_append.mpr ⟨inSeen, found⟩)

/-- Every class has the ancestors that it had, under their other names. -/
theorem ancestors_map (names : hierarchy.Names known) {name : String} (here : known name) :
    (hierarchy.map change).ancestors (change name) = (hierarchy.ancestors name).map change := by
  have only : ∀ other ∈ [name], known other := by simpa using here
  rw [ancestors, ancestors, visits_map, List.map_drop]
  exact congrArg (List.drop 1) (walk_map injective names hierarchy.visits only only)

end

/-- A class that is not defined has no ancestors. -/
theorem ancestors_of_undefined {hierarchy : Hierarchy} {name : String}
    (undefined : ∀ definition ∈ hierarchy.classes, definition.name ≠ name) :
    hierarchy.ancestors name = [] := by
  have nothing : hierarchy.supertypes name = [] := by
    have missing : hierarchy.classes.find? (·.name == name) = none :=
      List.find?_eq_none.mpr fun definition member => by simpa using undefined definition member
    rw [supertypes, missing]
  rw [ancestors]
  cases hierarchy.visits with
  | zero => rfl
  | succ visits =>
    rw [walk, nothing]
    -- Nothing was found, so the walk stands still from here on.
    cases visits <;> rfl

/-! ## The hierarchy of some classes -/

/-- The hierarchy that the classes define, in turn. -/
def ofClasses (files : List ClassFile) : Except Fault Hierarchy := files.foldlM insertClass .empty

/-- What a class says about itself and its supertypes. -/
def Defines (file : ClassFile) (definition : ClassDefinition) : Prop :=
  file.name = .ok definition.name ∧ ∃ superName interfaces, file.superName = .ok superName ∧
    file.interfaceNames = .ok interfaces ∧ definition.supertypes = superName.toList ++ interfaces

private theorem insertClass_of_defines {hierarchy : Hierarchy} {file : ClassFile}
    {definition : ClassDefinition} (defines : Defines file definition)
    (fresh : ∀ other ∈ hierarchy.classes, other.name ≠ definition.name) :
    hierarchy.insertClass file = .ok ⟨hierarchy.classes ++ [definition]⟩ := by
  obtain ⟨named, superName, interfaces, derives, implements, supertypes⟩ := defines
  have free : hierarchy.isDefined definition.name = false := by
    simpa [isDefined] using fresh
  simp only [insertClass, named, derives, implements, insert]
  simp [bind, Except.bind, pure, Except.pure, free, ← supertypes]

/-- Classes with different names are all defined, in their order. -/
theorem ofClasses_of_defines {files : List ClassFile} {definitions : List ClassDefinition}
    (defines : List.Forall₂ Defines files definitions)
    (distinct : (definitions.map ClassDefinition.name).Nodup) :
    ofClasses files = .ok ⟨definitions⟩ := by
  -- The classes before it have defined a hierarchy already, in which the next is new.
  have onto : ∀ hierarchy : Hierarchy,
      ((hierarchy.classes ++ definitions).map ClassDefinition.name).Nodup →
      files.foldlM insertClass hierarchy = .ok ⟨hierarchy.classes ++ definitions⟩ := by
    clear distinct
    induction defines with
    | nil =>
      intro hierarchy _
      simp [pure, Except.pure]
    | @cons file definition files definitions first _ ih =>
      intro hierarchy distinct
      have fresh : ∀ other ∈ hierarchy.classes, other.name ≠ definition.name := by
        rw [List.map_append, List.nodup_append] at distinct
        exact fun other member => distinct.2.2 other.name (List.mem_map_of_mem member) _
          List.mem_cons_self
      have rest := ih ⟨hierarchy.classes ++ [definition]⟩ (by simpa using distinct)
      rw [List.append_assoc] at rest
      rw [List.foldlM_cons, insertClass_of_defines first fresh]
      exact rest
  exact onto .empty distinct

end Hierarchy

end JarRemap
