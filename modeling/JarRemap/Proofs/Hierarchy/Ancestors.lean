import JarRemap.Proofs.Hierarchy
import Mathlib.Data.List.Perm.Subperm
import Mathlib.Logic.Relation

/-!
# Every supertype

The walk through a hierarchy finds every class that can be reached over declared supertypes, and no
other one. Declarations may run in circles, meet again or name classes that nobody declares.
-/

namespace JarRemap

/-- What a class is declared with. -/
structure ClassDeclaration where
  name : String
  superName : Option String
  interfaces : List String
deriving DecidableEq, Repr

namespace ClassDeclaration

def definition (declaration : ClassDeclaration) : ClassDefinition :=
  ⟨declaration.name, declaration.superName.toList ++ declaration.interfaces⟩

/-- The other class is the superclass of the first one or one of its interfaces. Only the first
declaration of a class counts. -/
def Extends (declarations : List ClassDeclaration) (name supertype : String) : Prop :=
  ∃ declaration, declarations.find? (·.name == name) = some declaration ∧
    (declaration.superName = some supertype ∨ supertype ∈ declaration.interfaces)

/-- The other class is the first one or among its transitive supertypes. -/
def Inherits (declarations : List ClassDeclaration) : String → String → Prop :=
  Relation.ReflTransGen (Extends declarations)

end ClassDeclaration

namespace Hierarchy

/-- Defines the classes one after another. -/
def withAll (hierarchy : Hierarchy) (declarations : List ClassDeclaration) : Hierarchy :=
  declarations.foldl
    (fun hierarchy class_ => hierarchy.insert class_.name class_.superName class_.interfaces) hierarchy

def declared (declarations : List ClassDeclaration) : Hierarchy := empty.withAll declarations

private theorem find?_insert (hierarchy : Hierarchy) (declaration : ClassDeclaration) (name : String) :
    (hierarchy.insert declaration.name declaration.superName declaration.interfaces).classes.find?
        (·.name == name) =
      (hierarchy.classes.find? (·.name == name)).or
        (if declaration.name = name then some declaration.definition else none) := by
  rw [insert]
  split
  next defined =>
    by_cases same : declaration.name = name
    · -- The class has a definition already, and the new one is dropped.
      have found : (hierarchy.classes.find? (·.name == name)).isSome := by
        rw [List.find?_isSome]
        simpa [isDefined, same] using defined
      obtain ⟨definition, found⟩ := Option.isSome_iff_exists.mp found
      rw [found, Option.some_or]
    · rw [if_neg same, Option.or_none]
  next fresh =>
    rw [List.find?_append, List.find?_singleton]
    by_cases same : declaration.name = name <;> simp [same, ClassDeclaration.definition]

theorem find?_withAll (declarations : List ClassDeclaration) (hierarchy : Hierarchy)
    (name : String) :
    (hierarchy.withAll declarations).classes.find? (·.name == name) =
      (hierarchy.classes.find? (·.name == name)).or
        ((declarations.find? (·.name == name)).map ClassDeclaration.definition) := by
  induction declarations generalizing hierarchy with
  | nil => rw [withAll, List.foldl_nil, List.find?_nil, Option.map_none, Option.or_none]
  | cons declaration declarations ih =>
    have rest := ih (hierarchy.insert declaration.name declaration.superName declaration.interfaces)
    rw [find?_insert, Option.or_assoc] at rest
    rw [withAll, List.foldl_cons]
    refine rest.trans (congrArg _ ?_)
    rw [List.find?_cons]
    by_cases same : declaration.name = name
    · simp [same]
    · rw [if_neg same, Option.none_or, beq_eq_false_iff_ne.mpr same]

/-- The direct supertypes are those of the first declaration. -/
theorem mem_supertypes_declared_iff (declarations : List ClassDeclaration) (name supertype : String) :
    supertype ∈ (declared declarations).supertypes name ↔
      ClassDeclaration.Extends declarations name supertype := by
  rw [supertypes, declared, find?_withAll, ClassDeclaration.Extends]
  cases declarations.find? (·.name == name) with
  | none => simp [empty]
  | some declaration => simp [empty, ClassDeclaration.definition]

/-! ## The walk -/

/-- The other class is the first one or reached from it over direct supertypes. -/
def Reaches (hierarchy : Hierarchy) : String → String → Prop :=
  Relation.ReflTransGen fun name supertype => supertype ∈ hierarchy.supertypes name

variable {hierarchy : Hierarchy} {start : String}

/-- What a walk keeps: it has seen nothing but what it can reach, each class once, and all that is
above a class which no longer waits. -/
structure Walking (hierarchy : Hierarchy) (start : String) (waiting seen : List String) : Prop where
  first : [start] <+: seen
  distinct : seen.Nodup
  reached : ∀ name ∈ seen, hierarchy.Reaches start name
  pending : ∀ name ∈ waiting, name ∈ seen
  closed : ∀ name ∈ seen, name ∉ waiting → ∀ supertype ∈ hierarchy.supertypes name, supertype ∈ seen

private theorem nodup_unseen (seen names : List String) : (unseen seen names).Nodup := by
  induction names generalizing seen with
  | nil => exact List.nodup_nil
  | cons name names ih =>
    rw [unseen]
    split
    · exact ih seen
    · refine List.nodup_cons.mpr ⟨fun again => ?_, ih _⟩
      exact (mem_unseen_iff.mp again).2 List.mem_cons_self

namespace Walking

theorem begin (hierarchy : Hierarchy) (start : String) : Walking hierarchy start [start] [start] where
  first := List.prefix_refl _
  distinct := List.pairwise_singleton _ start
  reached name member := by
    obtain rfl := List.mem_singleton.mp member
    exact .refl
  pending _ member := member
  closed _ member absent := absurd member absent

theorem visit {name : String} {waiting seen : List String}
    (walking : Walking hierarchy start (name :: waiting) seen) :
    Walking hierarchy start (waiting ++ unseen seen (hierarchy.supertypes name))
      (seen ++ unseen seen (hierarchy.supertypes name)) where
  first := walking.first.trans (List.prefix_append _ _)
  distinct := by
    refine List.nodup_append.mpr ⟨walking.distinct, nodup_unseen _ _, ?_⟩
    rintro old here _ found rfl
    exact (mem_unseen_iff.mp found).2 here
  reached other member := by
    rcases List.mem_append.mp member with here | found
    · exact walking.reached other here
    · have below := walking.reached name (walking.pending name List.mem_cons_self)
      exact below.tail (mem_unseen_iff.mp found).1
  pending other member := by
    rcases List.mem_append.mp member with waits | found
    · exact List.mem_append_left _ (walking.pending other (List.mem_cons_of_mem _ waits))
    · exact List.mem_append_right _ found
  closed other member done supertype above := by
    rw [List.mem_append, not_or] at done
    by_cases again : supertype ∈ seen
    · exact List.mem_append_left _ again
    -- Only the class that is being visited can have a supertype that was not seen before.
    have visited : other = name := by
      by_contra different
      have here := (List.mem_append.mp member).resolve_right done.2
      have rested : other ∉ name :: waiting := by simp [different, done.1]
      exact again (walking.closed other here rested supertype above)
    subst visited
    exact List.mem_append_right _ (mem_unseen_iff.mpr ⟨above, again⟩)

private theorem visits_eq (hierarchy : Hierarchy) :
    hierarchy.visits = (hierarchy.classes.flatMap ClassDefinition.supertypes).length + 1 := by
  rw [visits]
  induction hierarchy.classes with
  | nil => rfl
  | cons definition definitions ih =>
    rw [List.foldr_cons, ih, List.flatMap_cons, List.length_append, Nat.add_assoc]

/-- Whatever is reached was declared as a supertype, so there is room for all of it. -/
theorem length_le_visits {waiting seen : List String}
    (walking : Walking hierarchy start waiting seen) : seen.length ≤ hierarchy.visits := by
  have known : seen ⊆ start :: hierarchy.classes.flatMap ClassDefinition.supertypes := by
    intro name member
    rcases Relation.ReflTransGen.cases_tail (walking.reached name member) with same | ⟨below, -, above⟩
    · exact same ▸ List.mem_cons_self
    · rw [supertypes] at above
      split at above
      next definition found =>
        have defined := List.mem_of_find?_eq_some found
        exact List.mem_cons_of_mem _ (List.mem_flatMap.mpr ⟨definition, defined, above⟩)
      · cases above
  have fits := (walking.distinct.subperm known).length_le
  rw [visits_eq]
  exact fits

end Walking

/-- One round of the walk, on the classes that wait and on those seen: the first class that waits is
visited, and what is found above it waits behind the others. -/
inductive Visit (hierarchy : Hierarchy) : List String × List String → List String × List String → Prop
  | next (name : String) (waiting seen : List String) :
      Visit hierarchy (name :: waiting, seen)
        (waiting ++ unseen seen (hierarchy.supertypes name),
          seen ++ unseen seen (hierarchy.supertypes name))

/-- A walk with enough visits left goes on until no class waits any more. -/
private theorem walk_visits {visits : Nat} {waiting seen : List String}
    (walking : Walking hierarchy start waiting seen)
    (enough : visits + seen.length = hierarchy.visits + waiting.length) :
    Relation.ReflTransGen hierarchy.Visit (waiting, seen) ([], hierarchy.walk visits waiting seen) := by
  induction visits generalizing waiting seen with
  | zero =>
    have short := walking.length_le_visits
    obtain rfl : waiting = [] := List.length_eq_zero_iff.mp (by omega)
    exact .refl
  | succ visits ih =>
    cases waiting with
    | nil => exact .refl
    | cons name waiting =>
      rw [walk]
      refine .head (.next name waiting seen) (ih walking.visit ?_)
      -- A visit takes one class from the queue, and what it finds is added on both sides.
      simp only [List.length_append, List.length_cons] at enough ⊢
      omega

/-- What every visit keeps holds when the walk has ended. -/
theorem visits_keep {kept : List String → List String → Prop}
    (visit : ∀ name waiting seen, kept (name :: waiting) seen →
      kept (waiting ++ unseen seen (hierarchy.supertypes name))
        (seen ++ unseen seen (hierarchy.supertypes name)))
    {before after : List String × List String}
    (visits : Relation.ReflTransGen hierarchy.Visit before after) (begun : kept before.1 before.2) : kept after.1 after.2 := by
  induction visits with
  | refl => exact begun
  | tail _ last ih =>
    obtain ⟨name, waiting, seen⟩ := last
    exact visit name waiting seen ih

/-- A walk begins with the class alone and ends with its ancestors behind it. -/
theorem lineage_visits (hierarchy : Hierarchy) (name : String) :
    Relation.ReflTransGen hierarchy.Visit ([name], [name]) ([], name :: hierarchy.ancestors name) := by
  have visits := walk_visits (.begin hierarchy name) rfl
  have ended : Walking hierarchy name [] (hierarchy.walk hierarchy.visits [name] [name]) :=
    visits_keep (fun _ _ _ => Walking.visit) visits (.begin hierarchy name)
  obtain ⟨rest, whole⟩ := ended.first
  rw [ancestors]
  rw [← whole] at visits ⊢
  exact visits

theorem lineage_walked (hierarchy : Hierarchy) (name : String) :
    Walking hierarchy name [] (name :: hierarchy.ancestors name) :=
  visits_keep (fun _ _ _ => Walking.visit) (hierarchy.lineage_visits name) (.begin hierarchy name)

/-- The class and its ancestors are all that can be reached from it. -/
theorem mem_lineage_iff (hierarchy : Hierarchy) (name other : String) :
    other ∈ name :: hierarchy.ancestors name ↔ hierarchy.Reaches name other := by
  have ended := hierarchy.lineage_walked name
  constructor
  · exact ended.reached other
  · intro reaches
    induction reaches with
    | refl => exact ended.first.subset List.mem_cons_self
    | tail _ above ih => exact ended.closed _ ih List.not_mem_nil _ above

/-- From a declared class, its transitive supertypes are reached. -/
theorem reaches_declared_iff (declarations : List ClassDeclaration) (name other : String) :
    (declared declarations).Reaches name other ↔ ClassDeclaration.Inherits declarations name other := by
  simp only [Reaches, ClassDeclaration.Inherits, mem_supertypes_declared_iff]

end Hierarchy

end JarRemap
