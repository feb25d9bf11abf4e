import JarRemap.Proofs.Hierarchy.Ancestors
import Mathlib.Order.Bounds.Basic

/-!
# Near supertypes first

The walk through a hierarchy runs out of classes to visit, and it lists the supertypes of a class by
their distance: first the direct ones as they are declared, then those that are two steps away, and so
on. What waits to be visited is never more than one step further away than what is visited next.
-/

namespace JarRemap

/-- The other class is reached from the first one over that many steps. -/
inductive Hops (step : String → String → Prop) (start : String) : Nat → String → Prop
  | stay : Hops step start 0 start
  | climb {hops : Nat} {below above : String} :
      Hops step start hops below → step below above → Hops step start (hops + 1) above

/-- The least number of steps over which the other class is reached. -/
def Distance (step : String → String → Prop) (start other : String) (hops : Nat) : Prop :=
  IsLeast {hops | Hops step start hops other} hops

/-- The direct supertypes of a class, the superclass first. Only the first declaration of the class
counts. -/
def ClassDeclaration.supertypesOf (declarations : List ClassDeclaration) (name : String) :
    List String :=
  match declarations.find? (·.name == name) with
  | some declaration => declaration.superName.toList ++ declaration.interfaces
  | none => []

namespace Hierarchy

theorem supertypes_declared (declarations : List ClassDeclaration) (name : String) :
    (declared declarations).supertypes name = ClassDeclaration.supertypesOf declarations name := by
  rw [supertypes, declared, find?_withAll, ClassDeclaration.supertypesOf]
  cases declarations.find? (·.name == name) <;> rfl

/-- The names that were not seen before, each at its first place. -/
theorem unseen_eq (seen names : List String) :
    unseen seen names = (names.filter (· ∉ seen)).eraseDups := by
  induction names generalizing seen with
  | nil => rfl
  | cons name names ih =>
    rw [unseen]
    split
    next here => rw [List.filter_cons_of_neg (by simpa using here), ih]
    next fresh =>
      rw [List.filter_cons_of_pos (by simpa using fresh), List.eraseDups_cons, ih, List.filter_filter]
      congr 2
      refine List.filter_congr fun other _ => ?_
      simp [not_or, beq_eq_decide]

/-- The first visit finds the direct supertypes, and they stay in front. -/
theorem direct_supertypes_prefix (hierarchy : Hierarchy) (name : String) :
    ((hierarchy.supertypes name).filter (· ≠ name)).eraseDups <+: hierarchy.ancestors name := by
  have first : unseen [name] (hierarchy.supertypes name) =
      ((hierarchy.supertypes name).filter (· ≠ name)).eraseDups := by
    simp [unseen_eq]
  obtain same | ⟨_, ⟨_⟩, later⟩ :=
    Relation.ReflTransGen.cases_head (hierarchy.lineage_visits name)
  · cases congrArg Prod.fst same
  · have grows := @visits_keep hierarchy
      (fun _ seen => name :: unseen [name] (hierarchy.supertypes name) <+: seen)
      (fun _ _ _ front => front.trans (List.prefix_append _ _)) _ _ later (List.prefix_refl _)
    rw [← first]
    exact (List.prefix_cons_inj name).mp grows

section

variable {hierarchy : Hierarchy} {start : String}

/-- A class is above another one if it is a direct supertype of it. -/
def Above (hierarchy : Hierarchy) (name supertype : String) : Prop :=
  supertype ∈ hierarchy.supertypes name

/-- How far a walk has come. The classes that wait are `level` steps away, or one more, and in this
order. Nothing nearer is missing, and what is still missing at the next distance is a direct supertype
of one of the nearer classes that wait. -/
structure Layered (hierarchy : Hierarchy) (start : String) (level : Nat)
    (visited near far : List String) : Prop where
  ordered : ∃ distances, List.Forall₂ (Distance hierarchy.Above start) visited distances ∧
    distances.Pairwise (· ≤ ·) ∧ ∀ distance ∈ distances, distance ≤ level
  nearby : ∀ name ∈ near, Distance hierarchy.Above start name level
  further : ∀ name ∈ far, Distance hierarchy.Above start name (level + 1)
  within : ∀ hops ≤ level, ∀ name, Hops hierarchy.Above start hops name → name ∈ visited ++ (near ++ far)
  next : ∀ name, Hops hierarchy.Above start (level + 1) name →
    name ∈ visited ++ (near ++ far) ∨ ∃ below ∈ near, hierarchy.Above below name

namespace Layered

theorem begin (hierarchy : Hierarchy) (start : String) : Layered hierarchy start 0 [] [start] [] where
  ordered := ⟨[], .nil, .nil, by simp⟩
  nearby name member := by
    obtain rfl := List.mem_singleton.mp member
    exact ⟨.stay, fun _ _ => Nat.zero_le _⟩
  further := by simp
  within hops none name reached := by
    obtain rfl := Nat.le_zero.mp none
    cases reached
    simp
  next name reached := by
    cases reached with
    | climb reached above =>
      cases reached
      exact .inr ⟨start, List.mem_singleton_self start, above⟩

/-- When no near class waits, those one step further away are the near ones. -/
theorem shift {level : Nat} {visited far : List String}
    (layered : Layered hierarchy start level visited [] far) :
    Layered hierarchy start (level + 1) visited far [] := by
  obtain ⟨distances, measured, sorted, bounded⟩ := layered.ordered
  have within : ∀ hops ≤ level + 1, ∀ name, Hops hierarchy.Above start hops name →
      name ∈ visited ++ far := by
    intro hops low name reached
    obtain low | rfl := Nat.le_or_eq_of_le_succ low
    · exact layered.within hops low name reached
    · obtain here | ⟨_, absent, -⟩ := layered.next name reached
      · exact here
      · cases absent
  have bounded' : ∀ distance ∈ distances, distance ≤ level + 1 := fun distance member =>
    Nat.le_succ_of_le (bounded distance member)
  refine ⟨⟨distances, measured, sorted, bounded'⟩, layered.further, by simp, by simpa using within, fun name reached => ?_⟩
  cases reached with
  | climb reached above =>
    rename_i below
    -- The class below is one of those that wait now, or so near that its supertypes are known.
    obtain visit | waits := List.mem_append.mp (within _ (Nat.le_refl _) below reached)
    · obtain ⟨distance, member, least⟩ : ∃ distance ∈ distances,
          Distance hierarchy.Above start below distance := by
        obtain ⟨position, here⟩ := List.getElem?_of_mem visit
        obtain ⟨distance, there, least⟩ := forall₂_getElem? measured here
        exact ⟨distance, List.mem_of_getElem? there, least⟩
      have known := within (distance + 1) (Nat.succ_le_succ (bounded distance member)) name
        (least.1.climb above)
      exact .inl (by simpa using known)
    · exact .inr ⟨below, waits, above⟩

/-- A visit of a near class finds supertypes that are one step further away. -/
theorem visit {level : Nat} {name : String} {visited near far : List String}
    (layered : Layered hierarchy start level visited (name :: near) far) :
    Layered hierarchy start level (visited ++ [name]) near
      (far ++ unseen (visited ++ (name :: near ++ far)) (hierarchy.supertypes name)) := by
  obtain ⟨distances, measured, sorted, bounded⟩ := layered.ordered
  obtain ⟨here, others⟩ := List.forall_mem_cons.mp layered.nearby
  have still : ∀ other ∈ visited ++ (name :: near ++ far), other ∈ visited ++ [name] ++
      (near ++ (far ++ unseen (visited ++ (name :: near ++ far)) (hierarchy.supertypes name))) := by
    intro other member
    simp only [List.mem_append, List.mem_cons] at member ⊢
    tauto
  refine ⟨⟨distances ++ [level], List.rel_append measured (.cons here .nil), ?_, ?_⟩, others, ?_, ?_, ?_⟩
  · exact List.pairwise_append.mpr ⟨sorted, List.pairwise_singleton _ _, by simpa using bounded⟩
  · simpa [or_imp, forall_and] using bounded
  · intro other member
    obtain old | found := List.mem_append.mp member
    · exact layered.further other old
    · obtain ⟨above, fresh⟩ := mem_unseen_iff.mp found
      refine ⟨here.1.climb above, fun hops reached => ?_⟩
      -- Nothing nearer was missing, but this class was.
      by_contra near
      exact fresh (layered.within hops (by omega) other reached)
  · exact fun hops low other reached => still other (layered.within hops low other reached)
  · intro other reached
    obtain known | ⟨below, waits, above⟩ := layered.next other reached
    · exact .inl (still other known)
    obtain rfl | waits := List.mem_cons.mp waits
    · by_cases known : other ∈ visited ++ (below :: near ++ far)
      · exact .inl (still other known)
      · have found := mem_unseen_iff.mpr ⟨above, known⟩
        exact .inl (by simp only [List.mem_append]; tauto)
    · exact .inr ⟨below, waits, above⟩

end Layered

/-- The classes that wait are the last ones seen, and they are the layers of a walk. -/
def InLayers (hierarchy : Hierarchy) (start : String) (waiting seen : List String) : Prop :=
  ∃ level visited near far, waiting = near ++ far ∧ seen = visited ++ (near ++ far) ∧
    Layered hierarchy start level visited near far

theorem InLayers.begin (hierarchy : Hierarchy) (start : String) :
    InLayers hierarchy start [start] [start] :=
  ⟨0, [], [start], [], rfl, rfl, .begin hierarchy start⟩

theorem InLayers.visit (name : String) (waiting seen : List String)
    (layers : InLayers hierarchy start (name :: waiting) seen) :
    InLayers hierarchy start (waiting ++ unseen seen (hierarchy.supertypes name))
      (seen ++ unseen seen (hierarchy.supertypes name)) := by
  obtain ⟨level, visited, near, far, waits, rfl, layered⟩ := layers
  cases near with
  | nil =>
    obtain rfl : name :: waiting = far := waits
    exact ⟨level + 1, visited ++ [name], waiting, _, rfl, by simp, by simpa using layered.shift.visit⟩
  | cons nearest near =>
    obtain ⟨rfl, rfl⟩ := List.cons.inj waits
    exact ⟨level, visited ++ [name], near, _, by simp, by simp, layered.visit⟩

/-- The ancestors have distances that never decrease. -/
theorem exists_distances (hierarchy : Hierarchy) (name : String) :
    ∃ distances, List.Forall₂ (Distance hierarchy.Above name) (hierarchy.ancestors name) distances ∧
      distances.Pairwise (· ≤ ·) := by
  have ended : InLayers hierarchy name [] (name :: hierarchy.ancestors name) :=
    visits_keep .visit (hierarchy.lineage_visits name) (.begin hierarchy name)
  obtain ⟨level, visited, near, far, empty, whole, layered⟩ := ended
  obtain ⟨rfl, rfl⟩ := List.append_eq_nil_iff.mp empty.symm
  obtain ⟨distances, measured, sorted, -⟩ := layered.ordered
  obtain rfl : name :: hierarchy.ancestors name = visited := by simpa using whole
  cases measured with
  | cons _ measured => exact ⟨_, measured, (List.pairwise_cons.mp sorted).2⟩

end

open ClassDeclaration (Extends supertypesOf)

/-- The walk through declared classes ends, and lists every class above the one where it begins once:
the direct supertypes first, in the order in which they are declared, and no class in front of one that
is nearer. -/
theorem ancestors_declared (declarations : List ClassDeclaration) (name : String) :
    let hierarchy := declared declarations
    let above := hierarchy.ancestors name
    Relation.ReflTransGen hierarchy.Visit ([name], [name]) ([], name :: above) ∧
    (∀ other, other ∈ above ↔ other ≠ name ∧ Relation.TransGen (Extends declarations) name other) ∧
    above.Nodup ∧
    (∃ distances, List.Forall₂ (Distance (Extends declarations) name) above distances ∧
      distances.Pairwise (· ≤ ·)) ∧
    ((supertypesOf declarations name).filter (· ≠ name)).eraseDups <+: above := by
  intro hierarchy above
  -- The walk lists the class itself first, and no class twice.
  have distinct : name ∉ above ∧ above.Nodup :=
    List.nodup_cons.mp (hierarchy.lineage_walked name).distinct
  have upward : hierarchy.Above = Extends declarations := by
    ext class_ supertype
    exact mem_supertypes_declared_iff declarations class_ supertype
  refine ⟨hierarchy.lineage_visits name, fun other => ?_, distinct.2, ?_, ?_⟩
  · have reached : other ∈ name :: above ↔ Relation.ReflTransGen (Extends declarations) name other :=
      (hierarchy.mem_lineage_iff name other).trans (reaches_declared_iff declarations name other)
    rw [List.mem_cons, Relation.reflTransGen_iff_eq_or_transGen] at reached
    constructor
    · intro member
      have different : other ≠ name := fun same => distinct.1 (same ▸ member)
      exact ⟨different, (reached.mp (.inr member)).resolve_left different⟩
    · rintro ⟨different, climbs⟩
      exact (reached.mpr (.inr climbs)).resolve_left different
  · rw [← upward]
    exact hierarchy.exists_distances name
  · rw [← supertypes_declared]
    exact hierarchy.direct_supertypes_prefix name

example : (declared [⟨"c", some "b", ["i"]⟩, ⟨"b", some "a", ["j"]⟩, ⟨"a", some "o", []⟩,
    ⟨"i", some "o", ["j"]⟩]).ancestors "c" = ["b", "i", "a", "j", "o"] := by decide

end Hierarchy

end JarRemap
