import JarRemap.Pass
import JarRemap.Proofs.Access.Sites
import JarRemap.Proofs.Edit

/-!
# Marks in the ledger

Work on a class marks records in the ledger of the rules as effective. Which ones does not depend on
the marks that are there already, and no mark is ever taken away. So it does not matter what was
worked on before.
-/

namespace JarRemap

namespace Ledger

/-- The ledger after rules with these keys have changed something. -/
def marked (ledger : Ledger) (keys : List String) : Ledger :=
  ⟨ledger.records.map fun record =>
    if record.key ∈ keys then { record with effective := true } else record⟩

theorem marked_nil (ledger : Ledger) : ledger.marked [] = ledger := by
  simp [marked]

theorem marked_marked (ledger : Ledger) (first second : List String) :
    (ledger.marked first).marked second = ledger.marked (first ++ second) := by
  rw [marked, marked, marked, List.map_map]
  congr 1
  refine List.map_congr_left fun record _ => ?_
  by_cases here : record.key ∈ first <;> by_cases there : record.key ∈ second <;> simp [here, there]

/-- Only the set of keys counts. -/
theorem marked_congr {first second : List String} (same : ∀ key, key ∈ first ↔ key ∈ second)
    (ledger : Ledger) : ledger.marked first = ledger.marked second := by
  simp only [marked, same]

theorem note_eq_marked (ledger : Ledger) (key : String) (changed : Bool) :
    ledger.note key changed = ledger.marked (if changed then [key] else []) := by
  cases changed <;> simp [note, marked]

end Ledger

namespace AccessRule

/-- Applied to the class, the rule changes an access value. -/
def changes (rule : AccessRule) (tracked : TrackedClass) : Bool :=
  accessValues (rule.applied tracked).1.current != accessValues tracked.current

/-- A rule that matched nothing did not change anything either. -/
theorem apply_cases (rule : AccessRule) (tracked : TrackedClass) :
    rule.apply tracked = ((rule.applied tracked).1, some (rule.changes tracked)) ∨
      rule.apply tracked = ((rule.applied tracked).1, none) ∧ rule.changes tracked = false := by
  cases matched : (rule.applied tracked).2 with
  | true =>
    left
    simp only [apply, matched, changes, if_true]
  | false =>
    right
    constructor
    · simp only [apply, matched, Bool.false_eq_true, if_false]
    · simp only [changes, rule.applied_unmatched tracked matched, bne_self_eq_false]

/-- Rules that are applied in turn, each with the class that it is applied to. -/
def inTurn : List AccessRule → TrackedClass → List (AccessRule × TrackedClass)
  | [], _ => []
  | rule :: rest, tracked => (rule, tracked) :: inTurn rest (rule.applied tracked).1

theorem mem_of_mem_inTurn {rules : List AccessRule} {tracked before : TrackedClass}
    {rule : AccessRule} (applied : (rule, before) ∈ inTurn rules tracked) : rule ∈ rules := by
  induction rules generalizing tracked with
  | nil => cases applied
  | cons first rest ih =>
    rcases List.mem_cons.mp applied with same | later
    · obtain ⟨rfl, -⟩ := Prod.mk.inj same
      exact List.mem_cons_self
    · exact List.mem_cons_of_mem _ (ih later)

/-- The keys of the rules that change something in their turn. -/
def changedKeys (rules : List AccessRule) (tracked : TrackedClass) : List String :=
  ((inTurn rules tracked).filter fun (rule, before) => rule.changes before).map fun (rule, _) => rule.key

theorem mem_changedKeys_iff (rules : List AccessRule) (tracked : TrackedClass) (key : String) :
    key ∈ changedKeys rules tracked ↔ ∃ rule before, (rule, before) ∈ inTurn rules tracked ∧
      rule.key = key ∧ rule.changes before = true := by
  simp only [changedKeys, List.mem_map, List.mem_filter, Prod.exists]
  refine exists_congr fun rule => exists_congr fun before => ?_
  rw [and_assoc, and_comm (b := rule.key = key)]

theorem changedKeys_cons (rule : AccessRule) (rules : List AccessRule) (tracked : TrackedClass) :
    changedKeys (rule :: rules) tracked =
      (if rule.changes tracked then [rule.key] else []) ++
        changedKeys rules (rule.applied tracked).1 := by
  rw [changedKeys, inTurn, List.filter_cons]
  by_cases changed : rule.changes tracked
  · rw [if_pos changed, if_pos changed]
    rfl
  · rw [if_neg changed, if_neg changed]
    rfl

end AccessRule

namespace RuleSet

def marked (set : RuleSet) (keys : List String) : RuleSet :=
  { set with ledger := set.ledger.marked keys }

theorem marked_nil (set : RuleSet) : set.marked [] = set := by
  rw [marked, Ledger.marked_nil]

theorem marked_congr {first second : List String} (same : ∀ key, key ∈ first ↔ key ∈ second)
    (set : RuleSet) : set.marked first = set.marked second := by
  rw [marked, marked, Ledger.marked_congr same]

/-- The ledger gets the marks of the rules that change something in their turn. What becomes of the
class does not depend on it. -/
theorem applyAll_marked (rules : List AccessRule) (tracked : TrackedClass) (ledger : Ledger) :
    applyAll rules tracked ledger =
      ((applyAll rules tracked .empty).1, ledger.marked (AccessRule.changedKeys rules tracked),
        (applyAll rules tracked .empty).2.2) := by
  induction rules generalizing tracked ledger with
  | nil => exact congrArg (fun ledger => (tracked, ledger, false)) ledger.marked_nil.symm
  | cons rule rules ih =>
    rw [AccessRule.changedKeys_cons, ← Ledger.marked_marked, ← Ledger.note_eq_marked]
    rcases rule.apply_cases tracked with applied | ⟨applied, same⟩
    · simp only [applyAll, applied]
      rw [ih _ (ledger.note rule.key (rule.changes tracked)),
        ih _ (Ledger.empty.note rule.key (rule.changes tracked))]
    · -- A rule that matches nothing is not noted, but there is nothing to note either.
      simp only [applyAll, applied, same, Ledger.note_eq_marked, Bool.false_eq_true, if_false,
        Ledger.marked_nil]
      exact ih _ ledger

private theorem exists_applyTo (set : RuleSet) (tracked : TrackedClass) :
    (∃ fault, ∀ marks, (set.marked marks).applyTo tracked = .error fault) ∨
      ∃ after keys changed, ∀ marks,
        (set.marked marks).applyTo tracked = .ok (set.marked (marks ++ keys), after, changed) := by
  cases named : tracked.current.name with
  | error fault => exact .inl ⟨fault, fun marks => by rw [applyTo, named]; rfl⟩
  | ok name =>
    -- Which rules are tried does not depend on the ledger.
    obtain ⟨after, keys, changed, applies⟩ : ∃ after keys changed, ∀ ledger : Ledger,
        applyAll (set.candidates tracked.first.name name) tracked ledger =
          (after, ledger.marked keys, changed) := ⟨_, _, _, applyAll_marked _ tracked⟩
    refine .inr ⟨after, keys, changed, fun marks => ?_⟩
    have tried : applyAll ((set.marked marks).candidates tracked.first.name name) tracked
        (set.marked marks).ledger = (after, set.ledger.marked (marks ++ keys), changed) := by
      rw [← Ledger.marked_marked]
      exact applies _
    simp only [applyTo, named, bind, Except.bind, pure, Except.pure, tried]
    rfl

end RuleSet

namespace Transform

private theorem exists_apply (symbols : SymbolMap) (transform : Transform) (set : RuleSet)
    (tracked : TrackedClass) :
    ∃ outcome after keys, ∀ marks, ran (transform.apply symbols) ⟨tracked, set.marked marks⟩ =
      (outcome, ⟨after, set.marked (marks ++ keys)⟩) := by
  -- Only rules look at the ledger, and all they do there is to mark keys.
  cases transform with
  | remap =>
    refine ⟨(ran (Remap.remapClass symbols) tracked.current).1,
      { tracked with current := (ran (Remap.remapClass symbols) tracked.current).2 }, [], ?_⟩
    intro marks
    rw [List.append_nil]
    rfl
  | access =>
    rcases set.exists_applyTo tracked with ⟨fault, applies⟩ | ⟨after, keys, changed, applies⟩
    · refine ⟨.error fault, tracked, [], fun marks => ?_⟩
      simp only [apply, ClassWork.applyRules, ran_mk, applies, List.append_nil]
    · refine ⟨.ok changed, after, keys, fun marks => ?_⟩
      simp only [apply, ClassWork.applyRules, ran_mk, applies]
  | strip =>
    cases stripped : Synthetic.strip tracked.current with
    | error fault =>
      refine ⟨.error fault, tracked, [], fun marks => ?_⟩
      simp only [apply, ClassWork.strip, ran_mk, stripped, List.append_nil]
    | ok found =>
      refine ⟨.ok found.2, { tracked with current := found.1 }, [], fun marks => ?_⟩
      simp only [apply, ClassWork.strip, ran_mk, stripped, List.append_nil]

/-- A pass over a class has one outcome, leaves one class and marks the same records, whatever is
marked already. -/
theorem exists_applyAll (symbols : SymbolMap) (transforms : List Transform) (set : RuleSet)
    (tracked : TrackedClass) :
    ∃ outcome after keys, ∀ marks, ran (applyAll symbols transforms) ⟨tracked, set.marked marks⟩ =
      (outcome, ⟨after, set.marked (marks ++ keys)⟩) := by
  induction transforms generalizing tracked with
  | nil => exact ⟨.ok false, tracked, [], fun marks => by rw [List.append_nil]; rfl⟩
  | cons transform transforms ih =>
    obtain ⟨outcome, middle, keys, runs⟩ := exists_apply symbols transform set tracked
    cases outcome with
    | error fault =>
      refine ⟨.error fault, middle, keys, fun marks => ?_⟩
      rw [applyAll, ran_bind, runs]
    | ok changed =>
      -- The marks of the first transform are among those that the others find, which do not read
      -- them.
      obtain ⟨outcome, after, others, rest⟩ := ih middle
      refine ⟨(changed || ·) <$> outcome, after, keys ++ others, fun marks => ?_⟩
      rw [applyAll, ran_bind, runs]
      simp only [ran_bind, rest, List.append_assoc]
      cases outcome <;> rfl

end Transform

/-! ## Runs over many classes -/

section

variable {ε α β γ : Type} {set : RuleSet}

/-- The work has one outcome and marks the records with the keys, whatever is marked already. -/
def Marks (set : RuleSet) (work : ExceptT ε (StateM RuleSet) α) (outcome : Except ε α)
    (keys : List String) : Prop :=
  ∀ marks, ran work (set.marked marks) = (outcome, set.marked (marks ++ keys))

theorem Marks.gives_iff {work : ExceptT ε (StateM RuleSet) α} {outcome : Except ε α}
    {keys : List String} (marking : Marks set work outcome keys) (marks : List String) (value : α)
    (after : RuleSet) :
    Gives work (set.marked marks) value after ↔
      outcome = .ok value ∧ after = set.marked (marks ++ keys) := by
  rw [Gives, marking marks, Prod.mk.injEq, @eq_comm _ after]

theorem marks_lift (outcome : Except ε α) : Marks set (liftM outcome) outcome [] := by
  intro marks
  rw [ran_lift, List.append_nil]

theorem exists_marks_bind {work : ExceptT ε (StateM RuleSet) α}
    {next : α → ExceptT ε (StateM RuleSet) β} (first : ∃ outcome keys, Marks set work outcome keys)
    (second : ∀ value, ∃ outcome keys, Marks set (next value) outcome keys) :
    ∃ outcome keys, Marks set (work >>= next) outcome keys := by
  obtain ⟨outcome, keys, runs⟩ := first
  cases outcome with
  | error fault =>
    refine ⟨.error fault, keys, fun marks => ?_⟩
    rw [ran_bind, runs]
  | ok value =>
    obtain ⟨outcome, others, rest⟩ := second value
    refine ⟨outcome, keys ++ others, fun marks => ?_⟩
    rw [ran_bind, runs, ← List.append_assoc]
    exact rest (marks ++ keys)

/-- A run succeeds if the work on each item does, and leaves all their marks. -/
theorem gives_mapM_iff {step : γ → ExceptT ε (StateM RuleSet) α} {outcome : γ → Except ε α}
    {keys : γ → List String} (each : ∀ item, Marks set (step item) (outcome item) (keys item))
    (items : List γ) (marks : List String) (results : List α) (after : RuleSet) :
    Gives (items.mapM step) (set.marked marks) results after ↔
      items.mapM outcome = .ok results ∧ after = set.marked (marks ++ items.flatMap keys) := by
  induction items generalizing marks results with
  | nil =>
    rw [List.mapM_nil, List.mapM_nil, gives_pure_iff, pure_ok_iff, List.flatMap_nil, List.append_nil,
      @eq_comm _ results]
  | cons item items ih =>
    simp only [List.mapM_cons, List.flatMap_cons, gives_bind_iff, bind_ok_iff, gives_pure_iff,
      pure_ok_iff, (each item).gives_iff, ← List.append_assoc]
    constructor
    · rintro ⟨value, _, ⟨found, rfl⟩, others, _, rest, rfl, rfl⟩
      obtain ⟨founds, rfl⟩ := (ih (marks ++ keys item) others).mp rest
      exact ⟨⟨value, found, others, founds, rfl⟩, rfl⟩
    · rintro ⟨⟨value, found, others, founds, rfl⟩, rfl⟩
      have rest := (ih (marks ++ keys item) others).mpr ⟨founds, rfl⟩
      exact ⟨value, _, ⟨found, rfl⟩, others, _, rest, rfl, rfl⟩

end

end JarRemap
