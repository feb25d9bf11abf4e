import JarRemap.Fault
import Mathlib.Data.List.Forall2
import Mathlib.Order.Defs.Unbundled

/-!
# Edits and the states they leave

An edit leaves a state behind even if it fails. What it does is said in two ways: how the states
before and after it are related whatever its outcome, and what holds if it succeeds.
-/

namespace JarRemap

section

variable {ε σ α β : Type}

/-- The outcome of the edit and the state that it leaves behind. -/
def ran (edit : ExceptT ε (StateM σ) α) (before : σ) : Except ε α × σ := edit.run.run before

/-- The edit succeeds with the value and leaves the state `after` behind. -/
def Gives (edit : ExceptT ε (StateM σ) α) (before : σ) (value : α) (after : σ) : Prop :=
  ran edit before = (.ok value, after)

/-- The edit leads from every state to a related one, whether or not it succeeds. -/
def Moves (related : σ → σ → Prop) (edit : ExceptT ε (StateM σ) α) : Prop :=
  ∀ before, related before (ran edit before).2

theorem Gives.moved {related : σ → σ → Prop} {edit : ExceptT ε (StateM σ) α} {before after : σ}
    {value : α} (gives : Gives edit before value after) (moves : Moves related edit) :
    related before after := by
  have moved := moves before
  rw [gives] at moved
  exact moved

theorem Gives.unique {edit : ExceptT ε (StateM σ) α} {before after last : σ} {value other : α}
    (gives : Gives edit before value after) (again : Gives edit before other last) :
    value = other ∧ after = last := by
  obtain ⟨same, left⟩ := Prod.mk.inj (gives.symm.trans again)
  exact ⟨Except.ok.inj same, left⟩

theorem ran_bind (edit : ExceptT ε (StateM σ) α) (next : α → ExceptT ε (StateM σ) β) (before : σ) :
    ran (edit >>= next) before =
      match ran edit before with
      | (.ok value, middle) => ran (next value) middle
      | (.error fault, middle) => (.error fault, middle) := by
  simp only [ran, ExceptT.run_bind, StateT.run_bind]
  rcases edit.run.run before with ⟨outcome, middle⟩
  cases outcome <;> rfl

theorem ran_bind_of_gives {edit : ExceptT ε (StateM σ) α} {next : α → ExceptT ε (StateM σ) β}
    {before middle : σ} {value : α} (gives : Gives edit before value middle) :
    ran (edit >>= next) before = ran (next value) middle := by
  rw [ran_bind, gives]

theorem ran_bind_of_failed {edit : ExceptT ε (StateM σ) α} {before after : σ} {fault : ε}
    (failed : ran edit before = (.error fault, after)) (next : α → ExceptT ε (StateM σ) β) :
    ran (edit >>= next) before = (.error fault, after) := by
  rw [ran_bind, failed]

/-- Two edits fail if the first does, or the second after it. -/
theorem failed_bind {edit : ExceptT ε (StateM σ) α} {next : α → ExceptT ε (StateM σ) β}
    {before after : σ} {fault : ε} (failed : ran (edit >>= next) before = (.error fault, after)) :
    ran edit before = (.error fault, after) ∨
      ∃ value middle, Gives edit before value middle ∧ ran (next value) middle = (.error fault, after) := by
  rw [ran_bind] at failed
  split at failed
  next value middle gives => exact .inr ⟨value, middle, gives, failed⟩
  next other middle fails => exact .inl (fails.trans (by simpa using failed))

/-- What holds if the first edit fails, and after the second if it does not, holds in any case. -/
theorem left_by_bind {edit : ExceptT ε (StateM σ) α} {next : α → ExceptT ε (StateM σ) β}
    {before : σ} {holds : σ → Prop} (first : holds (ran edit before).2)
    (second : ∀ value middle, Gives edit before value middle → holds (ran (next value) middle).2) :
    holds (ran (edit >>= next) before).2 := by
  rw [ran_bind]
  split
  next value middle gives => exact second value middle gives
  next fault middle fails =>
    rw [fails] at first
    exact first

@[simp] theorem ran_mk (step : σ → Except ε α × σ) (before : σ) :
    ran (ExceptT.mk step : ExceptT ε (StateM σ) α) before = step before := rfl

@[simp] theorem ran_pure (value : α) (before : σ) :
    ran (pure value : ExceptT ε (StateM σ) α) before = (.ok value, before) := rfl

@[simp] theorem ran_get (before : σ) :
    ran (get : ExceptT ε (StateM σ) σ) before = (.ok before, before) := rfl

@[simp] theorem ran_modify (change : σ → σ) (before : σ) :
    ran (modify change : ExceptT ε (StateM σ) Unit) before = (.ok (), change before) := rfl

@[simp] theorem ran_lift (outcome : Except ε α) (before : σ) :
    ran (liftM outcome : ExceptT ε (StateM σ) α) before = (outcome, before) := by
  cases outcome <;> rfl

theorem gives_bind_iff (edit : ExceptT ε (StateM σ) α) (next : α → ExceptT ε (StateM σ) β)
    (before : σ) (value : β) (after : σ) :
    Gives (edit >>= next) before value after ↔
      ∃ found middle, Gives edit before found middle ∧ Gives (next found) middle value after := by
  simp only [Gives, ran_bind]
  rcases ran edit before with ⟨outcome, middle⟩
  cases outcome with
  | error fault => simp
  | ok found =>
    constructor
    · intro rest
      exact ⟨found, middle, rfl, rest⟩
    · rintro ⟨_, _, same, rest⟩
      cases same
      exact rest

@[simp] theorem gives_pure_iff (value found : α) (before after : σ) :
    Gives (pure found : ExceptT ε (StateM σ) α) before value after ↔
      value = found ∧ after = before := by
  simp [Gives, eq_comm]

@[simp] theorem gives_get_iff (before value after : σ) :
    Gives (get : ExceptT ε (StateM σ) σ) before value after ↔ value = before ∧ after = before := by
  simp [Gives, eq_comm]

@[simp] theorem gives_modify_iff (change : σ → σ) (before : σ) (value : Unit) (after : σ) :
    Gives (modify change : ExceptT ε (StateM σ) Unit) before value after ↔ after = change before := by
  simp [Gives, eq_comm]

@[simp] theorem gives_lift_iff (outcome : Except ε α) (before : σ) (value : α) (after : σ) :
    Gives (liftM outcome : ExceptT ε (StateM σ) α) before value after ↔
      outcome = .ok value ∧ after = before := by
  rw [Gives, ran_lift, Prod.mk.injEq, eq_comm (a := after)]

/-! ## Moving along a preorder -/

variable {related : σ → σ → Prop} [IsPreorder σ related]

private theorem moves_of_stays {edit : ExceptT ε (StateM σ) α}
    (stays : ∀ before, (ran edit before).2 = before) : Moves related edit := by
  intro before
  rw [stays]
  exact refl before

theorem moves_pure (value : α) : Moves related (pure value : ExceptT ε (StateM σ) α) :=
  moves_of_stays fun _ => rfl

theorem moves_get : Moves related (get : ExceptT ε (StateM σ) σ) :=
  moves_of_stays fun _ => rfl

theorem moves_lift (outcome : Except ε α) :
    Moves related (liftM outcome : ExceptT ε (StateM σ) α) :=
  moves_of_stays fun before => by rw [ran_lift]

omit [IsPreorder σ related] in
theorem moves_modify {change : σ → σ} (moved : ∀ state, related state (change state)) :
    Moves related (modify change : ExceptT ε (StateM σ) Unit) :=
  moved

theorem Moves.bind {edit : ExceptT ε (StateM σ) α} {next : α → ExceptT ε (StateM σ) β}
    (first : Moves related edit) (second : ∀ value, Moves related (next value)) :
    Moves related (edit >>= next) := fun before =>
  left_by_bind (first before) fun value middle gives =>
    IsTrans.trans _ _ _ (gives.moved first) (second value middle)

theorem moves_forM {γ : Type} {step : γ → ExceptT ε (StateM σ) PUnit} {items : List γ}
    (moves : ∀ item ∈ items, Moves related (step item)) : Moves related (items.forM step) := by
  induction items with
  | nil => exact moves_pure _
  | cons item items ih =>
    rw [List.forall_mem_cons] at moves
    exact moves.1.bind fun _ => ih moves.2

/-- What a run does to one thing is done by the one step that is for it, as all the others leave it
alone. -/
theorem gives_forM_of_mem {γ : Type} {step : γ → ExceptT ε (StateM σ) PUnit} {items : List γ}
    {different : γ → γ → Prop} (apart : items.Pairwise different) {item : γ} (member : item ∈ items)
    (others : ∀ other, different other item ∨ different item other → Moves related (step other))
    {before after : σ} (gives : Gives (items.forM step) before ⟨⟩ after) :
    ∃ first last, related before first ∧ Gives (step item) first ⟨⟩ last ∧ related last after := by
  -- The step for the item parts the run: each step before it and each behind it is for another thing.
  obtain ⟨front, back, rfl⟩ := List.append_of_mem member
  obtain ⟨-, behind, across⟩ := List.pairwise_append.mp apart
  have inFront : Moves related (front.forM step) := moves_forM fun other found =>
    others other (.inl (across other found item List.mem_cons_self))
  have inBack : Moves related (back.forM step) := moves_forM fun other found =>
    others other (.inr ((List.pairwise_cons.mp behind).1 other found))
  rw [List.forM_eq_forM, List.forM_append, gives_bind_iff] at gives
  obtain ⟨_, first, before_, rest⟩ := gives
  obtain ⟨_, last, here, after_⟩ := (gives_bind_iff _ _ _ _ _).mp rest
  exact ⟨first, last, before_.moved inFront, here, after_.moved inBack⟩

theorem moves_mapM_of_mem {γ : Type} {step : γ → ExceptT ε (StateM σ) β} {items : List γ}
    (moves : ∀ item ∈ items, Moves related (step item)) : Moves related (items.mapM step) := by
  induction items with
  | nil => exact moves_pure _
  | cons item items ih =>
    rw [List.forall_mem_cons] at moves
    rw [List.mapM_cons]
    exact moves.1.bind fun _ => (ih moves.2).bind fun _ => moves_pure _

theorem moves_mapM {γ : Type} {step : γ → ExceptT ε (StateM σ) β}
    (moves : ∀ item, Moves related (step item)) (items : List γ) :
    Moves related (items.mapM step) :=
  moves_mapM_of_mem fun item _ => moves item

/-- What each step of a traversal did to its own item still holds when all of them are done. -/
theorem gives_mapM {γ : Type} {step : γ → ExceptT ε (StateM σ) β} (related : σ → σ → Prop)
    [IsPreorder σ related] (fulfils : γ → β → σ → Prop)
    (moves : ∀ item, Moves related (step item))
    (later : ∀ {item result old new}, related old new → fulfils item result old → fulfils item result new)
    {before : σ} (does : ∀ {item middle result last}, related before middle →
      Gives (step item) middle result last → fulfils item result last)
    {items : List γ} {results : List β} {after : σ} (gives : Gives (items.mapM step) before results after) :
    List.Forall₂ (fun item result => fulfils item result after) items results := by
  -- Later items start in later states, which are still related to the first one.
  suffices ∀ {middle}, related before middle → Gives (items.mapM step) middle results after →
      List.Forall₂ (fun item result => fulfils item result after) items results from
    this (refl before) gives
  clear gives
  induction items generalizing results with
  | nil =>
    intro middle _ gives
    rw [List.mapM_nil] at gives
    obtain ⟨rfl, -⟩ := (gives_pure_iff _ _ _ _).mp gives
    exact .nil
  | cons item items ih =>
    intro middle reached gives
    simp only [List.mapM_cons, gives_bind_iff, gives_pure_iff] at gives
    obtain ⟨result, next, first, others, _, rest, rfl, rfl⟩ := gives
    have reached' : related before next := IsTrans.trans _ _ _ reached (first.moved (moves item))
    exact .cons (later (rest.moved (moves_mapM moves items)) (does reached first)) (ih reached' rest)

omit [IsPreorder σ related] in
/-- Every step of a traversal that succeeds does. -/
theorem exists_gives_of_mapM {γ : Type} {step : γ → ExceptT ε (StateM σ) β} {items : List γ}
    {results : List β} {before after : σ} (gives : Gives (items.mapM step) before results after) :
    List.Forall₂ (fun item result => ∃ middle last, Gives (step item) middle result last) items
      results := by
  induction items generalizing results before with
  | nil =>
    rw [List.mapM_nil] at gives
    obtain ⟨rfl, -⟩ := (gives_pure_iff _ _ _ _).mp gives
    exact .nil
  | cons item items ih =>
    simp only [List.mapM_cons, gives_bind_iff, gives_pure_iff] at gives
    obtain ⟨result, next, first, others, _, rest, rfl, rfl⟩ := gives
    exact .cons ⟨before, next, first⟩ (ih rest)

theorem moves_foldlM {γ : Type} {step : β → γ → ExceptT ε (StateM σ) β}
    (moves : ∀ value item, Moves related (step value item)) (value : β) (items : List γ) :
    Moves related (items.foldlM step value) := by
  induction items generalizing value with
  | nil => exact moves_pure _
  | cons item items ih =>
    rw [List.foldlM_cons]
    exact (moves value item).bind fun _ => ih _

end

/-! ## Success and failure apart -/

section

variable {ε σ α β : Type}

/-- What holds if the edit succeeds, and what holds of the state that is left if it fails. -/
def Ends (edit : ExceptT ε (StateM σ) α) (before : σ) (succeeds : α → σ → Prop)
    (fails : σ → Prop) : Prop :=
  match ran edit before with
  | (.ok value, after) => succeeds value after
  | (.error _, after) => fails after

variable {edit : ExceptT ε (StateM σ) α} {before : σ} {succeeds : α → σ → Prop} {fails : σ → Prop}

theorem Ends.gives (ends : Ends edit before succeeds fails) {value : α} {after : σ}
    (gives : Gives edit before value after) : succeeds value after := by
  rw [Ends, gives] at ends
  exact ends

theorem Ends.failed (ends : Ends edit before succeeds fails) {fault : ε} {after : σ}
    (failed : ran edit before = (.error fault, after)) : fails after := by
  rw [Ends, failed] at ends
  exact ends

theorem Ends.mono (ends : Ends edit before succeeds fails) {succeeds' : α → σ → Prop}
    {fails' : σ → Prop} (weaker : ∀ value after, succeeds value after → succeeds' value after)
    (weaker' : ∀ after, fails after → fails' after) : Ends edit before succeeds' fails' := by
  rw [Ends] at ends ⊢
  split at ends
  · exact weaker _ _ ends
  · exact weaker' _ ends

theorem Ends.bind {middle : α → σ → Prop} {next : α → ExceptT ε (StateM σ) β}
    {succeeds : β → σ → Prop} (first : Ends edit before middle fails)
    (second : ∀ value state, middle value state → Ends (next value) state succeeds fails) :
    Ends (edit >>= next) before succeeds fails := by
  rw [Ends, ran_bind]
  rw [Ends] at first
  split at first
  · exact second _ _ first
  · exact first

end

/-- The states of edits are related by what holds before and therefore after them. -/
def Preserved {σ : Type} (holds : σ → Prop) (before after : σ) : Prop := holds before → holds after

instance {σ : Type} (holds : σ → Prop) : IsPreorder σ (Preserved holds) where
  refl _ := id
  trans _ _ _ first second := second ∘ first

end JarRemap
