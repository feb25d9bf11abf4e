import JarRemap.Failure
import Mathlib.Data.List.Forall2

/-!
# Steps that may fail

When steps that are taken one after another succeed, and with what.
-/

namespace JarRemap

variable {ε α β : Type}

theorem bind_ok_iff (step : Except ε α) (next : α → Except ε β) (result : β) :
    (step >>= next) = .ok result ↔ ∃ value, step = .ok value ∧ next value = .ok result := by
  cases step <;> simp [bind, Except.bind]

theorem pure_ok_iff (value result : α) : (pure value : Except ε α) = .ok result ↔ value = result :=
  Except.ok.injEq value result ▸ Iff.rfl

theorem mapError_ok_iff {η : Type} (wrap : ε → η) (step : Except ε α) (result : α) :
    step.mapError wrap = .ok result ↔ step = .ok result := by
  cases step <;> simp [Except.mapError]

theorem Failure.ofFault_ok_iff (outcome : Except Fault α) (value : α) :
    Failure.ofFault outcome = .ok value ↔ outcome = .ok value :=
  mapError_ok_iff _ _ _

theorem toOption_map_eq_some_iff (told : α → β) (step : Except ε α) (result : β) :
    step.toOption.map told = some result ↔ ∃ value, step = .ok value ∧ told value = result := by
  cases step <;> simp [Except.toOption]

/-- A traversal that may fail succeeds exactly if every item does. -/
theorem mapM_ok_iff (step : α → Except ε β) (items : List α) (results : List β) :
    items.mapM step = .ok results ↔
      List.Forall₂ (fun item result => step item = .ok result) items results := by
  induction items generalizing results with
  | nil => cases results <;> simp [pure, Except.pure]
  | cons item rest ih =>
    simp only [List.mapM_cons, bind_ok_iff, pure_ok_iff, ih, List.forall₂_cons_left_iff]
    constructor
    · rintro ⟨result, first, others, found, rfl⟩
      exact ⟨result, others, first, found, rfl⟩
    · rintro ⟨result, others, first, found, rfl⟩
      exact ⟨result, first, others, found, rfl⟩

theorem exists_mapM_ok_iff (step : α → Except ε β) (items : List α) :
    (∃ results, items.mapM step = .ok results) ↔ ∀ item ∈ items, ∃ result, step item = .ok result := by
  induction items with
  | nil => simp [pure, Except.pure]
  | cons item rest ih =>
    simp only [List.mapM_cons, bind_ok_iff, pure_ok_iff, List.forall_mem_cons, ← ih]
    constructor
    · rintro ⟨_, result, first, others, found, rfl⟩
      exact ⟨⟨result, first⟩, others, found⟩
    · rintro ⟨⟨result, first⟩, others, found⟩
      exact ⟨_, result, first, others, found, rfl⟩

theorem forall₂_getElem? {related : α → β → Prop} {left : List α} {right : List β}
    (pairs : List.Forall₂ related left right) {position : Nat} {first : α}
    (here : left[position]? = some first) :
    ∃ second, right[position]? = some second ∧ related first second := by
  induction pairs generalizing position with
  | nil => simp at here
  | cons head _ ih =>
    cases position with
    | zero =>
      obtain rfl := Option.some.inj here
      exact ⟨_, rfl, head⟩
    | succ position => exact ih here

theorem forall₂_of_getElem? {related : α → β → Prop} {left : List α} {right : List β}
    (same : right.length = left.length)
    (pairs : ∀ (position : Nat) first, left[position]? = some first →
      ∃ second, right[position]? = some second ∧ related first second) :
    List.Forall₂ related left right := by
  refine List.forall₂_iff_get.mpr ⟨same.symm, fun position here there => ?_⟩
  obtain ⟨second, found, holds⟩ := pairs position _ (List.getElem?_eq_getElem here)
  obtain rfl := Option.some.inj ((List.getElem?_eq_getElem there).symm.trans found)
  exact holds

theorem forall₂_trans {γ : Type} {first : α → β → Prop} {second : β → γ → Prop} {both : α → γ → Prop}
    (trans : ∀ a b c, first a b → second b c → both a c) {left : List α} {middle : List β}
    {right : List γ} (early : List.Forall₂ first left middle)
    (late : List.Forall₂ second middle right) : List.Forall₂ both left right := by
  induction early generalizing right with
  | nil => cases late with | nil => exact .nil
  | cons head _ ih =>
    cases late with
    | cons head' late => exact .cons (trans _ _ _ head head') (ih late)

/-- Tests that agree item by item count the same. -/
theorem countP_congr {left : List α} {right : List β} {test : α → Bool} {other : β → Bool}
    (pairs : List.Forall₂ (fun first second => other second = test first) left right) :
    right.countP other = left.countP test := by
  induction pairs with
  | nil => rfl
  | cons head _ ih => rw [List.countP_cons, List.countP_cons, head, ih]

/-- Traversals whose steps agree item by item agree. -/
theorem mapM_congr {γ : Type} {step : α → Except ε β} {other : γ → Except ε β} {left : List α}
    {right : List γ} (pairs : List.Forall₂ (fun first second => other second = step first) left right) :
    right.mapM other = left.mapM step := by
  induction pairs with
  | nil => rfl
  | cons head _ ih => rw [List.mapM_cons, List.mapM_cons, head, ih]

end JarRemap
