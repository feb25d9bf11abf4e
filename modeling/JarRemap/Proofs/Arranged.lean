import JarRemap.Proofs.Outcome
import Mathlib.Data.List.Nodup

/-!
# Lists in another order

What is done to the items of a list one by one is done to them in any order, with the same results
in that order.
-/

namespace JarRemap

/-- The items at the positions, one after another. -/
def arranged {α : Type} (order : List Nat) (items : List α) : List α :=
  order.filterMap fun position => items[position]?

variable {ε α β : Type} {order : List Nat}

theorem map_arranged (change : α → β) (items : List α) :
    (arranged order items).map change = arranged order (items.map change) := by
  simp [arranged, List.map_filterMap]

private theorem arranged_range (items : List α) :
    arranged (List.range items.length) items = items := by
  induction items with
  | nil => rfl
  | cons item items ih =>
    rw [arranged, List.length_cons, List.range_succ_eq_map, List.filterMap_cons,
      List.getElem?_cons_zero, List.filterMap_map]
    exact congrArg (List.cons item) ih

theorem arranged_perm {items : List α} (permutes : order.Perm (List.range items.length)) :
    (arranged order items).Perm items := by
  have moved := permutes.filterMap fun position => items[position]?
  exact moved.trans (.of_eq (arranged_range items))

theorem forall₂_arranged {related : α → β → Prop} {left : List α} {right : List β}
    (pairs : List.Forall₂ related left right) (order : List Nat) :
    List.Forall₂ related (arranged order left) (arranged order right) := by
  induction order with
  | nil => exact .nil
  | cons position order ih =>
    rw [arranged, arranged, List.filterMap_cons, List.filterMap_cons]
    cases here : left[position]? with
    | none =>
      have outside : right.length ≤ position := pairs.length_eq ▸ List.getElem?_eq_none_iff.mp here
      rw [List.getElem?_eq_none outside]
      exact ih
    | some first =>
      obtain ⟨second, there, holds⟩ := forall₂_getElem? pairs here
      rw [there]
      exact .cons holds ih

/-- A traversal in another order succeeds if the one in the first order does. -/
theorem mapM_arranged_iff (step : α → Except ε β) {items : List α}
    (permutes : order.Perm (List.range items.length)) (results : List β) :
    (arranged order items).mapM step = .ok results ↔
      ∃ first, items.mapM step = .ok first ∧ results = arranged order first := by
  constructor
  · intro traversed
    obtain ⟨first, traversed'⟩ : ∃ first, items.mapM step = .ok first := by
      have each := (exists_mapM_ok_iff step (arranged order items)).mp ⟨results, traversed⟩
      refine (exists_mapM_ok_iff step items).mpr fun item member => ?_
      exact each item ((arranged_perm permutes).mem_iff.mpr member)
    refine ⟨first, traversed', ?_⟩
    have again := (mapM_ok_iff _ _ _).mpr (forall₂_arranged ((mapM_ok_iff _ _ _).mp traversed') order)
    exact Except.ok.inj (traversed.symm.trans again)
  · rintro ⟨first, traversed, rfl⟩
    exact (mapM_ok_iff _ _ _).mpr (forall₂_arranged ((mapM_ok_iff _ _ _).mp traversed) order)

end JarRemap
