import Mathlib.Data.List.Forall2

/-!
# Lists of values that may be missing

Writers and readers go through lists whose items may have no written form or no value. The list as
a whole has one exactly if every item has.

## Main results

* `Optional.mapM_eq_some_iff`, `Optional.mapM_eq_none_iff`: when the list has a result, and which.
* `Optional.mapM_eq_some_map`: the result where that of each item is known.
-/

namespace IndexControl.Optional

variable {α β : Type} {f : α → Option β} {items : List α}

/-- The results of the items, one by one. -/
theorem mapM_eq_some_iff {results : List β} :
    items.mapM f = some results ↔ List.Forall₂ (fun a b => f a = some b) items results := by
  induction items generalizing results with
  | nil => simp [eq_comm]
  | cons a items ih =>
    simp only [List.mapM_cons, Option.bind_eq_bind, Option.bind_eq_some_iff, Option.pure_def,
      Option.some.injEq, List.forall₂_cons_left_iff, ih]
    constructor
    · rintro ⟨b, hb, results, hresults, rfl⟩
      exact ⟨b, results, hb, hresults, rfl⟩
    · rintro ⟨b, results, hb, hresults, rfl⟩
      exact ⟨b, hb, results, hresults, rfl⟩

theorem mapM_eq_some_map {g : α → β} (h : ∀ a ∈ items, f a = some (g a)) :
    items.mapM f = some (items.map g) := by
  rw [mapM_eq_some_iff, List.forall₂_map_right_iff, List.forall₂_same]
  exact h

/-- One item without a result leaves the list without one. -/
theorem mapM_eq_none_iff : items.mapM f = none ↔ ∃ a ∈ items, f a = none := by
  induction items with
  | nil => simp
  | cons a items ih =>
    rw [List.mapM_cons, List.exists_mem_cons_iff, ← ih]
    cases f a <;> cases items.mapM f <;> simp

end IndexControl.Optional
