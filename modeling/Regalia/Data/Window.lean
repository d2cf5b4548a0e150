import Mathlib.Data.List.Basic

/-!
# A Window on a History

A history grows at its end, and all that is asked of it is its last entry up to
some point. Then everything in front of the last entry up to an earlier point
may be dropped: whatever is up to the earlier point is up to the later one.

## Main definitions

* `fromLast`: A list from the last entry that meets a condition.

## Theorems

* `getLast?_filter_fromLast`: A later question finds the same entry.
-/

namespace Regalia

open List

variable {α : Type*}

/-- From the last entry that meets a condition on, or all of the list. -/
def fromLast (p : α → Bool) : List α → List α
  | [] => []
  | x :: rest => if rest.any p then fromLast p rest else x :: rest

theorem getLast?_fromLast (p : α → Bool) (l : List α) : (fromLast p l).getLast? = l.getLast? := by
  induction l with
  | nil => rfl
  | cons x rest ih =>
    unfold fromLast
    split
    · rename_i hlater
      rw [ih, getLast?_cons]
      cases hrest : rest.getLast? with
      | none =>
        rw [getLast?_eq_none_iff.mp hrest] at hlater
        cases hlater
      | some y => rfl
    · rfl

/-- The last entry up to a later point is still there. -/
theorem getLast?_filter_fromLast {p q : α → Bool} (h : ∀ x, p x = true → q x = true)
    (l : List α) : ((fromLast p l).filter q).getLast? = (l.filter q).getLast? := by
  induction l with
  | nil => rfl
  | cons x rest ih =>
    unfold fromLast
    split
    · rename_i hlater
      rcases any_eq_true.mp hlater with ⟨y, hy, hpy⟩
      have hne : rest.filter q ≠ [] :=
        ne_nil_of_mem (mem_filter.mpr ⟨hy, h y hpy⟩)
      rw [ih]
      by_cases hx : q x = true
      · rw [filter_cons_of_pos hx, getLast?_cons]
        cases hlast : (rest.filter q).getLast? with
        | none => exact absurd (getLast?_eq_none_iff.mp hlast) hne
        | some z => rfl
      · rw [filter_cons_of_neg hx]
    · rfl

end Regalia
