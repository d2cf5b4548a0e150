import Mathlib.Algebra.BigOperators.Group.List.Basic
import Mathlib.Data.List.Basic
import Mathlib.Tactic

/-!
# Sums by Key

Items that each have a key and an amount, the sum of the amounts for one key,
and a cap on that sum for each key. The sums are over the natural numbers, so
they never wrap: a machine that keeps running totals in fixed width is compared
with them.

A list is within its caps when every item has a positive amount and a cap for
its key that the sum does not pass. A cap that holds for a list holds for each
front of it, which is why a running total may be checked as it grows and a
refusal half-way is a refusal of the whole.

## Main definitions

* `tally`: The sum of the amounts under one key.
* `Within`: Every sum is within its cap.

## Theorems

* `within_snoc`: One more item keeps a list within its caps exactly when the
  sum it adds to stays within its own.
* `Within.of_append`: The front of a list within its caps is within them.
-/

namespace Regalia

open List

section Tally

variable {ι κ : Type} [DecidableEq κ] (key : ι → κ) (amount : ι → Nat)

/-- The sum of the amounts of the items with key `k`. -/
def tally (items : List ι) (k : κ) : Nat :=
  ((items.filter (fun i => key i = k)).map amount).sum

@[simp] theorem tally_append (front back : List ι) (k : κ) :
    tally key amount (front ++ back) k = tally key amount front k + tally key amount back k := by
  simp only [tally, filter_append, map_append, sum_append]

@[simp] theorem tally_singleton (i : ι) (k : κ) :
    tally key amount [i] k = if key i = k then amount i else 0 := by
  by_cases h : key i = k
  · simp [tally, h]
  · simp [tally, h]

/-- Every item has a positive amount, and a cap that the sum for its key does
    not pass. -/
def Within (caps : κ → Option Nat) (items : List ι) : Prop :=
  ∀ i ∈ items, 0 < amount i ∧
    ∃ cap, caps (key i) = some cap ∧ tally key amount items (key i) ≤ cap

variable {key amount}

theorem within_nil (caps : κ → Option Nat) : Within key amount caps [] := by
  intro i hi
  cases hi

theorem Within.of_append {caps : κ → Option Nat} {front back : List ι}
    (h : Within key amount caps (front ++ back)) : Within key amount caps front := by
  intro i hi
  rcases h i (mem_append_left _ hi) with ⟨hpos, cap, hcap, hle⟩
  rw [tally_append] at hle
  exact ⟨hpos, cap, hcap, by omega⟩

/-- One item more: the items before it stay within their caps, and the sum it
    is added to stays within the cap of its key. -/
theorem within_snoc (caps : κ → Option Nat) (items : List ι) (i : ι) :
    Within key amount caps (items ++ [i]) ↔
      Within key amount caps items ∧ 0 < amount i ∧
        ∃ cap, caps (key i) = some cap ∧ tally key amount items (key i) + amount i ≤ cap := by
  constructor
  · intro h
    refine ⟨h.of_append, ?_⟩
    rcases h i (mem_append_right _ mem_cons_self) with ⟨hpos, cap, hcap, hle⟩
    rw [tally_append, tally_singleton, if_pos rfl] at hle
    exact ⟨hpos, cap, hcap, hle⟩
  · rintro ⟨hbefore, hpos, cap, hcap, hle⟩ j hj
    by_cases hkey : key i = key j
    · -- The same key: the sum is the one that was just checked.
      have hj_pos : 0 < amount j := by
        rcases mem_append.mp hj with hj | hj
        · exact (hbefore j hj).1
        · rwa [mem_singleton.mp hj]
      refine ⟨hj_pos, cap, hkey ▸ hcap, ?_⟩
      rw [tally_append, tally_singleton, if_pos hkey, ← hkey]
      exact hle
    · rcases mem_append.mp hj with hj | hj
      · rcases hbefore j hj with ⟨hj_pos, cap', hcap', hle'⟩
        refine ⟨hj_pos, cap', hcap', ?_⟩
        rw [tally_append, tally_singleton, if_neg hkey]
        exact hle'
      · exact absurd (by rw [mem_singleton.mp hj]) hkey

end Tally

end Regalia
