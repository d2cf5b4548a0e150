import Mathlib.Logic.ExistsUnique
import Mathlib.Logic.Relation
import Regalia.Data.Runs

/-!
# Lines of Succession

A list of successions, each from one element to the next, in the order they
were made. When every one of them leads from an element that nothing has
succeeded yet to one that has had no part in any, the successions fall into
lines: an element has at most one before it and at most one after it, no line
returns to where it was, and each line has one first and one last element.

All of it goes by the last succession made. It can only lengthen one line at
its end, because the element it leads to is new.

## Main definitions

* `next`, `prev`: The element after and before another.
* `root`: The first element of a line, found by going back.
* `Lined`: Every succession leads from an end of a line to a new element.

## Theorems

* `next_snoc`, `prev_snoc`, `root_snoc`: What the last succession changes.
* `prev_root`: Going back ends at an element with none before it.
* `existsUnique_last`: Each line has one last element.
* `not_cycle`: No line returns to where it was.
-/

namespace Regalia.Lineage

open List

variable {α : Type*} [DecidableEq α]

/-- The element that succeeds another. -/
def next (l : List (α × α)) (a : α) : Option α := (l.find? (fun p => p.1 = a)).map Prod.snd

/-- The element that another succeeds. -/
def prev (l : List (α × α)) (a : α) : Option α := (l.find? (fun p => p.2 = a)).map Prod.fst

/-- Going back along a line, for a number of passes. -/
def rootFor (l : List (α × α)) : Nat → α → α
  | 0, a => a
  | passes + 1, a =>
    match prev l a with
    | none => a
    | some before => rootFor l passes before

/-- The first element of a line. There are no more passes than successions. -/
def root (l : List (α × α)) (a : α) : α := rootFor l l.length a

/-- Every succession leads from an element nothing has succeeded to one that
    has had no part in any. -/
inductive Lined : List (α × α) → Prop
  | nil : Lined []
  | snoc {l : List (α × α)} {o n : α} (h : Lined l) (hne : o ≠ n) (hold : ∀ p ∈ l, p.1 ≠ o)
      (hnew : ∀ p ∈ l, p.1 ≠ n ∧ p.2 ≠ n) : Lined (l ++ [(o, n)])

/-! ### The last succession -/

variable {l : List (α × α)} {a : α}

theorem next_eq_none_iff : next l a = none ↔ ∀ p ∈ l, p.1 ≠ a := by
  simp [next, find?_eq_none]

theorem prev_eq_none_iff : prev l a = none ↔ ∀ p ∈ l, p.2 ≠ a := by
  simp [prev, find?_eq_none]

theorem prev_mem {b : α} (h : prev l a = some b) : (b, a) ∈ l := by
  obtain ⟨p, hp, rfl⟩ := Option.map_eq_some_iff.mp h
  have ha : p.2 = a := by simpa using find?_some hp
  exact ha ▸ mem_of_find?_eq_some hp

theorem next_snoc {o n : α} (hold : ∀ p ∈ l, p.1 ≠ o) (a : α) :
    next (l ++ [(o, n)]) a = if a = o then some n else next l a := by
  by_cases ha : a = o
  · subst ha
    have hnone : l.find? (fun p => decide (p.1 = a)) = none := by
      simpa [find?_eq_none] using hold
    simp [next, find?_append, hnone]
  · have hne : ¬ o = a := fun h => ha h.symm
    simp [next, find?_append, ha, hne]

theorem prev_snoc {o n : α} (hnew : ∀ p ∈ l, p.2 ≠ n) (a : α) :
    prev (l ++ [(o, n)]) a = if a = n then some o else prev l a := by
  by_cases ha : a = n
  · subst ha
    have hnone : l.find? (fun p => decide (p.2 = a)) = none := by
      simpa [find?_eq_none] using hnew
    simp [prev, find?_append, hnone]
  · have hne : ¬ n = a := fun h => ha h.symm
    simp [prev, find?_append, ha, hne]

/-! ### Going back -/

/-- One pass more changes nothing once there is nothing before. -/
theorem rootFor_succ {k : Nat} (h : prev l (rootFor l k a) = none) :
    rootFor l (k + 1) a = rootFor l k a := by
  induction k generalizing a with
  | zero =>
    have hnone : prev l a = none := h
    simp only [rootFor, hnone]
  | succ k ih =>
    rcases hprev : prev l a with _ | b
    · simp only [rootFor, hprev]
    · have hb : prev l (rootFor l k b) = none := by
        simpa only [rootFor, hprev] using h
      have hstep := ih hb
      rw [rootFor, hprev, rootFor, hprev]
      exact hstep

/-- An element of a line but the last is not reached from outside it: going
    back from any element but the new one never meets the new one. -/
theorem rootFor_snoc {o n : α} (hnew : ∀ p ∈ l, p.1 ≠ n ∧ p.2 ≠ n) (k : Nat) (ha : a ≠ n) :
    rootFor (l ++ [(o, n)]) k a = rootFor l k a ∧ rootFor l k a ≠ n := by
  induction k generalizing a with
  | zero => exact ⟨rfl, ha⟩
  | succ k ih =>
    have hprev : prev (l ++ [(o, n)]) a = prev l a := by
      rw [prev_snoc (fun p hp => (hnew p hp).2), if_neg ha]
    rcases hb : prev l a with _ | b
    · simp only [rootFor, hprev, hb]
      exact ⟨trivial, ha⟩
    · have hbn : b ≠ n := (hnew _ (prev_mem hb)).1
      simp only [rootFor, hprev, hb]
      exact ih hbn

/-- Going back ends at an element with none before it. -/
theorem prev_root (h : Lined l) (a : α) : prev l (root l a) = none := by
  induction h generalizing a with
  | nil => rfl
  | @snoc l o n _ hne hold hnew ih =>
    have hprev : ∀ b, b ≠ n → prev (l ++ [(o, n)]) b = prev l b := by
      intro b hb
      rw [prev_snoc (fun p hp => (hnew p hp).2), if_neg hb]
    -- from the new element the first pass leads to the end of the line it lengthens
    have hback : ∀ b, b ≠ n → prev (l ++ [(o, n)]) (rootFor (l ++ [(o, n)]) l.length b) = none := by
      intro b hb
      obtain ⟨hsame, havoid⟩ := rootFor_snoc (o := o) hnew l.length hb
      rw [hsame, hprev _ havoid]
      exact ih b
    have hlength : (l ++ [(o, n)]).length = l.length + 1 := by simp
    rw [root, hlength]
    by_cases ha : a = n
    · have hfirst : prev (l ++ [(o, n)]) a = some o := by
        rw [prev_snoc (fun p hp => (hnew p hp).2), if_pos ha]
      rw [rootFor, hfirst]
      exact hback o hne
    · rw [rootFor_succ (hback a ha)]
      exact hback a ha

theorem root_snoc {o n : α} (h : Lined l) (hne : o ≠ n)
    (hnew : ∀ p ∈ l, p.1 ≠ n ∧ p.2 ≠ n) (a : α) :
    root (l ++ [(o, n)]) a = if a = n then root l o else root l a := by
  have hlength : (l ++ [(o, n)]).length = l.length + 1 := by simp
  rw [root, hlength]
  by_cases ha : a = n
  · have hfirst : prev (l ++ [(o, n)]) a = some o := by
      rw [prev_snoc (fun p hp => (hnew p hp).2), if_pos ha]
    rw [if_pos ha, rootFor, hfirst]
    exact (rootFor_snoc hnew l.length hne).1
  · rw [if_neg ha, (rootFor_snoc hnew (l.length + 1) ha).1]
    exact rootFor_succ (prev_root h a)

theorem root_of_prev_none (h : prev l a = none) : root l a = a := by
  rw [root]
  cases l.length with
  | zero => rfl
  | succ k => rw [rootFor, h]

/-! ### Lines -/

/-- Each line has one last element. -/
theorem existsUnique_last (h : Lined l) {r : α} (hr : prev l r = none) :
    ∃! a, next l a = none ∧ root l a = r := by
  induction h generalizing r with
  | nil => exact ⟨r, ⟨rfl, rfl⟩, fun a ha => ha.2⟩
  | @snoc l o n h hne hold hnew ih =>
    have hrn : r ≠ n := by
      rintro rfl
      rw [prev_snoc (fun p hp => (hnew p hp).2), if_pos rfl] at hr
      cases hr
    rw [prev_snoc (fun p hp => (hnew p hp).2), if_neg hrn] at hr
    obtain ⟨a, ⟨hlast, hroot⟩, hunique⟩ := ih hr
    have hlastNew : next l n = none := next_eq_none_iff.mpr (fun p hp => (hnew p hp).1)
    have hlastOld : next l o = none := next_eq_none_iff.mpr hold
    -- the new element is its own root before the succession, so it is not the last of r's line
    have han : a ≠ n := by
      rintro rfl
      have hself : prev l a = none := prev_eq_none_iff.mpr (fun p hp => (hnew p hp).2)
      exact hrn (hroot ▸ (root_of_prev_none hself))
    by_cases hao : a = o
    · -- the succession lengthens r's line, whose last element is now the new one
      subst hao
      refine ⟨n, ⟨?_, ?_⟩, ?_⟩
      · simp only [next_snoc hold, if_neg (Ne.symm hne)]
        exact hlastNew
      · simp only [root_snoc h hne hnew, if_true]
        exact hroot
      · rintro b ⟨hb, hbroot⟩
        simp only [next_snoc hold] at hb
        by_cases hba : b = a
        · rw [if_pos hba] at hb
          cases hb
        rw [if_neg hba] at hb
        by_cases hbn : b = n
        · exact hbn
        · simp only [root_snoc h hne hnew, if_neg hbn] at hbroot
          exact absurd (hunique b ⟨hb, hbroot⟩) hba
    · refine ⟨a, ⟨?_, ?_⟩, ?_⟩
      · simp only [next_snoc hold, if_neg hao]
        exact hlast
      · simp only [root_snoc h hne hnew, if_neg han]
        exact hroot
      · rintro b ⟨hb, hbroot⟩
        simp only [next_snoc hold] at hb
        by_cases hbo : b = o
        · rw [if_pos hbo] at hb
          cases hb
        rw [if_neg hbo] at hb
        by_cases hbn : b = n
        · simp only [root_snoc h hne hnew, if_pos hbn] at hbroot
          exact absurd (hunique o ⟨hlastOld, hbroot⟩).symm hao
        · simp only [root_snoc h hne hnew, if_neg hbn] at hbroot
          exact hunique b ⟨hb, hbroot⟩

/-- No line returns to where it was. -/
theorem not_cycle (h : Lined l) (a : α) :
    ¬ Relation.TransGen (fun a b => next l a = some b) a a := by
  induction h generalizing a with
  | nil =>
    intro hcycle
    obtain ⟨b, hb, -⟩ := Relation.TransGen.head'_iff.mp hcycle
    cases hb
  | @snoc l o n _ hne hold hnew ih =>
    have hlast : next (l ++ [(o, n)]) n = none := by
      rw [next_snoc hold, if_neg (Ne.symm hne)]
      exact next_eq_none_iff.mpr (fun p hp => (hnew p hp).1)
    -- nothing follows the new element, so a path that goes on does not use the last succession
    have hstep : ∀ a b c, next (l ++ [(o, n)]) a = some b → next (l ++ [(o, n)]) b = some c →
        next l a = some b := by
      intro a b c hab hbc
      rw [next_snoc hold] at hab
      by_cases ha : a = o
      · rw [if_pos ha] at hab
        cases hab
        rw [hlast] at hbc
        cases hbc
      · rwa [if_neg ha] at hab
    have hpath : ∀ a b c, Relation.TransGen (fun a b => next (l ++ [(o, n)]) a = some b) a b →
        next (l ++ [(o, n)]) b = some c → Relation.TransGen (fun a b => next l a = some b) a b := by
      intro a b c hab
      induction hab generalizing c with
      | single hab => exact fun hbc => .single (hstep _ _ _ hab hbc)
      | tail _ hbc ihpath => exact fun hcd => .tail (ihpath _ hbc) (hstep _ _ _ hbc hcd)
    intro hcycle
    obtain ⟨b, hb, -⟩ := Relation.TransGen.head'_iff.mp hcycle
    exact ih a (hpath a a b hcycle hb)

omit [DecidableEq α] in
theorem Lined.pairwise (h : Lined l) : l.Pairwise (fun p q => p.1 ≠ q.1 ∧ p.2 ≠ q.2) := by
  induction h with
  | nil => exact List.Pairwise.nil
  | snoc _ _ hold hnew ih =>
    exact pairwise_snoc ih (fun p hp => ⟨hold p hp, (hnew p hp).2⟩)

end Regalia.Lineage
