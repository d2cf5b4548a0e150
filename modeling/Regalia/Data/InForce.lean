import Mathlib.Data.List.Basic
import Mathlib.Order.Lattice

/-!
# What Is in Force at a Time

A record of entries in the order they were made, each with a date and a key.
In force at a time is the last entry of the record that is dated at or before
it; the dates need not rise along the record.

From the entry in force at one time, the key it names is said to hold until the
date of the first entry behind it that names another. The two readings differ:
the one goes by the dates, the other by the order. They agree exactly when no
entry behind the replacing one overtakes it, that is, is dated before it and
before everything behind itself while it names another key
(`keeps_until_replaced_iff`). Where dates never fall they agree.

## Main definitions

* `inForce`: The entry in force at a time.
* `replacedAt`: The date of the first entry that names another key.
* `NoneOvertakes`: No entry overtakes the one that replaces a key.

## Theorems

* `inForce_eq_some`: The entry in force, by its place in the record.
* `keeps_until_replaced_iff`: When a key is in force until it is replaced.
-/

namespace Regalia

open List

section InForce

variable {α κ τ : Type} [LinearOrder τ] [DecidableEq κ] (dated : α → τ) (key : α → κ)

/-- The last entry of the record dated at or before a time. -/
def inForce (record : List α) (time : τ) : Option α :=
  (record.filter (fun a => dated a ≤ time)).getLast?

/-- The date of the first entry that names another key. -/
def replacedAt (record : List α) (k : κ) : Option τ :=
  (record.find? (fun a => key a ≠ k)).map dated

/-- Behind the first entry `r` that names another key than `k`, an entry dated
    before `r` and before all entries behind itself names `k`. -/
def NoneOvertakes (record : List α) (k : κ) : Prop :=
  ∀ pre r mid e post, record = pre ++ r :: (mid ++ e :: post) → (∀ a ∈ pre, key a = k) →
    key r ≠ k → dated e < dated r → (∀ a ∈ post, dated e < dated a) → key e = k

variable {dated key}

theorem inForce_eq_some {record : List α} {time : τ} {a : α} :
    inForce dated record time = some a ↔ ∃ front rest, record = front ++ a :: rest ∧
      dated a ≤ time ∧ ∀ b ∈ rest, time < dated b := by
  unfold inForce
  rw [getLast?_eq_some_iff]
  constructor
  · rintro ⟨kept, hkept⟩
    rcases filter_eq_append_iff.mp hkept with ⟨front, back, rfl, -, hback⟩
    rcases filter_eq_cons_iff.mp hback with ⟨skipped, rest, rfl, -, ha, hrest⟩
    refine ⟨front ++ skipped, rest, by rw [append_assoc], of_decide_eq_true ha, ?_⟩
    intro b hb
    exact not_le.mp (fun h => filter_eq_nil_iff.mp hrest b hb (decide_eq_true h))
  · rintro ⟨front, rest, rfl, ha, hrest⟩
    refine ⟨front.filter (fun a => dated a ≤ time), ?_⟩
    have hnone : rest.filter (fun a => dated a ≤ time) = [] := by
      rw [filter_eq_nil_iff]
      intro b hb h
      exact absurd (of_decide_eq_true h) (not_le.mpr (hrest b hb))
    rw [filter_append, filter_cons, if_pos (decide_eq_true ha), hnone]

/-- From an entry in force at `time`, with `rest` behind it: its key is in force
    until `rest` replaces it, exactly when none of `rest` overtakes. -/
theorem keeps_until_replaced_iff {front rest : List α} {a : α} {time : τ}
    (ha : dated a ≤ time) (hrest : ∀ b ∈ rest, time < dated b) :
    (∀ s, time ≤ s → (∀ u, replacedAt dated key rest (key a) = some u → s < u) →
      (inForce dated (front ++ a :: rest) s).map key = some (key a)) ↔
    NoneOvertakes dated key rest (key a) := by
  constructor
  · intro hkeeps pre r mid e post hsplit hpre hr hbefore hpost
    -- The entry `e` is in force at its own date.
    have hreplaced : replacedAt dated key rest (key a) = some (dated r) := by
      rw [replacedAt, hsplit, find?_append, find?_eq_none.mpr (by simpa using hpre)]
      simp [hr]
    have he : inForce dated (front ++ a :: rest) (dated e) = some e := by
      refine inForce_eq_some.mpr ⟨front ++ a :: (pre ++ r :: mid), post, ?_, le_rfl, hpost⟩
      rw [hsplit]
      simp only [append_assoc, cons_append]
    have hlater : time ≤ dated e := (hrest e (by rw [hsplit]; simp)).le
    have := hkeeps (dated e) hlater (fun u hu => by
      rw [hreplaced, Option.some.injEq] at hu
      exact hu ▸ hbefore)
    rw [he, Option.map_some, Option.some.injEq] at this
    exact this
  · intro hnone s hs hwindow
    cases hlast : inForce dated rest s with
    | none =>
      -- Nothing behind `a` is dated by then.
      have hall : ∀ b ∈ rest, s < dated b := by
        intro b hb
        have hfilter := getLast?_eq_none_iff.mp hlast
        exact not_le.mp (fun h => filter_eq_nil_iff.mp hfilter b hb (decide_eq_true h))
      rw [inForce_eq_some.mpr ⟨front, rest, rfl, ha.trans hs, hall⟩, Option.map_some]
    | some e =>
      rcases inForce_eq_some.mp hlast with ⟨before, post, hsplit, he, hpost⟩
      have hforce : inForce dated (front ++ a :: rest) s = some e := by
        refine inForce_eq_some.mpr ⟨front ++ a :: before, post, ?_, he, hpost⟩
        rw [hsplit, append_assoc, cons_append]
      rw [hforce, Option.map_some, Option.some.injEq]
      by_contra hkey
      -- Some entry replaces the key: `e` does, if none before it.
      have hex : ∃ r, rest.find? (fun b => key b ≠ key a) = some r := by
        rw [← Option.isSome_iff_exists, find?_isSome]
        exact ⟨e, by rw [hsplit]; simp, by simpa using hkey⟩
      rcases hex with ⟨r, hr⟩
      rcases find?_eq_some_iff_append.mp hr with ⟨hrkey, pre, after, hsplit', hpre⟩
      have hwithin : s < dated r := hwindow _ (by rw [replacedAt, hr]; rfl)
      have hpre' : ∀ b ∈ pre, key b = key a := by simpa using hpre
      rcases append_eq_append_iff.mp (hsplit'.symm.trans hsplit) with
        ⟨mid, hbefore, hafter⟩ | ⟨mid, hpre_eq, hafter⟩
      · -- `e` stands at or behind `r`
        cases mid with
        | nil =>
          rw [nil_append, List.cons.injEq] at hafter
          exact absurd he (not_le.mpr (hafter.1 ▸ hwithin))
        | cons m mid =>
          rw [cons_append, List.cons.injEq] at hafter
          refine hkey (hnone pre r mid e post ?_ hpre' (by simpa using hrkey)
            (lt_of_le_of_lt he hwithin) (fun b hb => lt_of_le_of_lt he (hpost b hb)))
          rw [hsplit', hafter.2]
      · -- `e` stands before `r`
        cases mid with
        | nil =>
          rw [nil_append, List.cons.injEq] at hafter
          exact absurd he (not_le.mpr (hafter.1 ▸ hwithin))
        | cons m mid =>
          rw [cons_append, List.cons.injEq] at hafter
          exact hkey (hpre' e (by rw [hpre_eq, hafter.1]; simp))

end InForce

end Regalia
