import Mathlib.Order.Lattice
import Regalia.Data.Runs

/-!
# Sessions Under Growing Stamps

A checker sees one entry after another, each with a stamp, a session and a key.
It remembers the last entry and every session and key it has ever seen, and
admits an entry only if its stamp is not below the last one; under the last
stamp, only with the last session and key; under a new stamp, only with a
session and a key it has never seen.

From that the same follows for any two entries it has admitted, however far
apart: stamps never decrease, one stamp has one session and one key, and two
stamps have nothing in common. This is so for any selection of the entries, as
when a checker remembers an entry and fails before it can say so.

## Main definitions

* `Stamped`, `Memory`: Entries, and what is remembered of them.
* `Memory.Admits`, `Memory.remember`: The check, and what it leaves.
* `Apart`: What holds between an entry and a later one.
* `Memory.Holds`: A memory accounts for a list of entries.

## Theorems

* `Memory.Holds.remember`: An admitted entry keeps the others accounted for.
* `Memory.Holds.report`: The last entry can be added to the list.
-/

namespace Regalia

open List

variable {τ κ : Type} [LinearOrder τ]

structure Stamped (τ κ : Type) where
  stamp : τ
  session : κ
  key : κ

/-- The last entry, and all sessions and keys. -/
structure Memory (τ κ : Type) where
  last : Option (Stamped τ κ)
  history : List κ

/-- What holds between an entry and a later one. -/
structure Apart (a b : Stamped τ κ) : Prop where
  grows : a.stamp ≤ b.stamp
  one : a.stamp = b.stamp → a.session = b.session ∧ a.key = b.key
  fresh : a.stamp ≠ b.stamp → a.session ≠ b.session ∧ a.key ≠ b.key

namespace Memory

/-- A session and a key that have been seen. -/
def Seen (m : Memory τ κ) (e : Stamped τ κ) : Prop := e.session ∈ m.history ∧ e.key ∈ m.history

def Admits (m : Memory τ κ) (e : Stamped τ κ) : Prop :=
  ∀ l, m.last = some l → l.stamp ≤ e.stamp ∧
    (e.stamp = l.stamp → e.session = l.session ∧ e.key = l.key) ∧
    (e.stamp ≠ l.stamp → e.session ∉ m.history ∧ e.key ∉ m.history)

/-- The memory after an entry: what is under a new stamp is added. -/
def remember (m : Memory τ κ) (e : Stamped τ κ) : Memory τ κ where
  last := some e
  history := if m.last.any (fun l => e.stamp = l.stamp) then m.history
    else m.history ++ [e.session, e.key]

/-- The memory has seen the entries, which are apart from each other and from
    its last one. -/
structure Holds (m : Memory τ κ) (log : List (Stamped τ κ)) : Prop where
  last : ∀ l, m.last = some l → m.Seen l
  seen : ∀ e ∈ log, m.Seen e
  before : ∀ e ∈ log, ∃ l, m.last = some l ∧ Apart e l
  apart : log.Pairwise Apart

theorem Holds.nil (history : List κ) : Holds (⟨none, history⟩ : Memory τ κ) [] where
  last := fun _ h => nomatch h
  seen := fun _ h => absurd h not_mem_nil
  before := fun _ h => absurd h not_mem_nil
  apart := List.Pairwise.nil

variable {m : Memory τ κ} {e : Stamped τ κ}

theorem seen_remember {a : Stamped τ κ} (h : m.Seen a) : (m.remember e).Seen a := by
  unfold Seen at h
  unfold Seen Memory.remember
  by_cases hsame : m.last.any (fun l => e.stamp = l.stamp) = true
  · simpa only [hsame, if_true] using h
  · simp only [hsame, Bool.false_eq_true, if_false]
    exact ⟨mem_append_left _ h.1, mem_append_left _ h.2⟩

-- under the last stamp the entry is the last one's, under a new one it is added
theorem seen_remember_self
    (hlast : ∀ l, m.last = some l → m.Seen l) (he : m.Admits e) : (m.remember e).Seen e := by
  by_cases hsame : m.last.any (fun l => e.stamp = l.stamp) = true
  · rcases (Option.any_eq_true _ _).mp hsame with ⟨l, hl, hstamp⟩
    rcases (he l hl).2.1 (of_decide_eq_true hstamp) with ⟨hsession, hkey⟩
    have hseen : (m.remember e).Seen l := seen_remember (hlast l hl)
    unfold Seen at hseen ⊢
    rwa [hsession, hkey]
  · unfold Seen Memory.remember
    simp only [hsame, Bool.false_eq_true, if_false]
    simp

theorem Apart.admitted {a l : Stamped τ κ} (hseen : m.Seen a)
    (hl : m.last = some l) (hal : Apart a l) (he : m.Admits e) : Apart a e := by
  rcases he l hl with ⟨hgrows, hone, hfresh⟩
  refine ⟨le_trans hal.grows hgrows, fun hs => ?_, fun hs => ?_⟩
  · -- the last stamp lies between the two, so it is theirs
    have hl1 : a.stamp = l.stamp := le_antisymm hal.grows (hs ▸ hgrows)
    have hl2 : e.stamp = l.stamp := hs ▸ hl1
    exact ⟨(hal.one hl1).1.trans (hone hl2).1.symm, (hal.one hl1).2.trans (hone hl2).2.symm⟩
  · by_cases hel : e.stamp = l.stamp
    · have hne : a.stamp ≠ l.stamp := hel ▸ hs
      rw [(hone hel).1, (hone hel).2]
      exact hal.fresh hne
    · have hnew := hfresh hel
      exact ⟨fun heq => hnew.1 (heq ▸ hseen.1), fun heq => hnew.2 (heq ▸ hseen.2)⟩

theorem Holds.remember {log : List (Stamped τ κ)} (h : m.Holds log) (he : m.Admits e) : (m.remember e).Holds log where
  last := by
    intro l hl
    injection hl with hl
    rw [← hl]
    exact seen_remember_self h.last he
  seen := fun a ha => seen_remember (h.seen a ha)
  before := by
    intro a ha
    rcases h.before a ha with ⟨l, hl, hal⟩
    exact ⟨e, rfl, Apart.admitted (h.seen a ha) hl hal he⟩
  apart := h.apart

theorem Holds.report {log : List (Stamped τ κ)} (h : m.Holds log) (he : m.last = some e) : m.Holds (log ++ [e]) where
  last := h.last
  seen := forall_mem_snoc h.seen (h.last e he)
  before := forall_mem_snoc h.before
    ⟨e, he, le_rfl, fun _ => ⟨rfl, rfl⟩, fun hne => absurd rfl hne⟩
  apart := by
    refine pairwise_snoc h.apart (fun a ha => ?_)
    rcases h.before a ha with ⟨l, hl, hal⟩
    rw [he] at hl
    injection hl with hl
    exact hl ▸ hal

end Memory

end Regalia
