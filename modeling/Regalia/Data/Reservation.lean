import Mathlib.Data.List.Nodup
import Mathlib.Data.List.Perm.Basic

/-!
# Reserving Numbers on a Counter

Users of a counter that only goes up each bring an item with a number. To
reserve the number a user takes a lock, finds the counter below it, moves the
counter up to it and lets the lock go; after that it may use the item. At any
point a user may be lost with what it held or had reserved, and the counter may
have been moved further than anyone knows of.

No number is ever used twice. While the lock is held the number under it is
none of those reserved or used, because they were all at or below the counter
when the lock was taken; once it is let go the counter has reached the number,
so that nobody finds the counter below it again.

## Main definitions

* `Reservation`: The counter, the lock and the items.
* `Reservation.Step`: What a user may do.
* `Reservation.Sound`: The numbers at or below the counter are spent.

## Theorems

* `Reservation.Step.sound`: Every step keeps the state sound.
-/

namespace Regalia

open List

variable {β : Type*}

/-- The items under the lock, each with what its user last read of the counter,
    those whose number is reserved, and those used. -/
structure Reservation (β : Type*) where
  counter : Nat
  holding : List (β × Nat)
  reserved : List β
  used : List β

namespace Reservation

inductive Step (number : β → Int) : Reservation β → Reservation β → Prop
  -- users are lost, and the counter may have moved on its own
  | lose {s : Reservation β} {counter : Nat} {holding : List (β × Nat)} {reserved : List β}
      (hcounter : s.counter ≤ counter) (hholding : holding.Sublist s.holding)
      (hreserved : reserved.Sublist s.reserved) :
      Step number s ⟨counter, holding, reserved, s.used⟩
  | take {s : Reservation β} {b : β} {holding : List (β × Nat)} (hfree : s.holding = [])
      (hbelow : s.counter < number b) (hholding : holding = [(b, s.counter)]) :
      Step number s { s with holding := holding }
  | climb {s : Reservation β} {b : β} {now : Nat} {before after : List (β × Nat)}
      (hholding : s.holding = before ++ (b, now) :: after) :
      Step number s { s with counter := s.counter + 1
                             holding := before ++ (b, s.counter + 1) :: after }
  | reserve {s : Reservation β} {b : β} {now : Nat} {before after : List (β × Nat)}
      {reserved : List β} (hholding : s.holding = before ++ (b, now) :: after)
      (hreached : number b ≤ now) (hreserved : reserved.Perm (b :: s.reserved)) :
      Step number s { s with holding := before ++ after, reserved := reserved }
  | use {s : Reservation β} {b : β} {reserved : List β}
      (hreserved : s.reserved.Perm (b :: reserved)) :
      Step number s { s with reserved := reserved, used := s.used ++ [b] }

/-- The items whose number is spent. -/
def spent (s : Reservation β) : List β := s.reserved ++ s.used

/-- The spent numbers are distinct and at or below the counter, and at most one
    item is under the lock, with a number that is not spent. -/
structure Sound (number : β → Int) (s : Reservation β) : Prop where
  distinct : (s.spent.map number).Nodup
  below : ∀ b ∈ s.spent, number b ≤ s.counter
  one : s.holding.length ≤ 1
  read : ∀ p ∈ s.holding, p.2 ≤ s.counter
  apart : ∀ p ∈ s.holding, ∀ b ∈ s.spent, number b ≠ number p.1

variable {number : β → Int}

theorem Sound.init : Sound number ⟨0, [], [], []⟩ where
  distinct := nodup_nil
  below := by simp [spent]
  one := Nat.zero_le 1
  read := by simp
  apart := by simp

-- an item under the lock is the only one there
variable {s : Reservation β}

theorem Sound.only (h : Sound number s) {p : β × Nat}
    {before after : List (β × Nat)} (hholding : s.holding = before ++ p :: after) :
    before = [] ∧ after = [] := by
  have hone := h.one
  rw [hholding, length_append, length_cons] at hone
  exact ⟨length_eq_zero_iff.mp (by omega), length_eq_zero_iff.mp (by omega)⟩

theorem Sound.lose (h : Sound number s) {counter : Nat}
    {holding : List (β × Nat)} {reserved : List β} (hcounter : s.counter ≤ counter)
    (hholding : holding.Sublist s.holding) (hreserved : reserved.Sublist s.reserved) :
    Sound number ⟨counter, holding, reserved, s.used⟩ := by
  have hspent : (reserved ++ s.used).Sublist s.spent := hreserved.append_right s.used
  have hone := h.one
  have hlength := hholding.length_le
  refine ⟨(hspent.map number).nodup h.distinct, ?_, ?_, ?_, ?_⟩
  · intro b hb
    have hle := h.below b (hspent.subset hb)
    show number b ≤ counter
    omega
  · show holding.length ≤ 1
    omega
  · intro p hp
    have hle := h.read p (hholding.subset hp)
    show p.2 ≤ counter
    omega
  · intro p hp b hb
    exact h.apart p (hholding.subset hp) b (hspent.subset hb)

-- what was spent stays spent when an item goes from one list to the other
theorem Sound.of_perm {t : Reservation β} (h : Sound number s) (hcounter : t.counter = s.counter)
    (hholding : t.holding = s.holding) (hspent : t.spent.Perm s.spent) : Sound number t := by
  refine ⟨(hspent.map number).nodup_iff.mpr h.distinct, ?_, hholding ▸ h.one, ?_, ?_⟩
  · intro b hb
    rw [hcounter]
    exact h.below b (hspent.subset hb)
  · rw [hholding, hcounter]
    exact h.read
  · intro p hp b hb
    exact h.apart p (hholding ▸ hp) b (hspent.subset hb)

theorem Step.sound {t : Reservation β} (hstep : Step number s t) (h : Sound number s) :
    Sound number t := by
  cases hstep with
  | lose hcounter hholding hreserved => exact h.lose hcounter hholding hreserved
  | @take b holding hfree hbelow hholding =>
    subst hholding
    refine ⟨h.distinct, h.below, by simp, by simp, ?_⟩
    -- every spent number is at or below the counter, and this one is above
    intro p hp c hc
    have hp' : p = (b, s.counter) := mem_singleton.mp hp
    have hle := h.below c hc
    rw [hp']
    show number c ≠ number b
    omega
  | @climb b now before after hholding =>
    obtain ⟨rfl, rfl⟩ := h.only hholding
    have hapart := h.apart (b, now) (by simp [hholding])
    refine ⟨h.distinct, ?_, by simp, by simp, ?_⟩
    · intro c hc
      have hle := h.below c hc
      show number c ≤ (s.counter + 1 : Nat)
      omega
    · intro p hp c hc
      have hp' : p = (b, s.counter + 1) := by simpa using hp
      rw [hp']
      exact hapart c hc
  | @reserve b now before after reserved hholding hreached hreserved =>
    obtain ⟨rfl, rfl⟩ := h.only hholding
    have hmem : (b, now) ∈ s.holding := by simp [hholding]
    have hread : now ≤ s.counter := h.read (b, now) hmem
    have hnow : number b ≤ s.counter := by omega
    have hperm : (reserved ++ s.used).Perm (b :: s.spent) := hreserved.append_right s.used
    refine ⟨(hperm.map number).nodup_iff.mpr ?_, ?_, by simp, by simp, by simp⟩
    · rw [map_cons, nodup_cons]
      refine ⟨?_, h.distinct⟩
      intro hin
      obtain ⟨c, hc, hsame⟩ := mem_map.mp hin
      exact h.apart (b, now) hmem c hc hsame
    · intro c hc
      rcases mem_cons.mp (hperm.subset hc) with hcb | hc
      · exact hcb ▸ hnow
      · exact h.below c hc
  | @use b reserved hreserved =>
    refine h.of_perm rfl rfl ?_
    have hmoved : (reserved ++ (s.used ++ [b])).Perm (b :: (reserved ++ s.used)) := by
      rw [← append_assoc]
      exact perm_append_singleton b (reserved ++ s.used)
    exact hmoved.trans (hreserved.append_right s.used).symm

end Reservation

end Regalia
