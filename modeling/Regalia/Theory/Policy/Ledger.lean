import Mathlib.Algebra.Order.BigOperators.Group.List
import Mathlib.Algebra.Order.Group.Nat
import Mathlib.Data.List.Chain
import Regalia.Data.Runs
import Regalia.Theory.Policy.Lines

/-!
# The Ledger a Journal Keeps

What the file-backed state promises about the reservations it has committed,
over every run of opens, reservations, closes and deaths of the process.

`Ledger` states the promise about a list of reservations and says nothing of
files or maps. `Summary` relates the in-memory maps to such a list. A map
is keyed by concatenated strings, so it may count too much but never too
little, and that is the direction the rules need. `apply` keeps the summary
of the list it extends, whether it runs in `Reserve` or when a journal is
reopened, and a reservation the rules let through extends the ledger.

## Main definitions

* `Ledger`: The promise.
* `Summary`: The maps of a handle account for a list of reservations.
* `World.Inv`: What every call preserves.

## Theorems

* `apply_summary`: Applying a reservation extends the summarised list by it.
* `ledger_append`: A reservation the rules let through extends the ledger.
* `run_inv`: Every run keeps the invariant.
* `committed_ledger`: Every run commits a ledger, and a refusal changes
  nothing.
-/

namespace Regalia.Policy

open List

/-! ### The promise -/

/-- What a nonce is spent for. -/
def Reservation.identity (r : Reservation) : GoString × GoString × GoString × GoString :=
  (r.policyID, r.objectID, r.principal, r.nonce)

/-- What an amount is charged against. -/
def Reservation.bucket (r : Reservation) : GoString × GoString × GoString :=
  (r.policyID, r.objectID, r.utcDate)

/-- What was spent of a denomination in the bucket of a reservation, without
    wrapping. -/
def spent (l : List Reservation) (r : Reservation) (denom : GoString) : Nat :=
  ((l.filter (fun x => x.bucket = r.bucket)).map (fun x => (x.amounts.get denom).toNat)).sum

/-- The sequence numbers committed under a key, in order. -/
def sequencesOf (l : List Reservation) (key : GoString) : List UInt64 :=
  l.flatMap (fun r => if r.sequenceKey = key then r.sequence.toList else [])

/-- The promise of a durable policy state about what it has committed. -/
structure Ledger (l : List Reservation) : Prop where
  noncesOnce : (l.map Reservation.identity).Nodup
  consecutive : ∀ key, (sequencesOf l key).IsChain (fun a b => b.toNat = a.toNat + 1)
  withinCaps : ∀ before r after, l = before ++ r :: after → ∀ denom amount,
    (denom, amount) ∈ r.amounts.entries →
    spent (before ++ [r]) r denom ≤ (r.dailyCaps.get denom).toNat
  epochsRise : (l.map Reservation.epoch).Pairwise (· ≤ ·)

/-! ### The maps of a handle -/

/-- What a reservation adds to the total under a key. -/
def chargeOf (r : Reservation) (entries : List (GoString × UInt64)) (key : GoString) : Nat :=
  ((entries.filter (fun e => quotaKey r e.1 = key)).map (fun e => e.2.toNat)).sum

/-- What a list of reservations adds up to under a key. -/
def charged (l : List Reservation) (key : GoString) : Nat :=
  (l.map (fun r => chargeOf r r.amounts.entries key)).sum

/-- The maps of a handle account for every reservation of a list. -/
structure Summary (s : FileState) (l : List Reservation) : Prop where
  nonces : ∀ r ∈ l, s.nonces (nonceKey r) = true
  totals : ∀ key, (s.totals key).toNat = charged l key
  sequences : ∀ key, s.sequences key = (sequencesOf l key).getLast?
  maxEpoch : ∀ r ∈ l, r.epoch ≤ s.maxEpoch

variable (s : FileState) (l : List Reservation) (w : World) (d : Disk) (r : Reservation)
  (events : List StateEvent) (fault : Option Fault)

theorem charged_append (key : GoString) :
    charged (l ++ [r]) key = charged l key + chargeOf r r.amounts.entries key := by
  simp only [charged, map_append, sum_append, map_cons, map_nil, sum_cons, sum_nil, Nat.add_zero]

theorem sequencesOf_append (key : GoString) :
    sequencesOf (l ++ [r]) key =
      sequencesOf l key ++ (if r.sequenceKey = key then r.sequence.toList else []) := by
  simp only [sequencesOf, flatMap_append, flatMap_cons, flatMap_nil, append_nil]

theorem maxUint64_toNat : maxUint64.toNat = 2 ^ 64 - 1 := rfl

/-- A sum that the check lets through does not wrap. -/
theorem toNat_add_of_not_limit (total amount : UInt64) (h : ¬ maxUint64 - total < amount) :
    (total + amount).toNat = total.toNat + amount.toNat := by
  have htotal := total.toNat_lt
  have hle : total ≤ maxUint64 := by
    rw [UInt64.le_iff_toNat_le, maxUint64_toNat]
    omega
  rw [UInt64.lt_iff_toNat_lt, UInt64.toNat_sub_of_le _ _ hle, maxUint64_toNat] at h
  rw [UInt64.toNat_add]
  exact Nat.mod_eq_of_lt (by omega)

/-- The loop over the amounts adds each to its total. -/
theorem charge_totals (entries : List (GoString × UInt64)) :
    ∀ totals totals' : GoString → UInt64, charge r entries totals = (totals', none) →
    ∀ key, (totals' key).toNat = (totals key).toNat + chargeOf r entries key := by
  induction entries with
  | nil =>
    intro totals totals' h key
    rw [charge, Prod.mk.injEq] at h
    rw [← h.1]
    rfl
  | cons e rest ih =>
    intro totals totals' h key
    simp only [charge] at h
    by_cases hlimit : maxUint64 - totals (quotaKey r e.1) < e.2
    · rw [if_pos hlimit, Prod.mk.injEq] at h
      cases h.2
    · rw [if_neg hlimit] at h
      have hstep := ih _ totals' h key
      by_cases hkey : quotaKey r e.1 = key
      · have hcons : chargeOf r (e :: rest) key = e.2.toNat + chargeOf r rest key := by
          simp only [chargeOf, filter_cons, hkey, decide_true, if_true, map_cons, sum_cons]
        subst hkey
        rw [Function.update_self, toNat_add_of_not_limit _ _ hlimit] at hstep
        omega
      · have hcons : chargeOf r (e :: rest) key = chargeOf r rest key := by
          simp only [chargeOf, filter_cons, hkey, decide_false, Bool.false_eq_true, if_false]
        rw [Function.update_of_ne (fun hc => hkey hc.symm)] at hstep
        omega

/-- What `apply` leaves when it reports no error. -/
theorem apply_eq (s s' : FileState) (r : Reservation) (h : s.apply r = (s', none)) :
    ∃ totals, charge r r.amounts.entries s.totals = (totals, none) ∧
      s' = { s with
        maxEpoch := if s.maxEpoch < r.epoch then r.epoch else s.maxEpoch
        totals := totals
        nonces := Function.update s.nonces (nonceKey r) true
        sequences := match r.sequence with
          | some n => Function.update s.sequences r.sequenceKey (some n)
          | none => s.sequences } := by
  -- raising the epoch leaves the maps as they were
  have hraise : (if s.maxEpoch < r.epoch then { s with maxEpoch := r.epoch } else s) =
      { s with maxEpoch := if s.maxEpoch < r.epoch then r.epoch else s.maxEpoch } := by
    by_cases hlt : s.maxEpoch < r.epoch
    · simp only [if_pos hlt]
    · simp only [if_neg hlt]
  simp only [FileState.apply, hraise] at h
  split at h
  · rw [Prod.mk.injEq] at h
    cases h.2
  · split at h
    · rw [Prod.mk.injEq] at h
      cases h.2
    · rename_i totals hcharge
      rw [Prod.mk.injEq] at h
      exact ⟨totals, hcharge, h.1.symm⟩

/-- Applying a reservation extends the summarised list by it. -/
theorem apply_summary (s s' : FileState) (r : Reservation) (l : List Reservation)
    (hs : Summary s l) (h : s.apply r = (s', none)) : Summary s' (l ++ [r]) := by
  rcases apply_eq s s' r h with ⟨totals, hcharge, rfl⟩
  refine ⟨?_, ?_, ?_, ?_⟩
  · refine forall_mem_snoc (fun x hx => ?_) (Function.update_self ..)
    by_cases hkey : nonceKey x = nonceKey r
    · simp only [hkey, Function.update_self]
    · simp only [Function.update_of_ne hkey]
      exact hs.nonces x hx
  · intro key
    rw [charged_append, ← hs.totals key]
    exact charge_totals r r.amounts.entries s.totals totals hcharge key
  · intro key
    rw [sequencesOf_append]
    cases hseq : r.sequence with
    | none =>
      simp only [Option.toList_none, ite_self, append_nil]
      exact hs.sequences key
    | some n =>
      by_cases hkey : r.sequenceKey = key
      · subst hkey
        simp only [Function.update_self, Option.toList_some, if_true,
          getLast?_append, getLast?_singleton, Option.some_or]
      · simp only [Function.update_of_ne (fun hc => hkey hc.symm), if_neg hkey, append_nil]
        exact hs.sequences key
  · have hraise : s.maxEpoch ≤ (if s.maxEpoch < r.epoch then r.epoch else s.maxEpoch) ∧
        r.epoch ≤ (if s.maxEpoch < r.epoch then r.epoch else s.maxEpoch) := by
      by_cases hlt : s.maxEpoch < r.epoch
      · rw [if_pos hlt]
        exact ⟨UInt64.le_of_lt hlt, UInt64.le_refl _⟩
      · rw [if_neg hlt]
        exact ⟨UInt64.le_refl _, UInt64.not_lt.mp hlt⟩
    exact forall_mem_snoc (fun x hx => UInt64.le_trans (hs.maxEpoch x hx) hraise.1) hraise.2

/-- A fresh handle accounts for nothing. -/
theorem summary_nil : Summary {} [] := by
  refine ⟨?_, fun _ => rfl, fun _ => rfl, ?_⟩
  · intro r hr
    cases hr
  · intro r hr
    cases hr

/-- The summary reads only the accounting of a reservation. -/
theorem summary_congr (l l' : List Reservation)
    (h : l.map Reservation.accounting = l'.map Reservation.accounting) (hs : Summary s l) :
    Summary s l' := by
  have hmem : ∀ r' ∈ l', ∃ r ∈ l, r.accounting = r'.accounting := by
    intro r' hr'
    have : r'.accounting ∈ l.map Reservation.accounting := h ▸ mem_map_of_mem hr'
    exact mem_map.mp this
  -- each summary is a function of the accountings
  have hcharged : ∀ (l : List Reservation) key,
      charged l key = charged (l.map Reservation.accounting) key := by
    intro l key
    simp only [charged, map_map]
    rfl
  have hsequences : ∀ (l : List Reservation) key,
      sequencesOf l key = sequencesOf (l.map Reservation.accounting) key := by
    intro l key
    simp only [sequencesOf, flatMap_map]
    rfl
  refine ⟨?_, ?_, ?_, ?_⟩
  · intro r' hr'
    rcases hmem r' hr' with ⟨r, hr, hacc⟩
    have hkey : nonceKey r'.accounting = nonceKey r.accounting := by rw [hacc]
    have : nonceKey r' = nonceKey r := hkey
    rw [this]
    exact hs.nonces r hr
  · intro key
    rw [hcharged l' key, ← h, ← hcharged l key]
    exact hs.totals key
  · intro key
    rw [hsequences l' key, ← h, ← hsequences l key]
    exact hs.sequences key
  · intro r' hr'
    rcases hmem r' hr' with ⟨r, hr, hacc⟩
    have hepoch : r'.accounting.epoch = r.accounting.epoch := by rw [hacc]
    have : r'.epoch = r.epoch := hepoch
    rw [this]
    exact hs.maxEpoch r hr

theorem replay_summary : ∀ (s s' : FileState) (l : List Reservation),
    Summary s l → replay s events = some s' →
    Summary s' (l ++ events.map StateEvent.reservation) := by
  induction events with
  | nil =>
    intro s s' l hs h
    rw [← Option.some.inj h, map_nil, append_nil]
    exact hs
  | cons e rest ih =>
    intro s s' l hs h
    rw [replay] at h
    split at h
    · cases h
    · rename_i s1 happly
      have h1 : Summary s1 (l ++ [e.reservation]) := apply_summary s s1 e.reservation l hs happly
      -- the position in the chain is no part of the summary
      have h2 : Summary { s1 with sequence := e.sequence, lastHash := e.hash }
          (l ++ [e.reservation]) := ⟨h1.nonces, h1.totals, h1.sequences, h1.maxEpoch⟩
      have := ih _ s' _ h2 h
      simpa only [append_assoc, singleton_append, map_cons] using this

/-! ### Reopening -/

/-- What every line that is read has as it was written, the lines that pass
    `readState` have. -/
theorem readEvents_map {α : Type} {F : StateEvent → α} (journal : List StateEvent) :
    ∀ (previous : GoString) (count : Nat) (events : List StateEvent),
    (∀ line ∈ journal, ∀ event, StateEvent.decode (line.encode.getD []) = .ok event →
      event.hash = stateEventHash event → F event = F line) →
    readEvents previous count journal = .ok events → events.map F = journal.map F := by
  induction journal with
  | nil =>
    intro previous count events _ h
    rw [readEvents] at h
    cases h
    rfl
  | cons line rest ih =>
    intro previous count events hlines h
    rw [forall_mem_cons] at hlines
    simp only [readEvents] at h
    split at h
    · cases h
    split at h
    · cases h
    rename_i event hdec
    split at h
    · cases h
    rename_i hcheck
    split at h
    · cases h
    split at h
    · cases h
    rename_i tail htail
    cases h
    simp only [not_or, ne_eq, Decidable.not_not] at hcheck
    rw [map_cons, map_cons, hlines.1 event hdec hcheck.2.2,
      ih event.hash (count + 1) tail hlines.2 htail]

/-- The lines that pass `readState` have the accounting that was written. -/
theorem readEvents_accounting (journal : List StateEvent) (previous : GoString) (count : Nat)
    (events : List StateEvent) (hlines : ∀ e ∈ journal, e.hash = stateEventHash e ∧ HashTells e)
    (h : readEvents previous count journal = .ok events) :
    (events.map StateEvent.reservation).map Reservation.accounting =
      (journal.map StateEvent.reservation).map Reservation.accounting := by
  rw [map_map, map_map]
  refine readEvents_map journal previous count events (fun line hline event hdec hcheck => ?_) h
  exact decode_accounting line event hdec (hlines line hline).1 hcheck (hlines line hline).2

/-- What an open that succeeds has found: events that replay to the handle,
    no fewer than the mark says, and its last one if as many. -/
theorem openFileState_ok (fault : Option OpenFault) (s : FileState)
    (h : openFileState d fault = .ok s) :
    ∃ events, readState d = .ok events ∧ replay {} events = some s ∧
      ¬ s.sequence < (readHighWater d).sequence ∧
      ¬ (s.sequence = (readHighWater d).sequence ∧ (readHighWater d).hash ≠ stateGenesisHash ∧
        s.lastHash ≠ (readHighWater d).hash) := by
  unfold openFileState at h
  split at h
  · cases h
  split at h
  · cases h
  rename_i events hread
  split at h
  · cases h
  rename_i s' hreplay
  -- what is left are checks that return the handle or nothing
  dsimp only at h
  split_ifs at h with _ hlength hlast
  cases h
  exact ⟨events, hread, hreplay, hlength, hlast⟩

theorem readState_ok (h : readState d = .ok events) :
    readEvents stateGenesisHash 0 d.journal = .ok events := by
  unfold readState at h
  split at h
  · cases h
  rename_i events' hevents
  split at h
  · cases h
  · cases h
  · cases h
    exact hevents

/-- A journal that opens gives a handle that accounts for it. -/
theorem openFileState_summary (fault : Option OpenFault) (s : FileState)
    (hlines : ∀ e ∈ d.journal, e.hash = stateEventHash e ∧ HashTells e)
    (h : openFileState d fault = .ok s) : Summary s (d.journal.map StateEvent.reservation) := by
  rcases openFileState_ok d fault s h with ⟨events, hread, hreplay, _⟩
  have hsum := replay_summary events {} s [] summary_nil hreplay
  rw [nil_append] at hsum
  exact summary_congr s _ _
    (readEvents_accounting d.journal stateGenesisHash 0 events hlines (readState_ok d events hread))
    hsum

/-! ### One reservation more -/

/-- What the rules and the validation of `Reserve` let through. -/
theorem refuses_none (h : s.refuses r = none) :
    ¬ (r.epoch < s.maxEpoch ∨ (r.epoch = 0 ∧ 0 < s.maxEpoch)) ∧
      s.nonces (nonceKey r) = false ∧ outOfSequence s r = false ∧ overLimit s r = false := by
  unfold FileState.refuses at h
  split_ifs at h with hepoch hnonce hseq hlimit
  exact ⟨hepoch, Bool.eq_false_of_not_eq_true hnonce, Bool.eq_false_of_not_eq_true hseq,
    Bool.eq_false_of_not_eq_true hlimit⟩

theorem validateReservation_sequence (h : validateReservation r = .ok ()) :
    r.sequence ≠ some maxUint64 := by
  intro hc
  unfold validateReservation at h
  split at h
  · cases h
  split at h
  · cases h
  split at h
  · cases h
  cases h

theorem nonceKey_of_identity (r r' : Reservation) (h : r.identity = r'.identity) :
    nonceKey r = nonceKey r' := by
  simp only [Reservation.identity, Prod.mk.injEq] at h
  simp only [nonceKey, h.1, h.2.1, h.2.2.1, h.2.2.2]

/-- A denomination's amount counts toward the total of its own key. -/
theorem get_le_chargeOf (denom : GoString) :
    (r.amounts.get denom).toNat ≤ chargeOf r r.amounts.entries (quotaKey r denom) := by
  cases hm : r.amounts with
  | none => exact Nat.zero_le _
  | some m =>
    cases hget : m.get? denom with
    | none =>
      simp only [Amounts.get, hget, Option.getD_none]
      exact Nat.zero_le _
    | some amount =>
      have hmem : (denom, amount) ∈ m.entries := SortedMap.mem_of_get? m denom amount hget
      simp only [Amounts.get, hget, Option.getD_some, Amounts.entries, chargeOf]
      refine le_sum_of_mem ?_
      refine mem_map.mpr ⟨(denom, amount), mem_filter.mpr ⟨hmem, ?_⟩, rfl⟩
      exact decide_eq_true rfl

/-- The totals cover what a bucket has spent. -/
theorem spent_le_charged (denom : GoString) : spent l r denom ≤ charged l (quotaKey r denom) := by
  induction l with
  | nil => exact Nat.le_refl 0
  | cons x l ih =>
    have hcharged : charged (x :: l) (quotaKey r denom) =
        chargeOf x x.amounts.entries (quotaKey r denom) + charged l (quotaKey r denom) := by
      simp only [charged, map_cons, sum_cons]
    by_cases hbucket : x.bucket = r.bucket
    · have hspent : spent (x :: l) r denom = (x.amounts.get denom).toNat + spent l r denom := by
        simp only [spent, filter_cons, hbucket, decide_true, if_true, map_cons, sum_cons]
      have hkey : quotaKey x denom = quotaKey r denom := by
        simp only [Reservation.bucket, Prod.mk.injEq] at hbucket
        simp only [quotaKey, hbucket.1, hbucket.2.1, hbucket.2.2]
      have := get_le_chargeOf x denom
      rw [hkey] at this
      omega
    · have hspent : spent (x :: l) r denom = spent l r denom := by
        simp only [spent, filter_cons, hbucket, decide_false, Bool.false_eq_true, if_false]
      omega

/-- The new reservation keeps its bucket within its cap. -/
theorem spent_append_le
    (hs : Summary s l) (hlimit : overLimit s r = false) (denom : GoString) (amount : UInt64)
    (hmem : (denom, amount) ∈ r.amounts.entries) :
    spent (l ++ [r]) r denom ≤ (r.dailyCaps.get denom).toNat := by
  have hentry : (decide (r.dailyCaps.get denom = 0) || decide (r.dailyCaps.get denom < amount) ||
      decide (r.dailyCaps.get denom - amount < s.totals (quotaKey r denom))) = false := by
    have := any_eq_false.mp hlimit (denom, amount) hmem
    simpa only [Bool.not_eq_true] using this
  simp only [Bool.or_eq_false_iff, decide_eq_false_iff_not] at hentry
  rcases hentry with ⟨⟨_, hamount⟩, htotal⟩
  have hle : amount ≤ r.dailyCaps.get denom := UInt64.not_lt.mp hamount
  have hcap : amount.toNat ≤ (r.dailyCaps.get denom).toNat := UInt64.le_iff_toNat_le.mp hle
  have hroom : (s.totals (quotaKey r denom)).toNat ≤
      (r.dailyCaps.get denom).toNat - amount.toNat := by
    rw [← UInt64.toNat_sub_of_le _ _ hle]
    exact UInt64.le_iff_toNat_le.mp (UInt64.not_lt.mp htotal)
  have hget : r.amounts.get denom = amount := by
    cases hm : r.amounts with
    | none =>
      rw [hm] at hmem
      cases hmem
    | some m =>
      rw [hm] at hmem
      simp only [Amounts.get, SortedMap.get?_of_mem m denom amount hmem, Option.getD_some]
  have hspent : spent (l ++ [r]) r denom = spent l r denom + amount.toNat := by
    simp only [spent, filter_append, map_append, sum_append, filter_cons,
      decide_true, if_true, filter_nil, map_cons, map_nil, sum_cons, sum_nil, Nat.add_zero, hget]
  have hcover := spent_le_charged l r denom
  rw [← hs.totals] at hcover
  omega

/-- The new sequence number follows the last one under its key. -/
theorem sequencesOf_append_chain
    (hs : Summary s l) (hvalid : ∀ x ∈ l, validateReservation x = .ok ())
    (hseq : outOfSequence s r = false) (key : GoString)
    (hchain : (sequencesOf l key).IsChain (fun a b => b.toNat = a.toNat + 1)) :
    (sequencesOf (l ++ [r]) key).IsChain (fun a b => b.toNat = a.toNat + 1) := by
  rw [sequencesOf_append]
  by_cases hkey : r.sequenceKey = key
  · rw [if_pos hkey]
    cases hr : r.sequence with
    | none =>
      rw [Option.toList_none, append_nil]
      exact hchain
    | some n =>
      refine isChain_append.mpr ⟨hchain, List.IsChain.singleton n, ?_⟩
      intro previous hprevious m hm
      rw [Option.toList_some, head?_cons] at hm
      cases hm
      have hlast : s.sequences r.sequenceKey = some previous := by
        rw [hs.sequences, hkey]
        exact hprevious
      have hnext : n = previous + 1 := by
        simp only [outOfSequence, hr, hlast, decide_eq_false_iff_not, ne_eq,
          Decidable.not_not] at hseq
        exact hseq
      -- no reservation of the list has the largest number, so adding one does not wrap
      have hne : previous ≠ maxUint64 := by
        rintro rfl
        have hmem : maxUint64 ∈ sequencesOf l key := mem_of_mem_getLast? hprevious
        rcases mem_flatMap.mp hmem with ⟨x, hx, hxs⟩
        by_cases hxkey : x.sequenceKey = key
        · rw [if_pos hxkey, Option.mem_toList] at hxs
          exact validateReservation_sequence x (hvalid x hx) hxs
        · rw [if_neg hxkey] at hxs
          cases hxs
      have hlt := previous.toNat_lt
      have hne' : previous.toNat ≠ 2 ^ 64 - 1 := fun hc =>
        hne (UInt64.toNat_inj.mp (by rw [hc, maxUint64_toNat]))
      rw [hnext, UInt64.toNat_add]
      exact Nat.mod_eq_of_lt (by simp only [UInt64.reduceToNat]; omega)
  · rw [if_neg hkey, append_nil]
    exact hchain

/-- A reservation the rules let through extends the ledger. -/
theorem ledger_append
    (hl : Ledger l) (hs : Summary s l) (hvalid : ∀ x ∈ l, validateReservation x = .ok ())
    (h : s.refuses r = none) : Ledger (l ++ [r]) := by
  rcases refuses_none s r h with ⟨hepoch, hnonce, hseq, hlimit⟩
  refine ⟨?_, ?_, ?_, ?_⟩
  · rw [map_append, map_cons, map_nil]
    refine nodup_append.mpr ⟨hl.noncesOnce, nodup_singleton _, ?_⟩
    intro a ha b hb hab
    rcases mem_map.mp ha with ⟨x, hx, rfl⟩
    rw [mem_singleton.mp hb] at hab
    -- the same identity has the same key, which is not spent
    have hspent := hs.nonces x hx
    rw [nonceKey_of_identity x r hab, hnonce] at hspent
    cases hspent
  · intro key
    exact sequencesOf_append_chain s l r hs hvalid hseq key (hl.consecutive key)
  · intro before x after hsplit denom amount hmem
    rcases eq_nil_or_concat after with rfl | ⟨rest, last, rfl⟩
    · -- `x` is in the last position
      obtain ⟨rfl, hx⟩ := append_inj' hsplit rfl
      obtain rfl := singleton_injective hx
      exact spent_append_le s l r hs hlimit denom amount hmem
    · rw [concat_eq_append, ← cons_append, ← append_assoc] at hsplit
      exact hl.withinCaps before x rest (append_inj' hsplit rfl).1 denom amount hmem
  · rw [map_append, map_cons, map_nil]
    refine pairwise_snoc hl.epochsRise (forall_mem_map.mpr (fun x hx => ?_))
    have hle : s.maxEpoch ≤ r.epoch := UInt64.not_lt.mp (fun hc => hepoch (.inl hc))
    exact UInt64.le_trans (hs.maxEpoch x hx) hle

/-! ### Runs -/

/-- What every call preserves: the journal is a ledger of valid reservations
    whose hashes are their own, and a handle that still takes reservations
    accounts for it. -/
structure World.Inv (w : World) : Prop where
  ledger : Ledger w.committed
  valid : ∀ r ∈ w.committed, validateReservation r = .ok ()
  hashes : ∀ e ∈ w.disk.journal, e.hash = stateEventHash e
  handle : ∀ s, w.handle = some s → s.closed = false → s.failed = false → Summary s w.committed

/-- Appending leaves the journal as it is or adds the event to it. -/
theorem append_journal (e : StateEvent) (written : Written) :
    (d.append e written).journal = d.journal ∨ (d.append e written).journal = d.journal ++ [e] := by
  cases written with
  | nothing => exact .inl rfl
  | part => exact .inl rfl
  | allButNewline => exact .inr rfl
  | all => exact .inr rfl

/-- For one reservation the key determines the denomination. -/
theorem quotaKey_inj (denom denom' : GoString)
    (h : quotaKey r denom = quotaKey r denom') : denom = denom' :=
  append_cancel_left h

/-- The loop over the amounts succeeds where no single total would wrap. -/
theorem charge_succeeds (entries : List (GoString × UInt64)) :
    ∀ totals : GoString → UInt64, (entries.map Prod.fst).Nodup →
    (∀ e ∈ entries, ¬ maxUint64 - totals (quotaKey r e.1) < e.2) →
    ∃ totals', charge r entries totals = (totals', none) := by
  induction entries with
  | nil =>
    intro totals _ _
    exact ⟨totals, rfl⟩
  | cons e rest ih =>
    intro totals hnodup hroom
    rw [map_cons, nodup_cons] at hnodup
    have hroom' : ∀ x ∈ rest, ¬ maxUint64 - Function.update totals (quotaKey r e.1)
        (totals (quotaKey r e.1) + e.2) (quotaKey r x.1) < x.2 := by
      intro x hx
      have hne : quotaKey r x.1 ≠ quotaKey r e.1 := fun hc =>
        hnodup.1 (quotaKey_inj r _ _ hc ▸ mem_map_of_mem hx)
      rw [Function.update_of_ne hne]
      exact hroom x (mem_cons_of_mem _ hx)
    rcases ih _ hnodup.2 hroom' with ⟨totals', h⟩
    refine ⟨totals', ?_⟩
    rw [charge]
    simp only [if_neg (hroom e mem_cons_self)]
    exact h

/-- A reservation the rules let through is applied without an error. -/
theorem apply_succeeds (h : s.refuses r = none) : ∃ s', s.apply r = (s', none) := by
  rcases refuses_none s r h with ⟨_, hnonce, _, hlimit⟩
  have hroom : ∀ e ∈ r.amounts.entries, ¬ maxUint64 - s.totals (quotaKey r e.1) < e.2 := by
    intro e he hc
    have hentry := any_eq_false.mp hlimit e he
    simp only [Bool.or_eq_true, decide_eq_true_eq, not_or] at hentry
    rcases hentry with ⟨⟨_, hamount⟩, htotal⟩
    have hle : e.2 ≤ r.dailyCaps.get e.1 := UInt64.not_lt.mp hamount
    have htot : s.totals (quotaKey r e.1) ≤ maxUint64 := by
      have := (s.totals (quotaKey r e.1)).toNat_lt
      rw [UInt64.le_iff_toNat_le, maxUint64_toNat]
      omega
    have hcap := (r.dailyCaps.get e.1).toNat_lt
    rw [UInt64.lt_iff_toNat_lt, UInt64.toNat_sub_of_le _ _ htot, maxUint64_toNat] at hc
    rw [UInt64.lt_iff_toNat_lt, UInt64.toNat_sub_of_le _ _ hle] at htotal
    rw [UInt64.le_iff_toNat_le] at hle
    omega
  have hnodup : (r.amounts.entries.map Prod.fst).Nodup := by
    cases hm : r.amounts with
    | none => exact nodup_nil
    | some m => exact m.keys_nodup
  rcases charge_succeeds r r.amounts.entries s.totals hnodup hroom with ⟨totals, hcharge⟩
  refine ⟨(s.apply r).1, Prod.ext rfl ?_⟩
  by_cases hlt : s.maxEpoch < r.epoch
  · simp only [FileState.apply, if_pos hlt, hnonce, Bool.false_eq_true, if_false, hcharge]
  · simp only [FileState.apply, if_neg hlt, hnonce, Bool.false_eq_true, if_false, hcharge]

/-- Everything `commit` can do. The event has no text and nothing happens; or
    some of its line is written and the handle is of no more use; or the line
    is in the file, the reservation is applied and the mark is set. -/
theorem commit_forms (hrefuse : s.refuses r = none) :
    (∃ text, (s.nextEvent r).encode = none ∧
      s.commit d r fault = (s, d, .returns (some (.other text)))) ∨
    ((s.nextEvent r).encode.isSome = true ∧ ∃ written s' out,
      s.commit d r fault = (s', d.append (s.nextEvent r) written, out) ∧
      (out = .dies ∨ s'.failed = true ∧ ∃ text, out = .returns (some (.other text))) ∧
      (written = .all ∧ (fault = some .sync ∨ fault = some .mark) ∨
        fault = some (.write written) ∨ fault = some (.diesWriting written))) ∨
    ((s.nextEvent r).encode.isSome = true ∧ ∃ s₁ out, s.apply r = (s₁, none) ∧
      s.commit d r fault =
        ({ s₁ with sequence := (s.nextEvent r).sequence, lastHash := (s.nextEvent r).hash },
          { d.append (s.nextEvent r) .all with
            mark := some ⟨(s.nextEvent r).sequence, (s.nextEvent r).hash⟩ }, out) ∧
      (out = .dies ∧ fault = some .diesMarked ∨ out = .returns none)) := by
  rcases apply_succeeds s r hrefuse with ⟨s₁, happly⟩
  cases henc : (s.nextEvent r).encode with
  | none =>
    refine .inl ⟨"encode policy state", rfl, ?_⟩
    simp only [FileState.commit, henc]
  | some text =>
    refine .inr ?_
    rcases fault with _ | ⟨⟩ | ⟨⟩ | written | ⟨⟩ | ⟨⟩ | written | ⟨⟩ <;>
      simp only [FileState.commit, henc, happly]
    case some.write =>
      exact .inl ⟨rfl, written, _, _, rfl, .inr ⟨rfl, _, rfl⟩, .inr (.inl rfl)⟩
    case some.diesWriting =>
      exact .inl ⟨rfl, written, _, _, rfl, .inl rfl, .inr (.inr rfl)⟩
    case some.sync =>
      exact .inl ⟨rfl, .all, _, _, rfl, .inr ⟨rfl, _, rfl⟩, .inl ⟨rfl, .inl trivial⟩⟩
    case some.mark =>
      exact .inl ⟨rfl, .all, _, _, rfl, .inr ⟨rfl, _, rfl⟩, .inl ⟨rfl, .inr trivial⟩⟩
    case some.diesMarked => exact .inr ⟨rfl, s₁, _, rfl, rfl, .inl ⟨rfl, trivial⟩⟩
    all_goals exact .inr ⟨rfl, s₁, _, rfl, rfl, .inr rfl⟩

/-- A `Reserve` refuses without an effect, or comes to its commit with a
    valid reservation that the rules let through. -/
theorem reserve_cases :
    (∃ err, s.reserve d r fault = (s, d, .returns (some err))) ∨
    (validateReservation r = .ok () ∧ s.closed = false ∧ s.failed = false ∧
      s.refuses r = none ∧ s.reserve d r fault = s.commit d r fault) := by
  unfold FileState.reserve
  cases hvalid : validateReservation r with
  | error err => exact .inl ⟨err, rfl⟩
  | ok u =>
    by_cases h1 : fault = some .canceled
    · exact .inl ⟨_, if_pos h1⟩
    simp only [if_neg h1]
    cases hclosed : s.closed with
    | true => exact .inl ⟨_, rfl⟩
    | false =>
      cases hfailed : s.failed with
      | true => exact .inl ⟨_, rfl⟩
      | false =>
        simp only [Bool.false_eq_true, if_false]
        by_cases h2 : fault = some .canceledLocked
        · exact .inl ⟨_, if_pos h2⟩
        simp only [if_neg h2]
        cases hrefuse : s.refuses r with
        | some err => exact .inl ⟨err, rfl⟩
        | none => exact .inr ⟨trivial, trivial, trivial, rfl, rfl⟩

/-- Everything a call can do. The disk is the same, and the handle is gone, the
    same, closed or one that was opened; or a reservation came to its commit,
    which left some of its line and no handle of use, or all of it and the
    mark. -/
theorem step_cases (op : Op) :
    ((w.step op).1.disk = w.disk ∧ ∀ s', (w.step op).1.handle = some s' →
      (∃ s, w.handle = some s ∧ (s' = s ∨ s' = { s with closed := true })) ∨
        ∃ fault, openFileState w.disk fault = .ok s') ∨
    ∃ s r fault, op = .reserve r fault ∧ w.handle = some s ∧ validateReservation r = .ok () ∧
      s.closed = false ∧ s.failed = false ∧ s.refuses r = none ∧
      (s.nextEvent r).encode.isSome = true ∧
      ((∃ written handle, (w.step op).1 = ⟨w.disk.append (s.nextEvent r) written, handle⟩ ∧
        (∀ s', handle = some s' → s'.failed = true) ∧
        (written = .all ∧ (fault = some .sync ∨ fault = some .mark) ∨
          fault = some (.write written) ∨ fault = some (.diesWriting written))) ∨
      ∃ s₁ handle, s.apply r = (s₁, none) ∧
        (w.step op).1 = ⟨{ w.disk.append (s.nextEvent r) .all with
          mark := some ⟨(s.nextEvent r).sequence, (s.nextEvent r).hash⟩ }, handle⟩ ∧
        (handle = none ∧ fault = some .diesMarked ∨
          handle = some { s₁ with sequence := (s.nextEvent r).sequence,
                                  lastHash := (s.nextEvent r).hash } ∧
          (w.step op).2 = .returns none)) := by
  cases op with
  | openState fault =>
    refine .inl ?_
    simp only [World.step]
    split
    · exact ⟨rfl, fun s' hs' => .inl ⟨s', hs', .inl rfl⟩⟩
    rename_i s hopen
    split
    · exact ⟨rfl, fun s' hs' => .inl ⟨s', hs', .inl rfl⟩⟩
    · exact ⟨rfl, fun s' hs' => .inr ⟨fault, Option.some.inj hs' ▸ hopen⟩⟩
  | close =>
    refine .inl ?_
    simp only [World.step]
    split
    · exact ⟨rfl, fun s' hs' => .inl ⟨s', hs', .inl rfl⟩⟩
    · rename_i s hs
      exact ⟨rfl, fun s' hs' => .inl ⟨s, hs, .inr (Option.some.inj hs').symm⟩⟩
  | kill => exact .inl ⟨rfl, nofun⟩
  | reserve r fault =>
    cases hhandle : w.handle with
    | none => simp [World.step, hhandle]
    | some s =>
      simp only [World.step, hhandle]
      rcases reserve_cases s w.disk r fault with
        ⟨err, heq⟩ | ⟨hvalid, hclosed, hfailed, hrefuse, heq⟩
      · exact .inl (by simp [heq])
      rw [heq]
      rcases commit_forms s w.disk r fault hrefuse with
        ⟨text, _, hform⟩ | ⟨henc, written, s', out, hform, hend, hfault⟩ |
        ⟨henc, s₁, out, happly, hform, hend⟩
      · exact .inl (by simp [hform])
      · refine .inr ⟨s, r, fault, rfl, rfl, hvalid, hclosed, hfailed, hrefuse, henc, .inl ?_⟩
        rw [hform]
        rcases hend with rfl | ⟨hdead, text, rfl⟩
        · exact ⟨written, none, rfl, nofun, hfault⟩
        · exact ⟨written, some s', rfl, fun s'' hs'' => Option.some.inj hs'' ▸ hdead, hfault⟩
      · refine .inr ⟨s, r, fault, rfl, rfl, hvalid, hclosed, hfailed, hrefuse, henc, .inr ?_⟩
        rw [hform]
        rcases hend with ⟨rfl, hfault⟩ | rfl
        · exact ⟨s₁, none, happly, rfl, .inl ⟨rfl, hfault⟩⟩
        · exact ⟨s₁, some _, happly, rfl, .inr ⟨rfl, rfl⟩⟩

/-- A reservation that an open state returns without an error is committed. -/
theorem committed_of_reserved
    (hopen : w.handle.isSome = true) (h : (w.step (.reserve r fault)).2 = .returns none) :
    (w.step (.reserve r fault)).1.committed = w.committed ++ [r] := by
  rcases w with ⟨d, handle⟩
  rcases Option.isSome_iff_exists.mp hopen with ⟨s, hs⟩
  simp only at hs
  subst hs
  simp only [World.step] at h ⊢
  rcases reserve_cases s d r fault with ⟨err, heq⟩ | ⟨_, _, _, hrefuse, heq⟩
  · rw [heq] at h
    cases h
  rcases commit_forms s d r fault hrefuse with
    ⟨text, _, hform⟩ | ⟨_, written, s₂, out, hform, rfl | ⟨_, text, rfl⟩, _⟩ |
      ⟨_, s₁, out, _, hform, ⟨rfl, _⟩ | rfl⟩ <;> rw [heq, hform] at h ⊢ <;> cases h
  simp only [World.committed, Disk.append, map_append, map_cons, map_nil]
  rfl

/-- The journal of a call's world begins with the journal before it. -/
theorem step_journal (op : Op) : ∃ added, (w.step op).1.disk.journal = w.disk.journal ++ added := by
  rcases step_cases w op with ⟨hdisk, _⟩ | ⟨s, r, fault, _, _, _, _, _, _, _,
    ⟨written, handle, hstep, _⟩ | ⟨s₁, handle, _, hstep, _⟩⟩
  · exact ⟨[], by rw [hdisk, append_nil]⟩
  · rw [hstep]
    rcases append_journal w.disk (s.nextEvent r) written with hj | hj
    · exact ⟨[], by rw [hj, append_nil]⟩
    · exact ⟨_, hj⟩
  · rw [hstep]
    exact ⟨_, rfl⟩

/-- The invariant after a journal that stayed as it was or took the event of
    a reservation the rules let through, whatever became of the handle. -/
theorem inv_of_journal (s : FileState) (r : Reservation) (d : Disk)
    (handle : Option FileState) (hw : w.Inv) (hs : Summary s w.committed)
    (hvalid : validateReservation r = .ok ()) (hrefuse : s.refuses r = none)
    (hd : d.journal = w.disk.journal ∨ d.journal = w.disk.journal ++ [s.nextEvent r])
    (hhandle : ∀ s', handle = some s' → s'.closed = false → s'.failed = false →
      Summary s' (d.journal.map StateEvent.reservation)) : World.Inv ⟨d, handle⟩ := by
  rcases hd with hd | hd
  · have hcommitted : World.committed ⟨d, handle⟩ = w.committed := by
      simp only [World.committed, hd]
    refine ⟨hcommitted ▸ hw.ledger, hcommitted ▸ hw.valid, ?_, hhandle⟩
    intro e he
    exact hw.hashes e (hd ▸ he)
  · have hcommitted : World.committed ⟨d, handle⟩ = w.committed ++ [r] := by
      simp only [World.committed, hd, map_append, map_cons, map_nil]
      rfl
    refine ⟨?_, ?_, ?_, hhandle⟩
    · rw [hcommitted]
      exact ledger_append s w.committed r hw.ledger hs hw.valid hrefuse
    · exact hcommitted ▸ forall_mem_snoc hw.valid hvalid
    · exact hd ▸ forall_mem_snoc hw.hashes rfl

/-- Every call keeps the invariant. -/
theorem step_inv (op : Op) (hw : w.Inv)
    (htells : ∀ e ∈ w.disk.journal, HashTells e) : (w.step op).1.Inv := by
  rcases step_cases w op with ⟨hdisk, hhandle⟩ | ⟨s, r, fault, _, hs, hvalid, hclosed, hfailed,
    hrefuse, _, ⟨written, handle, hstep, hdead, _⟩ | ⟨s₁, handle, happly, hstep, hend⟩⟩
  · have hcommitted : (w.step op).1.committed = w.committed := by
      simp only [World.committed, hdisk]
    refine ⟨hcommitted ▸ hw.ledger, hcommitted ▸ hw.valid, hdisk ▸ hw.hashes, ?_⟩
    rw [hcommitted]
    intro s' hs' hopen hgood
    rcases hhandle s' hs' with ⟨s, hs, rfl | rfl⟩ | ⟨fault, hnew⟩
    · exact hw.handle _ hs hopen hgood
    · cases hopen
    · exact openFileState_summary w.disk fault s' (fun e he => ⟨hw.hashes e he, htells e he⟩) hnew
  · rw [hstep]
    refine inv_of_journal w s r _ handle hw (hw.handle s hs hclosed hfailed) hvalid hrefuse
      (append_journal _ _ _) ?_
    intro s' hs' _ hgood
    rw [hdead s' hs'] at hgood
    cases hgood
  · have hsummary := hw.handle s hs hclosed hfailed
    rw [hstep]
    refine inv_of_journal w s r _ handle hw hsummary hvalid hrefuse (.inr rfl) ?_
    intro s' hs' _ _
    rcases hend with ⟨rfl, _⟩ | ⟨rfl, _⟩
    · cases hs'
    · cases hs'
      have h₁ := apply_summary s s₁ r w.committed hsummary happly
      simp only [Disk.append, map_append, map_cons, map_nil]
      exact ⟨h₁.nonces, h₁.totals, h₁.sequences, h₁.maxEpoch⟩

/-- Nothing is committed before the first call. -/
theorem inv_initial : World.Inv {} := by
  refine ⟨⟨nodup_nil, fun _ => List.IsChain.nil, ?_, List.Pairwise.nil⟩, ?_, ?_, ?_⟩
  · intro before r after h
    exact absurd h (by simp [World.committed])
  · intro r hr
    cases hr
  · intro e he
    cases he
  · intro s hs
    cases hs

theorem run_append (ops : List Op) (op : Op) : w.run (ops ++ [op]) = ((w.run ops).step op).1 := by
  simp only [World.run, foldl_append, foldl_cons, foldl_nil]

/-- Every run keeps the invariant. The induction is on the end of the run, so
    that the journal's lines so far are among those of the whole run. -/
theorem run_inv (ops : List Op) :
    (∀ e ∈ (World.run {} ops).disk.journal, HashTells e) → (World.run {} ops).Inv := by
  induction ops using List.reverseRecOn with
  | nil =>
    intro _
    exact inv_initial
  | append_singleton ops op ih =>
    intro htells
    rw [run_append] at htells ⊢
    rcases step_journal (World.run {} ops) op with ⟨added, hadded⟩
    have hbefore : ∀ e ∈ (World.run {} ops).disk.journal, HashTells e := fun e he =>
      htells e (hadded ▸ mem_append_left _ he)
    exact step_inv _ op (ih hbefore) hbefore

/-- The errors by which the rules of `Reserve` refuse. -/
def ruleErrors : List StateError := [.replay, .limit, .sequence, .epoch]

/-- A `Reserve` that a rule refuses changes neither the handle nor the disk. -/
theorem step_of_ruleError (err : StateError)
    (h : (w.step (.reserve r fault)).2 = .returns (some err)) (herr : err ∈ ruleErrors) :
    (w.step (.reserve r fault)).1 = w := by
  rcases w with ⟨d, handle⟩
  cases handle with
  | none => rfl
  | some s =>
    simp only [World.step] at h ⊢
    rcases reserve_cases s d r fault with ⟨err', heq⟩ | ⟨_, _, _, hrefuse, heq⟩
    · simp only [heq]
    -- a commit returns none of these errors
    rcases commit_forms s d r fault hrefuse with
      ⟨text, _, hform⟩ | ⟨_, written, s₂, out, hform, rfl | ⟨_, text, rfl⟩, _⟩ |
        ⟨_, s₁, out, _, hform, ⟨rfl, _⟩ | rfl⟩ <;> rw [heq, hform] at h <;> cases h <;>
      simp [ruleErrors] at herr

/-- Every run of opens, reservations, closes and deaths commits a ledger, and
    a reservation a rule refuses leaves everything as it was. -/
theorem committed_ledger (ops : List Op)
    (htells : ∀ e ∈ (World.run {} ops).disk.journal, HashTells e) :
    Ledger (World.run {} ops).committed ∧
      ∀ r fault err, ((World.run {} ops).step (.reserve r fault)).2 = .returns (some err) →
        err ∈ ruleErrors → ((World.run {} ops).step (.reserve r fault)).1 = World.run {} ops :=
  ⟨(run_inv ops htells).ledger, fun r fault err => step_of_ruleError (World.run {} ops) r fault err⟩

/-- An event that is read back as it was written needs nothing of the hash. -/
theorem hashTells_of_decode (e : StateEvent)
    (h : (StateEvent.decode (e.encode.getD [])).toOption = some e) : HashTells e := by
  intro e' hdec _
  rw [hdec] at h
  cases h
  rfl

/-- A spend against a daily cap of 100. -/
def exampleReservation (nonce : String) (amount : UInt64) : Reservation where
  policyID := GoString.ofText "p"
  objectID := GoString.ofText "o"
  principal := GoString.ofText "alice"
  nonce := GoString.ofText nonce
  utcDate := GoString.ofText "2026-10-05"
  amounts := some (SortedMap.ofPairs [(GoString.ofText "uatom", amount)])
  dailyCaps := some (SortedMap.ofPairs [(GoString.ofText "uatom", 100)])

/-- The process dies with its line in the file and no mark, and the journal is
    opened again. -/
def exampleRun : List Op :=
  [.openState none, .reserve (exampleReservation "nonce-aaaaaaaaaa" 60) (some (.diesWriting .all)),
   .openState none]

/-- The spend that was cut off counts after the restart. -/
theorem committed_ledger_restart :
    Ledger (World.run {} exampleRun).committed ∧
      (World.run {} exampleRun).committed = [exampleReservation "nonce-aaaaaaaaaa" 60] ∧
      ((World.run {} exampleRun).step
        (.reserve (exampleReservation "nonce-bbbbbbbbbb" 41) none)).1 = World.run {} exampleRun := by
  have heval : (∀ e ∈ (World.run {} exampleRun).disk.journal,
        (StateEvent.decode (e.encode.getD [])).toOption = some e) ∧
      (World.run {} exampleRun).committed = [exampleReservation "nonce-aaaaaaaaaa" 60] ∧
      ((World.run {} exampleRun).step
        (.reserve (exampleReservation "nonce-bbbbbbbbbb" 41) none)).2 = .returns (some .limit) := by
    decide +kernel
  rcases heval with ⟨hjournal, hcommitted, hlimit⟩
  have hrun := committed_ledger exampleRun (fun e he => hashTells_of_decode e (hjournal e he))
  exact ⟨hrun.1, hcommitted, hrun.2 _ _ _ hlimit (by decide)⟩

end Regalia.Policy
