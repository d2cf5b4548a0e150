import Regalia.Core.Policy.VerifyState
import Regalia.Theory.Policy.Reopening

/-!
# Verifying an Honest Journal

The mark is replaced after each append, so a process that dies between the two
leaves a journal one event ahead of its mark. `VerifyState` takes the mark for
missing only within the first such window. But nothing repairs the mark when
the journal is opened again: a second death before the first mark was ever
written leaves two events and no mark, and the operator is told that the tail
and the mark were deleted together.

A journal that comes through with no such second death is verified. Its mark,
where there is one, names an event of it, since each mark was the last event
when it was written; and a mark at the last event has its hash.

## Main definitions

* `FileWorld.orderly`: What a call is asked for.
* `Disk.Honest`: A journal that `VerifyState` accepts.
* `highestEpoch`: The highest epoch of a list of events.

## Theorems

* `replay_maxEpoch`: Replaying gives the highest epoch.
* `verifyState_honest`: An honest journal is verified.
* `step_honest`: An orderly call keeps a journal honest.
* `verifyState_accepts_orderly`: Whatever orderly run came before, the journal
  is verified, with what was committed.
* `second_death_accused`: Two deaths before the first mark.
-/

namespace Regalia.Policy

open List

/-! ### What is reported -/

/-- The highest epoch among the reservations of some events. -/
def highestEpoch (events : List StateEvent) : Nat :=
  events.foldl (fun epoch e => max epoch e.reservation.epoch.toNat) 0

theorem apply_maxEpoch {s s' : FileState} {r : Reservation} (h : s.apply r = (s', none)) :
    s'.maxEpoch.toNat = max s.maxEpoch.toNat r.epoch.toNat := by
  rcases apply_eq s s' r h with ⟨_, _, rfl⟩
  change (if s.maxEpoch < r.epoch then r.epoch else s.maxEpoch).toNat = _
  by_cases hlt : s.maxEpoch < r.epoch
  · rw [if_pos hlt, max_eq_right (UInt64.lt_iff_toNat_lt.mp hlt).le]
  · rw [UInt64.lt_iff_toNat_lt] at hlt
    rw [if_neg (UInt64.lt_iff_toNat_lt.not.mpr hlt), max_eq_left (not_lt.mp hlt)]

theorem replay_maxEpoch (events : List StateEvent) : ∀ {s s' : FileState},
    replay s events = some s' → s'.maxEpoch.toNat =
      events.foldl (fun epoch e => max epoch e.reservation.epoch.toNat) s.maxEpoch.toNat := by
  induction events with
  | nil =>
    intro s s' h
    cases h
    rfl
  | cons e rest ih =>
    intro s s' h
    rw [replay] at h
    split at h
    · cases h
    · rename_i s₁ happly
      rw [ih h, foldl_cons, ← apply_maxEpoch happly]

/-! ### An honest journal -/

/-- A journal as the write order leaves it: whole, not too long to count, and
    with a mark from the second event on. -/
structure Disk.Honest (d : Disk) : Prop where
  tail : d.tail = .whole
  length : d.journal.length < 2 ^ 64
  marked : 2 ≤ d.journal.length → d.mark.isSome = true

theorem honest_init : Disk.Honest {} := ⟨rfl, by decide, fun h => by cases h⟩

/-- The sequence number of an event in a chain is its place. -/
theorem sequence_of_chained {before after : List StateEvent} {e : StateEvent}
    (h : Chained stateGenesisHash 0 (before ++ e :: after)) :
    e.sequence = UInt64.ofNat (before.length + 1) := by
  have hrest := ((chained_append before (e :: after) _ _).mp h).2
  rw [Chained, Nat.zero_add] at hrest
  exact hrest.1

/-- The mark of a chain is no further than its end, and not at its start. -/
theorem mark_within {w : World} (hlinked : w.Linked) (hhonest : w.disk.Honest) {m : HighWaterMark}
    (hm : w.disk.mark = some m) : 1 ≤ m.sequence.toNat ∧
      m.sequence.toNat ≤ w.disk.journal.length ∧
      (m.sequence.toNat = w.disk.journal.length →
        m.hash = chainEnd stateGenesisHash w.disk.journal) := by
  rcases hlinked.mark m hm with ⟨before, e, after, hjournal, rfl⟩
  have hsequence := sequence_of_chained (hjournal ▸ hlinked.chain)
  have hlength := hhonest.length
  rw [hjournal, length_append, length_cons] at hlength ⊢
  have hplace : e.sequence.toNat = before.length + 1 := by
    rw [hsequence, UInt64.toNat_ofNat']
    exact Nat.mod_eq_of_lt (by omega)
  refine ⟨by rw [hplace]; omega, by rw [hplace]; omega, fun hend => ?_⟩
  -- a mark at the end is the last event's
  rw [hplace] at hend
  have hlast : after = [] := length_eq_zero_iff.mp (by omega)
  rw [hlast, chainEnd_append]

/-- An honest journal is verified, and the report is what it holds. -/
theorem verifyState_honest {w : World} {f : Files} (hstored : Stored w.disk f)
    (hlinked : w.Linked) (hkept : w.Kept) (hhonest : w.disk.Honest) :
    ∃ summary, verifyState StateEvent.decodeLine f true = .ok summary ∧
      readJournal StateEvent.decodeLine f.journal = .ok w.disk.journal ∧
      summary.reservations.toNat = w.disk.journal.length ∧
      summary.headSequence.toNat = w.disk.journal.length ∧
      summary.headHash = chainEnd stateGenesisHash w.disk.journal ∧
      summary.headEpoch.toNat = highestEpoch w.disk.journal := by
  rcases hkept.replays with ⟨s, hreplay⟩
  have hread : readJournal StateEvent.decodeLine f.journal = .ok w.disk.journal := by
    rw [readJournal_ends w.disk _ hstored.stands hstored.encoded (Or.inl hhonest.tail),
      readState_kept w.disk hlinked.chain hkept.fits hhonest.tail]
  rcases replay_position w.disk.journal {} s 0 rfl hlinked.chain hreplay with
    ⟨hsequence, hlast, -, -⟩
  have hcount : (UInt64.ofNat w.disk.journal.length).toNat = w.disk.journal.length := by
    rw [UInt64.toNat_ofNat']
    exact Nat.mod_eq_of_lt hhonest.length
  rw [Nat.zero_add] at hsequence
  refine ⟨⟨UInt64.ofNat w.disk.journal.length, s.sequence, s.lastHash, s.maxEpoch⟩, ?_, hread,
    hcount, by rw [hsequence]; exact hcount, hlast, replay_maxEpoch _ hreplay⟩
  simp only [verifyState, hread, hreplay, ← hstored.mark, not_true_eq_false, if_false]
  have habsent : ¬ (2 ≤ w.disk.journal.length ∧ ¬ w.disk.mark.isSome = true) :=
    fun h => h.2 (hhonest.marked h.1)
  rw [if_neg habsent]
  cases hmark : w.disk.mark with
  | none =>
    rw [if_neg (fun h => by cases h.2.1), if_neg (fun h => ?_), if_neg (fun h => h.2.1 rfl)]
    exact absurd (UInt64.lt_iff_toNat_lt.mp h) (Nat.not_lt_zero _)
  | some m =>
    rcases mark_within hlinked hhonest hmark with ⟨hpos, hle, hend⟩
    rw [← hcount, ← hsequence] at hle hend
    have hgenesis : ¬ (1 ≤ w.disk.journal.length ∧ (some m).isSome = true ∧ m.sequence = 0) := by
      rintro ⟨-, -, hzero⟩
      rw [hzero] at hpos
      cases hpos
    have htruncated : ¬ s.sequence < m.sequence := by
      rw [UInt64.lt_iff_toNat_lt]
      omega
    have hrewritten : ¬ (s.sequence = m.sequence ∧ m.hash ≠ stateGenesisHash ∧
        s.lastHash ≠ m.hash) := by
      rintro ⟨hsame, -, hdiffer⟩
      exact hdiffer (hlast.trans (hend (by rw [hsame])).symm)
    simp only [Option.getD_some, if_neg hgenesis, if_neg htruncated, if_neg hrewritten]

/-! ### Orderly calls -/

/-- The process dies with the whole line in the journal and the mark not yet
    replaced. -/
def FileFault.beforeMark (length : Nat) : FileFault → Bool
  | .diesWriting n => length < n
  | _ => false

/-- A call that leaves the write order as it is: no effect of it fails, and the
    process dies at most behind a whole line or behind the mark. -/
def FileFault.inOrder (length : Nat) (fault : FileFault) : Bool :=
  fault = .canceled || fault = .canceledLocked || fault = .diesMarked || fault.beforeMark length

/-- What a reservation that comes to its commit is asked for: its line comes
    back, the journal can still be counted, and a death before the mark finds
    the journal empty or a mark from before. -/
def FileWorld.orderly (w : FileWorld) : FileOp → Prop
  | .reserve r fault =>
    let length := ((w.handle.getD {}).nextEvent r).bytes.length
    fault.all (FileFault.inOrder length) = true ∧
    (w.takes r = true → r.plain = true ∧ length + 1 ≤ maxLine ∧ w.written.length + 1 < 2 ^ 64 ∧
      (fault.any (FileFault.beforeMark length) = true →
        w.written = [] ∨ w.files.mark.isSome = true))
  | _ => True

instance (w : FileWorld) : ∀ op, Decidable (w.orderly op)
  | .reserve r fault => inferInstanceAs (Decidable (
      fault.all (FileFault.inOrder ((w.handle.getD {}).nextEvent r).bytes.length) = true ∧
      (w.takes r = true → r.plain = true ∧
        ((w.handle.getD {}).nextEvent r).bytes.length + 1 ≤ maxLine ∧
        w.written.length + 1 < 2 ^ 64 ∧
        (fault.any (FileFault.beforeMark ((w.handle.getD {}).nextEvent r).bytes.length) = true →
          w.written = [] ∨ w.files.mark.isSome = true))))
  | .openState _ => isTrue trivial
  | .close => isTrue trivial
  | .kill => isTrue trivial

/-- An orderly call is a sound one. -/
theorem sound_of_orderly {b : FileWorld} {op : FileOp} (h : b.orderly op) : b.sound op := by
  cases op with
  | openState fault => trivial
  | close => trivial
  | kill => trivial
  | reserve r fault =>
    rcases h with ⟨horder, htaken⟩
    intro htakes
    rcases htaken htakes with ⟨hplain, hshort, -, -⟩
    refine ⟨hplain, hshort, ?_, ?_⟩
    · rintro rfl
      simp [FileFault.inOrder, FileFault.beforeMark] at horder
    · rintro rfl
      simp [FileFault.inOrder, FileFault.beforeMark] at horder

/-- The same of a call as the disk sees it: an append that is left without a
    mark is whole, and finds the journal empty or a mark from before. -/
def World.Orderly (w : World) (op : Op) : Prop :=
  ∀ r fault s, op = .reserve r fault → w.handle = some s → validateReservation r = .ok () →
    s.closed = false → s.failed = false → s.refuses r = none →
    w.disk.journal.length + 1 < 2 ^ 64 ∧ fault ≠ some .sync ∧ fault ≠ some .mark ∧
      (∀ written, fault ≠ some (.write written)) ∧
      ∀ written, fault = some (.diesWriting written) →
        written = .all ∧ (w.disk.journal = [] ∨ w.disk.mark.isSome = true)

theorem cutAt_of_lt {length n : Nat} (h : length < n) : cutAt length n = .all := by
  rw [cutAt, if_neg (by omega), if_neg (by omega), if_neg (by omega)]

theorem orderly_over {w : World} {b : FileWorld} {op : FileOp} (h : Follows w b)
    (horderly : b.orderly op) : w.Orderly (op.over b) := by
  intro r fault s hop hs hvalid hclosed hfailed hrefuse
  cases op with
  | openState f => cases hop
  | close => cases hop
  | kill => cases hop
  | reserve r' fault' =>
    have hhandle : b.handle = some s := h.handle ▸ hs
    simp only [FileOp.over, hhandle, Option.getD_some, Op.reserve.injEq] at hop
    rcases hop with ⟨rfl, rfl⟩
    have htakes : b.takes r' = true := by
      simp only [FileWorld.takes, hhandle, hvalid, hclosed, hfailed, hrefuse]
      rfl
    simp only [FileWorld.orderly, hhandle, Option.getD_some] at horderly
    rcases horderly with ⟨horder, htaken⟩
    rcases htaken htakes with ⟨-, -, hcount, hbefore⟩
    rw [← h.written, ← h.stored.mark] at hbefore
    rw [← h.written] at hcount
    refine ⟨hcount, ?_⟩
    cases fault' with
    | none => simp
    | some f =>
      cases f with
      | diesWriting n =>
        have hlt : (s.nextEvent r').bytes.length < n := by
          simpa [FileFault.inOrder, FileFault.beforeMark] using horder
        refine ⟨by simp [FileFault.over], by simp [FileFault.over], by simp [FileFault.over], ?_⟩
        intro written hwritten
        rw [Option.map_some, FileFault.over, Option.some.injEq, Fault.diesWriting.injEq,
          cutAt_of_lt hlt] at hwritten
        exact ⟨hwritten.symm, hbefore (by simpa [FileFault.beforeMark] using hlt)⟩
      | canceled => simp [FileFault.over]
      | canceledLocked => simp [FileFault.over]
      | diesMarked => simp [FileFault.over]
      | write n => simp [FileFault.inOrder, FileFault.beforeMark] at horder
      | sync => simp [FileFault.inOrder, FileFault.beforeMark] at horder
      | mark => simp [FileFault.inOrder, FileFault.beforeMark] at horder

/-- One whole event more, with the mark there was or one that is set. -/
theorem honest_append {d : Disk} (e : StateEvent) (hhonest : d.Honest)
    (hcount : d.journal.length + 1 < 2 ^ 64) (mark : Option HighWaterMark)
    (hmark : 1 ≤ d.journal.length → mark.isSome = true) :
    Disk.Honest { d.append e .all with mark := mark } := by
  refine ⟨if_pos hhonest.tail, ?_, ?_⟩
  · change (d.journal ++ [e]).length < 2 ^ 64
    rw [length_append, length_singleton]
    exact hcount
  · change 2 ≤ (d.journal ++ [e]).length → _
    rw [length_append, length_singleton]
    intro h
    exact hmark (by omega)

/-- An orderly call keeps a journal honest. -/
theorem step_honest {w : World} {op : Op} (hhonest : w.disk.Honest) (horderly : w.Orderly op) :
    (w.step op).1.disk.Honest := by
  rcases step_cases w op with ⟨hdisk, _⟩ | ⟨s, r, fault, hop, hs, hvalid, hclosed, hfailed,
    hrefuse, _, hforms⟩
  · rw [hdisk]
    exact hhonest
  rcases horderly r fault s hop hs hvalid hclosed hfailed hrefuse with
    ⟨hcount, hsync, hmark, hwrite, hdies⟩
  rcases hforms with ⟨written, handle, hstep, _, hfault⟩ | ⟨s₁, handle, _, hstep, _⟩
  · -- the line is in the journal and the mark is the one from before
    have hdied : fault = some (.diesWriting written) := by
      rcases hfault with ⟨-, hc | hc⟩ | hc | hc
      · exact absurd hc hsync
      · exact absurd hc hmark
      · exact absurd hc (hwrite written)
      · exact hc
    rcases hdies written hdied with ⟨rfl, hbefore⟩
    rw [hstep]
    refine honest_append (s.nextEvent r) hhonest hcount w.disk.mark (fun hlen => ?_)
    rcases hbefore with hempty | hsome
    · rw [hempty] at hlen
      cases hlen
    · exact hsome
  · rw [hstep]
    exact honest_append (s.nextEvent r) hhonest hcount _ (fun _ => rfl)

/-! ### Runs -/

/-- After every orderly run that made the journal, `VerifyState` succeeds: it
    reads exactly the events that were committed, counts them, and reports the
    last and the highest epoch among them. -/
theorem verifyState_accepts_orderly (ops : List FileOp)
    (horderly : Throughout FileWorld.orderly (fun w op => (w.step op).1) {} ops)
    (hcreated : FileWorld.created {} ops = true) :
    ∃ summary, verifyState StateEvent.decodeLine (FileWorld.run {} ops).files
        (FileWorld.created {} ops) = .ok summary ∧
      readJournal StateEvent.decodeLine (FileWorld.run {} ops).files.journal =
        .ok (FileWorld.run {} ops).written ∧
      summary.reservations.toNat = (FileWorld.run {} ops).written.length ∧
      summary.headSequence.toNat = (FileWorld.run {} ops).written.length ∧
      summary.headHash = chainEnd stateGenesisHash (FileWorld.run {} ops).written ∧
      summary.headEpoch.toNat = highestEpoch (FileWorld.run {} ops).written := by
  have hkeeps : (FileWorld.run {} ops).Keeps (fun w => w.disk.Honest) := by
    refine Throughout.invariant (P := fun b => b.Keeps (fun w => w.disk.Honest)) ?_
      (keeps_init _ honest_init) horderly
    intro b op hb hop
    exact keeps_step b op _ _ hb (sound_of_orderly hop)
      (fun w hfollows _ _ hhonest => step_honest hhonest (orderly_over hfollows hop))
  rcases hkeeps with ⟨w, hfollows, hlinked, hkept, hhonest⟩
  rw [hcreated, ← hfollows.written]
  exact verifyState_honest hfollows.stored hlinked hkept hhonest

/-- A death in the first window: one event, and no mark. -/
theorem verifyState_accepts_orderly_dead :
    ∃ summary, verifyState StateEvent.decodeLine (FileWorld.run {} deadRun).files
        (FileWorld.created {} deadRun) = .ok summary ∧ summary.reservations.toNat = 1 := by
  have heval : Throughout FileWorld.orderly (fun w op => (w.step op).1) {} deadRun ∧
      FileWorld.created {} deadRun = true ∧ (FileWorld.run {} deadRun).written.length = 1 := by
    decide +kernel
  rcases heval with ⟨horderly, hcreated, hlength⟩
  rcases verifyState_accepts_orderly _ horderly hcreated with ⟨summary, hok, -, hcount, -⟩
  exact ⟨summary, hok, hcount.trans hlength⟩

/-- Another death in the same place. -/
def deadAgain : List FileOp :=
  [.openState none, .reserve (exampleReservation "nonce-bbbbbbbbbb" 1) (some (.diesWriting 1000))]

/-- Two processes die, each with its line in the journal and before its mark.
    Both lines come back, and the operator is told that the tail and the mark
    were deleted. -/
theorem second_death_accused :
    (FileWorld.run {} (deadRun ++ deadAgain)).written.map StateEvent.reservation =
      [exampleReservation "nonce-aaaaaaaaaa" 60, exampleReservation "nonce-bbbbbbbbbb" 1] ∧
    verifyState StateEvent.decodeLine (FileWorld.run {} (deadRun ++ deadAgain)).files
        (FileWorld.created {} (deadRun ++ deadAgain)) =
      .error (.other ("policy state journal has 2 reservations but no high-water mark recording " ++
        "a prior position — the write order makes that impossible beyond the first " ++
        "reservation's crash window, so the tail and the mark were deleted together")) := by
  decide +kernel

end Regalia.Policy
