import Regalia.Theory.Policy.Chained
import Regalia.Theory.Policy.ReadBack

/-!
# Opening Again What Was Written

When a journal that this code has written opens again. A line comes back as
the event it was printed from if JSON has room for the reservation and the
scanner's buffer has room for the line; neither is asked by `Reserve`, which
commits what `OpenFileState` will refuse. And a line cut right before its
newline is taken for a whole one, so that the next event lands behind it on
the same line.

A run that meets neither keeps a journal that replays to the handle. Such a
journal is refused only while it ends in a fragment, and a journal that is
not refused stays so.

## Main definitions

* `FileWorld.sound`: What a call is asked for.
* `World.Kept`: What a sound call preserves.
* `Disk.Ready`: A journal that opens.

## Theorems

* `readEvents_plain`: Lines that fit come back as their events.
* `step_kept`: A sound call keeps a journal that replays to the handle.
* `step_ready`: A call that runs to its end keeps a journal that opens.
* `reopen_rebuilds`: Closing and opening again gives the same handle.
* `reopened_keeps`: What opens once goes on to open, with what was committed
  before and since.
-/

namespace Regalia.Policy

open List Option

/-! ### Lines that fit -/

/-- An event that comes back from its line. -/
structure StateEvent.Fits (e : StateEvent) : Prop where
  encoded : e.encode.isSome = true
  plain : e.reservation.plain = true
  short : e.bytes.length + 1 ≤ maxLine
  valid : validateReservation e.reservation = .ok ()

/-- The line of an event with hashes in it gives it back. -/
theorem decode_fits (e : StateEvent) (h : e.Fits) (hprevious : e.previousHash.validUTF8 = true)
    (hhash : e.hash = stateEventHash e) : StateEvent.decode (e.encode.getD []) = .ok e := by
  rcases isSome_iff_exists.mp h.encoded with ⟨text, htext⟩
  rw [htext]
  exact decode_plain e text h.plain hprevious (hhash ▸ validUTF8_stateEventHash e) htext

/-- The lines of a chain that fit come back as their events. -/
theorem readEvents_plain (journal : List StateEvent) :
    ∀ (previous : GoString) (count : Nat), previous.validUTF8 = true →
    Chained previous count journal → (∀ e ∈ journal, e.Fits) →
    readEvents previous count journal = .ok journal := by
  induction journal with
  | nil => exact fun _ _ _ _ _ => rfl
  | cons e rest ih =>
    rintro previous count hvalid ⟨hsequence, hprevious, hhash, hchain⟩ hfits
    have he := hfits e mem_cons_self
    have hutf8 : e.hash.validUTF8 = true := hhash ▸ validUTF8_stateEventHash e
    have hrest := ih e.hash (count + 1) hutf8 hchain (fun x hx => hfits x (mem_cons_of_mem _ hx))
    have hcheck : ¬ (e.sequence ≠ UInt64.ofNat (count + 1) ∨ e.previousHash ≠ previous ∨
        e.hash ≠ stateEventHash e) := by
      rintro (h | h | h)
      · exact h hsequence
      · exact h hprevious
      · exact h hhash
    simp only [readEvents, decode_fits e he (hprevious ▸ hvalid) hhash, he.valid, hrest,
      if_neg (Nat.not_lt.mpr he.short), if_neg hcheck]

/-- The previous hash of an event in a chain is a hash. -/
theorem chained_previous (journal : List StateEvent) :
    ∀ (previous : GoString) (count : Nat), previous.validUTF8 = true →
    Chained previous count journal → ∀ e ∈ journal, e.previousHash.validUTF8 = true := by
  induction journal with
  | nil => exact fun _ _ _ _ _ => nofun
  | cons x rest ih =>
    rintro previous count hvalid ⟨_, hprevious, hhash, hchain⟩ e he
    rcases mem_cons.mp he with rfl | he
    · rw [hprevious]
      exact hvalid
    · exact ih x.hash _ (hhash ▸ validUTF8_stateEventHash x) hchain e he

theorem validUTF8_stateGenesisHash : stateGenesisHash.validUTF8 = true := by decide +kernel

/-! ### Replaying -/

theorem replay_append (l m : List StateEvent) : ∀ s : FileState,
    replay s (l ++ m) = (replay s l).bind (fun s' => replay s' m) := by
  induction l with
  | nil => exact fun _ => rfl
  | cons e rest ih =>
    intro s
    rw [cons_append, replay, replay]
    split
    · rfl
    · exact ih _

/-- An event more. -/
theorem replay_nextEvent (s s₁ : FileState) (journal : List StateEvent) (r : Reservation)
    (h : replay {} journal = some s) (happly : s.apply r = (s₁, none)) :
    replay {} (journal ++ [s.nextEvent r]) =
      some { s₁ with sequence := (s.nextEvent r).sequence, lastHash := (s.nextEvent r).hash } := by
  have hreservation : (s.nextEvent r).reservation = r := rfl
  rw [replay_append, h, bind_some, replay, hreservation, happly]
  rfl

/-! ### What a call is asked for -/

/-- The reservation comes to its commit. -/
def FileWorld.takes (w : FileWorld) (r : Reservation) : Bool :=
  match w.handle with
  | none => false
  | some s => (validateReservation r).isOk && !s.closed && !s.failed && (s.refuses r).isNone

/-- A reservation that comes to its commit has a line that comes back, and its
    append is not cut between the text and the newline. -/
def FileWorld.sound (w : FileWorld) : FileOp → Prop
  | .reserve r fault =>
    w.takes r = true →
      r.plain = true ∧ ((w.handle.getD {}).nextEvent r).bytes.length + 1 ≤ maxLine ∧
      fault ≠ some (.write ((w.handle.getD {}).nextEvent r).bytes.length) ∧
      fault ≠ some (.diesWriting ((w.handle.getD {}).nextEvent r).bytes.length)
  | _ => True

instance (w : FileWorld) : ∀ op, Decidable (w.sound op)
  | .reserve r fault => inferInstanceAs (Decidable (w.takes r = true →
      r.plain = true ∧ ((w.handle.getD {}).nextEvent r).bytes.length + 1 ≤ maxLine ∧
      fault ≠ some (.write ((w.handle.getD {}).nextEvent r).bytes.length) ∧
      fault ≠ some (.diesWriting ((w.handle.getD {}).nextEvent r).bytes.length)))
  | .openState _ => isTrue trivial
  | .close => isTrue trivial
  | .kill => isTrue trivial

/-- The same of a call as the disk sees it. -/
def World.Sound (w : World) (op : Op) : Prop :=
  ∀ r fault s, op = .reserve r fault → w.handle = some s →
    validateReservation r = .ok () → s.closed = false → s.failed = false → s.refuses r = none →
    r.plain = true ∧ (s.nextEvent r).bytes.length + 1 ≤ maxLine ∧
      fault ≠ some (.write .allButNewline) ∧ fault ≠ some (.diesWriting .allButNewline)

theorem cutAt_allButNewline (length n : Nat) (h : cutAt length n = .allButNewline) :
    n = length := by
  unfold cutAt at h
  split_ifs at h with _ _ heq
  exact heq

/-- The cut before the newline is one number of bytes. -/
theorem over_allButNewline (length : Nat) (fault : FileFault) :
    (fault.over length = .write .allButNewline → fault = .write length) ∧
      (fault.over length = .diesWriting .allButNewline → fault = .diesWriting length) := by
  constructor
  · intro h
    cases fault with
    | write n => rw [cutAt_allButNewline length n (Fault.write.inj h)]
    | _ => simp only [FileFault.over, reduceCtorEq] at h
  · intro h
    cases fault with
    | diesWriting n => rw [cutAt_allButNewline length n (Fault.diesWriting.inj h)]
    | _ => simp only [FileFault.over, reduceCtorEq] at h

variable (w : World) (b : FileWorld) (op : FileOp)

theorem sound_over (h : Follows w b) (hsound : b.sound op) : w.Sound (op.over b) := by
  intro r fault s hop hs hvalid hclosed hfailed hrefuse
  cases op with
  | openState f => cases hop
  | close => cases hop
  | kill => cases hop
  | reserve r' fault' =>
    have hhandle : b.handle = some s := h.handle ▸ hs
    simp only [FileOp.over, hhandle, getD_some, Op.reserve.injEq] at hop
    rcases hop with ⟨rfl, rfl⟩
    have htakes : b.takes r' = true := by
      simp only [FileWorld.takes, hhandle, hvalid, hclosed, hfailed, hrefuse]
      rfl
    simp only [FileWorld.sound, hhandle, getD_some] at hsound
    rcases hsound htakes with ⟨hplain, hshort, hwrite, hdies⟩
    refine ⟨hplain, hshort, ?_, ?_⟩
    · intro hc
      rcases map_eq_some_iff.mp hc with ⟨f, rfl, hf⟩
      exact hwrite (congrArg some ((over_allButNewline _ f).1 hf))
    · intro hc
      rcases map_eq_some_iff.mp hc with ⟨f, rfl, hf⟩
      exact hdies (congrArg some ((over_allButNewline _ f).2 hf))

/-! ### What a sound call preserves -/

/-- The journal's lines come back, and replay to the handle that still
    appends to it. -/
structure World.Kept (w : World) : Prop where
  fits : ∀ e ∈ w.disk.journal, e.Fits
  tail : w.disk.tail = .whole ∨ w.disk.tail = .fragment
  replays : ∃ s, replay {} w.disk.journal = some s
  handle : ∀ s, w.handle = some s → s.closed = false → s.failed = false →
    w.disk.tail = .whole ∧ replay {} w.disk.journal = some s

theorem kept_init : World.Kept {} := ⟨nofun, .inl rfl, ⟨{}, rfl⟩, nofun⟩

/-- A journal of lines that fit is read as it is, unless it ends in a
    fragment. -/
theorem readState_kept (d : Disk) (hchain : Chained stateGenesisHash 0 d.journal)
    (hfits : ∀ e ∈ d.journal, e.Fits) (htail : d.tail = .whole) : readState d = .ok d.journal := by
  have hread := readEvents_plain d.journal _ 0 validUTF8_stateGenesisHash hchain hfits
  simp only [readState, hread, htail]

/-- A handle opened on such a journal is what the journal replays to. -/
theorem replay_of_open (d : Disk) (fault : Option OpenFault) (s : FileState)
    (hchain : Chained stateGenesisHash 0 d.journal) (hfits : ∀ e ∈ d.journal, e.Fits)
    (htail : d.tail = .whole ∨ d.tail = .fragment) (h : openFileState d fault = .ok s) :
    d.tail = .whole ∧ replay {} d.journal = some s := by
  rcases openFileState_ok d fault s h with ⟨events, hread, hreplay, _⟩
  have hwhole : d.tail = .whole :=
    htail.resolve_right (tail_of_readState d events hread)
  rw [readState_kept d hchain hfits hwhole] at hread
  cases hread
  exact ⟨hwhole, hreplay⟩

/-- The journal after a write of a fitting event that was not cut before the
    newline. -/
theorem kept_append (s s₁ : FileState) (r : Reservation) (written : Written)
    (handle : Option FileState) (hkept : w.Kept) (hs : w.handle = some s)
    (hclosed : s.closed = false) (hfailed : s.failed = false) (happly : s.apply r = (s₁, none))
    (hfits : (s.nextEvent r).Fits) (hwritten : written ≠ .allButNewline)
    (hhandle : ∀ s', handle = some s' → s'.failed = true) :
    World.Kept ⟨w.disk.append (s.nextEvent r) written, handle⟩ := by
  rcases hkept.handle s hs hclosed hfailed with ⟨htail, hreplay⟩
  have hdead : ∀ s', handle = some s' → s'.closed = false → s'.failed = false →
      (w.disk.append (s.nextEvent r) written).tail = .whole ∧
        replay {} (w.disk.append (s.nextEvent r) written).journal = some s' :=
    fun s' hs' _ hf => absurd (hhandle s' hs') (by simp [hf])
  cases written with
  | nothing => exact ⟨hkept.fits, hkept.tail, hkept.replays, hdead⟩
  | part => exact ⟨hkept.fits, .inr (if_pos htail), hkept.replays, hdead⟩
  | allButNewline => exact absurd rfl hwritten
  | all =>
    exact ⟨forall_mem_snoc hkept.fits hfits, .inl (if_pos htail), ⟨_, replay_nextEvent s s₁ _ r hreplay happly⟩, hdead⟩

/-- Every sound call keeps it. -/
theorem step_kept (op : Op) (hlinked : w.Linked) (hkept : w.Kept)
    (hsound : w.Sound op) : (w.step op).1.Kept := by
  rcases step_cases w op with ⟨hdisk, hhandle⟩ | ⟨s, r, fault, hop, hs, hvalid, hclosed, hfailed,
    hrefuse, henc, hforms⟩
  · refine ⟨hdisk ▸ hkept.fits, hdisk ▸ hkept.tail, hdisk ▸ hkept.replays, ?_⟩
    rw [hdisk]
    intro s' hs' hopen hgood
    rcases hhandle s' hs' with ⟨s, hs, rfl | rfl⟩ | ⟨fault, hnew⟩
    · exact hkept.handle _ hs hopen hgood
    · cases hopen
    · exact replay_of_open w.disk fault s' hlinked.chain hkept.fits hkept.tail hnew
  rcases hsound r fault s hop hs hvalid hclosed hfailed hrefuse with
    ⟨hplain, hshort, hwrite, hdies⟩
  have hfits : (s.nextEvent r).Fits := ⟨henc, hplain, hshort, hvalid⟩
  rcases hforms with ⟨written, handle, hstep, hdead, hfault⟩ | ⟨s₁, handle, happly, hstep, hend⟩
  · have hwritten : written ≠ .allButNewline := by
      rintro rfl
      rcases hfault with ⟨hc, _⟩ | hc | hc
      · cases hc
      · exact hwrite hc
      · exact hdies hc
    rcases apply_succeeds s r hrefuse with ⟨s₁, happly⟩
    rw [hstep]
    exact kept_append w s s₁ r written handle hkept hs hclosed hfailed happly hfits hwritten hdead
  · rcases hkept.handle s hs hclosed hfailed with ⟨htail, hreplay⟩
    have hall := kept_append w s s₁ r .all none hkept hs hclosed hfailed happly hfits nofun nofun
    rw [hstep]
    refine ⟨hall.fits, hall.tail, hall.replays, ?_⟩
    intro s' hs' _ _
    rcases hend with ⟨rfl, _⟩ | ⟨rfl, _⟩
    · cases hs'
    · cases hs'
      exact ⟨if_pos htail, replay_nextEvent s s₁ _ r hreplay happly⟩

/-! ### Calls that run to their end -/

/-- A `Reserve` that is at most canceled: no effect of it fails and none is
    cut. -/
def FileOp.calm : FileOp → Bool
  | .reserve _ none => true
  | .reserve _ (some .canceled) => true
  | .reserve _ (some .canceledLocked) => true
  | .reserve _ (some _) => false
  | _ => true

/-- The same of a fault as the disk sees it. -/
def CalmFault (fault : Option Fault) : Prop :=
  fault = none ∨ fault = some .canceled ∨ fault = some .canceledLocked

theorem calm_over (r : Reservation) (fault : Option FileFault) (length : Nat)
    (h : FileOp.calm (.reserve r fault) = true) :
    CalmFault (fault.map (FileFault.over length)) := by
  cases fault with
  | none => exact .inl rfl
  | some fault =>
    cases fault with
    | canceled => exact .inr (.inl rfl)
    | canceledLocked => exact .inr (.inr rfl)
    | _ => cases h

/-- A journal that opens: its last line is whole, and the mark is not ahead of
    it or at its end with another hash. -/
structure Disk.Ready (d : Disk) : Prop where
  tail : d.tail = .whole
  mark : ∀ s, replay {} d.journal = some s → ¬ s.sequence < (readHighWater d).sequence ∧
    ¬ (s.sequence = (readHighWater d).sequence ∧ (readHighWater d).hash ≠ stateGenesisHash ∧
      s.lastHash ≠ (readHighWater d).hash)

theorem ready_init : Disk.Ready {} := by
  refine ⟨rfl, ?_⟩
  intro s hs
  cases hs
  exact ⟨by decide, fun h => h.2.1 rfl⟩

theorem ready_of_open (s : FileState) (hlinked : w.Linked) (hkept : w.Kept)
    (h : openFileState w.disk none = .ok s) : w.disk.Ready := by
  rcases openFileState_ok w.disk none s h with ⟨_, _, _, hlength, hlast⟩
  rcases replay_of_open w.disk none s hlinked.chain hkept.fits hkept.tail h with ⟨htail, hreplay⟩
  refine ⟨htail, ?_⟩
  intro s' hs'
  rw [hreplay] at hs'
  cases hs'
  exact ⟨hlength, hlast⟩

/-- It opens as what it replays to. -/
theorem open_of_ready (s : FileState) (hlinked : w.Linked) (hkept : w.Kept)
    (hready : w.disk.Ready) (hreplay : replay {} w.disk.journal = some s) :
    openFileState w.disk none = .ok s := by
  have hread := readState_kept w.disk hlinked.chain hkept.fits hready.tail
  rcases hready.mark s hreplay with ⟨hlength, hlast⟩
  simp only [openFileState, hread, hreplay, if_neg hlength, if_neg hlast, reduceCtorEq, if_false]

/-- A committed event is the one its mark names. -/
theorem ready_commit (s s₁ : FileState) (r : Reservation) (hkept : w.Kept)
    (hs : w.handle = some s) (hclosed : s.closed = false) (hfailed : s.failed = false)
    (happly : s.apply r = (s₁, none)) :
    Disk.Ready { w.disk.append (s.nextEvent r) .all with
      mark := some ⟨(s.nextEvent r).sequence, (s.nextEvent r).hash⟩ } := by
  rcases hkept.handle s hs hclosed hfailed with ⟨htail, hreplay⟩
  refine ⟨if_pos htail, ?_⟩
  intro s' hs'
  have hnext := replay_nextEvent s s₁ _ r hreplay happly
  change replay {} (w.disk.journal ++ [s.nextEvent r]) = some s' at hs'
  rw [hnext] at hs'
  cases hs'
  exact ⟨UInt64.lt_irrefl _, fun h => h.2.2 rfl⟩

/-- What a call that runs to its end did. The disk is the same; or a
    reservation was committed. -/
theorem step_calm (op : Op) (hcalm : ∀ r fault, op = .reserve r fault → CalmFault fault) :
    ((w.step op).1.disk = w.disk ∧
      ∀ s', (w.step op).1.handle = some s' → (∃ s, w.handle = some s ∧ s.failed = s'.failed) ∨
        ∃ fault, openFileState w.disk fault = .ok s') ∨
    ∃ s s₁ r fault, op = .reserve r fault ∧ w.handle = some s ∧ s.closed = false ∧
      s.failed = false ∧ s.apply r = (s₁, none) ∧ w.step op =
        (⟨{ w.disk.append (s.nextEvent r) .all with
            mark := some ⟨(s.nextEvent r).sequence, (s.nextEvent r).hash⟩ },
          some { s₁ with sequence := (s.nextEvent r).sequence, lastHash := (s.nextEvent r).hash }⟩,
          .returns none) := by
  rcases step_cases w op with ⟨hdisk, hhandle⟩ | ⟨s, r, fault, hop, hs, _, hclosed, hfailed, _, _,
    hforms⟩
  · refine .inl ⟨hdisk, fun s' hs' => (hhandle s' hs').imp_left ?_⟩
    rintro ⟨s, hs, rfl | rfl⟩
    · exact ⟨_, hs, rfl⟩
    · exact ⟨s, hs, rfl⟩
  · -- no other fault than a cancellation, so the commit came to its end
    rcases hforms with ⟨written, _, _, _, hfault⟩ | ⟨s₁, handle, happly, hstep, hend⟩
    · rcases hcalm r fault hop with rfl | rfl | rfl <;> simp at hfault
    · rcases hend with ⟨_, hfault⟩ | ⟨rfl, hreturns⟩
      · rcases hcalm r fault hop with rfl | rfl | rfl <;> cases hfault
      · exact .inr ⟨s, s₁, r, fault, hop, hs, hclosed, hfailed, happly, Prod.ext hstep hreturns⟩

/-- A call that runs to its end keeps a journal that opens. -/
theorem step_ready (op : Op) (hkept : w.Kept) (hready : w.disk.Ready)
    (hcalm : ∀ r fault, op = .reserve r fault → CalmFault fault) : (w.step op).1.disk.Ready := by
  rcases step_calm w op hcalm with
    ⟨hdisk, _⟩ | ⟨s, s₁, r, fault, _, hs, hclosed, hfailed, happly, heq⟩
  · rw [hdisk]
    exact hready
  · rw [heq]
    exact ready_commit w s s₁ r hkept hs hclosed hfailed happly

/-- And a handle that has not failed. -/
theorem step_unfailed (op : Op) (hlinked : w.Linked)
    (hencoded : ∀ e ∈ w.disk.journal, e.encode.isSome = true)
    (hunfailed : ∀ s, w.handle = some s → s.failed = false)
    (hcalm : ∀ r fault, op = .reserve r fault → CalmFault fault) :
    ∀ s, (w.step op).1.handle = some s → s.failed = false := by
  intro s' hs'
  rcases step_calm w op hcalm with
    ⟨_, hhandle⟩ | ⟨s, s₁, r, fault, _, hs, _, hfailed, happly, heq⟩
  · rcases hhandle s' hs' with ⟨s, hs, hsame⟩ | ⟨fault, hopen⟩
    · rw [← hsame]
      exact hunfailed s hs
    · exact (openFileState_position w.disk fault s' hlinked.chain hopen hencoded).2.2.2
  · rw [heq] at hs'
    rcases apply_eq s s₁ r happly with ⟨_, _, rfl⟩
    rw [← Option.some.inj hs']
    exact hfailed

/-! ### What was answered -/

/-- The reservation of a call that returned without an error. -/
def FileWorld.answer (w : FileWorld) : FileOp → List Reservation
  | .reserve r fault =>
    if w.handle.isSome = true ∧ (w.step (.reserve r fault)).2 = .returns none then [r] else []
  | _ => []

/-- The reservations of a run that returned without an error. -/
def FileWorld.answered : FileWorld → List FileOp → List Reservation
  | _, [] => []
  | w, op :: rest => w.answer op ++ FileWorld.answered (w.step op).1 rest

/-- A call on the bytes returns what it returns on the disk. -/
theorem step_outcome (r : Reservation) (fault : Option FileFault) (h : Follows w b) :
    (b.step (.reserve r fault)).2 = (w.step (FileOp.over b (.reserve r fault))).2 := by
  rcases w with ⟨d, handle⟩
  rcases b with ⟨f, handle', written⟩
  rcases h with ⟨hstored, hhandle, hwritten, hunfailed⟩
  simp only at hstored hhandle hwritten hunfailed
  subst hhandle hwritten
  cases handle with
  | none => rfl
  | some s =>
    have halike := reserveFiles_alike s d f r fault hstored (hunfailed s rfl)
    simp only [World.step, FileWorld.step, FileOp.over, getD_some]
    generalize s.reserveFiles f r fault = onFile at halike
    generalize s.reserve d r _ = onDisk at halike
    rcases onFile with ⟨s', f', out⟩
    rcases onDisk with ⟨s'', d', out'⟩
    have hout : out = out' := halike.outcome
    subst hout
    cases out <;> rfl

/-- What a call adds to the record holds the reservation it answered for. -/
theorem step_answer (h : Follows w b) :
    ∃ added, (b.step op).1.written = b.written ++ added ∧
      (b.answer op).Sublist (added.map StateEvent.reservation) := by
  have hfollows := step_follows w b op h
  rcases step_journal w (op.over b) with ⟨added, hadded⟩
  refine ⟨added, ?_, ?_⟩
  · rw [← hfollows.written, ← h.written, hadded]
  cases op with
  | openState fault => exact nil_sublist _
  | close => exact nil_sublist _
  | kill => exact nil_sublist _
  | reserve r fault =>
    by_cases hanswer : b.handle.isSome = true ∧ (b.step (.reserve r fault)).2 = .returns none
    · have hout := step_outcome w b r fault h
      rw [hanswer.2] at hout
      have hcommitted := committed_of_reserved w r _ (h.handle ▸ hanswer.1) hout.symm
      change ((w.step (FileOp.over b (.reserve r fault))).1.disk.journal).map _ =
        w.disk.journal.map _ ++ [r] at hcommitted
      rw [hadded, map_append] at hcommitted
      rw [FileWorld.answer, if_pos hanswer, append_cancel_left hcommitted]
    · rw [FileWorld.answer, if_neg hanswer]
      exact nil_sublist _

/-- A calm call as the disk sees it. -/
theorem calm_of_over (hcalm : op.calm = true) :
    ∀ r fault, op.over b = .reserve r fault → CalmFault fault := by
  intro r fault hc
  cases op with
  | openState _ => cases hc
  | close => cases hc
  | kill => cases hc
  | reserve r₀ fault₀ =>
    rw [FileOp.over, Op.reserve.injEq] at hc
    rw [← hc.2]
    exact calm_over r₀ fault₀ _ hcalm

/-- A call that runs to its end adds that and nothing else. -/
theorem step_answer_calm (h : Follows w b) (hcalm : op.calm = true) :
    (b.step op).1.written.map StateEvent.reservation =
      b.written.map StateEvent.reservation ++ b.answer op := by
  have hfollows := step_follows w b op h
  rcases step_calm w (op.over b) (calm_of_over b op hcalm) with
    ⟨hdisk, _⟩ | ⟨s, s₁, r, fault, hreserve, hs, _, _, _, heq⟩
  · -- nothing was written, so nothing was answered
    rcases step_answer w b op h with ⟨added, hadded, hsub⟩
    have hsame : (b.step op).1.written = b.written := by
      rw [← hfollows.written, hdisk, h.written]
    rw [hsame] at hadded
    have hnil : added = [] := append_cancel_left (hadded.symm.trans (append_nil _).symm)
    rw [hnil] at hsub
    rw [hsame, sublist_nil.mp hsub, append_nil]
  · cases op with
    | openState _ => cases hreserve
    | close => cases hreserve
    | kill => cases hreserve
    | reserve r₀ fault₀ =>
      have hr : r₀ = r := (Op.reserve.inj hreserve).1
      have hanswer : b.handle.isSome = true ∧ (b.step (.reserve r₀ fault₀)).2 = .returns none := by
        refine ⟨by rw [← h.handle, hs]; rfl, ?_⟩
        rw [step_outcome w b r₀ fault₀ h, heq]
      rw [FileWorld.answer, if_pos hanswer, ← hfollows.written, ← h.written, heq, hr]
      exact map_append

/-! ### Runs -/

/-- Bytes that stand for a disk with a chain that comes back. -/
def FileWorld.Keeps (b : FileWorld) (more : World → Prop) : Prop :=
  ∃ w : World, Follows w b ∧ w.Linked ∧ w.Kept ∧ more w

theorem keeps_init (more : World → Prop) (h : more {}) : FileWorld.Keeps {} more :=
  ⟨{}, follows_init, linked_init, kept_init, h⟩

theorem keeps_step (P Q : World → Prop) (h : b.Keeps P) (hsound : b.sound op)
    (hmore : ∀ w : World, Follows w b → w.Linked → w.Kept → P w → Q (w.step (op.over b)).1) :
    (b.step op).1.Keeps Q := by
  rcases h with ⟨w, hfollows, hlinked, hkept, hw⟩
  exact ⟨(w.step (op.over b)).1, step_follows w b op hfollows,
    step_linked w _ hlinked hfollows.stored.encoded,
    step_kept w _ hlinked hkept (sound_over w b op hfollows hsound),
    hmore w hfollows hlinked hkept hw⟩

/-- A sound run keeps the chain and the record of what it answered. -/
theorem run_keeps (ops : List FileOp) : ∀ b : FileWorld, b.Keeps (fun _ => True) →
    Throughout FileWorld.sound (fun w op => (w.step op).1) b ops →
    (b.run ops).Keeps (fun _ => True) ∧ ∃ added, (b.run ops).written = b.written ++ added ∧
      (b.answered ops).Sublist (added.map StateEvent.reservation) := by
  induction ops with
  | nil =>
    intro b hkeeps _
    exact ⟨hkeeps, [], (append_nil _).symm, nil_sublist _⟩
  | cons op rest ih =>
    intro b hkeeps hsound
    have hstep := keeps_step b op _ (fun _ => True) hkeeps hsound.1 (fun _ _ _ _ _ => trivial)
    rcases ih (b.step op).1 hstep hsound.2 with ⟨hrest, added, hadded, hsub⟩
    rcases hkeeps with ⟨w, hfollows, _⟩
    rcases step_answer w b op hfollows with ⟨first, hfirst, hsub₀⟩
    refine ⟨hrest, first ++ added, ?_, ?_⟩
    · rw [← append_assoc, ← hfirst]
      exact hadded
    · rw [map_append]
      exact hsub₀.append hsub

/-- A sound run of calls that run to their end keeps a journal that opens, and
    adds to it what it answered. -/
theorem run_ready (ops : List FileOp) : ∀ b : FileWorld, b.Keeps (fun w => w.disk.Ready) →
    Throughout FileWorld.sound (fun w op => (w.step op).1) b ops →
    (∀ op ∈ ops, op.calm = true) →
    (b.run ops).Keeps (fun w => w.disk.Ready) ∧
      (b.run ops).written.map StateEvent.reservation =
        b.written.map StateEvent.reservation ++ b.answered ops := by
  induction ops with
  | nil =>
    intro b hkeeps _ _
    exact ⟨hkeeps, (append_nil _).symm⟩
  | cons op rest ih =>
    intro b hkeeps hsound hcalm
    have hop := hcalm op mem_cons_self
    have hstep := keeps_step b op _ (fun w => w.disk.Ready) hkeeps hsound.1
      (fun w _ _ hkept hready => step_ready w _ hkept hready (calm_of_over b op hop))
    rcases ih (b.step op).1 hstep hsound.2 (fun x hx => hcalm x (mem_cons_of_mem _ hx)) with
      ⟨hrest, hwritten⟩
    rcases hkeeps with ⟨w, hfollows, _⟩
    refine ⟨hrest, ?_⟩
    rw [FileWorld.answered, ← append_assoc, ← step_answer_calm w b op hfollows hop]
    exact hwritten

/-- Bytes that stand for a journal that opens, open. -/
theorem openFiles_of_ready (h : b.Keeps (fun w => w.disk.Ready)) :
    ∃ s, openFiles StateEvent.decodeLine b.files none = .ok s ∧
      readJournal StateEvent.decodeLine b.files.journal = .ok b.written ∧
      replay {} b.written = some s := by
  rcases h with ⟨w, hfollows, hlinked, hkept, hready⟩
  rcases hkept.replays with ⟨s, hreplay⟩
  have hstored := hfollows.stored
  refine ⟨s, ?_, ?_, ?_⟩
  · exact (openFiles_iff w.disk b.files none s hstored.stands hstored.mark hstored.encoded).mpr
      (open_of_ready w s hlinked hkept hready hreplay)
  · rw [readJournal_ends w.disk _ hstored.stands hstored.encoded (.inl hready.tail),
      readState_kept w.disk hlinked.chain hkept.fits hready.tail, hfollows.written]
  · rw [← hfollows.written]
    exact hreplay

/-- A sound run with cuts in it leaves a journal that opens: whatever is called
    from then on and runs to its end, the journal goes on to open, with what
    was in it and what was answered since. Every reservation that was answered
    before is in it. -/
theorem reopened_keeps (ops more : List FileOp)
    (hsound : Throughout FileWorld.sound (fun w op => (w.step op).1) {} (ops ++ more))
    (hcalm : ∀ op ∈ more, op.calm = true) (s : FileState)
    (hopen : openFiles StateEvent.decodeLine (FileWorld.run {} ops).files none = .ok s) :
    (∃ s' events,
      openFiles StateEvent.decodeLine (FileWorld.run {} (ops ++ more)).files none = .ok s' ∧
      readJournal StateEvent.decodeLine (FileWorld.run {} (ops ++ more)).files.journal =
        .ok events ∧
      replay {} events = some s' ∧
      events.map StateEvent.reservation =
        (FileWorld.run {} ops).written.map StateEvent.reservation ++
          FileWorld.answered (FileWorld.run {} ops) more) ∧ (FileWorld.answered {} ops).Sublist
      ((FileWorld.run {} ops).written.map StateEvent.reservation) := by
  rcases Throughout.split hsound with ⟨hbefore, hsince⟩
  rcases run_keeps ops {} (keeps_init _ trivial) hbefore with ⟨hkeeps, added, hadded, hsub⟩
  have hwritten : (FileWorld.run {} ops).written = added := hadded
  have hready : (FileWorld.run {} ops).Keeps (fun w => w.disk.Ready) := by
    rcases hkeeps with ⟨w, hfollows, hlinked, hkept, _⟩
    have hstored := hfollows.stored
    refine ⟨w, hfollows, hlinked, hkept, ready_of_open w s hlinked hkept ?_⟩
    exact (openFiles_iff w.disk _ none s hstored.stands hstored.mark hstored.encoded).mp hopen
  rcases run_ready more _ hready hsince hcalm with ⟨hend, hanswered⟩
  have happend : FileWorld.run {} (ops ++ more) = (FileWorld.run {} ops).run more :=
    foldl_append
  rw [happend]
  rcases openFiles_of_ready _ hend with ⟨s', hs', hread, hreplay⟩
  exact ⟨⟨s', _, hs', hread, hreplay, hanswered⟩, hwritten ▸ hsub⟩

/-- Closing after a sound run of calls that ran to their end, and opening
    again, gives the same handle: the same maps at the same place in the chain.
    Each event comes back from its line, with its hash. -/
theorem reopen_rebuilds (ops : List FileOp)
    (hsound : Throughout FileWorld.sound (fun w op => (w.step op).1) {} ops)
    (hcalm : ∀ op ∈ ops, op.calm = true) (s : FileState)
    (hs : (FileWorld.run {} ops).handle = some s) (hclosed : s.closed = false) :
    ((FileWorld.run {} ops).step .close).1.step (.openState none) =
      (FileWorld.run {} ops, .returns none) ∧ ∀ e ∈ (FileWorld.run {} ops).written,
      StateEvent.decodeLine e.bytes = .ok e ∧ stateEventHash e = e.hash := by
  have hkeeps : (FileWorld.run {} ops).Keeps (fun w =>
      w.disk.Ready ∧ ∀ s, w.handle = some s → s.failed = false) := by
    have hsteps : Throughout (fun b op => FileWorld.sound b op ∧ op ∈ ops)
        (fun w op => (w.step op).1) {} ops := hsound.mem (fun _ h => h)
    refine Throughout.invariant
      (P := fun b => b.Keeps (fun w => w.disk.Ready ∧ ∀ s, w.handle = some s → s.failed = false))
      ?_ (keeps_init _ ⟨ready_init, nofun⟩) hsteps
    rintro b op hb ⟨hop, hmem⟩
    have hcalm' := calm_of_over b op (hcalm op hmem)
    refine keeps_step b op _ _ hb hop ?_
    rintro w hfollows hlinked hkept ⟨hready, hunfailed⟩
    exact ⟨step_ready w _ hkept hready hcalm',
      step_unfailed w _ hlinked hfollows.stored.encoded hunfailed hcalm'⟩
  rcases hkeeps with ⟨w, hfollows, hlinked, hkept, hready, hunfailed⟩
  have hhandle : w.handle = some s := hfollows.handle.trans hs
  have hreplay := (hkept.handle s hhandle hclosed (hunfailed s hhandle)).2
  have hstored := hfollows.stored
  have hopen : openFiles StateEvent.decodeLine (FileWorld.run {} ops).files none = .ok s :=
    (openFiles_iff w.disk _ none s hstored.stands hstored.mark hstored.encoded).mpr
      (open_of_ready w s hlinked hkept hready hreplay)
  generalize FileWorld.run {} ops = b at *
  rcases b with ⟨f, handle, written⟩
  simp only at hs
  subst hs
  refine ⟨?_, ?_⟩
  · -- the closed handle holds no lock
    simp only [FileWorld.step]
    rw [hopen]
    rfl
  · intro e he
    have hmem : e ∈ w.disk.journal := hfollows.written ▸ he
    have hhash := chained_hashes _ _ _ hlinked.chain e hmem
    have hprevious := chained_previous w.disk.journal _ _ validUTF8_stateGenesisHash hlinked.chain
      e hmem
    have hline := decodeLine_bytes e (hkept.fits e hmem).encoded
    rw [dropCR_of_plain _ (bytes_plain e), decode_fits e (hkept.fits e hmem) hprevious hhash] at hline
    exact ⟨hline, hhash.symm⟩

/-- One spend. -/
def spendRun : List FileOp :=
  [.openState none, .reserve (exampleReservation "nonce-aaaaaaaaaa" 60) none]

/-- The handle after the spend, closed and opened again. -/
theorem reopen_rebuilds_spend :
    ((FileWorld.run {} spendRun).step .close).1.step (.openState none) =
      (FileWorld.run {} spendRun, .returns none) := by
  have heval : Throughout FileWorld.sound (fun w op => (w.step op).1) {} spendRun ∧
      (FileWorld.run {} spendRun).handle.map FileState.closed = some false := by
    decide +kernel
  rcases map_eq_some_iff.mp heval.2 with ⟨s, hs, hclosed⟩
  exact (reopen_rebuilds spendRun heval.1 (by decide) s hs hclosed).1

/-- A spend that dies with its line in the file and no mark. -/
def deadRun : List FileOp :=
  [.openState none, .reserve (exampleReservation "nonce-aaaaaaaaaa" 60) (some (.diesWriting 1000))]

/-- Another after it. -/
def laterRun : List FileOp :=
  [.openState none, .reserve (exampleReservation "nonce-bbbbbbbbbb" 1) none]

/-- Both are in the journal. -/
theorem reopened_keeps_both :
    ∃ events, readJournal StateEvent.decodeLine
        (FileWorld.run {} (deadRun ++ laterRun)).files.journal = .ok events ∧
      events.map StateEvent.reservation =
        [exampleReservation "nonce-aaaaaaaaaa" 60, exampleReservation "nonce-bbbbbbbbbb" 1] := by
  have heval : Throughout FileWorld.sound (fun w op => (w.step op).1) {} (deadRun ++ laterRun) ∧
      (openFiles StateEvent.decodeLine (FileWorld.run {} deadRun).files none).isOk = true ∧
      (FileWorld.run {} deadRun).written.map StateEvent.reservation =
        [exampleReservation "nonce-aaaaaaaaaa" 60] ∧
      FileWorld.answered (FileWorld.run {} deadRun) laterRun =
        [exampleReservation "nonce-bbbbbbbbbb" 1] := by
    decide +kernel
  rcases heval with ⟨hsound, hok, hwritten, hanswered⟩
  cases hopen : openFiles StateEvent.decodeLine (FileWorld.run {} deadRun).files none with
  | error err =>
    rw [hopen] at hok
    cases hok
  | ok s =>
    rcases (reopened_keeps deadRun laterRun hsound (by decide) s hopen).1 with
      ⟨_, events, _, hread, _, hevents⟩
    rw [hwritten, hanswered] at hevents
    exact ⟨events, hread, hevents⟩

/-! ### What goes wrong -/

/-- A reservation whose policy is no UTF-8. -/
def strayReservation : Reservation :=
  { exampleReservation "nonce-aaaaaaaaaa" 60 with policyID := [0xff] }

/-- It is committed, and the journal does not open again. -/
theorem stray_byte_unopenable :
    ((FileWorld.run {} [.openState none]).step (.reserve strayReservation none)).2 =
      .returns none ∧
    ((FileWorld.run {} [.openState none, .reserve strayReservation none, .close]).step
      (.openState none)).2 = .returns (some (.other "policy state integrity check failed")) := by
  decide +kernel

/-- A line cut right before its newline. -/
def cutRun : List FileOp :=
  [.openState none, .reserve (exampleReservation "nonce-aaaaaaaaaa" 60)
    (some (.diesWriting
      (({} : FileState).nextEvent (exampleReservation "nonce-aaaaaaaaaa" 60)).bytes.length))]

/-- It is opened as if it were whole, a reservation is committed behind it, and
    the journal does not open again. -/
theorem cut_newline_unopenable :
    ((FileWorld.run {} cutRun).step (.openState none)).2 = .returns none ∧
    ((FileWorld.run {} (cutRun ++ [.openState none])).step
      (.reserve (exampleReservation "nonce-bbbbbbbbbb" 1) none)).2 = .returns none ∧
    ((FileWorld.run {} (cutRun ++ [.openState none,
      .reserve (exampleReservation "nonce-bbbbbbbbbb" 1) none, .close])).step (.openState none)).2 =
        .returns (some (.other "policy state contains trailing data")) := by
  decide +kernel

end Regalia.Policy
