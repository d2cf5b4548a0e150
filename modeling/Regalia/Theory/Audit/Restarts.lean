import Regalia.Core.Audit.Reconcile
import Regalia.Theory.Audit.Cuts

/-!
# Restarts of an Honest Host

What a restart makes of a journal and its marks after any run of recording,
shipping, kills and failed mark writes, each append whole or absent. Most of the
checks never fire: the journal is a chain, both marks name events of it, and
what the collector holds is a prefix of it. Three do. Two events without a mark
are taken for a deletion, an event that shipped without its mark makes the
shipped mark look forged, and a host that restarts before anything was
committed is told that the collector forgot.

## Main definitions

* `HostMove.Whole`: A step whose append is whole or absent.
* `Host.Linked`: What holds of a host in every such run.

## Theorems

* `Host.linked_step`: One step keeps it.
* `Host.Linked.accepts_iff`, `Host.Linked.reconciles_iff`: What a restart
  accepts.
* `restart_accepts_iff`: The same over every run.
* `restart_accuses`: Three honest hosts that are refused.
-/

namespace Regalia.Audit

open List

/-- An append is whole or absent, and what is recorded comes back from its
    line, which the scanner takes. -/
def HostMove.Whole (w : Host) : HostMove → Prop
  | .record content fault =>
    content.decoded = content ∧
      (∀ r, w.recorder = some r → (r.next content).line.length ≤ maxLine) ∧
      fault ≠ some (.diesWriting .part) ∧ fault ≠ some (.diesWriting .allButNewline)
  | _ => True

/-- With its append whole or absent, recording leaves the disk as it is, or the
    journal with one event more and the mark there or not. -/
theorem record_whole (r : Recorder) {d : JournalDisk} (htail : d.tail = .whole)
    (content : Content) {fault : Option RecordFault} (hpart : fault ≠ some (.diesWriting .part))
    (hnewline : fault ≠ some (.diesWriting .allButNewline)) :
    r.record d content fault = (none, d) ∨
    ((r.record d content fault).2.journal = d.journal ++ [r.next content] ∧
      (r.record d content fault).2.tail = .whole ∧
      ((r.record d content fault).2.highWater = d.highWater ∨
        (r.record d content fault).2.highWater =
          some ⟨(r.next content).sequence, (r.next content).hash⟩) ∧
      ∀ r', (r.record d content fault).1 = some r' → r'.lastHash = (r.next content).hash) := by
  have hwhole : (if d.tail = .whole then Policy.Tail.whole else .trailing) = .whole := if_pos htail
  rcases fault with _ | ⟨⟩ | ⟨⟨⟩⟩ | ⟨⟩
  · refine .inr ⟨rfl, hwhole, .inr rfl, fun r' hr' => ?_⟩
    cases hr'
    rfl
  · refine .inr ⟨rfl, hwhole, .inl rfl, fun r' hr' => ?_⟩
    cases hr'
    rfl
  · exact .inl rfl
  · exact absurd rfl hpart
  · exact absurd rfl hnewline
  · exact .inr ⟨rfl, hwhole, .inl rfl, fun r' hr' => nomatch hr'⟩
  · exact .inr ⟨rfl, hwhole, .inr rfl, fun r' hr' => nomatch hr'⟩

section Runs

variable (identity : Identity) (site : String)

/-- The journal is a chain of whole lines, the high-water mark names an event of
    it, and a recorder knows its last hash. -/
structure Host.Linked (w : Host) : Prop extends w.Safe identity site where
  fits : ∀ e ∈ w.disk.journal, Fits e
  chained : Chained genesisHash 0 w.disk.journal
  whole : w.disk.tail = .whole
  marked : ∀ m, w.disk.highWater = some m →
    Noted (w.disk.journal.map Event.hash) m.sequence m.hash
  last : ∀ r, w.recorder = some r →
    r.lastHash = (w.disk.journal.map Event.hash).getLast?.getD genesisHash

variable {identity site}

/-- A step that leaves the journal and its mark alone. -/
theorem Host.Linked.same {w w' : Host} (h : w.Linked identity site)
    (hsafe : w'.Safe identity site) (hjournal : w'.disk.journal = w.disk.journal)
    (htail : w'.disk.tail = w.disk.tail) (hmark : w'.disk.highWater = w.disk.highWater)
    (hlast : ∀ r', w'.recorder = some r' → ∃ r, w.recorder = some r ∧ r'.lastHash = r.lastHash) :
    w'.Linked identity site := by
  refine
    { hsafe with fits := hjournal ▸ h.fits, chained := hjournal ▸ h.chained,
                 whole := htail.trans h.whole, marked := ?_, last := ?_ }
  · rw [hjournal, hmark]
    exact h.marked
  · intro r' hr'
    obtain ⟨r, hr, hsame⟩ := hlast r' hr'
    rw [hjournal, hsame]
    exact h.last r hr

theorem Host.Linked.next {w : Host} (h : w.Linked identity site) {r : Recorder}
    (hr : w.recorder = some r) {content : Content} (hcontent : content.decoded = content)
    (hshort : (r.next content).line.length ≤ maxLine) : Next w.disk.journal (r.next content) :=
  next_of_chain h.chained (h.counted r hr) (h.last r hr) hcontent hshort

theorem Host.Linked.record {w : Host} (h : w.Linked identity site) {r : Recorder}
    (hr : w.recorder = some r) {content : Content} {fault : Option RecordFault}
    (hwhole : HostMove.Whole w (.record content fault)) :
    (w.step identity site (.record content fault)).Linked identity site := by
  have hsafe := safe_step w (.record content fault) h.toSafe
  obtain ⟨hcontent, hshort, hpart, hnewline⟩ := hwhole
  have hnext := h.next hr hcontent (hshort r hr)
  simp only [step, hr] at hsafe ⊢
  rcases record_whole r h.whole content hpart hnewline with
    hnone | ⟨hjournal, htail, hmark, hlast⟩
  · rw [hnone] at hsafe ⊢
    exact h.same hsafe rfl rfl rfl (fun r' hr' => by cases hr')
  · refine
      { hsafe with fits := ?_, chained := ?_, whole := htail, marked := ?_, last := ?_ }
    · exact hjournal ▸ forall_mem_snoc h.fits hnext.toFits
    · rw [hjournal, chained_append]
      refine ⟨h.chained, ?_, hnext.previous, hnext.binds⟩
      rw [Nat.zero_add]
      exact hnext.sequence
    · intro m hm
      rw [hjournal]
      rcases hmark with hmark | hmark
      · rw [map_append]
        exact (h.marked m (hmark ▸ hm)).append _
      · rw [hmark] at hm
        cases hm
        exact hnext.noted
    · intro r' hr'
      rw [hlast r' hr', hjournal, map_append, map_singleton, getLast?_concat, Option.getD_some]

theorem Host.Linked.start {w : Host} (h : w.Linked identity site) :
    (w.step identity site .start).Linked identity site := by
  have hsafe := safe_step w .start h.toSafe
  rcases hr : w.recorder with _ | r
  · simp only [step, hr] at hsafe ⊢
    rcases hopen : openRecorder w.disk with err | r
    · rw [hopen] at hsafe
      exact h.same hsafe rfl rfl rfl (fun r' hr' => by cases hr')
    · rw [hopen] at hsafe
      -- what is read back is the journal
      have hmap : w.disk.journal.map Event.decoded = w.disk.journal := by
        rw [map_congr_left (fun e he => (h.fits e he).read), map_id']
      have hrecorder := openRecorder_ok hopen
      rw [hmap] at hrecorder
      refine
        { hsafe with fits := h.fits, chained := h.chained, whole := h.whole, marked := h.marked,
                     last := ?_ }
      intro r' hr'
      cases hr'
      rw [hrecorder, getLast?_map]
  · simp only [step, hr]
    exact h

theorem Host.linked_step (w : Host) (m : HostMove) (h : w.Linked identity site)
    (hm : m.Whole w) : (w.step identity site m).Linked identity site := by
  have hsafe := safe_step w m h.toSafe
  cases m with
  | start => exact h.start
  | record content fault =>
    rcases hr : w.recorder with _ | r
    · simp only [step, hr]
      exact h
    · exact h.record hr hm
  | send =>
    rcases hhead : w.recorder.bind (fun r => r.pending.head?) with _ | head
    · simp only [step, hhead]
      exact h
    · simp only [step, hhead] at hsafe ⊢
      by_cases hsend : sendable head = true
      · rw [if_pos hsend] at hsafe ⊢
        exact h.same hsafe rfl rfl rfl (fun r hr => ⟨r, hr, rfl⟩)
      · rw [if_neg hsend]
        exact h
  | deliver k fault =>
    rcases hk : w.wire[k]? with _ | e
    · simp only [step, hk]
      exact h
    · simp only [step, hk] at hsafe ⊢
      exact h.same hsafe rfl rfl rfl (fun r hr => ⟨r, hr, rfl⟩)
  | acknowledged written =>
    rcases hr : w.recorder with _ | r
    · simp only [step, hr]
      exact h
    · rcases hpending : r.pending with _ | ⟨head, rest⟩
      · simp only [step, hr, hpending]
        exact h
      · simp only [step, hr, hpending] at hsafe ⊢
        by_cases hacked : (head.sequence, head.hash) ∈ w.acks
        · rw [if_pos hacked] at hsafe ⊢
          cases written with
          | false | true =>
            refine h.same hsafe rfl rfl rfl (fun r' hr' => ⟨r, hr, ?_⟩)
            cases hr'
            rfl
        · rw [if_neg hacked]
          exact h
  | stop => exact h.same hsafe rfl rfl rfl (fun r' hr' => by cases hr')

theorem Host.linked_run {moves : List HostMove}
    (h : Throughout (fun w m => HostMove.Whole w m) (step identity site) {} moves) :
    (moves.foldl (step identity site) {}).Linked identity site := by
  refine Throughout.invariant linked_step ?_ h
  refine
    { safe_run [] with
      fits := ?_, chained := trivial, whole := rfl, marked := ?_, last := ?_ }
  all_goals
    intro _ h
    cases h

/-! ### Verifying -/

section Verifying

variable {w : Host} (h : w.Linked identity site)

include h

theorem Host.Linked.verify : w.disk.verify = .ok w.disk.journal := by
  rw [JournalDisk.verify, verifyLines_texts genesisHash 0 _ h.chained h.fits, h.whole]

theorem Host.Linked.verifyIntegrity_iff {events : List Event} :
    w.disk.verifyIntegrity = .ok events ↔
      events = w.disk.journal ∧ MarksAgree w.disk w.disk.journal := by
  have hmarks := marks_iff (d := w.disk) h.numbered
  rw [JournalDisk.verifyIntegrity, h.verify]
  simp only
  cases hmissing : markMissing w.disk w.disk.journal with
  | some err =>
    refine ⟨nofun, fun ⟨_, hagree⟩ => ?_⟩
    rw [← hmarks, hmissing] at hagree
    cases hagree.1
  | none =>
    cases hconflict : markConflict w.disk w.disk.journal with
    | some err =>
      refine ⟨nofun, fun ⟨_, hagree⟩ => ?_⟩
      rw [← hmarks, hconflict] at hagree
      cases hagree.2
    | none =>
      refine ⟨fun hok => ⟨(Except.ok.inj hok).symm, hmarks.mp ⟨hmissing, hconflict⟩⟩, ?_⟩
      rintro ⟨rfl, -⟩
      rfl

/-- The shipped mark names an event of the journal. -/
theorem Host.Linked.shipped_noted :
    (readMark w.disk.shipped).sequence = 0 ∨
      Noted (w.disk.journal.map Event.hash) (readMark w.disk.shipped).sequence
        (readMark w.disk.shipped).hash := by
  rcases hm : w.disk.shipped with _ | m
  · exact .inl rfl
  · exact .inr ((h.shipped m hm).mono h.stream)

theorem Host.Linked.mark_noted :
    readMark w.disk.highWater = ⟨0, genesisHash⟩ ∧ w.disk.highWater = none ∨
      Noted (w.disk.journal.map Event.hash) (readMark w.disk.highWater).sequence
        (readMark w.disk.highWater).hash := by
  rcases hm : w.disk.highWater with _ | m
  · exact .inl ⟨rfl, rfl⟩
  · exact .inr (h.marked m hm)

/-- Of what the marks may say, two things are not a matter of course. -/
theorem Host.Linked.marksAgree_iff :
    MarksAgree w.disk w.disk.journal ↔
      (w.disk.highWater = none → w.disk.journal.length ≤ 1) ∧
      (readMark w.disk.shipped).sequence ≤ (readMark w.disk.highWater).sequence := by
  refine ⟨fun hagree => ⟨hagree.present, hagree.ordered⟩, fun ⟨hpresent, hordered⟩ => ?_⟩
  have hlength : (w.disk.journal.map Event.hash).length = w.disk.journal.length :=
    length_map _
  refine
    { present := hpresent, moved := ?_, reached := ?_, recorded := ?_, acknowledged := ?_,
      noted := ?_, ordered := hordered }
  · intro hsome _
    rcases h.mark_noted with ⟨-, hnone⟩ | hnoted
    · exact absurd hnone hsome
    · exact Nat.ne_of_gt hnoted.1
  · rcases h.mark_noted with ⟨hread, -⟩ | hnoted
    · rw [hread]
      exact Nat.zero_le _
    · rw [← hlength]
      exact hnoted.le
  · intro hreached hhash
    rcases h.mark_noted with ⟨hread, -⟩ | hnoted
    · rw [hread] at hhash
      exact absurd rfl hhash
    · -- the mark names the last event
      have hget := hnoted.2
      rw [← hreached, ← hlength, ← getLast?_eq_getElem?, getLast?_map] at hget
      rw [hget, Option.getD_some]
  · rcases h.shipped_noted with hzero | hnoted
    · omega
    · rw [← hlength]
      exact hnoted.le
  · intro hpos
    rcases h.shipped_noted with hzero | hnoted
    · omega
    · rw [← getElem?_map]
      exact hnoted.2

/-- What a restart of an honest host is accepted for. -/
theorem Host.Linked.accepts_iff :
    (∃ events, w.disk.verifyIntegrity = .ok events) ↔
      (w.disk.highWater = none → w.disk.journal.length ≤ 1) ∧
      (readMark w.disk.shipped).sequence ≤ (readMark w.disk.highWater).sequence := by
  rw [← h.marksAgree_iff]
  constructor
  · rintro ⟨events, hevents⟩
    exact (h.verifyIntegrity_iff.mp hevents).2
  · intro hagree
    exact ⟨_, h.verifyIntegrity_iff.mpr ⟨rfl, hagree⟩⟩

/-- What the collector holds of an honest host never conflicts. -/
theorem Host.Linked.reconcilePositions (hheld : w.held identity site ≠ []) :
    Audit.reconcilePositions w.disk.journal (w.committedHead identity site).1
      (w.committedHead identity site).2 (readMark w.disk.shipped).sequence = .ok () := by
  have hpos : 1 ≤ (w.held identity site).length := length_pos_iff.mpr hheld
  have hprefix := h.stream.length_le
  rw [length_map] at hprefix
  -- the last hash the collector holds is the journal's at that number
  obtain ⟨hash, hhash⟩ := getLast?_isSome.mpr hheld |> Option.isSome_iff_exists.mp
  have hget : (w.disk.journal.map Event.hash)[(w.held identity site).length - 1]? = some hash := by
    obtain ⟨rest, hrest⟩ := h.stream
    rw [← hrest, getElem?_append_left (by omega), ← getLast?_eq_getElem?, hhash]
  rw [getElem?_map] at hget
  obtain ⟨e, he, hehash⟩ := Option.map_eq_some_iff.mp hget
  have hshipped : ¬ (w.held identity site).length < (readMark w.disk.shipped).sequence :=
    Nat.not_lt.mpr (readMark_le h.toSafe)
  have hreached : ¬ sequenceOf w.disk.journal < (w.held identity site).length := by
    rw [sequenceOf, h.numbered.last]
    omega
  simp only [Audit.reconcilePositions, committedHead, position, hhash, Option.getD_some]
  rw [if_neg hshipped, if_neg hreached, he]
  simp only [hehash, ne_eq, not_true_eq_false, if_false]

theorem Host.Linked.reconciles_iff :
    w.reconcile identity site = .ok () ↔
      (∃ events, w.disk.verifyIntegrity = .ok events) ∧
        (w.held identity site ≠ [] ∨ w.disk.journal = []) := by
  unfold reconcile reconcileContinuity
  rcases hverify : w.disk.verifyIntegrity with err | events
  · exact ⟨nofun, fun ⟨⟨events, hevents⟩, _⟩ => nomatch hevents⟩
  · obtain ⟨rfl, -⟩ := h.verifyIntegrity_iff.mp hverify
    simp only
    by_cases hheld : w.held identity site = []
    · have hzero : (w.committedHead identity site).1 = 0 := by
        rw [committedHead, hheld]
        rfl
      rw [if_pos hzero]
      by_cases hjournal : w.disk.journal = []
      · simp only [hjournal, ne_eq, not_true_eq_false, if_false, or_true, and_true, true_iff]
        exact ⟨_, rfl⟩
      · simp only [hjournal, ne_eq, not_false_eq_true, if_true, hheld, not_true_eq_false, or_self,
          and_false, reduceCtorEq]
    · have hsome : (w.committedHead identity site).1 ≠ 0 :=
        fun hzero => hheld (length_eq_zero_iff.mp hzero)
      rw [if_neg hsome, h.reconcilePositions hheld]
      exact ⟨fun _ => ⟨⟨_, rfl⟩, .inl hheld⟩, fun _ => rfl⟩

end Verifying

end Runs

/-! ### Every run -/

/-- In every run whose appends are whole or absent, a restart accepts the
    journal and its marks exactly if a mark was written, or one event at most is
    there, and the shipped mark is not past it; and it is reconciled exactly if
    moreover the collector holds something or there is nothing to hold. -/
theorem restart_accepts_iff (identity : Identity) (site : String) (moves : List HostMove)
    (hwhole : Throughout (fun w m => HostMove.Whole w m) (Host.step identity site) {} moves) :
    let w := moves.foldl (Host.step identity site) {}
    ((∃ events, w.disk.verifyIntegrity = .ok events) ↔
      (w.disk.highWater = none → w.disk.journal.length ≤ 1) ∧
      (readMark w.disk.shipped).sequence ≤ (readMark w.disk.highWater).sequence) ∧
    (w.reconcile identity site = .ok () ↔
      ((w.disk.highWater = none → w.disk.journal.length ≤ 1) ∧
        (readMark w.disk.shipped).sequence ≤ (readMark w.disk.highWater).sequence) ∧
      (w.held identity site ≠ [] ∨ w.disk.journal = [])) := by
  have hlinked := Host.linked_run hwhole
  refine ⟨hlinked.accepts_iff, ?_⟩
  rw [hlinked.reconciles_iff, hlinked.accepts_iff]

/-- An event is recorded, shipped and acknowledged, and the daemon is started
    again. -/
theorem restart_accepts_once :
    let w := recordedOnce.foldl (Host.step someIdentity "") {}
    ((∃ events, w.disk.verifyIntegrity = .ok events) ↔
      (w.disk.highWater = none → w.disk.journal.length ≤ 1) ∧
      (readMark w.disk.shipped).sequence ≤ (readMark w.disk.highWater).sequence) ∧
    (w.reconcile someIdentity "" = .ok () ↔
      ((w.disk.highWater = none → w.disk.journal.length ≤ 1) ∧
        (readMark w.disk.shipped).sequence ≤ (readMark w.disk.highWater).sequence) ∧
      (w.held someIdentity "" ≠ [] ∨ w.disk.journal = [])) := by
  refine restart_accepts_iff someIdentity "" recordedOnce
    ⟨trivial, ⟨rfl, ?_, nofun, nofun⟩, trivial, trivial, trivial, trivial, trivial, trivial⟩
  intro r hr
  rw [← Option.some.inj hr]
  exact Nat.le_of_lt sampleLine_short

/-! ### Honest hosts that are refused -/

/-- Two events whose marks are not written. -/
def unmarkedTwice : List HostMove :=
  [.start, .record sampleContent (some .mark), .record sampleContent (some .mark), .stop]

/-- An event is shipped; the next one's mark is not written, and it is shipped
    after a restart. -/
def shippedUnmarked : List HostMove :=
  [.start, .record sampleContent none, .send, .deliver 0 none, .acknowledged true,
    .record sampleContent (some .mark), .stop, .start, .send, .deliver 1 none, .acknowledged true,
    .stop]

/-- An event is recorded, and the daemon stops before the event is sent. -/
def stoppedEarly : List HostMove := [.start, .record sampleContent none, .stop]

/-- Whatever a start accepts, in any run, the marks agree with. -/
theorem Host.Safe.marksAgree {identity : Identity} {site : String} {w : Host}
    (h : w.Safe identity site) {events : List Event} (hok : w.disk.verifyIntegrity = .ok events) :
    events.length = w.disk.journal.length ∧ MarksAgree w.disk events := by
  have hevents := verifyIntegrity_ok hok
  have hlength : events.length = w.disk.journal.length := by rw [hevents, length_map]
  have hnumbered : Numbered events := by
    rw [Numbered, hlength, hevents, map_map]
    exact h.numbered
  refine ⟨hlength, (marks_iff hnumbered).mp ?_⟩
  unfold JournalDisk.verifyIntegrity at hok
  rcases hverify : w.disk.verify with err | found
  · rw [hverify] at hok
    cases hok
  · rw [hverify] at hok
    simp only at hok
    split at hok
    · cases hok
    · rename_i hmissing
      split at hok
      · cases hok
      · rename_i hconflict
        cases hok
        exact ⟨hmissing, hconflict⟩

/-- Two events without a mark, a mark behind what was shipped, and a restart
    before anything is shipped: all three are refused. -/
theorem restart_accuses :
    (∀ events, (unmarkedTwice.foldl (Host.step someIdentity "") {}).disk.verifyIntegrity ≠
      .ok events) ∧
    (∀ events, (shippedUnmarked.foldl (Host.step someIdentity "") {}).disk.verifyIntegrity ≠
      .ok events) ∧
    (stoppedEarly.foldl (Host.step someIdentity "") {}).reconcile someIdentity "" ≠ .ok () := by
  refine ⟨fun events hok => ?_, fun events hok => ?_, fun hok => ?_⟩
  · obtain ⟨hlength, hagree⟩ := (Host.safe_run unmarkedTwice).marksAgree hok
    have htwo : (unmarkedTwice.foldl (Host.step someIdentity "") {}).disk.journal.length = 2 := rfl
    have hone := hagree.present rfl
    omega
  · have hpast :
        ¬ (readMark (shippedUnmarked.foldl (Host.step someIdentity "") {}).disk.shipped).sequence ≤
          (readMark (shippedUnmarked.foldl (Host.step someIdentity "") {}).disk.highWater).sequence :=
      by decide +kernel
    exact hpast ((Host.safe_run shippedUnmarked).marksAgree hok).2.ordered
  · unfold Host.reconcile reconcileContinuity at hok
    split at hok
    · cases hok
    · rename_i events hevents
      obtain ⟨hlength, -⟩ := (Host.safe_run stoppedEarly).marksAgree hevents
      have hne : events ≠ [] := ne_nil_of_length_pos (by rw [hlength]; decide)
      have hzero : ((stoppedEarly.foldl (Host.step someIdentity "") {}).committedHead
          someIdentity "").1 = 0 := rfl
      rw [if_pos hzero, if_pos hne] at hok
      cases hok

end Regalia.Audit
