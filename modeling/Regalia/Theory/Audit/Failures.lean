import Regalia.Theory.Audit.JournalFile

/-!
# Recording After a Failure

A recorder keeps going after a `Record` that failed, from what it has in
memory. Where the failed call left nothing in the file the two still agree, and
the next event is the next line of the chain. Where it left anything, a part of
its line or all of it, the next event is written behind that, and the journal
does not verify any more.

## Main definitions

* `Recording.Clean`: A call that finds the file as its recorder knows it.
* `Recording.Holds`: The durable bytes are the events reported durable.

## Theorems

* `Recording.Holds.step`: One call keeps the durable bytes.
* `clean_records_verify`: The journal verifies after every `Record` of a run
  whose calls are clean.
* `failed_records_break`: A journal that does not verify after a failure.
-/

namespace Regalia.Audit

open List

/-- Whether a call gets past the sync of its line. -/
def synced : Option WriteFault → Bool
  | some (.write _) => false
  | some .sync => false
  | _ => true

/-- A `Record` that gets past the sync found no bytes beyond the durable ones,
    has a draft that comes back from its line, of a length the scanner takes,
    and writes its mark. -/
def Recording.Clean (w : Recording) : RecordMove → Prop
  | .record content fault => synced fault = true →
    w.files.journal.length = w.recorder.durableOffset ∧ content.decoded = content ∧
      (w.recorder.next content).line.length ≤ maxLine ∧ fault ≠ some .mark
  | .acknowledged _ => True

/-- The durable bytes are the events that were reported durable, and the
    recorder and its shipper know no others. -/
structure Recording.Holds (w : Recording) : Prop where
  offset : w.recorder.durableOffset ≤ w.files.journal.length
  ended : Ended 10 (w.files.journal.take w.recorder.durableOffset)
  verifies : verifyBytes Event.decodeLine (w.files.journal.take w.recorder.durableOffset) =
    .ok w.durable
  sequence : w.recorder.sequence = w.durable.length
  lastHash : w.recorder.lastHash = (w.durable.map Event.hash).getLast?.getD genesisHash
  pending : ∀ e ∈ w.recorder.pending, Noted (w.durable.map Event.hash) e.sequence e.hash
  shipped : (readMark w.files.shipped).sequence = 0 ∨
    Noted (w.durable.map Event.hash) (readMark w.files.shipped).sequence
      (readMark w.files.shipped).hash

theorem Noted.append {hashes : List Literal} {sequence : Nat} {hash : Literal}
    (h : Noted hashes sequence hash) (more : List Literal) : Noted (hashes ++ more) sequence hash :=
  h.mono (prefix_append _ _)

variable {events : List Event}

/-- The hash a chain ends with comes back from a line. -/
theorem decoded_lastHash (h : Chained genesisHash 0 events) :
    decoded ((events.map Event.hash).getLast?.getD genesisHash) =
      (events.map Event.hash).getLast?.getD genesisHash := by
  rcases hlast : events.getLast? with _ | e
  · rw [getLast?_map, hlast]
    exact decoded_genesisHash
  · rw [getLast?_map, hlast]
    rw [getLast?_eq_getElem?] at hlast
    show decoded e.hash = e.hash
    rw [(chained_getElem? h hlast).2, decoded_eventHash]

/-- The event a recorder makes is the next one of the chain it knows. -/
theorem next_of_chain {r : Recorder} {content : Content}
    (hchain : Chained genesisHash 0 events) (hsequence : r.sequence = events.length)
    (hlast : r.lastHash = (events.map Event.hash).getLast?.getD genesisHash)
    (hcontent : content.decoded = content) (hshort : (r.next content).line.length ≤ maxLine) :
    Next events (r.next content) := by
  have hprevious : decoded r.lastHash = r.lastHash := by
    rw [hlast]
    exact decoded_lastHash hchain
  have hhash : (r.next content).hash = eventHash { r.next content with hash := [] } := rfl
  have hread : (r.next content).decoded = r.next content :=
    decoded_of_content hcontent hprevious hhash
  refine { short := ?_, read := hread, sequence := ?_, previous := hlast, binds := rfl }
  · rw [Event.line, length_append] at hshort
    exact hshort
  · show r.sequence + 1 = events.length + 1
    rw [hsequence]

section Steps

variable {w : Recording}

theorem Recording.Holds.chained (h : w.Holds) : Chained genesisHash 0 w.durable :=
  verifyBytes_chained h.verifies

theorem Next.noted {e : Event} (hnext : Next events e) :
    Noted ((events ++ [e]).map Event.hash) e.sequence e.hash := by
  refine ⟨by have := hnext.sequence; omega, ?_⟩
  rw [hnext.sequence, Nat.add_sub_cancel, map_append, map_singleton,
    getElem?_append_right (by rw [length_map]), length_map, Nat.sub_self]
  rfl

/-- Bytes behind the durable ones change nothing that is held. -/
theorem Recording.Holds.junk (h : w.Holds) (bytes : GoString) :
    ({ w with files := w.files.append bytes } : Recording).Holds := by
  have htake : (w.files.append bytes).journal.take w.recorder.durableOffset =
      w.files.journal.take w.recorder.durableOffset :=
    take_append_of_le_length h.offset
  refine { h with offset := ?_, ended := ?_, verifies := ?_ }
  · refine h.offset.trans ?_
    show _ ≤ (w.files.journal ++ bytes).length
    rw [length_append]
    exact Nat.le_add_right _ _
  · show Ended 10 ((w.files.append bytes).journal.take w.recorder.durableOffset)
    rw [htake]
    exact h.ended
  · show verifyBytes _ ((w.files.append bytes).journal.take w.recorder.durableOffset) = _
    rw [htake]
    exact h.verifies

/-- What a call that gets past the sync leaves, its mark written. -/
def Recording.recorded (w : Recording) (event : Event) : Recording where
  files := { w.files.append event.line with highWater := some ⟨event.sequence, event.hash⟩ }
  recorder :=
    { w.recorder with
      sequence := event.sequence
      lastHash := event.hash
      pending := w.recorder.pending ++ [event]
      durableOffset := w.recorder.durableOffset + event.line.length }
  durable := w.durable ++ [event]

/-- A call leaves some bytes of its line and nothing else, or is past the sync
    and, if it is clean, writes its mark. -/
theorem record_step_cases (w : Recording) (content : Content) (fault : Option WriteFault)
    (hclean : w.Clean (.record content fault)) :
    (synced fault = false ∧ ∃ bytes,
      w.step (.record content fault) = { w with files := w.files.append bytes }) ∨
    (synced fault = true ∧
      w.step (.record content fault) = w.recorded (w.recorder.next content)) := by
  have hlost : ∀ err, w.durable ++ (RecordAnswer.lost err).reported (w.recorder.next content) =
      w.durable := fun err => append_nil _
  rcases fault with _ | n | _ | _ | _
  · exact .inr ⟨rfl, rfl⟩
  · refine .inl ⟨rfl, (w.recorder.next content).line.take n, ?_⟩
    simp only [Recording.step, FileRecorder.record, hlost]
  · refine .inl ⟨rfl, (w.recorder.next content).line, ?_⟩
    simp only [Recording.step, FileRecorder.record, hlost]
  · exact absurd rfl (hclean rfl).2.2.2
  · exact .inr ⟨rfl, rfl⟩

theorem Recording.Holds.recorded (h : w.Holds)
    (hlength : w.files.journal.length = w.recorder.durableOffset) {e : Event}
    (hnext : Next w.durable e) : (w.recorded e).Holds := by
  have hwhole : w.files.journal.take w.recorder.durableOffset = w.files.journal :=
    take_of_length_le (Nat.le_of_eq hlength)
  have hended : Ended 10 w.files.journal := hwhole ▸ h.ended
  have hverifies : verifyBytes Event.decodeLine w.files.journal = .ok w.durable :=
    hwhole ▸ h.verifies
  have hoffset : (w.recorded e).recorder.durableOffset = (w.recorded e).files.journal.length := by
    show w.recorder.durableOffset + e.line.length = (w.files.journal ++ e.line).length
    rw [length_append, hlength]
  have htake : (w.recorded e).files.journal.take (w.recorded e).recorder.durableOffset =
      w.files.journal ++ e.line := by
    rw [hoffset, take_length]
    rfl
  refine
    { offset := Nat.le_of_eq hoffset, ended := ?_, verifies := ?_, sequence := ?_, lastHash := ?_,
      pending := ?_, shipped := ?_ }
  · rw [htake]
    exact ended_append hended e.ended_line
  · rw [htake]
    exact verifyBytes_append hended hverifies hnext
  · show e.sequence = (w.durable ++ [e]).length
    rw [hnext.sequence, length_append, length_singleton]
  · show e.hash = ((w.durable ++ [e]).map Event.hash).getLast?.getD genesisHash
    rw [map_append, map_singleton, getLast?_concat, Option.getD_some]
  · refine forall_mem_snoc (fun e' he' => ?_) hnext.noted
    rw [Recording.recorded, map_append]
    exact (h.pending e' he').append _
  · refine h.shipped.imp id (fun hnoted => ?_)
    rw [Recording.recorded, map_append]
    exact hnoted.append _

theorem Recording.Holds.next (h : w.Holds) {content : Content} {fault : Option WriteFault}
    (hsynced : synced fault = true) (hclean : w.Clean (.record content fault)) :
    w.files.journal.length = w.recorder.durableOffset ∧
      Next w.durable (w.recorder.next content) := by
  obtain ⟨hlength, hcontent, hshort, -⟩ := hclean hsynced
  exact ⟨hlength, next_of_chain h.chained h.sequence h.lastHash hcontent hshort⟩

theorem Recording.Holds.acknowledged (h : w.Holds) (written : Bool) :
    (w.step (.acknowledged written)).Holds := by
  rcases hpending : w.recorder.pending with _ | ⟨head, rest⟩
  · simp only [Recording.step, FileRecorder.acknowledged, hpending]
    exact h
  · have hrest : ∀ e ∈ rest, Noted (w.durable.map Event.hash) e.sequence e.hash :=
      fun e he => h.pending e (hpending ▸ mem_cons_of_mem _ he)
    have hhead : Noted (w.durable.map Event.hash) head.sequence head.hash :=
      h.pending head (hpending ▸ mem_cons_self)
    simp only [Recording.step, FileRecorder.acknowledged, hpending]
    cases written with
    | false => exact { h with pending := hrest }
    | true => exact { h with pending := hrest, shipped := .inr hhead }

theorem Recording.Holds.step (w : Recording) (move : RecordMove) (h : w.Holds)
    (hclean : w.Clean move) : (w.step move).Holds := by
  cases move with
  | record content fault =>
    rcases record_step_cases w content fault hclean with ⟨-, bytes, hstep⟩ | ⟨hsynced, hstep⟩
    · rw [hstep]
      exact h.junk bytes
    · obtain ⟨hlength, hnext⟩ := h.next hsynced hclean
      rw [hstep]
      exact h.recorded hlength hnext
  | acknowledged written => exact h.acknowledged written

/-- The marks agree with the events right after a mark was written. -/
theorem marksAgree_of_last {e : Event} {f : JournalFiles}
    (hmark : f.highWater = some ⟨e.sequence, e.hash⟩) (hsequence : e.sequence = events.length + 1)
    (hshipped : (readMark f.shipped).sequence = 0 ∨
      Noted ((events ++ [e]).map Event.hash) (readMark f.shipped).sequence
        (readMark f.shipped).hash) : MarksAgree f.marks (events ++ [e]) := by
  have hread : readMark f.marks.highWater = ⟨e.sequence, e.hash⟩ := by
    show readMark f.highWater = _
    rw [hmark]
    rfl
  have hlength : (events ++ [e]).length = e.sequence := by
    rw [length_append, length_singleton, hsequence]
  have hle : (readMark f.shipped).sequence ≤ e.sequence := by
    rcases hshipped with hzero | hnoted
    · omega
    · have := hnoted.le
      rw [length_map, hlength] at this
      exact this
  refine
    { present := ?_, moved := ?_, reached := ?_, recorded := ?_, acknowledged := ?_, noted := ?_,
      ordered := ?_ }
  · intro hnone
    have hnone : f.highWater = none := hnone
    rw [hmark] at hnone
    cases hnone
  · intro _ _
    rw [hread]
    show e.sequence ≠ 0
    omega
  · rw [hread, hlength]
  · intro _ _
    rw [hread, getLast?_concat]
    rfl
  · rw [hlength]
    exact hle
  · intro hpos
    rcases hshipped with hzero | hnoted
    · exact absurd hzero (Nat.pos_iff_ne_zero.mp hpos)
    · rw [← getElem?_map]
      exact hnoted.2
  · rw [hread]
    exact hle

/-- After a clean `Record` both verifications accept, with the durable
    events. -/
theorem Recording.Holds.verifies_recorded (h : w.Holds)
    (hlength : w.files.journal.length = w.recorder.durableOffset) {e : Event}
    (hnext : Next w.durable e) :
    (w.recorded e).files.verifyIntegrity Event.decodeLine = .ok (w.recorded e).durable ∧
    (w.recorded e).recorder.verifyNow Event.decodeLine (w.recorded e).files =
      { outcome := .intact, events := (w.recorded e).durable.length } := by
  have hafter := h.recorded hlength hnext
  have hwhole : w.files.journal.take w.recorder.durableOffset = w.files.journal :=
    take_of_length_le (Nat.le_of_eq hlength)
  have hbytes : verifyBytes Event.decodeLine (w.recorded e).files.journal =
      .ok (w.recorded e).durable :=
    verifyBytes_append (hwhole ▸ h.ended) (hwhole ▸ h.verifies) hnext
  refine ⟨verifyIntegrity_eq_ok.mpr ⟨hbytes, ?_⟩, ?_⟩
  · exact marksAgree_of_last rfl hnext.sequence hafter.shipped
  · have hlast : (w.recorded e).durable.getLast? = some e := getLast?_concat
    rw [FileRecorder.verifyNow, hafter.verifies]
    simp only [hlast, Option.map_some, Option.getD_some]
    rw [if_neg]
    rintro (hne | hne)
    · exact hne rfl
    · exact hne rfl

end Steps

/-! ### Runs -/

/-- What `Open` gives of a journal whose last line is finished. -/
theorem holds_of_open {f : JournalFiles} {r : FileRecorder}
    (hevents : f.verifyIntegrity Event.decodeLine = .ok events)
    (hopen : openFiles Event.decodeLine f = .ok r) (hended : Ended 10 f.journal) :
    Recording.Holds ⟨f, r, events⟩ := by
  obtain ⟨hverify, hmarks⟩ := verifyIntegrity_eq_ok.mp hevents
  have hchain := verifyBytes_chained hverify
  have hnumbered := numbered_of_chained hchain
  rw [openFiles, hevents] at hopen
  obtain rfl := Except.ok.inj hopen
  have htake : f.journal.take f.journal.length = f.journal := take_length
  refine
    { offset := Nat.le_refl _, ended := ?_, verifies := ?_, sequence := hnumbered.last,
      lastHash := ?_, pending := ?_, shipped := ?_ }
  · exact htake.symm ▸ hended
  · exact htake.symm ▸ hverify
  · rw [getLast?_map]
  · intro e he
    obtain ⟨i, hget⟩ := mem_iff_getElem?.mp (mem_of_mem_drop he)
    have hsequence := hnumbered.sequence hget
    refine ⟨by omega, ?_⟩
    rw [hsequence, Nat.add_sub_cancel, getElem?_map, hget, Option.map_some]
  · rcases Nat.eq_zero_or_pos (readMark f.shipped).sequence with hzero | hpos
    · exact .inl hzero
    · refine .inr ⟨hpos, ?_⟩
      rw [getElem?_map]
      exact hmarks.noted hpos

/-- On a journal that `Open` accepted and whose last line is finished, after
    every `Record` that is reported durable in a run whose calls are clean, both
    verifications accept the journal, with the events reported durable. -/
theorem clean_records_verify (f : JournalFiles) (events : List Event) (r : FileRecorder)
    (hevents : f.verifyIntegrity Event.decodeLine = .ok events)
    (hopen : openFiles Event.decodeLine f = .ok r)
    (hended : f.journal = [] ∨ f.journal.getLast? = some 10)
    (moves : List RecordMove) (content : Content) (fault : Option WriteFault)
    (hclean : Throughout Recording.Clean Recording.step ⟨f, r, events⟩
      (moves ++ [RecordMove.record content fault])) (hsynced : synced fault = true) :
    let w := (moves ++ [RecordMove.record content fault]).foldl Recording.step ⟨f, r, events⟩
    w.files.verifyIntegrity Event.decodeLine = .ok w.durable ∧
    w.recorder.verifyNow Event.decodeLine w.files =
      { outcome := .intact, events := w.durable.length } := by
  obtain ⟨hbefore, hlast, -⟩ := hclean.split
  have hholds := hbefore.invariant Recording.Holds.step
    (holds_of_open hevents hopen (ended_iff.mpr hended))
  rw [foldl_append, foldl_cons, foldl_nil]
  rcases record_step_cases _ content fault hlast with ⟨hlost, -⟩ | ⟨-, hstep⟩
  · rw [hsynced] at hlost
    cases hlost
  · obtain ⟨hlength, hnext⟩ := hholds.next hsynced hlast
    rw [hstep]
    exact hholds.verifies_recorded hlength hnext

/-- The recorder of an empty journal. -/
def freshRecorder : FileRecorder :=
  { sequence := 0, lastHash := genesisHash, pending := [], shipped := 0, durableOffset := 0 }

theorem sampleLine_short : (freshRecorder.next sampleContent).line.length < maxLine := by
  decide +kernel

/-- A write fails before its first byte, and the next `Record` succeeds. -/
theorem clean_records_verify_once :
    let w := ([RecordMove.record sampleContent (some (.write 0))] ++
      [RecordMove.record sampleContent none]).foldl Recording.step ⟨{}, freshRecorder, []⟩
    w.files.verifyIntegrity Event.decodeLine = .ok w.durable ∧
    w.recorder.verifyNow Event.decodeLine w.files =
      { outcome := .intact, events := w.durable.length } := by
  have hclean : Throughout Recording.Clean Recording.step ⟨{}, freshRecorder, []⟩
      ([RecordMove.record sampleContent (some (.write 0))] ++
        [RecordMove.record sampleContent none]) :=
    ⟨nofun, fun _ => ⟨rfl, rfl, Nat.le_of_lt sampleLine_short, nofun⟩, trivial⟩
  exact clean_records_verify {} [] freshRecorder rfl rfl (.inl rfl) _ _ _ hclean rfl

/-! ### What goes wrong -/

/-- An object that starts with a brace where its first name should be. -/
theorem decode_twoBraces (rest : List Char) :
    Event.decode ('{' :: '{' :: rest) = .error "audit chain contains invalid JSON" := by
  have hparse : Json.parseValue goQuoting (('{' :: '{' :: rest).length + 1) ('{' :: '{' :: rest) =
      none := rfl
  rw [Event.decode, hparse]

/-- One byte of a line and then a line, on one line of the file, that is
    finished or not. -/
theorem verifyBytes_twoBraces (e : Event) (hshort : e.line.length < maxLine) {tail : GoString}
    (htail : tail = [] ∨ tail = [10]) :
    verifyBytes Event.decodeLine (123 :: e.bytes ++ tail) =
      .error "audit chain contains invalid JSON" := by
  obtain ⟨rest, hrest⟩ := e.bytes_brace
  have hplain : ∀ b ∈ 123 :: e.bytes, 0x20 ≤ b.toNat := by
    intro b hb
    rcases mem_cons.mp hb with rfl | hb
    · decide
    · exact e.bytes_plain b hb
  have hnewline : (10 : UInt8) ∉ 123 :: e.bytes := fun hmem => absurd (hplain 10 hmem) (by decide)
  have hscan : Policy.scanLines (123 :: e.bytes ++ tail) = [123 :: e.bytes] := by
    rcases htail with rfl | rfl
    · rw [append_nil]
      exact scanLines_rest hnewline (cons_ne_nil _ _)
    · simp only [Policy.scanLines, splitLines_line 10 _ [] hnewline, splitLines, if_true,
        append_nil]
  have hlength : ¬ maxLine < (123 :: e.bytes).length + 1 := by
    rw [Event.line, length_append, length_singleton] at hshort
    rw [length_cons]
    omega
  have htext : ∃ more, GoString.text (123 :: e.bytes) = '{' :: '{' :: more := by
    obtain ⟨more, hmore, -⟩ := GoString.text_append ['{', '{'] rest
    exact ⟨more, by rw [hrest]; exact hmore⟩
  obtain ⟨more, hmore⟩ := htext
  rw [verifyBytes, hscan, scanEvents, if_neg hlength, Policy.dropCR_of_plain _ hplain,
    Event.decodeLine, hmore, decode_twoBraces]

/-- A line that is there twice. -/
theorem verifyBytes_twice {e : Event} (hnext : Next [] e) :
    verifyBytes Event.decodeLine (e.line ++ e.line) =
      .error "audit chain integrity check failed" := by
  have hscan : Policy.scanLines (e.line ++ e.line) = [e.bytes, e.bytes] := by
    rw [scanLines_ended e.ended_line, ← scanLines_of_ended e.ended_line, scanLines_line]
    rfl
  have hshort : ¬ maxLine < e.bytes.length + 1 := Nat.not_lt.mpr hnext.short
  have hdecode : Event.decodeLine (Policy.dropCR e.bytes) = .ok e := by
    rw [decodeLine_bytes, hnext.read]
  have hfirst : ¬ (e.sequence ≠ 0 + 1 ∨ e.previousHash ≠ genesisHash ∨ e.hash ≠ eventHash e) := by
    rintro (h | h | h)
    · exact h hnext.sequence
    · exact h hnext.previous
    · exact h hnext.binds
  have hsecond : e.sequence ≠ 0 + 1 + 1 ∨ e.previousHash ≠ e.hash ∨ e.hash ≠ eventHash e := by
    refine .inl ?_
    rw [hnext.sequence]
    decide
  rw [verifyBytes, hscan, scanEvents, if_neg hshort, hdecode]
  simp only [if_neg hfirst]
  rw [scanEvents, if_neg hshort, hdecode]
  simp only [if_pos hsecond]
  rfl

theorem verifyIntegrity_error {decode : LineDecoder} {f : JournalFiles} {err : String}
    (h : verifyBytes decode f.journal = .error err) : f.verifyIntegrity decode = .error err := by
  rw [JournalFiles.verifyIntegrity, h]

/-- A `Record` that fails and one that succeeds, of the same draft. -/
def failedOnce (content : Content) (fault : WriteFault) : Recording :=
  ([RecordMove.record content (some fault)] ++ [RecordMove.record content none]).foldl
    Recording.step ⟨{}, freshRecorder, []⟩

section Once

variable {content : Content} {e : Event}

theorem failedOnce_write (he : freshRecorder.next content = e) (n : Nat) :
    (failedOnce content (.write n)).durable = [e] ∧
    (failedOnce content (.write n)).files.journal = e.line.take n ++ e.line ∧
    (failedOnce content (.write n)).recorder.durableOffset = e.line.length := by
  subst he
  exact ⟨rfl, rfl, Nat.zero_add _⟩

theorem failedOnce_sync (he : freshRecorder.next content = e) :
    (failedOnce content .sync).durable = [e] ∧
    (failedOnce content .sync).files.journal = e.line ++ e.line := by
  subst he
  exact ⟨rfl, rfl⟩

/-- The durable bytes after one stray byte end before the newline. -/
theorem verifyNow_failedOnce (he : freshRecorder.next content = e)
    (hshort : e.line.length < maxLine) :
    (failedOnce content (.write 1)).files.verifyIntegrity Event.decodeLine =
      .error "audit chain contains invalid JSON" ∧
    (failedOnce content (.write 1)).recorder.verifyNow Event.decodeLine
      (failedOnce content (.write 1)).files = { outcome := .chainBroken } := by
  obtain ⟨-, hjournal, hoffset⟩ := failedOnce_write he 1
  obtain ⟨rest, hrest⟩ := e.bytes_brace
  have hfile : (failedOnce content (.write 1)).files.journal = 123 :: e.bytes ++ [10] := by
    rw [hjournal, Event.line, hrest]
    rfl
  have hdurable : (123 :: e.bytes ++ [10]).take e.line.length = 123 :: e.bytes ++ [] := by
    rw [Event.line, length_append, length_singleton, append_nil, cons_append,
      take_succ_cons, take_left]
  constructor
  · refine verifyIntegrity_error ?_
    rw [hfile]
    exact verifyBytes_twoBraces e hshort (.inr rfl)
  · rw [FileRecorder.verifyNow, hoffset, hfile, hdurable, verifyBytes_twoBraces e hshort (.inl rfl)]
    rfl

end Once

/-- A write that fails after one byte, or a sync that fails, and a `Record`
    that succeeds: the journal is refused at the next start, and for the byte
    by the verification that runs meanwhile. -/
theorem failed_records_break :
    ((failedOnce sampleContent (.write 1)).durable.length = 1 ∧
      (failedOnce sampleContent (.write 1)).files.verifyIntegrity Event.decodeLine =
        .error "audit chain contains invalid JSON" ∧
      (failedOnce sampleContent (.write 1)).recorder.verifyNow Event.decodeLine
        (failedOnce sampleContent (.write 1)).files = { outcome := .chainBroken }) ∧
    (failedOnce sampleContent .sync).durable.length = 1 ∧
    (failedOnce sampleContent .sync).files.verifyIntegrity Event.decodeLine =
      .error "audit chain integrity check failed" := by
  have hshort := sampleLine_short
  have hnext : Next [] (freshRecorder.next sampleContent) :=
    next_of_chain trivial rfl rfl rfl (Nat.le_of_lt hshort)
  generalize he : freshRecorder.next sampleContent = e at hshort hnext
  obtain ⟨hwritten, -⟩ := failedOnce_write he 1
  obtain ⟨hsynced, hjournal⟩ := failedOnce_sync he
  refine ⟨⟨?_, verifyNow_failedOnce he hshort⟩, ?_, verifyIntegrity_error ?_⟩
  · rw [hwritten, length_singleton]
  · rw [hsynced, length_singleton]
  · rw [hjournal]
    exact verifyBytes_twice hnext

end Regalia.Audit
