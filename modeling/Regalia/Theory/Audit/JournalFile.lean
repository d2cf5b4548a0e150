import Regalia.Core.Audit.JournalFile
import Regalia.Theory.Audit.Shipping
import Regalia.Theory.Policy.JournalFile

/-!
# The Bytes of an Audit Journal

What `verifyEvents` makes of a file that an event is appended to, in whole or
in part. A file whose last line is finished takes the next event of its chain,
and the scan gives one event more. Of a line that is cut, the beginning is no
event; all of it but the newline is one, and then nothing can follow.

## Main definitions

* `Next`: The event a chain goes on with, if it comes back from its line.
* `MarksAgree`: What the two marks may say of a journal's events.

## Theorems

* `verifyBytes_append`: A finished file and the next event's line.
* `verifyBytes_cut`, `verifyBytes_unended`, `verifyBytes_trailing`: A line that
  is cut.
* `marks_iff`: What `VerifyIntegrity` asks of the marks.
-/

namespace Regalia.Audit

open List Policy

variable {events : List Event}

/-! ### One line -/

variable (e : Event)

theorem Event.bytes_plain : ∀ b ∈ e.bytes, 0x20 ≤ b.toNat :=
  ofRunes_plain _ (goPrint_plain _)

theorem Event.newline_notMem_bytes : (10 : UInt8) ∉ e.bytes := by
  intro h
  exact absurd (e.bytes_plain 10 h) (by decide)

theorem Event.bytes_brace : ∃ rest, e.bytes = 123 :: rest :=
  ofRunes_object_brace _

theorem Event.bytes_ne_nil : e.bytes ≠ [] := by
  obtain ⟨rest, hrest⟩ := e.bytes_brace
  rw [hrest]
  exact cons_ne_nil _ _

theorem decodeLine_bytes : Event.decodeLine (dropCR e.bytes) = .ok e.decoded := by
  rw [dropCR_of_plain _ e.bytes_plain, Event.decodeLine, Event.bytes, GoString.text_ofRunes,
    decode_text]

/-- Nothing is decoded from a text whose value leaves something behind it. -/
theorem decode_error_of_rest (text : List Char)
    (h : ∀ v rest, Json.parseValue goQuoting (text.length + 1) text = some (v, rest) →
      Json.skipBlanks rest ≠ []) : ∃ err, Event.decode text = .error err := by
  unfold Event.decode
  split
  · exact ⟨_, rfl⟩
  · rename_i v rest hparse
    split
    · exact ⟨_, rfl⟩
    · rw [if_neg (h v rest hparse)]
      exact ⟨_, rfl⟩

/-- The beginning of an event's line is no event. -/
theorem decodeLine_cut {n : Nat} (h0 : 0 < n) (hn : n < e.bytes.length) :
    ∃ err, Event.decodeLine (dropCR (e.bytes.take n)) = .error err := by
  rw [dropCR_of_plain _ (fun b hb => e.bytes_plain b (mem_of_mem_take hb))]
  exact decode_error_of_rest _ (fun v rest hparse => goPrint_cut _ n h0 hn _ v rest hparse)

/-- A line with an event and the beginning of another is no event. -/
theorem decodeLine_trailing (more : GoString) :
    ∃ err, Event.decodeLine (dropCR (e.bytes ++ 123 :: more)) = .error err := by
  obtain ⟨more', hdrop⟩ := dropCR_brace e.bytes more
  rw [hdrop]
  exact decode_error_of_rest _ (fun v rest hparse => goPrint_trailing _ more' v rest hparse)

/-! ### A scan -/

section Scan

variable {events : List Event} {lines : List GoString}

variable {decode : LineDecoder} {previous : Literal} {count : Nat}

theorem map_cons_eq_ok {e : Event} {x : Except String (List Event)} :
    x.map (e :: ·) = .ok events ↔ ∃ rest, x = .ok rest ∧ events = e :: rest := by
  cases x with
  | error err => exact ⟨nofun, nofun⟩
  | ok rest =>
    constructor
    · intro h
      exact ⟨rest, rfl, (Except.ok.inj h).symm⟩
    · rintro ⟨rest', hrest, rfl⟩
      cases hrest
      rfl

/-- One line of a scan that succeeds. -/
theorem scanEvents_cons {line : GoString} :
    scanEvents decode previous count (line :: lines) = .ok events ↔
      ∃ e rest, line.length + 1 ≤ maxLine ∧ decode (dropCR line) = .ok e ∧
        e.sequence = count + 1 ∧ e.previousHash = previous ∧ e.hash = eventHash e ∧
        scanEvents decode e.hash (count + 1) lines = .ok rest ∧ events = e :: rest := by
  rw [scanEvents]
  by_cases hlong : maxLine < line.length + 1
  · rw [if_pos hlong]
    refine ⟨nofun, ?_⟩
    rintro ⟨e, rest, hshort, -⟩
    omega
  rw [if_neg hlong]
  cases hdecode : decode (dropCR line) with
  | error err =>
    refine ⟨nofun, ?_⟩
    rintro ⟨e, rest, -, hok, -⟩
    cases hok
  | ok e =>
    simp only
    by_cases hbad : e.sequence ≠ count + 1 ∨ e.previousHash ≠ previous ∨ e.hash ≠ eventHash e
    · rw [if_pos hbad]
      refine ⟨nofun, ?_⟩
      rintro ⟨e', rest, -, hok, hsequence, hprevious, hhash, -⟩
      cases hok
      rcases hbad with h | h | h
      · exact absurd hsequence h
      · exact absurd hprevious h
      · exact absurd hhash h
    · rw [if_neg hbad, map_cons_eq_ok]
      simp only [not_or, not_not] at hbad
      constructor
      · rintro ⟨rest, hrest, rfl⟩
        exact ⟨e, rest, by omega, rfl, hbad.1, hbad.2.1, hbad.2.2, hrest, rfl⟩
      · rintro ⟨e', rest, -, hok, -, -, -, hrest, rfl⟩
        cases hok
        exact ⟨rest, hrest, rfl⟩

theorem scanEvents_chained (h : scanEvents decode previous count lines = .ok events) :
    Chained previous count events ∧ events.length = lines.length := by
  induction lines generalizing previous count events with
  | nil =>
    cases h
    exact ⟨trivial, rfl⟩
  | cons line lines ih =>
    obtain ⟨e, rest, -, -, hsequence, hprevious, hhash, hrest, rfl⟩ := scanEvents_cons.mp h
    obtain ⟨hchain, hlength⟩ := ih hrest
    exact ⟨⟨hsequence, hprevious, hhash, hchain⟩, congrArg (· + 1) hlength⟩

/-- A scan of more lines goes on where the one before it ended. -/
theorem scanEvents_append {lines more : List GoString} {events later : List Event}
    (h : scanEvents decode previous count lines = .ok events) :
    scanEvents decode previous count (lines ++ more) = .ok (events ++ later) ↔
      scanEvents decode ((events.map Event.hash).getLast?.getD previous) (count + events.length)
        more = .ok later := by
  induction lines generalizing previous count events with
  | nil =>
    cases h
    rfl
  | cons line lines ih =>
    obtain ⟨e, rest, hshort, hdecode, hsequence, hprevious, hhash, hrest, rfl⟩ :=
      scanEvents_cons.mp h
    have hlast : ((e :: rest).map Event.hash).getLast?.getD previous =
        (rest.map Event.hash).getLast?.getD e.hash := by
      rw [map_cons, getLast?_cons, Option.getD_some]
    have hcount : count + (e :: rest).length = count + 1 + rest.length := by
      rw [length_cons]
      omega
    rw [hlast, hcount, ← ih hrest, cons_append, cons_append, scanEvents_cons]
    constructor
    · rintro ⟨e', rest', -, hdecode', -, -, -, hrest', heq⟩
      obtain ⟨rfl, rfl⟩ := List.cons.inj heq
      exact hrest'
    · intro hrest'
      exact ⟨e, rest ++ later, hshort, hdecode, hsequence, hprevious, hhash, hrest', rfl⟩

/-- A line that the decoder refuses spoils the file. -/
theorem scanEvents_error {bad : GoString} (hbad : ∃ err, decode (dropCR bad) = .error err)
    (hmem : bad ∈ lines) : scanEvents decode previous count lines ≠ .ok events := by
  induction lines generalizing previous count events with
  | nil => cases hmem
  | cons line lines ih =>
    intro h
    obtain ⟨e, rest, -, hdecode, -, -, -, hrest, -⟩ := scanEvents_cons.mp h
    rcases mem_cons.mp hmem with rfl | hmem
    · obtain ⟨err, herr⟩ := hbad
      rw [herr] at hdecode
      cases hdecode
    · exact ih hmem hrest

end Scan

/-! ### A file and one line more -/

theorem scanLines_ended {file more : GoString} (h : Ended 10 file) :
    Policy.scanLines (file ++ more) = (splitLines 10 file).1 ++ Policy.scanLines more := by
  simp only [Policy.scanLines, h.splitLines_append, append_assoc]

theorem scanLines_of_ended {file : GoString} (h : Ended 10 file) :
    Policy.scanLines file = (splitLines 10 file).1 := by
  simp only [Policy.scanLines, show (splitLines 10 file).2 = [] from h, if_true, append_nil]

theorem scanLines_line : Policy.scanLines e.line = [e.bytes] := by
  have hsplit := splitLines_line 10 e.bytes [] e.newline_notMem_bytes
  simp only [Policy.scanLines, Event.line, hsplit, splitLines, if_true, append_nil]

theorem scanLines_rest {line : GoString} (h : (10 : UInt8) ∉ line) (hne : line ≠ []) :
    Policy.scanLines line = [line] := by
  simp only [Policy.scanLines, splitLines_rest 10 line h, if_neg hne, nil_append]

theorem Event.ended_line : Ended 10 e.line :=
  ended_iff.mpr (.inr getLast?_concat)

theorem ended_append {file more : GoString} (hfile : Ended 10 file) (hmore : Ended 10 more) :
    Ended 10 (file ++ more) := by
  rw [Ended, hfile.splitLines_append]
  exact hmore

/-- The event a chain goes on with, if it comes back from its line. -/
structure Next (events : List Event) (e : Event) : Prop extends Fits e where
  sequence : e.sequence = events.length + 1
  previous : e.previousHash = (events.map Event.hash).getLast?.getD genesisHash
  binds : e.hash = eventHash e

section Append

variable {file : GoString} {events : List Event} {e : Event}

theorem verifyBytes_chained {decode : LineDecoder} (h : verifyBytes decode file = .ok events) :
    Chained genesisHash 0 events := (scanEvents_chained h).1

theorem scanEvents_next (h : Next events e) :
    scanEvents Event.decodeLine ((events.map Event.hash).getLast?.getD genesisHash)
      (0 + events.length) [e.bytes] = .ok [e] := by
  refine scanEvents_cons.mpr ⟨e, [], h.short, ?_, ?_, h.previous, h.binds, rfl, rfl⟩
  · rw [decodeLine_bytes, h.read]
  · rw [h.sequence, Nat.zero_add]

/-- A file whose last line is finished, and the next event's line. -/
theorem verifyBytes_append (hended : Ended 10 file)
    (hverify : verifyBytes Event.decodeLine file = .ok events) (h : Next events e) :
    verifyBytes Event.decodeLine (file ++ e.line) = .ok (events ++ [e]) := by
  rw [verifyBytes, scanLines_ended hended, scanLines_line]
  rw [verifyBytes, scanLines_of_ended hended] at hverify
  exact (scanEvents_append hverify).mpr (scanEvents_next h)

/-- All of the line but its newline is read like the line. -/
theorem verifyBytes_unended (hended : Ended 10 file)
    (hverify : verifyBytes Event.decodeLine file = .ok events) (h : Next events e) :
    verifyBytes Event.decodeLine (file ++ e.bytes) = .ok (events ++ [e]) := by
  rw [verifyBytes, scanLines_ended hended, scanLines_rest e.newline_notMem_bytes e.bytes_ne_nil]
  rw [verifyBytes, scanLines_of_ended hended] at hverify
  exact (scanEvents_append hverify).mpr (scanEvents_next h)

/-- A part of the line spoils the file. -/
theorem verifyBytes_cut (hended : Ended 10 file) {n : Nat} (h0 : 0 < n) (hn : n < e.bytes.length)
    (later : List Event) : verifyBytes Event.decodeLine (file ++ e.bytes.take n) ≠ .ok later := by
  have hmem : e.bytes.take n ∈ (splitLines 10 file).1 ++ [e.bytes.take n] :=
    mem_append_right _ mem_cons_self
  have hne : e.bytes.take n ≠ [] := by
    obtain ⟨rest, hrest⟩ := e.bytes_brace
    rw [hrest]
    cases n with
    | zero => omega
    | succ n => exact cons_ne_nil _ _
  have hline : (10 : UInt8) ∉ e.bytes.take n :=
    fun hmem => e.newline_notMem_bytes (mem_of_mem_take hmem)
  rw [verifyBytes, scanLines_ended hended, scanLines_rest hline hne]
  exact scanEvents_error (decodeLine_cut e h0 hn) hmem

/-- What follows an event on its line spoils the file. -/
theorem verifyBytes_trailing (hended : Ended 10 file) (e e' : Event) (more : GoString)
    (later : List Event) :
    verifyBytes Event.decodeLine (file ++ e.bytes ++ (e'.line ++ more)) ≠ .ok later := by
  obtain ⟨rest, hrest⟩ := e'.bytes_brace
  have hline : (10 : UInt8) ∉ e.bytes ++ e'.bytes := by
    intro hmem
    rcases mem_append.mp hmem with hmem | hmem
    · exact e.newline_notMem_bytes hmem
    · exact e'.newline_notMem_bytes hmem
  have hfile : file ++ e.bytes ++ (e'.line ++ more) =
      file ++ ((e.bytes ++ e'.bytes) ++ 10 :: more) := by
    rw [Event.line]
    simp only [append_assoc, singleton_append]
  rw [verifyBytes, hfile, scanLines_ended hended]
  have hbad : ∃ err, Event.decodeLine (dropCR (e.bytes ++ e'.bytes)) = .error err := by
    rw [hrest]
    exact decodeLine_trailing e rest
  refine scanEvents_error hbad (mem_append_right _ ?_)
  simp only [Policy.scanLines, splitLines_line 10 _ _ hline]
  exact mem_append_left _ mem_cons_self

end Append

/-! ### The marks -/

/-- What the marks may say of the events of a journal. -/
structure MarksAgree (d : JournalDisk) (events : List Event) : Prop where
  present : d.highWater = none → events.length ≤ 1
  moved : d.highWater ≠ none → events ≠ [] → (readMark d.highWater).sequence ≠ 0
  reached : (readMark d.highWater).sequence ≤ events.length
  recorded : events.length = (readMark d.highWater).sequence →
    (readMark d.highWater).hash ≠ genesisHash →
    (events.getLast?.map Event.hash).getD genesisHash = (readMark d.highWater).hash
  acknowledged : (readMark d.shipped).sequence ≤ events.length
  noted : 0 < (readMark d.shipped).sequence →
    (events[(readMark d.shipped).sequence - 1]?).map Event.hash = some (readMark d.shipped).hash
  ordered : (readMark d.shipped).sequence ≤ (readMark d.highWater).sequence

theorem chained_numbered {previous : Literal} {count : Nat} (h : Chained previous count events) :
    events.map Event.sequence = List.range' (count + 1) events.length := by
  induction events generalizing previous count with
  | nil => rfl
  | cons e rest ih => rw [map_cons, h.1, ih h.2.2.2, length_cons, range'_succ]

theorem numbered_of_chained (h : Chained genesisHash 0 events) :
    Numbered events := chained_numbered h

theorem markMissing_eq_none {d : JournalDisk} :
    markMissing d events = none ↔ (d.highWater = none → events.length ≤ 1) ∧
      (d.highWater ≠ none → events ≠ [] → (readMark d.highWater).sequence ≠ 0) := by
  have hlength : events ≠ [] ↔ 1 ≤ events.length := length_pos_iff.symm
  unfold markMissing
  by_cases hmark : d.highWater = none
  · simp only [hmark, and_true, ne_eq, not_true_eq_false, false_and, and_false, if_false,
      forall_const, false_implies, ite_eq_right_iff, reduceCtorEq, imp_false, Nat.not_le]
    omega
  · simp only [hmark, and_false, if_false, false_implies, true_and, ne_eq, not_false_eq_true,
      forall_const, ite_eq_right_iff, reduceCtorEq, imp_false, not_and, hlength]

theorem markConflict_eq_none {d : JournalDisk} (hnumbered : Numbered events) :
    markConflict d events = none ↔
      ((readMark d.highWater).sequence ≤ events.length ∧
        (events.length = (readMark d.highWater).sequence →
          (readMark d.highWater).hash ≠ genesisHash →
          (events.getLast?.map Event.hash).getD genesisHash = (readMark d.highWater).hash)) ∧
      (readMark d.shipped).sequence ≤ events.length ∧
      (0 < (readMark d.shipped).sequence →
        (events[(readMark d.shipped).sequence - 1]?).map Event.hash =
          some (readMark d.shipped).hash) ∧
      (readMark d.shipped).sequence ≤ (readMark d.highWater).sequence := by
  have hsplit : ∀ (c : Prop) [Decidable c] (err : String) (x : Option String),
      (if c then some err else x) = none ↔ ¬ c ∧ x = none := by
    intro c _ err x
    by_cases hc : c <;> simp [hc]
  have hlast : ∀ a b : String, (if d.highWater = none then some a else some b) ≠ none := by
    intro a b
    split <;> exact nofun
  simp only [markConflict, hnumbered.last, hsplit]
  by_cases hordered : (readMark d.shipped).sequence ≤ (readMark d.highWater).sequence
  · rw [if_neg (Nat.not_lt.mpr hordered)]
    simp only [Nat.not_lt, not_and, not_not, ne_eq, hordered, and_true]
    tauto
  · rw [if_pos (Nat.not_le.mp hordered)]
    simp only [hlast, hordered, and_false]

/-- What `VerifyIntegrity` asks of the marks of a chain of events. -/
theorem marks_iff {d : JournalDisk} (hnumbered : Numbered events) :
    markMissing d events = none ∧ markConflict d events = none ↔ MarksAgree d events := by
  rw [markMissing_eq_none, markConflict_eq_none hnumbered]
  constructor
  · rintro ⟨⟨hpresent, hmoved⟩, ⟨hreached, hrecorded⟩, hacknowledged, hnoted, hordered⟩
    exact ⟨hpresent, hmoved, hreached, hrecorded, hacknowledged, hnoted, hordered⟩
  · intro h
    exact ⟨⟨h.present, h.moved⟩, ⟨h.reached, h.recorded⟩, h.acknowledged, h.noted, h.ordered⟩

theorem verifyIntegrity_eq_ok {decode : LineDecoder} {f : JournalFiles} :
    f.verifyIntegrity decode = .ok events ↔
      verifyBytes decode f.journal = .ok events ∧ MarksAgree f.marks events := by
  unfold JournalFiles.verifyIntegrity
  cases hverify : verifyBytes decode f.journal with
  | error err => exact ⟨nofun, nofun⟩
  | ok found =>
    have hmarks := marks_iff (d := f.marks) (numbered_of_chained (verifyBytes_chained hverify))
    simp only [JournalFiles.checkMarks]
    cases hmissing : markMissing f.marks found with
    | some err =>
      refine ⟨nofun, fun ⟨hsame, hagree⟩ => ?_⟩
      cases hsame
      rw [← hmarks, hmissing] at hagree
      cases hagree.1
    | none =>
      cases hconflict : markConflict f.marks found with
      | some err =>
        refine ⟨nofun, fun ⟨hsame, hagree⟩ => ?_⟩
        cases hsame
        rw [← hmarks, hconflict] at hagree
        cases hagree.2
      | none =>
        constructor
        · intro hok
          cases hok
          exact ⟨rfl, hmarks.mp ⟨hmissing, hconflict⟩⟩
        · rintro ⟨hsame, -⟩
          exact hsame

end Regalia.Audit
