import Regalia.Core.Policy.JournalFile
import Regalia.Theory.Policy.Ledger

/-!
# The Bytes Behind a Disk

The journal as bytes does what `Disk` says: every run on the bytes is
followed by a run on a disk with the same handle, so that what holds of the
disk's events holds of the file.

`Stands` says which bytes a disk stands for. Two of its cases carry the
argument. A file that ends inside an event is refused whatever stands before
it, because the beginning of a printed object is no value. A line that holds
an event and the beginning of another is refused too, because the decoder is
left with something after the first. Between the two lies the cut right
before the newline: the file is taken as if the line were whole, and the next
append spoils it.

## Main definitions

* `Stands`: The bytes a disk stands for.
* `Follows`: A run on the disk has the handle and the files of one on bytes.

## Theorems

* `decodeLine_cut`, `decodeLine_trailing`: What the decoder refuses.
* `openFiles_iff`: A file opens as the disk it stands for does.
* `stands_append`: Appending to the file appends to the disk.
* `step_follows`: Every call on the bytes is followed by one on the disk.
-/

namespace Regalia.Policy

open List Option

/-! ### The bytes of an event -/

variable (e : StateEvent) (journal : List StateEvent) (d : Disk) (file : GoString) (f : Files)
  (s : FileState)

/-- An event that has a text prints an object. -/
theorem encode_object (h : e.encode.isSome = true) :
    ∃ fields, e.encode = some (Json.print goQuoting (.obj fields)) ∧
      e.bytes = GoString.ofRunes (Json.print goQuoting (.obj fields)) := by
  rcases isSome_iff_exists.mp h with ⟨text, htext⟩
  rcases map_eq_some_iff.mp htext with ⟨v, hv, rfl⟩
  rcases map_eq_some_iff.mp hv with ⟨t, _, rfl⟩
  exact ⟨_, htext, by rw [StateEvent.bytes, htext]⟩

/-- The line of an event starts with a brace. -/
theorem bytes_brace (h : e.encode.isSome = true) : ∃ rest, e.bytes = 123 :: rest := by
  rcases encode_object e h with ⟨fields, _, hbytes⟩
  rw [hbytes]
  exact ofRunes_object_brace fields

/-- The line of an event holds no control byte. -/
theorem bytes_plain : ∀ b ∈ e.bytes, 0x20 ≤ b.toNat := by
  cases h : e.encode with
  | none =>
    intro b hb
    rw [StateEvent.bytes, h] at hb
    cases hb
  | some text =>
    rcases encode_object e (by rw [h]; rfl) with ⟨fields, _, hbytes⟩
    rw [hbytes]
    exact ofRunes_plain _ (goPrint_plain _)

theorem newline_not_mem_bytes : (10 : UInt8) ∉ e.bytes := by
  intro h
  exact absurd (bytes_plain e 10 h) (by decide)

theorem dropCR_of_plain (line : GoString) (h : ∀ b ∈ line, 0x20 ≤ b.toNat) :
    dropCR line = line := by
  refine if_neg (fun hlast => ?_)
  exact absurd (h 13 (mem_of_getLast? hlast)) (by decide)

/-- A carriage return at a line's end is no brace in it. -/
theorem dropCR_brace (front more : GoString) :
    ∃ more', dropCR (front ++ 123 :: more) = front ++ 123 :: more' := by
  unfold dropCR
  split
  · rename_i hlast
    cases more with
    | nil =>
      rw [getLast?_append] at hlast
      cases hlast
    | cons b more =>
      refine ⟨(b :: more).dropLast, ?_⟩
      rw [dropLast_append_of_ne_nil (cons_ne_nil _ _)]
      rfl
  · exact ⟨more, rfl⟩

/-- The decoder reads the line of an event as its text. -/
theorem decodeLine_bytes (h : e.encode.isSome = true) :
    StateEvent.decodeLine (dropCR e.bytes) = StateEvent.decode (e.encode.getD []) := by
  rcases encode_object e h with ⟨_, htext, hbytes⟩
  rw [dropCR_of_plain _ (bytes_plain e), StateEvent.decodeLine, hbytes, GoString.text_ofRunes,
    htext]
  rfl

/-! ### What the decoder refuses -/

/-- Nothing is decoded from a text whose value leaves something behind it. -/
theorem decode_error_of_rest (text : List Char)
    (h : ∀ v rest, Json.parseValue goQuoting (text.length + 1) text = some (v, rest) →
      Json.skipBlanks rest ≠ []) : ∃ err, StateEvent.decode text = .error err := by
  unfold StateEvent.decode
  split
  · exact ⟨_, rfl⟩
  · rename_i v rest hparse
    split
    · exact ⟨_, rfl⟩
    · rw [if_neg (h v rest hparse)]
      exact ⟨_, rfl⟩

/-- The beginning of an event's line is no event. -/
theorem decodeLine_cut (h : e.encode.isSome = true) (n : Nat) (h0 : 0 < n)
    (hn : n < e.bytes.length) :
    ∃ err, StateEvent.decodeLine (dropCR (e.bytes.take n)) = .error err := by
  rcases encode_object e h with ⟨fields, _, hbytes⟩
  rw [dropCR_of_plain _ (fun b hb => bytes_plain e b (mem_of_mem_take hb))]
  rw [hbytes] at hn ⊢
  exact decode_error_of_rest _ (fun v rest hparse => goPrint_cut fields n h0 hn _ v rest hparse)

/-- A line with an event and the beginning of another is no event. -/
theorem decodeLine_trailing (h : e.encode.isSome = true) (more : GoString) :
    ∃ err, StateEvent.decodeLine (dropCR (e.bytes ++ 123 :: more)) = .error err := by
  rcases encode_object e h with ⟨fields, _, hbytes⟩
  rcases dropCR_brace e.bytes more with ⟨more', hdrop⟩
  rw [hdrop, hbytes]
  exact decode_error_of_rest _ (fun v rest hparse => goPrint_trailing fields more' v rest hparse)

/-! ### Reading a file -/

/-- A line that the decoder refuses spoils the journal. -/
theorem readLines_error (decode : LineDecoder) (bad : GoString)
    (hbad : ∃ err, decode (dropCR bad) = .error err) (lines : List GoString) :
    ∀ (previous : GoString) (count : Nat), bad ∈ lines →
    ∃ err, readLines decode previous count lines = .error err := by
  induction lines with
  | nil =>
    intro previous count h
    cases h
  | cons line rest ih =>
    intro previous count h
    rw [readLines]
    by_cases hlong : maxLine < line.length + 1
    · exact ⟨_, if_pos hlong⟩
    rw [if_neg hlong]
    cases hdec : decode (dropCR line) with
    | error err => exact ⟨err, rfl⟩
    | ok event =>
      simp only
      split
      · exact ⟨_, rfl⟩
      split
      · exact ⟨_, rfl⟩
      · -- the line is not the bad one
        have hmem : bad ∈ rest := by
          rcases mem_cons.mp h with rfl | h
          · rcases hbad with ⟨err, hbad⟩
            rw [hbad] at hdec
            cases hdec
          · exact h
        rcases ih event.hash (count + 1) hmem with ⟨err, herr⟩
        rw [herr]
        exact ⟨err, rfl⟩

/-- The lines of events are read as the events. -/
theorem readLines_bytes :
    ∀ (previous : GoString) (count : Nat), (∀ e ∈ journal, e.encode.isSome = true) →
    readLines StateEvent.decodeLine previous count (journal.map StateEvent.bytes) =
      readEvents previous count journal := by
  induction journal with
  | nil => exact fun _ _ _ => rfl
  | cons e rest ih =>
    intro previous count h
    have hrest := fun p c => ih p c (fun x hx => h x (mem_cons_of_mem _ hx))
    rw [map_cons, readLines, readEvents]
    simp only [decodeLine_bytes e (h e mem_cons_self), hrest]
    all_goals rfl

/-! ### The bytes a disk stands for -/

/-- A disk's journal as bytes. -/
def Stands (d : Disk) (file : GoString) : Prop :=
  match d.tail with
  | .whole => file = joinLines 10 (d.journal.map StateEvent.bytes)
  | .unended => ∃ (before : List StateEvent) (last : StateEvent), d.journal = before ++ [last] ∧
      file = joinLines 10 (before.map StateEvent.bytes) ++ last.bytes
  | .fragment => ∃ (e : StateEvent) (n : Nat), e.encode.isSome = true ∧ 0 < n ∧ n < e.bytes.length ∧
      file = joinLines 10 (d.journal.map StateEvent.bytes) ++ e.bytes.take n
  | .trailing => ∃ before e more rest, d.journal = before ++ e :: more ∧
      file = joinLines 10 (before.map StateEvent.bytes) ++ (e.bytes ++ 123 :: rest)

theorem newline_not_mem_lines : ∀ l ∈ journal.map StateEvent.bytes, (10 : UInt8) ∉ l := by
  intro l hl
  rcases mem_map.mp hl with ⟨e, _, rfl⟩
  exact newline_not_mem_bytes e

theorem scanLines_join (rest : GoString) (hrest : (10 : UInt8) ∉ rest) :
    scanLines (joinLines 10 (journal.map StateEvent.bytes) ++ rest) =
      journal.map StateEvent.bytes ++ if rest = [] then [] else [rest] := by
  simp only [scanLines, splitLines_joinLines 10 _ rest (newline_not_mem_lines journal) hrest]

/-- The line in which a journal goes wrong is one the scanner finds, whatever
    follows it. -/
theorem mem_scanLines_join (line rest : GoString)
    (hline : (10 : UInt8) ∉ line) (hne : line ≠ []) : ∃ more,
    line ++ more ∈ scanLines (joinLines 10 (journal.map StateEvent.bytes) ++ (line ++ rest)) := by
  by_cases hrest : (10 : UInt8) ∈ rest
  · -- the line ends at the first newline behind it
    rcases eq_append_cons_of_mem hrest with ⟨more, after, hsplit, hmore⟩
    have hnot : (10 : UInt8) ∉ line ++ more := by
      rw [mem_append]
      exact fun h => h.elim hline hmore
    refine ⟨more, ?_⟩
    have htext : line ++ rest = (line ++ more) ++ 10 :: after := by
      rw [hsplit, append_assoc]
    simp only [scanLines, htext, splitLines_joinLines_append 10 _ _ (newline_not_mem_lines journal),
      splitLines_line 10 _ after hnot]
    exact mem_append_left _ (mem_append_right _ mem_cons_self)
  · refine ⟨rest, ?_⟩
    have hnot : (10 : UInt8) ∉ line ++ rest := by
      rw [mem_append]
      exact fun h => h.elim hline hrest
    rw [scanLines_join journal _ hnot, if_neg (by simp [hne])]
    exact mem_append_right _ (mem_singleton_self _)

/-- A journal that ends as it should is read as its events. -/
theorem readJournal_ends (h : Stands d file) (hencoded : ∀ e ∈ d.journal, e.encode.isSome = true)
    (htail : d.tail = .whole ∨ d.tail = .unended) :
    readJournal StateEvent.decodeLine file = readState d := by
  have hread : readState d = readEvents stateGenesisHash 0 d.journal := by
    unfold readState
    cases readEvents stateGenesisHash 0 d.journal with
    | error err => rfl
    | ok events => rcases htail with htail | htail <;> rw [htail]
  have hscan : scanLines file = d.journal.map StateEvent.bytes := by
    unfold Stands at h
    rcases htail with htail | htail
    · rw [htail] at h
      have := scanLines_join d.journal [] not_mem_nil
      rw [append_nil, if_pos rfl, append_nil] at this
      rw [h, this]
    · rw [htail] at h
      rcases h with ⟨before, last, hjournal, hfile⟩
      have hlast : last.bytes ≠ [] := by
        rcases bytes_brace last (hencoded last (by rw [hjournal]; simp)) with ⟨rest, hrest⟩
        rw [hrest]
        exact cons_ne_nil _ _
      rw [hfile, scanLines_join before _ (newline_not_mem_bytes last), if_neg hlast, hjournal,
        map_append]
      rfl
  rw [readJournal, hscan, readLines_bytes d.journal _ _ hencoded, hread]

/-- A journal that ends in the middle of something is refused. -/
theorem readJournal_spoilt (h : Stands d file) (hencoded : ∀ e ∈ d.journal, e.encode.isSome = true)
    (htail : d.tail = .fragment ∨ d.tail = .trailing) :
    (∃ err, readJournal StateEvent.decodeLine file = .error err) ∧
      ∃ err, readState d = .error err := by
  have hstate : ∃ err, readState d = .error err := by
    unfold readState
    cases readEvents stateGenesisHash 0 d.journal with
    | error err => exact ⟨err, rfl⟩
    | ok events =>
      rcases htail with htail | htail <;> rw [htail]
      · exact ⟨_, rfl⟩
      · exact ⟨_, rfl⟩
  refine ⟨?_, hstate⟩
  unfold Stands at h
  rcases htail with htail | htail
  · rw [htail] at h
    rcases h with ⟨e, n, he, h0, hn, hfile⟩
    have hline : (10 : UInt8) ∉ e.bytes.take n := fun hc =>
      newline_not_mem_bytes e (mem_of_mem_take hc)
    have hne : e.bytes.take n ≠ [] := by
      intro hc
      have := congrArg List.length hc
      rw [length_take, length_nil] at this
      omega
    refine readLines_error _ _ (decodeLine_cut e he n h0 hn) _ _ _ ?_
    rw [hfile, scanLines_join d.journal _ hline, if_neg hne]
    exact mem_append_right _ (mem_singleton_self _)
  · rw [htail] at h
    rcases h with ⟨before, e, more, rest, hjournal, hfile⟩
    have he := hencoded e (by rw [hjournal]; simp)
    have hline : (10 : UInt8) ∉ e.bytes ++ [123] := by
      rw [mem_append]
      exact fun hc => hc.elim (newline_not_mem_bytes e) (by decide)
    rcases mem_scanLines_join before (e.bytes ++ [123]) rest hline (by simp) with ⟨x, hx⟩
    rw [append_assoc, singleton_append, append_assoc, singleton_append, ← hfile] at hx
    exact readLines_error _ _ (decodeLine_trailing e he x) _ _ _ hx

/-- A file opens as the disk it stands for does. -/
theorem openFiles_iff (fault : Option OpenFault) (s : FileState)
    (h : Stands d f.journal) (hmark : d.mark = f.mark)
    (hencoded : ∀ e ∈ d.journal, e.encode.isSome = true) :
    openFiles StateEvent.decodeLine f fault = .ok s ↔ openFileState d fault = .ok s := by
  have hsame : readJournal StateEvent.decodeLine f.journal = readState d →
      openFiles StateEvent.decodeLine f fault = openFileState d fault := by
    intro hread
    simp only [openFiles, openFileState, readHighWater, hread, hmark]
    all_goals rfl
  have hboth : (∃ err, readJournal StateEvent.decodeLine f.journal = .error err) ∧
      (∃ err, readState d = .error err) →
      (openFiles StateEvent.decodeLine f fault = .ok s ↔ openFileState d fault = .ok s) := by
    rintro ⟨⟨err, herr⟩, err', herr'⟩
    simp only [openFiles, openFileState, herr, herr']
    by_cases hfault : fault = some .journalUnreadable
    · rw [if_pos hfault, if_pos hfault]
    · rw [if_neg hfault, if_neg hfault]
      simp only [reduceCtorEq]
  cases htail : d.tail with
  | whole => rw [hsame (readJournal_ends d f.journal h hencoded (.inl htail))]
  | unended => rw [hsame (readJournal_ends d f.journal h hencoded (.inr htail))]
  | fragment => exact hboth (readJournal_spoilt d f.journal h hencoded (.inl htail))
  | trailing => exact hboth (readJournal_spoilt d f.journal h hencoded (.inr htail))

/-! ### Appending -/

/-- What a write of so many bytes leaves of a line whose text has a length. -/
def cutAt (length n : Nat) : Written :=
  if n = 0 then .nothing else if n < length then .part
  else if n = length then .allButNewline else .all

/-- The first bytes of a line, if there are any, start with the brace. -/
theorem take_line_brace (h : e.encode.isSome = true) (n : Nat) (h0 : 0 < n) :
    ∃ rest, e.line.take n = 123 :: rest := by
  rcases bytes_brace e h with ⟨rest, hrest⟩
  cases n with
  | zero => omega
  | succ n =>
    rw [StateEvent.line, hrest]
    exact ⟨_, rfl⟩

/-- Bytes of another line behind an event that lacks its newline, or behind a
    line that is spoilt already. -/
theorem stands_trailing (d d' : Disk) (file bytes : GoString) (rest : GoString)
    (h : Stands d file) (htail : d.tail = .unended ∨ d.tail = .trailing)
    (htail' : d'.tail = .trailing) (hjournal : ∃ more, d'.journal = d.journal ++ more)
    (hbytes : bytes = 123 :: rest) : Stands d' (file ++ bytes) := by
  rcases hjournal with ⟨extra, hextra⟩
  unfold Stands at h ⊢
  rw [htail']
  rcases htail with htail | htail
  · rw [htail] at h
    rcases h with ⟨before, last, hjournal, hfile⟩
    refine ⟨before, last, extra, rest, ?_, ?_⟩
    · rw [hextra, hjournal, append_assoc, singleton_append]
    · rw [hfile, hbytes, append_assoc]
  · rw [htail] at h
    rcases h with ⟨before, e, more, rest', hjournal, hfile⟩
    refine ⟨before, e, more ++ extra, rest' ++ bytes, ?_, ?_⟩
    · rw [hextra, hjournal, append_assoc, cons_append]
    · rw [hfile]
      simp only [append_assoc, cons_append]

/-- Appending to a file appends to the disk it stands for. -/
theorem stands_append (e : StateEvent) (n : Nat)
    (he : e.encode.isSome = true) (h : Stands d file) (htail : d.tail ≠ .fragment) :
    Stands (d.append e (cutAt e.bytes.length n)) (file ++ e.line.take n) := by
  by_cases h0 : n = 0
  · rw [cutAt, if_pos h0, h0, take_zero, append_nil]
    exact h
  have hpos : 0 < n := Nat.pos_of_ne_zero h0
  rcases take_line_brace e he n hpos with ⟨rest, hrest⟩
  rw [cutAt, if_neg h0]
  by_cases hwhole : d.tail = .whole
  · have hfile : file = joinLines 10 (d.journal.map StateEvent.bytes) := by
      unfold Stands at h
      rw [hwhole] at h
      exact h
    by_cases hlt : n < e.bytes.length
    · rw [if_pos hlt]
      unfold Stands Disk.append
      rw [hwhole]
      refine ⟨e, n, he, hpos, hlt, ?_⟩
      rw [hfile, StateEvent.line, take_append_of_le_length (Nat.le_of_lt hlt)]
    rw [if_neg hlt]
    by_cases heq : n = e.bytes.length
    · rw [if_pos heq]
      unfold Stands Disk.append
      rw [hwhole]
      refine ⟨d.journal, e, rfl, ?_⟩
      rw [hfile, heq, StateEvent.line, take_left]
    · rw [if_neg heq]
      unfold Stands Disk.append
      rw [hwhole]
      change file ++ e.line.take n = joinLines 10 ((d.journal ++ [e]).map StateEvent.bytes)
      have hall : e.line.take n = e.line := by
        refine take_of_length_le ?_
        rw [StateEvent.line, length_append, length_singleton]
        omega
      rw [hall, hfile, map_append, joinLines_append, map_singleton, joinLines_singleton]
      rfl
  · have hend : d.tail = .unended ∨ d.tail = .trailing := by
      cases hd : d.tail with
      | whole => exact absurd hd hwhole
      | unended => exact .inl rfl
      | fragment => exact absurd hd htail
      | trailing => exact .inr rfl
    refine stands_trailing d _ file _ rest h hend ?_ ?_ hrest
    · by_cases hlt : n < e.bytes.length
      · rw [if_pos hlt]
        exact if_neg hwhole
      · rw [if_neg hlt]
        by_cases heq : n = e.bytes.length
        · rw [if_pos heq]
          exact if_neg hwhole
        · rw [if_neg heq]
          exact if_neg hwhole
    · rcases append_journal d e (if n < e.bytes.length then .part
        else if n = e.bytes.length then .allButNewline else .all) with hsame | hmore
      · exact ⟨[], by rw [hsame, append_nil]⟩
      · exact ⟨[e], hmore⟩

/-- The record of written events grows as the disk's journal does. -/
theorem recorded_append (e : StateEvent) (n : Nat) (file : GoString) (he : e.encode.isSome = true) :
    recorded d.journal e file (file ++ e.line.take n) =
      (d.append e (cutAt e.bytes.length n)).journal := by
  rcases bytes_brace e he with ⟨rest, hrest⟩
  have hpos : 0 < e.bytes.length := by rw [hrest, length_cons]; omega
  have hlen : (e.line.take n).length = min n (e.bytes.length + 1) := by
    rw [length_take, StateEvent.line, length_append, length_singleton]
  unfold recorded cutAt
  by_cases h0 : n = 0
  · rw [if_pos h0, h0, take_zero, append_nil]
    rw [if_neg (fun hc => hc.1 rfl)]
    rfl
  rw [if_neg h0]
  by_cases hlt : n < e.bytes.length
  · rw [if_pos hlt, if_neg]
    · rfl
    · rintro ⟨_, hc⟩
      rw [length_append, hlen] at hc
      omega
  · have hgrow : file ≠ file ++ e.line.take n ∧
        file.length + e.bytes.length ≤ (file ++ e.line.take n).length := by
      refine ⟨fun hc => ?_, ?_⟩
      · have := congrArg List.length hc
        rw [length_append, hlen] at this
        omega
      · rw [length_append, hlen]
        omega
    rw [if_neg hlt, if_pos hgrow]
    by_cases heq : n = e.bytes.length
    · rw [if_pos heq]
      rfl
    · rw [if_neg heq]
      rfl

/-! ### Runs -/

/-- The fault as the disk sees it, for a line whose text has a length. -/
def FileFault.over (length : Nat) : FileFault → Fault
  | .canceled => .canceled
  | .canceledLocked => .canceledLocked
  | .write n => .write (cutAt length n)
  | .sync => .sync
  | .mark => .mark
  | .diesWriting n => .diesWriting (cutAt length n)
  | .diesMarked => .diesMarked

/-- The call as the disk sees it. -/
def FileOp.over (w : FileWorld) : FileOp → Op
  | .openState fault => .openState fault
  | .reserve r fault =>
    .reserve r (fault.map (FileFault.over (((w.handle.getD {}).nextEvent r).bytes.length)))
  | .close => .close
  | .kill => .kill

/-- A disk and the files it stands for. -/
structure Stored (d : Disk) (f : Files) : Prop where
  stands : Stands d f.journal
  mark : d.mark = f.mark
  encoded : ∀ e ∈ d.journal, e.encode.isSome = true

/-- A world and the bytes it stands for. A handle that still writes has not
    left a fragment. -/
structure Follows (w : World) (b : FileWorld) : Prop where
  stored : Stored w.disk b.files
  handle : w.handle = b.handle
  written : w.disk.journal = b.written
  unfailed : ∀ s, w.handle = some s → s.failed = false → w.disk.tail ≠ .fragment

theorem stored_append (e : StateEvent) (n : Nat)
    (he : e.encode.isSome = true) (h : Stored d f) (htail : d.tail ≠ .fragment) :
    Stored (d.append e (cutAt e.bytes.length n)) (f.append (e.line.take n)) := by
  have hjournal : ∀ written, ∀ x ∈ (d.append e written).journal, x.encode.isSome = true := by
    intro written
    rcases append_journal d e written with hsame | hmore
    · exact hsame ▸ h.encoded
    · exact hmore ▸ forall_mem_snoc h.encoded he
  refine ⟨stands_append d f.journal e n he h.stands htail, ?_, hjournal _⟩
  cases cutAt e.bytes.length n <;> exact h.mark

/-- The whole line. -/
theorem cutAt_line : cutAt e.bytes.length (e.bytes.length + 1) = .all := by
  rw [cutAt, if_neg (by omega), if_neg (by omega), if_neg (by omega)]

theorem take_line : e.line.take (e.bytes.length + 1) = e.line := by
  refine take_of_length_le ?_
  rw [StateEvent.line, length_append, length_singleton]

theorem append_all_tail (e : StateEvent) : (d.append e .all).tail ≠ .fragment := by
  change (if d.tail = .whole then Tail.whole else .trailing) ≠ .fragment
  split <;> exact nofun

/-- A call on the bytes did what it did on the disk. -/
structure DoesAlike (d : Disk) (f : Files) (e : StateEvent)
    (onFile : FileState × Files × Outcome) (onDisk : FileState × Disk × Outcome) : Prop where
  state : onFile.1 = onDisk.1
  outcome : onFile.2.2 = onDisk.2.2
  stored : Stored onDisk.2.1 onFile.2.1
  recorded : recorded d.journal e f.journal onFile.2.1.journal = onDisk.2.1.journal
  unfailed : onDisk.1.failed = false → onDisk.2.2 ≠ .dies → onDisk.2.1.tail ≠ .fragment

/-- A call without an effect. -/
theorem doesAlike_same (e : StateEvent) (s : FileState) (out : Outcome)
    (h : Stored d f) (htail : s.failed = false → d.tail ≠ .fragment) :
    DoesAlike d f e (s, f, out) (s, d, out) :=
  ⟨rfl, rfl, h, if_neg (fun hc => hc.1 rfl), fun hs _ => htail hs⟩

/-- Committing on the bytes is committing on the disk. -/
theorem commitFiles_alike (d : Disk) (f : Files) (r : Reservation)
    (fault : Option FileFault) (h : Stored d f) (htail : d.tail ≠ .fragment) :
    DoesAlike d f (s.nextEvent r) (s.commitFiles f r fault)
      (s.commit d r (fault.map (FileFault.over (s.nextEvent r).bytes.length))) := by
  cases henc : (s.nextEvent r).encode with
  | none =>
    simp only [FileState.commitFiles, FileState.commit, henc]
    exact doesAlike_same d f _ s _ h (fun _ => htail)
  | some text =>
    have he : (s.nextEvent r).encode.isSome = true := by rw [henc]; rfl
    have hcut := fun n => stored_append d f (s.nextEvent r) n he h htail
    have hrec := fun n => recorded_append d (s.nextEvent r) n f.journal he
    have hline := hcut ((s.nextEvent r).bytes.length + 1)
    have hrecLine := hrec ((s.nextEvent r).bytes.length + 1)
    rw [cutAt_line, take_line] at hline hrecLine
    have hall := append_all_tail d (s.nextEvent r)
    -- every other fault lets the line be written and the reservation applied
    cases happly : s.apply r with
    | mk s₁ err =>
      cases fault with
      | none =>
        simp only [FileState.commitFiles, FileState.commit, henc, happly, map_none]
        cases err with
        | none =>
          exact ⟨rfl, rfl, ⟨hline.stands, rfl, hline.encoded⟩, hrecLine, fun _ _ => hall⟩
        | some err => exact ⟨rfl, rfl, hline, hrecLine, fun _ _ => hall⟩
      | some fault =>
        cases fault with
        | write n =>
          simp only [FileState.commitFiles, FileState.commit, henc, map_some, FileFault.over]
          exact ⟨rfl, rfl, hcut n, hrec n, fun hf => by cases hf⟩
        | diesWriting n =>
          simp only [FileState.commitFiles, FileState.commit, henc, map_some, FileFault.over]
          exact ⟨rfl, rfl, hcut n, hrec n, fun _ hc => absurd rfl hc⟩
        | sync =>
          simp only [FileState.commitFiles, FileState.commit, henc, map_some, FileFault.over]
          exact ⟨rfl, rfl, hline, hrecLine, fun hf => by cases hf⟩
        | _ =>
          simp only [FileState.commitFiles, FileState.commit, henc, happly,
            map_some, FileFault.over]
          cases err with
          | none =>
            first
            | exact ⟨rfl, rfl, hline, hrecLine, fun hf => by cases hf⟩
            | exact ⟨rfl, rfl, ⟨hline.stands, rfl, hline.encoded⟩, hrecLine,
                fun _ _ => hall⟩
          | some err => exact ⟨rfl, rfl, hline, hrecLine, fun _ _ => hall⟩

/-- Reserving on the bytes is reserving on the disk. -/
theorem reserveFiles_alike (d : Disk) (f : Files) (r : Reservation)
    (fault : Option FileFault) (h : Stored d f) (htail : s.failed = false → d.tail ≠ .fragment) :
    DoesAlike d f (s.nextEvent r) (s.reserveFiles f r fault)
      (s.reserve d r (fault.map (FileFault.over (s.nextEvent r).bytes.length))) := by
  have hfault : ∀ length : Nat,
      (fault.map (FileFault.over length) = some .canceled ↔ fault = some .canceled) ∧
      (fault.map (FileFault.over length) = some .canceledLocked ↔
        fault = some .canceledLocked) := by
    intro length
    cases fault with
    | none => exact ⟨⟨nofun, nofun⟩, ⟨nofun, nofun⟩⟩
    | some fault => cases fault <;> simp [FileFault.over]
  unfold FileState.reserveFiles FileState.reserve
  cases validateReservation r with
  | error err => exact doesAlike_same d f _ s _ h htail
  | ok u =>
    simp only [(hfault _).1, (hfault _).2]
    split
    · exact doesAlike_same d f _ s _ h htail
    split
    · exact doesAlike_same d f _ s _ h htail
    split
    · exact doesAlike_same d f _ s _ h htail
    rename_i hfailed
    split
    · exact doesAlike_same d f _ s _ h htail
    cases s.refuses r with
    | some err => exact doesAlike_same d f _ s _ h htail
    | none => exact commitFiles_alike s d f r fault h (htail (by simpa using hfailed))

/-- A journal that is read has a last line that is an event. -/
theorem tail_of_readState (events : List StateEvent) (h : readState d = .ok events) :
    d.tail ≠ .fragment := by
  intro htail
  unfold readState at h
  split at h
  · cases h
  · rw [htail] at h
    cases h

/-- One call on the bytes is followed by the call as the disk sees it. -/
theorem step_follows (w : World) (b : FileWorld) (op : FileOp) (h : Follows w b) :
    Follows (w.step (op.over b)).1 (b.step op).1 := by
  rcases w with ⟨d, handle⟩
  rcases b with ⟨f, handle', written⟩
  rcases h with ⟨hstored, hhandle, hwritten, hunfailed⟩
  simp only at hstored hhandle hwritten hunfailed
  subst hhandle hwritten
  cases op with
  | openState fault =>
    have hiff := fun s => openFiles_iff d f fault s hstored.stands hstored.mark hstored.encoded
    simp only [World.step, FileWorld.step, FileOp.over]
    cases hfile : openFiles StateEvent.decodeLine f fault with
    | error err =>
      cases hdisk : openFileState d fault with
      | error err' => exact ⟨hstored, rfl, rfl, hunfailed⟩
      | ok s =>
        rw [(hiff s).mpr hdisk] at hfile
        cases hfile
    | ok s =>
      rw [(hiff s).mp hfile]
      have hlock : (⟨f, handle, d.journal⟩ : FileWorld).locked = (⟨d, handle⟩ : World).locked := rfl
      simp only [hlock]
      by_cases hlocked : (⟨d, handle⟩ : World).locked = true
      · rw [if_pos hlocked, if_pos hlocked]
        exact ⟨hstored, rfl, rfl, hunfailed⟩
      · rw [if_neg hlocked, if_neg hlocked]
        rcases openFileState_ok d fault s ((hiff s).mp hfile) with ⟨events, hread, _⟩
        exact ⟨hstored, rfl, rfl, fun _ _ _ => tail_of_readState d events hread⟩
  | reserve r fault =>
    cases handle with
    | none => exact ⟨hstored, rfl, rfl, hunfailed⟩
    | some s =>
      have halike := reserveFiles_alike s d f r fault hstored (hunfailed s rfl)
      simp only [World.step, FileWorld.step, FileOp.over, getD_some]
      generalize s.reserveFiles f r fault = onFile at halike
      generalize s.reserve d r _ = onDisk at halike
      rcases onFile with ⟨s', f', out⟩
      rcases onDisk with ⟨s'', d', out'⟩
      rcases halike with ⟨hstate, hout, hstored', hrec, hun⟩
      simp only at hstate hout hstored' hrec hun
      subst hstate hout
      cases out with
      | dies => exact ⟨hstored', rfl, hrec.symm, by simp⟩
      | returns err =>
        refine ⟨hstored', rfl, hrec.symm, ?_⟩
        intro s₁ hs₁ hfailed
        rw [← Option.some.inj hs₁] at hfailed
        exact hun hfailed (by simp)
  | close =>
    cases handle with
    | none => exact ⟨hstored, rfl, rfl, hunfailed⟩
    | some s =>
      refine ⟨hstored, rfl, rfl, ?_⟩
      intro s' hs' hfailed
      rw [← Option.some.inj hs'] at hfailed
      exact hunfailed s rfl hfailed
  | kill => exact ⟨hstored, rfl, rfl, fun _ hs => by cases hs⟩

theorem follows_init : Follows {} {} :=
  ⟨⟨rfl, rfl, nofun⟩, rfl, rfl, nofun⟩

end Regalia.Policy
