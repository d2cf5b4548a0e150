import Regalia.Theory.Audit.Failures

/-!
# Appends Cut by a Crash

A crash cuts the last append of a journal, or of a stream of the collector, at
any byte. The next start refuses a beginning of a line, and takes the file as it
was before or with the whole line. Between the two lies the cut right before
the newline: the file is taken as if the line were whole, both writers append
behind it, and two events on one line are none.

## Main definitions

* `Reopened.Comes`, `Reloaded.Links`: What is asked of the events that are
  committed later.
* `JournalKept`, `StreamKept`: Later starts read what was read then and what
  was committed since.
* `JournalFiles.Unmarked`: A journal that the next event's start refuses for
  its mark.

## Theorems

* `cut_cases`: What a cut leaves.
* `Reopened.Grown.step`, `Reloaded.Grown.step`: One commit after a good start.
* `cut_append_kept_iff`: When what a start accepted stays accepted.
-/

namespace Regalia.Audit

open List

/-- What is left of a line that was cut: nothing, a part, all but the newline,
    or all of it. -/
theorem cut_cases (e : Event) (k : Nat) :
    e.line.take k = [] ∨ (∃ n, 0 < n ∧ n < e.bytes.length ∧ e.line.take k = e.bytes.take n) ∨
      k = e.bytes.length ∨ e.line.take k = e.line := by
  rcases Nat.eq_zero_or_pos k with rfl | hpos
  · exact .inl rfl
  rcases Nat.lt_trichotomy k e.bytes.length with hlt | heq | hgt
  · refine .inr (.inl ⟨k, hpos, hlt, ?_⟩)
    rw [Event.line, take_append_of_le_length (Nat.le_of_lt hlt)]
  · exact .inr (.inr (.inl heq))
  · refine .inr (.inr (.inr (take_of_length_le ?_)))
    rw [Event.line, length_append]
    exact hgt

theorem take_line_bytes (e : Event) : e.line.take e.bytes.length = e.bytes := take_left

/-- A cut anywhere but right before the newline leaves a file that is refused,
    or one whose last line is finished. -/
theorem ended_of_cut {file : GoString} (hended : Ended 10 file) {e : Event} {k : Nat}
    (hk : k ≠ e.bytes.length) {later : List Event}
    (h : verifyBytes Event.decodeLine (file ++ e.line.take k) = .ok later) :
    Ended 10 (file ++ e.line.take k) := by
  rcases cut_cases e k with hnone | ⟨n, h0, hn, hpart⟩ | heq | hall
  · rw [hnone, append_nil]
    exact hended
  · rw [hpart] at h
    exact absurd h (verifyBytes_cut hended h0 hn later)
  · exact absurd heq hk
  · rw [hall]
    exact ended_append hended e.ended_line

/-! ### The journal -/

/-- A draft that is recorded comes back from its line, and the scanner takes
    the line. -/
def Reopened.Comes (w : Reopened) : ReopenMove → Prop
  | .reopen => True
  | .record content => ∀ r, w.recorder = some r →
    content.decoded = content ∧ (r.next content).line.length ≤ maxLine

/-- The next start after some files are found. -/
def Reopened.start (f : JournalFiles) : Reopened :=
  { files := f, recorder := (openFiles Event.decodeLine f).toOption }

/-- Whatever events a start read from some files, a start after further calls
    reads them and those that were committed. -/
def JournalKept (f : JournalFiles) (moves : List ReopenMove) : Prop :=
  ∀ events, f.verifyIntegrity Event.decodeLine = .ok events →
    let w := moves.foldl Reopened.step (Reopened.start f)
    w.files.verifyIntegrity Event.decodeLine = .ok (events ++ w.committed)

/-- No mark was written, beside a journal that has one event or a sidecar that
    says zero. -/
def JournalFiles.Unmarked (f : JournalFiles) : Prop :=
  (readMark f.highWater).sequence = 0 ∧ (f.highWater ≠ none ∨ f.journal ≠ [])

/-- A journal whose last line is finished, with its recorder in step. -/
structure Reopened.Grown (events : List Event) (w : Reopened) : Prop where
  ended : Ended 10 w.files.journal
  verifies : w.files.verifyIntegrity Event.decodeLine = .ok (events ++ w.committed)
  sequence : ∀ r, w.recorder = some r → r.sequence = (events ++ w.committed).length
  lastHash : ∀ r, w.recorder = some r →
    r.lastHash = ((events ++ w.committed).map Event.hash).getLast?.getD genesisHash

theorem openFiles_memory {f : JournalFiles} {events : List Event} {r : FileRecorder}
    (hevents : f.verifyIntegrity Event.decodeLine = .ok events)
    (hopen : openFiles Event.decodeLine f = .ok r) :
    r.sequence = events.length ∧
      r.lastHash = (events.map Event.hash).getLast?.getD genesisHash := by
  have hchain := verifyBytes_chained (verifyIntegrity_eq_ok.mp hevents).1
  rw [openFiles, hevents] at hopen
  obtain rfl := Except.ok.inj hopen
  exact ⟨(numbered_of_chained hchain).last, by rw [getLast?_map]⟩

theorem toOption_eq_some {α : Type} {x : Except String α} {a : α} :
    x.toOption = some a ↔ x = .ok a := by
  cases x with
  | error err => exact ⟨nofun, nofun⟩
  | ok b => exact ⟨fun h => congrArg _ (Option.some.inj h), fun h => congrArg _ (Except.ok.inj h)⟩

section Journal

variable {moves : List ReopenMove} {f : JournalFiles}

variable {events : List Event}

theorem Reopened.Grown.start (hended : Ended 10 f.journal)
    (hevents : f.verifyIntegrity Event.decodeLine = .ok events) :
    (Reopened.start f).Grown events := by
  refine { ended := hended, verifies := ?_, sequence := ?_, lastHash := ?_ }
  · simp only [Reopened.start, append_nil]
    exact hevents
  · intro r hr
    simp only [Reopened.start, append_nil]
    exact (openFiles_memory hevents (toOption_eq_some.mp hr)).1
  · intro r hr
    simp only [Reopened.start, append_nil]
    exact (openFiles_memory hevents (toOption_eq_some.mp hr)).2

theorem Reopened.Grown.record {w : Reopened} (h : w.Grown events) {r : FileRecorder}
    (hr : w.recorder = some r) {content : Content} (hcontent : content.decoded = content)
    (hshort : (r.next content).line.length ≤ maxLine) :
    (w.step (.record content)).Grown events := by
  obtain ⟨hbytes, hmarks⟩ := verifyIntegrity_eq_ok.mp h.verifies
  have hnext := next_of_chain (verifyBytes_chained hbytes) (h.sequence r hr) (h.lastHash r hr)
    hcontent hshort
  have hstep : w.step (.record content) =
      ⟨{ w.files.append (r.next content).line with
          highWater := some ⟨(r.next content).sequence, (r.next content).hash⟩ },
        some (r.record w.files content none).1, w.committed ++ [r.next content]⟩ := by
    simp only [Reopened.step, hr]
    rfl
  have hall : events ++ (w.committed ++ [r.next content]) =
      events ++ w.committed ++ [r.next content] := (append_assoc _ _ _).symm
  rw [hstep]
  refine { ended := ?_, verifies := ?_, sequence := ?_, lastHash := ?_ }
  · exact ended_append h.ended (r.next content).ended_line
  · rw [hall]
    refine verifyIntegrity_eq_ok.mpr ⟨verifyBytes_append h.ended hbytes hnext, ?_⟩
    refine marksAgree_of_last rfl hnext.sequence ?_
    -- the shipped mark is where it was, inside the events that were there
    rcases Nat.eq_zero_or_pos (readMark w.files.shipped).sequence with hzero | hpos
    · exact .inl hzero
    · refine .inr ?_
      rw [map_append]
      refine Noted.append ⟨hpos, ?_⟩ _
      rw [getElem?_map]
      exact hmarks.noted hpos
  · intro r' hr'
    cases hr'
    rw [hall, length_append, length_singleton, ← h.sequence r hr]
    rfl
  · intro r' hr'
    cases hr'
    rw [hall, map_append, map_singleton, getLast?_concat, Option.getD_some]
    rfl

theorem Reopened.Grown.step (w : Reopened) (move : ReopenMove) (h : w.Grown events)
    (hcomes : w.Comes move) : (w.step move).Grown events := by
  cases move with
  | reopen =>
    refine { h with sequence := ?_, lastHash := ?_ }
    · exact fun r hr => (openFiles_memory h.verifies (toOption_eq_some.mp hr)).1
    · exact fun r hr => (openFiles_memory h.verifies (toOption_eq_some.mp hr)).2
  | record content =>
    rcases hr : w.recorder with _ | r
    · simp only [Reopened.step, hr]
      exact h
    · obtain ⟨hcontent, hshort⟩ := hcomes r hr
      exact h.record hr hcontent hshort

/-- Calls only add to the end of the journal. -/
theorem journal_grows (moves : List ReopenMove) (w : Reopened) :
    ∃ more, (moves.foldl Reopened.step w).files.journal = w.files.journal ++ more := by
  refine run_invariant (P := fun v : Reopened => ∃ more, v.files.journal = w.files.journal ++ more)
    ?_ moves ⟨[], (append_nil _).symm⟩
  rintro v (_ | content) ⟨more, hmore⟩
  · exact ⟨more, hmore⟩
  · rcases hr : v.recorder with _ | r
    · simp only [Reopened.step, hr]
      exact ⟨more, hmore⟩
    · refine ⟨more ++ (r.next content).line, ?_⟩
      simp only [Reopened.step, hr]
      show v.files.journal ++ (r.next content).line = _
      rw [hmore, append_assoc]

/-- The first event that is recorded is right behind what was found. -/
theorem journal_first {r : FileRecorder} (hopen : openFiles Event.decodeLine f = .ok r)
    (hrecords : ∃ content, .record content ∈ moves) :
    ∃ (e : Event) (more : GoString), (moves.foldl Reopened.step (Reopened.start f)).files.journal =
      f.journal ++ (e.line ++ more) := by
  have hstart : Reopened.start f = { files := f, recorder := some r } := by
    rw [Reopened.start, hopen]
    rfl
  induction moves with
  | nil =>
    obtain ⟨content, hmem⟩ := hrecords
    cases hmem
  | cons move rest ih =>
    rw [foldl_cons]
    cases move with
    | reopen =>
      -- nothing has changed, and the start is the same again
      refine ih ?_
      obtain ⟨content, hmem⟩ := hrecords
      rcases mem_cons.mp hmem with heq | hmem
      · cases heq
      · exact ⟨content, hmem⟩
    | record content =>
      obtain ⟨more, hmore⟩ := journal_grows rest ((Reopened.start f).step (.record content))
      refine ⟨r.next content, more, ?_⟩
      rw [hmore, hstart, ← append_assoc]
      rfl

/-- Without a record there is nothing new. -/
theorem journal_unrecorded (hnone : ∀ content, .record content ∉ moves) (w : Reopened) :
    (moves.foldl Reopened.step w).files = w.files ∧
      (moves.foldl Reopened.step w).committed = w.committed := by
  induction moves generalizing w with
  | nil => exact ⟨rfl, rfl⟩
  | cons move rest ih =>
    have hrest := ih (fun content hmem => hnone content (mem_cons_of_mem _ hmem)) (w.step move)
    cases move with
    | reopen => exact hrest
    | record content => exact absurd mem_cons_self (hnone content)

theorem scanLines_eq_nil {file : GoString} : Policy.scanLines file = [] ↔ file = [] := by
  constructor
  · intro h
    obtain ⟨hlines, hrest⟩ := append_eq_nil_iff.mp h
    have hjoin := joinLines_splitLines 10 file
    have hnil : (splitLines 10 file).2 = [] := by
      by_contra hne
      rw [if_neg hne] at hrest
      cases hrest
    rw [hlines, hnil] at hjoin
    exact hjoin.symm
  · rintro rfl
    rfl

/-- The marks of a journal, for one event more. -/
theorem marksAgree_more {e : Event} (hevents : f.verifyIntegrity Event.decodeLine = .ok events) :
    MarksAgree f.marks (events ++ [e]) ↔ ¬ f.Unmarked := by
  obtain ⟨hbytes, hmarks⟩ := verifyIntegrity_eq_ok.mp hevents
  have hlength : (events ++ [e]).length = events.length + 1 := by
    rw [length_append, length_singleton]
  have hempty : f.journal = [] ↔ events.length = 0 := by
    rw [(scanEvents_chained hbytes).2, length_eq_zero_iff, scanLines_eq_nil]
  constructor
  · rintro hagree ⟨hzero, hmarked⟩
    by_cases hnone : f.highWater = none
    · have hpresent := hagree.present hnone
      have hjournal := hempty.not.mp (hmarked.resolve_left (not_not.mpr hnone))
      omega
    · exact hagree.moved hnone (append_ne_nil_of_right_ne_nil _ (cons_ne_nil _ _)) hzero
  · intro hmarked
    have hreached := hmarks.reached
    refine
      { present := ?_, moved := ?_, reached := by omega, recorded := by omega,
        acknowledged := by have := hmarks.acknowledged; omega, noted := ?_,
        ordered := hmarks.ordered }
    · intro hnone
      have hnone : f.highWater = none := hnone
      have hjournal : f.journal = [] := by
        by_contra hne
        refine hmarked ⟨?_, .inr hne⟩
        rw [hnone]
        rfl
      rw [hlength, hempty.mp hjournal]
    · exact fun hsome _ hzero => hmarked ⟨hzero, .inl hsome⟩
    · intro hpos
      have hle := hmarks.acknowledged
      rw [getElem?_append_left (by omega)]
      exact hmarks.noted hpos

/-- After a cut append of the next event, later starts read what the first one
    read and what was committed since, unless the cut was right before the
    newline and something was committed. -/
theorem journalKept_iff {e : Event} {k : Nat}
    (hevents : f.verifyIntegrity Event.decodeLine = .ok events) (hended : Ended 10 f.journal)
    (hnext : Next events e)
    (hcomes : Throughout Reopened.Comes Reopened.step (Reopened.start (f.append (e.line.take k)))
      moves) :
    JournalKept (f.append (e.line.take k)) moves ↔
      k ≠ e.bytes.length ∨ f.Unmarked ∨ ∀ content, .record content ∉ moves := by
  obtain ⟨hbytes, -⟩ := verifyIntegrity_eq_ok.mp hevents
  by_cases hk : k = e.bytes.length
  · subst hk
    simp only [take_line_bytes, ne_eq, not_true_eq_false, false_or]
    -- the cut file is read as the events and one more, if the marks allow it
    have hcut : verifyBytes Event.decodeLine (f.append e.bytes).journal = .ok (events ++ [e]) :=
      verifyBytes_unended hended hbytes hnext
    have hread : ∀ later, (f.append e.bytes).verifyIntegrity Event.decodeLine = .ok later ↔
        later = events ++ [e] ∧ ¬ f.Unmarked := by
      intro later
      rw [verifyIntegrity_eq_ok, hcut, ← marksAgree_more (e := e) hevents]
      constructor
      · rintro ⟨hsame, hagree⟩
        cases hsame
        exact ⟨rfl, hagree⟩
      · rintro ⟨rfl, hagree⟩
        exact ⟨rfl, hagree⟩
    by_cases hmarked : f.Unmarked
    · refine ⟨fun _ => .inl hmarked, fun _ later hlater => ?_⟩
      exact absurd hmarked ((hread later).mp hlater).2
    by_cases hrecords : ∃ content, .record content ∈ moves
    · -- the next line is glued to the one that was cut
      refine ⟨fun hkept => ?_, fun h => ?_⟩
      · have haccepted := (hread _).mpr ⟨rfl, hmarked⟩
        have hopen : ∃ r, openFiles Event.decodeLine (f.append e.bytes) = .ok r := by
          rw [openFiles, haccepted]
          exact ⟨_, rfl⟩
        obtain ⟨r, hopen⟩ := hopen
        obtain ⟨e', more, hjournal⟩ := journal_first hopen hrecords
        have hverify := (verifyIntegrity_eq_ok.mp (hkept _ haccepted)).1
        rw [hjournal] at hverify
        exact absurd hverify (verifyBytes_trailing hended e e' more _)
      · obtain ⟨content, hmem⟩ := hrecords
        exact absurd hmem ((h.resolve_left hmarked) content)
    · rw [not_exists] at hrecords
      refine ⟨fun _ => .inr hrecords, fun _ later hlater => ?_⟩
      obtain ⟨hfiles, hcommitted⟩ := journal_unrecorded hrecords (Reopened.start (f.append e.bytes))
      have hsame : later ++ (Reopened.start (f.append e.bytes)).committed = later :=
        append_nil _
      simp only [hfiles, hcommitted, hsame]
      exact hlater
  · refine ⟨fun _ => .inl hk, fun _ later hlater => ?_⟩
    have hcut := ended_of_cut hended hk (verifyIntegrity_eq_ok.mp hlater).1
    exact (hcomes.invariant Reopened.Grown.step (Reopened.Grown.start hcut hlater)).verifies

end Journal

/-! ### A stream of the collector -/

/-- The bytes and the hashes of a stream. -/
def Stream.onDisk (s : Stream) : StreamFile := ⟨GoString.ofRunes s.file, s.hashes⟩

/-- What `commit` does to the stream under a key, on the bytes. -/
theorem commit_onDisk {c : Collector} {identity : Identity} {site : String} {s : Stream}
    (hfind : c.find identity site = some s) (e : Event) :
    ∃ s', (c.commit identity site e none).1.find identity site = some s' ∧
      s'.onDisk = (s.onDisk.commit e).1 ∧
      ((s.onDisk.commit e).2 = true ↔
        (c.commit identity site e none).2 = .acknowledged e.hash) := by
  have hobtain := obtain_of_find hfind
  have hline : GoString.ofRunes (e.text ++ ['\n']) = e.line := by
    rw [GoString.ofRunes, flatMap_append]
    rfl
  unfold Collector.commit
  simp only [hobtain]
  unfold StreamFile.commit Stream.onDisk
  simp only
  by_cases hnext : e.sequence = s.hashes.length + 1
  · rw [if_pos hnext, if_pos hnext]
    by_cases hprevious : e.previousHash = s.hashes.getLast?.getD genesisHash
    · simp only [hprevious, ne_eq, not_true_eq_false, if_false]
      obtain ⟨-, hidentity, hsite⟩ := find_some hfind
      refine ⟨_, find_replace hfind hidentity hsite, ?_, by simp [Stream.append]⟩
      simp only [Stream.append, GoString.ofRunes, flatMap_append] at hline ⊢
      rw [hline]
    · simp only [hprevious, ne_eq, not_false_eq_true, if_true]
      exact ⟨s, hfind, rfl, by simp⟩
  · rw [if_neg hnext, if_neg hnext]
    by_cases hreplay : s.hashes[e.sequence - 1]? = some e.hash
    · by_cases hpos : 1 ≤ e.sequence
      · have hle := (List.getElem?_eq_some_iff.mp hreplay).1
        rw [if_pos ⟨hpos, by omega⟩, if_pos hreplay]
        exact ⟨s, hfind, rfl, by simp [hpos, hreplay]⟩
      · rw [if_neg (fun h => hpos h.1)]
        exact ⟨s, hfind, rfl, by simp [hpos]⟩
    · rw [if_neg hreplay]
      split
      · exact ⟨s, hfind, rfl, by simp [hreplay]⟩
      · exact ⟨s, hfind, rfl, by simp [hreplay]⟩

/-- An event that is committed is the next link, its hash binds it, and it
    comes back from its line, which the scanner takes. -/
def Reloaded.Links (w : Reloaded) : ReloadMove → Prop
  | .reload => True
  | .commit e => ∀ s, w.stream = some s → Fits e ∧ e.hash = eventHash e ∧
    e.sequence = s.hashes.length + 1 ∧ e.previousHash = s.hashes.getLast?.getD genesisHash

/-- The next start after a file is found. -/
def Reloaded.start (file : GoString) : Reloaded :=
  { file := file, stream := (loadStreamFile Event.decodeLine file).toOption }

/-- Whatever events a start read from a file, a start after further commits
    reads them and those that were committed. -/
def StreamKept (file : GoString) (moves : List ReloadMove) : Prop :=
  ∀ events, verifyBytes Event.decodeLine file = .ok events →
    let w := moves.foldl Reloaded.step (Reloaded.start file)
    verifyBytes Event.decodeLine w.file = .ok (events ++ w.committed)

/-- A stream whose last line is finished, with its hashes in memory. -/
structure Reloaded.Grown (events : List Event) (w : Reloaded) : Prop where
  ended : Ended 10 w.file
  verifies : verifyBytes Event.decodeLine w.file = .ok (events ++ w.committed)
  stream : ∀ s, w.stream = some s →
    s = ⟨w.file, (events ++ w.committed).map Event.hash⟩

section Stream

variable {moves : List ReloadMove} {file : GoString}

variable {events : List Event}

theorem loadStreamFile_eq_ok {s : StreamFile}
    (hevents : verifyBytes Event.decodeLine file = .ok events) :
    loadStreamFile Event.decodeLine file = .ok s ↔ s = ⟨file, events.map Event.hash⟩ := by
  rw [loadStreamFile, hevents]
  exact ⟨fun h => (Except.ok.inj h).symm, fun h => congrArg _ h.symm⟩

theorem Reloaded.Grown.start (hended : Ended 10 file)
    (hevents : verifyBytes Event.decodeLine file = .ok events) :
    (Reloaded.start file).Grown events := by
  refine { ended := hended, verifies := ?_, stream := ?_ }
  · simp only [Reloaded.start, append_nil]
    exact hevents
  · intro s hs
    simp only [Reloaded.start, append_nil]
    exact (loadStreamFile_eq_ok hevents).mp (toOption_eq_some.mp hs)

/-- A commit of the next link appends its line. -/
theorem commit_next {w : Reloaded} {s : StreamFile} (hs : w.stream = some s) {e : Event}
    (hsequence : e.sequence = s.hashes.length + 1)
    (hprevious : e.previousHash = s.hashes.getLast?.getD genesisHash) :
    w.step (.commit e) = ⟨s.file ++ e.line, some ⟨s.file ++ e.line, s.hashes ++ [e.hash]⟩,
      w.committed ++ [e]⟩ := by
  simp only [Reloaded.step, hs, StreamFile.commit, hsequence, hprevious, ne_eq, not_true_eq_false,
    if_true, if_false, and_self]

theorem Reloaded.Grown.step (w : Reloaded) (move : ReloadMove) (h : w.Grown events)
    (hlinks : w.Links move) : (w.step move).Grown events := by
  cases move with
  | reload =>
    exact { h with stream := fun s hs =>
      (loadStreamFile_eq_ok h.verifies).mp (toOption_eq_some.mp hs) }
  | commit e =>
    rcases hs : w.stream with _ | s
    · simp only [Reloaded.step, hs]
      exact h
    · obtain ⟨hfits, hbinds, hsequence, hprevious⟩ := hlinks s hs
      rw [commit_next hs hsequence hprevious]
      obtain rfl := h.stream s hs
      have hnext : Next (events ++ w.committed) e :=
        { hfits with
          sequence := by rw [hsequence, length_map]
          previous := hprevious
          binds := hbinds }
      refine { ended := ?_, verifies := ?_, stream := ?_ }
      · exact ended_append h.ended e.ended_line
      · rw [← append_assoc]
        exact verifyBytes_append h.ended h.verifies hnext
      · intro s' hs'
        cases hs'
        simp only [map_append, map_singleton, append_assoc]

/-- Commits only add to the end of the file. -/
theorem stream_grows (moves : List ReloadMove) (w : Reloaded)
    (hfile : ∀ s, w.stream = some s → s.file = w.file) :
    ∃ more, (moves.foldl Reloaded.step w).file = w.file ++ more := by
  have hrun : ∃ more, (moves.foldl Reloaded.step w).file = w.file ++ more ∧
      ∀ s, (moves.foldl Reloaded.step w).stream = some s →
        s.file = (moves.foldl Reloaded.step w).file := by
    refine run_invariant (P := fun v : Reloaded => ∃ more, v.file = w.file ++ more ∧
      ∀ s, v.stream = some s → s.file = v.file) ?_ moves ⟨[], (append_nil _).symm, hfile⟩
    rintro v (_ | e) ⟨more, hmore, hsame⟩
    · refine ⟨more, hmore, fun s hs => ?_⟩
      have hload := toOption_eq_some.mp hs
      rw [loadStreamFile] at hload
      rcases hverify : verifyBytes Event.decodeLine v.file with err | found
      · rw [hverify] at hload
        cases hload
      · rw [hverify] at hload
        rw [← Except.ok.inj hload]
        rfl
    · rcases hs : v.stream with _ | s
      · simp only [Reloaded.step, hs]
        exact ⟨more, hmore, fun s hs' => nomatch hs'⟩
      · have hcommit : (s.commit e).1.file = s.file ∨ (s.commit e).1.file = s.file ++ e.line := by
          unfold StreamFile.commit
          split_ifs
          · exact .inl rfl
          · exact .inr rfl
          · exact .inl rfl
        have hstep : (v.step (.commit e)).file = (s.commit e).1.file ∧
            (v.step (.commit e)).stream = some (s.commit e).1 := by
          simp only [Reloaded.step, hs, and_self]
        have hstream : ∀ s', (v.step (.commit e)).stream = some s' →
            s'.file = (v.step (.commit e)).file := by
          intro s' hs'
          rw [hstep.2] at hs'
          rw [hstep.1, ← Option.some.inj hs']
        rcases hcommit with hcommit | hcommit
        · exact ⟨more, by rw [hstep.1, hcommit, hsame s hs, hmore], hstream⟩
        · refine ⟨more ++ e.line, ?_, hstream⟩
          rw [hstep.1, hcommit, hsame s hs, hmore, append_assoc]
  obtain ⟨more, hmore, -⟩ := hrun
  exact ⟨more, hmore⟩

/-- The first event that is committed is right behind what was found. -/
theorem stream_first (hevents : verifyBytes Event.decodeLine file = .ok events)
    (hlinks : Throughout Reloaded.Links Reloaded.step (Reloaded.start file) moves)
    (hcommits : ∃ e, .commit e ∈ moves) :
    ∃ (e : Event) (more : GoString), (moves.foldl Reloaded.step (Reloaded.start file)).file =
      file ++ (e.line ++ more) := by
  have hstart : (Reloaded.start file).stream = some ⟨file, events.map Event.hash⟩ :=
    toOption_eq_some.mpr ((loadStreamFile_eq_ok hevents).mpr rfl)
  induction moves with
  | nil =>
    obtain ⟨e, hmem⟩ := hcommits
    cases hmem
  | cons move rest ih =>
    rw [foldl_cons]
    cases move with
    | reload =>
      refine ih hlinks.2 ?_
      obtain ⟨e, hmem⟩ := hcommits
      rcases mem_cons.mp hmem with heq | hmem
      · cases heq
      · exact ⟨e, hmem⟩
    | commit e =>
      obtain ⟨-, -, hsequence, hprevious⟩ := hlinks.1 _ hstart
      have hstep := commit_next hstart hsequence hprevious
      obtain ⟨more, hmore⟩ := stream_grows rest ((Reloaded.start file).step (.commit e)) (by
        rw [hstep]
        intro s hs
        cases hs
        rfl)
      refine ⟨e, more, ?_⟩
      rw [hmore, hstep, append_assoc]

/-- Without a commit there is nothing new. -/
theorem stream_uncommitted (hnone : ∀ e, .commit e ∉ moves) (w : Reloaded) :
    (moves.foldl Reloaded.step w).file = w.file ∧
      (moves.foldl Reloaded.step w).committed = w.committed := by
  induction moves generalizing w with
  | nil => exact ⟨rfl, rfl⟩
  | cons move rest ih =>
    have hrest := ih (fun e hmem => hnone e (mem_cons_of_mem _ hmem)) (w.step move)
    cases move with
    | reload => exact hrest
    | commit e => exact absurd mem_cons_self (hnone e)

theorem streamKept_iff {e : Event} {k : Nat}
    (hevents : verifyBytes Event.decodeLine file = .ok events) (hended : Ended 10 file)
    (hnext : Next events e)
    (hlinks : Throughout Reloaded.Links Reloaded.step (Reloaded.start (file ++ e.line.take k))
      moves) :
    StreamKept (file ++ e.line.take k) moves ↔ k ≠ e.bytes.length ∨ ∀ e', .commit e' ∉ moves := by
  by_cases hk : k = e.bytes.length
  · subst hk
    simp only [take_line_bytes, ne_eq, not_true_eq_false, false_or] at hlinks ⊢
    have hcut := verifyBytes_unended hended hevents hnext
    by_cases hcommits : ∃ e', .commit e' ∈ moves
    · refine ⟨fun hkept => ?_, fun h => ?_⟩
      · obtain ⟨e', more, hfile⟩ := stream_first hcut hlinks hcommits
        have hverify := hkept _ hcut
        simp only [hfile] at hverify
        exact absurd hverify (verifyBytes_trailing hended e e' more _)
      · obtain ⟨e', hmem⟩ := hcommits
        exact absurd hmem (h e')
    · rw [not_exists] at hcommits
      refine ⟨fun _ => hcommits, fun _ later hlater => ?_⟩
      obtain ⟨hfile, hcommitted⟩ := stream_uncommitted hcommits (Reloaded.start (file ++ e.bytes))
      have hsame : later ++ (Reloaded.start (file ++ e.bytes)).committed = later :=
        append_nil _
      simp only [hfile, hcommitted, hsame]
      exact hlater
  · refine ⟨fun _ => .inl hk, fun _ later hlater => ?_⟩
    have hcut := ended_of_cut hended hk hlater
    exact (hlinks.invariant Reloaded.Grown.step (Reloaded.Grown.start hcut hlater)).verifies

end Stream

/-- For every cut of the next append, of a journal that a start accepted and of
    a stream: later starts read what the first start after the cut read and
    what was committed since, unless the cut was right before the newline, the
    start did not refuse the journal for its mark, and something was
    committed. -/
theorem cut_append_kept_iff (k : Nat) :
    (∀ (f : JournalFiles) (events : List Event) (r : FileRecorder) (content : Content)
      (moves : List ReopenMove), f.verifyIntegrity Event.decodeLine = .ok events →
      openFiles Event.decodeLine f = .ok r →
      (f.journal = [] ∨ f.journal.getLast? = some 10) → content.decoded = content →
      (r.next content).line.length ≤ maxLine → Throughout Reopened.Comes Reopened.step
        (Reopened.start (f.append ((r.next content).line.take k))) moves →
      (JournalKept (f.append ((r.next content).line.take k)) moves ↔
        k ≠ (r.next content).bytes.length ∨ f.Unmarked ∨ ∀ content', .record content' ∉ moves)) ∧
    ∀ (file : GoString) (events : List Event) (e : Event) (moves : List ReloadMove),
      verifyBytes Event.decodeLine file = .ok events →
      (file = [] ∨ file.getLast? = some 10) → Next events e →
      Throughout Reloaded.Links Reloaded.step (Reloaded.start (file ++ e.line.take k)) moves →
      (StreamKept (file ++ e.line.take k) moves ↔
        k ≠ e.bytes.length ∨ ∀ e', .commit e' ∉ moves) := by
  constructor
  · intro f events r content moves hevents hopen hended hcontent hshort hcomes
    obtain ⟨hsequence, hlast⟩ := openFiles_memory hevents hopen
    have hchain := verifyBytes_chained (verifyIntegrity_eq_ok.mp hevents).1
    exact journalKept_iff hevents (ended_iff.mpr hended)
      (next_of_chain hchain hsequence hlast hcontent hshort) hcomes
  · intro file events e moves hevents hended hnext hlinks
    exact streamKept_iff hevents (ended_iff.mpr hended) hnext hlinks

/-- The first event of a journal is cut right before its newline, the next
    start accepts it, another event is recorded, and no start accepts the
    journal again. -/
theorem cut_newline_refused :
    let cut : JournalFiles := { journal := (freshRecorder.next sampleContent).bytes }
    let w := [ReopenMove.record sampleContent].foldl Reopened.step (Reopened.start cut)
    cut.verifyIntegrity Event.decodeLine = .ok [freshRecorder.next sampleContent] ∧
    w.committed.length = 1 ∧
    ∀ events, w.files.verifyIntegrity Event.decodeLine ≠ .ok events := by
  have hnext : Next [] (freshRecorder.next sampleContent) :=
    next_of_chain trivial rfl rfl rfl (Nat.le_of_lt sampleLine_short)
  generalize freshRecorder.next sampleContent = e at hnext
  have hempty : Ended 10 ([] : GoString) := rfl
  have haccepted : JournalFiles.verifyIntegrity Event.decodeLine { journal := e.bytes } = .ok [e] :=
    verifyIntegrity_eq_ok.mpr ⟨verifyBytes_unended hempty rfl hnext,
      (marksAgree_more (f := {}) rfl).mpr (fun h => h.2.elim (· rfl) (· rfl))⟩
  have hopen : ∃ r, openFiles Event.decodeLine { journal := e.bytes } = .ok r := by
    rw [openFiles, haccepted]
    exact ⟨_, rfl⟩
  obtain ⟨r, hopen⟩ := hopen
  refine ⟨haccepted, ?_, fun events hevents => ?_⟩
  · simp only [foldl_cons, foldl_nil, Reopened.start, hopen]
    rfl
  · obtain ⟨e', more, hjournal⟩ := journal_first hopen ⟨sampleContent, mem_cons_self⟩
    have hverify := (verifyIntegrity_eq_ok.mp hevents).1
    rw [hjournal] at hverify
    exact verifyBytes_trailing hempty e e' more events hverify

end Regalia.Audit
