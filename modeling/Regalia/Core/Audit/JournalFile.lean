import Regalia.Core.Audit.Recorder
import Regalia.Core.Policy.JournalFile

/-!
# The Audit Journal as Bytes

`JournalDisk` knows the events whose text a journal holds and how its last line
ends. Here the journal is the bytes of the file, as `verifyEvents` scans them:
a write that stops early leaves any number of bytes of its line, and the
recorder's memory and the file go their own ways.

The decoder is a parameter where the file may be someone else's.
`Event.decodeLine` is the one that reads what this code writes.

The collector's streams are scanned by the same function and appended to in
the same way. `StreamFile` is one of them, as far as its file decides.

## Main definitions

* `verifyBytes`: `verifyEvents` on the bytes of a file.
* `JournalFiles`, `JournalFiles.verifyIntegrity`: A journal and its sidecars.
* `FileRecorder`, `openFiles`, `FileRecorder.record`: A recorder on the bytes.
* `FileRecorder.verifyNow`: The periodic verification.
* `Recording.step`: Calls of one recorder, with what they reported durable.
* `Reopened.step`: A journal over several starts.
* `StreamFile`, `loadStreamFile`, `StreamFile.commit`: A stream of the
  collector.
* `Reloaded.step`: A stream over several starts.
-/

namespace Regalia.Audit

/-! ### Reading -/

/-- What the JSON decoder makes of one line, with the errors of
    `verifyEvents`. -/
abbrev LineDecoder := GoString → Except String Event

/-- The decoder on lines that `json.Marshal` wrote, or the beginning of one. -/
def Event.decodeLine : LineDecoder := fun line => Event.decode line.text

/-- `ErrChainRead`, for a line that the scanner's buffer does not hold. -/
def chainRead : String := "audit chain could not be read: bufio.Scanner: token too long"

/-- The loop of `verifyEvents`, after some number of events. -/
def scanEvents (decode : LineDecoder) :
    Literal → Nat → List GoString → Except String (List Event)
  | _, _, [] => .ok []
  | previous, count, line :: rest =>
    if maxLine < line.length + 1 then .error chainRead
    else
      match decode (Policy.dropCR line) with
      | .error err => .error err
      | .ok event =>
        if event.sequence ≠ count + 1 ∨ event.previousHash ≠ previous ∨
            event.hash ≠ eventHash event then
          .error "audit chain integrity check failed"
        else (scanEvents decode event.hash (count + 1) rest).map (event :: ·)

variable (decode : LineDecoder) (f : JournalFiles)

/-- `verifyEvents` on the bytes of a file. -/
def verifyBytes (file : GoString) : Except String (List Event) :=
  scanEvents decode genesisHash 0 (Policy.scanLines file)

/-- The journal's bytes and the sidecars that exist. A missing journal is an
    empty one. -/
structure JournalFiles where
  journal : GoString := []
  highWater : Option HighWaterMark := none
  shipped : Option HighWaterMark := none

/-- The sidecars alone. -/
def JournalFiles.marks : JournalDisk :=
  { highWater := f.highWater, shipped := f.shipped }

/-- The marks against the events of the journal. -/
def JournalFiles.checkMarks (events : List Event) :
    Except String (List Event) :=
  match markMissing f.marks events with
  | some err => .error err
  | none =>
    match markConflict f.marks events with
    | some err => .error err
    | none => .ok events

/-- `VerifyIntegrity`. -/
def JournalFiles.verifyIntegrity :
    Except String (List Event) :=
  match verifyBytes decode f.journal with
  | .error err => .error err
  | .ok events => f.checkMarks events

/-- `Recorder`, with the offset its file is synced through. -/
structure FileRecorder extends Recorder where
  durableOffset : Nat

/-- `Open`, with a sink. -/
def openFiles : Except String FileRecorder :=
  match f.verifyIntegrity decode with
  | .error err => .error err
  | .ok events =>
    let shipped := (readMark f.shipped).sequence
    .ok
      { sequence := (events.getLast?.map Event.sequence).getD 0
        lastHash := (events.getLast?.map Event.hash).getD genesisHash
        pending := events.drop shipped
        shipped := shipped
        durableOffset := f.journal.length }

/-! ### Recording -/

/-- The bytes of an event. -/
def Event.bytes (e : Event) : GoString := GoString.ofRunes e.text

/-- The bytes `Record` appends for an event. -/
def Event.line (e : Event) : GoString := e.bytes ++ [10]

def JournalFiles.append (bytes : GoString) : JournalFiles :=
  { f with journal := f.journal ++ bytes }

/-- What fails in a call: the write, after so many bytes of the line, the
    sync, the mark, or the wait for the collector. -/
inductive WriteFault where
  | write (bytes : Nat)
  | sync
  | mark
  | unacknowledged
  deriving DecidableEq, Repr

/-- What `Record` returns: nothing, an error that is `Durable`, or another. -/
inductive RecordAnswer where
  | done
  | durable (err : String)
  | lost (err : String)
  deriving DecidableEq, Repr

/-- `Record`, of a draft that is valid: append, sync, advance, mark, enqueue.
    Where the append or the sync fails nothing in memory has moved. -/
def FileRecorder.record (r : FileRecorder) (f : JournalFiles) (content : Content)
    (fault : Option WriteFault) : FileRecorder × JournalFiles × RecordAnswer :=
  let event := r.next content
  match fault with
  | some (.write n) => (r, f.append (event.line.take n), .lost "append audit event")
  | some .sync => (r, f.append event.line, .lost "sync audit event")
  | _ =>
    let f := f.append event.line
    let r : FileRecorder :=
      { r with
        sequence := event.sequence
        lastHash := event.hash
        durableOffset := r.durableOffset + event.line.length }
    if fault = some .mark then (r, f, .durable "record audit high-water mark")
    else
      ({ r with pending := r.pending ++ [event] },
        { f with highWater := some ⟨event.sequence, event.hash⟩ },
        if fault = some .unacknowledged then .durable "audit sink unavailable" else .done)

/-- The shipper's head is acknowledged, and its mark written or not. -/
def FileRecorder.acknowledged (r : FileRecorder) (f : JournalFiles) (written : Bool) :
    FileRecorder × JournalFiles :=
  match r.pending with
  | [] => (r, f)
  | head :: rest =>
    ({ r with pending := rest, shipped := head.sequence },
      if written then { f with shipped := some ⟨head.sequence, head.hash⟩ } else f)

/-! ### Periodic verification -/

/-- `VerifyOutcome`. -/
inductive VerifyOutcome where
  | intact
  | chainBroken
  | unreadable
  deriving DecidableEq, Repr

/-- `VerifyState`, without its time. -/
structure VerifyState where
  outcome : VerifyOutcome
  events : Nat := 0
  deriving DecidableEq, Repr

/-- `VerifyNow`: the durable bytes, against the head in memory. -/
def FileRecorder.verifyNow (r : FileRecorder) (f : JournalFiles) :
    VerifyState :=
  match verifyBytes decode (f.journal.take r.durableOffset) with
  | .error err => { outcome := if err = chainRead then .unreadable else .chainBroken }
  | .ok events =>
    if (events.getLast?.map Event.sequence).getD 0 ≠ r.sequence ∨
        (events.getLast?.map Event.hash).getD genesisHash ≠ r.lastHash then
      { outcome := .chainBroken }
    else { outcome := .intact, events := events.length }

/-! ### Runs of a recorder -/

/-- An open journal, with the events that were in it and those whose `Record`
    reported them durable. -/
structure Recording where
  files : JournalFiles
  recorder : FileRecorder
  durable : List Event

inductive RecordMove where
  | record (content : Content) (fault : Option WriteFault)
  | acknowledged (written : Bool)

/-- What a call adds to the events that are reported durable. -/
def RecordAnswer.reported (event : Event) : RecordAnswer → List Event
  | .lost _ => []
  | _ => [event]

def Recording.step (w : Recording) : RecordMove → Recording
  | .record content fault =>
    let result := w.recorder.record w.files content fault
    ⟨result.2.1, result.1, w.durable ++ result.2.2.reported (w.recorder.next content)⟩
  | .acknowledged written =>
    let result := w.recorder.acknowledged w.files written
    { w with recorder := result.1, files := result.2 }

/-- A journal that is opened again and again, with the events that were
    committed meanwhile. -/
structure Reopened where
  files : JournalFiles
  recorder : Option FileRecorder
  committed : List Event := []

inductive ReopenMove where
  | reopen
  | record (content : Content)

def Reopened.step (w : Reopened) : ReopenMove → Reopened
  | .reopen => { w with recorder := (openFiles Event.decodeLine w.files).toOption }
  | .record content =>
    match w.recorder with
    | none => w
    | some r =>
      let result := r.record w.files content none
      ⟨result.2.1, some result.1, w.committed ++ [r.next content]⟩

/-! ### Streams of the collector -/

/-- A stream's file, and the hashes of its events in memory. -/
structure StreamFile where
  file : GoString := []
  hashes : List Literal := []

/-- `loadStream`. -/
def loadStreamFile (file : GoString) : Except String StreamFile :=
  (verifyBytes decode file).map (fun events => ⟨file, events.map Event.hash⟩)

/-- `commit` of an event whose hash binds it, where the append does not fail:
    the stream after it, and whether the event was acknowledged. -/
def StreamFile.commit (s : StreamFile) (e : Event) : StreamFile × Bool :=
  if e.sequence = s.hashes.length + 1 then
    if e.previousHash ≠ s.hashes.getLast?.getD genesisHash then (s, false)
    else (⟨s.file ++ e.line, s.hashes ++ [e.hash]⟩, true)
  else (s, 1 ≤ e.sequence && s.hashes[e.sequence - 1]? = some e.hash)

/-- A stream that is loaded again and again, with the events that were
    appended meanwhile. -/
structure Reloaded where
  file : GoString
  stream : Option StreamFile
  committed : List Event := []

inductive ReloadMove where
  | reload
  | commit (e : Event)

def Reloaded.step (w : Reloaded) : ReloadMove → Reloaded
  | .reload => { w with stream := (loadStreamFile Event.decodeLine w.file).toOption }
  | .commit e =>
    match w.stream with
    | none => w
    | some s =>
      let result := s.commit e
      ⟨result.1.file, some result.1,
        if e.sequence = s.hashes.length + 1 ∧ result.2 = true then w.committed ++ [e]
        else w.committed⟩

end Regalia.Audit
