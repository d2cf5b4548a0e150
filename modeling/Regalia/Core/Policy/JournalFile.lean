import Regalia.Core.Policy.FileState
import Regalia.Data.JsonCut
import Regalia.Data.Lines

/-!
# The Journal as Bytes

`Disk` knows four ways in which a journal's last line may stand, and asks no
question about where a write was cut. Here the journal is the bytes of the
file: an append that stops early leaves any number of bytes of its line, and
`readState` cuts whatever it finds into lines and decodes each.

The decoder is a parameter where the file may be someone else's: what
`encoding/json` makes of a text no encoder writes is a question of its own.
`StateEvent.decodeLine` is the one that reads what this code writes.

## Main definitions

* `Files`: The journal's bytes and the mark.
* `scanLines`, `readLines`: The scanner and the loop of `readState`.
* `openFiles`: `OpenFileState` on the bytes.
* `FileState.commitFiles`, `FileState.reserveFiles`: `Reserve` on the bytes.
* `FileWorld.step`, `FileWorld.run`: Calls on one path.
-/

namespace Regalia.Policy

/-- The two files of a state. A missing journal is an empty one. -/
structure Files where
  journal : GoString := []
  mark : Option HighWaterMark := none

/-! ### Reading -/

/-- What `bufio.ScanLines` makes of a line: a carriage return before the
    newline is no part of it. -/
def dropCR (line : GoString) : GoString :=
  if line.getLast? = some 13 then line.dropLast else line

/-- The lines the scanner finds. A last line without its newline is one too,
    unless it is empty. -/
def scanLines (file : GoString) : List GoString :=
  let (lines, rest) := splitLines 10 file
  lines ++ if rest = [] then [] else [rest]

/-- What the JSON decoder makes of one line, with the errors of `readState`. -/
abbrev LineDecoder := GoString → Except StateError StateEvent

/-- The decoder on lines that `json.Marshal` wrote, or the beginning of one. -/
def StateEvent.decodeLine : LineDecoder := fun line => StateEvent.decode line.text

/-- The loop of `readState`, with the hash and the number of the events
    before. The scanner's buffer has to hold a line and its newline. -/
def readLines (decode : LineDecoder) :
    GoString → Nat → List GoString → Except StateError (List StateEvent)
  | _, _, [] => .ok []
  | previous, count, line :: rest =>
    if maxLine < line.length + 1 then
      .error (.other "read policy state: bufio.Scanner: token too long")
    else
      match decode (dropCR line) with
      | .error err => .error err
      | .ok event =>
        if event.sequence ≠ UInt64.ofNat (count + 1) ∨ event.previousHash ≠ previous ∨
            event.hash ≠ stateEventHash event then
          .error (.other "policy state integrity check failed")
        else
          match validateReservation event.reservation with
          | .error _ => .error (.other "policy state reservation is invalid")
          | .ok () =>
            match readLines decode event.hash (count + 1) rest with
            | .error err => .error err
            | .ok events => .ok (event :: events)

/-- `readState` on the bytes of a journal. -/
def readJournal (decode : LineDecoder) (file : GoString) : Except StateError (List StateEvent) :=
  readLines decode stateGenesisHash 0 (scanLines file)

/-- `OpenFileState`, up to the lock. -/
def openFiles (decode : LineDecoder) (f : Files) (fault : Option OpenFault) :
    Except StateError FileState :=
  if fault = some .journalUnreadable then .error (.other "policy state is not a regular file")
  else
    match readJournal decode f.journal with
    | .error err => .error err
    | .ok events =>
      match replay {} events with
      | none => .error (.other "policy state journal contains an invalid reservation")
      | some s =>
        let mark := f.mark.getD ⟨0, stateGenesisHash⟩
        if fault = some .markUnreadable then .error (.other "read policy state high-water mark")
        else if s.sequence < mark.sequence then
          .error (.other "policy state journal has been truncated")
        else if s.sequence = mark.sequence ∧ mark.hash ≠ stateGenesisHash ∧
            s.lastHash ≠ mark.hash then
          .error (.other "policy state journal does not match its recorded history")
        else if fault = some .openFails then .error (.other "open policy state")
        else if fault = some .statFails then .error (.other "stat policy state")
        else if fault = some .badMode then
          .error (.other
            "policy state must be a regular file with group and other permission bits clear")
        else .ok s

/-! ### Writing -/

/-- What goes wrong in a call: as for `Fault`, with the number of bytes of
    the line that a write left in the file. -/
inductive FileFault where
  | canceled
  | canceledLocked
  | write (bytes : Nat)
  | sync
  | mark
  | diesWriting (bytes : Nat)
  | diesMarked
  deriving DecidableEq, Repr

/-- The bytes `Reserve` appends for an event. -/
def StateEvent.line (e : StateEvent) : GoString := e.bytes ++ [10]

/-- Appending to the journal. -/
def Files.append (f : Files) (bytes : GoString) : Files :=
  { f with journal := f.journal ++ bytes }

/-- The part of `Reserve` after the rules: append, sync, apply, mark. -/
def FileState.commitFiles (s : FileState) (f : Files) (r : Reservation)
    (fault : Option FileFault) : FileState × Files × Outcome :=
  let event := s.nextEvent r
  match event.encode with
  | none => (s, f, .returns (some (.other "encode policy state")))
  | some _ =>
    match fault with
    | some (.write n) =>
      ({ s with failed := true }, f.append (event.line.take n),
        .returns (some (.other "append policy state")))
    | some (.diesWriting n) => (s, f.append (event.line.take n), .dies)
    | some .sync =>
      ({ s with failed := true }, f.append event.line, .returns (some (.other "sync policy state")))
    | _ =>
      let f := f.append event.line
      match s.apply r with
      | (s, some _) => (s, f, .returns (some (.other "apply committed policy state")))
      | (s, none) =>
        let s := { s with sequence := event.sequence, lastHash := event.hash }
        if fault = some .mark then
          ({ s with failed := true }, f,
            .returns (some (.other "record policy state high-water mark")))
        else
          let f := { f with mark := some ⟨event.sequence, event.hash⟩ }
          if fault = some .diesMarked then (s, f, .dies) else (s, f, .returns none)

/-- `FileState.Reserve`. -/
def FileState.reserveFiles (s : FileState) (f : Files) (r : Reservation)
    (fault : Option FileFault) : FileState × Files × Outcome :=
  match validateReservation r with
  | .error err => (s, f, .returns (some err))
  | .ok () =>
    if fault = some .canceled then (s, f, .returns (some (.other "context canceled")))
    else if s.closed then (s, f, .returns (some (.other "policy state unavailable")))
    else if s.failed then (s, f, .returns (some (.other "policy state unavailable")))
    else if fault = some .canceledLocked then (s, f, .returns (some (.other "context canceled")))
    else
      match s.refuses r with
      | some err => (s, f, .returns (some err))
      | none => s.commitFiles f r fault

/-! ### Runs -/

/-- One journal path, as in `World`, and a record of the events whose text
    was written out to its last byte. -/
structure FileWorld where
  files : Files := {}
  handle : Option FileState := none
  written : List StateEvent := []

inductive FileOp where
  | openState (fault : Option OpenFault)
  | reserve (r : Reservation) (fault : Option FileFault)
  | close
  | kill
  deriving DecidableEq

def FileWorld.locked (w : FileWorld) : Bool :=
  match w.handle with
  | some s => !s.closed
  | none => false

/-- The record after a write: the event is in it if the journal grew by its
    text at least. -/
def recorded (written : List StateEvent) (e : StateEvent) (before after : GoString) :
    List StateEvent :=
  if before ≠ after ∧ before.length + e.bytes.length ≤ after.length then written ++ [e]
  else written

/-- One call and what it returns. -/
def FileWorld.step (w : FileWorld) : FileOp → FileWorld × Outcome
  | .openState fault =>
    match openFiles StateEvent.decodeLine w.files fault with
    | .error err => (w, .returns (some err))
    | .ok s =>
      if w.locked then
        (w, .returns (some (.other "policy state is already open by another process")))
      else ({ w with handle := some s }, .returns none)
  | .reserve r fault =>
    match w.handle with
    | none => (w, .returns none)
    | some s =>
      match s.reserveFiles w.files r fault with
      | (_, f, .dies) =>
        (⟨f, none, recorded w.written (s.nextEvent r) w.files.journal f.journal⟩, .dies)
      | (s', f, .returns err) =>
        (⟨f, some s', recorded w.written (s.nextEvent r) w.files.journal f.journal⟩, .returns err)
  | .close =>
    match w.handle with
    | none => (w, .returns none)
    | some s => ({ w with handle := some { s with closed := true } }, .returns none)
  | .kill => ({ w with handle := none }, .dies)

/-- The world after a list of calls. -/
def FileWorld.run (w : FileWorld) (ops : List FileOp) : FileWorld :=
  ops.foldl (fun w op => (w.step op).1) w

end Regalia.Policy
