import Regalia.Core.Policy.Reservation
import Mathlib.Logic.Function.Basic

/-!
# The File-Backed Policy State

`FileState` keeps one journal of committed reservations and, in memory, four
summaries of it: the nonces spent, the totals charged, the last sequence
number of each key and the highest epoch. `Reserve` decides from the
summaries and appends a line; `OpenFileState` rebuilds the summaries from the
lines with `apply`, which does not ask the questions `Reserve` asked.

A run is a list of calls on one journal path by processes that come and go.
A `Reserve` may fail or die at each of its effects: while its line is being
written, with the line in the file, and with the high-water mark replaced.

## Main definitions

* `FileState`: The handle.
* `Disk`: The journal and its high-water mark.
* `FileState.reserve`, `FileState.apply`, `openFileState`: The code.
* `World.step`, `World.run`: Calls on one path.
-/

namespace Regalia.Policy

def stateGenesisHash : GoString :=
  GoString.ofText "sha256:" ++ GoString.ofRunes (List.replicate 64 '0')

structure HighWaterMark where
  sequence : UInt64
  hash : GoString
  deriving DecidableEq

/-- How the journal's last line stands. -/
inductive Tail where
  /-- It ends with its newline. -/
  | whole
  /-- It is an event that lacks its newline. -/
  | unended
  /-- It is the beginning of an event. -/
  | fragment
  /-- It is an event with more text behind it. -/
  | trailing
  deriving DecidableEq, Repr

/-- The two files of a state: the events whose text the journal holds, in
    order, and the mark if there is one. A missing journal is an empty one. -/
structure Disk where
  journal : List StateEvent := []
  tail : Tail := .whole
  mark : Option HighWaterMark := none

/-- How much of a line a write puts in the file. -/
inductive Written where
  | nothing
  | part
  | allButNewline
  | all
  deriving DecidableEq, Repr

variable (s : FileState) (d : Disk) (r : Reservation)

/-- Appending a line to the journal, or as much of it as was written. -/
def Disk.append (e : StateEvent) : Written → Disk
  | .nothing => d
  | .part => { d with tail := if d.tail = .whole then .fragment else .trailing }
  | .allButNewline =>
    { d with journal := d.journal ++ [e],
             tail := if d.tail = .whole then .unended else .trailing }
  | .all =>
    { d with journal := d.journal ++ [e],
             tail := if d.tail = .whole then .whole else .trailing }

/-- `FileState`, its maps as functions: a nonce spent or not, a total that is
    zero where the map has no entry, a last sequence number or none. -/
structure FileState where
  sequence : UInt64 := 0
  lastHash : GoString := stateGenesisHash
  nonces : GoString → Bool := fun _ => false
  totals : GoString → UInt64 := fun _ => 0
  sequences : GoString → Option UInt64 := fun _ => none
  maxEpoch : UInt64 := 0
  closed : Bool := false
  failed : Bool := false

/-! ### Applying a reservation -/

/-- The loop over the amounts: it stops where a total would wrap. -/
def charge (r : Reservation) :
    List (GoString × UInt64) → (GoString → UInt64) → (GoString → UInt64) × Option StateError
  | [], totals => (totals, none)
  | (denom, amount) :: rest, totals =>
    let key := quotaKey r denom
    if maxUint64 - totals key < amount then (totals, some .limit)
    else charge r rest (Function.update totals key (totals key + amount))

/-- `FileState.apply`: the state after it, whether or not it reports an
    error. -/
def FileState.apply : FileState × Option StateError :=
  let s := if s.maxEpoch < r.epoch then { s with maxEpoch := r.epoch } else s
  if s.nonces (nonceKey r) then (s, some .replay)
  else
    match charge r r.amounts.entries s.totals with
    | (totals, some err) => ({ s with totals := totals }, some err)
    | (totals, none) =>
      ({ s with
          totals := totals
          nonces := Function.update s.nonces (nonceKey r) true
          sequences := match r.sequence with
            | some n => Function.update s.sequences r.sequenceKey (some n)
            | none => s.sequences }, none)

/-! ### Reserving -/

/-- What goes wrong in a call, besides what it asks: the context done before
    the lock or after it, a write, a sync or the mark failing, or the process
    dying at one of the effects. -/
inductive Fault where
  | canceled
  | canceledLocked
  | write (written : Written)
  | sync
  | mark
  | diesWriting (written : Written)
  | diesMarked
  deriving DecidableEq, Repr

/-- The end of a call: it returns, or its process is gone. -/
inductive Outcome where
  | returns (err : Option StateError)
  | dies
  deriving DecidableEq, Repr

/-- The loop over the amounts that decides `ErrLimit`. -/
def overLimit : Bool :=
  r.amounts.entries.any (fun e =>
    let cap := r.dailyCaps.get e.1
    cap = 0 || cap < e.2 || cap - e.2 < s.totals (quotaKey r e.1))

/-- The sequence number does not follow the last one under its key. -/
def outOfSequence : Bool :=
  match r.sequence, s.sequences r.sequenceKey with
  | some n, some previous => n ≠ previous + 1
  | _, _ => false

/-- The rules of `Reserve`, in its order. -/
def FileState.refuses : Option StateError :=
  if r.epoch < s.maxEpoch ∨ (r.epoch = 0 ∧ 0 < s.maxEpoch) then some .epoch
  else if s.nonces (nonceKey r) then some .replay
  else if outOfSequence s r then some .sequence
  else if overLimit s r then some .limit
  else none

/-- The event `Reserve` appends. -/
def FileState.nextEvent : StateEvent :=
  let event : StateEvent := ⟨s.sequence + 1, r, s.lastHash, []⟩
  { event with hash := stateEventHash event }

/-- The part of `Reserve` after the rules: append, sync, apply, mark. -/
def FileState.commit (fault : Option Fault) :
    FileState × Disk × Outcome :=
  let event := s.nextEvent r
  match event.encode with
  | none => (s, d, .returns (some (.other "encode policy state")))
  | some _ =>
    match fault with
    | some (.write written) =>
      ({ s with failed := true }, d.append event written,
        .returns (some (.other "append policy state")))
    | some (.diesWriting written) => (s, d.append event written, .dies)
    | some .sync =>
      ({ s with failed := true }, d.append event .all, .returns (some (.other "sync policy state")))
    | _ =>
      let d := d.append event .all
      match s.apply r with
      | (s, some _) => (s, d, .returns (some (.other "apply committed policy state")))
      | (s, none) =>
        let s := { s with sequence := event.sequence, lastHash := event.hash }
        if fault = some .mark then
          ({ s with failed := true }, d,
            .returns (some (.other "record policy state high-water mark")))
        else
          let d := { d with mark := some ⟨event.sequence, event.hash⟩ }
          if fault = some .diesMarked then (s, d, .dies) else (s, d, .returns none)

/-- `FileState.Reserve`. -/
def FileState.reserve (fault : Option Fault) :
    FileState × Disk × Outcome :=
  match validateReservation r with
  | .error err => (s, d, .returns (some err))
  | .ok () =>
    if fault = some .canceled then (s, d, .returns (some (.other "context canceled")))
    else if s.closed then (s, d, .returns (some (.other "policy state unavailable")))
    else if s.failed then (s, d, .returns (some (.other "policy state unavailable")))
    else if fault = some .canceledLocked then (s, d, .returns (some (.other "context canceled")))
    else
      match s.refuses r with
      | some err => (s, d, .returns (some err))
      | none => s.commit d r fault

/-! ### Opening -/

/-- The longest line, newline included, that the scanner takes. -/
def maxLine : Nat := 2 ^ 20

/-- The loop of `readState` over the journal's lines, with the hash and the
    number of the events before. -/
def readEvents : GoString → Nat → List StateEvent → Except StateError (List StateEvent)
  | _, _, [] => .ok []
  | previous, count, line :: rest =>
    let text := line.encode.getD []
    if maxLine < line.bytes.length + 1 then
      .error (.other "read policy state: bufio.Scanner: token too long")
    else
      match StateEvent.decode text with
      | .error err => .error err
      | .ok event =>
        if event.sequence ≠ UInt64.ofNat (count + 1) ∨ event.previousHash ≠ previous ∨
            event.hash ≠ stateEventHash event then
          .error (.other "policy state integrity check failed")
        else
          match validateReservation event.reservation with
          | .error _ => .error (.other "policy state reservation is invalid")
          | .ok () =>
            match readEvents event.hash (count + 1) rest with
            | .error err => .error err
            | .ok events => .ok (event :: events)

/-- `readState`. A last line that is no event is refused whatever stands
    before it. -/
def readState : Except StateError (List StateEvent) :=
  match readEvents stateGenesisHash 0 d.journal with
  | .error err => .error err
  | .ok events =>
    match d.tail with
    | .fragment => .error (.other "policy state contains invalid JSON")
    | .trailing => .error (.other "policy state contains trailing data")
    | _ => .ok events

/-- The loop of `OpenFileState`. -/
def replay : FileState → List StateEvent → Option FileState
  | s, [] => some s
  | s, event :: rest =>
    match s.apply event.reservation with
    | (_, some _) => none
    | (s, none) => replay { s with sequence := event.sequence, lastHash := event.hash } rest

/-- What the file system does to an open, besides the two files' contents. -/
inductive OpenFault where
  | journalUnreadable
  | markUnreadable
  | openFails
  | statFails
  | badMode
  deriving DecidableEq, Repr

/-- `readHighWater`: an absent mark is the genesis mark. -/
def readHighWater : HighWaterMark := d.mark.getD ⟨0, stateGenesisHash⟩

/-- `OpenFileState`, up to the lock. -/
def openFileState (fault : Option OpenFault) : Except StateError FileState :=
  if fault = some .journalUnreadable then .error (.other "policy state is not a regular file")
  else
    match readState d with
    | .error err => .error err
    | .ok events =>
      match replay {} events with
      | none => .error (.other "policy state journal contains an invalid reservation")
      | some s =>
        let mark := readHighWater d
        if fault = some .markUnreadable then .error (.other "read policy state high-water mark")
        else if s.sequence < mark.sequence then
          .error (.other "policy state journal has been truncated")
        else if s.sequence = mark.sequence ∧ mark.hash ≠ stateGenesisHash ∧
            s.lastHash ≠ mark.hash then
          .error (.other "policy state journal does not match its recorded history")
        else if fault = some .openFails then .error (.other "open policy state")
        else if fault = some .statFails then .error (.other "stat policy state")
        else if fault = some .badMode then
          .error (.other
            "policy state must be a regular file with group and other permission bits clear")
        else .ok s

/-! ### Runs -/

/-- One journal path: its files, and the handle that is open on it or was
    closed last. A closed handle answers every call without an effect, so
    only the last one is kept. -/
structure World where
  disk : Disk := {}
  handle : Option FileState := none

/-- A call, or the process ending. -/
inductive Op where
  | openState (fault : Option OpenFault)
  | reserve (r : Reservation) (fault : Option Fault)
  | close
  | kill
  deriving DecidableEq

/-- Whether a handle holds the lock. -/
def World.locked (w : World) : Bool :=
  match w.handle with
  | some s => !s.closed
  | none => false

/-- One call and what it returns. A call without a handle to make it on does
    nothing. -/
def World.step (w : World) : Op → World × Outcome
  | .openState fault =>
    match openFileState w.disk fault with
    | .error err => (w, .returns (some err))
    | .ok s =>
      if w.locked then
        (w, .returns (some (.other "policy state is already open by another process")))
      else ({ w with handle := some s }, .returns none)
  | .reserve r fault =>
    match w.handle with
    | none => (w, .returns none)
    | some s =>
      match s.reserve w.disk r fault with
      | (_, d, .dies) => (⟨d, none⟩, .dies)
      | (s, d, .returns err) => (⟨d, some s⟩, .returns err)
  | .close =>
    match w.handle with
    | none => (w, .returns none)
    | some s => ({ w with handle := some { s with closed := true } }, .returns none)
  | .kill => ({ w with handle := none }, .dies)

/-- The world after a list of calls. -/
def World.run (w : World) (ops : List Op) : World := ops.foldl (fun w op => (w.step op).1) w

/-- The reservations the journal's lines hold, in order. -/
def World.committed (w : World) : List Reservation := w.disk.journal.map StateEvent.reservation

end Regalia.Policy
