import Regalia.Core.Audit.Collector
import Regalia.Core.Policy.FileState

/-!
# Recording and Shipping

A host's audit recorder with its shipper, and the collector it ships to. The
journal is the queue: `Record` appends an event, replaces the high-water mark
and hands the event to the shipper, which sends the oldest event it has until
the collector acknowledges it.

The collector runs elsewhere, so a sent event travels. It may arrive at any
time after it was sent, more than once or never, and what the collector
answers may reach the host or not. The process may be killed between any two
effects and within the write of a line; the marks are replaced by a rename.
Writes and syncs of the journal do not fail otherwise.

Of the checks the collector makes before it commits, the one that an event of
a recorder can fail is kept: the hash must bind the content. The fields were
validated by the same function when the event was recorded. What `Record`
answers, which changes nothing, is left out.

## Main definitions

* `JournalDisk`: The journal and its two sidecars.
* `JournalDisk.verifyIntegrity`: Whether a journal is intact.
* `Recorder`: A running recorder and its shipper.
* `Host.step`: One step of the host, of the collector or of the way between.
-/

namespace Regalia.Audit

/-- `highWaterMark`, of either sidecar. -/
structure HighWaterMark where
  sequence : Nat
  hash : Literal
  deriving DecidableEq

/-- The events whose text the journal holds, how its last line ends, and the
    sidecars that exist. A missing journal is an empty one. -/
structure JournalDisk where
  journal : List Event := []
  tail : Policy.Tail := .whole
  highWater : Option HighWaterMark := none
  shipped : Option HighWaterMark := none

/-- `readMark`: a missing sidecar is one at genesis. -/
def readMark (sidecar : Option HighWaterMark) : HighWaterMark := sidecar.getD ⟨0, genesisHash⟩

variable (d : JournalDisk) (identity : Identity) (site : String)

/-- Appending a line to the journal, or as much of it as was written. -/
def JournalDisk.append (e : Event) : Policy.Written → JournalDisk
  | .nothing => d
  | .part => { d with tail := if d.tail = .whole then .fragment else .trailing }
  | .allButNewline =>
    { d with journal := d.journal ++ [e],
             tail := if d.tail = .whole then .unended else .trailing }
  | .all =>
    { d with journal := d.journal ++ [e],
             tail := if d.tail = .whole then .whole else .trailing }

/-! ### Opening -/

/-- `Verify`. -/
def JournalDisk.verify : Except String (List Event) :=
  match verifyLines genesisHash 0 (d.journal.map Event.text) with
  | .error err => .error err
  | .ok events =>
    match d.tail with
    | .whole => .ok events
    | .unended => .ok events
    | .fragment => .error "audit chain contains invalid JSON"
    | .trailing => .error "audit event contains trailing data"

/-- The two checks on whether the mark can be where it is. -/
def markMissing (events : List Event) : Option String :=
  if 2 ≤ events.length ∧ d.highWater = none then
    some ("audit journal has " ++ toString events.length ++
      " events but no high-water mark recording a prior position — the write order makes that impossible beyond the first event's crash window, so the tail and the mark were deleted together")
  else if 1 ≤ events.length ∧ d.highWater ≠ none ∧ (readMark d.highWater).sequence = 0 then
    some ("audit journal has " ++ toString events.length ++
      " events but its high-water mark sits at genesis — the only write site never records zero, so the mark was reset to hide how far the journal reached")
  else none

/-- The checks of where a journal ends against its two marks. -/
def markConflict (events : List Event) : Option String :=
  let mark := readMark d.highWater
  let shipped := readMark d.shipped
  let reached := (events.getLast?.map Event.sequence).getD 0
  let reachedHash := (events.getLast?.map Event.hash).getD genesisHash
  if reached < mark.sequence then
    some ("audit journal has been truncated: it ends at sequence " ++ toString reached ++
      " but reached " ++ toString mark.sequence ++ " — events are missing")
  else if reached = mark.sequence ∧ mark.hash ≠ genesisHash ∧ reachedHash ≠ mark.hash then
    some "audit journal does not match its recorded history"
  else if reached < shipped.sequence then
    some ("audit journal is missing events the collector already acknowledged: shipped through sequence " ++
      toString shipped.sequence ++ " but the journal ends at " ++ toString reached)
  else if 0 < shipped.sequence ∧
      (events[shipped.sequence - 1]?).map Event.hash ≠ some shipped.hash then
    some ("audit journal conflicts with the collector-acknowledged event at sequence " ++
      toString shipped.sequence)
  else if mark.sequence < shipped.sequence then
    if d.highWater = none then
      some ("the high-water mark is absent but the collector acknowledged sequence " ++
        toString shipped.sequence ++
        " — the mark is written before any event ships, so this is durability loss or deletion, and the journal cannot be verified against truncation without it")
    else
      some ("collector-acknowledged head (sequence " ++ toString shipped.sequence ++
        ") is ahead of the recorded journal head (sequence " ++ toString mark.sequence ++
        "): one of the audit sidecars was forged")
  else none

/-- `VerifyIntegrity`. -/
def JournalDisk.verifyIntegrity : Except String (List Event) :=
  match d.verify with
  | .error err => .error err
  | .ok events =>
    match markMissing d events with
    | some err => .error err
    | none =>
      match markConflict d events with
      | some err => .error err
      | none => .ok events

/-- `Recorder`, with the `shipper` it started. -/
structure Recorder where
  sequence : Nat
  lastHash : Literal
  pending : List Event
  shipped : Nat

/-- `Open`, with a sink: what lies past the acknowledged event is pending. -/
def openRecorder : Except String Recorder :=
  match d.verifyIntegrity with
  | .error err => .error err
  | .ok events =>
    let shipped := (readMark d.shipped).sequence
    .ok
      { sequence := (events.getLast?.map Event.sequence).getD 0
        lastHash := (events.getLast?.map Event.hash).getD genesisHash
        pending := events.drop shipped
        shipped := shipped }

/-! ### Recording -/

/-- The event `Record` makes of a draft. -/
def Recorder.next (r : Recorder) (content : Content) : Event :=
  let event : Event :=
    { sequence := r.sequence + 1, content := content, previousHash := r.lastHash, hash := [] }
  { event with hash := eventHash event }

/-- What goes wrong in a call: the high-water mark is not written, or the
    process is killed at one of the effects. -/
inductive RecordFault where
  | mark
  | diesWriting (written : Policy.Written)
  | diesMarked
  deriving DecidableEq, Repr

/-- `Record`, of a draft that is valid: append and sync, advance, mark,
    enqueue. Without its mark the event is not enqueued. -/
def Recorder.record (r : Recorder) (d : JournalDisk) (content : Content)
    (fault : Option RecordFault) : Option Recorder × JournalDisk :=
  let event := r.next content
  match fault with
  | some (.diesWriting written) => (none, d.append event written)
  | _ =>
    let d := d.append event .all
    let r := { r with sequence := event.sequence, lastHash := event.hash }
    if fault = some .mark then (some r, d)
    else
      let d := { d with highWater := some ⟨event.sequence, event.hash⟩ }
      if fault = some .diesMarked then (none, d)
      else (some { r with pending := r.pending ++ [event] }, d)

/-! ### Shipping -/

/-- Whether `Send` makes a request of an event. -/
def sendable (e : Event) : Bool := isHash e.hash && byteLength e.text ≤ maxCollectorEventBody

/-- The collector's part: the body is decoded, and the event committed if its
    hash binds it. -/
def Collector.accept (c : Collector) (identity : Identity) (site : String) (body : List Char)
    (fault : Option AppendFault) : Collector × Answer :=
  match Event.decode body with
  | .error err => (c, .refused 400 ("the event body is not an audit event: " ++ err))
  | .ok e =>
    if eventHash e ≠ e.hash then (c, .refused 409 "the event's hash does not bind its content")
    else c.commit identity site e fault

/-- A host and its collector. The requests on the wire stay there, so that one
    may arrive again; `acks` are the answers of 204, each for an event of a
    sequence and a hash. -/
structure Host where
  disk : JournalDisk := {}
  recorder : Option Recorder := none
  wire : List Event := []
  collector : Collector := {}
  acks : List (Nat × Literal) := []

/-- What an answer acknowledges. -/
def acksOf (sequence : Nat) : Answer → List (Nat × Literal)
  | .acknowledged hash => [(sequence, hash)]
  | .refused _ _ => []

inductive HostMove where
  /-- The daemon starts and opens the journal. -/
  | start
  | record (content : Content) (fault : Option RecordFault)
  /-- The shipper sends the oldest pending event. -/
  | send
  /-- A request arrives, and the collector may fail to append. -/
  | deliver (k : Nat) (fault : Option AppendFault)
  /-- The shipper gets the answer to the event it sent; its own mark may not
      be written. -/
  | acknowledged (written : Bool)
  /-- `Close`, which drains nothing, or a kill. -/
  | stop

/-- One step of a host whose stream is the one of an identity and a site. A
    `Send` that fails changes nothing. -/
def Host.step (w : Host) : HostMove → Host
  | .start =>
    match w.recorder with
    | some _ => w
    | none => { w with recorder := (openRecorder w.disk).toOption }
  | .record content fault =>
    match w.recorder with
    | none => w
    | some r =>
      let result := r.record w.disk content fault
      { w with recorder := result.1, disk := result.2 }
  | .send =>
    match w.recorder.bind (fun r => r.pending.head?) with
    | none => w
    | some head => if sendable head then { w with wire := w.wire ++ [head] } else w
  | .deliver k fault =>
    match w.wire[k]? with
    | none => w
    | some e =>
      let result := w.collector.accept identity site e.text fault
      { w with
        collector := result.1
        acks := acksOf e.sequence result.2 ++ w.acks }
  | .acknowledged written =>
    match w.recorder with
    | none => w
    | some r =>
      match r.pending with
      | [] => w
      | head :: rest =>
        if (head.sequence, head.hash) ∈ w.acks then
          { w with
            recorder := some { r with pending := rest, shipped := head.sequence }
            disk := if written then { w.disk with shipped := some ⟨head.sequence, head.hash⟩ }
              else w.disk }
        else w
  | .stop => { w with recorder := none }

/-- The hashes of the stream the collector has for the host. -/
def Host.held (w : Host) : List Literal :=
  (w.collector.obtain identity site).2.hashes

/-- One round of shipping in which nothing fails: the oldest event is sent,
    arrives and is acknowledged. -/
def Host.ship (w : Host) : Host :=
  [HostMove.send, .deliver w.wire.length none, .acknowledged true].foldl (Host.step identity site) w

/-- So many rounds of shipping. -/
def Host.shipFor (identity : Identity) (site : String) : Nat → Host → Host
  | 0, w => w
  | rounds + 1, w => Host.shipFor identity site rounds (w.ship identity site)

end Regalia.Audit
