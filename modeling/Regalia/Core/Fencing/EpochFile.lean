import Regalia.Core.Fencing.Gate

/-!
# The Epoch Journal as Text

`Gate` knows the records of the epoch journal. Here the journal is the text of
the file, which `verifyEpochJournal` reads as one JSON value after another: a
write that fails leaves any beginning of its line behind, and a sync that fails
leaves the whole of it. All this code writes is ASCII, so that a character is a
byte.

## Main definitions

* `decodeEpochs`, `verifyEpochText`: `verifyEpochJournal` on the text.
* `Standby`: A standby and its files.
* `Standby.evaluate`, `Standby.acquire`, `Standby.ready`: One evaluation, the
  opening of a gate, and the question the daemon asks.
* `Standby.step`: A standby over questions, leases and restarts.
-/

namespace Regalia.Fencing

def EpochRecord.json (r : EpochRecord) : Json Literal :=
  .obj (Policy.field "epoch" (Policy.uint64Json r.epoch) ++
    Policy.field "previous_hash" (Policy.stringJson r.previousHash) ++
    Policy.field "hash" (Policy.stringJson r.hash))

/-- The line of a record. -/
def EpochRecord.line (r : EpochRecord) : List Char := Json.print goQuoting r.json ++ ['\n']

/-- `Decode` into an `epochRecord`. -/
def EpochRecord.ofJson (v : Json Literal) : Option EpochRecord :=
  if ¬ Policy.isStruct v ∨ ¬ Policy.knownFields ["epoch", "previous_hash", "hash"] v then none
  else do
    return {
      epoch := ← Policy.readUint64 (v.get? (Policy.jsonName "epoch"))
      previousHash := ← Policy.readString (v.get? (Policy.jsonName "previous_hash"))
      hash := ← Policy.readString (v.get? (Policy.jsonName "hash")) }

/-- The records a text spells, as many calls of `Decode` as there are. -/
def decodeEpochs : Nat → List Char → Option (List EpochRecord)
  | 0, _ => none
  | fuel + 1, text =>
    if Json.skipBlanks text = [] then some []
    else do
      let read ← Json.parseValue goQuoting (text.length + 1) text
      let record ← EpochRecord.ofJson read.1
      let rest ← decodeEpochs fuel read.2
      return record :: rest

/-- `verifyEpochJournal` on the text of the file. -/
def verifyEpochText (text : List Char) : Option (UInt64 × GoString) :=
  (decodeEpochs (text.length + 1) text).bind verifyEpochJournal

/-- The record `appendEpoch` makes. -/
def EpochRecord.next (previous : GoString) (epoch : UInt64) : EpochRecord :=
  let record : EpochRecord := ⟨epoch, previous, []⟩
  { record with hash := epochHash record }

/-- How an append fails: the write, after so many bytes of the line, or the
    sync. -/
inductive Fault where
  | write (bytes : Nat)
  | sync
  deriving DecidableEq, Repr

/-- A standby, with its lease file, its epoch journal, and the highest epoch and
    last hash of the gate it has opened. `acted` are the epochs under which an
    evaluation found the site ready. -/
structure Standby where
  site : GoString
  registryDigest : GoString
  verifies : Lease → Bool
  leaseFile : Option Lease := none
  journal : List Char := []
  gate : Option (UInt64 × GoString) := none
  acted : List UInt64 := []

/-- The lease in the file, if it is good at an instant. -/
def Standby.lease (s : Standby) (maxEpoch : UInt64) (now : Int) : Option Lease :=
  (readLease s.leaseFile).filter (fun lease =>
    !(lease.site ≠ s.site || lease.registryDigest ≠ s.registryDigest || lease.epoch < maxEpoch) &&
      inWindow lease now && s.verifies lease)

variable (s : Standby)

/-- `evaluateLocked` by a gate with this memory: its memory after it, where the
    site is ready. -/
def Standby.evaluate (memory : UInt64 × GoString) (now : Int) (canceled : Bool)
    (fault : Option Fault) : Standby × Option (UInt64 × GoString) :=
  match if canceled then none else s.lease memory.1 now with
  | none => (s, none)
  | some lease =>
    if memory.1 < lease.epoch then
      let record := EpochRecord.next memory.2 lease.epoch
      match fault with
      | some (.write n) => ({ s with journal := s.journal ++ record.line.take n }, none)
      | some .sync => ({ s with journal := s.journal ++ record.line }, none)
      | none =>
        ({ s with journal := s.journal ++ record.line, acted := lease.epoch :: s.acted },
          some (lease.epoch, record.hash))
    else ({ s with acted := lease.epoch :: s.acted }, some memory)

/-- `Standby.acquire`: a gate is opened on the journal, and stays if the site is
    ready. -/
def Standby.acquire (now : Int) (fault : Option Fault) : Standby :=
  if s.gate.isSome then s
  else
    match verifyEpochText s.journal with
    | none => s
    | some memory =>
      let result := s.evaluate memory now false fault
      { result.1 with gate := result.2 }

/-- One call of `Ready`: the instants and faults of the two evaluations. -/
structure Question where
  opening : Int
  openingFault : Option Fault := none
  now : Int
  canceled : Bool := false
  fault : Option Fault := none

/-- `Standby.Ready`. -/
def Standby.ready (q : Question) : Standby :=
  let s := s.acquire q.opening q.openingFault
  match s.gate with
  | none => s
  | some memory =>
    let result := s.evaluate memory q.now q.canceled q.fault
    { result.1 with gate := some (result.2.getD memory) }

inductive StandbyEvent where
  /-- The lease file is replaced or removed. -/
  | lease (file : Option Lease)
  | ready (q : Question)
  /-- The process starts anew. -/
  | restart

def Standby.step : StandbyEvent → Standby
  | .lease file => { s with leaseFile := file }
  | .ready q => s.ready q
  | .restart => { s with gate := none }

end Regalia.Fencing
