import Regalia.Core.Heartbeat.Freshness
import Regalia.Core.Lease.Runtime

/-!
# The Holder of a Lease

`deploy/baremetal/lease.py`, `Holder`: the running node's side. It asks peers
for leases, each request with a nonce of its own, and keeps one lease. What it
holds, the nonces it has out and its time floor are in one file, which every
method reads, decides on and replaces, under a lock.

The file is known by its size and what parses of it, as a peer's freshness
state is. The methods are programs with a trace, whose one effect is that the
file is replaced, by a rename; where the disk fails it is not.

## Main definitions

* `HolderState`, `readState`, `written`, `write`: The file and what it holds.
* `request`, `install`, `check`: The three methods.
* `Held`, `Held.step`: A holder over any number of calls.
-/

namespace Regalia.Lease

open Regalia.Membership
open Regalia.Heartbeat (Floor Raw Reading Setup authenticatedNow floorOf floorValue
  floorValue_ordered load maxDepth maxDigits readable)

/-- `MAX_OUTSTANDING`. -/
def maxOutstanding : Nat := 4

/-- `MAX_BYTES`. -/
def maxBytes : Nat := 16 * 1024

/-- `Holder`: what it is made with. -/
structure Holder where
  nodeId : String
  sessionId : String
  /-- The comparison of a reading with the floor. -/
  setup : Setup
  /-- `openssl dgst -verify`. -/
  signs : Attest.Bytes → Attest.Bytes → Attest.Bytes → Bool

structure HolderState where
  envelope : Document
  floor : Option Floor
  nonces : List String

/-! ### The file -/

theorem ordered_field (d : Document) (k : String) : (field d k).Ordered := Ordered.field d.2 k

/-- `_read`. -/
def readState : Option Raw → Check HolderState
  | none => .ok ⟨⟨.null, trivial⟩, none, []⟩
  | some raw => do
    require (raw.size ≤ maxBytes) "the lease state is oversized" []
    let state ← load raw
    Python.exact state ["envelope", "floor", "nonces"] "lease state"
    let floor ← floorOf (field state "floor")
    let nonces ← demand ((asList (field state "nonces")).filter (·.length ≤ maxOutstanding))
      "nonces must be a short list" []
    nonces.forM fun nonce => Python.hexField nonce 64 "a stored nonce"
    return ⟨⟨field state "envelope", ordered_field state "envelope"⟩, floor, nonces.map textOf⟩

def noncesValue (nonces : List String) : Value := .arr (nonces.map .str)

theorem noncesValue_ordered (nonces : List String) : (noncesValue nonces).Ordered := by
  show Json.OrderedItems (nonces.map Json.str)
  induction nonces with
  | nil => trivial
  | cons nonce rest ih => exact ⟨trivial, ih⟩

/-- The document that is written, its names in order. -/
def HolderState.document (state : HolderState) : Document :=
  ⟨.obj [("envelope", state.envelope), ("floor", floorValue state.floor),
      ("nonces", noncesValue state.nonces)],
    ⟨(by decide : ["envelope", "floor", "nonces"].Pairwise (· < ·)),
      state.envelope.2, floorValue_ordered _, noncesValue_ordered _, trivial⟩⟩

/-- The file `_write` leaves. -/
def written (state : HolderState) : Check Raw := do
  require (readable maxDepth state.document)
    "Exceeds the limit (%d digits) for integer string conversion" [.number maxDigits]
  return ⟨(Json.spaced asciiQuoting state.document.1).length, some state.document⟩

/-- The file at `state_path`. -/
structure StateFile where
  raw : Option Raw := none

inductive Effect where
  | replace (raw : Raw)

instance : Acts StateFile Effect where
  act _ | .replace raw => ⟨some raw⟩

abbrev Program := Traced StateFile Effect Refused

/-- `_write`, to a disk that may fail. -/
def write (disk : Bool) (state : HolderState) : Program Unit := do
  let raw ← liftM (written state)
  liftM (require (disk = true) "OSError" [])
  Traced.effect (.replace raw)

/-! ### The methods -/

/-- What `request` reads before it takes the lock, and the nonce it draws. -/
structure Asking where
  applied : Check (String × Int × Int)
  sessionKey : Check String
  nonce : List UInt8

/-- What a peer is sent. -/
structure LeaseRequest where
  nodeId : String
  sessionId : String
  nonce : String
  clusterId : String
  stateEpoch : Int
  stateRevision : Int
  sessionKey : String

/-- The last so many of a list. -/
def lastOf {α : Type} (n : Nat) (l : List α) : List α := l.drop (l.length - n)

/-- `request`: what to send. -/
def request (holder : Holder) (asking : Asking) (disk : Bool) : Program LeaseRequest := do
  let (clusterId, stateEpoch, revision) ← liftM asking.applied
  let sessionKey ← liftM asking.sessionKey
  let nonce := String.ofList (hexText asking.nonce)
  let file ← Traced.look
  let state ← liftM (readState file.raw)
  write disk { state with nonces := lastOf maxOutstanding (state.nonces ++ [nonce]) }
  return ⟨holder.nodeId, holder.sessionId, nonce, clusterId, stateEpoch, revision, sessionKey⟩

/-- `_mine`. -/
def mine (holder : Holder) (lease : Value) : Check Unit := do
  require (field lease "node_id" = .str holder.nodeId)
    "the lease is for %s, not for this node" [.value (field lease "node_id")]
  require (field lease "session_id" = .str holder.sessionId)
    "the lease is for another boot session of this node" []

def nonceOf (envelope : Value) : String := textOf (field (field envelope "lease") "nonce")

/-- The seconds a held lease of this node has left, if it verifies. -/
def heldLeft (holder : Holder) (held manifest : Value) (now : Int) : Check Int := do
  let left ← verify holder.signs held manifest now
  mine holder (field held "lease")
  return left

/-- Whether the held lease is kept, and then the seconds it has left. -/
def kept (holder : Holder) (held manifest : Value) (now left : Int) (prefer : Bool) : Option Int :=
  if held = .null then none
  else (heldLeft holder held manifest now).toOption.filter (fun h => left < h && !prefer)

/-- What follows a nonce. -/
def behind (nonce : String) (nonces : List String) : List String :=
  nonces.drop (nonces.idxOf nonce + 1)

/-- `_install`: the seconds left. -/
def install (holder : Holder) (envelope manifest : Document) (prefer : Bool) (reading : Reading)
    (disk : Bool) : Program Int := do
  let file ← Traced.look
  let state ← liftM (readState file.raw)
  let now ← liftM (authenticatedNow holder.setup reading state.floor)
  let left ← liftM (verify holder.signs envelope manifest now.1)
  liftM (mine holder (field envelope "lease"))
  liftM (require (nonceOf envelope ∈ state.nonces)
    "the lease answers no request this node has outstanding (replayed, asked for by another, or older than a request already answered)"
    [])
  let held := kept holder state.envelope manifest now.1 left prefer
  -- taking this one retires every request made before it
  write disk
    { envelope := if held.isSome then state.envelope else envelope
      floor := some now.2
      nonces := behind (nonceOf envelope) state.nonces }
  return held.getD left

/-- `_check`: the seconds left. -/
def check (holder : Holder) (manifest : Document) (reading : Reading) (disk : Bool) :
    Program Int := do
  let file ← Traced.look
  let state ← liftM (readState file.raw)
  let now ← liftM (authenticatedNow holder.setup reading state.floor)
  -- the floor moves whatever follows
  write disk { state with floor := some now.2 }
  liftM (require (state.envelope.1 ≠ .null)
    "no runtime lease is held: no peer vouches for this node" [])
  liftM (heldLeft holder state.envelope manifest now.1)

/-! ### A holder over time -/

inductive HolderMove where
  | request (asking : Asking) (disk : Bool)
  | install (envelope manifest : Document) (prefer : Bool) (reading : Reading) (disk : Bool)
  | check (manifest : Document) (reading : Reading) (disk : Bool)

/-- The file, and a record that no code reads: the nonces of the requests that
    were made and of the leases that were installed. -/
structure Held where
  file : StateFile := {}
  requested : List String := []
  installed : List String := []

/-- The record grows by an answer's entry, if there is an answer. -/
def answered {α : Type} (log : List String) (entry : α → String) : Check α → List String
  | .ok a => log ++ [entry a]
  | .error _ => log

def Held.step (holder : Holder) (held : Held) : HolderMove → Held
  | .request asking disk =>
    let call := request holder asking disk
    { held with
      file := call.final held.file
      requested := answered held.requested LeaseRequest.nonce (call.result held.file) }
  | .install envelope manifest prefer reading disk =>
    let call := install holder envelope manifest prefer reading disk
    { held with
      file := call.final held.file
      installed := answered held.installed (fun _ => nonceOf envelope) (call.result held.file) }
  | .check manifest reading disk =>
    { held with file := (check holder manifest reading disk).final held.file }

def Held.run (holder : Holder) (moves : List HolderMove) : Held :=
  moves.foldl (Held.step holder) {}

end Regalia.Lease
