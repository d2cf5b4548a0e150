import Regalia.Core.Activation.Lease

/-!
# Granting Activations

`deploy/baremetal/activation.py`, the signers. Each node remembers its last
grant in a file, and counts its grants on a TPM counter that tells whether the
file is the last one it wrote. A grant is made under a lock: the lease is
checked against the record, the counter is moved, the record is replaced, and
then the lease is signed. A node whose record does not stand signs nothing for
a while after its start.

A call reads the time before it waits for the lock, so its time may be older
than the one at which it signs. The stages under the lock are one move here,
with the stage at which it fails: nobody else reads or writes the counter and
the record while the lock is held.

## Main definitions

* `Record`, `standing`: The grant record, and whether it stands.
* `checkGrant`: What the record lets a node sign.
* `signerAdmits`, `cosignChecks`: What is checked before.
* `Fault`: Where a grant fails.
* `World`, `Move`, `World.step`: The nodes, one clock, and what can happen.
-/

namespace Regalia.Activation

open Regalia.Membership

/-! ### The grant record -/

/-- What a node writes of its last grant, with the number of its grants. -/
structure Record where
  grants : Nat
  epoch : Int
  site : String
  nodeId : String
  expires : Int
  deriving DecidableEq

/-- The last grant, if the record stands: it has as many grants as the counter,
    and at least one. -/
def standing (held : Option Record) (count : Nat) : Option Record :=
  held.filter (fun r => 0 < count && r.grants = count)

/-- `GrantRecord.state` and `check`. -/
def checkGrant (lib : Library) (lease : Value) (held : Option Record) (count : Nat)
    (started now : Int) : Check (Int × Int) := do
  let times ← validate lib lease
  let start := times.1
  let last := standing held count
  require (last.isSome ∨ started + recoveryWait ≤ now)
    "this node's grant record does not stand (%s on disk, %d grants on its TPM counter): it signs no activation until %d s after its start"
    [held.elim (.text "None") (fun r => .number r.grants), .number count, .number recoveryWait]
  require (start ≤ now + skew) "not_before is %d s ahead of this node's authenticated time"
    [.number (start - now)]
  require (now < times.2) "the lease has already expired" []
  match last with
  | none => return times
  | some last => do
    require (last.epoch < epochOf lease)
      "activation_epoch %d is not above this node's last grant, %d: an epoch is granted once"
      [.number (epochOf lease), .number last.epoch]
    -- only a renewal, the same site on the same node, may overlap
    onlyIf ((last.site, last.nodeId) ≠ (siteOf lease, nodeOf lease)) do
      require (last.expires + skew ≤ start)
        "OVERLAP: this node granted site %s on %s until %d; a lease for site %s on %s may not begin before that, and the %d s skew margin"
        [.text last.site, .text last.nodeId, .number last.expires, .text (siteOf lease),
          .text (nodeOf lease), .number skew]
    return times

/-! ### Before the lock -/

/-- What `Signer` checks before it takes the lock. -/
def signerAdmits (manifest : Value) (me key : String) (lease : Value) : Check Unit := do
  let nodes ← Python.validate manifest
  require ((nodes.at me).any (fun node => field (field node "signing_key") "key" = .str key))
    "this node's signing key is not the one the manifest at epoch %d gives %s: nothing is signed"
    [.value (field manifest "epoch"), .text me]
  require (me ∈ ruleParties manifest ∧
      (nodes.at me).any (fun node => !(stateOf node).any NodeState.notCounting))
    "%s does not count toward activation under epoch %d: it signs no activation"
    [.text me, .value (field manifest "epoch")]
  require (field lease "manifest_epoch" = field manifest "epoch" ∧
      field lease "manifest_digest" = .str (Python.digest manifest))
    "a signer signs only for its own current manifest (epoch %d)" [.value (field manifest "epoch")]

/-- `cosign`, up to the call of the signer. -/
def cosignChecks (lib : Library) (manifest : Value) (me caller : String) (lease : Value)
    (synced : Bool) : Check Unit := do
  let nodes ← Python.validate manifest
  let counting := (nodeParties manifest).filter (fun p =>
    (nodes.at p).any (fun node => !(stateOf node).any NodeState.notCounting))
  require (me ∈ counting) "%s does not count toward activation under epoch %d: it co-signs nothing"
    [.text me, .value (field manifest "epoch")]
  require (caller ∈ counting ∧ caller ≠ me) "%s does not count toward activation under epoch %d"
    [.text caller, .value (field manifest "epoch")]
  require synced
    "since its boot this node has not pulled from every node that may authorize: it co-signs no activation yet"
    []
  let _ ← validate lib lease
  require (field lease "node_id" = .str caller)
    "%s proposes an activation for %s: a node proposes only its own"
    [.text caller, .value (field lease "node_id")]
  require (!hasField lease "recovery")
    "a recovery lease is the owner's (owner.py), never proposed over sync" []

/-! ### A node -/

/-- Where a grant that was let through comes to an end. -/
inductive Fault where
  | increment (moved : Bool)  -- the counter's increment fails, having moved it or not
  | write (replaced : Bool)  -- the write of the record fails, before or after the replacement
  | sign  -- recorded, and no signature is made
  | none
  deriving DecidableEq

/-- A lease that a node has signed, and when. -/
structure Signature where
  lease : Document
  time : Int

/-- The counter is in the TPM; the record is on disk, and `written` are all the
    records the disk has held. A running process has the time of its start and
    its calls, each with the time it has read. -/
structure Node where
  counter : Nat := 0
  record : Option Record := none
  written : List Record := []
  started : Option Int := none
  calls : List (Document × Int) := []
  signed : List Signature := []

namespace Node

def recordOf (node : Node) (lease : Value) (expires : Int) : Record :=
  ⟨node.counter + 1, epochOf lease, siteOf lease, nodeOf lease, expires⟩

/-- The counter moves, and then the record is replaced. -/
def recorded (node : Node) (lease : Value) (expires : Int) : Node :=
  { node with
    counter := node.counter + 1
    record := some (node.recordOf lease expires)
    written := node.written ++ [node.recordOf lease expires] }

def sign (node : Node) (lease : Document) (time : Int) : Node :=
  { node with signed := node.signed ++ [⟨lease, time⟩] }

/-- A grant that has passed the checks, at a time. -/
def commit (node : Node) (lease : Document) (expires time : Int) : Fault → Node
  | .increment moved => { node with counter := node.counter + moved.toNat }
  | .write false => { node with counter := node.counter + 1 }
  | .write true | .sign => node.recorded lease expires
  | .none => (node.recorded lease expires).sign lease time

/-- The process is gone, and its calls with it. -/
def stop (node : Node) : Node := { node with started := none, calls := [] }

end Node

/-! ### The nodes -/

/-- One manifest, the key each node holds, and the library. -/
structure Setup where
  lib : Library
  manifest : Document
  keys : String → String

inductive Move where
  | start
  | stop
  | restore (i : Option Nat)  -- the record is lost, or an older one comes back
  | propose (lease : Document)
  | cosign (caller : String) (lease : Document) (synced : Bool)
  | grant (i : Nat) (fault : Fault) (dies : Bool)

namespace Node

/-- A call gets the lock. -/
def grant (setup : Setup) (name : String) (time : Int) (node : Node) (i : Nat) (fault : Fault) :
    Node :=
  match node.started, node.calls[i]? with
  | some started, some (lease, now) =>
    let rest := { node with calls := node.calls.eraseIdx i }
    if (signerAdmits setup.manifest name (setup.keys name) lease).isOk then
      match checkGrant setup.lib lease node.record node.counter started now with
      | .ok times => rest.commit lease times.2 time fault
      | .error _ => rest
    else rest
  | _, _ => node

def step (setup : Setup) (name : String) (time : Int) (node : Node) : Move → Node
  | .start => if node.started.isNone then { node with started := some time } else node
  | .stop => node.stop
  | .restore i =>
    if node.started.isNone then { node with record := i.bind (fun i => node.written[i]?) } else node
  -- a node's own lease is never a recovery lease
  | .propose lease =>
    if node.started.isSome ∧ nodeOf lease = name ∧ hasField lease "recovery" = false then
      { node with calls := node.calls ++ [(lease, time)] }
    else node
  | .cosign caller lease synced =>
    if node.started.isSome ∧
        (cosignChecks setup.lib setup.manifest name caller lease synced).isOk then
      { node with calls := node.calls ++ [(lease, time)] }
    else node
  | .grant i fault dies =>
    let after := node.grant setup name time i fault
    if dies then after.stop else after

end Node

/-- The clock all nodes share, and the nodes by name. -/
structure World where
  time : Int
  nodes : String → Node

inductive Event where
  | tick (seconds : Nat)
  | node (name : String) (move : Move)

namespace World

def init (time : Int) : World := ⟨time, fun _ => {}⟩

def step (setup : Setup) (w : World) : Event → World
  | .tick seconds => { w with time := w.time + seconds }
  | .node name move =>
    { w with nodes := Function.update w.nodes name ((w.nodes name).step setup name w.time move) }

def run (setup : Setup) (time : Int) (events : List Event) : World :=
  events.foldl (step setup) (init time)

end World

end Regalia.Activation
