import Regalia.Core.Fencing.Lease
import Mathlib.Logic.Function.Basic

/-!
# The Gate of a Site

`internal/fencing/gate.go`: a site acts while its gate finds a lease for it in
the lease file, inside the lease's window and not below the highest epoch it
has seen. Epochs seen are kept in a journal, a chain of hashes that a gate
verifies when it opens.

`World` puts the authority and any number of gates together. Leases travel by
copying a published one into a gate's lease file, at any time and to any
gate, and each evaluation that comes out ready is noted with the site and the
instant of the shared clock.

## Main definitions

* `Gate`, `Gate.evaluate`, `Gate.ready`: One gate, its evaluation, and the
  question a standby asks it.
* `World`, `World.step`, `World.run`: The authority and the gates together.
-/

namespace Regalia.Fencing

/-! ### The epoch journal -/

structure EpochRecord where
  epoch : UInt64
  previousHash : GoString
  hash : GoString
  deriving DecidableEq

def genesisHash : GoString :=
  GoString.ofText "sha256:" ++ GoString.ofRunes (List.replicate 64 '0')

def epochHash (record : EpochRecord) : GoString :=
  GoString.ofText "sha256:" ++ GoString.ofRunes (hexText (Sha256.sum (encodeFields (
    Policy.field "epoch" (Policy.uint64Json record.epoch) ++
    Policy.field "previous_hash" (Policy.stringJson record.previousHash) ++
    Policy.field "hash" (Policy.stringJson [])))))

/-- The loop of `verifyEpochJournal`: the highest epoch and the last hash. -/
def verifyEpochs : UInt64 → GoString → List EpochRecord → Option (UInt64 × GoString)
  | maximum, previous, [] => some (maximum, previous)
  | maximum, previous, record :: rest =>
    if record.epoch ≤ maximum ∨ record.previousHash ≠ previous ∨ record.hash ≠ epochHash record then
      none
    else verifyEpochs record.epoch record.hash rest

def verifyEpochJournal (journal : List EpochRecord) : Option (UInt64 × GoString) :=
  verifyEpochs 0 genesisHash journal

/-! ### The gate -/

/-- How an append to the epoch journal ends: synced, without a record in the
    file, or with one that is not known to be durable. -/
inductive Append where
  | synced
  | lost
  | unsynced
  deriving DecidableEq, Repr

/-- A gate and its files: the lease file, if it holds a document, and the
    epoch journal. `verifies` is whether a lease's signature holds under the
    gate's public key. -/
structure Gate where
  site : GoString
  registryDigest : GoString
  verifies : Lease → Bool
  leaseFile : Option Lease := none
  journal : List EpochRecord := []
  maxEpoch : UInt64 := 0
  lastHash : GoString := genesisHash
  opened : Bool := false

/-- `readLease`: the file ends with a newline, and is read up to a bound. -/
def readLease (file : Option Lease) : Option Lease :=
  file.filter (fun lease =>
    lease.encode.length + 1 ≤ maxLeaseBytes && lease.epoch ≠ 0 && lease.signature ≠ [])

/-- What `time.Parse` makes of an instant's text. -/
def parseInstant (t : Int) : Option Int := if (instantText t).isSome then some t else none

/-- The window of a lease, if it holds the instant and is no longer than a
    lease may be. -/
def inWindow (lease : Lease) (now : Int) : Bool :=
  match parseInstant lease.notBefore, parseInstant lease.expiresAt with
  | some notBefore, some expiresAt =>
    !(now < notBefore || !(now < expiresAt) || !(notBefore < expiresAt) ||
      maxLeaseDuration < expiresAt - notBefore)
  | _, _ => false

/-- `appendEpoch`: the new record. -/
def Gate.nextRecord (g : Gate) (epoch : UInt64) : EpochRecord :=
  let record : EpochRecord := ⟨epoch, g.lastHash, []⟩
  { record with hash := epochHash record }

/-- `evaluateLocked`: the gate after it, and whether the site may act. -/
def Gate.evaluate (g : Gate) (now : Int) (canceled : Bool) (append : Append) : Gate × Bool :=
  if canceled then (g, false)
  else
    match readLease g.leaseFile with
    | none => (g, false)
    | some lease =>
      if lease.site ≠ g.site ∨ lease.registryDigest ≠ g.registryDigest ∨ lease.epoch < g.maxEpoch then
        (g, false)
      else if ¬ inWindow lease now then (g, false)
      else if ¬ g.verifies lease then (g, false)
      else if g.maxEpoch < lease.epoch then
        let record := g.nextRecord lease.epoch
        match append with
        | .synced =>
          ({ g with journal := g.journal ++ [record], maxEpoch := lease.epoch,
                    lastHash := record.hash }, true)
        | .lost => (g, false)
        | .unsynced => ({ g with journal := g.journal ++ [record] }, false)
      else (g, true)

/-- `Open`, as a standby calls it until it succeeds: the journal is verified
    and the lease evaluated, and the gate stays only if the site may act. -/
def Gate.acquire (g : Gate) (now : Int) (canceled : Bool) (append : Append) : Gate × Bool :=
  match verifyEpochJournal g.journal with
  | none => (g, false)
  | some (epoch, hash) =>
    let result := { g with maxEpoch := epoch, lastHash := hash }.evaluate now canceled append
    ({ result.1 with opened := result.2 }, result.2)

/-- `Standby.Ready`: a gate is opened the first time its site may act. -/
def Gate.ready (g : Gate) (now : Int) (canceled : Bool) (append : Append) : Gate × Bool :=
  if g.opened then g.evaluate now canceled append else g.acquire now canceled append

/-! ### The authority and the gates -/

variable {ι : Type} [DecidableEq ι]

/-- The authority, the gates by name, and every evaluation so far that let a
    site act, with the instant it was made at. -/
structure World (ι : Type) where
  authority : Authority := {}
  gates : ι → Gate
  acted : List (GoString × Int) := []

inductive Event (ι : Type) where
  /-- A run of the authority. -/
  | run (grant : Grant) (stop : Option Stop)
  /-- An operator removes a lock a dead run left behind. -/
  | unlock
  /-- A published lease is put into a gate's lease file. -/
  | deliver (gate : ι) (lease : Lease)
  /-- A gate's lease file is removed. -/
  | withdraw (gate : ι)
  /-- A gate is asked whether its site may act. -/
  | ready (gate : ι) (now : Int) (canceled : Bool) (append : Append)
  /-- A gate's process starts anew. -/
  | restart (gate : ι)

def World.step (sign : Lease → GoString) (w : World ι) : Event ι → World ι
  | .run grant stop => { w with authority := w.authority.run sign grant stop }
  | .unlock => { w with authority := { w.authority with locked := false } }
  | .deliver i lease =>
    if lease ∈ w.authority.published then
      { w with gates := Function.update w.gates i { w.gates i with leaseFile := some lease } }
    else w
  | .withdraw i =>
    { w with gates := Function.update w.gates i { w.gates i with leaseFile := none } }
  | .ready i now canceled append =>
    let result := (w.gates i).ready now canceled append
    { w with gates := Function.update w.gates i result.1
             acted := if result.2 then ((w.gates i).site, now) :: w.acted else w.acted }
  | .restart i =>
    { w with gates := Function.update w.gates i { w.gates i with opened := false } }

/-- The world after a list of events. -/
def World.run (sign : Lease → GoString) (w : World ι) (events : List (Event ι)) : World ι :=
  events.foldl (World.step sign) w

end Regalia.Fencing
