import Regalia.Core.Membership.Format
import Regalia.Data.Binary64
import Regalia.Data.Window

/-!
# The Issuer's Revision Floor

`deploy/baremetal/lease.py`, `RevisionFloor`: an issuer co-signs a lease only
for a revision at least the one it had itself applied one lease ago. Its own
watch reports what it applies; of the reports it keeps the newest that is one
lease old and what came after.

The boot clock is a double, and so is what is subtracted from it; a clock that
counts in integers is exact. All that matters of the subtraction is that it
keeps the order.

## Main definitions

* `Subtraction`: How Python subtracts from a reading of the clock.
* `RevisionFloor.applied`, `RevisionFloor.require`: A report and a question.
-/

namespace Regalia.Lease

open Regalia.Membership

/-- Subtraction from a reading of the clock. -/
structure Subtraction where
  sub : ℚ → ℚ → ℚ
  mono : ∀ z, Monotone (fun x => sub x z)

/-- Between integers. -/
def Subtraction.exact : Subtraction where
  sub x y := x - y
  mono _ _ _ h := sub_le_sub_right h _

/-- Between doubles. -/
def Subtraction.doubles : Subtraction where
  sub x y := round64 (x - y)
  mono _ _ _ h := round64_mono (sub_le_sub_right h _)

/-- `int(x)`. -/
def truncate (x : ℚ) : ℤ := if 0 ≤ x then ⌊x⌋ else ⌈x⌉

/-- `RevisionFloor`. -/
structure RevisionFloor where
  lifetime : ℚ
  started : ℚ
  clusterId : Option String
  epoch : Option Int
  seen : List (ℚ × Int)

/-- `RevisionFloor(lifetime, clock)`, at a reading of the clock. -/
def RevisionFloor.new (lifetime now : ℚ) : RevisionFloor := ⟨lifetime, now, none, none, []⟩

/-- The revision reported last, 0 without one. -/
def RevisionFloor.lastRevision (floor : RevisionFloor) : Int :=
  (floor.seen.getLast?.map Prod.snd).getD 0

/-- A new history: start again, closed for one lease. -/
def RevisionFloor.restarted (floor : RevisionFloor) (now : ℚ) (stateEpoch : Int) : RevisionFloor :=
  let floor := if floor.epoch.any (· < stateEpoch) then { floor with started := now, seen := [] }
    else floor
  -- the lease is counted from the first report
  if floor.seen = [] then { floor with started := now } else floor

/-- `applied`. The attributes are assigned as it goes, so what is left behind is
    said for a refusal too. -/
def RevisionFloor.applied (minus : Subtraction) (floor : RevisionFloor) (now : ℚ)
    (clusterId : String) (stateEpoch revision : Int) : RevisionFloor × Check Unit :=
  if floor.clusterId.any (· ≠ clusterId) then
    (floor, refuse "the etcd watch names cluster %s, not %s: refused"
      [.text clusterId, .text (floor.clusterId.getD "None")])
  else if floor.epoch.any (stateEpoch < ·) then
    (floor, refuse "the applied state epoch went back (%d after %d): refused"
      [.number stateEpoch, .number (floor.epoch.getD 0)])
  else
    let floor := floor.restarted now stateEpoch
    if floor.seen ≠ [] ∧ revision < floor.lastRevision then
      (floor, refuse "the applied etcd revision went back (%d after %d): refused"
        [.number revision, .number floor.lastRevision])
    else
      let cutoff := minus.sub now floor.lifetime
      ({ floor with
          clusterId := some clusterId
          epoch := some stateEpoch
          seen := fromLast (fun s => s.1 ≤ cutoff) (floor.seen ++ [(now, revision)]) }, .ok ())

/-- The last revision reported by some time. -/
def RevisionFloor.held (floor : RevisionFloor) (cutoff : ℚ) : Option Int :=
  ((floor.seen.filter (fun s => s.1 ≤ cutoff)).getLast?).map Prod.snd

/-- `require`. -/
def RevisionFloor.require (minus : Subtraction) (floor : RevisionFloor) (now : ℚ)
    (clusterId : String) (stateEpoch revision : Int) : Check Unit := do
  let watched := minus.sub now floor.started
  Membership.require (floor.lifetime ≤ watched)
    "this issuer has watched etcd for %.0f s, less than one lease (%d s): it issues no lease until it knows what it held a lease ago. Expected for a peer that (re)started less than one lease ago, not a fault: ask again in %d s"
    [.number (roundEven watched), .number (truncate floor.lifetime),
      .number (max 1 (truncate (minus.sub floor.lifetime watched) + 1))]
  Membership.require (floor.clusterId = some clusterId)
    "the subject is in etcd cluster %s, not this issuer's %s"
    [.text clusterId, .text (floor.clusterId.getD "None")]
  Membership.require (floor.epoch = some stateEpoch)
    "ANOTHER HISTORY: the subject's etcd state is of state epoch %d, this issuer's of %d: revisions of two histories are not compared, no lease"
    [.number stateEpoch, .number (floor.epoch.getD 0)]
  let held ← demand (floor.held (minus.sub now floor.lifetime))
    "this issuer applied no etcd revision a lease ago (its watch had not reported): no lease" []
  Membership.require (held ≤ revision)
    "STALE STATE: the subject has applied etcd revision %d, below the %d this issuer had applied one lease (%d s) ago: no lease until it catches up"
    [.number revision, .number held, .number (truncate floor.lifetime)]

/-! ### Runs -/

/-- A report that was accepted. -/
structure Report where
  time : ℚ
  clusterId : String
  epoch : Int
  revision : Int
  deriving DecidableEq

/-- A call: the time it reads, and its arguments. -/
inductive Call where
  | applied (now : ℚ) (clusterId : String) (stateEpoch revision : Int)
  | require (now : ℚ) (clusterId : String) (stateEpoch revision : Int)

def Call.now : Call → ℚ
  | .applied now _ _ _ => now
  | .require now _ _ _ => now

/-- An issuer, and every report it has accepted. -/
structure Issuer where
  floor : RevisionFloor
  log : List Report

def Issuer.new (lifetime now : ℚ) : Issuer := ⟨RevisionFloor.new lifetime now, []⟩

def Issuer.step (minus : Subtraction) (issuer : Issuer) : Call → Issuer
  | .applied now clusterId stateEpoch revision =>
    let result := issuer.floor.applied minus now clusterId stateEpoch revision
    ⟨result.1, if result.2.isOk then issuer.log ++ [⟨now, clusterId, stateEpoch, revision⟩]
      else issuer.log⟩
  | .require _ _ _ _ => issuer

end Regalia.Lease
