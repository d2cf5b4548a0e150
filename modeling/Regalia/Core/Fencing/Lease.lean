import Regalia.Core.Policy.Reservation

/-!
# Leases and the Authority That Signs Them

`cmd/regalia-fence` and `internal/fencing/issue.go`: one run of the authority
takes a lock, loads its record of the last grant, decides, saves the new
record and then publishes the lease.

An instant is a number of nanoseconds since 1970. The documents spell it in
RFC 3339 with nanoseconds, which loses nothing, so a document here holds the
instant; an instant whose year has not four digits has no text that is read
back. A string is read back from JSON as `GoString.asJson` says.

## Main definitions

* `Grant`, `PreviousGrant`, `Lease`: A decision, the record of one, and the
  document a site is given.
* `signGrant`: Whether the authority signs a grant after the last one.
* `Authority`, `Authority.run`: The authority's files, and one run.
-/

namespace Regalia.Fencing

/-- The text of an instant in UTC. -/
def instantText (t : Int) : Option (List Char) :=
  GoTime.marshalText ⟨t / 10 ^ 9, (t % 10 ^ 9).toNat, 0⟩

/-- An operator's decision to make one site active for a window. -/
structure Grant where
  site : GoString
  epoch : UInt64
  notBefore : Int
  expiresAt : Int
  registryDigest : GoString
  deriving DecidableEq

/-- The last lease the authority issued, as its record is read. -/
structure PreviousGrant where
  site : GoString
  epoch : UInt64
  expiresAt : Int
  deriving DecidableEq

/-- `leaseDocument`, its version being 1. -/
structure Lease where
  site : GoString
  epoch : UInt64
  notBefore : Int
  expiresAt : Int
  registryDigest : GoString
  signature : GoString
  deriving DecidableEq

def maxLeaseDuration : Int := 10 * 60 * 10 ^ 9

def maxLeaseBytes : Nat := 16 * 1024

def maxIssuerStateBytes : Nat := 4 * 1024

/-- The time `time.Time{}` is. -/
def zeroInstant : Int := GoTime.zero.unix * 10 ^ 9

/-- The value of `PreviousGrant{}`: no lease was ever issued. -/
def noGrant : PreviousGrant := ⟨[], 0, zeroInstant⟩

/-- The bytes of a document's fields. -/
def encodeFields (fields : List (Literal × Json Literal)) : GoString :=
  GoString.ofRunes (Json.print goQuoting (.obj fields))

def instantJson (t : Int) : Json Literal := .str (((instantText t).getD []).map some)

def Lease.encode (lease : Lease) : GoString :=
  encodeFields (
    Policy.field "version" (.num 1) ++
    Policy.field "site" (Policy.stringJson lease.site) ++
    Policy.field "epoch" (Policy.uint64Json lease.epoch) ++
    Policy.field "not_before" (instantJson lease.notBefore) ++
    Policy.field "expires_at" (instantJson lease.expiresAt) ++
    Policy.field "registry_digest" (Policy.stringJson lease.registryDigest) ++
    Policy.field "signature" (Policy.stringJson lease.signature))

/-- The lease of a grant, before it is signed. -/
def Grant.lease (grant : Grant) : Lease :=
  ⟨grant.site.asJson, grant.epoch, grant.notBefore, grant.expiresAt, grant.registryDigest.asJson, []⟩

/-- `SignGrant`, under a key that signs what a lease says with `sign`. -/
def signGrant (sign : Lease → GoString) (grant : Grant) (previous : PreviousGrant) :
    Except String Lease :=
  if grant.site = [] ∨ grant.registryDigest = [] ∨ grant.epoch = 0 then
    .error "fencing: a grant needs a site, a registry digest and a non-zero epoch"
  else if ¬ grant.notBefore < grant.expiresAt then
    .error "fencing: a grant must expire after it begins"
  else if maxLeaseDuration < grant.expiresAt - grant.notBefore then
    .error "fencing: a lease may not run longer than %s; %s was requested"
  else if grant.epoch ≤ previous.epoch then
    .error "fencing: epoch %d does not exceed the last issued epoch %d, so a superseded lease could be replayed"
  else if previous.site ≠ [] ∧ previous.site ≠ grant.site ∧ grant.notBefore < previous.expiresAt then
    .error "fencing: %s would be active from %s while %s holds the lease until %s, so both sites would sign; handover waits the previous lease out"
  else
    let lease := { grant.lease with signature := sign grant.lease }
    if maxLeaseBytes < lease.encode.length then
      .error "fencing: the lease is %d bytes and the daemon refuses anything over %d; the site name or registry digest is implausibly long"
    else .ok lease

/-- `LoadIssuerState`, for the record in the file, if there is one. -/
def loadIssuerState : Option PreviousGrant → Except String PreviousGrant
  | none => .ok noGrant
  | some previous =>
    if previous.site = [] ∨ previous.epoch = 0 ∨ previous.expiresAt = zeroInstant then
      .error "issuer state exists but does not record a complete grant (site, epoch and expiry); refusing to issue rather than treat a damaged record as a first run"
    else .ok previous

/-- The record of a grant, as the next run reads it. -/
def Grant.record (grant : Grant) : PreviousGrant :=
  ⟨grant.site.asJson, grant.epoch, grant.expiresAt⟩

/-- What `SaveIssuerState` puts in the file, where it puts anything: a time
    without a text is not encoded, and a record the next run would not read
    is not written. -/
def saveIssuerState (grant : Grant) : Option PreviousGrant :=
  let encoded := encodeFields (
    Policy.field "site" (Policy.stringJson grant.site) ++
    Policy.field "epoch" (Policy.uint64Json grant.epoch) ++
    Policy.field "expires_at" (instantJson grant.expiresAt))
  if (instantText grant.expiresAt).isNone ∨ maxIssuerStateBytes < encoded.length + 1 then none
  else some grant.record

/-! ### Runs of the authority -/

/-- The steps of a run that leave something behind. -/
inductive Stage where
  | lock
  | save
  | publish
  deriving DecidableEq, Repr

def Stage.index : Stage → Nat
  | .lock => 0
  | .save => 1
  | .publish => 2

/-- Where a run ends early: after a stage, because the next step failed or
    because the process died and left its lock behind. -/
structure Stop where
  after : Stage
  dies : Bool
  deriving DecidableEq

/-- A run gets as far as a stage. -/
def reaches (stop : Option Stop) (stage : Stage) : Bool :=
  stop.all (fun s => stage.index ≤ s.after.index)

/-- The authority's lock and record, with what it has decided and handed out
    so far: the grants it recorded and the leases it published, newest first. -/
structure Authority where
  locked : Bool := false
  record : Option PreviousGrant := none
  granted : List Grant := []
  published : List Lease := []

/-- One run of `regalia-fence`. -/
def Authority.run (sign : Lease → GoString) (a : Authority) (grant : Grant)
    (stop : Option Stop) : Authority :=
  if a.locked then a
  else
    let a := { a with locked := stop.any Stop.dies }
    match (loadIssuerState a.record).bind (signGrant sign grant) with
    | .error _ => a
    | .ok lease =>
      if ¬ reaches stop .save then a
      else
        match saveIssuerState grant with
        | none => a
        | some record =>
          let a := { a with record := some record, granted := grant :: a.granted }
          -- the decision is recorded before the lease exists
          if reaches stop .publish then { a with published := lease :: a.published } else a

end Regalia.Fencing
