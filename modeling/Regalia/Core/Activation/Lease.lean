import Regalia.Core.Heartbeat.Envelope

/-!
# Activation Leases

`deploy/baremetal/activation.py`, the lease: a site is active on a node for a
few minutes, by a quorum of the nodes or, on the recovery path, by the owner
and one of them.

## Main definitions

* `Library`: What comes from outside the module.
* `validate`: The schema of a lease.
* `verify`: The lease of an envelope that its signatures activate.
-/

namespace Regalia.Activation

open Regalia.Membership

/-- The signature schemes, and what `strip` and `isprintable` say of a text. -/
structure Library where
  crypto : Crypto
  blank : String → Bool
  printable : String → Bool

def schema : String := "regalia.activation/v2"

def domain : List UInt8 := GoString.ofText "regalia-activation/v2" ++ [0]

def leaseKeys : List String :=
  ["schema", "node_id", "site", "registry_digest", "activation_epoch", "manifest_epoch",
    "manifest_digest", "not_before", "expires_at"]

def recoveryKeys : List String := ["fenced", "quarantine_epoch"]

/-- `MAX_LEASE_S`. -/
def maxLease : Int := 600

/-- `SKEW_S`. -/
def skew : Int := 60

/-- `lease.MAX_LIFETIME`, of the runtime leases. -/
def runtimeMaxLifetime : Int := 30

/-- `RECOVERY_WAIT_S`. -/
def recoveryWait : Int := max maxLease runtimeMaxLifetime + skew

def maxFencedBytes : Nat := 512

/-- `[a-z0-9][a-z0-9-]{2,62}`. -/
def matchesSite (s : String) : Bool :=
  match s.toList with
  | [] => false
  | c :: cs => lowerAlphanum c && 2 ≤ cs.length && cs.length ≤ 62 &&
    cs.all (fun c => lowerAlphanum c || c = '-')

/-- `sha256:[0-9a-f]{64}`. -/
def matchesDigest (s : String) : Bool :=
  s.toList.take 7 = ['s', 'h', 'a', '2', '5', '6', ':'] && (s.toList.drop 7).length = 64 &&
    (s.toList.drop 7).all isLowerHex

/-! ### The lease -/

/-- `_epoch`. -/
def epochField (value : Value) (label : String) : Check Unit :=
  require ((asInteger value).any (fun v => 1 ≤ v && v < 2 ^ 63)) "%s must be an integer >= 1"
    [.text label]

def validateRecovery (lib : Library) (lease : Value) : Check Unit := do
  let rec_ := field lease "recovery"
  Python.exact rec_ recoveryKeys "the recovery block"
  require ((asText (field rec_ "fenced")).any (fun text =>
      !lib.blank text && text.utf8ByteSize ≤ maxFencedBytes && lib.printable text))
    "recovery.fenced must be printable text of at most %d bytes" [.number maxFencedBytes]
  epochField (field rec_ "quarantine_epoch") "recovery.quarantine_epoch"
  require ((asInteger (field rec_ "quarantine_epoch")).getD 0 ≤
      (asInteger (field lease "manifest_epoch")).getD 0)
    "the quarantine epoch is above the lease's manifest" []

/-- Schema only. The times of beginning and end. -/
def validate (lib : Library) (lease : Value) : Check (Int × Int) := do
  require (isObject lease) "the activation lease is an object" []
  Python.exact lease (leaseKeys ++ if hasField lease "recovery" then ["recovery"] else [])
    "the activation lease"
  require (field lease "schema" = .str schema) "schema must be %s" [.text schema]
  require ((asText (field lease "node_id")).any matchesNodeID) "node_id must be a node ID" []
  require ((asText (field lease "site")).any matchesSite) "site must be a registry site name" []
  require ((asText (field lease "registry_digest")).any matchesDigest)
    "registry_digest must be sha256:<64 hex>" []
  epochField (field lease "activation_epoch") "activation_epoch"
  epochField (field lease "manifest_epoch") "manifest_epoch"
  Python.hexField (field lease "manifest_digest") 64 "manifest_digest"
  let start ← Heartbeat.parseTime (field lease "not_before") "not_before"
  let expires ← Heartbeat.parseTime (field lease "expires_at") "expires_at"
  require (start < expires) "expires_at must be after not_before" []
  require (expires - start ≤ maxLease) "an activation lease lives at most %d s (this one: %d)"
    [.number maxLease, .number (expires - start)]
  onlyIf (hasField lease "recovery") (validateRecovery lib lease)
  return (start, expires)

variable (lease : Value)

def message : List UInt8 := domain ++ Python.canonical lease

def nodeOf : String := textOf (field lease "node_id")

def siteOf : String := textOf (field lease "site")

def epochOf : Int := (asInteger (field lease "activation_epoch")).getD 0

/-! ### The quorum -/

def ruleParties (manifest : Value) : List String :=
  (itemsOf (field (field manifest "activation_signers") "parties")).map textOf

/-- The parties of the rule that are nodes. -/
def nodeParties (manifest : Value) : List String :=
  (ruleParties manifest).filter (· ≠ ownerParty)

def threshold (manifest : Value) : Int :=
  (asInteger (field (field manifest "activation_signers") "threshold")).getD 0

/-- The owner counts only with a recovery block, with a node, and with every
    other node party stopped. -/
def verifyRecovery (lease current : Value) (nodes : Nodes) (signed : List String) :
    Check Unit := do
  require (hasField lease "recovery")
    "the owner's signature counts only on the recovery path (a lease with a recovery block)" []
  require (signed ≠ []) "the owner alone never activates a site" []
  require (threshold current ≤ signed.length + 1)
    "the owner and %d node(s) are below the threshold %d"
    [.number signed.length, .number (threshold current)]
  let loose := (nodeParties current).filter (fun p => p ∉ signed &&
    (nodes.at p).any (fun node => !(stateOf node).any NodeState.notCounting))
  require (loose = [])
    "the recovery path needs every other node party quarantined or revoked under epoch %d; %s %s not"
    [.value (field current "epoch"), .names loose, .text (if loose.length = 1 then "is" else "are")]
  require ((asInteger (field (field lease "recovery") "quarantine_epoch")).getD 0 ≤
      Membership.epochOf current)
    "the quarantine epoch is newer than this node's manifest" []

/-- `verify`: the lease of an envelope, if its signatures meet the activation
    rule of the current manifest. -/
def verify (lib : Library) (envelope current : Value) : Check Value := do
  Python.exact envelope ["lease", "signatures"] "the activation envelope"
  let lease := field envelope "lease"
  let _ ← validate lib lease
  require (field current "schema" = .str Schema.v4.text)
    "activation by quorum needs a %s manifest" [.text Schema.v4.text]
  let named := (asInteger (field lease "manifest_epoch")).getD 0
  require (named ≤ Membership.epochOf current)
    "the lease names manifest epoch %d, newer than this node's %d"
    [.number named, .number (Membership.epochOf current)]
  onlyIf (named = Membership.epochOf current) do
    require (field lease "manifest_digest" = .str (Python.digest current))
      "the lease names another manifest at epoch %d" [.number named]
  let nodes ← Python.validate current
  require (nodes.at (nodeOf lease)).isSome "%s is not a node of the current manifest"
    [.text (nodeOf lease)]
  let serves ← Python.may current (nodeOf lease) .serve
  require serves "%s may not serve under epoch %d"
    [.text (nodeOf lease), .value (field current "epoch")]
  let counted ← Python.countingParties lib.crypto (some current) (message lease)
    (field envelope "signatures") "activation lease"
  let counted := counted.filter (· ∈ ruleParties current)
  let signed := counted.filter (· ≠ ownerParty)
  if ownerParty ∉ counted then
    require (!hasField lease "recovery") "a recovery block without the owner's signature: refused" []
    require (threshold current ≤ signed.length)
      "%d of the nodes signed (%s); activation needs %d"
      [.number signed.length,
        if signed = [] then .text "none" else .names (signed.insertionSort (· ≤ ·)),
        .number (threshold current)]
  else verifyRecovery lease current nodes signed
  return lease

end Regalia.Activation
