import Regalia.Core.Attest.Quote
import Regalia.Core.Heartbeat.Envelope
import Regalia.Core.Lease.Session

/-!
# Runtime Leases

`deploy/baremetal/lease.py`, `validate` and `verify`: a peer's statement, signed
by its TPM, that a node may serve for half a minute more. The signature is a
quote by the issuer's attestation key over the lease.

## Main definitions

* `validate`: The form of a lease, and its two times.
* `verify`: Whether a lease lets its subject serve, and for how long.
-/

namespace Regalia.Lease

open Regalia.Membership

/-- `SCHEMA`. -/
def schema : String := "regalia.runtime-lease/v2"

/-- `DOMAIN`. -/
def domain : List UInt8 := GoString.ofText "regalia-runtime-lease/v2" ++ [0]

/-- `STATE_KEYS`. -/
def stateKeys : List String := ["cluster_id", "state_epoch", "state_revision", "session_key"]

/-- `LEASE_KEYS`. -/
def leaseKeys : List String :=
  ["schema", "node_id", "ak_name", "issuer", "epoch", "manifest_digest", "session_id", "nonce"] ++
    stateKeys ++ ["issued_at", "expires_at"]

/-- `MAX_LIFETIME`. -/
def maxLifetime : Int := 30

/-- `FUTURE_SKEW`. -/
def futureSkew : Int := 5

/-- `_node_id`. -/
def nodeIdField (value : Value) (label : String) : Check Unit :=
  require ((asText value).any matchesNodeID) "%s must be a node ID" [.text label]

/-- `_state`. -/
def stateFields (fields : Value) (label : String) : Check Unit := do
  Python.hexField (field fields "cluster_id") 16 (label ++ ".cluster_id")
  ["state_epoch", "state_revision"].forM fun k =>
    require ((asInteger (field fields k)).any (fun v => 0 ≤ v && v < 2 ^ 63))
      "%s.%s must be an integer from 0" [.text label, .text k]
  sessionPublic (field fields "session_key") (label ++ ".session_key")

/-- `validate`: the two times. -/
def validate (lease : Value) : Check (Int × Int) := do
  Python.exact lease leaseKeys "lease"
  require (field lease "schema" = .str schema) "schema must be %s" [.text schema]
  nodeIdField (field lease "node_id") "node_id"
  nodeIdField (field lease "issuer") "issuer"
  Python.hexField (field lease "ak_name") 68 "ak_name"
  require ((asInteger (field lease "epoch")).any (fun v => 1 ≤ v && v < 2 ^ 63))
    "epoch must be an integer >= 1" []
  ["manifest_digest", "session_id", "nonce"].forM fun k => Python.hexField (field lease k) 64 k
  stateFields lease "lease"
  let issued ← Heartbeat.parseTime (field lease "issued_at") "issued_at"
  let expires ← Heartbeat.parseTime (field lease "expires_at") "expires_at"
  require (issued < expires) "expires_at must be after issued_at" []
  require (expires - issued ≤ maxLifetime)
    "a runtime lease lives at most %d seconds (this one: %d)"
    [.number maxLifetime, .number (expires - issued)]
  return (issued, expires)

/-- `signed_digest`. -/
def signedDigest (lease : Value) : List UInt8 := Sha256.sum (domain ++ Python.canonical lease)

/-- `([0-9a-f]{2}){1,n}`. -/
def matchesPairs (most : Nat) (s : String) : Bool :=
  s.toList.all isLowerHex && s.toList.length % 2 = 0 && 2 ≤ s.toList.length &&
    s.toList.length ≤ 2 * most

/-- A refusal of the attestation, as one of the lease. -/
def attested {α : Type} : Check α → Check α
  | .ok a => .ok a
  | .error refusal => .error ⟨"the lease signature is refused: " ++ refusal.format, refusal.args⟩

/-- `_signature`. The signature itself is checked by a program outside. -/
def checkSignature (signs : Attest.Bytes → Attest.Bytes → Attest.Bytes → Bool)
    (envelope issuer : Value) : Check Unit := do
  let sig := field envelope "signature"
  Python.exact sig ["ak_public", "quote", "sig"] "signature"
  [("ak_public", 1024), ("quote", 1024), ("sig", 256)].forM fun item =>
    require ((asText (field sig item.1)).any (matchesPairs item.2))
      "signature.%s must be lowercase hex, at most %d bytes" [.text item.1, .number item.2]
  let identity ← attested (Attest.akIdentity (hexBytes (textOf (field sig "ak_public"))))
  require (String.ofList (hexText identity.1) = textOf (field issuer "ak_name"))
    "the lease is not signed by the AK the manifest names for %s" [.value (field issuer "node_id")]
  let quote := hexBytes (textOf (field sig "quote"))
  attested (require (signs identity.2 quote (hexBytes (textOf (field sig "sig"))) = true)
    "the quote's signature does not verify under the enrolled AK" [])
  let parsed ← attested (Attest.parseQuote quote)
  require (parsed.qualifiedSigner =
      Attest.qualifiedName (hexBytes (textOf (field issuer "ek_name"))) identity.1)
    "the lease is not signed by %s's AK under the EK the manifest names"
    [.value (field issuer "node_id")]
  require (parsed.extraData = signedDigest (field envelope "lease"))
    "the quote is not over this lease" []

/-- `verify`: the seconds left. -/
def verify (signs : Attest.Bytes → Attest.Bytes → Attest.Bytes → Bool) (envelope manifest : Value)
    (now : Int) : Check Int := do
  Python.exact envelope ["lease", "signature"] "envelope"
  let lease := field envelope "lease"
  let (issued, expires) ← validate lease
  let nodes ← Python.validate manifest
  let subjectId := textOf (field lease "node_id")
  let issuerId := textOf (field lease "issuer")
  let subject ← demand (nodes.at subjectId) "%s is not in the manifest" [.text subjectId]
  require (field lease "ak_name" = field subject "ak_name")
    "the lease names another AK than the manifest's for %s" [.text subjectId]
  let serves ← Python.may manifest subjectId .serve
  require (serves = true) "%s may not serve under epoch %d (%s)"
    [.text subjectId, .value (field manifest "epoch"), .value (field subject "state")]
  require (issuerId ≠ subjectId) "a node does not vouch for itself" []
  let authorizes ← Python.may manifest issuerId .authorize
  let issuer ← demand ((nodes.at issuerId).filter (fun _ => authorizes))
    "%s may not authorize under epoch %d" [.text issuerId, .value (field manifest "epoch")]
  let epoch := (asInteger (field lease "epoch")).getD 0
  require (epoch ≤ Membership.epochOf manifest)
    "the lease is from epoch %d, newer than this verifier's %d: fetch the chain"
    [.number epoch, .number (Membership.epochOf manifest)]
  onlyIf (epoch = Membership.epochOf manifest) <|
    require (field lease "manifest_digest" = .str (Python.digest manifest))
      "the lease is for another manifest at epoch %d (digest mismatch)" [.number epoch]
  checkSignature signs envelope issuer
  require (issued ≤ now + futureSkew) "the lease is issued in the future (%s)"
    [.value (field lease "issued_at")]
  require (now < expires) "EXPIRED: the runtime lease expired at %s"
    [.value (field lease "expires_at")]
  return expires - now

end Regalia.Lease
