import Regalia.Core.Membership.Python

/-!
# Heartbeats

`deploy/baremetal/heartbeat.py`: what a heartbeat is, how it is signed under a
manifest, and how far its sequence may run ahead of a counter.

Under a v4 manifest a quorum signs a heartbeat, under the earlier schemas one
revocation key does. `verify` adds to the signatures that the heartbeat is for
the current manifest and lives no longer than that allows. Time and sequence
are left to whoever accepts it.

## Main definitions

* `parseTime`: A timestamp, in seconds.
* `validate`: The schema of a heartbeat.
* `signedBy`: The heartbeat in an envelope and the parties that signed it.
* `verify`: The same, for the current manifest.
* `allowedJump`: How far a sequence may jump.
-/

namespace Regalia.Heartbeat

open Regalia.Membership

def schema : String := "regalia.heartbeat/v1"

/-- What a signature is over, before the canonical heartbeat. -/
def domain : List UInt8 := GoString.ofText "regalia-heartbeat/v1" ++ [0]

def heartbeatKeys : List String :=
  ["schema", "epoch", "sequence", "issued_at", "expires_at", "manifest_digest"]

/-- `MAX_LIFETIME`: the bound under a v1 manifest. -/
def maxLifetimeV1 : Int := 24 * 3600

/-- `HARD_MAX_LIFETIME`. -/
def hardMaxLifetime : Int := heartbeatHardMax

/-- `MIN_INTERVAL_S` and `MAX_ALLOWANCE`. -/
def minInterval : Int := 600

def maxAllowance : Int := 1000 + 52704

/-- `Counter.MAX_JUMP`. -/
def maxJump : Int := 1000

/-! ### Times -/

/-- The fields as `"%04d-%02d-%02dT%02d:%02d:%02dZ"` prints them. -/
def timeText (t : Civil) : List Char :=
  paddedDecimal 4 t.year ++ '-' :: paddedDecimal 2 t.month ++ '-' :: paddedDecimal 2 t.day ++
    'T' :: paddedDecimal 2 t.hour ++ ':' :: paddedDecimal 2 t.minute ++ ':' ::
    paddedDecimal 2 t.second ++ ['Z']

/-- What `strptime` takes: a date from the year one on, and seconds up to
    61. -/
def strptimeTakes (t : Civil) : Bool :=
  t.realDate && 1 ≤ t.year && t.hour ≤ 23 && t.minute ≤ 59 && t.second ≤ 61

/-- `parse_time`. -/
def parseTime (v : Value) (label : String) : Check Int := do
  let text ← demand (asText v) "%s must be UTC, YYYY-MM-DDTHH:MM:SSZ" [.text label]
  let t ← demand (Regalia.parseTime text.toList) "%s must be UTC, YYYY-MM-DDTHH:MM:SSZ"
    [.text label]
  require (strptimeTakes t) "%s is not a real date" [.text label]
  -- a leap second has another name, and only that one formats back to itself
  require (timeText (Civil.ofUnix t.unix) = text.toList) "%s is not a real date" [.text label]
  return t.unix

/-! ### The heartbeat -/

/-- An integer from one on that fits 63 bits, and no bool. -/
def positiveField (heartbeat : Value) (k : String) : Check Unit :=
  require ((asInteger (field heartbeat k)).any (fun v => 1 ≤ v && v < 2 ^ 63))
    "%s must be an integer >= 1" [.text k]

/-- Schema only. The times of issue and expiry. -/
def validate (heartbeat : Value) : Check (Int × Int) := do
  Python.exact heartbeat heartbeatKeys "heartbeat"
  require (field heartbeat "schema" = .str schema) "schema must be %s" [.text schema]
  positiveField heartbeat "epoch"
  positiveField heartbeat "sequence"
  Python.hexField (field heartbeat "manifest_digest") 64 "manifest_digest"
  let issued ← parseTime (field heartbeat "issued_at") "issued_at"
  let expires ← parseTime (field heartbeat "expires_at") "expires_at"
  require (issued < expires) "expires_at must be after issued_at" []
  require (expires - issued ≤ hardMaxLifetime)
    "a heartbeat lives at most %d s under any manifest (this one: %d s)"
    [.number hardMaxLifetime, .number (expires - issued)]
  return (issued, expires)

def sequenceOf (heartbeat : Value) : Int := (asInteger (field heartbeat "sequence")).getD 0

/-- What is signed of a heartbeat. -/
def message (heartbeat : Value) : List UInt8 := domain ++ Python.canonical heartbeat

/-- The longest a heartbeat for a manifest may live. -/
def maxLifetime (manifest : Value) : Int :=
  if field manifest "schema" = .str Schema.v1.text then maxLifetimeV1
  else min ((asInteger (field manifest "heartbeat_max_lifetime_s")).getD 0) hardMaxLifetime

/-- How far a sequence may jump past the counter: one more for each interval
    since the held heartbeat was issued, if there is one. -/
def allowedJump (heartbeat held : Value) (base : Int) : Check Int :=
  match parseTime (field (field held "heartbeat") "issued_at")
    "the held heartbeat's issued_at" with
  | .error _ => .ok base
  | .ok before => do
    let issued ← parseTime (field heartbeat "issued_at") "issued_at"
    -- the intervals begun, rounded up
    return if before < issued then min (base + -((before - issued) / minInterval)) maxAllowance
      else base

/-! ### Envelopes -/

/-- What an envelope holds: the heartbeat, its times and its parties. -/
structure Signed where
  heartbeat : Value
  issued : Int
  expires : Int
  parties : List String
  deriving DecidableEq

variable (crypto : Crypto)

/-- A heartbeat signed by a quorum. -/
def signedByQuorum (envelope manifest : Value) : Check Signed := do
  Python.exact envelope ["heartbeat", "signatures"] "envelope"
  let heartbeat := field envelope "heartbeat"
  let times ← validate heartbeat
  let _ ← Python.validate manifest
  let parties ← Python.countingParties crypto (some manifest) (message heartbeat)
    (field envelope "signatures") "heartbeat"
  let rule := field manifest "heartbeat_signers"
  require (Python.meets rule parties) "the heartbeat is signed by %s: %d of %s are needed"
    [if parties = [] then .text "no counting party" else .names (parties.insertionSort (· ≤ ·)),
      .value (field rule "threshold"), .value (field rule "parties")]
  return ⟨heartbeat, times.1, times.2, parties⟩

/-- A heartbeat signed by one revocation key. -/
def signedByKey (envelope manifest : Value) : Check Signed := do
  Python.exact envelope ["heartbeat", "signature"] "envelope"
  let sig := field envelope "signature"
  Python.exact sig ["key", "sig"] "signature"
  let key ← demand ((asText (field sig "key")).filter matchesSignatureKey)
    "signature.key must be 64 or 130 lowercase hex" []
  Python.hexField (field sig "sig") 128 "signature.sig"
  let heartbeat := field envelope "heartbeat"
  let times ← validate heartbeat
  let _ ← Python.validate manifest
  let named ← Python.revocationAlg manifest key
  let alg ← demand named
    "the signing key is not a revocation key named by the current manifest" []
  require (Python.verifyRevocation crypto alg key (message heartbeat) (field sig "sig")
      "heartbeat").isOk
    "the heartbeat signature does not verify" []
  return ⟨heartbeat, times.1, times.2, []⟩

/-- `signed_by`, as the manifest's schema says. -/
def signedBy (envelope manifest : Value) : Check Signed :=
  if schemaOf manifest = some .v4 then signedByQuorum crypto envelope manifest
  else signedByKey crypto envelope manifest

/-- `verify`: the heartbeat of an envelope that is for the current manifest. -/
def verify (envelope manifest : Value) : Check Signed := do
  let signed ← signedBy crypto envelope manifest
  let lives := signed.expires - signed.issued
  onlyIf (ownerParty ∈ signed.parties) do
    let most := (asInteger (field manifest "owner_heartbeat_lifetime_s")).getD 0
    require (lives ≤ most) "a heartbeat the owner signed lives at most %d s (this one: %d s)"
      [.number most, .number lives]
  require (field signed.heartbeat "epoch" = field manifest "epoch")
    "the heartbeat is for epoch %d, the current manifest is epoch %d"
    [.value (field signed.heartbeat "epoch"), .value (field manifest "epoch")]
  require (field signed.heartbeat "manifest_digest" = .str (Python.digest manifest))
    "the heartbeat is for another manifest (digest mismatch)" []
  require (lives ≤ maxLifetime manifest)
    "a heartbeat lives at most %d s under the current manifest (this one: %d s)"
    [.number (maxLifetime manifest), .number lives]
  return signed

end Regalia.Heartbeat
