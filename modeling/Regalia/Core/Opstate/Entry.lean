import Regalia.Core.Heartbeat.Envelope
import Regalia.Core.Lease.Session
import Regalia.Data.SortedMap

/-!
# Operational State

`deploy/baremetal/opstate.py`: the entries a cluster keeps in etcd. A spend, a
sequence and a quota are signed by the session key of the node that made them,
a key's state by its approvers; a session is signed by the node's key in the
membership chain.

`verify` and `verifySession` judge what is read, from the key it stands under
to its signatures.

## Main definitions

* `Kind`, `validate`: The kinds of entries and their schema.
* `keyFor`, `message`: Where an entry stands, and what of it is signed.
* `ApproverSet`, `approverSetDigest`: A set of approvers and its name.
* `verifySession`: A session and the end of its window.
* `verify`: The entry of a value.
* `fresh`: Whether an entry is new to its reader.
-/

namespace Regalia.Opstate

open Regalia.Membership

def schema : String := "regalia.opstate/v1"

def domain : List UInt8 := GoString.ofText "regalia-opstate/v1" ++ [0]

/-- `PREFIX`. -/
def root : String := "/regalia/v1/"

def maxEntryBytes : Nat := 4096

def maxApprovers : Nat := 64

/-- `MAX_REQUEST_LIFE_S`. -/
def maxRequestLife : Int := 900

/-- `SKEW_S`. -/
def skew : Int := 60

/-! ### Kinds -/

inductive Kind where
  | spend
  | sequence
  | quota
  | keyState
  deriving DecidableEq, Repr

def Kind.text : Kind → String
  | .spend => "spend"
  | .sequence => "sequence"
  | .quota => "quota"
  | .keyState => "key-state"

/-- `KINDS`. -/
def kinds : List Kind := [.spend, .sequence, .quota, .keyState]

def Kind.ofValue (v : Value) : Option Kind := kinds.find? (fun k => v = .str k.text)

/-- `NODE_SIGNED`. -/
def Kind.nodeSigned : Kind → Bool
  | .keyState => false
  | _ => true

def common : List String := ["schema", "kind", "at"]

/-- `FIELDS`. -/
def Kind.fields : Kind → List String
  | .spend => common ++ ["nonce_digest", "principal", "object_id", "purpose", "environment",
      "payload_sha256", "approvers", "approver_set", "approvals_sha256", "node_id", "boot_id",
      "lease_digest", "lease_expires_at", "expires_at"]
  | .sequence => common ++ ["sequence_key", "value", "nonce_digest", "node_id", "boot_id"]
  | .quota => common ++ ["principal", "utc_date", "counter", "total", "cap", "nonce_digest",
      "node_id", "boot_id"]
  | .keyState => common ++ ["object_id", "state", "version", "prev_digest", "approver_set",
      "signing_profile"]

inductive KeyState where
  | enabled
  | disabled
  | destroyed
  deriving DecidableEq, Repr

def KeyState.text : KeyState → String
  | .enabled => "enabled"
  | .disabled => "disabled"
  | .destroyed => "destroyed"

/-- `KEY_STATES`. -/
def keyStates : List KeyState := [.enabled, .disabled, .destroyed]

def KeyState.ofValue (v : Value) : Option KeyState := keyStates.find? (fun s => v = .str s.text)

/-! ### Patterns -/

/-- `[\x21-\x7e]{1,256}`. -/
def matchesName : String → Bool :=
  matchesClass (fun c => 0x21 ≤ c.toNat && c.toNat ≤ 0x7e) 256

/-- `[0-9]{4}-[0-9]{2}-[0-9]{2}`. -/
def matchesDate (s : String) : Bool :=
  match s.toList with
  | [a, b, c, d, '-', e, f, '-', g, h] => [a, b, c, d, e, f, g, h].all Char.isDigit
  | _ => false

/-- `[0-9a-f]{8}(-[0-9a-f]{4}){3}-[0-9a-f]{12}`. -/
def matchesBootID (s : String) : Bool :=
  let parts := s.toList.splitOn '-'
  parts.map List.length = [8, 4, 4, 4, 12] && parts.all (fun part => part.all isLowerHex)

/-- `[a-z0-9][a-z0-9-]{0,63}`. -/
def matchesProfile (s : String) : Bool :=
  match s.toList with
  | [] => false
  | c :: cs => lowerAlphanum c && cs.length ≤ 63 && cs.all (fun c => lowerAlphanum c || c = '-')

/-! ### The schema -/

variable (crypto : Crypto) (value : Value) (entry : Value)

/-- `_name`. -/
def nameField (label : String) : Check Unit :=
  require ((asText value).any matchesName) "%s must be 1 to 256 printable characters, no space"
    [.text label]

/-- `_count`. -/
def countField (label : String) : Check Unit :=
  require ((asInteger value).any (fun n => 0 ≤ n && n < 2 ^ 63)) "%s must be an integer from 0"
    [.text label]

def nodeField : Check Unit :=
  require ((asText value).any matchesNodeID) "node_id must be a node ID" []

def bootField : Check Unit :=
  require ((asText value).any matchesBootID) "boot_id must be a boot UUID" []

/-- The key a request's nonce is spent under. -/
def nonceDigest (nonce : String) : Check String := do
  require (nonce ≠ "") "a nonce is a non-empty string" []
  return String.ofList (hexText (Sha256.sum (GoString.ofText nonce)))

def validateSpend : Check Unit := do
  ["principal", "object_id", "purpose", "environment"].forM fun k => nameField (field entry k) k
  Python.hexField (field entry "payload_sha256") 64 "payload_sha256"
  Python.hexField (field entry "lease_digest") 64 "lease_digest"
  let approvers ← demand ((asList (field entry "approvers")).filter (·.length ≤ maxApprovers))
    "approvers must be a list of at most %d" [.number maxApprovers]
  approvers.forM fun a => nameField a "an approver ID"
  let names := approvers.map textOf
  require (names = names.dedup.insertionSort (· ≤ ·)) "approvers must be sorted, each once" []
  Python.hexField (field entry "approver_set") 64 "approver_set"
  Python.hexField (field entry "approvals_sha256") 64 "approvals_sha256"
  let at_ ← Heartbeat.parseTime (field entry "at") "at"
  let leased ← Heartbeat.parseTime (field entry "lease_expires_at") "lease_expires_at"
  require (at_ < leased) "the signing node's lease had run out when it spent" []
  let expires ← Heartbeat.parseTime (field entry "expires_at") "expires_at"
  require (at_ < expires) "the request had expired when it was spent" []
  require (expires - at_ ≤ maxRequestLife)
    "the request stays spendable %d s after it is spent, more than %d s: refused (a lone survivor's wait is bounded by this)"
    [.number (expires - at_), .number maxRequestLife]

def validateSequence : Check Unit := do
  nameField (field entry "sequence_key") "sequence_key"
  countField (field entry "value") "value"

def validateQuota : Check Unit := do
  nameField (field entry "principal") "principal"
  let date ← demand ((asText (field entry "utc_date")).filter matchesDate)
    "utc_date must be YYYY-MM-DD" []
  let _ ← Heartbeat.parseTime (.str (date ++ "T00:00:00Z")) "utc_date"
  nameField (field entry "counter") "counter"
  countField (field entry "total") "total"
  countField (field entry "cap") "cap"
  let total := (asInteger (field entry "total")).getD 0
  let cap := (asInteger (field entry "cap")).getD 0
  require (total ≤ cap) "the total %d is over the cap %d" [.number total, .number cap]

def validateKeyState : Check Unit := do
  nameField (field entry "object_id") "object_id"
  require (KeyState.ofValue (field entry "state")).isSome "state must be one of %s"
    [.text (", ".intercalate (keyStates.map KeyState.text))]
  let version ← demand ((asInteger (field entry "version")).filter
      (fun n => 1 ≤ n && n < 2 ^ 63))
    "version must be an integer from 1" []
  if version = 1 then
    require (field entry "prev_digest" = .str "")
      "the first state of a key replaces nothing (prev_digest \"\")" []
  else Python.hexField (field entry "prev_digest") 64 "prev_digest"
  Python.hexField (field entry "approver_set") 64 "approver_set"
  require ((asText (field entry "signing_profile")).any matchesProfile)
    "signing_profile must be a profile name" []

def Kind.validate : Kind → Check Unit
  | .spend => validateSpend entry
  | .sequence => validateSequence entry
  | .quota => validateQuota entry
  | .keyState => validateKeyState entry

/-- Schema only. The entry's kind. -/
def validate (entry : Value) : Check Kind := do
  require (isObject entry) "the entry must be an object" []
  let kind ← demand (Kind.ofValue (field entry "kind")) "kind must be one of %s"
    [.text (", ".intercalate (kinds.map Kind.text))]
  Python.exact entry kind.fields ("the " ++ kind.text ++ " entry")
  require (field entry "schema" = .str schema) "schema must be %s" [.text schema]
  let _ ← Heartbeat.parseTime (field entry "at") "at"
  require ((Python.canonical entry).length ≤ maxEntryBytes) "the entry is over %d bytes"
    [.number maxEntryBytes]
  onlyIf kind.nodeSigned do
    nodeField (field entry "node_id")
    bootField (field entry "boot_id")
    Python.hexField (field entry "nonce_digest") 64 "nonce_digest"
  kind.validate entry
  return kind

/-! ### Keys and messages -/

/-- `_h`. -/
def hashed (name : String) : String :=
  String.ofList (hexText (Sha256.sum (GoString.ofText name)))

/-- The key of the spend of a nonce. -/
def nonceKey (digest : String) : String := root ++ "nonces/" ++ digest

def Kind.key : Kind → String
  | .spend => nonceKey (textOf (field entry "nonce_digest"))
  | .sequence => root ++ "seq/" ++ hashed (textOf (field entry "sequence_key"))
  | .quota => root ++ "quota/" ++ hashed (textOf (field entry "principal")) ++ "/" ++
      textOf (field entry "utc_date") ++ "/" ++ hashed (textOf (field entry "counter"))
  | .keyState => root ++ "keys/" ++ hashed (textOf (field entry "object_id")) ++ "/state"

/-- `key_for`: the key an entry stands under. -/
def keyFor : Check String := do
  let kind ← validate entry
  return kind.key entry

/-- What is signed of an entry. -/
def signedBytes : List UInt8 := domain ++ Python.canonical entry

def message : Check (List UInt8) := do
  let _ ← validate entry
  return signedBytes entry

/-- `entry_digest`. -/
def entryDigest : String := Python.digest entry

/-- How a refusal names a digest. -/
def short (digest : String) : String := String.ofList (digest.toList.take 16)

/-! ### Approver sets -/

/-- The approvers' Ed25519 keys in hex, by name, and the threshold. -/
structure ApproverSet where
  approvers : SortedMap String String
  required : Int

/-- Every set the policy has had, by digest. -/
abbrev ApproverSets := String → Option ApproverSet

def approverSetDigest (set : ApproverSet) : String :=
  Python.digest (.obj
    [("approvers", .obj (set.approvers.entries.map (fun e => (e.1, .str e.2)))),
      ("required", .num set.required)])

/-! ### Sessions -/

def sessionSchema : String := "regalia.opstate-session/v1"

def sessionDomain : List UInt8 := GoString.ofText "regalia-opstate-session/v1" ++ [0]

def sessionFields : List String := ["schema", "node_id", "boot_id", "session_key", "issued_at"]

/-- `session_key_path`: where a session stands. -/
def sessionKeyPath : Check String := do
  Python.exact entry sessionFields "the session entry"
  require (field entry "schema" = .str sessionSchema) "schema must be %s" [.text sessionSchema]
  nodeField (field entry "node_id")
  bootField (field entry "boot_id")
  Lease.sessionPublic (field entry "session_key") "session_key"
  let _ ← Heartbeat.parseTime (field entry "issued_at") "issued_at"
  return root ++ "sessions/" ++ textOf (field entry "node_id") ++ "/" ++
    textOf (field entry "boot_id") ++ "/" ++ textOf (field entry "session_key")

def sessionBytes : List UInt8 := sessionDomain ++ Python.canonical entry

/-- `_signing_key`: a node's key under a manifest. -/
def signingKeyOf (manifest : Value) (id : String) : Check (Option (Algorithm × String)) := do
  let nodes ← Python.validate manifest
  match nodes.at id with
  | none => return none
  | some node =>
    if hasField node "signing_key" then do
      let key ← Python.typedKey (field node "signing_key") (id ++ "'s signing_key") signingKeyAlgs
      return some key
    else return none

def issuedAt (manifest : Value) : Check Int :=
  Heartbeat.parseTime (field manifest "issued_at") "a manifest's issued_at"

/-- A session that is signed by the key its node had when it was issued, and
    the time from which another key stands in the chain. -/
def verifySession (key value : Value) (chain : List Value) :
    Check (Value × Option Value) := do
  Python.exact value ["entry", "signature"] "the session value"
  let entry := field value "entry"
  let path ← sessionKeyPath entry
  require (key = .str path) "the session entry belongs under %s, not %s" [.text path, .value key]
  require (chain ≠ []) "a session is judged against the membership chain" []
  let issued ← Heartbeat.parseTime (field entry "issued_at") "issued_at"
  let before ← chain.filterM (fun m => do return decide ((← issuedAt m) ≤ issued))
  let id := textOf (field entry "node_id")
  let last ← demand before.getLast? "%s's session is dated before the first manifest" [.text id]
  let held ← signingKeyOf last id
  let inForce ← demand held "%s had no signing key at epoch %d, when its session is dated"
    [.text id, .value (field last "epoch")]
  Python.verifyRevocation crypto inForce.1 inForce.2 (sessionBytes entry) (field value "signature")
    (id ++ "'s session entry")
  let later ← (chain.drop (chain.findIdx (Python.equals · last) + 1)).filterM
    (fun m => do return decide ((← signingKeyOf m id) ≠ some inForce))
  return (entry, later.head?.map (fun m => field m "issued_at"))

/-! ### Entries -/

/-- `_ed25519`. -/
def verifyEd25519 (key sig : Value) (raw : List UInt8) (label : String) :
    Check Unit := do
  Python.hexField key 64 (label ++ " key")
  Python.hexField sig 128 (label ++ " signature")
  require ((hexBytes (textOf key)).length = 32 ∧
      crypto.ed25519 (hexBytes (textOf key)) raw (hexBytes (textOf sig)))
    "%s signature does not verify" [.text label]

/-- Whether a verified session names a key for a node and a boot at a time. -/
abbrev Sessions := Value → Value → Value → Value → Check Bool

/-- An entry signed by a node's session key. -/
def verifyNode (raw : List UInt8) (signatures : List Value)
    (sessions : Sessions) : Check Value := do
  require (signatures.length = 1) "a node's entry carries exactly one signature" []
  let sig := signatures.headD .null
  Python.exact sig ["party", "boot_id", "session_key", "sig"] "the node's signature"
  require (field sig "party" = field entry "node_id" ∧ field sig "boot_id" = field entry "boot_id")
    "the entry is signed as %s, boot %s; it names %s, boot %s"
    [.value (field sig "party"), .value (field sig "boot_id"), .value (field entry "node_id"),
      .value (field entry "boot_id")]
  Python.hexField (field sig "session_key") 64 "the signature's session_key"
  let named ← sessions (field entry "node_id") (field entry "boot_id") (field sig "session_key")
    (field entry "at")
  require named "no verified session entry names that key for %s in boot %s at %s"
    [.value (field entry "node_id"), .value (field entry "boot_id"), .value (field entry "at")]
  verifyEd25519 crypto (field sig "session_key") (field sig "sig") raw
    (textOf (field entry "node_id") ++ "'s session")
  return entry

/-- One approval of a key's state. -/
def countKeyApproval (set : ApproverSet) (raw : List UInt8)
    (counted : List String) (sig : Value) : Check (List String) := do
  Python.exact sig ["party", "sig"] "an approval"
  let party ← demand (asText (field sig "party")) "%s is not an approver"
    [.value (field sig "party")]
  let key ← demand (set.approvers.get? party) "%s is not an approver" [.text party]
  require (party ∉ counted) "%s approved twice" [.text party]
  verifyEd25519 crypto (.str key) (field sig "sig") raw (party ++ "'s approval")
  return counted ++ [party]

/-- An entry signed by the approvers it names. -/
def verifyKeyState (raw : List UInt8) (signatures : List Value)
    (sets : ApproverSets) : Check Value := do
  let name := textOf (field entry "approver_set")
  let set ← demand (sets name) "the approver set %s is not one this verifier knows"
    [.text (short name)]
  require (approverSetDigest set = name) "the approver set held under %s is not that set"
    [.text (short name)]
  require (1 ≤ set.required ∧ set.approvers.entries ≠ [])
    "a key-state change needs an approver set and a threshold" []
  require (signatures.length ≤ maxApprovers) "at most %d approvals" [.number maxApprovers]
  let counted ← signatures.foldlM (countKeyApproval crypto set raw) []
  require (set.required ≤ counted.length) "%d of %d required approvals"
    [.number counted.length, .number set.required]
  return entry

/-- `verify`: the entry of the value under a key. -/
def verify (key : String) (value : Value) (sessions : Sessions)
    (sets : ApproverSets) : Check Value := do
  Python.exact value ["entry", "signatures"] "the opstate value"
  let entry := field value "entry"
  let place ← keyFor entry
  require (key = place) "the entry belongs under %s, not %s" [.text place, .text key]
  let raw ← message entry
  let signatures ← demand ((asList (field value "signatures")).filter (· ≠ []))
    "the entry carries no signature" []
  if (Kind.ofValue (field entry "kind")).any Kind.nodeSigned then
    verifyNode crypto entry raw signatures sessions
  else verifyKeyState crypto entry raw signatures sets

/-- `fresh`: an entry is dated when its reader sees it arrive. -/
def fresh (now : Rat) : Check Unit := do
  let _ ← validate entry
  let at_ ← Heartbeat.parseTime (field entry "at") "at"
  require (-(skew : Rat) ≤ now - at_ ∧ now - at_ ≤ (skew : Rat))
    "the entry is dated %s, %d s from this reader's clock when it arrived (more than %d s): refused"
    [.value (field entry "at"), .number ((now - at_).num.tdiv (now - at_).den), .number skew]

end Regalia.Opstate
