import Regalia.Core.Membership.Format

/-!
# The Python Verifier

`deploy/baremetal/membership.py` up to `may`: what makes a manifest valid, who
may sign one, and which manifest may follow which.

The functions stand in the order of the module and keep its checks in order.
A Python set or dict that is only asked for what it holds is the list of what
was put into it, so the loops that fill one carry that list.

## Main definitions

* `validate`: Schema and uniqueness; the nodes by ID.
* `countingParties`: The parties whose signatures count.
* `verifyEnvelope`: The manifest in an envelope and who signed it.
* `transition`: Whether a verified manifest may follow the current one.
* `accept`, `acceptChain`: Both, for one envelope and for a chain.
* `may`: Whether a node may do something under a manifest.
-/

namespace Regalia.Membership

namespace Python

/-! ### Values -/

mutual

/-- A value with every bool as the number it equals. -/
def boolsAsInts : Value → Value
  | .null => .null
  | .bool b => .num (if b then 1 else 0)
  | .num n => .num n
  | .str s => .str s
  | .arr items => .arr (boolsAsIntsItems items)
  | .obj fields => .obj (boolsAsIntsFields fields)

def boolsAsIntsItems : List Value → List Value
  | [] => []
  | v :: vs => boolsAsInts v :: boolsAsIntsItems vs

def boolsAsIntsFields : List (String × Value) → List (String × Value)
  | [] => []
  | (k, v) :: fs => (k, boolsAsInts v) :: boolsAsIntsFields fs

end

/-- `==`: a bool is a number, and a dict has no order, as in `Document`. -/
def equals (a b : Value) : Bool := boolsAsInts a = boolsAsInts b

/-- `isinstance(v, int)`: a bool passes. -/
def asInt : Value → Option Int
  | .num n => some n
  | .bool b => some (if b then 1 else 0)
  | _ => none

/-- `set(a) == set(b)`. -/
def sameSet (a b : List String) : Bool := a.all (· ∈ b) && b.all (· ∈ a)

def exact (value : Value) (keys : List String) (label : String) : Check Unit := do
  require (isObject value) "%s must be an object" [.text label]
  let missing := keys.filter (· ∉ value.keys)
  let unknown := value.keys.filter (· ∉ keys)
  require (missing = [] ∧ unknown = []) "%s fields mismatch: missing=%s unknown=%s"
    [.text label, .names (missing.insertionSort (· ≤ ·)), .names (unknown.insertionSort (· ≤ ·))]

def hexField (value : Value) (n : Nat) (label : String) : Check Unit :=
  require ((asText value).any (matchesHex n)) "%s must be %d lowercase hex"
    [.text label, .number n]

/-! ### Keys -/

/-- The algorithm and key of one entry of the revocation keys. -/
def revocationEntry (entry : Value) (label : String) : Check (Algorithm × String) :=
  match asText entry with
  | some bare => do
    hexField entry 64 label
    return (.ed25519, bare)
  | none => do
    exact entry ["alg", "key"] label
    let alg ← demand (Algorithm.ofValue typedAlgorithms (field entry "alg"))
      "%s: alg must be one of %s" [.text label, .text (joined typedAlgorithms)]
    hexField (field entry "key") 130 (label ++ ": an ecdsa-p256 key (04 || X || Y)")
    let key := textOf (field entry "key")
    require (key.toList.take 2 = ['0', '4'])
      "%s: an ecdsa-p256 key must be an uncompressed point" [.text label]
    require (onP256 (hexBytes key)) "%s: not a point on P-256" [.text label]
    return (alg, key)

/-- The pinned root: one entry, or a list of them. -/
def rootEntries (root : Value) (label : String) : Check (List (Algorithm × String)) := do
  let entries := (asList root).getD [root]
  require (entries ≠ [] ∧ entries.length ≤ maxRootKeys)
    "the root is one key or a list of one to eight" []
  let out ← entries.mapM (fun entry => revocationEntry entry label)
  require ((out.map Prod.snd).dedup.length = out.length) "the root keys must be distinct" []
  return out

/-- An entry that is never a bare string. -/
def typedKey (entry : Value) (label : String) (algs : List Algorithm) :
    Check (Algorithm × String) := do
  require (isObject entry) "%s must be a typed key \x7b\"alg\", \"key\"\x7d" [.text label]
  exact entry ["alg", "key"] label
  let alg ← demand (Algorithm.ofValue algs (field entry "alg"))
    "%s: alg must be one of %s" [.text label, .text (joined algs)]
  if alg ≠ .ed25519 then revocationEntry entry label
  else do
    hexField (field entry "key") 64 (label ++ ": an ed25519 key")
    -- from_public_bytes asks for 32 bytes and nothing else
    require ((hexBytes (textOf (field entry "key"))).length = 32)
      "%s: not an Ed25519 public key" [.text label]
    return (.ed25519, textOf (field entry "key"))

/-- The algorithm the revocation keys give for a key, in their order. -/
def revocationAlgOf (key : String) : List Value → Check (Option Algorithm)
  | [] => return none
  | entry :: rest => do
    let found ← revocationEntry entry "a revocation key"
    if found.2 = key then return some found.1 else revocationAlgOf key rest

variable (label : String) (manifest : Value) (crypto : Crypto) (current : Option Value)
  (key : String) (seen : Seen) (schema : Schema) (node : Value)

def revocationAlg : Check (Option Algorithm) :=
  revocationAlgOf key (itemsOf (field manifest "revocation_keys"))

/-- A signature over a message, the way the key's entry says. -/
def verifyRevocation (alg : Algorithm) (key : String) (message : List UInt8)
    (sig : Value) (what : String) : Check Unit := do
  hexField sig 128 (what ++ " signature")
  let raw := hexBytes (textOf sig)
  match alg with
  | .ed25519 =>
    require ((hexBytes key).length = 32 ∧ crypto.ed25519 (hexBytes key) message raw)
      "the %s signature does not verify" [.text what]
  | .ecdsaP256 => do
    let r := bigEndianValue (raw.take 32)
    let s := bigEndianValue (raw.drop 32)
    require (0 < r ∧ r < p256Order ∧ 0 < s ∧ s ≤ p256Order / 2)
      "the %s signature is not a low-S P-256 signature" [.text what]
    require (onP256 (hexBytes key) ∧ crypto.ecdsa (hexBytes key) (Sha256.sum message) r s)
      "the %s signature does not verify" [.text what]

/-! ### Uniqueness -/

/-- `seen`: what has been met, each with the text of its use. -/
abbrev Seen := List (SeenKey × String)

def Seen.keys : List SeenKey := seen.map Prod.fst

def Seen.get (key : SeenKey) : Arg :=
  .text (((seen.find? (fun p => p.1 = key)).map Prod.snd).getD "None")

/-! ### Signer rules -/

/-- One rule: its parties are named once and exist, and its threshold is
    between the format's floor and their number. -/
def signerRule (byId : Nodes) (value : Value) (label : String) (ownerAlone : Bool) :
    Check Unit := do
  exact value ["threshold", "parties"] label
  let parties ← demand (((asList (field value "parties")).bind (fun items =>
      items.mapM asText)).filter (· ≠ []))
    "%s.parties must be a non-empty list of names" [.text label]
  require (parties.dedup.length = parties.length) "%s.parties must be distinct" [.text label]
  parties.forM fun p => require (p = ownerParty ∨ p ∈ byId.ids)
    "%s names %r, which is neither a node of this manifest nor %s"
    [.text label, .text p, .text ownerParty]
  let t ← demand (asInteger (field value "threshold")) "%s.threshold must be an integer"
    [.text label]
  let least := if ownerAlone ∧ parties = [ownerParty] then 1
    else if ownerAlone then nodeRuleFloor else heartbeatFloor
  require (least ≤ t ∧ t ≤ parties.length)
    "%s.threshold must be from %d to the number of its parties (%d)"
    [.text label, .number least, .number parties.length]

/-- One owner's key: typed, and not used before. -/
def ownerKey (item : Value × Nat) : Check Seen := do
  let label := itemLabel "owner_keys" item.2
  let found ← typedKey item.1 label ownerKeyAlgs
  require (.value found.2 ∉ seen.keys) "%s is already used (%s)"
    [.text label, seen.get (.value found.2)]
  return seen ++ [(.value found.2, label)]

def signerRules (byId : Nodes) (seen : Seen) : Check Unit := do
  let owners ← demand (asList (field manifest "owner_keys"))
    "owner_keys must be a list of one to %d keys" [.number maxOwnerKeys]
  require (1 ≤ owners.length ∧ owners.length ≤ maxOwnerKeys)
    "owner_keys must be a list of one to %d keys" [.number maxOwnerKeys]
  let _ ← owners.zipIdx.foldlM ownerKey seen
  let most := (asInt (field manifest "heartbeat_max_lifetime_s")).getD 0
  require ((asInteger (field manifest "owner_heartbeat_lifetime_s")).any
      (fun life => ownerHeartbeatMin ≤ life && life ≤ most))
    "owner_heartbeat_lifetime_s must be an integer from %d to heartbeat_max_lifetime_s"
    [.number ownerHeartbeatMin]
  singleRules.forM fun name => signerRule byId (field manifest name) name false
  let rules ← demand (asList (field manifest "revocation_signers"))
    "revocation_signers must be a list of one to %d rules" [.number maxRules]
  require (1 ≤ rules.length ∧ rules.length ≤ maxRules)
    "revocation_signers must be a list of one to %d rules" [.number maxRules]
  rules.zipIdx.forM fun item =>
    signerRule byId item.1 (itemLabel "revocation_signers" item.2) true

/-! ### Manifests -/

/-- The fields a node is held to: a tombstone's own, if they are a shape it
    may have. -/
def nodeShape : List String :=
  ((tombstoneShapes schema).find? (fun shape =>
    isObject node && terminal node && sameSet node.keys shape)).getD
    (nodeKeys schema)

/-- One identity of a node, not used before. -/
def claimIdentity (id : String) (seen : Seen) (k : String) : Check Seen := do
  let value := identityValue node k
  require (.value value ∉ seen.keys) "%s of %s is already used (%s)"
    [.text k, .text id, seen.get (.value value)]
  return seen ++ [(.value value, k ++ " of " ++ id)]

/-- One serial of a node, not listed before. -/
def claimSerial (id : String) (seen : Seen) (s : String) : Check Seen := do
  require (.hsm s ∉ seen.keys) "HSM %s is listed twice" [.text s]
  return seen ++ [(.hsm s, id)]

/-- One pass of the loop over the nodes. -/
def validateNode (found : Nodes × Seen) (item : Value × Nat) :
    Check (Nodes × Seen) := do
  let node := item.1
  let label := itemLabel "nodes" item.2
  exact node (nodeShape schema node) label
  let id ← demand ((asText (field node "node_id")).filter matchesNodeID)
    "%s.node_id must be a short lowercase name" [.text label]
  require (schema = .v4 → id ≠ ownerParty)
    "%s: %r is the owner's party name under %s, never a node_id"
    [.text label, .text ownerParty, .text Schema.v4.text]
  require (id ∉ found.1.ids) "duplicate node_id %r" [.text id]
  require (stateOf node).isSome "%s.state %r is not a known state"
    [.text label, .value (field node "state")]
  hexField (field node "ek_name") 68 (label ++ ".ek_name")
  hexField (field node "ak_name") 68 (label ++ ".ak_name")
  hexField (field node "wg_boot_pub") 64 (label ++ ".wg_boot_pub")
  hexField (field node "wg_service_pub") 64 (label ++ ".wg_service_pub")
  onlyIf (hasField node "ssh_host_pub") do
    hexField (field node "ssh_host_pub") 64 (label ++ ".ssh_host_pub")
  onlyIf (hasField node "signing_key") do
    let _ ← typedKey (field node "signing_key") (label ++ ".signing_key") signingKeyAlgs
  let serials ← demand (((asList (field node "hsm_serials")).bind (fun items =>
      items.mapM asText)).filter (fun l => l.all matchesSerial))
    "%s.hsm_serials" [.text label]
  let seen ← (identityKeys node).foldlM (claimIdentity node id) found.2
  let seen ← serials.foldlM (claimSerial id) seen
  return (found.1 ++ [(id, node)], seen)

def checkLifetime (manifest : Value) : Check Unit :=
  onlyIf schema.second do
    require ((asInt (field manifest "heartbeat_max_lifetime_s")).any
        (fun life => heartbeatMin ≤ life && life ≤ heartbeatHardMax))
      "heartbeat_max_lifetime_s must be an integer from %d to %d"
      [.number heartbeatMin, .number heartbeatHardMax]

def checkEpoch : Check Unit := do
  let e ← demand ((asInteger (field manifest "epoch")).filter (fun e => 1 ≤ e))
    "epoch must be an integer >= 1" []
  if e = 1 then
    require (field manifest "prev_digest" = .str "")
      "epoch 1 has no previous manifest (prev_digest \"\")" []
  else hexField (field manifest "prev_digest") 64 "prev_digest"

/-- The form, in ASCII digits at full width, and then `strptime`: a moment of
    the calendar from the year one on. -/
def issuedAt (v : Value) : Bool :=
  ((asText v).bind (fun s => parseTime s.toList)).any (fun t => t.real && 1 ≤ t.year)

def checkRevocationKeys (manifest : Value) : Check Unit :=
  onlyIf (schema ≠ .v4) do
    let keys ← demand (asList (field manifest "revocation_keys"))
      "revocation_keys must be a list" []
    let named ← keys.zipIdx.mapM (fun item =>
      revocationEntry item.1 (itemLabel "revocation_keys" item.2))
    require ((named.map Prod.snd).dedup.length = named.length)
      "revocation_keys must be distinct" []
    require (schema = .v3 ∨ keys.all (fun k => (asText k).isSome))
      "a typed revocation key (\x7b\"alg\": ...\x7d) needs schema %s" [.text Schema.v3.text]

/-- Schema and uniqueness. The manifest's nodes by ID. -/
def validate : Check Nodes := do
  require (isObject manifest) "manifest must be an object" []
  let schema ← demand (Schema.ofValue (field manifest "schema")) "schema must be %s"
    [.text (" or ".intercalate (schemas.map Schema.text))]
  exact manifest (manifestKeys schema) "manifest"
  checkLifetime schema manifest
  checkEpoch manifest
  require ((asText (field manifest "policy_version")).any matchesPolicy)
    "policy_version must be a short name" []
  require (issuedAt (field manifest "issued_at"))
    "issued_at must be UTC, YYYY-MM-DDTHH:MM:SSZ" []
  checkRevocationKeys schema manifest
  let nodes ← demand ((asList (field manifest "nodes")).filter (· ≠ []))
    "nodes must be a non-empty list" []
  let found ← nodes.zipIdx.foldlM (validateNode schema) ([], [])
  onlyIf (schema = .v4) (signerRules manifest found.1 found.2)
  return found.1

/-! ### Envelopes -/

/-- A v4 manifest's party keys are none of the pinned root's. -/
def apartFromRoot (manifest root : Value) : Check Unit :=
  onlyIf (schemaOf manifest = some .v4) do
    let entries ← rootEntries root "the root key"
    let roots := entries.map Prod.snd
    let owners := (itemsOf (field manifest "owner_keys")).zipIdx.map (fun item =>
      (itemLabel "owner_keys" item.2, textOf (field item.1 "key")))
    let signing := ((itemsOf (field manifest "nodes")).filter (hasField · "signing_key")).map
      (fun node => ("signing_key of " ++ textOf (field node "node_id"),
        identityValue node "signing_key"))
    (owners ++ signing).forM fun p => require (p.2 ∉ roots)
      "%s is a pinned root key: the payload root is never a quorum party" [.text p.1]

/-- The key a signature is by, if it is one the current manifest gives its
    party. -/
def partyKey (nodes : Nodes) (owners : List (String × Algorithm)) (party key : String) (i : Nat) :
    Check Algorithm :=
  if party = ownerParty then
    demand (owners.find? (fun p => p.1 = key) |>.map Prod.snd)
      "signatures[%d]: the key is not one of the current manifest's owner_keys" [.number i]
  else do
    let node ← demand ((nodes.at party).filter (hasField · "signing_key"))
      "signatures[%d]: %r is not a node of the current manifest with a signing_key"
      [.number i, .text party]
    let signing := field node "signing_key"
    require (field signing "key" = .str key)
      "signatures[%d]: the key is not %s's signing_key" [.number i, .text party]
    demand (Algorithm.ofValue revocationAlgs (field signing "alg"))
      "unknown revocation key algorithm %r" [.value (field signing "alg")]

/-- A node in one of these states is named but does not count. -/
def counts (nodes : Nodes) (party : String) : Bool :=
  party = ownerParty ||
    !((nodes.at party).bind stateOf).any NodeState.notCounting

/-- One pass of the loop over the signatures: the parties named, and those of
    them that count. -/
def countSignature (nodes : Nodes) (owners : List (String × Algorithm))
    (message : List UInt8) (what : String) (found : List String × List String)
    (item : Value × Nat) : Check (List String × List String) := do
  let sig := item.1
  let i := item.2
  exact sig ["party", "key", "sig"] (itemLabel "signatures" i)
  let party ← demand ((asText (field sig "party")).filter (· ∉ found.1))
    "signatures[%d]: party %r is named twice or is not a name" [.number i, .value (field sig "party")]
  let key ← demand ((asText (field sig "key")).filter matchesSignatureKey)
    "signatures[%d].key must be 64 or 130 lowercase hex" [.number i]
  let alg ← partyKey nodes owners party key i
  verifyRevocation crypto alg key message (field sig "sig")
    (what ++ " (" ++ itemLabel "signatures" i ++ ", " ++ party ++ ")")
  return (found.1 ++ [party], if counts nodes party then found.2 ++ [party] else found.2)

/-- The owner's keys, each with its algorithm. -/
def ownerKeys : Check (List (String × Algorithm)) := do
  let keys ← (itemsOf (field manifest "owner_keys")).mapM (fun e =>
    typedKey e "owner_keys" ownerKeyAlgs)
  return keys.map Prod.swap

/-- The parties whose signatures over a message count under the current v4
    manifest. -/
def countingParties (message : List UInt8)
    (signatures : Value) (what : String) : Check (List String) := do
  let current ← demand (current.filter (fun m => schemaOf m = some .v4))
    "a %s signed by a quorum needs a current %s manifest naming its signers"
    [.text what, .text Schema.v4.text]
  let list ← demand ((asList signatures).filter
      (fun l => 1 ≤ l.length && l.length ≤ maxSignatures))
    "signatures must be a list of one to %d signatures" [.number maxSignatures]
  let nodes ← validate current
  let owners ← ownerKeys current
  let found ← list.zipIdx.foldlM (countSignature crypto nodes owners message what) ([], [])
  return found.2

/-- Whether the counting parties meet one rule. -/
def meets (rule : Value) (parties : List String) : Bool :=
  let named := (itemsOf (field rule "parties")).map textOf
  (asInteger (field rule "threshold")).getD 0 ≤ ((parties.filter (· ∈ named)).dedup.length : Int)

/-- What is signed of a manifest. -/
def signedMessage : List UInt8 := domain ++ canonical manifest

/-- An envelope signed by a quorum. -/
def verifyQuorum (envelope root : Value) (current : Option Value) :
    Check (Value × Signer) := do
  exact envelope ["manifest", "signatures"] "envelope"
  let manifest := field envelope "manifest"
  let _ ← validate manifest
  apartFromRoot manifest root
  let parties ← countingParties crypto current (signedMessage manifest)
    (field envelope "signatures") "manifest"
  let rules := itemsOf (field (current.getD .null) "revocation_signers")
  require (rules.any (meets · parties))
    "the manifest's signatures meet no revocation_signers rule of the current manifest (counting: %s)"
    [.names (parties.insertionSort (· ≤ ·))]
  return (manifest, .quorum)

/-- `revocation_alg` of the current manifest, if there is one. -/
def currentAlg : Check (Option Algorithm) :=
  match current with
  | some current => revocationAlg current key
  | none => .ok none

/-- The signer a signature names, and the algorithm of its key: from the
    pinned entry or the current manifest's, never from the signature. -/
def signerKey (root : Value) (current : Option Value) (signer : Value) (key : String) :
    Check (Signer × Algorithm) :=
  if signer = .str "root" then do
    let entries ← rootEntries root "the root key"
    let entry ← demand (entries.find? (fun e => e.2 = key))
      "the signature names a root key that is not the pinned root" []
    return (.root, entry.1)
  else do
    let named ← currentAlg current key
    let alg ← demand named "the signing revocation key is not named by the current manifest" []
    return (.revocation, alg)

/-- An envelope with one signature. -/
def verifySingle (envelope root : Value) (current : Option Value) :
    Check (Value × Signer) := do
  exact envelope ["manifest", "signature"] "envelope"
  let sig := field envelope "signature"
  exact sig ["signer", "key", "sig"] "signature"
  require (field sig "signer" = .str "root" ∨ field sig "signer" = .str "revocation")
    "signer must be root or revocation" []
  let key ← demand ((asText (field sig "key")).filter matchesSignatureKey)
    "signature.key must be 64 or 130 lowercase hex" []
  hexField (field sig "sig") 128 "signature.sig"
  let named ← signerKey root current (field sig "signer") key
  let manifest := field envelope "manifest"
  let _ ← validate manifest
  apartFromRoot manifest root
  require (named.2 = .ed25519 ∨ schemaOf manifest = some .v3 ∨ schemaOf manifest = some .v4)
    "a manifest signed by a typed (%s) key needs schema %s"
    [.text named.2.text, .text (Schema.v3.text ++ " or " ++ Schema.v4.text)]
  require (verifyRevocation crypto named.2 key (signedMessage manifest) (field sig "sig")
      "manifest").isOk
    "the manifest signature does not verify" []
  return (manifest, named.1)

/-- The manifest in an envelope and who signed it. -/
def verifyEnvelope (envelope root : Value) (current : Option Value) :
    Check (Value × Signer) :=
  if hasField envelope "signatures" then verifyQuorum crypto envelope root current
  else verifySingle crypto envelope root current

/-! ### Transitions -/

/-- A change that no root signed: capabilities only shrink. -/
def restrictive (current candidate : Value) (signer : Signer) : Check Unit := do
  let who := if signer = .revocation then "a revocation key" else "a revocation quorum"
  rootFields.forM fun k => require (equals (field candidate k) (field current k))
    "%s cannot change %s" [.text who, .text (if k = "policy_version" then "the policy version"
      else if k = "revocation_keys" then "the revocation keys" else k)]
  let old ← validate current
  let new ← validate candidate
  require (sameSet old.ids new.ids) "%s cannot add or remove nodes" [.text who]
  new.forM fun entry => do
    let nid := entry.1
    let node := entry.2
    let before := (old.at nid).getD .null
    require (sameSet node.keys before.keys) "%s cannot add or drop fields of %s"
      [.text who, .text nid]
    (hardwareKeys node).forM fun k => require (equals (field node k) (field before k))
      "%s cannot change %s of %s" [.text who, .text k, .text nid]
    require (∀ a ∈ nodeCapabilities node, a ∈ nodeCapabilities before)
      "%s: %s -> %s widens capabilities; only the root can do that"
      [.text nid, .value (field before "state"), .value (field node "state")]

/-- A node that is not retired: it stays, and what retires it changes nothing
    else of it. -/
def tombstoneNew (nid : String) (node : Value) (next : Option Value) : Check Unit := do
  let next ← demand next "tombstone: %s cannot be removed; retire it instead" [.text nid]
  onlyIf (terminal next) do
    require (sameSet next.keys node.keys)
      "tombstone: %s becomes %s and its fields cannot change in the same manifest (ssh_host_pub is neither added nor dropped)"
      [.text nid, .value (field next "state")]
    (hardwareKeys node).forM fun k => require (equals (field next k) (field node k))
      "tombstone: %s becomes %s and its %s cannot change in the same manifest"
      [.text nid, .value (field next "state"), .text k]

/-- A node that is retired: it stays as it is, or becomes stolen. -/
def tombstoneOld (nid : String) (node : Value) (next : Option Value) : Check Unit := do
  let state := Arg.value (field node "state")
  let next ← demand next
    "tombstone: %s is %s and must stay in every later manifest (its identities are never reused)"
    [.text nid, state]
  require (sameSet next.keys node.keys)
    "tombstone: %s is %s and its fields cannot change (ssh_host_pub is neither added nor dropped)"
    [.text nid, state]
  (hardwareKeys node).forM fun k => require (equals (field next k) (field node k))
    "tombstone: %s is %s and its %s cannot change" [.text nid, state, .text k]
  require (stateOf next = stateOf node ∨
      (stateOf node = some .retired ∧ stateOf next = some .revokedStolen))
    "tombstone: %s is %s, which is terminal for every signer (%s refused); hardware that may return belongs in MAINTENANCE or QUARANTINED"
    [.text nid, state, .value (field next "state")]

/-- No node ever leaves, and retirement is terminal, for every signer. -/
def tombstones (current candidate : Value) : Check Unit := do
  let old ← validate current
  let new ← validate candidate
  old.forM fun entry =>
    if terminal entry.2 then tombstoneOld entry.1 entry.2 (new.at entry.1)
    else tombstoneNew entry.1 entry.2 (new.at entry.1)

/-- The schema only moves forward, and only the root moves it. -/
def schemaStep (current candidate : Value) (signer : Signer) : Check Unit :=
  onlyIf (field candidate "schema" ≠ field current "schema") do
    let args := [Arg.value (field candidate "schema"), .value (field current "schema")]
    require (((schemaOf current).map Schema.index).getD 0 <
        ((schemaOf candidate).map Schema.index).getD 0)
      "schema %s cannot follow %s: the schema only moves forward" args
    require (signer = .root) "only the root can change the schema (%s to %s)" args.reverse

/-- The rules once there is a current manifest. -/
def follow (current candidate : Value) (signer : Signer) : Check Value :=
  if epochOf candidate = epochOf current then
    -- the same manifest delivered again changes nothing
    if digest candidate = digest current then .ok current
    else refuse "CONFLICT: a different manifest at epoch %d: record an incident"
      [.number (epochOf candidate)]
  else do
    require (epochOf candidate = epochOf current + 1)
      "epoch %d does not follow %d (fetch the missing manifests and accept them in order)"
      [.number (epochOf candidate), .number (epochOf current)]
    require (field candidate "prev_digest" = .str (digest current))
      "prev_digest does not chain to the current manifest" []
    schemaStep current candidate signer
    -- every signer: the one rule the root cannot override
    tombstones current candidate
    onlyIf (signer ≠ .root) (restrictive current candidate signer)
    return candidate

/-- The rules for an already verified candidate and its signer. -/
def transition (candidate : Value) (signer : Signer) : Check Value := do
  let _ ← validate candidate
  match current with
  | none => do
    require (signer = .root ∧ epochOf candidate = 1)
      "the first manifest must be the root-signed epoch 1" []
    return candidate
  | some current => follow current candidate signer

/-- The next manifest, if an envelope may follow the current one. -/
def accept (envelope root : Value) : Check Value := do
  let verified ← verifyEnvelope crypto envelope root current
  transition current verified.1 verified.2

def acceptChain (envelopes : List Value)
    (root : Value) : Check (Option Value) :=
  envelopes.foldlM (fun current envelope => do
    let next ← accept crypto current envelope root
    return some next) current

/-- Whether a node may serve, be unlocked or authorize. -/
def may (nodeId : String) (action : Action) : Check Bool := do
  let nodes ← validate manifest
  return ((nodes.at nodeId).map nodeCapabilities).any (action ∈ ·)

end Python

end Regalia.Membership
