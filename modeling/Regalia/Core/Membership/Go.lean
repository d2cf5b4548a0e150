import Regalia.Core.Membership.Format

/-!
# The Go Verifier

`cmd/regalia-unlock/membership`: the pre-root unlock client's own reading of
the membership rules, in `membership.go`, `typed.go` and `v4.go`.

A Go map is the list of what was put into it: the code asks maps for what they
hold and how many names they have, and never depends on their order. A type
assertion that the code makes without looking at its outcome gives the zero
value, as `textOf` and `itemsOf` do.

## Main definitions

* `validate`: Schema and uniqueness; the nodes by ID.
* `countingParties`: The parties whose signatures count.
* `verifyEnvelope`: The manifest in an envelope and who signed it.
* `accept`, `acceptChain`: The next manifest, for one envelope and for a chain.
* `may`: Whether a node may do something under a manifest.
-/

namespace Regalia.Membership

namespace Go

/-! ### Values -/

/-- `len` of a map: how many names it has. -/
def size (object : Value) : Nat := object.keys.dedup.length

variable (value : Value) (label : String) (manifest : Value) (crypto : Crypto) (id : String)
  (key : String) (message : List UInt8) (seen : Seen) (schema : Schema) (current : Option Value)

def exact (keys : List String) (label : String) : Check Unit := do
  require (isObject value) "%s must be an object" [.text label]
  keys.forM fun key => require (hasField value key) "%s fields mismatch" [.text label]
  require (size value = keys.length) "%s fields mismatch" [.text label]

/-- `strings.ToLower` as far as `hexField` sees it: `hex.DecodeString` refuses
    whatever is not ASCII. -/
def toLower (s : String) : String := String.ofList (s.toList.map Char.toLower)

def hexField (n : Nat) (label : String) : Check Unit := do
  let text ← demand ((asText value).filter (fun text =>
      (GoString.ofText text).length = n && toLower text = text))
    "%s must be %d lowercase hex" [.text label, .number n]
  require (decodeHex text.toList).isSome "%s must be %d lowercase hex" [.text label, .number n]

def sameKeySet (object : Value) (keys : List String) : Bool :=
  size object = keys.length && keys.all (hasField object ·)

/-- The day `time.Date` gives back for a month of the year and a day up to
    the 31st: one past the month's end is a day of the next month. -/
def normalDay (t : Civil) : Nat :=
  if t.day ≤ daysIn t.year t.month then t.day else t.day - daysIn t.year t.month

def issuedAt : Bool :=
  match (asText value).bind (fun text => parseTime text.toList) with
  | none => false
  | some t =>
    if t.month < 1 ∨ t.month > 12 ∨ t.day < 1 ∨ t.day > 31 ∨ t.hour > 23 ∨ t.minute > 59 ∨
        t.second > 59 then false
    else normalDay t = t.day && t.year ≥ 1

/-! ### Keys -/

/-- The algorithm and key of one entry of the revocation keys. -/
def revocationEntry (entry : Value) (label : String) : Check (Algorithm × String) :=
  match entry with
  | .str bare => do
    hexField (.str bare) 64 label
    return (.ed25519, bare)
  | _ => do
    exact entry ["alg", "key"] label
    let alg ← demand (Algorithm.ofValue typedAlgorithms (field entry "alg"))
      "%s: alg must be one of %s" [.text label, .text (joined typedAlgorithms)]
    hexField (field entry "key") 130 (label ++ ": an ecdsa-p256 key (04 || X || Y)")
    let key := textOf (field entry "key")
    require (['0', '4'].isPrefixOf key.toList)
      "%s: an ecdsa-p256 key must be an uncompressed point" [.text label]
    require (onP256 (hexBytes key)) "%s: not a point on P-256" [.text label]
    return (alg, key)

/-- The entries of the pinned root: one, or a list of them. -/
def rootList : Value → List Value
  | .arr items => items
  | root => [root]

def rootEntries (root : Value) (label : String) : Check (List (Algorithm × String)) := do
  let entries := rootList root
  require (entries.length ≠ 0 ∧ entries.length ≤ maxRootKeys)
    "the root is one key or a list of one to eight" []
  let out ← entries.mapM (fun entry => revocationEntry entry label)
  require ((out.map Prod.snd).dedup.length = out.length) "the root keys must be distinct" []
  return out

/-- The algorithm the revocation keys give for a key; an entry that is none is
    passed over. -/
def revocationAlg : Option Algorithm :=
  (itemsOf (field manifest "revocation_keys")).findSome? (fun entry =>
    match revocationEntry entry "a revocation key" with
    | .ok (alg, hexKey) => if hexKey = key then some alg else none
    | .error _ => none)

/-- An entry that is never a bare string. -/
def typedKey (entry : Value) (label : String) (algs : List Algorithm) :
    Check (Algorithm × String) := do
  require (isObject entry) "%s must be a typed key \x7b\"alg\", \"key\"\x7d" [.text label]
  exact entry ["alg", "key"] label
  let alg ← demand (Algorithm.ofValue algs (field entry "alg"))
    "%s: alg must be one of %s" [.text label, .text (joined algs)]
  if alg ≠ .ed25519 then revocationEntry entry label
  else do
    hexField (field entry "key") 64 (label ++ ": an ed25519 key")
    return (.ed25519, textOf (field entry "key"))

/-- A signature over a message, the way the key's entry says. -/
def verifyTyped (alg : Algorithm) (key : String) (message : List UInt8)
    (sigValue : Value) (what : String) : Check Unit := do
  hexField sigValue 128 (what ++ " signature")
  let sig := hexBytes (textOf sigValue)
  let publicKey ← demand (decodeHex key.toList) "the %s signature does not verify" [.text what]
  match alg with
  | .ed25519 =>
    require (publicKey.length = 32 ∧ crypto.ed25519 publicKey message sig)
      "the %s signature does not verify" [.text what]
  | .ecdsaP256 => do
    let r := bigEndianValue (sig.take 32)
    let s := bigEndianValue (sig.drop 32)
    require (¬ (r = 0 ∨ r ≥ p256Order ∨ s = 0 ∨ s > p256Order / 2))
      "the %s signature is not a low-S P-256 signature" [.text what]
    require (onP256 publicKey) "the %s signature does not verify" [.text what]
    require (crypto.ecdsa publicKey (Sha256.sum message) r s)
      "the %s signature does not verify" [.text what]

/-! ### Signer rules -/

/-- What `seen` holds, each under the text of its use: an identity or an
    owner's key by value, an HSM under a name no hex value has. -/
abbrev Seen := List (String × String)

def Seen.keys : List String := seen.map Prod.fst

def Seen.get (key : String) : Arg :=
  .text (((seen.find? (fun p => p.1 = key)).map Prod.snd).getD "")

def hsmKey (serial : String) : String := "\x00hsm\x00" ++ serial

/-- One rule: its parties are named once and exist, and its threshold is
    between the format's floor and their number. -/
def signerRule (byID : Nodes) (value : Value) (label : String) (ownerAlone : Bool) :
    Check Unit := do
  exact value ["threshold", "parties"] label
  let list := itemsOf (field value "parties")
  let parties := list.filterMap asText
  require ((asList (field value "parties")).isSome ∧ list.length ≠ 0 ∧
      parties.length = list.length)
    "%s.parties must be a non-empty list of names" [.text label]
  require (parties.dedup.length = parties.length) "%s.parties must be distinct" [.text label]
  parties.forM fun p => require (¬ (p ≠ ownerParty ∧ p ∉ byID.ids))
    "%s names %q, which is neither a node of this manifest nor %s"
    [.text label, .text p, .text ownerParty]
  let threshold ← demand (asInteger (field value "threshold"))
    "%s.threshold must be an integer" [.text label]
  let least := if ownerAlone then
      if parties = [ownerParty] then 1 else nodeRuleFloor
    else heartbeatFloor
  require (¬ (threshold < least ∨ threshold > parties.length))
    "%s.threshold must be from %d to the number of its parties (%d)"
    [.text label, .number least, .number parties.length]

/-- One owner's key: typed, and not used before. -/
def ownerKey (item : Value × Nat) : Check Seen := do
  let label := itemLabel "owner_keys" item.2
  let found ← typedKey item.1 label ownerKeyAlgs
  require (found.2 ∉ seen.keys) "%s is already used (%s)" [.text label, seen.get found.2]
  return seen ++ [(found.2, label)]

def signerRules (byID : Nodes) (seen : Seen) : Check Unit := do
  let owners ← demand ((asList (field manifest "owner_keys")).filter
      (fun owners => !(owners.length < 1 || owners.length > maxOwnerKeys)))
    "owner_keys must be a list of one to %d keys" [.number maxOwnerKeys]
  let _ ← owners.zipIdx.foldlM ownerKey seen
  let life := asInteger (field manifest "owner_heartbeat_lifetime_s")
  let most := asInteger (field manifest "heartbeat_max_lifetime_s")
  require (life.isSome ∧ most.isSome ∧ ¬ life.getD 0 < ownerHeartbeatMin ∧
      ¬ life.getD 0 > most.getD 0)
    "owner_heartbeat_lifetime_s must be an integer from %d to heartbeat_max_lifetime_s"
    [.number ownerHeartbeatMin]
  singleRules.forM fun name => signerRule byID (field manifest name) name false
  let rules ← demand ((asList (field manifest "revocation_signers")).filter
      (fun rules => !(rules.length < 1 || rules.length > maxRules)))
    "revocation_signers must be a list of one to %d rules" [.number maxRules]
  rules.zipIdx.forM fun item =>
    signerRule byID item.1 (itemLabel "revocation_signers" item.2) true

/-! ### Manifests -/

/-- The shapes a tombstone may have: those from the schema's own on. -/
def shapes : List (List String) :=
  [v4NodeKeys, v2NodeKeys, v1NodeKeys].dropWhile (fun s => s.length ≠ (nodeKeys schema).length)

/-- The fields a node is held to. -/
def nodeShape (value : Value) : List String :=
  if isObject value then
    ((shapes schema).find? (fun shape => terminal value && sameKeySet value shape)).getD
      (nodeKeys schema)
  else nodeKeys schema

/-- One identity of a node, not used before. -/
def claimIdentity (node : Value) (id : String) (seen : Seen) (key : String) : Check Seen := do
  let value := identityValue node key
  require (value ∉ seen.keys) "%s of %s is already used (%s)"
    [.text key, .text id, seen.get value]
  return seen ++ [(value, key ++ " of " ++ id)]

/-- One serial of a node, not listed before. -/
def claimSerial (serial : Value) : Check Seen := do
  let key := hsmKey (textOf serial)
  require (key ∉ seen.keys) "HSM %s is listed twice" [.value serial]
  return seen ++ [(key, id)]

/-- One pass of the loop over the nodes. -/
def validateNode (found : Nodes × Seen) (item : Value × Nat) :
    Check (Nodes × Seen) := do
  let node := item.1
  let label := itemLabel "nodes" item.2
  exact node (nodeShape schema node) label
  let id ← demand ((asText (field node "node_id")).filter matchesNodeID)
    "%s.node_id must be a short lowercase name" [.text label]
  require (¬ (schema = .v4 ∧ id = ownerParty))
    "%s: %q is the owner's party name under %s, never a node_id"
    [.text label, .text ownerParty, .text Schema.v4.text]
  require (id ∉ found.1.ids) "duplicate node_id %q" [.text id]
  require (stateOf node).isSome "%s.state is not a known state" [.text label]
  [("ek_name", 68), ("ak_name", 68), ("wg_boot_pub", 64), ("wg_service_pub", 64)].forM
    fun named => hexField (field node named.1) named.2 (label ++ "." ++ named.1)
  onlyIf (hasField node "ssh_host_pub") do
    hexField (field node "ssh_host_pub") 64 (label ++ ".ssh_host_pub")
  onlyIf (hasField node "signing_key") do
    let _ ← typedKey (field node "signing_key") (label ++ ".signing_key") signingKeyAlgs
  let serials ← demand (asList (field node "hsm_serials")) "%s.hsm_serials" [.text label]
  serials.forM fun serial => require ((asText serial).any matchesSerial) "%s.hsm_serials"
    [.text label]
  let seen ← (identityKeys node).foldlM (claimIdentity node id) found.2
  let seen ← serials.foldlM (claimSerial id) seen
  return (found.1 ++ [(id, node)], seen)

/-- A bool would pass the type test, and its value fails the range. -/
def lifetime : Value → Option Int
  | .bool b => some (if b then 1 else 0)
  | v => asInteger v

def checkLifetime (manifest : Value) : Check Unit :=
  onlyIf schema.second do
    let life ← demand (lifetime (field manifest "heartbeat_max_lifetime_s"))
      "heartbeat_max_lifetime_s must be an integer from %d to %d"
      [.number heartbeatMin, .number heartbeatHardMax]
    require (¬ (life < heartbeatMin ∨ life > heartbeatHardMax))
      "heartbeat_max_lifetime_s must be an integer from %d to %d"
      [.number heartbeatMin, .number heartbeatHardMax]

def checkEpoch : Check Unit := do
  let epoch ← demand ((asInteger (field manifest "epoch")).filter (fun e => !(e.sign < 1)))
    "epoch must be an integer >= 1" []
  if epoch = 1 then
    require (field manifest "prev_digest" = .str "")
      "epoch 1 has no previous manifest (prev_digest \"\")" []
  else hexField (field manifest "prev_digest") 64 "prev_digest"

def checkRevocationKeys (manifest : Value) : Check Unit :=
  onlyIf (schema ≠ .v4) do
    let revocation ← demand (asList (field manifest "revocation_keys"))
      "revocation_keys must be a list" []
    let entries ← revocation.zipIdx.mapM (fun item =>
      revocationEntry item.1 (itemLabel "revocation_keys" item.2))
    let typed := revocation.any (fun entry => (asText entry).isNone)
    require ((entries.map Prod.snd).dedup.length = revocation.length)
      "revocation_keys must be distinct" []
    require (¬ (typed ∧ schema ≠ .v3))
      "a typed revocation key (\x7b\"alg\": ...\x7d) needs schema %s" [.text Schema.v3.text]

/-- Schema and uniqueness. The manifest's nodes by ID. -/
def validate : Check Nodes := do
  require (isObject manifest) "manifest must be an object" []
  let schema ← demand (Schema.ofValue (field manifest "schema")) "schema must be %s"
    [.text (" or ".intercalate (schemas.map Schema.text))]
  exact manifest (manifestKeys schema) "manifest"
  checkLifetime schema manifest
  checkEpoch manifest
  require ((asText (field manifest "policy_version")).any matchesPolicy)
    "policy_version must be a short name" []
  require (issuedAt (field manifest "issued_at"))
    "issued_at must be UTC, YYYY-MM-DDTHH:MM:SSZ" []
  checkRevocationKeys schema manifest
  let nodes ← demand ((asList (field manifest "nodes")).filter (fun nodes => nodes.length ≠ 0))
    "nodes must be a non-empty list" []
  let found ← nodes.zipIdx.foldlM (validateNode schema) ([], [])
  onlyIf (schema = .v4) (signerRules manifest found.1 found.2)
  return found.1

/-! ### Envelopes -/

/-- A v4 manifest's party keys are none of the pinned root's. -/
def apartFromRoot (manifest root : Value) : Check Unit :=
  onlyIf (field manifest "schema" = .str Schema.v4.text) do
    let entries ← rootEntries root "the root key"
    let roots := entries.map Prod.snd
    let owners := (itemsOf (field manifest "owner_keys")).zipIdx.map (fun item =>
      (itemLabel "owner_keys" item.2, textOf (field item.1 "key")))
    let signing := (itemsOf (field manifest "nodes")).filterMap (fun node =>
      (node.get? "signing_key").map (fun signing =>
        ("signing_key of " ++ textOf (field node "node_id"), textOf (field signing "key"))))
    (owners ++ signing).forM fun k => require (k.2 ∉ roots)
      "%s is a pinned root key: the payload root is never a quorum party" [.text k.1]

/-- The algorithm of the key a signature names, if it is one the current
    manifest gives its party. -/
def partyKey (nodes : Nodes) (owners : List (String × Algorithm)) (party key : String) (i : Nat) :
    Check Algorithm :=
  if party = ownerParty then
    demand (owners.find? (fun p => p.1 = key) |>.map Prod.snd)
      "signatures[%d]: the key is not one of the current manifest's owner_keys" [.number i]
  else do
    let signing ← demand (((nodes.at party).bind (fun node => node.get? "signing_key")).filter
        isObject)
      "signatures[%d]: %q is not a node of the current manifest with a signing_key"
      [.number i, .text party]
    require (field signing "key" = .str key)
      "signatures[%d]: the key is not %s's signing_key" [.number i, .text party]
    demand (Algorithm.ofValue revocationAlgs (field signing "alg"))
      "unknown revocation key algorithm %s" [.value (field signing "alg")]

/-- A node in one of these states is named but does not count. -/
def counts (nodes : Nodes) (party : String) : Bool :=
  party = ownerParty ||
    !((nodes.at party).bind stateOf).any NodeState.notCounting

/-- One pass of the loop over the signatures: the parties named, and those of
    them that count. -/
def countSignature (nodes : Nodes) (owners : List (String × Algorithm))
    (message : List UInt8) (what : String) (found : List String × List String)
    (item : Value × Nat) : Check (List String × List String) := do
  let sig := item.1
  let i := item.2
  exact sig ["party", "key", "sig"] (itemLabel "signatures" i)
  let party ← demand ((asText (field sig "party")).filter (· ∉ found.1))
    "signatures[%d]: party %s is named twice or is not a name"
    [.number i, .value (field sig "party")]
  let key ← demand ((asText (field sig "key")).filter matchesSignatureKey)
    "signatures[%d].key must be 64 or 130 lowercase hex" [.number i]
  let alg ← partyKey nodes owners party key i
  verifyTyped crypto alg key message (field sig "sig")
    (what ++ " (" ++ itemLabel "signatures" i ++ ", " ++ party ++ ")")
  return (found.1 ++ [party], if counts nodes party then found.2 ++ [party] else found.2)

/-- The parties whose signatures over a message count under the current v4
    manifest. -/
def countingParties (message : List UInt8)
    (signatures : Value) (what : String) : Check (List String) := do
  let current ← demand (current.filter (fun m => field m "schema" = .str Schema.v4.text))
    "a %s signed by a quorum needs a current %s manifest naming its signers"
    [.text what, .text Schema.v4.text]
  let list ← demand ((asList signatures).filter
      (fun l => !(l.length < 1 || l.length > maxSignatures)))
    "signatures must be a list of one to %d signatures" [.number maxSignatures]
  let nodes ← validate current
  let keys ← (itemsOf (field current "owner_keys")).mapM (fun entry =>
    typedKey entry "owner_keys" ownerKeyAlgs)
  let owners := keys.map Prod.swap
  let found ← list.zipIdx.foldlM (countSignature crypto nodes owners message what) ([], [])
  return found.2

/-- Whether the counting parties meet one rule. -/
def meets (rule : Value) (parties : List String) : Bool :=
  let n := ((itemsOf (field rule "parties")).filterMap asText).countP (· ∈ parties)
  (asInteger (field rule "threshold")).any (fun threshold => (n : Int) ≥ threshold)

def signedMessage : List UInt8 := domain ++ canonical manifest

/-- An envelope signed by a quorum. -/
def verifyQuorum (envelope root : Value) (current : Option Value) :
    Check (Value × Signer) := do
  exact envelope ["manifest", "signatures"] "envelope"
  let manifest := field envelope "manifest"
  let _ ← validate manifest
  apartFromRoot manifest root
  let parties ← countingParties crypto current (signedMessage manifest)
    (field envelope "signatures") "manifest"
  let rules := itemsOf (field (current.getD .null) "revocation_signers")
  let _ ← demand (rules.find? (meets · parties))
    "the manifest's signatures meet no revocation_signers rule of the current manifest (counting: %s)"
    [.names (parties.insertionSort (· ≤ ·))]
  return (manifest, .quorum)

/-- `verifyTyped` as a yes or no, on a signature that was decoded already. -/
def verifySignature (alg : Algorithm) (key : String) (sig : List UInt8)
    (message : List UInt8) : Bool :=
  (verifyTyped crypto alg key message (.str (String.ofList (hexText sig))) "a").isOk

/-- The signer a signature names, and the algorithm of its key: from the
    pinned entry or the current manifest's, never from the signature. -/
def signerKey (root : Value) (current : Option Value) (signer : Value) (key : String) :
    Check (Signer × Algorithm) :=
  if signer = .str "root" then do
    let entries ← rootEntries root "the root key"
    let entry ← demand (entries.find? (fun e => e.2 = key))
      "the signature names a root key that is not the pinned root" []
    return (.root, entry.1)
  else do
    let alg ← demand (current.bind (revocationAlg · key))
      "the signing revocation key is not named by the current manifest" []
    return (.revocation, alg)

/-- An envelope with one signature. -/
def verifySingle (envelope root : Value) (current : Option Value) :
    Check (Value × Signer) := do
  exact envelope ["manifest", "signature"] "envelope"
  let signature := field envelope "signature"
  exact signature ["signer", "key", "sig"] "signature"
  require (¬ (field signature "signer" ≠ .str "root" ∧
      field signature "signer" ≠ .str "revocation"))
    "signer must be root or revocation" []
  let key ← demand ((asText (field signature "key")).filter matchesSignatureKey)
    "signature.key must be 64 or 130 lowercase hex" []
  hexField (field signature "sig") 128 "signature.sig"
  let named ← signerKey root current (field signature "signer") key
  let manifest := field envelope "manifest"
  let _ ← validate manifest
  apartFromRoot manifest root
  require (¬ (named.2 ≠ .ed25519 ∧ field manifest "schema" ≠ .str Schema.v3.text ∧
      field manifest "schema" ≠ .str Schema.v4.text))
    "a manifest signed by a typed (%s) key needs schema %s or %s"
    [.text named.2.text, .text Schema.v3.text, .text Schema.v4.text]
  require (verifySignature crypto named.2 key (hexBytes (textOf (field signature "sig")))
      (signedMessage manifest))
    "the manifest signature does not verify" []
  return (manifest, named.1)

/-- A current manifest that does not validate is refused before its fields are
    read. -/
def checkCurrent : Option Value → Check Unit
  | none => return
  | some current =>
    match validate current with
    | .ok _ => return
    | .error e => refuse "the current manifest is not valid: %v" (.text e.format :: e.args)

/-- The manifest in an envelope and who signed it. -/
def verifyEnvelope (value root : Value) (current : Option Value) :
    Check (Value × Signer) := do
  checkCurrent current
  if hasField value "signatures" then verifyQuorum crypto value root current
  else verifySingle crypto value root current

/-! ### Transitions -/

def sameKeys (a b : Value) : Bool :=
  size a = size b && a.keys.all (hasField b ·)

def equal (a b : Value) : Bool := canonical a = canonical b

/-- A manifest's node IDs in its own order. -/
def listedIDs : List String :=
  (itemsOf (field manifest "nodes")).map (fun node => textOf (field node "node_id"))

/-- A change that no root signed: capabilities only shrink. -/
def restrictive (current candidate : Value) (signer : Signer) : Check Unit := do
  let who := if signer ≠ .revocation then "a revocation quorum" else "a revocation key"
  rootFields.forM fun k => require (equal (field candidate k) (field current k))
    "%s cannot change %s" [.text who, .text (if k = "policy_version" then "the policy version"
      else if k = "revocation_keys" then "the revocation keys" else k)]
  let old ← validate current
  let fresh ← validate candidate
  require (old.length = fresh.length) "%s cannot add or remove nodes" [.text who]
  old.ids.forM fun id => require (id ∈ fresh.ids) "%s cannot add or remove nodes" [.text who]
  (listedIDs candidate).forM fun id => do
    let node := (fresh.at id).getD .null
    let before := (old.at id).getD .null
    require (sameKeys node before) "%s cannot add or drop fields of %s" [.text who, .text id]
    (hardwareKeys node).forM fun key => require (equal (field node key) (field before key))
      "%s cannot change %s of %s" [.text who, .text key, .text id]
    require ((nodeCapabilities node).all (· ∈ nodeCapabilities before))
      "%s: %s -> %s widens capabilities; only the root can do that"
      [.text id, .value (field before "state"), .value (field node "state")]

/-- A node that is not retired: it stays, and what retires it changes nothing
    else of it. -/
def tombstoneNew (node : Value) (next : Option Value) : Check Unit := do
  let next ← demand next "tombstone: %s cannot be removed; retire it instead" [.text id]
  onlyIf (terminal next) do
    require (sameKeys next node)
      "tombstone: %s becomes %s and its fields cannot change in the same manifest (ssh_host_pub is neither added nor dropped)"
      [.text id, .value (field next "state")]
    (hardwareKeys node).forM fun key => require (equal (field next key) (field node key))
      "tombstone: %s becomes %s and its %s cannot change in the same manifest"
      [.text id, .value (field next "state"), .text key]

/-- A node that is retired: it stays as it is, or becomes stolen. -/
def tombstoneOld (node : Value) (next : Option Value) : Check Unit := do
  let state := Arg.value (field node "state")
  let next ← demand next
    "tombstone: %s is %s and must stay in every later manifest (its identities are never reused)"
    [.text id, state]
  require (sameKeys next node)
    "tombstone: %s is %s and its fields cannot change (ssh_host_pub is neither added nor dropped)"
    [.text id, state]
  (hardwareKeys node).forM fun key => require (equal (field next key) (field node key))
    "tombstone: %s is %s and its %s cannot change" [.text id, state, .text key]
  require (¬ (stateOf next ≠ stateOf node ∧
      ¬ (stateOf node = some .retired ∧ stateOf next = some .revokedStolen)))
    "tombstone: %s is %s, which is terminal for every signer (%s refused); hardware that may return belongs in MAINTENANCE or QUARANTINED"
    [.text id, state, .value (field next "state")]

/-- No node leaves, and retirement is terminal, for every signer. -/
def tombstones (current candidate : Value) : Check Unit := do
  let old ← validate current
  let fresh ← validate candidate
  (listedIDs current).forM fun id =>
    let node := (old.at id).getD .null
    if ¬ terminal node then tombstoneNew id node (fresh.at id)
    else tombstoneOld id node (fresh.at id)

/-- `schemaIndex`: the place of a schema, less than all for none. -/
def schemaIndex (v : Value) : Int := ((Schema.ofValue v).map (fun s => (s.index : Int))).getD (-1)

/-- The schema only moves forward, and only the root moves it. -/
def schemaStep (current candidate : Value) (signer : Signer) : Check Unit :=
  onlyIf (field candidate "schema" ≠ field current "schema") do
    let args := [Arg.value (field candidate "schema"), .value (field current "schema")]
    require (¬ schemaIndex (field candidate "schema") ≤ schemaIndex (field current "schema"))
      "schema %s cannot follow %s: the schema only moves forward" args
    require (¬ signer ≠ .root) "only the root can change the schema (%s to %s)" args.reverse

/-- The rules once there is a current manifest. -/
def follow (current candidate : Value) (signer : Signer) : Check Value :=
  if epochOf candidate = epochOf current then
    if digest candidate = digest current then .ok current
    else refuse "CONFLICT: a different manifest at epoch %s: record an incident"
      [.number (epochOf candidate)]
  else do
    require (epochOf candidate = epochOf current + 1)
      "epoch %s does not follow %s (fetch the missing manifests and accept them in order)"
      [.number (epochOf candidate), .number (epochOf current)]
    require (field candidate "prev_digest" = .str (digest current))
      "prev_digest does not chain to the current manifest" []
    schemaStep current candidate signer
    tombstones current candidate
    onlyIf (signer ≠ .root) (restrictive current candidate signer)
    return candidate

/-- The next manifest, if an envelope may follow the current one. -/
def accept (envelope root : Value) : Check Value := do
  let verified ← verifyEnvelope crypto envelope root current
  match current with
  | none => do
    require (¬ (verified.2 ≠ .root ∨ epochOf verified.1 ≠ 1))
      "the first manifest must be the root-signed epoch 1" []
    return verified.1
  | some current => follow current verified.1 verified.2

def acceptChain (envelopes : List Value)
    (root : Value) : Check (Option Value) :=
  envelopes.foldlM (fun current envelope => do
    let next ← accept crypto current envelope root
    return some next) current

/-- Whether a node may serve, be unlocked or authorize; not under a manifest
    that does not validate. -/
def may (node : String) (action : Action) : Bool :=
  match validate manifest with
  | .ok nodes => ((nodes.at node).map nodeCapabilities).any (action ∈ ·)
  | .error _ => false

end Go

end Regalia.Membership
