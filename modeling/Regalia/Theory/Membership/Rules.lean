import Regalia.Core.Membership.Format

/-!
# The Membership Rules

What the two verifiers are written to decide, stated once and without an
order of checks: when a manifest is valid, what makes an envelope signed, and
when a manifest may follow another. Nothing here is translated from either
verifier; each of them is proved to accept exactly what these rules allow.

A manifest is compared with others field by field, and a field's value is
equal to another's when they are the same JSON value.

## Main definitions

* `Exact`, `IsHex`: The shape of a value.
* `TypedKey`, `KeyEntry`, `RootKeys`: The three ways a key is written.
* `NodeRule`, `SignerRule`, `Valid`: What a manifest may hold.
* `Verifies`, `SignedBy`, `Quorum`, `Single`: Signatures.
* `Tombstones`, `Restrictive`, `Follows`: What may follow a manifest.
* `Held`: What a verifier's current manifest may be.
* `Accepts`: The next manifest, for an envelope.
-/

namespace Regalia.Membership

/-! ### Values -/

/-- An object with exactly the fields of a list. -/
def Exact (v : Value) (keys : List String) : Prop :=
  isObject v = true ∧ ∀ k, k ∈ v.keys ↔ k ∈ keys

/-- Lowercase hex of a length. -/
def IsHex (n : Nat) (v : Value) : Prop := ∃ s, v = .str s ∧ matchesHex n s = true

/-- A list of names. -/
def Names (v : Value) (names : List String) : Prop := v = .arr (names.map .str)

/-! ### Keys -/

/-- What a key of each algorithm looks like. -/
def PublicKey : Algorithm → String → Prop
  | .ed25519, s => matchesHex 64 s = true
  | .ecdsaP256, s =>
    matchesHex 130 s = true ∧ s.toList.take 2 = ['0', '4'] ∧ onP256 (hexBytes s) = true

/-- A key written with its algorithm beside it. -/
structure TypedKey (algs : List Algorithm) (v : Value) (key : Algorithm × String) : Prop where
  exact : Exact v ["alg", "key"]
  mem : key.1 ∈ algs
  alg : field v "alg" = .str key.1.text
  hex : field v "key" = .str key.2
  shape : PublicKey key.1 key.2

/-- A key written bare, which is Ed25519, or typed. -/
def KeyEntry (v : Value) (key : Algorithm × String) : Prop :=
  (key.1 = .ed25519 ∧ v = .str key.2 ∧ PublicKey key.1 key.2) ∨ TypedKey typedAlgorithms v key

/-- The pinned root: one entry, or a list of one to eight. -/
structure RootKeys (root : Value) (keys : List (Algorithm × String)) : Prop where
  entries : List.Forall₂ KeyEntry ((asList root).getD [root]) keys
  some : keys ≠ []
  few : keys.length ≤ maxRootKeys
  distinct : (keys.map Prod.snd).Nodup

/-! ### Manifests -/

variable (manifest : Value) (node : Value) (crypto : Crypto) (current : Option Value)

def nodesOf : List Value := itemsOf (field manifest "nodes")

def nodeId : String := textOf (field node "node_id")

def serialsOf : List String := (itemsOf (field node "hsm_serials")).map textOf

/-- What a node holds that no other may: its identities by value, whatever
    their role, and its HSMs. -/
def identities : List SeenKey :=
  (identityKeys node).map (fun k => .value (identityValue node k)) ++ (serialsOf node).map .hsm

def nodesById : Nodes := (nodesOf manifest).map (fun n => (nodeId n, n))

def ownerKeysOf : List String :=
  (itemsOf (field manifest "owner_keys")).map (fun e => textOf (field e "key"))

/-- The fields a node has: those of the schema, or, for a tombstone, those of
    a schema it may have been retired under. -/
def NodeShape (schema : Schema) (node : Value) : Prop :=
  Exact node (nodeKeys schema) ∨
    (terminal node = true ∧ ∃ keys ∈ tombstoneShapes schema, Exact node keys)

structure NodeRule (schema : Schema) (node : Value) : Prop where
  shape : NodeShape schema node
  id : field node "node_id" = .str (nodeId node)
  idName : matchesNodeID (nodeId node) = true
  idOwner : schema = .v4 → nodeId node ≠ ownerParty
  state : (stateOf node).isSome = true
  ek : IsHex 68 (field node "ek_name")
  ak : IsHex 68 (field node "ak_name")
  wgBoot : IsHex 64 (field node "wg_boot_pub")
  wgService : IsHex 64 (field node "wg_service_pub")
  sshHost : hasField node "ssh_host_pub" = true → IsHex 64 (field node "ssh_host_pub")
  signing : hasField node "signing_key" = true →
    ∃ key, TypedKey signingKeyAlgs (field node "signing_key") key
  serials : Names (field node "hsm_serials") (serialsOf node)
  serialNames : ∀ s ∈ serialsOf node, matchesSerial s = true

/-- The least threshold of a rule: one for the owner alone, two otherwise. -/
def leastThreshold (ownerAlone : Bool) (parties : List String) : Int :=
  if ownerAlone = true ∧ parties = [ownerParty] then 1
  else if ownerAlone then nodeRuleFloor else heartbeatFloor

/-- A rule of a manifest with the given node IDs. -/
structure SignerRule (ids : List String) (ownerAlone : Bool) (rule : Value)
    (parties : List String) (threshold : Int) : Prop where
  exact : Exact rule ["threshold", "parties"]
  names : Names (field rule "parties") parties
  nonempty : parties ≠ []
  distinct : parties.Nodup
  known : ∀ p ∈ parties, p = ownerParty ∨ p ∈ ids
  number : field rule "threshold" = .num threshold
  floor : leastThreshold ownerAlone parties ≤ threshold
  most : threshold ≤ parties.length

/-- The fields only a v4 manifest has. -/
structure SignerFields (manifest : Value) : Prop where
  owners : ∃ keys, field manifest "owner_keys" = .arr keys ∧ 1 ≤ keys.length ∧
    keys.length ≤ maxOwnerKeys ∧ ∀ e ∈ keys, ∃ key, TypedKey ownerKeyAlgs e key
  unique : ((nodesOf manifest).flatMap identities ++
    (ownerKeysOf manifest).map SeenKey.value).Nodup
  lifetime : ∃ life most, field manifest "owner_heartbeat_lifetime_s" = .num life ∧
    field manifest "heartbeat_max_lifetime_s" = .num most ∧
    ownerHeartbeatMin ≤ life ∧ life ≤ most
  single : ∀ name ∈ singleRules, ∃ parties t,
    SignerRule (nodesById manifest).ids false (field manifest name) parties t
  revocation : ∃ rules, field manifest "revocation_signers" = .arr rules ∧ 1 ≤ rules.length ∧
    rules.length ≤ maxRules ∧ ∀ rule ∈ rules, ∃ parties t,
      SignerRule (nodesById manifest).ids true rule parties t

/-- The revocation keys of a manifest before v4. -/
def RevocationKeys (schema : Schema) (manifest : Value) : Prop :=
  ∃ entries keys, field manifest "revocation_keys" = .arr entries ∧
    List.Forall₂ KeyEntry entries keys ∧ (keys.map Prod.snd).Nodup ∧
    (schema = .v3 ∨ ∀ e ∈ entries, ∃ s, e = .str s)

/-- A valid manifest of a schema. -/
structure Valid (schema : Schema) (manifest : Value) : Prop where
  named : field manifest "schema" = .str schema.text
  exact : Exact manifest (manifestKeys schema)
  lifetime : schema.second = true → ∃ life, field manifest "heartbeat_max_lifetime_s" = .num life ∧
    heartbeatMin ≤ life ∧ life ≤ heartbeatHardMax
  epoch : ∃ e, field manifest "epoch" = .num e ∧ 1 ≤ e ∧
    (e = 1 → field manifest "prev_digest" = .str "") ∧
    (e ≠ 1 → IsHex 64 (field manifest "prev_digest"))
  policy : ∃ s, field manifest "policy_version" = .str s ∧ matchesPolicy s = true
  issued : ∃ s t, field manifest "issued_at" = .str s ∧ parseTime s.toList = some t ∧
    t.real = true ∧ 1 ≤ t.year
  revocation : schema ≠ .v4 → RevocationKeys schema manifest
  nodes : field manifest "nodes" = .arr (nodesOf manifest)
  nonempty : nodesOf manifest ≠ []
  nodeRules : ∀ node ∈ nodesOf manifest, NodeRule schema node
  ids : ((nodesOf manifest).map nodeId).Nodup
  unique : ((nodesOf manifest).flatMap identities).Nodup
  signers : schema = .v4 → SignerFields manifest

/-! ### Signatures -/

/-- A signature by a key over a message. -/
def Verifies (alg : Algorithm) (key message sig : List UInt8) : Prop :=
  match alg with
  | .ed25519 => key.length = 32 ∧ crypto.ed25519 key message sig = true
  | .ecdsaP256 =>
    (0 < bigEndianValue (sig.take 32) ∧ bigEndianValue (sig.take 32) < p256Order) ∧
      (0 < bigEndianValue (sig.drop 32) ∧ bigEndianValue (sig.drop 32) ≤ p256Order / 2) ∧
      onP256 key = true ∧ crypto.ecdsa key (Sha256.sum message) (bigEndianValue (sig.take 32))
        (bigEndianValue (sig.drop 32)) = true

/-- A signature as a document holds it. -/
def SignatureOver (alg : Algorithm) (key : String) (message : List UInt8)
    (sig : Value) : Prop :=
  ∃ s, sig = .str s ∧ matchesHex 128 s = true ∧
    Verifies crypto alg (hexBytes key) message (hexBytes s)

/-- The keys of a v4 manifest's parties. -/
def partyKeys : List String :=
  ownerKeysOf manifest ++ ((nodesOf manifest).filter (hasField · "signing_key")).map
    (fun node => identityValue node "signing_key")

/-- The payload root is never a quorum party. -/
def ApartFromRoot (root manifest : Value) : Prop :=
  schemaOf manifest = some .v4 → ∃ keys, RootKeys root keys ∧
    ∀ k ∈ partyKeys manifest, k ∉ keys.map Prod.snd

/-- A key a manifest gives a party: one of the owner's, or the node's own. -/
def PartyKey (party : String) (key : Algorithm × String) : Prop :=
  if party = ownerParty then
    ∃ e ∈ itemsOf (field manifest "owner_keys"), TypedKey ownerKeyAlgs e key
  else ∃ node ∈ nodesOf manifest, nodeId node = party ∧ hasField node "signing_key" = true ∧
    TypedKey signingKeyAlgs (field node "signing_key") key

/-- An entry of a quorum's signatures, by a party of the manifest. -/
def SignedBy (manifest : Value) (message : List UInt8) (sig : Value)
    (party : String) : Prop :=
  Exact sig ["party", "key", "sig"] ∧ field sig "party" = .str party ∧
    ∃ key, field sig "key" = .str key.2 ∧ matchesSignatureKey key.2 = true ∧
      PartyKey manifest party key ∧
      SignatureOver crypto key.1 key.2 message (field sig "sig")

/-- The parties that count: the owner, and a node that is in service. -/
def counting (party : String) : Bool :=
  party = ownerParty || !(((nodesById manifest).at party).bind stateOf).any NodeState.notCounting

/-- The parties that signed, each once. -/
structure Signatures (crypto : Crypto) (manifest : Value) (message : List UInt8)
    (signatures : Value) (parties : List String) : Prop where
  list : signatures = .arr (itemsOf signatures)
  some : 1 ≤ (itemsOf signatures).length
  few : (itemsOf signatures).length ≤ maxSignatures
  signed : List.Forall₂ (SignedBy crypto manifest message) (itemsOf signatures) parties
  distinct : parties.Nodup

/-- Enough of a rule's parties. -/
def Meets (rule : Value) (signers : List String) : Prop :=
  ∃ parties t, Names (field rule "parties") parties ∧ field rule "threshold" = .num t ∧
    t ≤ ((parties.filter (· ∈ signers)).length : Int)

/-- An envelope signed by a quorum of the current manifest. -/
structure Quorum (crypto : Crypto) (root current envelope candidate : Value)
    (parties : List String) : Prop where
  exact : Exact envelope ["manifest", "signatures"]
  manifest : field envelope "manifest" = candidate
  valid : ∃ schema, Valid schema candidate
  apart : ApartFromRoot root candidate
  fourth : schemaOf current = some .v4
  signed : Signatures crypto current (domain ++ Python.canonical candidate)
    (field envelope "signatures") parties
  met : ∃ rule ∈ itemsOf (field current "revocation_signers"),
    Meets rule (parties.filter (counting current))

/-- The key that signs alone: one of the root's, or a revocation key of the
    current manifest. -/
def SoleKey (root : Value) (current : Option Value) (signer : Signer)
    (key : Algorithm × String) : Prop :=
  match signer with
  | .root => ∃ keys, RootKeys root keys ∧ key ∈ keys
  | .revocation => ∃ manifest, current = some manifest ∧
    ∃ e ∈ itemsOf (field manifest "revocation_keys"), KeyEntry e key
  | .quorum => False

def Signer.text : Signer → String
  | .root => "root"
  | .revocation => "revocation"
  | .quorum => "quorum"

/-- An envelope with one signature. -/
structure Single (crypto : Crypto) (root : Value) (current : Option Value)
    (envelope candidate : Value) (signer : Signer) (key : Algorithm × String) : Prop where
  exact : Exact envelope ["manifest", "signature"]
  manifest : field envelope "manifest" = candidate
  signature : Exact (field envelope "signature") ["signer", "key", "sig"]
  named : field (field envelope "signature") "signer" = .str signer.text
  hex : field (field envelope "signature") "key" = .str key.2
  keyName : matchesSignatureKey key.2 = true
  sole : SoleKey root current signer key
  valid : ∃ schema, Valid schema candidate
  apart : ApartFromRoot root candidate
  typed : key.1 = .ed25519 ∨ schemaOf candidate = some .v3 ∨ schemaOf candidate = some .v4
  signed : SignatureOver crypto key.1 key.2 (domain ++ Python.canonical candidate)
    (field (field envelope "signature") "sig")

/-- The manifest in an envelope and who signed it. -/
def Envelope (root : Value) (current : Option Value) (envelope : Value)
    (candidate : Value) (signer : Signer) : Prop :=
  if hasField envelope "signatures" = true then
    signer = .quorum ∧ ∃ manifest, current = some manifest ∧
      ∃ parties, Quorum crypto root manifest envelope candidate parties
  else ∃ key, Single crypto root current envelope candidate signer key

/-! ### Transitions -/

/-- The same fields, and in those that name hardware the same values. -/
def SameHardware (node next : Value) : Prop :=
  (∀ k, k ∈ next.keys ↔ k ∈ node.keys) ∧
    ∀ k ∈ hardwareKeys node, field next k = field node k

/-- No node leaves, and retirement is terminal. -/
def Tombstones (current candidate : Value) : Prop :=
  ∀ node ∈ nodesOf current, ∃ next ∈ nodesOf candidate, nodeId next = nodeId node ∧
    (terminal node = true ∨ terminal next = true → SameHardware node next) ∧
    (terminal node = true → stateOf next = stateOf node ∨
      (stateOf node = some .retired ∧ stateOf next = some .revokedStolen))

/-- What no root signed: capabilities only shrink. -/
structure Restrictive (current candidate : Value) : Prop where
  fields : ∀ k ∈ rootFields, field candidate k = field current k
  ids : ∀ id, id ∈ (nodesOf candidate).map nodeId ↔ id ∈ (nodesOf current).map nodeId
  nodes : ∀ node ∈ nodesOf candidate, ∀ old ∈ nodesOf current, nodeId old = nodeId node →
    SameHardware old node ∧ ∀ a ∈ nodeCapabilities node, a ∈ nodeCapabilities old

/-- The next manifest after another one. -/
structure Next (current candidate : Value) (signer : Signer) : Prop where
  epoch : epochOf candidate = epochOf current + 1
  chained : field candidate "prev_digest" = .str (Python.digest current)
  schema : field candidate "schema" = field current "schema" ∨
    (signer = .root ∧ ∃ old new, schemaOf current = some old ∧ schemaOf candidate = some new ∧
      old.index < new.index)
  tombstones : Tombstones current candidate
  restrictive : signer ≠ .root → Restrictive current candidate

/-- What a verified candidate leads to: the first manifest, the current one
    once more, or the next. -/
def Follows (candidate : Value) (signer : Signer) (m : Value) : Prop :=
  match current with
  | none => signer = .root ∧ epochOf candidate = 1 ∧ m = candidate
  | some current =>
    if epochOf candidate = epochOf current then
      Python.digest candidate = Python.digest current ∧ m = current
    else Next current candidate signer ∧ m = candidate

/-- A manifest a verifier may hold as its current one: a valid document. -/
def Held : Prop :=
  ∀ m, current = some m → m.Ordered ∧ ∃ schema, Valid schema m

/-- The manifest an envelope leads to. -/
def Accepts (root : Value) (current : Option Value) (envelope m : Value) :
    Prop :=
  ∃ candidate signer, Envelope crypto root current envelope candidate signer ∧
    Follows current candidate signer m

end Regalia.Membership
