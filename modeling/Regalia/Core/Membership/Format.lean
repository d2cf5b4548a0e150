import Regalia.Core.Membership.Canonical
import Regalia.Data.Calendar
import Regalia.Data.Checker

/-!
# The Membership Format

What the two membership verifiers have in common: the tables of the format,
which the Go reader repeats from the Python module under the same names, the
shape of a refusal, and the two signature schemes as far as they come from a
library.

A refusal keeps the source's format string and its arguments apart, so that
what it says does not depend on how a language prints a value.

## Main definitions

* `Refused`, `Check`: Refusals.
* `require`, `demand`, `onlyIf`: The steps of a checker.
* `Schema`, `NodeState`, `Action`, `Algorithm`, `Signer`: The enumerations.
* `manifestKeys`, `nodeKeys`: The fields each schema asks for.
* `Crypto`: The signature schemes.
-/

namespace Regalia.Membership

/-! ### Refusals -/

/-- An argument of a refusal's text. -/
inductive Arg where
  | text (s : String)
  | number (n : Int)
  | names (l : List String)
  | value (v : Value)
  deriving DecidableEq

/-- A decision not to accept: the text's format and its arguments. -/
structure Refused where
  format : String
  args : List Arg
  deriving DecidableEq

abbrev Check := Except Refused

def refuse {α : Type} (format : String) (args : List Arg) : Check α := .error ⟨format, args⟩

def require (condition : Prop) [Decidable condition] (format : String) (args : List Arg) :
    Check Unit := if condition then .ok () else refuse format args

/-- A value the code goes on with, where there is one. -/
def demand {α : Type} (found : Option α) (format : String) (args : List Arg) : Check α :=
  match found with
  | some a => .ok a
  | none => refuse format args

/-- A check that is made under a condition. -/
def onlyIf (condition : Prop) [Decidable condition] (check : Check Unit) : Check Unit :=
  if condition then check else .ok ()

@[simp] theorem require_eq_ok {condition : Prop} [Decidable condition] {format : String}
    {args : List Arg} {u : Unit} : require condition format args = .ok u ↔ condition := by
  unfold require refuse
  by_cases h : condition
  · simp [h]
  · simp [h]

@[simp] theorem demand_eq_ok {α : Type} {found : Option α} {format : String} {args : List Arg}
    {a : α} : demand found format args = .ok a ↔ found = some a := by
  cases found with
  | none => simp [demand, refuse]
  | some b => simp [demand]

@[simp] theorem onlyIf_eq_ok {condition : Prop} [Decidable condition] {check : Check Unit}
    {u : Unit} : onlyIf condition check = .ok u ↔ (condition → check = .ok ()) := by
  unfold onlyIf
  by_cases h : condition
  · simp [h]
  · simp [h]

/-- The rules that take a check apart into its steps. -/
theorem steps_eq_ok :
    (∀ {α β : Type} (x : Check α) (f : α → Check β) (r : β),
      x >>= f = .ok r ↔ ∃ a, x = .ok a ∧ f a = .ok r) ∧
    (∀ {α : Type} (a r : α), (pure a : Check α) = .ok r ↔ a = r) ∧
    (∀ {α : Type} (a r : α), (.ok a : Check α) = .ok r ↔ a = r) ∧
    (∀ (p : Prop) [Decidable p] (format : String) (args : List Arg) (u : Unit),
      require p format args = .ok u ↔ p) ∧
    (∀ {α : Type} (found : Option α) (format : String) (args : List Arg) (a : α),
      demand found format args = .ok a ↔ found = some a) ∧
    ∀ p : Unit → Prop, (∃ u, p u) ↔ p () :=
  ⟨fun _ _ _ => bind_eq_ok, fun _ _ => pure_eq_ok, fun _ _ => pure_eq_ok,
    fun _ _ _ _ _ => require_eq_ok, fun _ _ _ _ => demand_eq_ok,
    fun _ => ⟨fun ⟨_, h⟩ => h, fun h => ⟨(), h⟩⟩⟩

/-! ### Values -/

variable (v : Value) (node : Value) (s : String)

/-- A field of an object, null where there is none. -/
def field (k : String) : Value := (v.get? k).getD .null

theorem Ordered.field {v : Value} (h : v.Ordered) (k : String) : (field v k).Ordered := by
  unfold Membership.field
  cases hget : v.get? k with
  | none => trivial
  | some w =>
    cases v with
    | obj fields =>
      exact Json.orderedFields_iff.mp h.2 (k, w) (Json.get?_mem hget)
    | _ => cases hget

def hasField (k : String) : Bool := (v.get? k).isSome

def isObject : Value → Bool
  | .obj _ => true
  | _ => false

/-- The text of a string, empty for any other value. -/
def textOf : Value → String
  | .str s => s
  | _ => ""

def asText : Value → Option String
  | .str s => some s
  | _ => none

/-- An integer that is no bool. -/
def asInteger : Value → Option Int
  | .num n => some n
  | _ => none

/-- The items of a list, none for any other value. -/
def itemsOf : Value → List Value
  | .arr items => items
  | _ => []

def asList : Value → Option (List Value)
  | .arr items => some items
  | _ => none

/-! ### Enumerations -/

/-- The schemas, in order: a chain never goes back. -/
inductive Schema where
  | v1
  | v2
  | v3
  | v4
  deriving DecidableEq, Repr

def Schema.text : Schema → String
  | .v1 => "regalia.membership/v1"
  | .v2 => "regalia.membership/v2"
  | .v3 => "regalia.membership/v3"
  | .v4 => "regalia.membership/v4"

def schemas : List Schema := [.v1, .v2, .v3, .v4]

def Schema.index : Schema → Nat
  | .v1 => 0
  | .v2 => 1
  | .v3 => 2
  | .v4 => 3

def Schema.ofValue : Option Schema :=
  schemas.find? (fun s => v = .str s.text)

/-- v3 and v4 have v2's fields. -/
def Schema.second : Schema → Bool
  | .v1 => false
  | _ => true

inductive NodeState where
  | active
  | maintenance
  | draining
  | quarantined
  | retired
  | revokedStolen
  deriving DecidableEq, Repr

def NodeState.text : NodeState → String
  | .active => "ACTIVE"
  | .maintenance => "MAINTENANCE"
  | .draining => "DRAINING"
  | .quarantined => "QUARANTINED"
  | .retired => "RETIRED"
  | .revokedStolen => "REVOKED_STOLEN"

def nodeStates : List NodeState :=
  [.active, .maintenance, .draining, .quarantined, .retired, .revokedStolen]

def NodeState.ofValue : Option NodeState :=
  nodeStates.find? (fun s => v = .str s.text)

def NodeState.terminal : NodeState → Bool
  | .retired | .revokedStolen => true
  | _ => false

/-- Named in a signer rule, but not counting. -/
def NodeState.notCounting : NodeState → Bool
  | .retired | .revokedStolen | .quarantined => true
  | _ => false

inductive Action where
  | serve
  | request
  | authorize
  deriving DecidableEq, Repr

def capabilities : NodeState → List Action
  | .active => [.authorize, .request, .serve]
  | .maintenance => [.request]
  | .draining => [.serve]
  | .quarantined | .retired | .revokedStolen => []

/-- How a key signs. -/
inductive Algorithm where
  | ed25519
  | ecdsaP256
  deriving DecidableEq, Repr

def Algorithm.text : Algorithm → String
  | .ed25519 => "ed25519"
  | .ecdsaP256 => "ecdsa-p256"

def revocationAlgs : List Algorithm := [.ed25519, .ecdsaP256]

/-- What a typed entry of the revocation keys may be. -/
def typedAlgorithms : List Algorithm := revocationAlgs.tail

def signingKeyAlgs : List Algorithm := [.ecdsaP256]

def ownerKeyAlgs : List Algorithm := [.ed25519, .ecdsaP256]

def joined (algs : List Algorithm) : String := ", ".intercalate (algs.map Algorithm.text)

/-- The algorithm a value names, if it is one of a list. -/
def Algorithm.ofValue (algs : List Algorithm) (v : Value) : Option Algorithm :=
  algs.find? (fun a => v = .str a.text)

/-- Who signed an envelope. -/
inductive Signer where
  | root
  | revocation
  | quorum
  deriving DecidableEq, Repr

/-! ### Fields -/

def v1ManifestKeys : List String :=
  ["schema", "epoch", "prev_digest", "policy_version", "issued_at", "revocation_keys", "nodes"]

def v2ManifestKeys : List String := v1ManifestKeys ++ ["heartbeat_max_lifetime_s"]

def signerFields : List String :=
  ["owner_heartbeat_lifetime_s", "owner_keys", "heartbeat_signers", "activation_signers",
   "revocation_signers"]

/-- One rule each; `revocation_signers` is a list of them. -/
def singleRules : List String := ["heartbeat_signers", "activation_signers"]

def v4ManifestKeys : List String :=
  v2ManifestKeys.filter (· ≠ "revocation_keys") ++ signerFields

def manifestKeys : Schema → List String
  | .v1 => v1ManifestKeys
  | .v2 | .v3 => v2ManifestKeys
  | .v4 => v4ManifestKeys

/-- What only the root may change. -/
def rootFields : List String :=
  ["policy_version", "revocation_keys", "heartbeat_max_lifetime_s"] ++ signerFields

def v1NodeKeys : List String :=
  ["node_id", "state", "ek_name", "ak_name", "wg_boot_pub", "wg_service_pub", "hsm_serials"]

def v2NodeKeys : List String := v1NodeKeys ++ ["ssh_host_pub"]

def v4NodeKeys : List String := v2NodeKeys ++ ["signing_key"]

def nodeKeys : Schema → List String
  | .v1 => v1NodeKeys
  | .v2 | .v3 => v2NodeKeys
  | .v4 => v4NodeKeys

/-- The fields a tombstone may have under a schema: those of the schema it was
    retired under. -/
def tombstoneShapes : Schema → List (List String)
  | .v1 => [v1NodeKeys]
  | .v2 | .v3 => [v2NodeKeys, v1NodeKeys]
  | .v4 => [v4NodeKeys, v2NodeKeys, v1NodeKeys]

/-- The identity fields a node carries: v1's four, `ssh_host_pub` from v2 and
    `signing_key` from v4. -/
def identityKeys : List String :=
  ["ek_name", "ak_name", "wg_boot_pub", "wg_service_pub"] ++
    (if hasField node "ssh_host_pub" then ["ssh_host_pub"] else []) ++
    (if hasField node "signing_key" then ["signing_key"] else [])

/-- An identity as one comparable value: the field, or a typed key's hex. -/
def identityValue (k : String) : String :=
  if k = "signing_key" then textOf (field (field node k) "key") else textOf (field node k)

def heartbeatMin : Int := 3600

def heartbeatHardMax : Int := 7 * 24 * 3600

def ownerHeartbeatMin : Int := 300

/-- The owner's party name in a signer rule. -/
def ownerParty : String := "owner"

def heartbeatFloor : Int := 2

def nodeRuleFloor : Int := 2

def maxOwnerKeys : Nat := 8

def maxRules : Nat := 4

def maxSignatures : Nat := 16

def maxRootKeys : Nat := 8

/-- What a signature is over, before the canonical manifest. -/
def domain : List UInt8 := GoString.ofText "regalia-membership/v1" ++ [0]

/-! ### Patterns -/

/-- One to `most` characters of a class. -/
def matchesClass (cls : Char → Bool) (most : Nat) (s : String) : Bool :=
  s.toList ≠ [] && s.toList.length ≤ most && s.toList.all cls

def lowerAlphanum (c : Char) : Bool := c.isLower || c.isDigit

/-- `[a-z0-9][a-z0-9-]{0,31}`. -/
def matchesNodeID : Bool :=
  match s.toList with
  | [] => false
  | c :: cs => lowerAlphanum c && cs.length ≤ 31 && cs.all (fun c => lowerAlphanum c || c = '-')

/-- `[A-Za-z0-9._-]{1,32}`. -/
def matchesPolicy : String → Bool :=
  matchesClass (fun c => c.isAlphanum || c = '.' || c = '_' || c = '-') 32

/-- `[A-Za-z0-9]{1,32}`. -/
def matchesSerial : String → Bool := matchesClass (fun c => c.isAlphanum) 32

/-- `[0-9a-f]{n}`. -/
def matchesHex (n : Nat) (s : String) : Bool := s.toList.length = n && s.toList.all isLowerHex

/-- A key as a signature names it: 64 or 130 lowercase hex. -/
def matchesSignatureKey : Bool := matchesHex 64 s || matchesHex 130 s

/-! ### Signatures -/

/-- What comes from a signature library: whether a signature verifies, for
    Ed25519 by the key over the message, for ECDSA on P-256 by the point over
    the message's digest. The two verifiers use different libraries, which are
    taken to agree. -/
structure Crypto where
  ed25519 : List UInt8 → List UInt8 → List UInt8 → Bool
  ecdsa : List UInt8 → List UInt8 → Nat → Nat → Bool

/-- Bytes as a number, most significant first. -/
def bigEndianValue (bytes : List UInt8) : Nat := bytes.foldl (fun n b => 256 * n + b.toNat) 0

def p256Order : Nat := 0xFFFFFFFF00000000FFFFFFFFFFFFFFFFBCE6FAADA7179E84F3B9CAC2FC632551

def p256Prime : Nat := 2 ^ 256 - 2 ^ 224 + 2 ^ 192 + 2 ^ 96 - 1

def p256B : Nat := 0x5AC635D8AA3A93E7B3EBBD55769886BC651D06B0CC53B0F63BCE3C3E27D2604B

/-- An uncompressed point of P-256: `04`, then two coordinates in the field
    that satisfy the curve's equation. -/
def onP256 (bytes : List UInt8) : Bool :=
  let x := bigEndianValue ((bytes.drop 1).take 32)
  let y := bigEndianValue (bytes.drop 33)
  bytes.length = 65 && bytes.head? = some 4 && x < p256Prime && y < p256Prime &&
    y * y % p256Prime = (x * x * x + (p256Prime - 3) * x + p256B) % p256Prime

/-- The bytes of a hexadecimal field that has been checked. -/
def hexBytes : List UInt8 := (decodeHex s.toList).getD []

/-- What no two nodes of a manifest share: an identity or an owner's key by
    its value, in whatever role, and an HSM by its serial. -/
inductive SeenKey where
  | value (s : String)
  | hsm (s : String)
  deriving DecidableEq

/-- The nodes of a manifest by ID, in the order they are listed. -/
abbrev Nodes := List (String × Value)

def Nodes.ids (nodes : Nodes) : List String := nodes.map Prod.fst

def Nodes.at (nodes : Nodes) (id : String) : Option Value :=
  (nodes.find? (fun p => p.1 = id)).map Prod.snd

/-- The state a node names. -/
def stateOf : Option NodeState := NodeState.ofValue (field node "state")

def terminal (node : Value) : Bool := (stateOf node).any NodeState.terminal

def nodeCapabilities : List Action := (stateOf node).elim [] capabilities

/-- The identities and serials of a node, field by field. -/
def hardwareKeys : List String := identityKeys node ++ ["hsm_serials"]

def schemaOf (manifest : Value) : Option Schema := Schema.ofValue (field manifest "schema")

def epochOf (manifest : Value) : Int := (asInteger (field manifest "epoch")).getD 0

/-- The path of the item of a list in a document. -/
def itemLabel (name : String) (i : Nat) : String := name ++ "[" ++ toString i ++ "]"

end Regalia.Membership
