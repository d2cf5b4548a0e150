import Regalia.Theory.Membership.PythonRules

/-!
# The Nodes' Signing Keys

A signature of a quorum is by a party, and for a node that is the key the
manifest gives the node. Under manifests that give the nodes the keys they
hold, a signature in a node's name is one under the node's own key.

## Main definitions

* `GivesKeys`: A manifest gives the nodes the keys they hold.
* `threeNodes`: A manifest with three nodes in service.

## Theorems

* `Signatures.over_key`: A node's signature is under the node's key.
* `valid_threeNodes`: The manifest of the example is valid.
-/

namespace Regalia.Membership

open List

/-- A manifest gives the nodes the keys they hold. -/
def GivesKeys (keys : String → String) (manifest : Value) : Prop :=
  ∀ node ∈ nodesOf manifest, hasField node "signing_key" = true →
    field (field node "signing_key") "key" = .str (keys (nodeId node))

instance (keys : String → String) (manifest : Value) : Decidable (GivesKeys keys manifest) := by
  unfold GivesKeys
  infer_instance

variable {keys : String → String} {m : Value} {party : String}

theorem GivesKeys.eq (h : GivesKeys keys m) {key : Algorithm × String}
    (hkey : PartyKey m party key) (howner : party ≠ ownerParty) :
    key = (.ecdsaP256, keys party) := by
  unfold PartyKey at hkey
  rw [if_neg howner] at hkey
  obtain ⟨node, hnode, hid, hhas, htyped⟩ := hkey
  have hsame : Json.str key.2 = .str (keys party) := by
    rw [← htyped.hex, ← hid]
    exact h node hnode hhas
  have halg : key.1 = .ecdsaP256 := by simpa [signingKeyAlgs] using htyped.mem
  exact Prod.ext halg (Json.str.inj hsame)

theorem Signatures.over_key {crypto : Crypto} {message : List UInt8} {signatures : Value}
    {parties : List String} (h : Signatures crypto m message signatures parties)
    (hkeys : GivesKeys keys m) (hparty : party ∈ parties) (howner : party ≠ ownerParty) :
    ∃ sig, SignatureOver crypto .ecdsaP256 (keys party) message sig := by
  have hall := (forall₂_iff_map (R := SignedBy crypto m message)
    (fun _ _ h => SignedBy.party h)).mp h.signed
  rw [hall.2] at hparty
  obtain ⟨sig, hsig, rfl⟩ := mem_map.mp hparty
  obtain ⟨-, -, key, -, -, hkey, hover⟩ := hall.1 sig hsig
  rw [hkeys.eq hkey howner] at hover
  exact ⟨field sig "sig", hover⟩

/-! ### An example

Three nodes in service and the owner, whose keys are the first points of the
curve. -/

/-- A number in 32 bytes, most significant first. -/
def bytes32 (n : Nat) : List UInt8 :=
  ((range 32).map (fun i => UInt8.ofNat (n / 256 ^ i))).reverse

def pointBytes (x y : Nat) : List UInt8 := 4 :: (bytes32 x ++ bytes32 y)

def examplePoint (party : String) : List UInt8 :=
  if party = "a" then pointBytes
    0x6b17d1f2e12c4247f8bce6e563a440f277037d812deb33a0f4a13945d898c296
    0x4fe342e2fe1a7f9b8ee7eb4a7c0f9e162bce33576b315ececbb6406837bf51f5
  else if party = "b" then pointBytes
    0x7cf27b188d034f7e8a52380304b51ac3c08969e277f21b35a60b48fc47669978
    0x07775510db8ed040293d9ac69f7430dbba7dade63ce982299e04b79d227873d1
  else pointBytes
    0x5ecbe4d1a6330a44c8f7ef951d4bf165e6c6b721efada985fb41661bc6e7fd6c
    0x8734640c4998ff7e374b06ce1a64a2ecd82ab036384fb83d9a79b127a27d5032

def exampleKey (party : String) : String := String.ofList (hexText (examplePoint party))

/-- Hex of a length: a digit, and zeros. -/
def exampleHex (length : Nat) (digit : Char) : String :=
  String.ofList (digit :: replicate (length - 1) '0')

/-- A node in service, its other identities each told by a digit. -/
def exampleServing (id : String) (ek ak boot service ssh : Char) : Value :=
  .obj [("ak_name", .str (exampleHex 68 ak)), ("ek_name", .str (exampleHex 68 ek)),
    ("hsm_serials", .arr []), ("node_id", .str id),
    ("signing_key", .obj [("alg", .str Algorithm.ecdsaP256.text), ("key", .str (exampleKey id))]),
    ("ssh_host_pub", .str (exampleHex 64 ssh)), ("state", .str NodeState.active.text),
    ("wg_boot_pub", .str (exampleHex 64 boot)), ("wg_service_pub", .str (exampleHex 64 service))]

def exampleQuorum (threshold : Int) (parties : List String) : Value :=
  .obj [("parties", .arr (parties.map .str)), ("threshold", .num threshold)]

def threeNodes : Value :=
  .obj [("activation_signers", exampleQuorum 2 ["a", "b", "c"]), ("epoch", .num 1),
    ("heartbeat_max_lifetime_s", .num 3600),
    ("heartbeat_signers", exampleQuorum 2 ["a", "b", "c", "owner"]),
    ("issued_at", .str "2026-10-02T09:00:00Z"),
    ("nodes", .arr [exampleServing "a" '1' '2' '3' '4' '5', exampleServing "b" '6' '7' '8' '9' 'a',
      exampleServing "c" 'b' 'c' 'd' 'e' 'f']),
    ("owner_heartbeat_lifetime_s", .num 3600),
    ("owner_keys", .arr [.obj [("alg", .str "ed25519"), ("key", .str (exampleHex 64 '0'))]]),
    ("policy_version", .str "p"), ("prev_digest", .str ""),
    ("revocation_signers", .arr [exampleQuorum 1 ["owner"]]), ("schema", .str Schema.v4.text)]

theorem ordered_threeNodes : threeNodes.Ordered := by decide

theorem nodesOf_threeNodes : nodesOf threeNodes = [exampleServing "a" '1' '2' '3' '4' '5',
    exampleServing "b" '6' '7' '8' '9' 'a', exampleServing "c" 'b' 'c' 'd' 'e' 'f'] := rfl

theorem matchesHex_exampleHex {length : Nat} {digit : Char} (hlength : 0 < length)
    (hdigit : isLowerHex digit = true) : matchesHex length (exampleHex length digit) = true := by
  unfold matchesHex exampleHex
  rw [String.toList_ofList]
  have hzero : isLowerHex '0' = true := by decide
  simp only [length_cons, length_replicate, all_cons, all_replicate, hdigit,
    hzero, Bool.true_and, Bool.and_eq_true, decide_eq_true_eq]
  refine ⟨by omega, ?_⟩
  split <;> rfl

theorem matchesHex_hexText {bytes : List UInt8} {n : Nat} (h : 2 * bytes.length = n) :
    matchesHex n (String.ofList (hexText bytes)) = true := by
  unfold matchesHex
  rw [String.toList_ofList, length_hexText, h]
  simpa using hexText_lower bytes

theorem exact_of_perm {v : Value} {keys : List String} (hobj : isObject v = true)
    (h : v.keys.Perm keys) : Exact v keys := ⟨hobj, fun _ => h.mem_iff⟩

theorem publicKey_example {party : String} (hlength : (examplePoint party).length = 65)
    (hhead : (hexText (examplePoint party)).take 2 = ['0', '4'])
    (hcurve : onP256 (examplePoint party) = true) : PublicKey .ecdsaP256 (exampleKey party) := by
  refine ⟨matchesHex_hexText (by rw [hlength]), ?_, ?_⟩
  · unfold exampleKey
    rw [String.toList_ofList]
    exact hhead
  · unfold hexBytes exampleKey
    rw [String.toList_ofList, decodeHex_hexText]
    exact hcurve

theorem signingKey_example : ∀ party ∈ ["a", "b", "c"], PublicKey .ecdsaP256 (exampleKey party) := by
  have hpoints : ∀ party ∈ ["a", "b", "c"], (examplePoint party).length = 65 ∧
      (hexText (examplePoint party)).take 2 = ['0', '4'] ∧
      onP256 (examplePoint party) = true := by decide
  intro party hparty
  obtain ⟨hlength, hhead, hcurve⟩ := hpoints party hparty
  exact publicKey_example hlength hhead hcurve

theorem nodeRule_example {id : String} {ek ak boot service ssh : Char} (hid : id ∈ ["a", "b", "c"])
    (hdigits : [ek, ak, boot, service, ssh].all isLowerHex = true) :
    NodeRule .v4 (exampleServing id ek ak boot service ssh) := by
  simp only [all_cons, all_nil, Bool.and_true, Bool.and_eq_true] at hdigits
  obtain ⟨hek, hak, hboot, hservice, hssh⟩ := hdigits
  have hname : matchesNodeID id = true ∧ id ≠ ownerParty := by
    revert id
    decide
  refine ⟨.inl (exact_of_perm rfl ?_), rfl, hname.1, fun _ => hname.2, ?_,
    ⟨_, rfl, matchesHex_exampleHex (by decide) hek⟩, ⟨_, rfl, matchesHex_exampleHex (by decide) hak⟩,
    ⟨_, rfl, matchesHex_exampleHex (by decide) hboot⟩,
    ⟨_, rfl, matchesHex_exampleHex (by decide) hservice⟩,
    fun _ => ⟨_, rfl, matchesHex_exampleHex (by decide) hssh⟩, fun _ => ?_, rfl, ?_⟩
  · show ["ak_name", "ek_name", "hsm_serials", "node_id", "signing_key", "ssh_host_pub", "state",
      "wg_boot_pub", "wg_service_pub"].Perm v4NodeKeys
    decide
  · show (NodeState.ofValue (.str NodeState.active.text)).isSome = true
    decide
  · refine ⟨(.ecdsaP256, exampleKey id), exact_of_perm rfl ?_, ?_, rfl, rfl, signingKey_example id hid⟩
    · exact List.Perm.refl _
    · exact mem_singleton.mpr rfl
  · intro s hs
    exact absurd hs not_mem_nil

theorem signerRule_example {ids : List String} {threshold : Int} {parties : List String}
    {ownerAlone : Bool} (hne : parties ≠ []) (hnodup : parties.Nodup)
    (hknown : ∀ p ∈ parties, p = ownerParty ∨ p ∈ ids)
    (hfloor : leastThreshold ownerAlone parties ≤ threshold) (hmost : threshold ≤ parties.length) :
    SignerRule ids ownerAlone (exampleQuorum threshold parties) parties threshold where
  exact := exact_of_perm rfl (List.Perm.swap _ _ _)
  names := rfl
  nonempty := hne
  distinct := hnodup
  known := hknown
  number := rfl
  floor := hfloor
  most := hmost

/-- The identities of the three nodes and the owner's key, as characters. -/
def exampleIdentities : List (List Char) :=
  let zeros n := replicate n '0'
  [ '1' :: zeros 67, '2' :: zeros 67, '3' :: zeros 63, '4' :: zeros 63, '5' :: zeros 63,
    hexText (examplePoint "a"),
    '6' :: zeros 67, '7' :: zeros 67, '8' :: zeros 63, '9' :: zeros 63, 'a' :: zeros 63,
    hexText (examplePoint "b"),
    'b' :: zeros 67, 'c' :: zeros 67, 'd' :: zeros 63, 'e' :: zeros 63, 'f' :: zeros 63,
    hexText (examplePoint "c"), '0' :: zeros 63]

theorem identities_threeNodes : (nodesOf threeNodes).flatMap identities ++
    (ownerKeysOf threeNodes).map SeenKey.value =
      exampleIdentities.map (fun cs => SeenKey.value (String.ofList cs)) := rfl

theorem nodup_threeNodes : ((nodesOf threeNodes).flatMap identities ++
    (ownerKeysOf threeNodes).map SeenKey.value).Nodup := by
  rw [identities_threeNodes]
  refine List.Nodup.map ?_ (by decide)
  intro cs ds h
  simpa using congrArg String.toList (SeenKey.value.inj h)

theorem valid_threeNodes : Valid .v4 threeNodes where
  named := rfl
  exact := by
    refine exact_of_perm rfl ?_
    show ["activation_signers", "epoch", "heartbeat_max_lifetime_s", "heartbeat_signers",
      "issued_at", "nodes", "owner_heartbeat_lifetime_s", "owner_keys", "policy_version",
      "prev_digest", "revocation_signers", "schema"].Perm v4ManifestKeys
    decide
  lifetime _ := ⟨3600, rfl, by decide, by decide⟩
  epoch := ⟨1, rfl, by decide, fun _ => rfl, fun h => absurd rfl h⟩
  policy := ⟨"p", rfl, by decide⟩
  issued := by
    refine ⟨"2026-10-02T09:00:00Z", ⟨2026, 10, 2, 9, 0, 0⟩, rfl, ?_, ?_, ?_⟩ <;> decide
  revocation h := absurd rfl h
  nodes := rfl
  nonempty := cons_ne_nil _ _
  nodeRules := by
    intro node hnode
    rw [nodesOf_threeNodes] at hnode
    simp only [mem_cons, not_mem_nil, or_false] at hnode
    rcases hnode with rfl | rfl | rfl
    · exact nodeRule_example (by decide) (by decide)
    · exact nodeRule_example (by decide) (by decide)
    · exact nodeRule_example (by decide) (by decide)
  ids := by
    show ["a", "b", "c"].Nodup
    decide
  unique := (nodup_append.mp nodup_threeNodes).1
  signers _ :=
    { owners := by
        refine ⟨_, rfl, by decide, by decide, ?_⟩
        intro e he
        refine ⟨(.ed25519, exampleHex 64 '0'), ?_⟩
        rw [mem_singleton.mp he]
        exact ⟨exact_of_perm rfl (List.Perm.refl _), by decide, rfl, rfl,
          matchesHex_exampleHex (by decide) (by decide)⟩
      unique := nodup_threeNodes
      lifetime := ⟨3600, 3600, rfl, rfl, by decide, by decide⟩
      single := by
        have hknown : ∀ p ∈ ["a", "b", "c", "owner"], p = ownerParty ∨
            p ∈ (nodesById threeNodes).ids := by
          show ∀ p ∈ ["a", "b", "c", "owner"], p = ownerParty ∨ p ∈ ["a", "b", "c"]
          decide
        intro name hname
        rcases mem_cons.mp hname with rfl | hname
        · exact ⟨["a", "b", "c", "owner"], 2, signerRule_example (by decide) (by decide) hknown
            (by decide) (by decide)⟩
        · rw [mem_singleton.mp hname]
          exact ⟨["a", "b", "c"], 2, signerRule_example (by decide) (by decide)
            (fun p hp => hknown p (mem_append_left ["owner"] hp)) (by decide) (by decide)⟩
      revocation := by
        refine ⟨_, rfl, by decide, by decide, ?_⟩
        intro rule hrule
        rw [mem_singleton.mp hrule]
        exact ⟨["owner"], 1, signerRule_example (by decide) (by decide)
          (fun p hp => .inl (mem_singleton.mp hp)) (by decide) (by decide)⟩ }

theorem validate_threeNodes : Python.validate threeNodes = .ok (nodesById threeNodes) :=
  Python.validate_eq_ok.mpr ⟨⟨.v4, valid_threeNodes⟩, rfl⟩

/-- What a node of the example says of itself. -/
structure Serving (name : String) (node : Value) : Prop where
  id : nodeId node = name
  has : hasField node "signing_key" = true
  key : TypedKey signingKeyAlgs (field node "signing_key") (.ecdsaP256, exampleKey name)
  active : stateOf node = some .active

theorem serving_example {id : String} (ek ak boot service ssh : Char)
    (hid : id ∈ ["a", "b", "c"]) : Serving id (exampleServing id ek ak boot service ssh) := by
  have hkey : field (exampleServing id ek ak boot service ssh) "signing_key" =
      .obj [("alg", .str Algorithm.ecdsaP256.text), ("key", .str (exampleKey id))] := by
    simp [exampleServing, field, Json.get?, lookup_cons]
  have hstate : field (exampleServing id ek ak boot service ssh) "state" =
      .str NodeState.active.text := by
    simp [exampleServing, field, Json.get?, lookup_cons]
  refine ⟨?_, ?_, ?_, ?_⟩
  · simp [exampleServing, nodeId, field, Json.get?, lookup_cons, textOf]
  · simp [exampleServing, hasField, Json.get?, lookup_cons]
  · rw [hkey]
    exact ⟨exact_of_perm rfl (List.Perm.refl _), mem_singleton.mpr rfl, rfl, rfl,
      signingKey_example id hid⟩
  · unfold stateOf
    rw [hstate]
    decide

theorem at_threeNodes {name : String} (hname : name ∈ ["a", "b", "c"]) :
    ∃ node ∈ nodesOf threeNodes, (nodesById threeNodes).at name = some node ∧
      Serving name node := by
  rw [nodesOf_threeNodes]
  have hserving := fun ek ak boot service ssh => serving_example ek ak boot service ssh hname
  simp only [mem_cons, not_mem_nil, or_false] at hname
  rcases hname with rfl | rfl | rfl
  · exact ⟨exampleServing "a" '1' '2' '3' '4' '5', by simp, rfl, hserving _ _ _ _ _⟩
  · exact ⟨exampleServing "b" '6' '7' '8' '9' 'a', by simp, rfl, hserving _ _ _ _ _⟩
  · exact ⟨exampleServing "c" 'b' 'c' 'd' 'e' 'f', by simp, rfl, hserving _ _ _ _ _⟩

/-- A signature that is in range, by whatever key. -/
def exampleSignature : String := String.ofList (hexText (bytes32 1 ++ bytes32 1))

theorem matchesHex_exampleSignature : matchesHex 128 exampleSignature = true :=
  matchesHex_hexText (by decide)

theorem signatureOver_example {crypto : Crypto} {name : String} (hname : name ∈ ["a", "b", "c"])
    (hecdsa : ∀ key digest r s, crypto.ecdsa key digest r s = true) (message : List UInt8) :
    SignatureOver crypto .ecdsaP256 (exampleKey name) message (.str exampleSignature) := by
  have hbytes : hexBytes exampleSignature = bytes32 1 ++ bytes32 1 := by
    unfold hexBytes exampleSignature
    rw [String.toList_ofList, decodeHex_hexText]
    rfl
  refine ⟨exampleSignature, rfl, matchesHex_exampleSignature, ?_⟩
  rw [hbytes]
  exact ⟨by decide, by decide, (signingKey_example name hname).2.2, hecdsa _ _ _ _⟩

theorem matchesHex_sum (message : List UInt8) :
    matchesHex 64 (String.ofList (hexText (Sha256.sum message))) = true :=
  matchesHex_hexText (by rw [Sha256.sum_length])

theorem matchesHex_digest (v : Value) : matchesHex 64 (Python.digest v) = true :=
  matchesHex_sum (Python.canonical v)

end Regalia.Membership
