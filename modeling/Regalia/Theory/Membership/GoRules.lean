import Regalia.Core.Membership.Go
import Regalia.Theory.Membership.Reading

/-!
# The Go Verifier Follows the Rules

Each function of the Go verifier, as the proposition it decides. The rules are
those of `Rules`, the same that the Python verifier is held to; what differs
is how the code gets there: it counts a map's names where Python compares
sets, decodes hex where Python matches a pattern, lets `time.Date` normalise a
day, and keeps identities and serials in one map of strings.

## Theorems

* `exact_eq_ok`, `hexField_eq_ok`, `typedKey_eq_ok`: Shapes and keys.
* `validateNode_eq_ok`: One pass of the loop over the nodes.
* `validate_eq_ok`: A manifest validates exactly when it is valid.
-/

namespace Regalia.Membership

open List

namespace Go

variable {schema : Schema} {v : Value} {label : String} {node : Value} {u : Unit}
    {seen seen' : Seen} {m : Value} {keys : List String}

/-! ### Shapes and keys -/

theorem size_eq_iff (hkeys : keys.Nodup) :
    ((∀ k ∈ keys, hasField v k = true) ∧ size v = keys.length) ↔ ∀ k, k ∈ v.keys ↔ k ∈ keys := by
  unfold size
  rw [← subset_and_dedup_length_iff hkeys]
  simp only [hasField_iff]

theorem exact_eq_ok (hkeys : keys.Nodup) : exact v keys label = .ok u ↔ Exact v keys := by
  unfold exact Exact
  simp only [steps_eq_ok, forM_require_eq_ok]
  exact and_congr_right (fun _ => size_eq_iff hkeys)

theorem sameKeySet_iff (hkeys : keys.Nodup) :
    sameKeySet v keys = true ↔ ∀ k, k ∈ v.keys ↔ k ∈ keys := by
  unfold sameKeySet
  rw [Bool.and_eq_true, decide_eq_true_eq, all_eq_true, and_comm]
  exact size_eq_iff hkeys

theorem toLower_eq_iff (s : String) : toLower s = s ↔ ∀ c ∈ s.toList, c.toLower = c := by
  unfold toLower
  rw [← String.toList_inj, String.toList_ofList]
  have hmap := map_inj_left (f := Char.toLower) (g := id) (l := s.toList)
  rw [map_id] at hmap
  exact hmap

/-- Decoding and lowering a text, against the pattern. -/
theorem hexField_eq_ok {n : Nat} (hn : n % 2 = 0) : hexField v n label = .ok u ↔ IsHex n v := by
  unfold hexField IsHex
  simp only [steps_eq_ok, asText_filter_eq_some, Bool.and_eq_true, decide_eq_true_eq,
    toLower_eq_iff]
  refine exists_congr (fun s => ?_)
  rw [and_assoc]
  refine and_congr_right (fun _ => ?_)
  unfold matchesHex
  rw [Bool.and_eq_true, decide_eq_true_eq, all_eq_true]
  constructor
  · rintro ⟨⟨hlength, hlower⟩, hdecode⟩
    have hdigit := isSome_hexValue_of_decodeHex s.toList.length s.toList (Nat.le_refl _) hdecode
    have hascii : (GoString.ofText s).length = s.toList.length :=
      GoString.length_ofRunes_of_ascii s.toList (fun c hc => toNat_lt_of_hexValue c (hdigit c hc))
    exact ⟨hascii ▸ hlength, fun c hc => (isLowerHex_iff c).mpr ⟨hdigit c hc, hlower c hc⟩⟩
  · rintro ⟨hlength, hlower⟩
    have hascii : (GoString.ofText s).length = s.toList.length :=
      GoString.length_ofRunes_of_ascii s.toList
        (fun c hc => toNat_lt_of_hexValue c ((isLowerHex_iff c).mp (hlower c hc)).1)
    have heven : s.toList.length = 2 * (n / 2) := by omega
    rcases hexText_decodeHex (n / 2) s.toList heven hlower with ⟨bytes, hbytes, _⟩
    refine ⟨⟨hascii.trans hlength, fun c hc => ((isLowerHex_iff c).mp (hlower c hc)).2⟩, ?_⟩
    rw [hbytes]
    rfl

theorem isPrefixOf_iff (l : List Char) :
    ['0', '4'].isPrefixOf l = true ↔ l.take 2 = ['0', '4'] := by
  rw [ isPrefixOf_iff_prefix, prefix_iff_eq_take]
  exact eq_comm

theorem revocationEntry_eq_ok {k : Algorithm × String} :
    revocationEntry v label = .ok k ↔ KeyEntry v k := by
  cases v with
  | str bare =>
    unfold revocationEntry
    rw [keyEntry_str_iff]
    simp (disch := decide) only [steps_eq_ok, hexField_eq_ok]
  | _ =>
    rw [keyEntry_iff_typed (by simp), ← typedEntry_iff]
    simp (disch := decide) only [revocationEntry, steps_eq_ok, exact_eq_ok,
      Algorithm.ofValue_eq_some, hexField_eq_ok, isPrefixOf_iff]

theorem typedKey_eq_ok {algs : List Algorithm} {k : Algorithm × String} :
    typedKey v label algs = .ok k ↔ TypedKey algs v k := by
  unfold typedKey
  simp (disch := decide) only [steps_eq_ok, exact_eq_ok, Algorithm.ofValue_eq_some]
  apply typedKey_iff
  · rw [if_pos (by decide), revocationEntry_eq_ok]
  · rw [if_neg (by decide)]
    simp (disch := decide) only [steps_eq_ok, hexField_eq_ok]

theorem rootEntries_eq_ok {root : Value} {keys : List (Algorithm × String)} :
    rootEntries root label = .ok keys ↔ RootKeys root keys := by
  have hentries : rootList root = (asList root).getD [root] := by
    cases root <;> rfl
  unfold rootEntries
  rw [← rootKeys_iff]
  simp only [hentries, steps_eq_ok, ne_eq, length_eq_zero_iff,
    mapM_eq_ok KeyEntry ((asList root).getD [root]) (fun _ _ _ => revocationEntry_eq_ok)]

theorem verifyTyped_eq_ok {crypto : Crypto} {alg : Algorithm} {key : String} {message : List UInt8}
    {sig : Value} {what : String} :
    verifyTyped crypto alg key message sig what = .ok u ↔
      SignatureOver crypto alg key message sig := by
  unfold verifyTyped
  rw [signatureOver_iff]
  simp (disch := decide) only [steps_eq_ok, hexField_eq_ok]
  refine and_congr_right (fun _ => ?_)
  -- a key that is no hex has no bytes, and no scheme takes a key without bytes
  cases hdecode : decodeHex key.toList with
  | none =>
    have hnil : hexBytes key = [] := by rw [hexBytes, hdecode]; rfl
    rw [hnil]
    cases alg <;> simp [Verifies, onP256]
  | some bytes =>
    have hbytes : hexBytes key = bytes := by rw [hexBytes, hdecode]; rfl
    rw [hbytes]
    cases alg <;> simp only [steps_eq_ok, Verifies, Option.some.injEq, exists_eq_left', not_or,
      ge_iff_le, gt_iff_lt, Nat.not_le, Nat.not_lt, Nat.pos_iff_ne_zero, and_assoc]

/-! ### Manifests -/

theorem length_filterMap_asText_iff (items : List Value) :
    (items.filterMap asText).length = items.length ↔ items = (items.filterMap asText).map .str := by
  induction items with
  | nil => simp
  | cons v rest ih =>
    cases hv : asText v with
    | some s =>
      rw [filterMap_cons_some hv, asText_eq_some.mp hv]
      simpa using ih
    | none =>
      -- an item that is no string leaves the strings too few
      rw [filterMap_cons_none hv]
      have hle := length_filterMap_le asText rest
      constructor
      · intro h
        rw [length_cons] at h
        omega
      · intro h
        have hlength := congrArg List.length h
        rw [length_map, length_cons] at hlength
        omega

/-- The strings of a list, when all of its items are strings. -/
theorem names_filterMap_iff :
    ((asList v).isSome = true ∧ ((itemsOf v).filterMap asText).length = (itemsOf v).length) ↔
      Names v ((itemsOf v).filterMap asText) := by
  unfold Names
  rw [length_filterMap_asText_iff]
  cases v with
  | arr items => simp [asList, itemsOf]
  | _ => simp [asList]

theorem signerRule_eq_ok {byID : Nodes} {ownerAlone : Bool} :
    signerRule byID v label ownerAlone = .ok u ↔
      ∃ parties t, SignerRule byID.ids ownerAlone v parties t := by
  unfold signerRule
  simp (disch := decide) only [steps_eq_ok, exact_eq_ok, asInteger_eq_some, dedup_length_eq_iff,
    forM_require_eq_ok]
  have hleast : ∀ parties : List String, (if ownerAlone = true then
      if parties = [ownerParty] then 1 else nodeRuleFloor else heartbeatFloor) =
      leastThreshold ownerAlone parties := by
    intro parties
    unfold leastThreshold
    cases ownerAlone <;> simp
  simp only [hleast]
  constructor
  · rintro ⟨hexact, ⟨hlist, hne, hlength⟩, hdistinct, hknown, t, ht, hrange⟩
    have hnames := names_filterMap_iff.mp ⟨hlist, hlength⟩
    refine ⟨_, t, hexact, hnames, ?_, hdistinct, ?_, ht, by omega, by omega⟩
    · intro hnil
      rw [hnil] at hlength
      exact hne hlength.symm
    · intro p hp
      have := hknown p hp
      tauto
  · rintro ⟨parties, t, h⟩
    have hparties := h.names.filterMap_asText
    have hnames := h.names
    rw [← hparties] at hnames
    rcases names_filterMap_iff.mpr hnames with ⟨hlist, hlength⟩
    rw [hparties] at hlength ⊢
    refine ⟨h.exact, ⟨hlist, ?_, hlength⟩, h.distinct, ?_, t, h.number, ?_⟩
    · rw [← hlength]
      exact fun hzero => h.nonempty (length_eq_zero_iff.mp hzero)
    · intro p hp
      have := h.known p hp
      tauto
    · have := h.floor
      have := h.most
      omega

theorem nodup_shapes : ∀ shape ∈ shapes schema, shape.Nodup := by
  cases schema <;> decide

theorem shapes_eq : shapes schema = tombstoneShapes schema := by
  cases schema <;> decide

theorem nodup_nodeShape : (nodeShape schema node).Nodup := by
  unfold nodeShape
  have hnodeKeys : (nodeKeys schema).Nodup := by cases schema <;> decide
  by_cases hobj : isObject node = true
  · rw [if_pos hobj]
    cases hfind : (shapes schema).find? (fun s => terminal node && sameKeySet node s) with
    | none => exact hnodeKeys
    | some s => exact nodup_shapes s (mem_of_find?_eq_some hfind)
  · rw [if_neg hobj]
    exact hnodeKeys

theorem exact_nodeShape : Exact node (nodeShape schema node) ↔ NodeShape schema node := by
  unfold nodeShape NodeShape
  by_cases hobj : isObject node = true
  · rw [if_pos hobj, ← shapes_eq]
    apply exact_find?_shape
    intro s hs
    rw [Bool.and_eq_true, sameKeySet_iff (nodup_shapes s hs), Exact]
    exact and_congr_right (fun _ => ⟨fun h => ⟨hobj, h⟩, fun h => h.2⟩)
  · rw [if_neg hobj]
    refine ⟨.inl, fun h => h.resolve_right ?_⟩
    rintro ⟨_, _, _, hexact⟩
    exact hobj hexact.1

/-! ### Uniqueness in one map of strings -/

/-- The name under which the map keeps something seen. -/
def goKey : SeenKey → String
  | .value s => s
  | .hsm s => hsmKey s

/-- What is kept by value is hex. -/
def HexValue : SeenKey → Prop
  | .value s => ∃ n, 64 ≤ n ∧ matchesHex n s = true
  | .hsm _ => True

/-- No hex value is the name of an HSM, so the one map keeps the two apart. -/
theorem goKey_injective {a b : SeenKey} (ha : HexValue a) (hb : HexValue b)
    (h : goKey a = goKey b) : a = b := by
  have hapart : ∀ s t, (∃ n, 64 ≤ n ∧ matchesHex n s = true) → s ≠ hsmKey t := by
    rintro s t ⟨n, _, hhex⟩ rfl
    unfold matchesHex at hhex
    rw [Bool.and_eq_true, all_eq_true] at hhex
    have hmem : Char.ofNat 0 ∈ (hsmKey t).toList := by
      unfold hsmKey
      rw [String.toList_append]
      exact mem_append_left _ (by decide)
    exact absurd (hhex.2 _ hmem) (by decide)
  cases a with
  | value s =>
    cases b with
    | value t => exact congrArg SeenKey.value h
    | hsm t => exact absurd h (hapart s t ha)
  | hsm s =>
    cases b with
    | value t => exact absurd h.symm (hapart t s hb)
    | hsm t =>
      unfold goKey hsmKey at h
      have htext := congrArg String.toList h
      rw [String.toList_append, String.toList_append] at htext
      rw [String.toList_inj.mp (append_cancel_left htext)]

theorem nodup_map_goKey {keys : List SeenKey} (h : ∀ k ∈ keys, HexValue k) :
    (keys.map goKey).Nodup ↔ keys.Nodup := by
  constructor
  · exact List.Nodup.of_map goKey
  · exact List.Nodup.map_on (fun a ha b hb => goKey_injective (h a ha) (h b hb))

theorem hexValue_identities (h : NodeRule schema node) : ∀ k ∈ identities node, HexValue k := by
  intro k hk
  rcases mem_append.mp hk with hk | hk
  · rcases mem_map.mp hk with ⟨name, hname, rfl⟩
    exact h.identity_hex hname
  · rcases mem_map.mp hk with ⟨s, _, rfl⟩
    trivial

/-- What a node enters into `seen`. -/
def nodeUses (node : Value) : Seen :=
  (identityKeys node).map (fun k => (identityValue node k, k ++ " of " ++ nodeId node)) ++
    (itemsOf (field node "hsm_serials")).map (fun s => (hsmKey (textOf s), nodeId node))

theorem nodeUses_keys (node : Value) : (nodeUses node).keys = (identities node).map goKey := by
  unfold nodeUses identities serialsOf Seen.keys
  rw [map_append, map_append, map_map, map_map, map_map, map_map, map_map]
  rfl

theorem keys_flatMap_nodeUses (nodes : List Value) :
    Seen.keys (nodes.flatMap nodeUses) = (nodes.flatMap identities).map goKey := by
  unfold Seen.keys
  rw [map_flatMap, map_flatMap]
  exact flatMap_congr (fun node _ => nodeUses_keys node)

theorem claimIdentity_eq_ok {id : String} {k : String} :
    claimIdentity node id seen k = .ok seen' ↔ identityValue node k ∉ seen.keys ∧
      seen' = seen ++ [(identityValue node k, k ++ " of " ++ id)] := by
  unfold claimIdentity
  simp only [steps_eq_ok]
  exact and_congr_right (fun _ => eq_comm)

theorem claimSerial_eq_ok {id : String} {s : Value} :
    claimSerial id seen s = .ok seen' ↔ hsmKey (textOf s) ∉ seen.keys ∧
      seen' = seen ++ [(hsmKey (textOf s), id)] := by
  unfold claimSerial
  simp only [steps_eq_ok]
  exact and_congr_right (fun _ => eq_comm)

/-- The two loops over what a node holds, together. -/
theorem claims_eq_ok :
    (∃ s, (identityKeys node).foldlM (claimIdentity node (nodeId node)) seen = .ok s ∧
      (itemsOf (field node "hsm_serials")).foldlM (claimSerial (nodeId node)) s = .ok seen') ↔
      Fresh seen.keys (nodeUses node).keys ∧ seen' = seen ++ nodeUses node :=
  foldlM_register_append (fun k => (identityValue node k, k ++ " of " ++ nodeId node))
    (fun serial => (hsmKey (textOf serial), nodeId node)) (fun _ _ _ => claimIdentity_eq_ok)
    (fun _ _ _ => claimSerial_eq_ok) _ _ _ _

/-- The serials, checked one by one. -/
theorem serials_iff {list : List Value} :
    (field node "hsm_serials" = .arr list ∧
      ∀ serial ∈ list, ∃ s, serial = .str s ∧ matchesSerial s = true) ↔
      list = itemsOf (field node "hsm_serials") ∧
        Names (field node "hsm_serials") (serialsOf node) ∧
        ∀ s ∈ serialsOf node, matchesSerial s = true := by
  constructor
  · rintro ⟨hlist, hall⟩
    have hitems : itemsOf (field node "hsm_serials") = list := by rw [hlist]; rfl
    have hself : list = (list.map textOf).map .str := by
      rw [map_map]
      conv => lhs; rw [← map_id list]
      refine map_congr_left (fun serial hserial => ?_)
      rcases hall serial hserial with ⟨s, rfl, _⟩
      rfl
    unfold serialsOf
    rw [hitems]
    refine ⟨rfl, ?_, ?_⟩
    · rw [Names, hlist, ← hself]
    · intro s hs
      rcases mem_map.mp hs with ⟨serial, hserial, rfl⟩
      rcases hall serial hserial with ⟨s, rfl, hmatches⟩
      exact hmatches
  · rintro ⟨rfl, hnames, hall⟩
    have hitems := hnames.itemsOf_eq
    rw [hitems]
    refine ⟨hnames, ?_⟩
    intro serial hserial
    rcases mem_map.mp hserial with ⟨s, hs, rfl⟩
    exact ⟨s, rfl, hall s hs⟩

theorem validateNode_eq_ok {found r : Nodes × Seen} {item : Value × Nat} :
    validateNode schema found item = .ok r ↔ NodeRule schema item.1 ∧
      (Fresh found.1.ids [nodeId item.1] ∧
        Fresh (found.2.map Prod.fst) ((nodeUses item.1).map Prod.fst)) ∧
      r = (found.1 ++ [(nodeId item.1, item.1)], found.2 ++ nodeUses item.1) := by
  unfold validateNode
  have hnames : ∀ (label : String) (u : Unit), [("ek_name", 68), ("ak_name", 68),
      ("wg_boot_pub", 64), ("wg_service_pub", 64)].forM (fun named =>
        hexField (field item.1 named.1) named.2 (label ++ "." ++ named.1)) = .ok u ↔
      IsHex 68 (field item.1 "ek_name") ∧ IsHex 68 (field item.1 "ak_name") ∧
      IsHex 64 (field item.1 "wg_boot_pub") ∧ IsHex 64 (field item.1 "wg_service_pub") := by
    intro label u
    rw [forM_eq_ok (fun named : String × Nat => IsHex named.2 (field item.1 named.1))]
    · simp
    · intro named hnamed
      refine hexField_eq_ok ?_
      revert named
      decide
  simp (disch := decide) only [steps_eq_ok, exact_eq_ok nodup_nodeShape, exact_nodeShape,
    Option.filter_eq_some_iff, asText_eq_some, asList_eq_some, hnames, hexField_eq_ok, onlyIf_eq_ok,
    typedKey_eq_ok, forM_require_eq_ok, asText_any_eq_true, fresh_singleton]
  constructor
  · rintro ⟨hshape, id, ⟨hid, hname⟩, howner, hnew, hstate, ⟨hek, hak, hboot, hservice⟩, hssh,
      hsigning, list, hlist, hall, seen, hseen, seen', hseen', rfl⟩
    have hidText : nodeId item.1 = id := by rw [nodeId, hid]; rfl
    subst hidText
    rcases serials_iff.mp ⟨hlist, hall⟩ with ⟨rfl, hserials, hserialNames⟩
    rcases claims_eq_ok.mp ⟨seen, hseen, hseen'⟩ with ⟨hfresh, rfl⟩
    exact ⟨⟨hshape, hid, hname, fun h ho => howner ⟨h, ho⟩, hstate, hek, hak, hboot, hservice,
      hssh, fun h => (hsigning h).imp (fun _ hk => hk.1), hserials, hserialNames⟩,
      ⟨hnew, hfresh⟩, rfl⟩
  · rintro ⟨h, ⟨hnew, hfresh⟩, rfl⟩
    rcases claims_eq_ok.mpr ⟨hfresh, rfl⟩ with ⟨seen, hseen, hseen'⟩
    rcases serials_iff.mpr ⟨rfl, h.serials, h.serialNames⟩ with ⟨hlist, hall⟩
    exact ⟨h.shape, nodeId item.1, ⟨h.id, h.idName⟩, fun ho => h.idOwner ho.1 ho.2,
      hnew, h.state, ⟨h.ek, h.ak, h.wgBoot, h.wgService⟩, h.sshHost,
      fun hs => (h.signing hs).imp (fun _ hk => ⟨hk, trivial⟩),
      itemsOf (field item.1 "hsm_serials"), hlist, hall, seen, hseen, _, hseen', rfl⟩

/-! ### The signer rules -/

theorem hexValue_typedKey {algs : List Algorithm} {key : Algorithm × String}
    (h : TypedKey algs v key) : HexValue (.value (textOf (field v "key"))) := by
  rw [h.hex]
  have hshape := h.shape
  cases halg : key.1 with
  | ed25519 =>
    rw [halg] at hshape
    exact ⟨64, by decide, hshape⟩
  | ecdsaP256 =>
    rw [halg] at hshape
    exact ⟨130, by decide, hshape.1⟩

theorem ownerKey_eq_ok {item : Value × Nat} :
    ownerKey seen item = .ok seen' ↔ (∃ key, TypedKey ownerKeyAlgs item.1 key) ∧
      textOf (field item.1 "key") ∉ seen.keys ∧
      seen' = seen ++ [(textOf (field item.1 "key"), itemLabel "owner_keys" item.2)] := by
  unfold ownerKey
  simp only [steps_eq_ok, typedKey_eq_ok]
  rw [eq_comm (a := seen')]
  exact exists_typedKey_iff (P := fun text => text ∉ seen.keys ∧
    seen ++ [(text, itemLabel "owner_keys" item.2)] = seen')

/-- The owner's keys are registered after everything the nodes hold. -/
theorem ownerKeys_fresh_iff {owners : List Value}
    (hnodes : ∀ k ∈ (nodesOf m).flatMap identities, HexValue k)
    (hunique : ((nodesOf m).flatMap identities).Nodup)
    (htyped : ∀ e ∈ owners, ∃ key, TypedKey ownerKeyAlgs e key) :
    Fresh (((nodesOf m).flatMap identities).map goKey)
      (owners.map (fun e => textOf (field e "key"))) ↔ ((nodesOf m).flatMap identities ++
        (owners.map (fun e => textOf (field e "key"))).map SeenKey.value).Nodup := by
  have hall : ∀ k ∈ (nodesOf m).flatMap identities ++
      (owners.map (fun e => textOf (field e "key"))).map SeenKey.value, HexValue k := by
    intro k hk
    rcases mem_append.mp hk with hk | hk
    · exact hnodes k hk
    · rcases mem_map.mp hk with ⟨_, ht, rfl⟩
      rcases mem_map.mp ht with ⟨e, he, rfl⟩
      rcases htyped e he with ⟨key, hkey⟩
      exact hexValue_typedKey hkey
  have hmap : ((owners.map (fun e => textOf (field e "key"))).map SeenKey.value).map goKey =
      owners.map (fun e => textOf (field e "key")) := by
    rw [map_map]
    exact map_id _
  rw [← nodup_map_goKey hall, map_append, hmap, ← fresh_of_nil, fresh_append,
    nil_append, fresh_of_nil]
  exact ⟨fun h => ⟨(nodup_map_goKey hnodes).mpr hunique, h⟩, fun h => h.2⟩

theorem signerRules_eq_ok {seen : Seen} {most : Int}
    (hseen : seen.keys = ((nodesOf m).flatMap identities).map goKey)
    (hnodes : ∀ k ∈ (nodesOf m).flatMap identities, HexValue k)
    (hunique : ((nodesOf m).flatMap identities).Nodup)
    (hmost : field m "heartbeat_max_lifetime_s" = .num most) :
    signerRules m (nodesById m) seen = .ok u ↔ SignerFields m := by
  unfold signerRules
  have hlife : ∀ life : Option Int,
      (life.isSome = true ∧ (some most).isSome = true ∧ ¬ life.getD 0 < ownerHeartbeatMin ∧
        ¬ life.getD 0 > (some most).getD 0) ↔
      ∃ l, life = some l ∧ ownerHeartbeatMin ≤ l ∧ l ≤ most := by
    intro life
    cases life <;> simp
  have hasMost : asInteger (field m "heartbeat_max_lifetime_s") = some most := by
    rw [hmost]
    rfl
  simp only [steps_eq_ok, Option.filter_eq_some_iff, asList_eq_some,
    ownerLoop_eq_ok id (fun _ _ _ => ownerKey_eq_ok), map_id, show seen.map _ = _ from hseen,
    ruleLoops_eq_ok (f := signerRule (nodesById m)) signerRule_eq_ok, hasMost, short_iff, hlife,
    asInteger_eq_some]
  rw [← signerFields_iff hmost]
  constructor
  · rintro ⟨owners, hlist, _, ⟨htyped, hnew, _⟩, hrest⟩
    exact ⟨owners, hlist, htyped, (ownerKeys_fresh_iff hnodes hunique htyped).mp hnew, hrest⟩
  · rintro ⟨owners, hlist, htyped, hnew, hrest⟩
    exact ⟨owners, hlist, _, ⟨htyped, (ownerKeys_fresh_iff hnodes hunique htyped).mpr hnew, rfl⟩,
      hrest⟩

/-! ### The whole manifest -/

theorem checkLifetime_eq_ok :
    checkLifetime schema m = .ok u ↔ (schema.second = true →
      ∃ life, field m "heartbeat_max_lifetime_s" = .num life ∧ heartbeatMin ≤ life ∧
        life ≤ heartbeatHardMax) := by
  unfold checkLifetime
  rw [onlyIf_eq_ok]
  refine imp_congr_right (fun _ => ?_)
  simp only [steps_eq_ok, not_or, Int.not_lt]
  cases field m "heartbeat_max_lifetime_s" with
  | num n => simp [lifetime, asInteger]
  | bool b =>
    -- a bool is read as 0 or 1, and neither is in the range
    cases b
    · simp [lifetime, heartbeatMin]
    · simp [lifetime, heartbeatMin]
  | _ => simp [lifetime, asInteger]

theorem checkEpoch_eq_ok :
    checkEpoch m = .ok u ↔ ∃ e, field m "epoch" = .num e ∧ 1 ≤ e ∧
      (e = 1 → field m "prev_digest" = .str "") ∧ (e ≠ 1 → IsHex 64 (field m "prev_digest")) := by
  unfold checkEpoch
  have hsign : ∀ e : Int, (!decide (e.sign < 1)) = true ↔ 1 ≤ e := by
    intro e
    rw [Bool.not_eq_true', decide_eq_false_iff_not, Int.not_lt]
    constructor
    · intro h
      exact Int.sign_pos_iff.mp h
    · intro h
      exact Int.sign_pos_iff.mpr h
  simp only [steps_eq_ok, Option.filter_eq_some_iff, asInteger_eq_some, hsign]
  refine exists_congr (fun e => ?_)
  rw [and_assoc]
  refine and_congr_right (fun _ => and_congr_right (fun _ => ?_))
  by_cases he : e = 1
  · simp [he]
  · simp [he, hexField_eq_ok (show 64 % 2 = 0 from rfl)]

/-- A day beyond the month's end is carried into the next month, and shows as
    another day. -/
theorem normalDay_eq_iff (t : Civil) : normalDay t = t.day ↔ t.day ≤ daysIn t.year t.month := by
  unfold normalDay
  have hsome : 1 ≤ daysIn t.year t.month := by
    unfold daysIn
    split
    · split <;> decide
    all_goals decide
  split
  · tauto
  · omega

theorem issuedAt_iff : issuedAt v = true ↔
    ∃ s t, v = .str s ∧ parseTime s.toList = some t ∧ t.real = true ∧ 1 ≤ t.year := by
  have htime : ∀ t : Civil, (if t.month < 1 ∨ t.month > 12 ∨ t.day < 1 ∨ t.day > 31 ∨
      t.hour > 23 ∨ t.minute > 59 ∨ t.second > 59 then false
      else decide (normalDay t = t.day) && decide (t.year ≥ 1)) = true ↔
      t.real = true ∧ 1 ≤ t.year := by
    intro t
    have hlong : daysIn t.year t.month ≤ 31 := by
      unfold daysIn
      split
      · split <;> decide
      all_goals decide
    unfold Civil.real Civil.realDate
    simp only [Bool.and_eq_true, decide_eq_true_eq]
    split
    · simp only [Bool.false_eq_true, false_iff]
      omega
    · simp only [Bool.and_eq_true, decide_eq_true_eq, normalDay_eq_iff]
      omega
  unfold issuedAt
  cases v with
  | str s =>
    cases hparse : parseTime s.toList with
    | none => simp [asText, hparse]
    | some t => simpa [asText, hparse] using htime t
  | _ => simp [asText]

theorem checkRevocationKeys_eq_ok :
    checkRevocationKeys schema m = .ok u ↔ (schema ≠ .v4 → RevocationKeys schema m) := by
  unfold checkRevocationKeys
  rw [onlyIf_eq_ok]
  refine imp_congr_right (fun _ => ?_)
  have hentries : ∀ (entries : List Value) keys, entries.zipIdx.mapM (fun item =>
      revocationEntry item.1 (itemLabel "revocation_keys" item.2)) = .ok keys ↔
      List.Forall₂ KeyEntry entries keys := mapM_zipIdx_eq_ok (fun _ _ => revocationEntry_eq_ok)
  have hbare : ∀ entries : List Value,
      ¬ ((entries.any fun entry => (asText entry).isNone) = true ∧ schema ≠ .v3) ↔
      schema = .v3 ∨ ∀ e ∈ entries, ∃ s, e = .str s := by
    intro entries
    rw [not_and_or, not_ne_iff, or_comm, Bool.not_eq_true, any_eq_false]
    refine or_congr_right (forall_congr' (fun e => imp_congr_right (fun _ => ?_)))
    rw [Option.isNone_iff_eq_none, ← ne_eq, Option.ne_none_iff_exists']
    exact exists_congr (fun s => asText_eq_some)
  simp only [steps_eq_ok, asList_eq_some, hentries, hbare]
  have hdistinct : ∀ {entries : List Value} {keys : List (Algorithm × String)},
      List.Forall₂ KeyEntry entries keys →
      ((keys.map Prod.snd).dedup.length = entries.length ↔ (keys.map Prod.snd).Nodup) := by
    intro entries keys hkeys
    rw [← dedup_length_eq_iff, length_map, hkeys.length_eq]
  constructor
  · rintro ⟨entries, hlist, keys, hkeys, hcount, hbare⟩
    exact ⟨entries, keys, hlist, hkeys, (hdistinct hkeys).mp hcount, hbare⟩
  · rintro ⟨entries, keys, hlist, hkeys, hnodup, hbare⟩
    exact ⟨entries, hlist, keys, hkeys, (hdistinct hkeys).mpr hnodup, hbare⟩

/-- A manifest validates exactly when it is valid. -/
theorem validate_eq_ok {nodes : Nodes} :
    validate m = .ok nodes ↔ (∃ schema, Valid schema m) ∧ nodes = nodesById m := by
  unfold validate
  have hkeysNodup : ∀ schema, (manifestKeys schema).Nodup := by
    intro schema
    cases schema <;> decide
  simp only [steps_eq_ok, Schema.ofValue_eq_some, exact_eq_ok (hkeysNodup _), checkLifetime_eq_ok,
    checkEpoch_eq_ok, asText_any_eq_true, issuedAt_iff, checkRevocationKeys_eq_ok,
    Option.filter_eq_some_iff, asList_eq_some, decide_eq_true_eq,
    nodeLoop_eq_ok (f := validateNode _) (fun _ _ _ => validateNode_eq_ok), onlyIf_eq_ok]
  -- the map of strings has no repeats exactly when what it stands for has none
  have hhex : ∀ {schema}, (∀ node ∈ nodesOf m, NodeRule schema node) →
      ∀ k ∈ (nodesOf m).flatMap identities, HexValue k := by
    intro schema hrules k hk
    rcases mem_flatMap.mp hk with ⟨node, hnode, hk⟩
    exact hexValue_identities (hrules node hnode) k hk
  constructor
  · rintro ⟨_, schema, hschema, hexact, hlife, hepoch, hpolicy, hissued, hrevocation, list,
      ⟨hlist, hne⟩, found, ⟨hrules, ⟨hids, hunique⟩, rfl⟩, hsigners, rfl⟩
    have hnodes : nodesOf m = list := by rw [nodesOf, hlist]; rfl
    subst hnodes
    have hkeys := keys_flatMap_nodeUses (nodesOf m)
    unfold Seen.keys at hkeys
    rw [hkeys, nodup_map_goKey (hhex hrules)] at hunique
    refine ⟨⟨schema, hschema, hexact, hlife, hepoch, hpolicy, hissued, hrevocation, hlist,
      fun h => hne (by rw [h]; rfl), hrules, hids, hunique, ?_⟩, rfl⟩
    intro hfourth
    rcases hlife (by rw [hfourth]; rfl) with ⟨most, hmost, _⟩
    exact (signerRules_eq_ok (u := ()) (keys_flatMap_nodeUses _) (hhex hrules) hunique hmost).mp
      (hsigners hfourth)
  · rintro ⟨⟨schema, h⟩, rfl⟩
    have hunique : (Seen.keys ((nodesOf m).flatMap nodeUses)).Nodup := by
      rw [keys_flatMap_nodeUses, nodup_map_goKey (hhex h.nodeRules)]
      exact h.unique
    refine ⟨h.exact.1, schema, h.named, h.exact, h.lifetime, h.epoch, h.policy, h.issued,
      h.revocation, nodesOf m, ⟨h.nodes, fun hzero => h.nonempty (length_eq_zero_iff.mp hzero)⟩,
      _, ⟨h.nodeRules, ⟨h.ids, hunique⟩, rfl⟩, ?_, rfl⟩
    intro hfourth
    rcases h.lifetime (by rw [hfourth]; rfl) with ⟨most, hmost, _⟩
    exact (signerRules_eq_ok (keys_flatMap_nodeUses _) (hhex h.nodeRules) h.unique hmost).mpr
      (h.signers hfourth)

theorem validate_eq (h : Valid schema m) : validate m = .ok (nodesById m) :=
  validate_eq_ok.mpr ⟨⟨schema, h⟩, rfl⟩

end Go

end Regalia.Membership
