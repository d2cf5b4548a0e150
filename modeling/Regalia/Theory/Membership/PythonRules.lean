import Regalia.Core.Membership.Python
import Regalia.Theory.Membership.Reading

/-!
# The Python Verifier Follows the Rules

Each function of the Python verifier, as the proposition it decides: it
succeeds exactly where the rules of `Rules` hold.

## Theorems

* `exact_eq_ok`, `hexField_eq_ok`, `typedKey_eq_ok`: Shapes and keys.
* `validateNode_eq_ok`: One pass of the loop over the nodes.
* `validate_eq_ok`: A manifest validates exactly when it is valid.
-/

namespace Regalia.Membership

open List

namespace Python

variable {label : String} {u : Unit} {seen seen' : Seen} {schema : Schema} {v : Value} {m : Value}

/-! ### Shapes and keys -/

theorem exact_eq_ok {keys : List String} : exact v keys label = .ok u ↔ Exact v keys := by
  unfold exact Exact
  simp only [steps_eq_ok]
  refine and_congr_right (fun _ => ?_)
  simp only [filter_eq_nil_iff, decide_eq_true_eq, not_not]
  exact ⟨fun h k => ⟨h.2 k, h.1 k⟩, fun h => ⟨fun k => (h k).mpr, fun k => (h k).mp⟩⟩

theorem hexField_eq_ok {n : Nat} : hexField v n label = .ok u ↔ IsHex n v := by
  unfold hexField IsHex
  rw [require_eq_ok, asText_any_eq_true]

theorem revocationEntry_eq_ok {k : Algorithm × String} :
    revocationEntry v label = .ok k ↔ KeyEntry v k := by
  unfold revocationEntry
  cases hv : asText v with
  | some bare =>
    rw [asText_eq_some.mp hv, keyEntry_str_iff]
    simp only [steps_eq_ok, hexField_eq_ok]
  | none =>
    have hne : ∀ s, v ≠ .str s := by
      rintro s rfl
      cases hv
    rw [keyEntry_iff_typed hne, ← typedEntry_iff]
    simp only [steps_eq_ok, exact_eq_ok, Algorithm.ofValue_eq_some, hexField_eq_ok]

theorem typedKey_eq_ok {algs : List Algorithm} {k : Algorithm × String} :
    typedKey v label algs = .ok k ↔ TypedKey algs v k := by
  unfold typedKey
  simp only [steps_eq_ok, exact_eq_ok, Algorithm.ofValue_eq_some]
  apply typedKey_iff
  · rw [if_pos (by decide), revocationEntry_eq_ok]
  · rw [if_neg (by decide)]
    simp only [steps_eq_ok, hexField_eq_ok]
    -- 64 digits are always 32 bytes, so the library's own check adds nothing
    refine and_congr_right ?_
    rintro ⟨s, hs, hhex⟩
    have hlength : (hexBytes (textOf (field v "key"))).length = 32 := by
      rw [hs]
      exact length_hexBytes hhex
    simp only [hlength, true_and]

theorem rootEntries_eq_ok {root : Value} {keys : List (Algorithm × String)} :
    rootEntries root label = .ok keys ↔ RootKeys root keys := by
  unfold rootEntries
  rw [← rootKeys_iff]
  simp only [steps_eq_ok,
    mapM_eq_ok KeyEntry ((asList root).getD [root]) (fun _ _ _ => revocationEntry_eq_ok)]

theorem verifyRevocation_eq_ok {crypto : Crypto} {alg : Algorithm} {key : String}
    {message : List UInt8} {sig : Value} {what : String} :
    verifyRevocation crypto alg key message sig what = .ok u ↔
      SignatureOver crypto alg key message sig := by
  unfold verifyRevocation
  rw [signatureOver_iff]
  simp only [steps_eq_ok, hexField_eq_ok]
  refine and_congr_right (fun _ => ?_)
  cases alg <;> simp only [steps_eq_ok, Verifies, and_assoc]

/-! ### Manifests -/

theorem sameSet_iff {a b : List String} : sameSet a b = true ↔ ∀ k, k ∈ a ↔ k ∈ b := by
  simp only [sameSet, Bool.and_eq_true, all_eq_true, decide_eq_true_eq]
  exact ⟨fun h k => ⟨h.1 k, h.2 k⟩, fun h => ⟨fun k => (h k).mp, fun k => (h k).mpr⟩⟩

theorem signerRule_eq_ok {byId : Nodes} {ownerAlone : Bool} :
    signerRule byId v label ownerAlone = .ok u ↔
      ∃ parties t, SignerRule byId.ids ownerAlone v parties t := by
  unfold signerRule
  simp only [steps_eq_ok, exact_eq_ok, Option.filter_eq_some_iff, names_eq_some, asInteger_eq_some, dedup_length_eq_iff, decide_eq_true_eq, forM_require_eq_ok]
  constructor
  · rintro ⟨hexact, parties, ⟨hnames, hne⟩, hdistinct, hknown, t, ht, hfloor, hmost⟩
    exact ⟨parties, t, hexact, hnames, hne, hdistinct, hknown, ht, hfloor, hmost⟩
  · rintro ⟨parties, t, h⟩
    exact ⟨h.exact, parties, ⟨h.names, h.nonempty⟩, h.distinct, h.known, t, h.number, h.floor,
      h.most⟩

theorem exact_nodeShape {node : Value} :
    Exact node (nodeShape schema node) ↔ NodeShape schema node := by
  unfold nodeShape NodeShape
  apply exact_find?_shape
  intro s _
  rw [Bool.and_eq_true, Bool.and_eq_true, sameSet_iff, Exact]
  exact ⟨fun ⟨⟨hobj, hterminal⟩, hkeys⟩ => ⟨hterminal, hobj, hkeys⟩,
    fun ⟨hterminal, hobj, hkeys⟩ => ⟨⟨hobj, hterminal⟩, hkeys⟩⟩

/-- What a node enters into `seen`. -/
def nodeUses (node : Value) : Seen :=
  (identityKeys node).map (fun k =>
    (.value (identityValue node k), k ++ " of " ++ nodeId node)) ++
    (serialsOf node).map (fun s => (.hsm s, nodeId node))

theorem nodeUses_keys (node : Value) : (nodeUses node).keys = identities node := by
  unfold nodeUses identities Seen.keys
  rw [map_append, map_map, map_map]
  rfl

theorem keys_flatMap_nodeUses (nodes : List Value) :
    Seen.keys (nodes.flatMap nodeUses) = nodes.flatMap identities := by
  unfold Seen.keys
  rw [map_flatMap]
  exact flatMap_congr (fun node _ => nodeUses_keys node)

theorem claimIdentity_eq_ok {node : Value} {id : String} {k : String} :
    claimIdentity node id seen k = .ok seen' ↔ .value (identityValue node k) ∉ seen.keys ∧
      seen' = seen ++ [(.value (identityValue node k), k ++ " of " ++ id)] := by
  unfold claimIdentity
  simp only [steps_eq_ok]
  exact and_congr_right (fun _ => eq_comm)

theorem claimSerial_eq_ok {id : String} {s : String} :
    claimSerial id seen s = .ok seen' ↔ .hsm s ∉ seen.keys ∧ seen' = seen ++ [(.hsm s, id)] := by
  unfold claimSerial
  simp only [steps_eq_ok]
  exact and_congr_right (fun _ => eq_comm)

/-- The two loops over what a node holds, together. -/
theorem claims_eq_ok {node : Value} :
    (∃ s, (identityKeys node).foldlM (claimIdentity node (nodeId node)) seen = .ok s ∧
      (serialsOf node).foldlM (claimSerial (nodeId node)) s = .ok seen') ↔
      Fresh seen.keys (nodeUses node).keys ∧ seen' = seen ++ nodeUses node :=
  foldlM_register_append
    (fun k => (SeenKey.value (identityValue node k), k ++ " of " ++ nodeId node))
    (fun serial => (SeenKey.hsm serial, nodeId node)) (fun _ _ _ => claimIdentity_eq_ok)
    (fun _ _ _ => claimSerial_eq_ok) _ _ _ _

theorem validateNode_eq_ok {found r : Nodes × Seen} {item : Value × Nat} :
    validateNode schema found item = .ok r ↔ NodeRule schema item.1 ∧
      (Fresh found.1.ids [nodeId item.1] ∧
        Fresh (found.2.map Prod.fst) ((nodeUses item.1).map Prod.fst)) ∧
      r = (found.1 ++ [(nodeId item.1, item.1)], found.2 ++ nodeUses item.1) := by
  unfold validateNode
  simp only [steps_eq_ok, exact_eq_ok, exact_nodeShape, Option.filter_eq_some_iff, asText_eq_some,
    names_eq_some, hexField_eq_ok, onlyIf_eq_ok, typedKey_eq_ok, all_eq_true, fresh_singleton]
  constructor
  · rintro ⟨hshape, id, ⟨hid, hname⟩, howner, hnew, hstate, hek, hak, hboot, hservice, hssh,
      hsigning, serials, ⟨hserials, hserialNames⟩, seen, hseen, seen', hseen', rfl⟩
    have hidText : nodeId item.1 = id := by rw [nodeId, hid]; rfl
    have hserialsOf : serialsOf item.1 = serials := hserials.texts
    subst hidText hserialsOf
    rcases claims_eq_ok.mp ⟨seen, hseen, hseen'⟩ with ⟨hfresh, rfl⟩
    exact ⟨⟨hshape, hid, hname, howner, hstate, hek, hak, hboot, hservice, hssh,
      fun h => (hsigning h).imp (fun _ hk => hk.1), hserials, hserialNames⟩, ⟨hnew, hfresh⟩, rfl⟩
  · rintro ⟨h, ⟨hnew, hfresh⟩, rfl⟩
    rcases claims_eq_ok.mpr ⟨hfresh, rfl⟩ with ⟨seen, hseen, hseen'⟩
    exact ⟨h.shape, nodeId item.1, ⟨h.id, h.idName⟩, h.idOwner, hnew, h.state, h.ek, h.ak,
      h.wgBoot, h.wgService, h.sshHost, fun hs => (h.signing hs).imp (fun _ hk => ⟨hk, trivial⟩),
      serialsOf item.1, ⟨h.serials, h.serialNames⟩, seen, hseen, _, hseen', rfl⟩

theorem ownerKey_eq_ok {item : Value × Nat} :
    ownerKey seen item = .ok seen' ↔ (∃ key, TypedKey ownerKeyAlgs item.1 key) ∧
      .value (textOf (field item.1 "key")) ∉ seen.keys ∧
      seen' = seen ++ [(.value (textOf (field item.1 "key")), itemLabel "owner_keys" item.2)] := by
  unfold ownerKey
  simp only [steps_eq_ok, typedKey_eq_ok]
  rw [eq_comm (a := seen')]
  exact exists_typedKey_iff (P := fun text => SeenKey.value text ∉ seen.keys ∧
    seen ++ [(SeenKey.value text, itemLabel "owner_keys" item.2)] = seen')

theorem signerRules_eq_ok {seen : Seen} {most : Int}
    (hseen : seen.keys = (nodesOf m).flatMap identities) (hunique : seen.keys.Nodup)
    (hmost : field m "heartbeat_max_lifetime_s" = .num most) :
    signerRules m (nodesById m) seen = .ok u ↔ SignerFields m := by
  unfold signerRules
  have hlife : ∀ life : Option Int, (life.any (fun life =>
      ownerHeartbeatMin ≤ life && life ≤ most)) = true ↔
      ∃ l, life = some l ∧ ownerHeartbeatMin ≤ l ∧ l ≤ most := by
    intro life
    cases life <;> simp
  have hasInt : asInt (field m "heartbeat_max_lifetime_s") = some most := by
    rw [hmost]
    rfl
  simp only [steps_eq_ok, asList_eq_some,
    ownerLoop_eq_ok SeenKey.value (fun _ _ _ => ownerKey_eq_ok),
    ruleLoops_eq_ok (f := signerRule (nodesById m)) signerRule_eq_ok, hasInt, Option.getD_some,
    hlife, asInteger_eq_some]
  have hfresh : ∀ keys : List SeenKey,
      Fresh seen.keys keys ↔ ((nodesOf m).flatMap identities ++ keys).Nodup := by
    intro keys
    rw [← hseen, ← fresh_of_nil, fresh_append, nil_append, fresh_of_nil]
    exact ⟨fun h => ⟨hunique, h⟩, fun h => h.2⟩
  rw [← signerFields_iff hmost]
  constructor
  · rintro ⟨owners, hlist, hbounds, _, ⟨htyped, hnew, _⟩, hlife, hsingle, rules, hrules, hfew,
      hrule⟩
    exact ⟨owners, ⟨hlist, hbounds⟩, htyped, (hfresh _).mp hnew, hlife, hsingle, rules,
      ⟨hrules, hfew⟩, hrule⟩
  · rintro ⟨owners, ⟨hlist, hbounds⟩, htyped, hnew, hlife, hsingle, rules, ⟨hrules, hfew⟩, hrule⟩
    exact ⟨owners, hlist, hbounds, _, ⟨htyped, (hfresh _).mpr hnew, rfl⟩, hlife, hsingle, rules,
      hrules, hfew, hrule⟩

/-! ### The whole manifest -/

theorem checkLifetime_eq_ok :
    checkLifetime schema m = .ok u ↔ (schema.second = true →
      ∃ life, field m "heartbeat_max_lifetime_s" = .num life ∧ heartbeatMin ≤ life ∧
        life ≤ heartbeatHardMax) := by
  unfold checkLifetime
  rw [onlyIf_eq_ok]
  refine imp_congr_right (fun _ => ?_)
  rw [require_eq_ok]
  cases field m "heartbeat_max_lifetime_s" with
  | num n => simp [asInt]
  | bool b =>
    -- a bool passes the type test, but neither of its values is in the range
    cases b
    · simp [asInt, heartbeatMin]
    · simp [asInt, heartbeatMin]
  | _ => simp [asInt]

theorem checkEpoch_eq_ok :
    checkEpoch m = .ok u ↔ ∃ e, field m "epoch" = .num e ∧ 1 ≤ e ∧
      (e = 1 → field m "prev_digest" = .str "") ∧ (e ≠ 1 → IsHex 64 (field m "prev_digest")) := by
  unfold checkEpoch
  simp only [steps_eq_ok, Option.filter_eq_some_iff, asInteger_eq_some, decide_eq_true_eq]
  refine exists_congr (fun e => ?_)
  rw [and_assoc]
  refine and_congr_right (fun _ => and_congr_right (fun _ => ?_))
  by_cases he : e = 1
  · simp [he]
  · simp [he, hexField_eq_ok]

theorem issuedAt_iff : issuedAt v = true ↔
    ∃ s t, v = .str s ∧ parseTime s.toList = some t ∧ t.real = true ∧ 1 ≤ t.year := by
  unfold issuedAt
  cases v with
  | str s =>
    cases htime : parseTime s.toList with
    | none => simp [asText, htime]
    | some t => simp [asText, htime]
  | _ => simp [asText]

theorem checkRevocationKeys_eq_ok :
    checkRevocationKeys schema m = .ok u ↔ (schema ≠ .v4 → RevocationKeys schema m) := by
  unfold checkRevocationKeys
  rw [onlyIf_eq_ok]
  refine imp_congr_right (fun _ => ?_)
  have hentries : ∀ (entries : List Value) keys, entries.zipIdx.mapM (fun item =>
      revocationEntry item.1 (itemLabel "revocation_keys" item.2)) = .ok keys ↔
      List.Forall₂ KeyEntry entries keys := mapM_zipIdx_eq_ok (fun _ _ => revocationEntry_eq_ok)
  have hbare : ∀ entries : List Value, (entries.all fun k => (asText k).isSome) = true ↔
      ∀ e ∈ entries, ∃ s, e = .str s := by
    intro entries
    rw [all_eq_true]
    refine forall_congr' (fun e => imp_congr_right (fun _ => ?_))
    rw [Option.isSome_iff_exists]
    exact exists_congr (fun s => asText_eq_some)
  have hdistinct : ∀ keys : List (Algorithm × String),
      (keys.map Prod.snd).dedup.length = keys.length ↔ (keys.map Prod.snd).Nodup := by
    intro keys
    rw [← dedup_length_eq_iff, length_map]
  simp only [steps_eq_ok, asList_eq_some, hentries, hdistinct, hbare]
  constructor
  · rintro ⟨entries, hlist, keys, hkeys, hnodup, hbare⟩
    exact ⟨entries, keys, hlist, hkeys, hnodup, hbare⟩
  · rintro ⟨entries, keys, hlist, hkeys, hnodup, hbare⟩
    exact ⟨entries, hlist, keys, hkeys, hnodup, hbare⟩

/-- A manifest validates exactly when it is valid. -/
theorem validate_eq_ok {nodes : Nodes} :
    validate m = .ok nodes ↔ (∃ schema, Valid schema m) ∧ nodes = nodesById m := by
  unfold validate
  simp only [steps_eq_ok, Schema.ofValue_eq_some, exact_eq_ok, checkLifetime_eq_ok,
    checkEpoch_eq_ok, asText_any_eq_true, issuedAt_iff, checkRevocationKeys_eq_ok,
    Option.filter_eq_some_iff, asList_eq_some, decide_eq_true_eq,
    nodeLoop_eq_ok (f := validateNode _) (fun _ _ _ => validateNode_eq_ok), onlyIf_eq_ok]
  constructor
  · rintro ⟨_, schema, hschema, hexact, hlife, hepoch, hpolicy, hissued, hrevocation, list,
      ⟨hlist, hne⟩, found, ⟨hrules, ⟨hids, hunique⟩, rfl⟩, hsigners, rfl⟩
    have hnodes : nodesOf m = list := by rw [nodesOf, hlist]; rfl
    subst hnodes
    have hkeys := keys_flatMap_nodeUses (nodesOf m)
    unfold Seen.keys at hkeys
    rw [hkeys] at hunique
    refine ⟨⟨schema, hschema, hexact, hlife, hepoch, hpolicy, hissued, hrevocation, hlist, hne,
      hrules, hids, hunique, ?_⟩, rfl⟩
    intro hfourth
    rcases hlife (by rw [hfourth]; rfl) with ⟨most, hmost, _⟩
    refine (signerRules_eq_ok (u := ()) ?_ ?_ hmost).mp (hsigners hfourth)
    · exact keys_flatMap_nodeUses _
    · rw [keys_flatMap_nodeUses]
      exact hunique
  · rintro ⟨⟨schema, h⟩, rfl⟩
    have hunique : (Seen.keys ((nodesOf m).flatMap nodeUses)).Nodup := by
      rw [keys_flatMap_nodeUses]
      exact h.unique
    refine ⟨h.exact.1, schema, h.named, h.exact, h.lifetime, h.epoch, h.policy, h.issued,
      h.revocation, nodesOf m, ⟨h.nodes, h.nonempty⟩, _,
      ⟨h.nodeRules, ⟨h.ids, hunique⟩, rfl⟩, ?_, rfl⟩
    intro hfourth
    rcases h.lifetime (by rw [hfourth]; rfl) with ⟨most, hmost, _⟩
    exact (signerRules_eq_ok (keys_flatMap_nodeUses _) hunique hmost).mpr (h.signers hfourth)

theorem validate_eq (h : Valid schema m) : validate m = .ok (nodesById m) :=
  validate_eq_ok.mpr ⟨⟨schema, h⟩, rfl⟩

end Python

end Regalia.Membership
