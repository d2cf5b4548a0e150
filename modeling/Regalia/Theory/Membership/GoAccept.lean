import Regalia.Theory.Membership.Comparing
import Regalia.Theory.Membership.GoRules

/-!
# What the Go Verifier Accepts

The second half of the account of the Go verifier: who signed an envelope,
what may follow the current manifest, and with both of them exactly which
manifest `Accept` returns.

The verifier compares two values by their canonical bytes. That is equality
for documents, whose objects name a field once and in order, so every
comparison below asks for two documents; `Ordered` is that condition.

## Theorems

* `verifyEnvelope_eq_ok`: The manifest in an envelope and its signer.
* `tombstones_eq_ok`, `restrictive_eq_ok`: The rules of a transition.
* `follow_eq_ok`: What may follow the current manifest.
* `accept_eq_ok`: What the verifier accepts is what the rules accept.
-/

namespace Regalia.Membership

open List

namespace Go

variable {current : Option Value} {crypto : Crypto} {m : Value} {u : Unit} {s t : Schema}
    {envelope root : Value} {message : List UInt8} {r : Value × Signer}

/-! ### One signature -/

theorem schema_eq_iff {schema : Schema} :
    field m "schema" = .str schema.text ↔ schemaOf m = some schema :=
  schemaOf_eq_some.symm

/-- The signing keys, taken where there is one, are those of the nodes that
    have one. -/
theorem signingKeys_eq (nodes : List Value) : (nodes.filterMap (fun node =>
    (node.get? "signing_key").map (fun signing =>
      ("signing_key of " ++ textOf (field node "node_id"), textOf (field signing "key"))))).map
      Prod.snd = (nodes.filter (hasField · "signing_key")).map
        (fun node => identityValue node "signing_key") := by
  induction nodes with
  | nil => rfl
  | cons node rest ih =>
    cases hget : node.get? "signing_key" with
    | none =>
      have hhas : hasField node "signing_key" = false := by rw [hasField, hget]; rfl
      rw [filterMap_cons_none (by rw [hget]; rfl), ih, filter_cons, hhas]
      rfl
    | some signing =>
      have hhas : hasField node "signing_key" = true := by rw [hasField, hget]; rfl
      have hfield : field node "signing_key" = signing := by rw [field, hget]; rfl
      rw [filterMap_cons_some (by rw [hget]; rfl), map_cons, ih, filter_cons,
        hhas, if_pos rfl, map_cons, identityValue, if_pos rfl, hfield]

theorem apartFromRoot_eq_ok {m root : Value} :
    apartFromRoot m root = .ok u ↔ ApartFromRoot root m := by
  unfold apartFromRoot ApartFromRoot
  rw [onlyIf_eq_ok, schema_eq_iff]
  refine imp_congr_right (fun _ => ?_)
  simp only [bind_eq_ok, rootEntries_eq_ok, forM_require_eq_ok]
  refine exists_congr (fun keys => and_congr_right (fun _ => ?_))
  -- the labelled keys are the party keys, each with the path it stands under
  have hkeys : ((itemsOf (field m "owner_keys")).zipIdx.map (fun item =>
        (itemLabel "owner_keys" item.2, textOf (field item.1 "key"))) ++
      (itemsOf (field m "nodes")).filterMap (fun node =>
        (node.get? "signing_key").map (fun signing =>
          ("signing_key of " ++ textOf (field node "node_id"),
            textOf (field signing "key"))))).map Prod.snd = partyKeys m := by
    rw [map_append, signingKeys_eq, map_map]
    unfold partyKeys ownerKeysOf
    rw [← map_zipIdx (fun e => textOf (field e "key"))]
    rfl
  rw [← hkeys]
  exact (forall_mem_map (P := fun k => k ∉ keys.map Prod.snd)).symm

variable {key : String}

/-- The first entry with a key, where every entry is well formed. -/
theorem revocationAlg_eq {keys : List (Algorithm × String)}
    (h : List.Forall₂ KeyEntry (itemsOf (field m "revocation_keys")) keys) :
    revocationAlg m key = (keys.find? (fun k => k.2 = key)).map Prod.fst := by
  unfold revocationAlg
  generalize itemsOf (field m "revocation_keys") = entries at h ⊢
  induction h with
  | nil => rfl
  | @cons e k es ks hd _ ih =>
    rw [findSome?_cons, revocationEntry_eq_ok.mpr hd]
    by_cases hk : k.2 = key
    · rw [find?_cons_of_pos (by simpa using hk)]
      simp [hk]
    · rw [find?_cons_of_neg (by simpa using hk), ← ih]
      simp [hk]

theorem revocationAlg_eq_some {schema : Schema} (h : Valid schema m)
    {alg : Algorithm} : revocationAlg m key = some alg ↔
      ∃ e ∈ itemsOf (field m "revocation_keys"), KeyEntry e (alg, key) := by
  rcases h.revocationKeys with ⟨keys, hkeys, hnodup⟩
  rw [revocationAlg_eq hkeys]
  exact revocationKey_iff hkeys hnodup

theorem signerKey_eq_ok {root : Value} (hheld : Held current) {signer : Value}
    (hsigner : signer = .str "root" ∨ signer = .str "revocation")
    {r : Signer × Algorithm} : signerKey root current signer key = .ok r ↔
      signer = .str r.1.text ∧ SoleKey root current r.1 (r.2, key) := by
  unfold signerKey
  rcases hsigner with rfl | rfl
  · rw [if_pos rfl]
    simp only [steps_eq_ok, rootEntries_eq_ok]
    exact rootSigner_iff
  · rw [if_neg (by decide), ← revocationSigner_iff]
    simp only [steps_eq_ok, Option.bind_eq_some_iff]
    refine exists_congr (fun alg => and_congr_left (fun _ => exists_congr (fun m =>
      and_congr_right (fun hm => ?_))))
    rcases (hheld m hm).2 with ⟨schema, hvalid⟩
    exact revocationAlg_eq_some hvalid

/-- The signature is written out once more to be read by `verifyTyped`, and
    what it reads is what stood in the document. -/
theorem verifySignature_iff {alg : Algorithm} {s : String} (hs : matchesHex 128 s = true) :
    verifySignature crypto alg key (hexBytes s) message = true ↔
      SignatureOver crypto alg key message (.str s) := by
  unfold verifySignature
  rw [isOk_eq_true_iff, hexText_hexBytes (n := 64) hs, String.ofList_toList]
  simp only [verifyTyped_eq_ok, exists_const]

theorem signedMessage_eq (m : Value) : signedMessage m = domain ++ Python.canonical m := by
  rw [signedMessage, go_canonical_eq]

theorem verifySingle_eq_ok (hheld : Held current) :
    verifySingle crypto envelope root current = .ok r ↔
      ∃ key, Single crypto root current envelope r.1 r.2 key := by
  unfold verifySingle
  have hsignerNames : ∀ v : Value, ¬ (v ≠ .str "root" ∧ v ≠ .str "revocation") ↔
      v = .str "root" ∨ v = .str "revocation" := by
    intro v
    tauto
  have htypedNames : ∀ (alg : Algorithm) (m : Value),
      ¬ (alg ≠ .ed25519 ∧ field m "schema" ≠ .str Schema.v3.text ∧
        field m "schema" ≠ .str Schema.v4.text) ↔
      alg = .ed25519 ∨ schemaOf m = some .v3 ∨ schemaOf m = some .v4 := by
    intro alg m
    rw [← schema_eq_iff, ← schema_eq_iff]
    tauto
  simp (disch := decide) only [steps_eq_ok, exact_eq_ok, hsignerNames, htypedNames,
    asText_filter_eq_some, hexField_eq_ok, apartFromRoot_eq_ok, signedMessage_eq]
  constructor
  · rintro ⟨hexact, hsignature, hsigner, key, ⟨hkey, hname⟩, ⟨s, hs, hhex⟩, named, hnamed, _,
      hvalid, hapart, htyped, hsigned, rfl⟩
    rcases (signerKey_eq_ok hheld hsigner).mp hnamed with ⟨htext, hsole⟩
    rw [hs] at hsigned
    exact ⟨(named.2, key), hexact, rfl, hsignature, htext, hkey, hname, hsole,
      (validate_eq_ok.mp hvalid).1, hapart, htyped, hs.symm ▸ (verifySignature_iff hhex).mp hsigned⟩
  · rintro ⟨key, h⟩
    rcases h.signed with ⟨s, hs, hhex, hverifies⟩
    have hnamed : signerKey root current (field (field envelope "signature") "signer") key.2 =
        .ok (r.2, key.1) := (signerKey_eq_ok hheld h.signer).mpr ⟨h.named, h.sole⟩
    rw [h.manifest]
    refine ⟨h.exact, h.signature, h.signer, key.2, ⟨h.hex, h.keyName⟩, ⟨s, hs, hhex⟩,
      (r.2, key.1), hnamed, nodesById _, validate_eq_ok.mpr ⟨h.valid, rfl⟩, h.apart, h.typed,
      ?_, rfl⟩
    rw [hs]
    exact (verifySignature_iff hhex).mpr ⟨s, rfl, hhex, hverifies⟩

/-! ### Quorums -/

theorem partyKey_eq_ok (hvalid : Valid .v4 m) {owners : List (String × Algorithm)}
    (howners : OwnerTable m owners) {party : String} {i : Nat} {alg : Algorithm} :
    partyKey (nodesById m) owners party key i = .ok alg ↔ PartyKey m party (alg, key) := by
  unfold partyKey PartyKey
  by_cases hparty : party = ownerParty
  · rw [if_pos hparty, if_pos hparty, demand_eq_ok, howners key alg]
  · rw [if_neg hparty, if_neg hparty]
    simp only [steps_eq_ok, Option.filter_eq_some_iff, Option.bind_eq_some_iff,
      nodesById_at_eq_some hvalid.ids, get?_eq_some, Algorithm.ofValue_eq_some]
    constructor
    · rintro ⟨signing, ⟨⟨node, ⟨hnode, hid⟩, hhas, rfl⟩, _⟩, hkey⟩
      exact ⟨node, hnode, hid, hhas, (signingKey_iff (hvalid.nodeRules node hnode) hhas).mpr hkey⟩
    · rintro ⟨node, hnode, hid, hhas, hkey⟩
      -- a signing key that was checked is an object
      exact ⟨field node "signing_key", ⟨⟨node, ⟨hnode, hid⟩, hhas, rfl⟩, hkey.exact.1⟩,
        (signingKey_iff (hvalid.nodeRules node hnode) hhas).mp hkey⟩

theorem countSignature_eq_ok (hvalid : Valid .v4 m) {owners : List (String × Algorithm)}
    (howners : OwnerTable m owners) {what : String} {found r : List String × List String}
    {item : Value × Nat} :
    countSignature crypto (nodesById m) owners message what found item = .ok r ↔
      SignedBy crypto m message item.1 (partyOf item.1) ∧ Fresh found.1 [partyOf item.1] ∧
      r = (found.1 ++ [partyOf item.1],
        found.2 ++ [partyOf item.1].filter (counting m)) := by
  unfold countSignature
  simp (disch := decide) only [steps_eq_ok, exact_eq_ok, asText_filter_eq_some, decide_eq_true_eq,
    partyKey_eq_ok hvalid howners, verifyTyped_eq_ok]
  exact signedBy_iff

theorem countingParties_eq_ok {schema : Schema} (hvalid : Valid schema m) {signatures : Value}
    {what : String} {r : List String} :
    countingParties crypto (some m) message signatures what = .ok r ↔
      schemaOf m = some .v4 ∧ ∃ parties, Signatures crypto m message signatures parties ∧
        r = parties.filter (counting m) := by
  unfold countingParties
  by_cases hfourth : schemaOf m = some .v4
  · obtain rfl := hvalid.fourth hfourth
    rcases (hvalid.signers rfl).ownerTable with ⟨keys, hkeys, hfind⟩
    have howners : (itemsOf (field m "owner_keys")).mapM (fun entry =>
        typedKey entry "owner_keys" ownerKeyAlgs) = .ok keys :=
      (mapM_eq_ok (TypedKey ownerKeyAlgs) _ (fun _ _ _ => typedKey_eq_ok) keys).mpr hkeys
    have hsome : (some m).filter (fun m => field m "schema" = .str Schema.v4.text) = some m := by
      simp [schema_eq_iff.mpr hfourth]
    rw [hsome]
    simp only [steps_eq_ok, Option.some.injEq, exists_eq_left', validate_eq hvalid, howners, asList_filter_eq_some, short_iff,
      signatureLoop_eq_ok (f := countSignature crypto (nodesById m) (keys.map Prod.swap) message what)
        (fun _ _ _ => countSignature_eq_ok hvalid hfind), hfourth, true_and]
    constructor
    · rintro ⟨list, ⟨rfl, hone, hmost⟩, found, ⟨parties, hsigned, hnodup, rfl⟩, rfl⟩
      exact ⟨parties, ⟨rfl, hone, hmost, hsigned, hnodup⟩, rfl⟩
    · rintro ⟨parties, h, rfl⟩
      exact ⟨itemsOf signatures, ⟨h.list, h.some, h.few⟩, _,
        ⟨parties, h.signed, h.distinct, rfl⟩, rfl⟩
  · have hnone : (some m).filter (fun m => field m "schema" = .str Schema.v4.text) = none := by
      simp [schema_eq_iff, hfourth]
    rw [hnone]
    simp [bind_eq_ok, hfourth]

/-- Counting a rule's parties among the signers is what the rule says, even
    if a signer were counted twice. -/
theorem meets_iff {ids : List String} {ownerAlone : Bool} {rule : Value} {named : List String}
    {t : Int} (h : SignerRule ids ownerAlone rule named t) {parties : List String} :
    meets rule parties = true ↔ Meets rule parties := by
  have hthreshold : asInteger (field rule "threshold") = some t := asInteger_eq_some.mpr h.number
  unfold meets
  rw [h.names.filterMap_asText, hthreshold, Option.any_some, decide_eq_true_eq,
    countP_eq_length_filter]
  exact h.meets_iff

theorem verifyQuorum_eq_ok (hheld : Held current) :
    verifyQuorum crypto envelope root current = .ok r ↔
      r.2 = .quorum ∧ ∃ manifest, current = some manifest ∧
        ∃ parties, Quorum crypto root manifest envelope r.1 parties := by
  unfold verifyQuorum
  cases current with
  | none => simp [countingParties, steps_eq_ok]
  | some m =>
    rcases (hheld m rfl).2 with ⟨schema, hvalid⟩
    simp (disch := decide) only [steps_eq_ok, exact_eq_ok, apartFromRoot_eq_ok,
      countingParties_eq_ok hvalid, Option.getD_some, signedMessage_eq]
    have hmeets : schemaOf m = some .v4 → ∀ parties : List String,
        ((∃ rule, (itemsOf (field m "revocation_signers")).find?
          (meets · (parties.filter (counting m))) = some rule) ↔
        ∃ rule ∈ itemsOf (field m "revocation_signers"),
          Meets rule (parties.filter (counting m))) := by
      intro hfourth parties
      obtain rfl := hvalid.fourth hfourth
      rw [← Option.isSome_iff_exists, find?_isSome]
      exact exists_rule_iff hvalid (fun h => meets_iff h)
    constructor
    · rintro ⟨hexact, _, hnodes, hapart, _, ⟨hfourth, parties, hsigned, rfl⟩, rule, hmet, rfl⟩
      refine ⟨rfl, m, rfl, parties, hexact, rfl, (validate_eq_ok.mp hnodes).1, hapart, hfourth,
        hsigned, (hmeets hfourth parties).mp ⟨rule, hmet⟩⟩
    · rintro ⟨hquorum, _, hm, parties, h⟩
      cases hm
      rw [h.manifest]
      rcases (hmeets h.fourth parties).mpr h.met with ⟨rule, hmet⟩
      exact ⟨h.exact, nodesById r.1, validate_eq_ok.mpr ⟨h.valid, rfl⟩, h.apart, _,
        ⟨h.fourth, parties, h.signed, rfl⟩, rule, hmet, Prod.ext rfl hquorum.symm⟩

theorem checkCurrent_eq_ok (hheld : Held current) : checkCurrent current = .ok () := by
  cases current with
  | none => rfl
  | some m =>
    rcases (hheld m rfl).2 with ⟨schema, hvalid⟩
    simp only [checkCurrent, validate_eq hvalid]
    rfl

/-- The manifest in an envelope and its signer. -/
theorem verifyEnvelope_eq_ok (hheld : Held current) :
    verifyEnvelope crypto envelope root current = .ok r ↔
      Envelope crypto root current envelope r.1 r.2 := by
  unfold verifyEnvelope Envelope
  simp only [steps_eq_ok, checkCurrent_eq_ok hheld, true_and]
  by_cases hquorum : hasField envelope "signatures" = true
  · rw [if_pos hquorum, if_pos hquorum, verifyQuorum_eq_ok hheld]
  · rw [if_neg hquorum, if_neg hquorum, verifySingle_eq_ok hheld]

/-! ### Transitions -/

section Transitions

variable {id : String} {node next current candidate : Value} {found : Option Value}
    {signer : Signer}

theorem sameKeys_iff {a b : Value} : sameKeys a b = true ↔ ∀ k, k ∈ a.keys ↔ k ∈ b.keys := by
  unfold sameKeys size
  have hsub := subset_and_dedup_length_iff (l := b.keys) (nodup_dedup a.keys)
  rw [Bool.and_eq_true, decide_eq_true_eq, all_eq_true, and_comm,
    eq_comm (a := a.keys.dedup.length)]
  simp only [hasField_iff]
  simp only [mem_dedup] at hsub
  rw [hsub]
  exact forall_congr' (fun k => Iff.comm)

/-- The comparison of two nodes' hardware, of documents. -/
theorem sameHardware_iff (hnode : node.Ordered) (hnext : next.Ordered) :
    (sameKeys next node = true ∧
      ∀ k ∈ hardwareKeys node, equal (field next k) (field node k) = true) ↔
      SameHardware node next := by
  unfold SameHardware
  rw [sameKeys_iff]
  refine and_congr_right (fun _ => forall_congr' (fun k => imp_congr_right (fun _ => ?_)))
  exact equal_iff (Ordered.field hnext k) (Ordered.field hnode k)

theorem tombstoneNew_eq_ok (hnode : node.Ordered)
    (hnext : ∀ next, found = some next → next.Ordered) :
    tombstoneNew id node found = .ok u ↔
      ∃ next, found = some next ∧ (terminal next = true → SameHardware node next) := by
  unfold tombstoneNew
  simp only [steps_eq_ok, onlyIf_eq_ok, forM_require_eq_ok]
  refine exists_congr (fun next => and_congr_right (fun hfound => imp_congr_right (fun _ => ?_)))
  exact sameHardware_iff hnode (hnext next hfound)

theorem tombstoneOld_eq_ok (hnode : node.Ordered)
    (hnext : ∀ next, found = some next → next.Ordered) :
    tombstoneOld id node found = .ok u ↔
      ∃ next, found = some next ∧ SameHardware node next ∧ (stateOf next = stateOf node ∨
        (stateOf node = some .retired ∧ stateOf next = some .revokedStolen)) := by
  unfold tombstoneOld
  simp only [steps_eq_ok, forM_require_eq_ok, ne_eq, ← or_iff_not_and_not]
  refine exists_congr (fun next => and_congr_right (fun hfound => ?_))
  rw [← sameHardware_iff hnode (hnext next hfound), and_assoc]

/-- A node of a document is one. -/
theorem ordered_node {m : Value} (hord : m.Ordered) (hnode : node ∈ nodesOf m) : node.Ordered :=
  Ordered.items (Ordered.field hord "nodes") hnode

variable (hcurrent : Valid s current) (hcandidate : Valid t candidate)

include hcurrent hcandidate

/-- As many nodes, and none of the old ones missing: the same nodes. -/
theorem sameIDs_iff : ((nodesById current).length = (nodesById candidate).length ∧
      ∀ id ∈ (nodesById current).ids, id ∈ (nodesById candidate).ids) ↔
      ∀ id, id ∈ (nodesOf current).map nodeId ↔ id ∈ (nodesOf candidate).map nodeId := by
  have hlength : ∀ m : Value, (nodesById m).length = ((nodesOf m).map nodeId).length := by
    intro m
    rw [nodesById, length_map, length_map]
  rw [hlength, hlength, nodesById_ids, nodesById_ids, and_comm, forall_congr' (fun _ => Iff.comm),
    ← subset_and_dedup_length_iff hcurrent.ids, (dedup_length_eq_iff _).mpr hcandidate.ids, eq_comm]

theorem schemaStep_eq_ok :
    schemaStep current candidate signer = .ok u ↔ SchemaStep current candidate signer := by
  unfold schemaStep
  have hindex : ∀ {schema m}, Valid schema m → schemaIndex (field m "schema") = schema.index := by
    intro schema m h
    have hof : Schema.ofValue (field m "schema") = some schema := h.schemaOf
    rw [schemaIndex, hof]
    rfl
  rw [← schemaStep_iff hcurrent hcandidate, onlyIf_eq_ok, hindex hcurrent, hindex hcandidate]
  simp only [steps_eq_ok, Int.not_le, Int.ofNat_lt, not_not]

variable (hord : current.Ordered) (hord' : candidate.Ordered)

include hord hord'

theorem tombstones_eq_ok : tombstones current candidate = .ok u ↔ Tombstones current candidate := by
  unfold tombstones Tombstones
  have hfound : ∀ id next, (nodesById candidate).at id = some next → next.Ordered := by
    intro id next h
    exact ordered_node hord' ((nodesById_at_eq_some hcandidate.ids id next).mp h).1
  simp only [bind_eq_ok, validate_eq hcurrent, validate_eq hcandidate, Except.ok.injEq,
    exists_eq_left']
  refine forM_map_eq_ok (g := nodeId) ?_
  intro node hnode
  have hself := (nodesById_at_eq_some hcurrent.ids _ node).mpr ⟨hnode, rfl⟩
  have hordered := ordered_node hord hnode
  simp only [hself, Option.getD_some]
  by_cases hterminal : terminal node = true
  · simp [tombstoneOld_eq_ok hordered (hfound _), nodesById_at_eq_some hcandidate.ids, and_assoc,
      hterminal]
  · simp [tombstoneNew_eq_ok hordered (hfound _), nodesById_at_eq_some hcandidate.ids, and_assoc,
      hterminal]

theorem restrictive_eq_ok :
    restrictive current candidate signer = .ok u ↔ Restrictive current candidate := by
  unfold restrictive
  have hfields : ∀ k, equal (field candidate k) (field current k) = true ↔
      field candidate k = field current k := fun k =>
    equal_iff (Ordered.field hord' k) (Ordered.field hord k)
  simp only [restrictive_iff, steps_eq_ok, forM_require_eq_ok, hfields, validate_eq hcurrent,
    validate_eq hcandidate, exists_eq_left']
  refine and_congr_right (fun _ => ?_)
  rw [← and_assoc, sameIDs_iff hcurrent hcandidate]
  refine and_congr_right (fun hids => ?_)
  -- one pass of the loop, for a node and the one it replaces
  refine forM_replaced_eq_ok (g := nodeId) hcurrent.ids hids ?_
  intro node hnode old hold hat
  have hself := (nodesById_at_eq_some hcandidate.ids _ node).mpr ⟨hnode, rfl⟩
  rw [← sameHardware_iff (ordered_node hord hold) (ordered_node hord' hnode)]
  simp only [hat, hself, Option.getD_some, steps_eq_ok, forM_require_eq_ok, and_assoc,
    all_eq_true, decide_eq_true_eq]
  refine and_congr_right (fun hkeys => ?_)
  rw [hardwareKeys_congr (sameKeys_iff.mp hkeys)]

theorem follow_eq_ok :
    follow current candidate signer = .ok m ↔ Follows (some current) candidate signer m := by
  unfold follow Follows
  rw [go_digest_eq, go_digest_eq]
  by_cases hepoch : epochOf candidate = epochOf current
  · simp only [if_pos hepoch]
    by_cases hdigest : Python.digest candidate = Python.digest current
    · simp [hdigest, eq_comm]
    · simp [hdigest, refuse]
  · simp only [if_neg hepoch, steps_eq_ok, schemaStep_eq_ok hcurrent hcandidate,
      tombstones_eq_ok hcurrent hcandidate hord hord', onlyIf_eq_ok,
      restrictive_eq_ok hcurrent hcandidate hord hord']
    exact next_iff

end Transitions

/-- What the verifier accepts is what the rules accept. -/
theorem accept_eq_ok {envelope root m : Value} (hheld : Held current) (hord : envelope.Ordered) :
    accept crypto current envelope root = .ok m ↔ Accepts crypto root current envelope m := by
  unfold accept Accepts
  simp only [bind_eq_ok, verifyEnvelope_eq_ok hheld, Prod.exists]
  refine exists_congr (fun candidate => exists_congr (fun signer =>
    and_congr_right (fun henvelope => ?_)))
  cases current with
  | none =>
    -- the first manifest: root-signed, epoch 1
    simp only [steps_eq_ok, Follows, not_or, not_not, and_assoc]
    exact and_congr_right (fun _ => and_congr_right (fun _ => eq_comm))
  | some current =>
    rcases hheld current rfl with ⟨hordered, s, hcurrent⟩
    rcases henvelope.valid with ⟨t, hvalid⟩
    exact follow_eq_ok hcurrent hvalid hordered (henvelope.ordered hord)

end Go

end Regalia.Membership
