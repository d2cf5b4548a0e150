import Regalia.Theory.Membership.Comparing
import Regalia.Theory.Membership.PythonRules

/-!
# What the Python Verifier Accepts

The second half of the account of the Python verifier: who signed an
envelope, what may follow the current manifest, and with both of them exactly
which manifest `accept` returns.

## Theorems

* `verifyEnvelope_eq_ok`: The manifest in an envelope and its signer.
* `tombstones_eq_ok`, `restrictive_eq_ok`: The rules of a transition.
* `transition_eq_ok`: What may follow the current manifest.
* `accept_eq_ok`: What the verifier accepts is what the rules accept.
-/

namespace Regalia.Membership

open List

namespace Python

variable {current : Option Value} {crypto : Crypto} {m : Value} {envelope root : Value}
    {signer : Signer} {u : Unit} {r : Value × Signer} {s t : Schema}

/-! ### One signature -/

theorem apartFromRoot_eq_ok {m root : Value} :
    apartFromRoot m root = .ok u ↔ ApartFromRoot root m := by
  unfold apartFromRoot ApartFromRoot
  rw [onlyIf_eq_ok]
  refine imp_congr_right (fun _ => ?_)
  simp only [bind_eq_ok, rootEntries_eq_ok, forM_require_eq_ok]
  refine exists_congr (fun keys => and_congr_right (fun _ => ?_))
  -- the labelled keys are the party keys, each with the path it stands under
  have hkeys : ((itemsOf (field m "owner_keys")).zipIdx.map (fun item =>
        (itemLabel "owner_keys" item.2, textOf (field item.1 "key"))) ++
      ((itemsOf (field m "nodes")).filter (hasField · "signing_key")).map (fun node =>
        ("signing_key of " ++ textOf (field node "node_id"),
          identityValue node "signing_key"))).map Prod.snd = partyKeys m := by
    rw [map_append, map_map, map_map]
    unfold partyKeys ownerKeysOf
    rw [← map_zipIdx (fun e => textOf (field e "key"))]
    rfl
  rw [← hkeys]
  exact (forall_mem_map (P := fun k => k ∉ keys.map Prod.snd)).symm

theorem revocationAlgOf_eq {key : String} {entries : List Value}
    {keys : List (Algorithm × String)} (h : List.Forall₂ KeyEntry entries keys) :
    revocationAlgOf key entries = .ok ((keys.find? (fun k => k.2 = key)).map Prod.fst) := by
  induction h with
  | nil => rfl
  | @cons e k es ks hd _ ih =>
    rw [revocationAlgOf, revocationEntry_eq_ok.mpr hd]
    change (if k.2 = key then (pure (some k.1) : Check (Option Algorithm))
      else revocationAlgOf key es) = _
    by_cases hk : k.2 = key
    · rw [if_pos hk, find?_cons_of_pos (by simpa using hk)]
      rfl
    · rw [if_neg hk, find?_cons_of_neg (by simpa using hk), ih]

theorem revocationAlg_eq_ok {schema : Schema} (h : Valid schema m) {key : String}
    {alg : Algorithm} : revocationAlg m key = .ok (some alg) ↔
      ∃ e ∈ itemsOf (field m "revocation_keys"), KeyEntry e (alg, key) := by
  rcases h.revocationKeys with ⟨keys, hkeys, hnodup⟩
  rw [revocationAlg, revocationAlgOf_eq hkeys, Except.ok.injEq]
  exact revocationKey_iff hkeys hnodup

theorem signerKey_eq_ok {root : Value} (hheld : Held current) {signer : Value}
    (hsigner : signer = .str "root" ∨ signer = .str "revocation") {key : String}
    {r : Signer × Algorithm} : signerKey root current signer key = .ok r ↔
      signer = .str r.1.text ∧ SoleKey root current r.1 (r.2, key) := by
  unfold signerKey
  rcases hsigner with rfl | rfl
  · rw [if_pos rfl]
    simp only [steps_eq_ok, rootEntries_eq_ok]
    exact rootSigner_iff
  · rw [if_neg (by decide), ← revocationSigner_iff]
    simp only [steps_eq_ok]
    constructor
    · rintro ⟨named, hnamed, alg, rfl, hr⟩
      cases current with
      | none => cases hnamed
      | some m =>
        rcases (hheld m rfl).2 with ⟨schema, hvalid⟩
        exact ⟨alg, ⟨m, rfl, (revocationAlg_eq_ok hvalid).mp hnamed⟩, hr⟩
    · rintro ⟨alg, ⟨m, rfl, hentry⟩, hr⟩
      rcases (hheld m rfl).2 with ⟨schema, hvalid⟩
      exact ⟨some alg, (revocationAlg_eq_ok hvalid).mpr hentry, alg, rfl, hr⟩

theorem verifySingle_eq_ok (hheld : Held current) :
    verifySingle crypto envelope root current = .ok r ↔
      ∃ key, Single crypto root current envelope r.1 r.2 key := by
  unfold verifySingle
  simp only [steps_eq_ok, exact_eq_ok, asText_filter_eq_some, hexField_eq_ok, apartFromRoot_eq_ok,
    isOk_eq_true_iff, verifyRevocation_eq_ok]
  constructor
  · rintro ⟨hexact, hsignature, hsigner, key, ⟨hkey, hname⟩, _, named, hnamed, _, hvalid, hapart,
      htyped, hsigned, rfl⟩
    rcases (signerKey_eq_ok hheld hsigner).mp hnamed with ⟨htext, hsole⟩
    exact ⟨(named.2, key), hexact, rfl, hsignature, htext, hkey, hname, hsole,
      (validate_eq_ok.mp hvalid).1, hapart, htyped, hsigned⟩
  · rintro ⟨key, h⟩
    rcases h.signed with ⟨s, hs, hhex, _⟩
    have hnamed : signerKey root current (field (field envelope "signature") "signer") key.2 =
        .ok (r.2, key.1) := (signerKey_eq_ok hheld h.signer).mpr ⟨h.named, h.sole⟩
    rw [h.manifest]
    refine ⟨h.exact, h.signature, h.signer, key.2, ⟨h.hex, h.keyName⟩, ⟨s, hs, hhex⟩,
      (r.2, key.1), hnamed, nodesById _, validate_eq_ok.mpr ⟨h.valid, rfl⟩, h.apart, h.typed,
      h.signed, rfl⟩

/-! ### Quorums -/

/-- The owner's keys of a v4 manifest, by their hex. -/
theorem ownerKeys_eq_ok (h : SignerFields m) :
    ∃ owners, ownerKeys m = .ok owners ∧ OwnerTable m owners := by
  rcases h.ownerTable with ⟨keys, hkeys, htable⟩
  refine ⟨keys.map Prod.swap, ?_, htable⟩
  unfold ownerKeys
  rw [bind_eq_ok]
  exact ⟨keys, (mapM_eq_ok (TypedKey ownerKeyAlgs) _ (fun _ _ _ => typedKey_eq_ok) keys).mpr hkeys,
    rfl⟩

theorem partyKey_eq_ok (hvalid : Valid .v4 m) {owners : List (String × Algorithm)}
    (howners : OwnerTable m owners) {party key : String} {i : Nat} {alg : Algorithm} :
    partyKey (nodesById m) owners party key i = .ok alg ↔ PartyKey m party (alg, key) := by
  unfold partyKey PartyKey
  by_cases hparty : party = ownerParty
  · rw [if_pos hparty, if_pos hparty, demand_eq_ok, howners key alg]
  · rw [if_neg hparty, if_neg hparty]
    simp only [steps_eq_ok, Option.filter_eq_some_iff, nodesById_at_eq_some hvalid.ids,
      Algorithm.ofValue_eq_some]
    refine exists_congr (fun node => ?_)
    constructor
    · rintro ⟨⟨⟨hnode, hid⟩, hhas⟩, hkey⟩
      exact ⟨hnode, hid, hhas, (signingKey_iff (hvalid.nodeRules node hnode) hhas).mpr hkey⟩
    · rintro ⟨hnode, hid, hhas, hkey⟩
      exact ⟨⟨⟨hnode, hid⟩, hhas⟩, (signingKey_iff (hvalid.nodeRules node hnode) hhas).mp hkey⟩

theorem countSignature_eq_ok (hvalid : Valid .v4 m) {owners : List (String × Algorithm)}
    (howners : OwnerTable m owners) {message : List UInt8} {what : String}
    {found r : List String × List String} {item : Value × Nat} :
    countSignature crypto (nodesById m) owners message what found item = .ok r ↔
      SignedBy crypto m message item.1 (partyOf item.1) ∧ Fresh found.1 [partyOf item.1] ∧
      r = (found.1 ++ [partyOf item.1],
        found.2 ++ [partyOf item.1].filter (counting m)) := by
  unfold countSignature
  simp only [steps_eq_ok, exact_eq_ok, asText_filter_eq_some, decide_eq_true_eq,
    partyKey_eq_ok hvalid howners, verifyRevocation_eq_ok]
  exact signedBy_iff

theorem countingParties_eq_ok {schema : Schema} (hvalid : Valid schema m) {message : List UInt8}
    {signatures : Value} {what : String} {r : List String} :
    countingParties crypto (some m) message signatures what = .ok r ↔
      schemaOf m = some .v4 ∧ ∃ parties, Signatures crypto m message signatures parties ∧
        r = parties.filter (counting m) := by
  unfold countingParties
  by_cases hfourth : schemaOf m = some .v4
  · obtain rfl := hvalid.fourth hfourth
    rcases ownerKeys_eq_ok (hvalid.signers rfl) with ⟨owners, howners, hfind⟩
    have hsome : (some m).filter (fun m => schemaOf m = some .v4) = some m := by
      simp [hfourth]
    rw [hsome]
    simp only [steps_eq_ok, Option.some.injEq, exists_eq_left', validate_eq hvalid, howners, asList_filter_eq_some,
      signatureLoop_eq_ok (f := countSignature crypto (nodesById m) owners message what)
        (fun _ _ _ => countSignature_eq_ok hvalid hfind), hfourth, true_and, Bool.and_eq_true,
      decide_eq_true_eq]
    constructor
    · rintro ⟨list, ⟨rfl, hone, hmost⟩, found, ⟨parties, hsigned, hnodup, rfl⟩, rfl⟩
      exact ⟨parties, ⟨rfl, hone, hmost, hsigned, hnodup⟩, rfl⟩
    · rintro ⟨parties, h, rfl⟩
      exact ⟨itemsOf signatures, ⟨h.list, h.some, h.few⟩, _,
        ⟨parties, h.signed, h.distinct, rfl⟩, rfl⟩
  · have hnone : (some m).filter (fun m => schemaOf m = some .v4) = none := by
      simp [hfourth]
    rw [hnone]
    simp [bind_eq_ok, hfourth]

theorem meets_iff {ids : List String} {ownerAlone : Bool} {rule : Value} {named : List String}
    {t : Int} (h : SignerRule ids ownerAlone rule named t) {parties : List String}
    (hparties : parties.Nodup) : meets rule parties = true ↔ Meets rule parties := by
  have hthreshold : asInteger (field rule "threshold") = some t := asInteger_eq_some.mpr h.number
  unfold meets
  rw [h.names.texts, hthreshold, Option.getD_some, decide_eq_true_eq,
    dedup_eq_self.mpr (hparties.filter _), length_filter_mem_comm hparties h.distinct]
  exact h.meets_iff

theorem verifyQuorum_eq_ok (hheld : Held current) :
    verifyQuorum crypto envelope root current = .ok r ↔
      r.2 = .quorum ∧ ∃ manifest, current = some manifest ∧
        ∃ parties, Quorum crypto root manifest envelope r.1 parties := by
  unfold verifyQuorum
  cases current with
  | none => simp [countingParties, steps_eq_ok]
  | some m =>
    rcases (hheld m rfl).2 with ⟨schema, hvalid⟩
    simp only [steps_eq_ok, exact_eq_ok, apartFromRoot_eq_ok, countingParties_eq_ok hvalid, Option.getD_some, any_eq_true]
    have hmeets : schemaOf m = some .v4 → ∀ parties : List String, parties.Nodup →
        ((∃ rule ∈ itemsOf (field m "revocation_signers"),
          meets rule (parties.filter (counting m)) = true) ↔
        ∃ rule ∈ itemsOf (field m "revocation_signers"),
          Meets rule (parties.filter (counting m))) := by
      intro hfourth parties hparties
      obtain rfl := hvalid.fourth hfourth
      exact exists_rule_iff hvalid (fun h => meets_iff h (hparties.filter _))
    constructor
    · rintro ⟨hexact, _, hnodes, hapart, _, ⟨hfourth, parties, hsigned, rfl⟩, hmet, rfl⟩
      refine ⟨rfl, m, rfl, parties, hexact, rfl, (validate_eq_ok.mp hnodes).1, hapart, hfourth,
        hsigned, (hmeets hfourth parties hsigned.distinct).mp hmet⟩
    · rintro ⟨hquorum, _, hm, parties, h⟩
      cases hm
      rw [h.manifest]
      exact ⟨h.exact, nodesById r.1, validate_eq_ok.mpr ⟨h.valid, rfl⟩, h.apart, _,
        ⟨h.fourth, parties, h.signed, rfl⟩,
        (hmeets h.fourth parties h.signed.distinct).mpr h.met, Prod.ext rfl hquorum.symm⟩

/-- The manifest in an envelope and its signer. -/
theorem verifyEnvelope_eq_ok (hheld : Held current) :
    verifyEnvelope crypto envelope root current = .ok r ↔
      Envelope crypto root current envelope r.1 r.2 := by
  unfold verifyEnvelope Envelope
  by_cases hquorum : hasField envelope "signatures" = true
  · rw [if_pos hquorum, if_pos hquorum, verifyQuorum_eq_ok hheld]
  · rw [if_neg hquorum, if_neg hquorum, verifySingle_eq_ok hheld]

/-! ### Transitions -/

section Transitions

variable {nid : String} {node next current candidate : Value} {found : Option Value}

/-- The comparison of two nodes' hardware, of plain nodes. -/
theorem sameHardware_iff (hnode : Plain node) (hnext : Plain next) :
    (sameSet next.keys node.keys = true ∧
      ∀ k ∈ hardwareKeys node, equals (field next k) (field node k) = true) ↔
      SameHardware node next := by
  unfold SameHardware
  rw [sameSet_iff]
  refine and_congr_right (fun _ => forall_congr' (fun k => imp_congr_right (fun _ => ?_)))
  exact equals_iff (hnext.field k) (hnode.field k)

theorem tombstoneNew_eq_ok (hnode : Plain node) (hnext : ∀ next, found = some next → Plain next) :
    tombstoneNew nid node found = .ok u ↔
      ∃ next, found = some next ∧ (terminal next = true → SameHardware node next) := by
  unfold tombstoneNew
  simp only [steps_eq_ok, onlyIf_eq_ok, forM_require_eq_ok]
  refine exists_congr (fun next => and_congr_right (fun hfound => imp_congr_right (fun _ => ?_)))
  exact sameHardware_iff hnode (hnext next hfound)

theorem tombstoneOld_eq_ok (hnode : Plain node) (hnext : ∀ next, found = some next → Plain next) :
    tombstoneOld nid node found = .ok u ↔
      ∃ next, found = some next ∧ SameHardware node next ∧ (stateOf next = stateOf node ∨
        (stateOf node = some .retired ∧ stateOf next = some .revokedStolen)) := by
  unfold tombstoneOld
  simp only [steps_eq_ok, forM_require_eq_ok]
  refine exists_congr (fun next => and_congr_right (fun hfound => ?_))
  rw [← sameHardware_iff hnode (hnext next hfound), and_assoc]

variable (hcurrent : Valid s current) (hcandidate : Valid t candidate)

include hcurrent hcandidate

theorem schemaStep_eq_ok :
    schemaStep current candidate signer = .ok u ↔ SchemaStep current candidate signer := by
  unfold schemaStep
  rw [← schemaStep_iff hcurrent hcandidate, onlyIf_eq_ok, hcurrent.schemaOf, hcandidate.schemaOf]
  simp only [steps_eq_ok, Option.map_some, Option.getD_some]

variable (hord : current.Ordered) (hord' : candidate.Ordered)

include hord hord'

theorem tombstones_eq_ok : tombstones current candidate = .ok u ↔ Tombstones current candidate := by
  unfold tombstones Tombstones
  have hfound : ∀ id next, (nodesById candidate).at id = some next → Plain next := by
    intro id next h
    exact Valid.plain_node hcandidate hord' ((nodesById_at_eq_some hcandidate.ids id next).mp h).1
  simp only [bind_eq_ok, validate_eq hcurrent, validate_eq hcandidate, Except.ok.injEq,
    exists_eq_left']
  apply forM_map_eq_ok
  intro node hnode
  have hplain := Valid.plain_node hcurrent hord hnode
  by_cases hterminal : terminal node = true
  · rw [if_pos hterminal, tombstoneOld_eq_ok hplain (hfound _)]
    simp [nodesById_at_eq_some hcandidate.ids, and_assoc, hterminal]
  · rw [if_neg hterminal, tombstoneNew_eq_ok hplain (hfound _)]
    simp [nodesById_at_eq_some hcandidate.ids, and_assoc, hterminal]

theorem restrictive_eq_ok :
    restrictive current candidate signer = .ok u ↔ Restrictive current candidate := by
  unfold restrictive
  have hfields : ∀ k, equals (field candidate k) (field current k) = true ↔
      field candidate k = field current k := fun k =>
    equals_iff ((hcandidate.plain hord').field k) ((hcurrent.plain hord).field k)
  simp only [restrictive_iff, steps_eq_ok, forM_require_eq_ok, hfields, validate_eq hcurrent,
    validate_eq hcandidate, exists_eq_left', sameSet_iff, nodesById_ids]
  refine and_congr_right (fun _ => and_congr_right (fun hids => ?_))
  -- one pass of the loop, for a node and the one it replaces
  refine forM_replaced_eq_ok hcurrent.ids hids ?_
  intro node hnode old hold hat
  rw [← sameHardware_iff (Valid.plain_node hcurrent hord hold)
    (Valid.plain_node hcandidate hord' hnode)]
  simp only [hat, Option.getD_some, steps_eq_ok, forM_require_eq_ok, and_assoc]
  refine and_congr_right (fun hkeys => ?_)
  rw [hardwareKeys_congr (sameSet_iff.mp hkeys)]

theorem follow_eq_ok :
    follow current candidate signer = .ok m ↔ Follows (some current) candidate signer m := by
  unfold follow Follows
  by_cases hepoch : epochOf candidate = epochOf current
  · simp only [if_pos hepoch]
    by_cases hdigest : digest candidate = digest current
    · simp [hdigest, eq_comm]
    · simp [hdigest, refuse]
  · simp only [if_neg hepoch, steps_eq_ok, schemaStep_eq_ok hcurrent hcandidate,
      tombstones_eq_ok hcurrent hcandidate hord hord', onlyIf_eq_ok,
      restrictive_eq_ok hcurrent hcandidate hord hord']
    exact next_iff

end Transitions

theorem transition_eq_ok {candidate : Value} (hheld : Held current) (hcandidate : Valid t candidate)
    (hord : candidate.Ordered) :
    transition current candidate signer = .ok m ↔ Follows current candidate signer m := by
  unfold transition
  rw [bind_eq_ok]
  simp only [validate_eq hcandidate, Except.ok.injEq, exists_eq_left']
  cases current with
  | none =>
    simp only [steps_eq_ok, Follows, and_assoc]
    exact and_congr_right (fun _ => and_congr_right (fun _ => eq_comm))
  | some current =>
    rcases hheld current rfl with ⟨hordered, s, hcurrent⟩
    exact follow_eq_ok hcurrent hcandidate hordered hord

/-- What the verifier accepts is what the rules accept. -/
theorem accept_eq_ok {envelope root m : Value} (hheld : Held current) (hord : envelope.Ordered) :
    accept crypto current envelope root = .ok m ↔ Accepts crypto root current envelope m := by
  unfold accept Accepts
  rw [bind_eq_ok]
  constructor
  · rintro ⟨verified, hverified, hnext⟩
    have henvelope := (verifyEnvelope_eq_ok hheld).mp hverified
    rcases henvelope.valid with ⟨t, hvalid⟩
    exact ⟨verified.1, verified.2, henvelope,
      (transition_eq_ok hheld hvalid (henvelope.ordered hord)).mp hnext⟩
  · rintro ⟨candidate, signer, henvelope, hnext⟩
    rcases henvelope.valid with ⟨t, hvalid⟩
    exact ⟨(candidate, signer), (verifyEnvelope_eq_ok hheld).mpr henvelope,
      (transition_eq_ok hheld hvalid (henvelope.ordered hord)).mpr hnext⟩

end Python

end Regalia.Membership
