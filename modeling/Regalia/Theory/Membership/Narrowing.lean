import Regalia.Theory.Membership.Chain

/-!
# Without the Root

What a chain may come to when none of its envelopes is signed by the root. A
revocation key or a quorum only narrows a manifest (`Narrowed`): no field that
is the root's changes, no node comes or goes or changes its hardware, and no
node gains a capability.

A quorum is more than one signer. Its rule names at least two parties and
asks for two of them, unless it names the owner alone; each is counted once,
by a signature that verifies under the key the current manifest gives it; and
since no key of a manifest is used twice, two parties have two keys.

## Main definitions

* `rootSigned`: The envelope names the root as its signer.
* `Narrowed`: A manifest and what may come of it without the root.
* `CountedSignature`: A signature that counts, of a party of the manifest.
* `RuleMet`: Two such signatures under a rule, or the owner's.

## Theorems

* `Narrowed.may`: Nothing is allowed that was not.
* `PartyKey.key_ne`: Two parties have two keys.
* `Quorum.ruleMet`: A quorum is two signers, or the owner by a rule of its own.
* `only_root_widens`: What envelopes without the root's signature may change.
-/

namespace Regalia.Membership

open List

variable {crypto : Crypto} {m : Value}

/-! ### What no root signed -/

/-- The envelope names the root as its signer. -/
def rootSigned (envelope : Value) : Bool :=
  field (field envelope "signature") "signer" = .str Signer.root.text

variable {root : Value} {envelope : Value}

theorem Envelope.signer_ne_root {current : Option Value} {candidate : Value}
    {signer : Signer} (h : Envelope crypto root current envelope candidate signer)
    (hsigned : rootSigned envelope = false) : signer ≠ .root := by
  rintro rfl
  unfold Envelope at h
  by_cases hquorum : hasField envelope "signatures" = true
  · rw [if_pos hquorum] at h
    cases h.1
  · rw [if_neg hquorum] at h
    rcases h with ⟨key, hsingle⟩
    exact (decide_eq_false_iff_not.mp hsigned) hsingle.named

/-- What may come of a manifest without the root: the same schema and the same
    of what only the root changes, the same nodes with the same fields,
    identities and serials, and for none of them a capability more. -/
structure Narrowed (m later : Value) : Prop where
  fields : ∀ k ∈ "schema" :: rootFields, field later k = field m k
  ids : ∀ id, id ∈ (nodesOf later).map nodeId ↔ id ∈ (nodesOf m).map nodeId
  nodes : ∀ node ∈ nodesOf later, ∀ old ∈ nodesOf m, nodeId old = nodeId node →
    SameHardware old node ∧ ∀ a ∈ nodeCapabilities node, a ∈ nodeCapabilities old

theorem Narrowed.refl {schema : Schema} (h : Valid schema m) : Narrowed m m := by
  refine ⟨fun _ _ => rfl, fun _ => Iff.rfl, ?_⟩
  intro node hnode old hold hid
  rw [inj_on_of_nodup_map h.ids hold hnode hid]
  exact ⟨SameHardware.refl node, fun _ ha => ha⟩

theorem Narrowed.next {m current later : Value} {signer : Signer} (h : Narrowed m current)
    (hnext : Next current later signer) (hsigner : signer ≠ .root) : Narrowed m later := by
  have hstep := hnext.restrictive hsigner
  have hschema : field later "schema" = field current "schema" :=
    hnext.schema.resolve_right (fun hroot => hsigner hroot.1)
  refine ⟨?_, fun id => (hstep.ids id).trans (h.ids id), ?_⟩
  · intro k hk
    rcases mem_cons.mp hk with rfl | hfield
    · rw [hschema, h.fields _ hk]
    · rw [hstep.fields k hfield, h.fields k hk]
  · intro node hnode old hold hid
    -- the node between the two, which has the same ID
    rcases mem_map.mp ((hstep.ids _).mp (mem_map_of_mem (f := nodeId) hnode)) with
      ⟨middle, hmiddle, hmiddleID⟩
    rcases hstep.nodes node hnode middle hmiddle hmiddleID with ⟨hsame, hfewer⟩
    rcases h.nodes middle hmiddle old hold (hid.trans hmiddleID.symm) with ⟨hsame', hfewer'⟩
    exact ⟨hsame'.trans hsame, fun a ha => hfewer' a (hfewer a ha)⟩

theorem Verifier.may_iff (v : Verifier) {schema : Schema} (h : Valid schema m) {id : String}
    {action : Action} : v.may m id action = true ↔
      ∃ node ∈ nodesOf m, nodeId node = id ∧ action ∈ nodeCapabilities node := by
  have hnodes : ((((nodesById m).at id).map nodeCapabilities).any (action ∈ ·)) = true ↔
      ∃ node ∈ nodesOf m, nodeId node = id ∧ action ∈ nodeCapabilities node := by
    cases hat : (nodesById m).at id with
    | none =>
      have hmissing : ∀ node ∈ nodesOf m, nodeId node ≠ id := by
        intro node hnode hid
        rw [(nodesById_at_eq_some h.ids id node).mpr ⟨hnode, hid⟩] at hat
        cases hat
      simp only [Option.map_none, Option.any_none, Bool.false_eq_true, false_iff]
      rintro ⟨node, hnode, hid, _⟩
      exact hmissing node hnode hid
    | some found =>
      rcases (nodesById_at_eq_some h.ids id found).mp hat with ⟨hfound, hid⟩
      simp only [Option.map_some, Option.any_some, decide_eq_true_eq]
      constructor
      · intro ha
        exact ⟨found, hfound, hid, ha⟩
      · rintro ⟨node, hnode, hid', ha⟩
        rw [inj_on_of_nodup_map h.ids hfound hnode (hid.trans hid'.symm)]
        exact ha
  cases v with
  | go =>
    have hvalid : Go.validate m = .ok (nodesById m) := Go.validate_eq_ok.mpr ⟨⟨_, h⟩, rfl⟩
    unfold may Go.may
    simp only [hvalid]
    exact hnodes
  | python =>
    have hvalid : Python.validate m = .ok (nodesById m) :=
      Python.validate_eq_ok.mpr ⟨⟨_, h⟩, rfl⟩
    unfold may
    simp only [decide_eq_true_eq, toOption_eq_some_iff, Python.may, steps_eq_ok, hvalid, exists_eq_left']
    exact hnodes

theorem Narrowed.may {s t : Schema} {m later : Value} (h : Narrowed m later) (hm : Valid s m)
    (hlater : Valid t later) (v : Verifier) {id : String} {action : Action}
    (hmay : v.may later id action = true) : v.may m id action = true := by
  rcases (v.may_iff hlater).mp hmay with ⟨node, hnode, rfl, ha⟩
  rcases mem_map.mp ((h.ids _).mp (mem_map_of_mem (f := nodeId) hnode)) with
    ⟨old, hold, hid⟩
  exact (v.may_iff hm).mpr ⟨old, hold, hid, (h.nodes node hnode old hold hid).2 action ha⟩

theorem Verifier.acceptChain_narrowed (v : Verifier) {m : Value} {envelopes : List Document}
    {result : Option Value} (hheld : Held (some m))
    (hsigned : ∀ e ∈ envelopes, rootSigned e = false)
    (h : v.acceptChain crypto (some m) envelopes root = .ok result) :
    Held result ∧ ∃ later, result = some later ∧ Narrowed m later := by
  rcases hheld.valid with ⟨schema, hvalid⟩
  refine v.acceptChain_invariant (fun current => ∃ later, current = some later ∧ Narrowed m later)
    ?_ hheld ⟨m, rfl, Narrowed.refl hvalid⟩ h
  rintro _ later envelope henvelope _ ⟨current, rfl, hnarrowed⟩ haccepts
  rcases haccepts.eq_or_next with rfl | ⟨signer, hsigner, hnext⟩
  · exact ⟨_, rfl, hnarrowed⟩
  · exact ⟨later, rfl, hnarrowed.next hnext (hsigner.signer_ne_root (hsigned envelope henvelope))⟩

/-! ### Quorums -/

/-- A party of the manifest, in service, with its valid signature in the
    envelope over the envelope's manifest. -/
structure CountedSignature (crypto : Crypto) (m envelope : Value) (party : String)
    (key : Algorithm × String) : Prop where
  known : PartyKey m party key
  signed : ∃ sig ∈ itemsOf (field envelope "signatures"), field sig "party" = .str party ∧
    field sig "key" = .str key.2 ∧ SignatureOver crypto key.1 key.2
      (domain ++ Python.canonical (field envelope "manifest")) (field sig "sig")
  inService : ∀ node ∈ nodesOf m, nodeId node = party → stateOf node ≠ some .retired ∧
    stateOf node ≠ some .revokedStolen ∧ stateOf node ≠ some .quarantined

/-- A rule of the manifest is met: by two of its parties with two keys, or by
    the owner whom alone it names. -/
def RuleMet (crypto : Crypto) (m envelope : Value) : Prop :=
  ∃ rule ∈ itemsOf (field m "revocation_signers"), ∃ named,
    Names (field rule "parties") named ∧
    ((named = [ownerParty] ∧ ∃ k, CountedSignature crypto m envelope ownerParty k) ∨
      ∃ p q k l, p ∈ named ∧ q ∈ named ∧ p ≠ q ∧ k.2 ≠ l.2 ∧
        CountedSignature crypto m envelope p k ∧ CountedSignature crypto m envelope q l)

theorem PartyKey.mem_ownerKeys {key : Algorithm × String} (h : PartyKey m ownerParty key) :
    key.2 ∈ ownerKeysOf m := by
  unfold PartyKey at h
  rw [if_pos rfl] at h
  rcases h with ⟨e, he, hkey⟩
  exact mem_map.mpr ⟨e, he, by rw [hkey.hex]; rfl⟩

theorem PartyKey.mem_identities {party : String} {key : Algorithm × String}
    (h : PartyKey m party key) (hparty : party ≠ ownerParty) :
    ∃ node ∈ nodesOf m, nodeId node = party ∧ SeenKey.value key.2 ∈ identities node := by
  unfold PartyKey at h
  rw [if_neg hparty] at h
  rcases h with ⟨node, hnode, hid, hhas, hkey⟩
  refine ⟨node, hnode, hid, mem_append_left _ (mem_map.mpr ⟨"signing_key", ?_, ?_⟩)⟩
  · unfold identityKeys
    rw [if_pos hhas]
    exact mem_append_right _ mem_cons_self
  · rw [identityValue, if_pos rfl, hkey.hex]
    rfl

-- The owner's keys and the nodes' identities are checked together, in one set.
theorem PartyKey.key_ne (hvalid : Valid .v4 m) {p q : String} {k l : Algorithm × String}
    (hp : PartyKey m p k) (hq : PartyKey m q l) (hne : p ≠ q) : k.2 ≠ l.2 := by
  intro heq
  have hunique := (hvalid.signers rfl).unique
  have hapart : ∀ {r : String} {o n : Algorithm × String}, PartyKey m ownerParty o →
      PartyKey m r n → r ≠ ownerParty → o.2 ≠ n.2 := by
    intro r o n ho hr hrowner hsame
    rcases hr.mem_identities hrowner with ⟨node, hnode, _, hmem⟩
    have howner : SeenKey.value n.2 ∈ (ownerKeysOf m).map SeenKey.value :=
      mem_map.mpr ⟨o.2, ho.mem_ownerKeys, by rw [hsame]⟩
    exact (disjoint_of_nodup_append hunique) (mem_flatMap.mpr ⟨node, hnode, hmem⟩) howner
  by_cases hpowner : p = ownerParty
  · subst hpowner
    exact hapart hp hq (Ne.symm hne) heq
  · by_cases hqowner : q = ownerParty
    · subst hqowner
      exact hapart hq hp hpowner heq.symm
    · rcases hp.mem_identities hpowner with ⟨node, hnode, hid, hmem⟩
      rcases hq.mem_identities hqowner with ⟨other, hother, hid', hmem'⟩
      have hnodes : nodeId other ≠ nodeId node := by
        rw [hid, hid']
        exact Ne.symm hne
      exact hvalid.identities_disjoint hnode hother hnodes hmem (heq ▸ hmem')

theorem SignedBy.counted {m sig : Value} {party : String} (hvalid : Valid .v4 m)
    (hsig : sig ∈ itemsOf (field envelope "signatures"))
    (h : SignedBy crypto m (domain ++ Python.canonical (field envelope "manifest")) sig party)
    (hcounts : counting m party = true) : ∃ key, CountedSignature crypto m envelope party key := by
  rcases h with ⟨_, hparty, key, hkey, _, hknown, hsigned⟩
  refine ⟨key, hknown, ⟨sig, hsig, hparty, hkey, hsigned⟩, ?_⟩
  intro node hnode hid
  unfold counting at hcounts
  have howner : party ≠ ownerParty := by
    rw [← hid]
    exact (hvalid.nodeRules node hnode).idOwner rfl
  rw [(nodesById_at_eq_some hvalid.ids party node).mpr ⟨hnode, hid⟩, Option.bind_some] at hcounts
  simp only [howner, decide_false, Bool.false_or, Bool.not_eq_true'] at hcounts
  refine ⟨?_, ?_, ?_⟩
  all_goals
    intro hstate
    rw [hstate] at hcounts
    cases hcounts

theorem Quorum.ruleMet {m candidate : Value} {parties : List String}
    (h : Quorum crypto root m envelope candidate parties) (hvalid : Valid .v4 m) :
    RuleMet crypto m envelope := by
  rcases h.met with ⟨rule, hrule, named, t, hnames, hnumber, hmet⟩
  refine ⟨rule, hrule, named, hnames, ?_⟩
  rcases (hvalid.signers rfl).revocation with ⟨rules, hrules, _, _, hwell⟩
  have hmem : rule ∈ rules := by
    rw [hrules] at hrule
    exact hrule
  rcases hwell rule hmem with ⟨named', t', hsigner⟩
  have hsame : named' = named := hsigner.names.unique hnames
  subst hsame
  injection hnumber.symm.trans hsigner.number with ht
  have hfloor := hsigner.floor
  unfold leastThreshold at hfloor
  -- each party that is counted stands in the envelope with its own signature
  have hcounted : ∀ party ∈ named'.filter (· ∈ parties.filter (counting m)),
      party ∈ named' ∧ ∃ key, CountedSignature crypto m envelope party key := by
    intro party hparty
    rcases mem_filter.mp hparty with ⟨hnamed, hin⟩
    rcases mem_filter.mp (of_decide_eq_true hin) with ⟨hsigned, hcounts⟩
    rcases exists_of_mem_right h.signed.signed hsigned with ⟨sig, hsig, hby⟩
    rw [← h.manifest] at hby
    exact ⟨hnamed, hby.counted hvalid hsig hcounts⟩
  by_cases howner : named' = [ownerParty]
  · rw [if_pos ⟨rfl, howner⟩] at hfloor
    have hone : 0 < (named'.filter (· ∈ parties.filter (counting m))).length := by omega
    rcases exists_mem_of_length_pos hone with ⟨party, hparty⟩
    rcases hcounted party hparty with ⟨hnamed, hkey⟩
    rw [howner, mem_singleton] at hnamed
    exact .inl ⟨howner, hnamed ▸ hkey⟩
  · rw [if_neg (fun hboth => howner hboth.2), if_pos rfl, nodeRuleFloor] at hfloor
    have htwo : 2 ≤ (named'.filter (· ∈ parties.filter (counting m))).length := by omega
    rcases exists_ne_of_two_le (hsigner.distinct.filter _) htwo with ⟨p, hp, q, hq, hne⟩
    rcases hcounted p hp with ⟨hpnamed, k, hk⟩
    rcases hcounted q hq with ⟨hqnamed, l, hl⟩
    exact .inr ⟨p, q, k, l, hpnamed, hqnamed, hne, hk.known.key_ne hvalid hl.known hne, hk, hl⟩

theorem Accepts.quorum {current m : Value} (h : Accepts crypto root (some current) envelope m)
    (hsigned : hasField envelope "signatures" = true) :
    ∃ candidate parties, Quorum crypto root current envelope candidate parties := by
  rcases h with ⟨candidate, signer, henvelope, _⟩
  unfold Envelope at henvelope
  rw [if_pos hsigned] at henvelope
  rcases henvelope with ⟨_, _, hcurrent, parties, hquorum⟩
  cases hcurrent
  exact ⟨candidate, parties, hquorum⟩

/-- From an accepted manifest, envelopes of which none is signed by the root
    lead to a manifest that is narrower, under which nothing may happen that
    might not before; and an envelope that a quorum signed carries the valid
    signatures of two parties in service, with two keys, unless the rule they
    meet names the owner alone. -/
theorem only_root_widens (v : Verifier) {crypto : Crypto} {root current : Value}
    (hcurrent : Accepted (some current)) :
    (∀ (envelopes : List Document) (result : Value), (∀ e ∈ envelopes, rootSigned e = false) →
      v.acceptChain crypto (some current) envelopes root = .ok (some result) →
      Narrowed current result ∧ ∀ node action,
        v.may result node action = true → v.may current node action = true) ∧
    ∀ (envelope : Document) (m : Value), hasField envelope.1 "signatures" = true →
      v.accept crypto (some current) envelope root = .ok m → RuleMet crypto current envelope := by
  have hheld := hcurrent.held
  rcases hheld.valid with ⟨schema, hvalid⟩
  refine ⟨?_, ?_⟩
  · intro envelopes result hsigned hchain
    rcases v.acceptChain_narrowed hheld hsigned hchain with ⟨hheld', _, heq, hnarrowed⟩
    cases heq
    rcases hheld'.valid with ⟨schema', hvalid'⟩
    exact ⟨hnarrowed, fun node action hmay => hnarrowed.may hvalid hvalid' v hmay⟩
  · intro envelope m hsigned haccept
    rcases ((v.accept_eq_ok hheld envelope.2).mp haccept).quorum hsigned with
      ⟨candidate, parties, hquorum⟩
    -- only a v4 manifest names the signers of a quorum
    obtain rfl := hvalid.fourth hquorum.fourth
    exact hquorum.ruleMet hvalid

theorem only_root_widens_owner : Accepted (some firstManifest) ∧
    Narrowed firstManifest secondManifest ∧ RuleMet exampleCrypto firstManifest secondEnvelope := by
  have hfirst := toOption_eq_some_iff.mp accept_firstEnvelope
  have hsecond := toOption_eq_some_iff.mp accept_secondEnvelope
  have haccepted : Accepted (some firstManifest) :=
    @Accepted.next .python _ _ _ ⟨firstEnvelope, ordered_firstEnvelope⟩ _ .none hfirst
  have hwidens := @only_root_widens .python exampleCrypto exampleRoot _ haccepted
  have hsigned : rootSigned secondEnvelope = false := by rfl
  have hquorum : hasField secondEnvelope "signatures" = true := by rfl
  refine ⟨haccepted, ?_, ?_⟩
  · refine (hwidens.1 [⟨secondEnvelope, ordered_secondEnvelope⟩] secondManifest ?_
      (Verifier.python.acceptChain_one hsecond)).1
    intro e he
    rw [mem_singleton.mp he]
    exact hsigned
  · exact hwidens.2 ⟨secondEnvelope, ordered_secondEnvelope⟩ secondManifest hquorum hsecond

end Regalia.Membership
