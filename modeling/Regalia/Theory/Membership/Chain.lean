import Mathlib.Data.List.Pairwise
import Regalia.Theory.Membership.Agreement

/-!
# Chains of Manifests

What holds along a whole chain of accepted envelopes, whoever signed them and
whichever verifier read them. A chain only moves by steps of the rules: the
first manifest, the current one once more, or one that follows it
(`Verifier.acceptChain_invariant`), so what a step keeps is kept for ever.

A node that is listed stays listed, and once it is retired or stolen nothing
of it changes but from the one to the other (`Kept`). Together with the
uniqueness inside each manifest this means that its identities are never
another node's.

## Main definitions

* `Kept`: The nodes of a manifest in a later one.
* `carried`: Every text that identifies a node or its HSMs.

## Theorems

* `Verifier.acceptChain_invariant`: What the rules' steps keep, a chain keeps.
* `retired_forever`: A retired node and its identities along a chain.
-/

namespace Regalia.Membership

open List

/-! ### Steps -/

-- A chain is a fold of `accept`, so it goes through held manifests only.
variable (v : Verifier) {crypto : Crypto} {root : Value}

theorem Verifier.acceptChain_invariant (P : Option Value → Prop) {envelopes : List Document}
    (hstep : ∀ current m, ∀ envelope ∈ envelopes, Held current → P current →
      Accepts crypto root current envelope m → P (some m))
    {current result : Option Value} (hheld : Held current) (hcurrent : P current)
    (h : v.acceptChain crypto current envelopes root = .ok result) : Held result ∧ P result := by
  have hfold : (envelopes.map Subtype.val).foldlM (fun current envelope => do
      let next ← v.accept crypto current envelope root
      return some next) current = .ok result := by
    cases v with
    | go => exact h
    | python => exact h
  refine foldlM_invariant (fun current => Held current ∧ P current) ?_ ⟨hheld, hcurrent⟩ hfold
  rintro s s' _ hmem ⟨hs, hPs⟩ hpass
  rcases mem_map.mp hmem with ⟨envelope, henvelope, rfl⟩
  rw [bind_eq_ok] at hpass
  rcases hpass with ⟨m, haccept, hm⟩
  rw [pure_eq_ok] at hm
  subst hm
  have haccepts := (v.accept_eq_ok hs envelope.2).mp haccept
  exact ⟨haccepts.held hs envelope.2, hstep s m envelope henvelope hs hPs haccepts⟩

theorem Verifier.acceptChain_append
    {current : Option Value} {before after : List Document} {result : Option Value} :
    v.acceptChain crypto current (before ++ after) root = .ok result ↔
      ∃ middle, v.acceptChain crypto current before root = .ok middle ∧
        v.acceptChain crypto middle after root = .ok result := by
  cases v with
  | go =>
    rw [acceptChain, map_append, Go.acceptChain, foldlM_append, bind_eq_ok]
    rfl
  | python =>
    rw [acceptChain, map_append, Python.acceptChain, foldlM_append, bind_eq_ok]
    rfl

variable {m : Value}

theorem Verifier.acceptChain_one
    {current : Option Value} {envelope : Document}
    (h : v.accept crypto current envelope root = .ok m) :
    v.acceptChain crypto current [envelope] root = .ok (some m) := by
  cases v with
  | go =>
    simp only [accept] at h
    simp only [acceptChain, Go.acceptChain, map_cons, map_nil, foldlM_cons, foldlM_nil, h]
    rfl
  | python =>
    simp only [accept] at h
    simp only [acceptChain, Python.acceptChain, map_cons, map_nil, foldlM_cons, foldlM_nil, h]
    rfl

/-- A step of a chain that has begun: nothing new, or the next manifest. -/
theorem Accepts.eq_or_next {current envelope : Value}
    (h : Accepts crypto root (some current) envelope m) :
    m = current ∨ ∃ signer, Envelope crypto root (some current) envelope m signer ∧
      Next current m signer := by
  rcases h with ⟨candidate, signer, henvelope, hfollows⟩
  unfold Follows at hfollows
  by_cases hepoch : epochOf candidate = epochOf current
  · simp only [if_pos hepoch] at hfollows
    exact .inl hfollows.2
  · simp only [if_neg hepoch] at hfollows
    rcases hfollows with ⟨hnext, rfl⟩
    exact .inr ⟨signer, henvelope, hnext⟩

theorem Held.valid (h : Held (some m)) : ∃ schema, Valid schema m := (h m rfl).2

/-! ### Retired nodes -/

theorem SameHardware.refl (node : Value) : SameHardware node node :=
  ⟨fun _ => Iff.rfl, fun _ _ => rfl⟩

theorem SameHardware.trans {a b c : Value} (hab : SameHardware a b) (hbc : SameHardware b c) :
    SameHardware a c := by
  refine ⟨fun k => (hbc.1 k).trans (hab.1 k), ?_⟩
  intro k hk
  -- the same fields, so the same identity fields are compared in both steps
  have hkeys : hardwareKeys b = hardwareKeys a := hardwareKeys_congr hab.1
  rw [hbc.2 k (hkeys ▸ hk), hab.2 k hk]

/-- A state and what may come after it for good. -/
def Terminated (old new : Option NodeState) : Prop :=
  new = old ∨ (old = some .retired ∧ new = some .revokedStolen)

/-- Every node of a manifest is in a later one, and those that are retired are
    as they were, but for a retired node that turns out to be stolen. -/
def Kept (m later : Value) : Prop :=
  ∀ node ∈ nodesOf m, ∃ next ∈ nodesOf later, nodeId next = nodeId node ∧
    (terminal node = true → SameHardware node next ∧ Terminated (stateOf node) (stateOf next))

theorem Kept.refl (m : Value) : Kept m m := by
  intro node hnode
  exact ⟨node, hnode, rfl, fun _ => ⟨SameHardware.refl node, .inl rfl⟩⟩

theorem Terminated.terminal {node next : Value} (h : Terminated (stateOf node) (stateOf next))
    (hterminal : terminal node = true) : Membership.terminal next = true := by
  unfold Membership.terminal at hterminal ⊢
  rcases h with hsame | ⟨_, hstolen⟩
  · rw [hsame]
    exact hterminal
  · rw [hstolen]
    rfl

theorem Terminated.trans {a b c : Option NodeState} (hab : Terminated a b) (hbc : Terminated b c) :
    Terminated a c := by
  rcases hbc with rfl | ⟨hretired, hstolen⟩
  · exact hab
  · rcases hab with rfl | ⟨_, hb⟩
    · exact .inr ⟨hretired, hstolen⟩
    · rw [hb] at hretired
      cases hretired

theorem Kept.next {current later : Value} {signer : Signer} (h : Kept m current)
    (hnext : Next current later signer) : Kept m later := by
  intro node hnode
  rcases h node hnode with ⟨middle, hmiddle, hid, hkept⟩
  rcases hnext.tombstones middle hmiddle with ⟨next, hmem, hid', hsame, hstate⟩
  refine ⟨next, hmem, hid'.trans hid, ?_⟩
  intro hterminal
  rcases hkept hterminal with ⟨hhardware, hmoved⟩
  have hmiddleTerminal := hmoved.terminal hterminal
  exact ⟨hhardware.trans (hsame (.inl hmiddleTerminal)), hmoved.trans (hstate hmiddleTerminal)⟩

theorem Verifier.acceptChain_kept
    {envelopes : List Document} {result : Option Value} (hheld : Held (some m))
    (h : v.acceptChain crypto (some m) envelopes root = .ok result) :
    Held result ∧ ∃ later, result = some later ∧ Kept m later := by
  refine v.acceptChain_invariant (fun current => ∃ later, current = some later ∧ Kept m later)
    ?_ hheld ⟨m, rfl, Kept.refl m⟩ h
  rintro _ later envelope _ _ ⟨current, rfl, hkept⟩ haccepts
  rcases haccepts.eq_or_next with rfl | ⟨signer, _, hnext⟩
  · exact ⟨_, rfl, hkept⟩
  · exact ⟨later, rfl, hkept.next hnext⟩

/-- Every text that identifies a node, whatever its role, and the serials of
    its HSMs. -/
def carried (node : Value) : List String :=
  (identityKeys node).map (identityValue node) ++ serialsOf node

theorem SameHardware.carried_eq {node next : Value} (h : SameHardware node next) :
    carried next = carried node := by
  have hids : identityKeys next = identityKeys node := by
    have hhas : ∀ k, hasField next k = hasField node k := by
      intro k
      rw [Bool.eq_iff_iff, hasField_iff, hasField_iff]
      exact h.1 k
    unfold identityKeys
    rw [hhas, hhas]
  have hserials : field next "hsm_serials" = field node "hsm_serials" :=
    h.2 "hsm_serials" (mem_append_right _ mem_cons_self)
  unfold carried serialsOf
  rw [hids, hserials]
  congr 1
  refine map_congr_left (fun k hk => ?_)
  unfold identityValue
  rw [h.2 k (mem_append_left _ hk)]

-- An identity has at least 64 characters and a serial at most 32, so the two
-- kinds never meet and uniqueness may be read off the texts alone.
theorem NodeRule.identity_ne_serial {s t : Schema} {node other : Value} (h : NodeRule s node)
    (h' : NodeRule t other) {k serial : String} (hk : k ∈ identityKeys node)
    (hserial : serial ∈ serialsOf other) : identityValue node k ≠ serial := by
  intro heq
  rcases h.identity_hex hk with ⟨n, hn, hhex⟩
  have hmatches := h'.serialNames serial hserial
  unfold matchesHex at hhex
  unfold matchesSerial matchesClass at hmatches
  rw [heq] at hhex
  simp only [Bool.and_eq_true, decide_eq_true_eq] at hhex hmatches
  omega

theorem Valid.identities_disjoint {schema : Schema} {node other : Value} (h : Valid schema m)
    (hnode : node ∈ nodesOf m) (hother : other ∈ nodesOf m) (hne : nodeId other ≠ nodeId node) :
    List.Disjoint (identities node) (identities other) := by
  have hpairs := (nodup_flatMap.mp h.unique).2
  have hsymm : Std.Symm (Function.onFun List.Disjoint identities) :=
    ⟨fun _ _ hab => List.Disjoint.symm hab⟩
  exact hpairs.forall hnode hother (fun heq => hne (by rw [heq]))

theorem Valid.carried_disjoint {schema : Schema} {node other : Value} (h : Valid schema m)
    (hnode : node ∈ nodesOf m) (hother : other ∈ nodesOf m) (hne : nodeId other ≠ nodeId node) :
    ∀ s ∈ carried node, s ∉ carried other := by
  have hdisjoint := h.identities_disjoint hnode hother hne
  have hvalue : ∀ {node : Value} {s : String}, s ∈ (identityKeys node).map (identityValue node) →
      SeenKey.value s ∈ identities node := by
    intro node s hs
    rcases mem_map.mp hs with ⟨k, hk, rfl⟩
    exact mem_append_left _ (mem_map.mpr ⟨k, hk, rfl⟩)
  have hhsm : ∀ {node : Value} {s : String}, s ∈ serialsOf node → SeenKey.hsm s ∈ identities node :=
    fun hs => mem_append_right _ (mem_map.mpr ⟨_, hs, rfl⟩)
  intro s hs hs'
  rcases mem_append.mp hs with hid | hserial
  · rcases mem_append.mp hs' with hid' | hserial'
    · exact hdisjoint (hvalue hid) (hvalue hid')
    · rcases mem_map.mp hid with ⟨k, hk, rfl⟩
      exact (h.nodeRules node hnode).identity_ne_serial (h.nodeRules other hother) hk hserial' rfl
  · rcases mem_append.mp hs' with hid' | hserial'
    · rcases mem_map.mp hid' with ⟨k, hk, rfl⟩
      exact (h.nodeRules other hother).identity_ne_serial (h.nodeRules node hnode) hk hserial rfl
    · exact hdisjoint (hhsm hserial) (hhsm hserial')

/-- Of every chain accepted from nothing, and every manifest of it with a
    later one: no node of the first is missing in the second, and a node that
    was retired or stolen has the same fields, identities and serials, in the
    same state or in `REVOKED_STOLEN` after `RETIRED`, while no other node
    carries one of its identities or serials in any role. -/
theorem retired_forever (v : Verifier) {crypto : Crypto} {root : Value}
    {before after : List Document} {m later : Value}
    (hm : v.acceptChain crypto none before root = .ok (some m))
    (hlater : v.acceptChain crypto none (before ++ after) root = .ok (some later)) :
    (∀ node ∈ nodesOf m, nodeId node ∈ (nodesOf later).map nodeId) ∧
    ∀ node ∈ nodesOf m, stateOf node = some .retired ∨ stateOf node = some .revokedStolen →
      ∃ next ∈ nodesOf later, nodeId next = nodeId node ∧
        (∀ k, k ∈ next.keys ↔ k ∈ node.keys) ∧
        (∀ k ∈ identityKeys node, field next k = field node k) ∧
        field next "hsm_serials" = field node "hsm_serials" ∧
        (stateOf next = stateOf node ∨
          (stateOf node = some .retired ∧ stateOf next = some .revokedStolen)) ∧
        ∀ other ∈ nodesOf later, nodeId other ≠ nodeId node →
          ∀ s ∈ carried node, s ∉ carried other := by
  have hnone : Held none := fun _ h => by cases h
  have hheld := (v.acceptChain_invariant (fun _ => True) (fun _ _ _ _ _ _ _ => trivial) hnone
    trivial hm).1
  rcases v.acceptChain_append.mp hlater with ⟨middle, hmiddle, hrest⟩
  have hsame : middle = some m := Except.ok.inj (hmiddle.symm.trans hm)
  subst hsame
  rcases v.acceptChain_kept hheld hrest with ⟨hheld', _, heq, hkept⟩
  cases heq
  rcases hheld'.valid with ⟨schema, hvalid⟩
  refine ⟨?_, ?_⟩
  · intro node hnode
    rcases hkept node hnode with ⟨next, hnext, hid, _⟩
    exact hid ▸ mem_map_of_mem (f := nodeId) hnext
  · intro node hnode hstate
    have hterminal : terminal node = true := by
      unfold terminal
      rcases hstate with hstate | hstate
      · rw [hstate]
        rfl
      · rw [hstate]
        rfl
    rcases hkept node hnode with ⟨next, hnext, hid, hstays⟩
    rcases hstays hterminal with ⟨hhardware, hmoved⟩
    refine ⟨next, hnext, hid, hhardware.1, fun k hk => hhardware.2 k (mem_append_left _ hk),
      hhardware.2 _ (mem_append_right _ mem_cons_self), hmoved, ?_⟩
    intro other hother hne
    rw [← hhardware.carried_eq]
    exact hvalid.carried_disjoint hnext hother (hid.symm ▸ hne)

def secondManifest : Value :=
  exampleManifest 2 "88a2134d1de67d00455bc39dc3e38208f13efc60042a3db35fcc96d64c4dc629" .revokedStolen

def secondEnvelope : Value :=
  .obj [("manifest", secondManifest), ("signatures", .arr [.obj [("key", exampleOwner),
    ("party", .str "owner"),
    ("sig", .str "99a6fb915a444c695330a0cca36e3ebd2988135ad64fcf19fe1fabce484aad4959fec8a73e6671dfcb583b31f479d931169febfacc7aa457860f9dfd815ac90b")]])]

theorem ordered_secondEnvelope : secondEnvelope.Ordered := by decide +kernel

theorem accept_secondEnvelope : (Python.accept exampleCrypto (some firstManifest) secondEnvelope
    exampleRoot).toOption = some secondManifest := by decide +kernel

theorem retired_forever_stolen :
    Verifier.python.acceptChain exampleCrypto none [⟨firstEnvelope, ordered_firstEnvelope⟩]
      exampleRoot = .ok (some firstManifest) ∧
    ∀ other ∈ nodesOf secondManifest, nodeId other ≠ nodeId (exampleNode .retired) →
      ∀ s ∈ carried (exampleNode .retired), s ∉ carried other := by
  have hfirst := toOption_eq_some_iff.mp accept_firstEnvelope
  have hsecond := toOption_eq_some_iff.mp accept_secondEnvelope
  have hone : Verifier.python.acceptChain exampleCrypto none
      [⟨firstEnvelope, ordered_firstEnvelope⟩] exampleRoot = _ :=
    Verifier.python.acceptChain_one hfirst
  have htwo : Verifier.python.acceptChain exampleCrypto _
      [⟨secondEnvelope, ordered_secondEnvelope⟩] exampleRoot = _ :=
    Verifier.python.acceptChain_one hsecond
  have hchain := Verifier.python.acceptChain_append.mpr ⟨_, hone, htwo⟩
  have hnode : exampleNode .retired ∈ nodesOf firstManifest := mem_singleton_self _
  have hstate : stateOf (exampleNode .retired) = some .retired := by rfl
  rcases (retired_forever .python hone hchain).2 _ hnode (.inl hstate) with
    ⟨_, _, _, _, _, _, _, hcarried⟩
  exact ⟨hone, hcarried⟩

end Regalia.Membership
