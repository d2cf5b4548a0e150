import Regalia.Theory.Membership.GoAccept
import Regalia.Theory.Membership.PythonAccept

/-!
# The Two Verifiers Agree

The initrd of a node runs the Go verifier and the running node the Python
one, on the same envelopes. Each was shown to accept exactly what the rules
accept, as long as its current manifest is one a verifier may hold; so they
agree on every next manifest, and whatever either of them accepts is again a
manifest both may hold.

## Main definitions

* `Verifier`: The two implementations, to state a result for both.
* `Accepted`: A current manifest that was itself accepted.

## Theorems

* `Verifier.accept_eq_ok`: What a verifier accepts is what the rules accept.
* `Accepted.held`: An accepted manifest is a valid document.
* `verifiers_agree`: Both accept the same manifest, or neither does.
-/

namespace Regalia.Membership

/-- One of the two implementations. -/
inductive Verifier where
  | go
  | python
  deriving DecidableEq, Repr

namespace Verifier

def accept (v : Verifier) (crypto : Crypto) (current : Option Value) (envelope root : Value) :
    Check Value :=
  match v with
  | go => Go.accept crypto current envelope root
  | python => Python.accept crypto current envelope root

def acceptChain (v : Verifier) (crypto : Crypto) (current : Option Value)
    (envelopes : List Document) (root : Value) : Check (Option Value) :=
  match v with
  | go => Go.acceptChain crypto current (envelopes.map Subtype.val) root
  | python => Python.acceptChain crypto current (envelopes.map Subtype.val) root

/-- Whether a verifier lets a node do something under a manifest. -/
def may (v : Verifier) (manifest : Value) (node : String) (action : Action) : Bool :=
  match v with
  | go => Go.may manifest node action
  | python => (Python.may manifest node action).toOption = some true

variable {current : Option Value}

theorem accept_eq_ok (v : Verifier) {crypto : Crypto}
    {envelope root m : Value} (hheld : Held current) (hord : envelope.Ordered) :
    v.accept crypto current envelope root = .ok m ↔ Accepts crypto root current envelope m := by
  cases v with
  | go => exact Go.accept_eq_ok hheld hord
  | python => exact Python.accept_eq_ok hheld hord

end Verifier

-- The next manifest is the envelope's or the current one once more.
theorem Follows.eq_or {candidate m : Value} {signer : Signer}
    (h : Follows current candidate signer m) : m = candidate ∨ current = some m := by
  cases current with
  | none => exact .inl h.2.2
  | some current =>
    unfold Follows at h
    by_cases hepoch : epochOf candidate = epochOf current
    · simp only [if_pos hepoch] at h
      exact .inr (by rw [h.2])
    · simp only [if_neg hepoch] at h
      exact .inl h.2

theorem Accepts.held {crypto : Crypto} {root : Value}
    {envelope m : Value} (h : Accepts crypto root current envelope m) (hheld : Held current)
    (hord : envelope.Ordered) : Held (some m) := by
  rcases h with ⟨candidate, signer, henvelope, hfollows⟩
  rcases hfollows.eq_or with rfl | hcurrent
  · intro m' hm
    cases hm
    exact ⟨henvelope.ordered hord, henvelope.valid⟩
  · exact hcurrent ▸ hheld

/-- A manifest that one of the verifiers accepted, under whatever root it had
    pinned, or no manifest yet. -/
inductive Accepted : Option Value → Prop
  | none : Accepted none
  | next (v : Verifier) {crypto : Crypto} {root : Value} {current : Option Value}
      {envelope : Document} {m : Value} (hcurrent : Accepted current)
      (haccept : v.accept crypto current envelope root = .ok m) : Accepted (some m)

theorem Accepted.held (h : Accepted current) : Held current := by
  induction h with
  | none =>
    intro m hm
    cases hm
  | @next v _ _ _ envelope _ _ haccept ih =>
    exact ((v.accept_eq_ok ih envelope.2).mp haccept).held ih envelope.2

/-- For every pinned root, every accepted current manifest and every envelope,
    the Go verifier returns a manifest exactly when the Python one does, and
    then the same one, with the same canonical bytes. -/
theorem verifiers_agree {current : Option Value} (hcurrent : Accepted current) (crypto : Crypto)
    (root : Value) (envelope : Document) (m : Value) :
    (Go.accept crypto current envelope root = .ok m ↔
      Python.accept crypto current envelope root = .ok m) ∧
    Go.canonical m = Python.canonical m := by
  have hheld := hcurrent.held
  refine ⟨?_, go_canonical_eq m⟩
  rw [Go.accept_eq_ok hheld envelope.2, Python.accept_eq_ok hheld envelope.2]

/-! ### An example

A first manifest that names one node, retired already, and the manifest after
it, in which the node is stolen. The root signs the first and the owner, by a
rule that names the owner alone, the second; both are real Ed25519
signatures. -/

def exampleNode (state : NodeState) : Value :=
  .obj [("ak_name", .str "00000000000000000000000000000000000000000000000000000000000000000001"),
    ("ek_name", .str "00000000000000000000000000000000000000000000000000000000000000000002"),
    ("hsm_serials", .arr [.str "S1"]), ("node_id", .str "a"), ("state", .str state.text),
    ("wg_boot_pub", .str "0000000000000000000000000000000000000000000000000000000000000003"),
    ("wg_service_pub", .str "0000000000000000000000000000000000000000000000000000000000000004")]

def exampleRule (parties : List String) : Value :=
  .obj [("parties", .arr (parties.map .str)), ("threshold", .num parties.length)]

def exampleOwner : Value := .str "03759fed0728796dd086f924e7a29f34ba223fce5c871f7db782a737aa6676d8"

def exampleManifest (epoch : Int) (prevDigest : String) (state : NodeState) : Value :=
  .obj [("activation_signers", exampleRule ["a", "owner"]), ("epoch", .num epoch),
    ("heartbeat_max_lifetime_s", .num 3600), ("heartbeat_signers", exampleRule ["a", "owner"]),
    ("issued_at", .str "2026-10-02T09:00:00Z"), ("nodes", .arr [exampleNode state]),
    ("owner_heartbeat_lifetime_s", .num 300),
    ("owner_keys", .arr [.obj [("alg", .str "ed25519"), ("key", exampleOwner)]]),
    ("policy_version", .str "p"), ("prev_digest", .str prevDigest),
    ("revocation_signers", .arr [exampleRule ["owner"]]), ("schema", .str Schema.v4.text)]

def exampleRoot : Value :=
  .str "17806f3f20fcbc6910d6e792c5f27d7dffea4f1252afdfa527d742a868ed8783"

def firstManifest : Value := exampleManifest 1 "" .retired

def firstEnvelope : Value :=
  .obj [("manifest", firstManifest), ("signature", .obj [("key", exampleRoot),
    ("sig", .str "7e32ba2ba552da235c7bdf5bfd82d677ca2df6193c0533fe64aa6daa45f19d7693a4d362588f32fbd77d8b4c8d103be1c6efaa8c358c1f2e60beee08ec82b704"),
    ("signer", .str "root")])]

/-- Verification of the signatures that are listed, each by its value as a
    number, and of no others. -/
def listedSignatures (sigs : List Nat) : Crypto where
  ed25519 _ _ sig := bigEndianValue sig ∈ sigs
  ecdsa _ _ _ _ := false

def exampleCrypto : Crypto := listedSignatures
  [0x7e32ba2ba552da235c7bdf5bfd82d677ca2df6193c0533fe64aa6daa45f19d7693a4d362588f32fbd77d8b4c8d103be1c6efaa8c358c1f2e60beee08ec82b704,
   0x99a6fb915a444c695330a0cca36e3ebd2988135ad64fcf19fe1fabce484aad4959fec8a73e6671dfcb583b31f479d931169febfacc7aa457860f9dfd815ac90b]

theorem ordered_firstEnvelope : firstEnvelope.Ordered := by decide +kernel

theorem accept_firstEnvelope : (Python.accept exampleCrypto none firstEnvelope
    exampleRoot).toOption = some firstManifest := by decide +kernel

theorem verifiers_agree_first : Accepted none ∧
    Go.accept exampleCrypto none firstEnvelope exampleRoot = .ok firstManifest ∧
    Go.canonical firstManifest = Python.canonical firstManifest := by
  have hagree := verifiers_agree .none exampleCrypto exampleRoot
    ⟨firstEnvelope, ordered_firstEnvelope⟩ firstManifest
  exact ⟨.none, hagree.1.mpr (toOption_eq_some_iff.mp accept_firstEnvelope), hagree.2⟩

end Regalia.Membership
