import Regalia.Core.Attest.Verifier
import Regalia.Data.Stamped
import Mathlib.Data.Prod.Lex

/-!
# Accepted Quotes

What a verdict rests on. The checks of a verification are read back as
conditions on the call and on the record it finds (`judge_eq_ok`), and the
calls of a verifier as what they can do to its state, whatever becomes of
their saves.

A quote names what it was made for by a hash only. The transcript tells its
fields apart by their lengths, so two tuples with one transcript are one
(`Tuple.message_injective`); and a quote made for a tuple is one for another
only where two transcripts have one hash.

## Main definitions

* `Tuple.Fits`: The tuples a verifier takes.
* `Judged`: What a verdict rests on.
* `memoryOf`: What a record remembers of the boots of its node.

## Theorems

* `Tuple.message_injective`: A transcript determines its tuple.
* `judge_eq_ok`: The conditions of a verdict.
* `challenge_cases`, `enroll_cases`, `nonce_cases`, `verify_cases`: What the
  calls do to the state.
-/

namespace Regalia.Attest

open List
open Regalia.Membership
open Sha256 (bigEndian)

/-! ### Transcripts -/

/-- The tuples a verifier takes. -/
structure Tuple.Fits (t : Tuple) : Prop where
  node : matchesClass (fun c => c.isAlphanum || c = '.' || c = '_' || c = '-') 64 t.nodeId = true
  epoch : 0 ≤ t.epoch ∧ t.epoch < 2 ^ 64
  session : t.sessionId.length = 32
  key : 1 ≤ t.ephemeralPublic.length ∧ t.ephemeralPublic.length ≤ 512
  nonce : t.nonce.length = 32
  binding : ∀ b ∈ t.binding, 1 ≤ b.length ∧ b.length ≤ 1024

theorem checkSession_eq_ok {t : Tuple} {u : Unit} :
    t.checkSession = .ok u ∧ (∀ b ∈ t.binding, 1 ≤ b.length ∧ b.length ≤ 1024) ↔ t.Fits := by
  simp only [Tuple.checkSession, steps_eq_ok]
  constructor
  · rintro ⟨⟨hnode, hepoch, hsession, hkey, hnonce⟩, hbinding⟩
    exact ⟨hnode, hepoch, hsession, hkey, hnonce, hbinding⟩
  · rintro ⟨hnode, hepoch, hsession, hkey, hnonce, hbinding⟩
    exact ⟨⟨hnode, hepoch, hsession, hkey, hnonce⟩, hbinding⟩

theorem qualifyingData_eq_ok {t : Tuple} {data : Bytes} : qualifyingData t = .ok data ↔
    (∀ b ∈ t.binding, 1 ≤ b.length ∧ b.length ≤ 1024) ∧ data = Sha256.sum t.message := by
  simp only [qualifyingData, transcript, steps_eq_ok]
  constructor
  · rintro ⟨message, ⟨hbinding, rfl⟩, rfl⟩
    exact ⟨hbinding, rfl⟩
  · rintro ⟨hbinding, rfl⟩
    exact ⟨_, ⟨hbinding, rfl⟩, rfl⟩

theorem ascii_of_plain {c : Char} (h : (c.isAlphanum || c = '.' || c = '_' || c = '-') = true) :
    c.toNat < 128 := by
  delta Char.isAlphanum Char.isAlpha Char.isUpper Char.isLower Char.isDigit at h
  simp only [Bool.or_eq_true, Bool.and_eq_true, decide_eq_true_eq] at h
  rcases h with ((((⟨_, h⟩ | ⟨_, h⟩) | ⟨_, h⟩) | h) | h) | h
  · exact lt_of_le_of_lt h (by decide)
  · exact lt_of_le_of_lt h (by decide)
  · exact lt_of_le_of_lt h (by decide)
  all_goals
    rw [h]
    decide

namespace Tuple

variable {t t' : Tuple}

theorem Fits.length_node (h : t.Fits) : (GoString.ofText t.nodeId).length ≤ 64 := by
  have hclass := h.node
  unfold matchesClass at hclass
  simp only [Bool.and_eq_true, decide_eq_true_eq, all_eq_true] at hclass
  rcases hclass with ⟨⟨_, hlength⟩, hall⟩
  unfold GoString.ofText
  rw [GoString.length_ofRunes_of_ascii _ (fun c hc => ascii_of_plain (hall c hc))]
  exact hlength

theorem Fits.lengths (h : t.Fits) : ∀ f ∈ t.fields, f.length < 256 ^ 4 := by
  have hlabels : bindingLabel.length < 256 ^ 4 ∧ transcriptLabel.length < 256 ^ 4 := by
    decide
  have hnode := h.length_node
  have hsession := h.session
  have hkey := h.key
  have hnonce := h.nonce
  intro f hf
  simp only [fields, mem_cons] at hf
  rcases hf with rfl | rfl | rfl | rfl | rfl | rfl | hf
  · by_cases hbinding : t.binding.isSome = true
    · simpa only [hbinding, if_true] using hlabels.1
    · simpa only [hbinding, if_false, Bool.false_eq_true] using hlabels.2
  · omega
  · rw [length_bigEndian]
    decide
  · omega
  · omega
  · omega
  · have hbinding := h.binding f (Option.mem_toList.mp hf)
    omega

/-- The transcript determines the tuple. -/
theorem message_injective (ht : t.Fits) (ht' : t'.Fits) (h : t.message = t'.message) : t = t' := by
  have hfields := frames_injective (by decide) ht.lengths ht'.lengths h
  simp only [fields, List.cons.injEq] at hfields
  rcases hfields with ⟨_, hnode, hepoch, hsession, hkey, hnonce, hbinding⟩
  have hepoch : t.epoch.toNat = t'.epoch.toNat := by
    have h1 := ht.epoch
    have h2 := ht'.epoch
    exact bigEndian_injective (by omega) (by omega) hepoch
  have hepoch : t.epoch = t'.epoch := by
    have h1 := ht.epoch
    have h2 := ht'.epoch
    omega
  have hnode : t.nodeId = t'.nodeId := String.toList_injective (GoString.ofRunes_injective _ _ hnode)
  have hbinding : t.binding = t'.binding := by
    cases hb : t.binding with
    | none => cases hb' : t'.binding <;> simp_all
    | some b => cases hb' : t'.binding <;> simp_all
  cases t
  cases t'
  simp_all

end Tuple

/-! ### Verdicts -/

variable {expected : NodePolicy}

theorem policyOf_eq_ok {policy : Policy} {node : String} :
    policyOf policy node = .ok expected ↔ policy.lookup node = some expected := demand_eq_ok

theorem checkCall_eq_ok {policy : Policy} {c : Call} (h : checkCall policy c = .ok expected) :
    policy.lookup c.tuple.nodeId = some expected ∧ c.tuple.checkSession = .ok () := by
  simp only [checkCall, steps_eq_ok, policyOf_eq_ok] at h
  rcases h with ⟨found, hlookup, _, hsession, _, rfl⟩
  exact ⟨hlookup, hsession⟩

/-- What is shown of the quote and the key that signed it. -/
structure Shown (signs : Bytes → Bytes → Bytes → Bool) (expected : NodePolicy) (c : Call)
    (akPublic : Option Bytes) (akName : Bytes) (q : Quote) : Prop where
  signed : ∃ ak spki, akPublic = some ak ∧ akIdentity ak = .ok (akName, spki) ∧
    signs spki c.quote c.signature = true
  parsed : parseQuote c.quote = .ok q
  signer : q.qualifiedSigner = qualifiedName (hexBytes expected.ekName) akName
  binding : ∀ b ∈ c.tuple.binding, 1 ≤ b.length ∧ b.length ≤ 1024
  data : q.extraData = Sha256.sum c.tuple.message

theorem checkQuote_eq_ok {signs : Bytes → Bytes → Bytes → Bool} {c : Call}
    {akPublic : Option Bytes} {akName : Bytes} {q : Quote} :
    checkQuote signs expected c akPublic = .ok (akName, q) ↔
      Shown signs expected c akPublic akName q := by
  simp only [checkQuote, steps_eq_ok, qualifyingData_eq_ok, Prod.exists, Prod.mk.injEq]
  constructor
  · rintro ⟨ak, hak, name, spki, hid, hsigned, parsed, hparsed, hsigner, data, ⟨hbinding, rfl⟩,
      hdata, rfl, rfl⟩
    exact ⟨⟨ak, spki, hak, hid, hsigned⟩, hparsed, hsigner, hbinding, hdata⟩
  · rintro ⟨⟨ak, spki, hak, hid, hsigned⟩, hparsed, hsigner, hbinding, hdata⟩
    exact ⟨ak, hak, akName, spki, hid, hsigned, q, hparsed, hsigner, _, ⟨hbinding, rfl⟩, hdata, rfl,
      rfl⟩

/-! ### Boots -/

/-- A boot under its counters. -/
def Boot.stamped (b : Boot) : Stamped (Nat ×ₗ Nat) Bytes := ⟨toLex b.counters, b.session, b.key⟩

/-- The boot a quote shows for a session and its key. -/
def bootOf (q : Quote) (sessionId ephemeralPublic : Bytes) : Boot :=
  ⟨(q.resetCount, q.restartCount), Sha256.sum sessionId, Sha256.sum ephemeralPublic⟩

def memoryOf (record : Record) : Memory (Nat ×ₗ Nat) Bytes :=
  ⟨record.boot.map Boot.stamped, record.sessions⟩

theorem notBefore_iff {a b : Nat × Nat} : notBefore a b ↔ toLex b ≤ toLex a := by
  rw [Prod.Lex.toLex_le_toLex]
  exact Iff.rfl

theorem checkLast_eq_ok {last : Option Boot} {boot : Boot} {history : List Bytes} {u : Unit} :
    checkLast last boot history = .ok u ↔
      (⟨last.map Boot.stamped, history⟩ : Memory (Nat ×ₗ Nat) Bytes).Admits boot.stamped := by
  unfold Memory.Admits
  cases last with
  | none => simp [checkLast]
  | some last =>
    simp only [checkLast, checkBoot, steps_eq_ok, Option.map_some,
      Option.some.injEq, forall_eq', notBefore_iff, Boot.stamped]
    by_cases hsame : boot.counters = last.counters
    · simp [hsame]
    · simp [hsame]

theorem checkCounters_eq_ok {record counted : Record} {q : Quote} {session key : Bytes} :
    checkCounters record q session key = .ok counted ↔
      (memoryOf record).Admits (bootOf q session key).stamped ∧
      counted = { record with
        boot := some (bootOf q session key)
        sessions := ((memoryOf record).remember (bootOf q session key).stamped).history } := by
  have hhistory : ((memoryOf record).remember (bootOf q session key).stamped).history =
      if record.boot.any (fun last => (bootOf q session key).counters = last.counters) then
        record.sessions
      else record.sessions ++ [Sha256.sum session, Sha256.sum key] := by
    unfold Memory.remember memoryOf
    cases record.boot with
    | none => rfl
    | some last =>
      by_cases hsame : (q.resetCount, q.restartCount) = last.counters
      · simp [Boot.stamped, bootOf, hsame]
      · simp [Boot.stamped, bootOf, hsame]
  simp only [checkCounters, steps_eq_ok, checkLast_eq_ok, hhistory]
  rw [eq_comm (a := counted)]
  exact Iff.rfl

/-- What a verdict rests on: a nonce issued to the node, a quote, and a boot
    the record admits. -/
structure Judged (signs : Bytes → Bytes → Bytes → Bool) (expected : NodePolicy) (c : Call)
    (issued : Option Issued) (record : Record) (verdict : Verdict) (stored : Record) : Prop where
  issued : ∃ i, issued = some i ∧ i.node = c.tuple.nodeId ∧ c.now ≤ i.expires
  quote : ∃ q, Shown signs expected c record.akPublic verdict.akName q ∧
    (verdict.resetCount, verdict.restartCount) = (q.resetCount, q.restartCount) ∧
    (memoryOf record).Admits (bootOf q c.tuple.sessionId c.tuple.ephemeralPublic).stamped ∧
    memoryOf stored =
      (memoryOf record).remember (bootOf q c.tuple.sessionId c.tuple.ephemeralPublic).stamped
  names : verdict.node = c.tuple.nodeId ∧ verdict.epoch = c.tuple.epoch ∧
    verdict.sessionId = c.tuple.sessionId
  key : stored.akPublic = record.akPublic

theorem judge_eq_ok {signs : Bytes → Bytes → Bytes → Bool} {c : Call}
    {issued : Option Issued} {record stored : Record} {verdict : Verdict}
    (h : judge signs expected c issued record = .ok (verdict, stored)) :
    Judged signs expected c issued record verdict stored := by
  simp only [judge, checkIssued, steps_eq_ok, checkQuote_eq_ok, checkCounters_eq_ok, Prod.exists, Prod.mk.injEq] at h
  rcases h with ⟨⟨i, hi, hnode, hexpires⟩, akName, q, hshown, set, _, counted, ⟨hadmits, rfl⟩, rfl,
    rfl⟩
  exact ⟨⟨i, hi, hnode, hexpires⟩, ⟨q, hshown, rfl, hadmits, rfl⟩, ⟨rfl, rfl, rfl⟩, rfl⟩

/-! ### Calls -/

theorem challenge_cases (policy : Policy) (c : Challenge) (save : Save) (state : State) :
    (challenge policy c save state).1 = state ∨
      ∃ pending, (challenge policy c save state).1 =
        state.update c.node { state.nodes c.node with pending := some pending } := by
  unfold challenge
  dsimp only
  split
  · exact .inl rfl
  · rename_i hcheck
    cases save with
    | done => exact .inr ⟨_, rfl⟩
    | failed => exact .inl rfl
    | last => exact .inr ⟨_, rfl⟩

theorem checkEnrol_eq_ok {e : Enrol} {pending : Option Pending} {ak : Bytes}
    (h : checkEnrol e pending = .ok ak) :
    ∃ p, pending = some p ∧ Sha256.sum e.secret = p.secretSha256 ∧ ak = p.akPublic := by
  simp only [checkEnrol, steps_eq_ok] at h
  rcases h with ⟨p, hp, _, hsecret, _, rfl⟩
  exact ⟨p, hp, hsecret, rfl⟩

theorem enroll_cases (policy : Policy) (e : Enrol) (popping storing : Save) (state : State) :
    (enroll policy e popping storing state).1 = state ∨
      (enroll policy e popping storing state).1 =
        state.update e.node { state.nodes e.node with pending := none } ∨
      ∃ p, (state.nodes e.node).pending = some p ∧ Sha256.sum e.secret = p.secretSha256 ∧
        (enroll policy e popping storing state).1 = state.update e.node
            { state.nodes e.node with pending := none, akPublic := some p.akPublic } := by
  unfold enroll
  split
  · exact .inl rfl
  · cases popping with
    | failed => exact .inl rfl
    | last => exact .inr (.inl rfl)
    | done =>
      dsimp only [saving]
      split
      · exact .inr (.inl rfl)
      · rename_i ak hcheck
        rcases checkEnrol_eq_ok hcheck with ⟨p, hp, hsecret, rfl⟩
        cases storing with
        | done => exact .inr (.inr ⟨p, hp, hsecret, rfl⟩)
        | failed => exact .inr (.inl rfl)
        | last => exact .inr (.inr ⟨p, hp, hsecret, rfl⟩)

theorem dropOld_sublist (nonces : List (Bytes × Issued)) (node : String) (now : Rat) :
    (dropOld nonces node now).Sublist nonces := by
  unfold dropOld
  dsimp only
  split
  · exact filter_sublist.trans filter_sublist
  · exact filter_sublist

theorem nonce_cases (policy : Policy) (d : Draw) (save : Save) (state : State) :
    (nonce policy d save state).1 = state ∨
      ∃ kept i, kept.Sublist state.nonces ∧ i.number = state.issued + 1 ∧
        (nonce policy d save state).1 =
          ⟨state.nodes, kept ++ [(d.nonce, i)], state.issued + 1⟩ := by
  have hsub : ((dropOld state.nonces d.node d.now).filter (fun p => p.1 ≠ d.nonce)).Sublist
      state.nonces := filter_sublist.trans (dropOld_sublist _ _ _)
  unfold nonce
  split
  · exact .inl rfl
  · split
    · cases save with
      | done => exact .inr ⟨_, _, hsub, rfl, rfl⟩
      | failed => exact .inl rfl
      | last => exact .inr ⟨_, _, hsub, rfl, rfl⟩
    · exact .inl rfl

/-- A verification leaves the state, or takes the nonce, or takes the nonce and
    stores what it judged. Only the last can return. -/
theorem verify_cases (signs : Bytes → Bytes → Bytes → Bool) (policy : Policy) (c : Call)
    (popping storing : Save) (state : State) :
    let result := verify signs policy c popping storing state
    ((result.1 = state ∨ result.1 = state.pop c.tuple.nonce) ∧ ∀ v, result.2 ≠ .returned v) ∨
      ∃ expected verdict stored, checkCall policy c = .ok expected ∧
        Judged signs expected c (state.outstanding c.tuple.nonce) (state.nodes c.tuple.nodeId)
          verdict stored ∧
        result.1 = (state.pop c.tuple.nonce).update c.tuple.nodeId stored ∧
        (result.2 = .returned verdict ∨ result.2 = .lost) := by
  unfold verify
  dsimp only
  split
  · exact .inl ⟨.inl rfl, fun v h => nomatch h⟩
  · rename_i expected hcall
    cases popping with
    | failed => exact .inl ⟨.inl rfl, fun v h => nomatch h⟩
    | last => exact .inl ⟨.inr rfl, fun v h => nomatch h⟩
    | done =>
      dsimp only [saving]
      split
      · exact .inl ⟨.inr rfl, fun v h => nomatch h⟩
      · rename_i verdict stored hjudge
        have hjudged := judge_eq_ok hjudge
        cases storing with
        | done => exact .inr ⟨expected, verdict, stored, hcall, hjudged, rfl, .inl rfl⟩
        | failed => exact .inl ⟨.inr rfl, fun v h => nomatch h⟩
        | last => exact .inr ⟨expected, verdict, stored, hcall, hjudged, rfl, .inr rfl⟩

end Regalia.Attest
