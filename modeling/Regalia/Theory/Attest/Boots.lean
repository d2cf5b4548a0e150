import Regalia.Data.Runs
import Regalia.Theory.Attest.Verdicts

/-!
# One Boot, One Session

A verifier over any run of its calls, for any nodes, from any number of
processes and with any of its saves failing or being a process's last. Three
records keep replays and rollbacks out: the outstanding nonces, the last boot
of a node, and every session and key a node ever had.

A nonce is told by its number in the order of issue: the bytes are drawn at
random, the number is not. A number that is taken is never outstanding again,
because the numbers only grow (`Numbered`).

A verdict is for a quote of the TPM the policy names. The key that signed it
answered a challenge, so it is in some TPM; the quote carries that key's name
under the endorsement key it sits with, and the policy's key gives the same
name, so it is the same key (`Vouched`).

## Main definitions

* `Move`, `World`: The calls, and what came of them.
* `Tpms`, `Honest`: The keys in TPMs and the quotes made with them.
* `Activates`: A secret comes back only from a TPM with the challenged key.
* `Numbered`, `Remembered`, `Resident`, `Vouched`: What runs preserve.

## Theorems

* `run_numbered`: Every nonce is taken once.
* `run_remembered`: The boots of a node are apart.
* `run_vouched`: Every verdict is for a quote of the policy's TPM.
* `one_boot_one_session`: The three together.
-/

namespace Regalia.Attest

open List

variable {state : State}

open Regalia.Membership
open Sha256 (bigEndian)

/-! ### Runs -/

inductive Move where
  | challenge (policy : Policy) (c : Challenge) (save : Save)
  | enroll (policy : Policy) (e : Enrol) (popping storing : Save)
  | nonce (policy : Policy) (d : Draw) (save : Save)
  | verify (policy : Policy) (c : Call) (popping storing : Save)

/-- A verdict that was returned: under which policy and for which call, and the
    number of the nonce the call found. -/
structure Accepted where
  policy : Policy
  call : Call
  verdict : Verdict
  number : Option Nat

/-- The state, the numbers of the nonces that verifications took, and the
    verdicts in order. -/
structure World where
  state : State
  consumed : List Nat
  verdicts : List Accepted

def State.numbers (state : State) : List Nat := state.nonces.map (fun p => p.2.number)

/-- What an answer adds to the verdicts. -/
def acceptedBy (policy : Policy) (c : Call) (state : State) : Answer Verdict → List Accepted
  | .returned verdict =>
    [⟨policy, c, verdict, (state.outstanding c.tuple.nonce).map Issued.number⟩]
  | _ => []

namespace World

def empty : World := ⟨State.empty, [], []⟩

/-- One call. A verification takes the nonces that were outstanding before it
    and are not after. -/
def step (signs : Bytes → Bytes → Bytes → Bool) (w : World) : Move → World
  | .challenge policy c save => { w with state := (Attest.challenge policy c save w.state).1 }
  | .enroll policy e popping storing =>
    { w with state := (Attest.enroll policy e popping storing w.state).1 }
  | .nonce policy d save => { w with state := (Attest.nonce policy d save w.state).1 }
  | .verify policy c popping storing =>
    let result := Attest.verify signs policy c popping storing w.state
    { state := result.1
      consumed := w.consumed ++ w.state.numbers.filter (· ∉ result.1.numbers)
      verdicts := w.verdicts ++ acceptedBy policy c w.state result.2 }

def run (signs : Bytes → Bytes → Bytes → Bool) (moves : List Move) : World :=
  moves.foldl (step signs) empty

end World

variable {signs : Bytes → Bytes → Bytes → Bool} {w : World} {move : Move}

/-! ### Nonces -/

/-- The numbers that were taken or are outstanding are different ones, and
    every verdict took its own. -/
structure Numbered (w : World) : Prop where
  nodup : (w.consumed ++ w.state.numbers).Nodup
  bound : ∀ n ∈ w.consumed ++ w.state.numbers, n ≤ w.state.issued
  taken : ∀ a ∈ w.verdicts, ∃ n ∈ w.consumed, a.number = some n
  each : (w.verdicts.map Accepted.number).Nodup

theorem Numbered.of_nonces (h : Numbered w) (hnonces : state.nonces = w.state.nonces)
    (hissued : state.issued = w.state.issued) : Numbered { w with state } := by
  have hnumbers : state.numbers = w.state.numbers := by
    unfold State.numbers
    rw [hnonces]
  refine ⟨?_, ?_, h.taken, h.each⟩
  · rw [hnumbers]
    exact h.nodup
  · rw [hnumbers, hissued]
    exact h.bound

-- what is left after some of a list's items are taken, with those
theorem nodup_taken {taken l kept : List Nat} (h : (taken ++ l).Nodup) (hkept : kept.Sublist l) :
    ((taken ++ l.filter (· ∉ kept)) ++ kept).Nodup := by
  rcases nodup_append.mp h with ⟨htaken, hl, hdisjoint⟩
  rw [append_assoc]
  refine nodup_append.mpr ⟨htaken, ?_, ?_⟩
  · refine nodup_append.mpr ⟨hl.filter _, hl.sublist hkept, ?_⟩
    rintro a ha _ hb rfl
    exact (of_decide_eq_true (mem_filter.mp ha).2) hb
  · rintro a ha b hb
    rcases mem_append.mp hb with hb | hb
    · exact hdisjoint a ha b (mem_of_mem_filter hb)
    · exact hdisjoint a ha b (hkept.subset hb)

theorem Numbered.verify {verdicts : List Accepted} (h : Numbered w)
    (hsub : state.numbers.Sublist w.state.numbers) (hissued : state.issued = w.state.issued)
    (hverdicts : verdicts = [] ∨ ∃ a n, verdicts = [a] ∧ a.number = some n ∧
      n ∈ w.state.numbers ∧ n ∉ state.numbers) :
    Numbered
      { state
        consumed := w.consumed ++ w.state.numbers.filter (· ∉ state.numbers)
        verdicts := w.verdicts ++ verdicts } := by
  have htaken : ∀ a ∈ w.verdicts, ∃ n ∈ w.consumed ++ w.state.numbers.filter (· ∉ state.numbers),
      a.number = some n := by
    intro a ha
    rcases h.taken a ha with ⟨n, hn, hnumber⟩
    exact ⟨n, mem_append_left _ hn, hnumber⟩
  refine ⟨nodup_taken h.nodup hsub, ?_, ?_, ?_⟩
  · intro n hn
    rw [hissued]
    refine h.bound n ?_
    rcases mem_append.mp hn with hn | hn
    · rcases mem_append.mp hn with hn | hn
      · exact mem_append_left _ hn
      · exact mem_append_right _ (mem_of_mem_filter hn)
    · exact mem_append_right _ (hsub.subset hn)
  · rcases hverdicts with rfl | ⟨a, n, rfl, hnumber, hold, hnew⟩
    · simpa only [append_nil] using htaken
    · exact forall_mem_snoc htaken
        ⟨n, mem_append_right _ (mem_filter.mpr ⟨hold, decide_eq_true hnew⟩), hnumber⟩
  · rcases hverdicts with rfl | ⟨a, n, rfl, hnumber, hold, hnew⟩
    · simpa only [append_nil] using h.each
    · rw [map_append, map_singleton, hnumber]
      refine nodup_append.mpr ⟨h.each, nodup_singleton _, ?_⟩
      rintro _ hb _ hn rfl
      rcases mem_map.mp hb with ⟨b, hb, hbn⟩
      rcases h.taken b hb with ⟨m, hm, hbm⟩
      rw [hbm, mem_singleton.mp hn] at hbn
      injection hbn with hmn
      -- the number was outstanding, so it had not been taken before
      exact (nodup_append.mp h.nodup).2.2 m hm n hold hmn

theorem pop_numbers_sublist (state : State) (nonce : Bytes) :
    (state.pop nonce).numbers.Sublist state.numbers :=
  filter_sublist.map _

-- the nonce of a call is gone once it is popped, under whatever bytes
theorem number_not_mem_pop {nonce : Bytes} {i : Issued} (hnodup : state.numbers.Nodup)
    (h : state.outstanding nonce = some i) :
    i.number ∈ state.numbers ∧ i.number ∉ (state.pop nonce).numbers := by
  have hmem : (nonce, i) ∈ state.nonces := by
    unfold State.outstanding at h
    rcases lookup_eq_some_iff.mp h with ⟨before, after, heq, _⟩
    rw [heq]
    simp
  refine ⟨mem_map.mpr ⟨(nonce, i), hmem, rfl⟩, ?_⟩
  intro hpop
  rcases mem_map.mp hpop with ⟨p, hp, hnumber⟩
  rcases mem_filter.mp hp with ⟨hp, hkey⟩
  have heq : p = (nonce, i) := inj_on_of_nodup_map hnodup hp hmem hnumber
  rw [heq] at hkey
  exact (of_decide_eq_true hkey) rfl

theorem acceptedBy_eq_nil {policy : Policy} {c : Call} {answer : Answer Verdict}
    (h : ∀ v, answer ≠ .returned v) : acceptedBy policy c state answer = [] := by
  cases answer with
  | returned v => exact absurd rfl (h v)
  | refused r => rfl
  | lost => rfl

theorem step_numbered (move : Move) (h : Numbered w) : Numbered (w.step signs move) := by
  cases move with
  | challenge policy c save =>
    unfold World.step
    rcases challenge_cases policy c save w.state with heq | ⟨pending, heq⟩
    · exact h.of_nonces (by rw [heq]) (by rw [heq])
    · exact h.of_nonces (by rw [heq]; rfl) (by rw [heq]; rfl)
  | enroll policy e popping storing =>
    unfold World.step
    rcases enroll_cases policy e popping storing w.state with heq | heq | ⟨p, _, _, heq⟩
    · exact h.of_nonces (by rw [heq]) (by rw [heq])
    · exact h.of_nonces (by rw [heq]; rfl) (by rw [heq]; rfl)
    · exact h.of_nonces (by rw [heq]; rfl) (by rw [heq]; rfl)
  | nonce policy d save =>
    unfold World.step
    rcases nonce_cases policy d save w.state with heq | ⟨kept, i, hsub, hnumber, heq⟩
    · exact h.of_nonces (by rw [heq]) (by rw [heq])
    · dsimp only
      rw [heq]
      have hnumbers : (⟨w.state.nodes, kept ++ [(d.nonce, i)], w.state.issued + 1⟩ : State).numbers =
          kept.map (fun p => p.2.number) ++ [w.state.issued + 1] := by
        simp [State.numbers, hnumber]
      have hold : (w.consumed ++ kept.map (fun p => p.2.number)).Sublist
          (w.consumed ++ w.state.numbers) := (List.Sublist.refl _).append (hsub.map _)
      refine ⟨?_, ?_, h.taken, h.each⟩
      · rw [hnumbers, ← append_assoc]
        refine nodup_append.mpr ⟨h.nodup.sublist hold, nodup_singleton _, ?_⟩
        rintro n hn m hm rfl
        have hbound := h.bound n (hold.subset hn)
        rw [mem_singleton.mp hm] at hbound
        omega
      · rw [hnumbers, ← append_assoc]
        exact forall_mem_snoc (fun n hn => le_trans (h.bound n (hold.subset hn)) (Nat.le_succ _))
          le_rfl
  | verify policy c popping storing =>
    unfold World.step
    dsimp only
    have hnodup := (nodup_append.mp h.nodup).2.1
    rcases verify_cases signs policy c popping storing w.state with
      ⟨hstate, hanswer⟩ | ⟨expected, verdict, stored, _, hjudged, hstate, hanswer⟩
    · rcases hstate with hstate | hstate
      · exact h.verify (by rw [hstate]) (by rw [hstate]) (.inl (acceptedBy_eq_nil hanswer))
      · exact h.verify (by rw [hstate]; exact pop_numbers_sublist _ _) (by rw [hstate]; rfl)
          (.inl (acceptedBy_eq_nil hanswer))
    · rcases hjudged.issued with ⟨i, hi, _, _⟩
      rcases number_not_mem_pop hnodup hi with ⟨hold, hnew⟩
      refine h.verify (by rw [hstate]; exact pop_numbers_sublist _ _) (by rw [hstate]; rfl) ?_
      rcases hanswer with hanswer | hanswer
      · refine .inr ⟨_, i.number, by rw [hanswer]; rfl, ?_, hold, by rw [hstate]; exact hnew⟩
        rw [hi]
        rfl
      · exact .inl (by rw [hanswer]; rfl)

theorem run_numbered (moves : List Move) : Numbered (World.run signs moves) := by
  refine run_invariant (fun _ move h => step_numbered move h) moves ?_
  exact ⟨nodup_nil, fun n hn => absurd hn not_mem_nil,
    fun a ha => absurd ha not_mem_nil, nodup_nil⟩

/-! ### Boots -/

namespace Accepted

def counters (a : Accepted) : Nat ×ₗ Nat := toLex (a.verdict.resetCount, a.verdict.restartCount)

def stamped (a : Accepted) : Stamped (Nat ×ₗ Nat) Bytes :=
  ⟨a.counters, Sha256.sum a.call.tuple.sessionId, Sha256.sum a.call.tuple.ephemeralPublic⟩

end Accepted

/-- The accepted boots of a node, in order. -/
def World.boots (w : World) (node : String) : List (Stamped (Nat ×ₗ Nat) Bytes) :=
  (w.verdicts.filter (fun a => a.verdict.node = node)).map Accepted.stamped

/-- The record of every node accounts for its boots. -/
def Remembered (w : World) : Prop := ∀ node, (memoryOf (w.state.nodes node)).Holds (w.boots node)

theorem nodes_update (state : State) (node n : String) (record : Record) :
    (state.update node record).nodes n = if n = node then record else state.nodes n := by
  unfold State.update
  by_cases h : n = node
  · rw [if_pos h, h]
    exact Function.update_self node record state.nodes
  · rw [if_neg h]
    exact Function.update_of_ne h record state.nodes

/-- What an update keeps of its node it keeps of all. -/
theorem update_kept {β : Type} {f : Record → β} {node : String} {record : Record}
    (h : f record = f (state.nodes node)) (n : String) :
    f ((state.update node record).nodes n) = f (state.nodes n) := by
  rw [nodes_update]
  by_cases hn : n = node
  · rw [if_pos hn, h, hn]
  · rw [if_neg hn]

theorem Remembered.of_memory (h : Remembered w)
    (hmemory : ∀ n, memoryOf (state.nodes n) = memoryOf (w.state.nodes n)) {consumed : List Nat} :
    Remembered ⟨state, consumed, w.verdicts⟩ := by
  intro node
  dsimp only
  rw [hmemory]
  exact h node

-- a verdict that was lost is remembered and not reported
theorem Remembered.judged {expected : NodePolicy} {policy : Policy} {c : Call} {verdict : Verdict}
    {stored : Record} {answer : Answer Verdict} {consumed : List Nat} (h : Remembered w)
    (hjudged : Judged signs expected c (w.state.outstanding c.tuple.nonce)
      (w.state.nodes c.tuple.nodeId) verdict stored)
    (hanswer : answer = .returned verdict ∨ answer = .lost) :
    Remembered
      { state := (w.state.pop c.tuple.nonce).update c.tuple.nodeId stored
        consumed
        verdicts := w.verdicts ++ acceptedBy policy c w.state answer } := by
  rcases hjudged.quote with ⟨q, _, hcounters, hadmits, hstored⟩
  intro node
  dsimp only [World.boots]
  rw [nodes_update, filter_append, map_append]
  by_cases hnode : node = c.tuple.nodeId
  · rw [if_pos hnode, hstored]
    have hheld := (h c.tuple.nodeId).remember hadmits
    rw [← hnode] at hheld ⊢
    rcases hanswer with rfl | rfl
    · have hadded : ((acceptedBy policy c w.state (.returned verdict)).filter
          (fun a => a.verdict.node = node)).map Accepted.stamped =
          [(bootOf q c.tuple.sessionId c.tuple.ephemeralPublic).stamped] := by
        simp [acceptedBy, hjudged.names.1, ← hnode, Accepted.stamped, Accepted.counters, Boot.stamped,
          bootOf, hcounters]
      rw [hadded]
      exact hheld.report rfl
    · simp only [acceptedBy, filter_nil, map_nil, append_nil]
      exact hheld
  · rw [if_neg hnode]
    have hnone : (acceptedBy policy c w.state answer).filter (fun a => a.verdict.node = node) = [] := by
      rcases hanswer with rfl | rfl
      · have hne : ¬ verdict.node = node := fun heq => hnode (heq ▸ hjudged.names.1)
        simp [acceptedBy, hne]
      · rfl
    rw [hnone, map_nil, append_nil]
    exact h node

theorem step_remembered (move : Move) (h : Remembered w) : Remembered (w.step signs move) := by
  cases move with
  | challenge policy c save =>
    unfold World.step
    rcases challenge_cases policy c save w.state with heq | ⟨pending, heq⟩
    · exact h.of_memory (by rw [heq]; exact fun n => rfl)
    · exact h.of_memory (by rw [heq]; exact update_kept rfl)
  | enroll policy e popping storing =>
    unfold World.step
    rcases enroll_cases policy e popping storing w.state with heq | heq | ⟨p, _, _, heq⟩
    · exact h.of_memory (by rw [heq]; exact fun n => rfl)
    · exact h.of_memory (by rw [heq]; exact update_kept rfl)
    · exact h.of_memory (by rw [heq]; exact update_kept rfl)
  | nonce policy d save =>
    unfold World.step
    rcases nonce_cases policy d save w.state with heq | ⟨kept, i, _, _, heq⟩
    · exact h.of_memory (by rw [heq]; exact fun n => rfl)
    · exact h.of_memory (by rw [heq]; exact fun n => rfl)
  | verify policy c popping storing =>
    unfold World.step
    dsimp only
    rcases verify_cases signs policy c popping storing w.state with
      ⟨hstate, hanswer⟩ | ⟨expected, verdict, stored, _, hjudged, hstate, hanswer⟩
    · rw [acceptedBy_eq_nil hanswer, append_nil]
      rcases hstate with hstate | hstate
      · exact h.of_memory (by rw [hstate]; exact fun n => rfl)
      · exact h.of_memory (by rw [hstate]; exact fun n => rfl)
    · rw [hstate]
      exact h.judged hjudged hanswer

theorem run_remembered (moves : List Move) : Remembered (World.run signs moves) :=
  run_invariant (fun _ move h => step_remembered move h) moves
    (fun _ => Memory.Holds.nil [])

/-! ### Quotes -/

/-- A quote that a TPM made: with which endorsement and attestation key. -/
structure Made where
  ek : Bytes
  akName : Bytes
  quote : Bytes
  deriving DecidableEq

/-- The attestation keys that sit in a TPM, by their names and that of the
    endorsement key beside them, and the quotes made with them. -/
structure Tpms where
  residents : List (Bytes × Bytes)
  quotes : List Made

/-- A quote under a key that sits in a TPM was made by that TPM, and names the
    key under the endorsement key it sits with. -/
structure Honest (signs : Bytes → Bytes → Bytes → Bool) (tpms : Tpms) : Prop where
  unforged : ∀ akPublic name spki ek quote signature q, akIdentity akPublic = .ok (name, spki) →
    (ek, name) ∈ tpms.residents → signs spki quote signature = true → parseQuote quote = .ok q →
    ∃ made ∈ tpms.quotes, made.akName = name ∧ made.quote = quote
  own : ∀ made ∈ tpms.quotes, ∀ q, parseQuote made.quote = .ok q →
    q.qualifiedSigner = qualifiedName made.ek made.akName

/-- A secret comes back only from a TPM that holds the challenged key. -/
def Activates (tpms : Tpms) (w : World) : Move → Prop
  | .enroll _ e _ _ => ∀ p, (w.state.nodes e.node).pending = some p →
      Sha256.sum e.secret = p.secretSha256 → ∀ name spki, akIdentity p.akPublic = .ok (name, spki) →
      ∃ ek, (ek, name) ∈ tpms.residents
  | _ => True

/-- What is hashed for a name under an endorsement key. -/
def root (ek : Bytes) : Bytes := bigEndian 4 rhEndorsement ++ ek

def signerMessages (ek : Bytes) (made : Made) : List Bytes :=
  [root ek, root made.ek, named (root ek) ++ made.akName, named (root made.ek) ++ made.akName]

/-- What is hashed for a call. -/
def callMessages (tpms : Tpms) (policy : Policy) (c : Call) : List Bytes :=
  c.tuple.sessionId :: c.tuple.ephemeralPublic :: c.tuple.message ::
    (policy.lookup c.tuple.nodeId).toList.flatMap (fun expected =>
      tpms.quotes.flatMap (signerMessages (hexBytes expected.ekName)))

def Move.messages (tpms : Tpms) : Move → List Bytes
  | .verify policy c _ _ => callMessages tpms policy c
  | _ => []

variable {messages : List Bytes}

theorem named_injective {a b : Bytes}
    (hfree : Sha256.CollisionFree messages) (ha : a ∈ messages) (hb : b ∈ messages)
    (h : named a = named b) : a = b :=
  hfree a ha b hb (append_cancel_left h)

-- the name of a key under an endorsement key tells the endorsement key
theorem qualifiedName_injective {ek : Bytes} {made : Made}
    (hfree : Sha256.CollisionFree messages) (hmem : ∀ m ∈ signerMessages ek made, m ∈ messages)
    (h : qualifiedName ek made.akName = qualifiedName made.ek made.akName) : made.ek = ek := by
  have hnames : named (root ek) ++ made.akName = named (root made.ek) ++ made.akName :=
    named_injective hfree (hmem _ (by simp [signerMessages])) (hmem _ (by simp [signerMessages])) h
  have hroots : root ek = root made.ek :=
    named_injective hfree (hmem _ (by simp [signerMessages])) (hmem _ (by simp [signerMessages]))
      (append_cancel_right hnames)
  exact (append_cancel_left hroots).symm

/-- Every enrolled key sits in a TPM. -/
def Resident (tpms : Tpms) (w : World) : Prop :=
  ∀ node ak name spki, (w.state.nodes node).akPublic = some ak →
    akIdentity ak = .ok (name, spki) → ∃ ek, (ek, name) ∈ tpms.residents

/-- A verdict is for a quote of the TPM whose endorsement key the policy names,
    made for the tuple of the call. -/
structure Vouched (tpms : Tpms) (a : Accepted) : Prop where
  fits : a.call.tuple.Fits
  names : a.verdict.node = a.call.tuple.nodeId ∧ a.verdict.epoch = a.call.tuple.epoch ∧
    a.verdict.sessionId = a.call.tuple.sessionId
  quote : ∃ expected, ∃ made ∈ tpms.quotes, ∃ q,
    a.policy.lookup a.call.tuple.nodeId = some expected ∧ made.ek = hexBytes expected.ekName ∧
    made.akName = a.verdict.akName ∧ made.quote = a.call.quote ∧ parseQuote made.quote = .ok q ∧
    q.extraData = Sha256.sum a.call.tuple.message ∧ a.counters = toLex (q.resetCount, q.restartCount)

variable {tpms : Tpms}

theorem Resident.update (h : Resident tpms w)
    (hkeys : ∀ n, (state.nodes n).akPublic = (w.state.nodes n).akPublic) {consumed : List Nat}
    {verdicts : List Accepted} : Resident tpms ⟨state, consumed, verdicts⟩ := by
  intro node ak name spki hak
  exact h node ak name spki (hkeys node ▸ hak)

theorem step_resident (h : Resident tpms w) (hactivates : Activates tpms w move) :
    Resident tpms (w.step signs move) := by
  cases move with
  | challenge policy c save =>
    unfold World.step
    rcases challenge_cases policy c save w.state with heq | ⟨pending, heq⟩
    · exact h.update (by rw [heq]; exact fun n => rfl)
    · exact h.update (by rw [heq]; exact update_kept rfl)
  | enroll policy e popping storing =>
    unfold World.step
    rcases enroll_cases policy e popping storing w.state with heq | heq | ⟨p, hp, hsecret, heq⟩
    · exact h.update (by rw [heq]; exact fun n => rfl)
    · exact h.update (by rw [heq]; exact update_kept rfl)
    · intro node ak name spki hak hid
      dsimp only at hak
      rw [heq, nodes_update] at hak
      by_cases hnode : node = e.node
      · rw [if_pos hnode] at hak
        injection hak with hak
        exact hactivates p hp hsecret name spki (hak ▸ hid)
      · rw [if_neg hnode] at hak
        exact h node ak name spki hak hid
  | nonce policy d save =>
    unfold World.step
    rcases nonce_cases policy d save w.state with heq | ⟨kept, i, _, _, heq⟩
    · exact h.update (by rw [heq]; exact fun n => rfl)
    · exact h.update (by rw [heq]; exact fun n => rfl)
  | verify policy c popping storing =>
    unfold World.step
    rcases verify_cases signs policy c popping storing w.state with
      ⟨hstate | hstate, _⟩ | ⟨expected, verdict, stored, _, hjudged, hstate, _⟩
    · exact h.update (by rw [hstate]; exact fun n => rfl)
    · exact h.update (by rw [hstate]; exact fun n => rfl)
    · exact h.update (by rw [hstate]; exact update_kept hjudged.key)

theorem vouched_of_judged {policy : Policy} {c : Call} {expected : NodePolicy} {issued : Option Issued}
    {verdict : Verdict} {stored : Record} {number : Option Nat}
    (hhonest : Honest signs tpms) (hfree : Sha256.CollisionFree messages)
    (hmem : ∀ m ∈ callMessages tpms policy c, m ∈ messages) (hresident : Resident tpms w)
    (hcall : checkCall policy c = .ok expected)
    (hjudged : Judged signs expected c issued (w.state.nodes c.tuple.nodeId) verdict stored) :
    Vouched tpms ⟨policy, c, verdict, number⟩ := by
  rcases checkCall_eq_ok hcall with ⟨hlookup, hsession⟩
  rcases hjudged.quote with ⟨q, hshown, hcounters, _, _⟩
  rcases hshown.signed with ⟨ak, spki, hak, hid, hsigns⟩
  rcases hresident _ ak _ spki hak hid with ⟨ek, hek⟩
  rcases hhonest.unforged ak _ spki ek c.quote c.signature q hid hek hsigns hshown.parsed with
    ⟨made, hmade, hname, hquote⟩
  have hparsed : parseQuote made.quote = .ok q := hquote ▸ hshown.parsed
  -- the quote names its key under the policy's endorsement key and under its own
  have hsame : qualifiedName (hexBytes expected.ekName) made.akName =
      qualifiedName made.ek made.akName := by
    rw [hname, ← hshown.signer, hhonest.own made hmade q hparsed, hname]
  have hmessages : ∀ m ∈ signerMessages (hexBytes expected.ekName) made, m ∈ messages := by
    intro m hm
    refine hmem m (mem_cons_of_mem _ (mem_cons_of_mem _ (mem_cons_of_mem _ ?_)))
    rw [hlookup]
    exact mem_flatMap.mpr ⟨expected, by simp, mem_flatMap.mpr ⟨made, hmade, hm⟩⟩
  have hek : made.ek = hexBytes expected.ekName := qualifiedName_injective hfree hmessages hsame
  exact ⟨checkSession_eq_ok.mp ⟨hsession, hshown.binding⟩, hjudged.names, expected, made, hmade, q,
    hlookup, hek, hname, hquote, hparsed, hshown.data, congrArg toLex hcounters⟩

/-- What is known of the verdicts: each is for a call of the run, and vouched
    for. -/
def Attested (tpms : Tpms) (moves : List Move) (w : World) : Prop :=
  ∀ a ∈ w.verdicts, Vouched tpms a ∧
    ∃ popping storing, Move.verify a.policy a.call popping storing ∈ moves

theorem step_attested {moves : List Move} (hhonest : Honest signs tpms)
    (hfree : Sha256.CollisionFree messages)
    (hmem : ∀ move ∈ moves, ∀ m ∈ move.messages tpms, m ∈ messages) (hresident : Resident tpms w)
    (h : Attested tpms moves w) (hmove : move ∈ moves) :
    Attested tpms moves (w.step signs move) := by
  cases move with
  | challenge policy c save => exact h
  | enroll policy e popping storing => exact h
  | nonce policy d save => exact h
  | verify policy c popping storing =>
    unfold World.step
    intro a ha
    rcases mem_append.mp ha with ha | ha
    · exact h a ha
    · rcases verify_cases signs policy c popping storing w.state with
        ⟨_, hanswer⟩ | ⟨expected, verdict, stored, hcall, hjudged, _, hanswer⟩
      · rw [acceptedBy_eq_nil hanswer] at ha
        exact absurd ha not_mem_nil
      · rcases hanswer with hanswer | hanswer
        · rw [hanswer] at ha
          rw [mem_singleton.mp ha]
          exact ⟨vouched_of_judged hhonest hfree (hmem _ hmove) hresident hcall hjudged, popping,
            storing, hmove⟩
        · rw [hanswer] at ha
          exact absurd ha not_mem_nil

theorem run_vouched {moves : List Move} (hhonest : Honest signs tpms)
    (hactivates : Throughout (Activates tpms) (World.step signs) World.empty moves)
    (hfree : Sha256.CollisionFree messages)
    (hmem : ∀ move ∈ moves, ∀ m ∈ move.messages tpms, m ∈ messages) :
    Attested tpms moves (World.run signs moves) := by
  have hall := hactivates.mem (fun move h => h)
  refine (Throughout.invariant (P := fun w => Resident tpms w ∧ Attested tpms moves w) ?_ ?_ hall).2
  · intro w move h hok
    exact ⟨step_resident h.1 hok.1, step_attested hhonest hfree hmem h.1 h.2 hok.2⟩
  · exact ⟨fun _ _ _ _ hak => absurd hak nofun, fun _ ha => absurd ha not_mem_nil⟩

/-! ### The result -/

/-- Every nonce is taken once, by a verdict or not; every verdict is for a
    quote of the policy's TPM over its tuple and no other; and the boots of a
    node never go back, with one session and one key each. -/
theorem one_boot_one_session (tpms : Tpms) (moves : List Move) (others : List Tuple)
    (hhonest : Honest signs tpms)
    (hactivates : Throughout (Activates tpms) (World.step signs) World.empty moves)
    (hfree : Sha256.CollisionFree
      (moves.flatMap (Move.messages tpms) ++ others.map Tuple.message)) :
    let w := World.run signs moves
    w.consumed.Nodup ∧
    (∀ a ∈ w.verdicts, ∃ n ∈ w.consumed, a.number = some n) ∧
    (w.verdicts.map Accepted.number).Nodup ∧
    (∀ a ∈ w.verdicts, ∃ expected, ∃ made ∈ tpms.quotes, ∃ q,
      a.policy.lookup a.verdict.node = some expected ∧ made.ek = hexBytes expected.ekName ∧
      made.quote = a.call.quote ∧ parseQuote made.quote = .ok q ∧
      q.extraData = Sha256.sum a.call.tuple.message ∧
      a.counters = toLex (q.resetCount, q.restartCount) ∧
      ∀ t ∈ others, t.Fits → q.extraData = Sha256.sum t.message → t = a.call.tuple) ∧
    w.verdicts.Pairwise (fun a b => a.verdict.node = b.verdict.node →
      a.counters ≤ b.counters ∧
      (a.counters = b.counters → a.call.tuple.sessionId = b.call.tuple.sessionId ∧
        a.call.tuple.ephemeralPublic = b.call.tuple.ephemeralPublic) ∧
      (a.counters ≠ b.counters → a.call.tuple.sessionId ≠ b.call.tuple.sessionId ∧
        a.call.tuple.ephemeralPublic ≠ b.call.tuple.ephemeralPublic)) := by
  intro w
  have hmem : ∀ move ∈ moves, ∀ m ∈ move.messages tpms,
      m ∈ moves.flatMap (Move.messages tpms) ++ others.map Tuple.message :=
    fun move hmove m hm => mem_append_left _ (mem_flatMap.mpr ⟨move, hmove, hm⟩)
  have hnumbered : Numbered w := run_numbered moves
  have hvouched : Attested tpms moves w := run_vouched hhonest hactivates hfree hmem
  -- the hashed parts of a verdict's call
  have hcall : ∀ a ∈ w.verdicts, ∀ m ∈ [a.call.tuple.sessionId, a.call.tuple.ephemeralPublic,
      a.call.tuple.message], m ∈ moves.flatMap (Move.messages tpms) ++ others.map Tuple.message := by
    intro a ha m hm
    rcases (hvouched a ha).2 with ⟨popping, storing, hmove⟩
    refine hmem _ hmove m ?_
    simp only [Move.messages, callMessages, mem_cons, not_mem_nil, or_false] at hm ⊢
    rcases hm with hm | hm | hm
    · exact .inl hm
    · exact .inr (.inl hm)
    · exact .inr (.inr (.inl hm))
  refine ⟨(nodup_append.mp hnumbered.nodup).1, hnumbered.taken, hnumbered.each, ?_, ?_⟩
  · intro a ha
    rcases (hvouched a ha).1 with ⟨hfits, hnames, expected, made, hmade, q, hlookup, hek, _, hquote,
      hparsed, hdata, hcounters⟩
    refine ⟨expected, made, hmade, q, hnames.1 ▸ hlookup, hek, hquote, hparsed, hdata, hcounters, ?_⟩
    intro t ht htfits htdata
    refine Tuple.message_injective htfits hfits ?_
    refine hfree _ (mem_append_right _ (mem_map_of_mem ht)) _ (hcall a ha _ (by simp)) ?_
    rw [← htdata, hdata]
  · have hapart : w.verdicts.Pairwise (fun a b => a.verdict.node = b.verdict.node →
        Apart a.stamped b.stamped) := by
      rw [pairwise_iff_forall_sublist]
      intro a b hsub hnode
      have hfiltered : [a, b].Sublist (w.verdicts.filter (fun x => x.verdict.node = b.verdict.node)) := by
        have := hsub.filter (fun x => decide (x.verdict.node = b.verdict.node))
        simpa [hnode] using this
      exact pairwise_iff_forall_sublist.mp (run_remembered moves b.verdict.node).apart
        (hfiltered.map Accepted.stamped)
    refine hapart.imp_of_mem ?_
    intro a b ha hb hab hnode
    rcases hab hnode with ⟨hgrows, hone, hfresh⟩
    refine ⟨hgrows, fun hsame => ?_, fun hne => ?_⟩
    · rcases hone hsame with ⟨hsession, hkey⟩
      exact ⟨hfree _ (hcall a ha _ (by simp)) _ (hcall b hb _ (by simp)) hsession,
        hfree _ (hcall a ha _ (by simp)) _ (hcall b hb _ (by simp)) hkey⟩
    · rcases hfresh hne with ⟨hsession, hkey⟩
      exact ⟨fun heq => hsession (congrArg Sha256.sum heq), fun heq => hkey (congrArg Sha256.sum heq)⟩

/-! ### A node that boots twice -/

def exampleAkArea : Bytes :=
  bigEndian 2 algEcc ++ bigEndian 2 algSha256 ++ bigEndian 4 akAttributes ++ bigEndian 2 0 ++
    bigEndian 2 algNull ++ bigEndian 2 algEcdsa ++ bigEndian 2 algSha256 ++ bigEndian 2 curveP256 ++
    bigEndian 2 algNull ++ (bigEndian 2 32 ++ replicate 32 1) ++
    (bigEndian 2 32 ++ replicate 32 2)

def exampleAkPublic : Bytes := bigEndian 2 exampleAkArea.length ++ exampleAkArea

def exampleEkArea : Bytes := [7]

def exampleEkPublic : Bytes := bigEndian 2 1 ++ exampleEkArea

def examplePcr : String := String.ofList (replicate 64 '0')

def exampleFirmware : String := String.ofList (replicate 16 '0')

def exampleSet : MeasurementSet := ⟨"one", exampleFirmware, [(0, examplePcr)], none⟩

def examplePolicy : Policy := [("a", ⟨hexString (nameOf exampleEkArea), [exampleSet]⟩)]

/-- What a node asks with in its first or second boot. -/
def exampleTuple (boot : UInt8) : Tuple where
  nodeId := "a"
  epoch := 1
  sessionId := replicate 32 boot
  ephemeralPublic := [boot]
  nonce := replicate 32 boot
  binding := none

def exampleQuote (boot : UInt8) : Bytes :=
  bigEndian 4 tpmGenerated ++ bigEndian 2 stAttestQuote ++
    (bigEndian 2 34 ++ qualifiedName (nameOf exampleEkArea) (nameOf exampleAkArea)) ++
    (bigEndian 2 32 ++ Sha256.sum (exampleTuple boot).message) ++ bigEndian 8 0 ++
    bigEndian 4 boot.toNat ++ bigEndian 4 0 ++ [1] ++ bigEndian 8 0 ++ bigEndian 4 1 ++
    bigEndian 2 algSha256 ++ [3, 1, 0, 0] ++
    (bigEndian 2 32 ++ expectedPcrDigest [(0, examplePcr)])

def exampleMade (boot : UInt8) : Made :=
  ⟨nameOf exampleEkArea, nameOf exampleAkArea, exampleQuote boot⟩

def exampleTpms : Tpms :=
  ⟨[(nameOf exampleEkArea, nameOf exampleAkArea)], [exampleMade 1, exampleMade 2]⟩

def exampleSigns (_ quote _ : Bytes) : Bool := quote = exampleQuote 1 ∨ quote = exampleQuote 2

def exampleVerify (boot : UInt8) : Move :=
  .verify examplePolicy ⟨exampleTuple boot, exampleQuote boot, [], none, none, 0⟩ .done .done

def exampleDraw (boot : UInt8) : Move :=
  .nonce examplePolicy ⟨"a", (exampleTuple boot).nonce, 0⟩ .done

def exampleMoves : List Move :=
  [.challenge examplePolicy ⟨"a", exampleEkPublic, exampleAkPublic, false, none, [3], true, 0⟩ .done,
    .enroll examplePolicy ⟨"a", [3], none, 0⟩ .done .done,
    exampleDraw 1, exampleVerify 1, exampleDraw 2, exampleVerify 2]

/-- What is hashed, once each. -/
def exampleMessages : List Bytes :=
  [1, 2].flatMap (fun boot => [(exampleTuple boot).sessionId, (exampleTuple boot).ephemeralPublic,
    (exampleTuple boot).message]) ++
  [root (nameOf exampleEkArea), named (root (nameOf exampleEkArea)) ++ nameOf exampleAkArea]

/-- What has to be hashed to know it: the name in the key, the signer in the
    quotes, the pending challenge and the verdicts of the run. -/
theorem exampleMoves_evaluated :
    (akIdentity exampleAkPublic).toOption.map Prod.fst = some (nameOf exampleAkArea) ∧
    (∀ boot ∈ [(1 : UInt8), 2],
      ((parseQuote (exampleQuote boot)).toOption.map Quote.qualifiedSigner) =
        some (qualifiedName (nameOf exampleEkArea) (nameOf exampleAkArea))) ∧
    ((World.run exampleSigns (exampleMoves.take 1)).state.nodes "a").pending =
      some ⟨exampleAkPublic, Sha256.sum [3], 120⟩ ∧
    Sha256.CollisionFree exampleMessages ∧
    (exampleMoves.flatMap (Move.messages exampleTpms) ++ [exampleTuple 1].map Tuple.message) ⊆
      exampleMessages ∧
    (World.run exampleSigns exampleMoves).verdicts.map Accepted.number = [some 1, some 2] := by
  decide +kernel

theorem honest_example : Honest exampleSigns exampleTpms where
  unforged := by
    intro akPublic name spki ek quote signature q _ hresident hsigns _
    have hname : name = nameOf exampleAkArea := by
      simp only [exampleTpms, mem_singleton, Prod.mk.injEq] at hresident
      exact hresident.2
    rcases of_decide_eq_true hsigns with hquote | hquote
    · exact ⟨exampleMade 1, by simp [exampleTpms], hname.symm, hquote.symm⟩
    · exact ⟨exampleMade 2, by simp [exampleTpms], hname.symm, hquote.symm⟩
  own := by
    intro made hmade q hparsed
    rcases (show ∃ boot ∈ [(1 : UInt8), 2], exampleMade boot = made from mem_map.mp hmade) with
      ⟨boot, hboot, rfl⟩
    have hsigner := exampleMoves_evaluated.2.1 boot hboot
    rw [show parseQuote (exampleQuote boot) = .ok q from hparsed] at hsigner
    exact Option.some.inj hsigner

theorem activates_example :
    Throughout (Activates exampleTpms) (World.step exampleSigns) World.empty exampleMoves := by
  refine ⟨trivial, ?_, trivial, trivial, trivial, trivial, trivial⟩
  intro p hp _ name spki hid
  have hpending := exampleMoves_evaluated.2.2.1.symm.trans hp
  injection hpending with hpending
  rw [← hpending] at hid
  have hname := exampleMoves_evaluated.1
  rw [show akIdentity exampleAkPublic = .ok (name, spki) from hid] at hname
  have hname : name = nameOf exampleAkArea := Option.some.inj hname
  exact ⟨nameOf exampleEkArea, by simp [exampleTpms, hname]⟩

theorem collisionFree_example : Sha256.CollisionFree
    (exampleMoves.flatMap (Move.messages exampleTpms) ++ [exampleTuple 1].map Tuple.message) := by
  rcases exampleMoves_evaluated with ⟨_, _, _, hfree, hsubset, _⟩
  exact hfree.subset hsubset

/-- Both boots are accepted, each with the nonce it was issued. -/
theorem one_boot_one_session_twice :
    (World.run exampleSigns exampleMoves).verdicts.map Accepted.number = [some 1, some 2] ∧
      (World.run exampleSigns exampleMoves).verdicts.Pairwise
        (fun a b => a.verdict.node = b.verdict.node → a.counters ≤ b.counters) := by
  refine ⟨exampleMoves_evaluated.2.2.2.2.2, ?_⟩
  have hresult := one_boot_one_session exampleTpms exampleMoves [exampleTuple 1] honest_example
    activates_example collisionFree_example
  exact hresult.2.2.2.2.imp (fun h hnode => (h hnode).1)

end Regalia.Attest
