import Regalia.Core.Coordinator.Node
import Regalia.Data.Runs
import Regalia.Theory.Approval.Counting
import Regalia.Theory.Coordinator.Release
import Regalia.Theory.Policy.Ledger

/-!
# Spending an Approval

Whether an approver's signature can be counted for two requests that the
policy allowed. What an approver signs names an object, a purpose, an
environment, a nonce, an expiry, a payload and a node. What the policy state
remembers is a policy, an object, a principal and a nonce. A request that
repeats the first tuple under another principal, or under another policy, is
new to the policy state and brings the signatures along.

A run that never does this spends every signature once. The canonical bytes
determine the object and the nonce, so two requests that share a signature
have one identity in the journal, and a journal holds an identity once.

## Main definitions

* `OneMessage`: A signature holds for one message only.
* `Grant.identity`: What the policy state remembers of a grant.
* `Node.Proper`: A move that gives no bound approval to another identity.
* `Node.Spent`: What every such move preserves.

## Theorems

* `evaluate_allowed`: An allowed request is committed under its identity.
* `spent_step`: A proper move keeps the invariant.
* `signatures_spent_once`: In a proper run no signature is counted twice.
-/

namespace Regalia

open List
open GoString (ofText)

namespace Approval

/-! ### What is counted -/

/-- Among these keys a signature holds for one message only. -/
def OneMessage (lib : Library) (honest : List UInt8 → Prop) : Prop :=
  ∀ key key' message message' signature, honest key → honest key' →
    lib.verify key message signature = true → lib.verify key' message' signature = true →
    message = message'

end Approval

namespace Operations

/-! ### One call -/

/-- What the policy is asked is about the request. -/
theorem prepare_request {c : Coordinator} {r : Request} {route : Route} {asked : Policy.Request}
    (h : c.prepare r route = .ok asked) :
    asked.objectID = r.objectID ∧ asked.principal = r.principal ∧
      asked.nonce = r.context.nonce ∧ asked.operation = r.operation := by
  unfold Coordinator.prepare at h
  split at h
  · cases h
  simp only at h
  split at h
  · split at h
    · cases h
    · cases h
      exact ⟨rfl, rfl, rfl, rfl⟩
  · cases h
    exact ⟨rfl, rfl, rfl, rfl⟩

/-- The decision is the last thing of a call that touches the policy state,
    and it does so by one reservation at most. -/
theorem evaluate_world (engine : Policy.Engine) (now : GoTime) (epoch : UInt64)
    (fault : Option Policy.Fault) (w : Policy.World) (asked : Policy.Request) :
    (engine.evaluate now epoch fault w asked).2 = w ∨
      ∃ r, (engine.evaluate now epoch fault w asked).2 = (w.step (.reserve r fault)).1 := by
  unfold Policy.Engine.evaluate
  split
  · exact .inl rfl
  split
  · exact .inl rfl
  · rename_i policy _ _ amounts _
    refine .inr ⟨policy.reservation now epoch asked amounts, ?_⟩
    dsimp only
    split
    · rfl
    · rfl

/-- An allowed request is in the journal, under the policy found for it. -/
theorem evaluate_allowed {engine : Policy.Engine} {now : GoTime} {epoch : UInt64}
    {fault : Option Policy.Fault} {w : Policy.World} {asked : Policy.Request}
    {decision : Policy.Decision} (hopen : w.handle.isSome = true)
    (h : (engine.evaluate now epoch fault w asked).1 = some decision)
    (hallowed : decision.allowed = true) :
    ∃ policy reservation, engine.find asked.objectID asked.operation = some policy ∧
      decision.policyID = policy.id ∧
      reservation.identity = (policy.id, asked.objectID, asked.principal, asked.nonce) ∧
      (engine.evaluate now epoch fault w asked).2.committed = w.committed ++ [reservation] := by
  unfold Policy.Engine.evaluate at h ⊢
  split at h
  · cases h
    cases hallowed
  rename_i policy hfind
  split at h
  · cases h
    cases hallowed
  rename_i amounts hcheck
  dsimp only at h ⊢
  split at h
  · rename_i err hreturns
    cases h
    have herr : err = none := by
      cases err with
      | none => rfl
      | some err => cases err <;> cases hallowed
    subst herr
    refine ⟨policy, policy.reservation now epoch asked amounts, hfind, rfl, rfl, ?_⟩
    exact Policy.committed_of_reserved w _ fault hopen hreturns
  · cases h

/-! ### Runs -/

/-- What the policy state remembers of a grant. -/
def Grant.identity (g : Grant) : GoString × GoString × GoString × GoString :=
  (g.policyID, g.request.objectID, g.request.principal, g.request.context.nonce)

/-- What an approval for a request is bound to on the node. -/
def Node.binding (node : Node) (r : Request) : Approval.Binding where
  objectID := r.objectID
  purpose := r.context.purpose
  environment := r.context.environment
  nonce := r.context.nonce
  expiresAt := r.context.expiresAt
  payload := approvalPayload r
  signer := node.nodeID

/-- A process starts with honest keys, and a request that repeats what was
    signed for a granted one is made by its principal and falls under its
    policy. -/
def Node.Proper (node : Node) (honest : List UInt8 → Prop) (s : NodeState) : NodeMove → Prop
  | .start process _ =>
    ∀ set id key, process.approvers = some set → set.keys id = some key → honest key
  | .execute _ _ _ _ r =>
    ∀ process, s.process = some process → ∀ g ∈ s.grants,
      (node.binding g.request).canonicalBytes = (node.binding r).canonicalBytes →
      g.request.principal = r.principal ∧
        (process.engine.find r.objectID r.operation).map Policy.Rules.id = some g.policyID
  | .close => True
  | .kill => True

/-- What every proper move preserves: the grants are in the journal in their
    order, what was signed determines the identity, and a counted approval
    carries an honest key's signature. -/
structure Node.Spent (node : Node) (honest : List UInt8 → Prop) (s : NodeState) : Prop where
  reached : ∃ ops, s.world = Policy.World.run {} ops
  keys : ∀ process set id key, s.process = some process → process.approvers = some set →
    set.keys id = some key → honest key
  committed : (s.grants.map Grant.identity).Sublist (s.world.committed.map Policy.Reservation.identity)
  bound : s.grants.Pairwise (fun g g' =>
    (node.binding g.request).canonicalBytes = (node.binding g'.request).canonicalBytes →
    g.identity = g'.identity)
  signed : ∀ g ∈ s.grants, ∀ e ∈ g.counted, ∃ key signature, honest key ∧
    node.library.decodeSignature e.signature = some signature ∧
    node.library.verify key (node.binding g.request).canonicalBytes signature = true

section Steps

variable {node : Node} {honest : List UInt8 → Prop} {s : NodeState}

theorem spent_init : node.Spent honest {} where
  reached := ⟨[], rfl⟩
  keys := by
    intro process set id key h
    cases h
  committed := List.Sublist.refl _
  bound := List.Pairwise.nil
  signed := by
    intro g hg
    cases hg

/-- A move of the policy state alone keeps the invariant, for a journal only
    grows. -/
theorem spent_world (h : node.Spent honest s) (op : Policy.Op) :
    node.Spent honest { s with world := (s.world.step op).1 } where
  reached := by
    rcases h.reached with ⟨ops, hops⟩
    exact ⟨ops ++ [op], by rw [Policy.run_append, ← hops]⟩
  keys := h.keys
  committed := by
    rcases Policy.step_journal s.world op with ⟨added, hadded⟩
    have hlonger : (s.world.step op).1.committed =
        s.world.committed ++ added.map Policy.StateEvent.reservation := by
      simp only [Policy.World.committed, hadded, map_append]
    rw [hlonger, map_append]
    exact h.committed.trans (sublist_append_left _ _)
  bound := h.bound
  signed := h.signed

theorem decide_world (node : Node) (process : Process) (answers : Coordinator) (now : GoTime)
    (epoch : UInt64) (fault : Option Policy.Fault) (w : Policy.World) (r : Request) :
    (node.decide process answers now epoch fault w r).2 = w ∨
      ∃ reservation, (node.decide process answers now epoch fault w r).2 =
        (w.step (.reserve reservation fault)).1 := by
  unfold Node.decide
  split
  · exact .inl rfl
  · exact evaluate_world _ _ _ _ _ _

/-- A call leaves the policy state in a world the invariant holds of. -/
theorem spent_decide (h : node.Spent honest s) (process : Process) (answers : Coordinator)
    (now : GoTime) (epoch : UInt64) (fault : Option Policy.Fault) (r : Request) :
    node.Spent honest
      { s with world := (node.decide process answers now epoch fault s.world r).2 } := by
  rcases decide_world node process answers now epoch fault s.world r with
    hsame | ⟨reservation, hreserved⟩
  · rw [hsame]
    exact h
  · rw [hreserved]
    exact spent_world h _

/-- A call that is allowed commits the request under the policy found for
    it. -/
theorem decide_allowed {process : Process} {answers : Coordinator} {now : GoTime} {epoch : UInt64}
    {fault : Option Policy.Fault} {w : Policy.World} {r : Request} {decision : Policy.Decision}
    (hopen : w.handle.isSome = true)
    (h : (node.decide process answers now epoch fault w r).1 = some decision)
    (hallowed : decision.allowed = true) :
    (process.engine.find r.objectID r.operation).map Policy.Rules.id = some decision.policyID ∧
      ∃ reservation, reservation.identity =
          (decision.policyID, r.objectID, r.principal, r.context.nonce) ∧
        (node.decide process answers now epoch fault w r).2.committed =
          w.committed ++ [reservation] := by
  unfold Node.decide at h ⊢
  split at h
  · cases h
  rename_i route asked hcheck
  have hprepared := (check_ok (Prod.ext rfl hcheck :
    (node.coordinator process answers).check r = (_, .ok (route, asked)))).2.2.2
  rcases prepare_request hprepared with ⟨hobject, hprincipal, hnonce, hoperation⟩
  rcases evaluate_allowed hopen h hallowed with ⟨policy, reservation, hfind, hid, hidentity, hcommitted⟩
  rw [hobject, hoperation] at hfind
  rw [hobject, hprincipal, hnonce, ← hid] at hidentity
  refine ⟨?_, reservation, hidentity, hcommitted⟩
  rw [hfind, hid]
  rfl

/-- Granting a request that the call has committed. -/
theorem spent_grant (h : node.Spent honest s) {process : Process} {answers : Coordinator}
    {now : GoTime} {epoch : UInt64} {fault : Option Policy.Fault} {r : Request}
    {decision : Policy.Decision} (hprocess : s.process = some process)
    (hopen : s.world.handle.isSome = true)
    (hproper : node.Proper honest s (.execute answers now epoch fault r))
    (hdecided : (node.decide process answers now epoch fault s.world r).1 = some decision)
    (hallowed : decision.allowed = true) :
    node.Spent honest
      { s with
          world := (node.decide process answers now epoch fault s.world r).2
          grants := s.grants ++
            [⟨r, decision.policyID, (node.coordinator process answers).counted r⟩] } where
  reached := (spent_decide h process answers now epoch fault r).reached
  keys := h.keys
  committed := by
    rcases (decide_allowed hopen hdecided hallowed).2 with ⟨reservation, hidentity, hcommitted⟩
    simp only [hcommitted, map_append, map_cons, map_nil, hidentity]
    exact h.committed.append (List.Sublist.refl _)
  bound := by
    refine pairwise_snoc h.bound (fun g hg hbytes => ?_)
    rcases hproper process hprocess g hg hbytes with ⟨hprincipal, hpolicy⟩
    rw [(decide_allowed hopen hdecided hallowed).1] at hpolicy
    obtain ⟨hobject, -, -, hnonce, -⟩ := Approval.canonicalBytes_fields hbytes
    simp only [Node.binding] at hobject hnonce
    simp only [Grant.identity, Option.some.inj hpolicy, hobject, hprincipal, hnonce]
  signed := by
    refine forall_mem_snoc h.signed (fun e he => ?_)
    rcases Approval.signature_of_counted he with
      ⟨set, key, signature, hset, hkey, hdecoded, hverified⟩
    exact ⟨key, signature, h.keys process set _ key hprocess hset hkey, hdecoded, hverified⟩

theorem spent_step (s : NodeState) (move : NodeMove) (h : node.Spent honest s)
    (hproper : node.Proper honest s move) : node.Spent honest (node.step s move) := by
  cases move with
  | start process fault =>
    have hworld := spent_world h (.openState fault)
    simp only [Node.step]
    split
    · refine { hworld with keys := ?_ }
      intro process' set id key hprocess
      cases hprocess
      exact hproper set id key
    · exact hworld
  | execute answers now epoch fault r =>
    simp only [Node.step]
    split
    · rename_i process handle hprocess hhandle
      have hopen : s.world.handle.isSome = true := by rw [hhandle]; rfl
      split
      · rename_i decision hdecided
        by_cases hallowed : decision.allowed = true
        · rw [if_pos hallowed]
          exact spent_grant h hprocess hopen hproper hdecided hallowed
        · rw [if_neg hallowed]
          exact spent_decide h process answers now epoch fault r
      · exact spent_decide h process answers now epoch fault r
    · exact h
  | close => exact spent_world h .close
  | kill =>
    refine { spent_world h .kill with keys := ?_ }
    intro process set id key hprocess
    cases hprocess

/-- Under the invariant and a journal that holds an identity once, no two
    grants share a signature. -/
theorem Node.Spent.signatures (h : node.Spent honest s)
    (hone : Approval.OneMessage node.library honest)
    (honce : (s.world.committed.map Policy.Reservation.identity).Nodup) :
    s.grants.Pairwise (fun g g' => ∀ e ∈ g.counted, ∀ e' ∈ g'.counted,
      node.library.decodeSignature e.signature ≠ node.library.decodeSignature e'.signature) := by
  have hdistinct : s.grants.Pairwise (fun g g' => g.identity ≠ g'.identity) :=
    pairwise_map.mp (h.committed.nodup honce)
  refine (List.Pairwise.and_mem.mp (h.bound.and hdistinct)).imp ?_
  rintro g g' ⟨hg, hg', hbound, hidentity⟩ e he e' he' hshared
  rcases h.signed g hg e he with ⟨key, signature, hkey, hdecoded, hverified⟩
  rcases h.signed g' hg' e' he' with ⟨key', signature', hkey', hdecoded', hverified'⟩
  rw [hdecoded, hdecoded'] at hshared
  cases hshared
  exact hidentity (hbound (hone key key' _ _ _ hkey hkey' hverified hverified'))

end Steps

/-- In every run whose moves are proper, no signature is among those counted
    for two grants. -/
theorem signatures_spent_once (node : Node) (honest : List UInt8 → Prop) (moves : List NodeMove)
    (hone : Approval.OneMessage node.library honest)
    (htells : ∀ e ∈ (node.run moves).world.disk.journal, Policy.HashTells e)
    (hproper : Throughout (node.Proper honest) node.step {} moves) :
    (node.run moves).grants.Pairwise (fun g g' => ∀ e ∈ g.counted, ∀ e' ∈ g'.counted,
      node.library.decodeSignature e.signature ≠ node.library.decodeSignature e'.signature) := by
  have hspent : node.Spent honest (node.run moves) :=
    hproper.invariant spent_step spent_init
  rcases hspent.reached with ⟨ops, hops⟩
  have hledger := (Policy.run_inv ops (hops ▸ htells)).ledger
  rw [← hops] at hledger
  exact hspent.signatures hone hledger.noncesOnce

/-! ### An approval that is spent twice -/

/-- The first second of 2026. -/
def newYear : GoTime := { GoTime.zero with unix := 1767225600 }

/-- A request to sign one byte, with an approval of Carol's. -/
def signRequest (principal : String) : Request where
  requestID := ofText "r"
  principal := ofText principal
  objectID := ofText "o"
  operation := ofText "sign"
  context := ⟨ofText "pay", ofText "prod", ofText "nonce-aaaaaaaaaa",
    { newYear with unix := newYear.unix + 60 }, []⟩
  data := [1]
  approvals := ofText "approvals"

def carolApproval : Approval.Evidence where
  approverID := ofText "carol"
  nonce := ofText "nonce-aaaaaaaaaa"
  expiresAt := []
  payloadDigest := (Node.binding ⟨[], ⟨fun _ => none, fun _ => none, fun _ => none,
    fun _ _ _ => false⟩⟩ (signRequest "alice")).payloadDigest
  signature := ofText "signature"

/-- A node that takes Carol's signature for what Alice's request is bound
    to, and for nothing else. -/
def approvingNode : Node where
  nodeID := ofText "node-1"
  library :=
    { decodeHeader := fun _ => some [carolApproval]
      parseTime := fun _ => some GoTime.zero
      decodeSignature := fun _ => some (List.replicate 64 7)
      verify := fun _ message _ =>
        message = (Approval.Binding.mk (ofText "o") (ofText "pay")
          (ofText "prod") (ofText "nonce-aaaaaaaaaa")
          { newYear with unix := newYear.unix + 60 } [1] (ofText "node-1")).canonicalBytes }

/-- One policy that wants one approval of Carol. -/
def dualControl : Process where
  engine :=
    { policies := [{ id := ofText "p", objectID := ofText "o",
                     purpose := ofText "pay", environment := ofText "prod",
                     operation := ofText "sign", algorithm := ofText "ed25519",
                     contentTypes := [dataKeyContentType], maxPayloadBytes := 10,
                     maxFuture := 10 ^ 12, requiredApprovals := 1,
                     approvers := [ofText "carol"] }]
      ids := nodup_singleton _
      keys := nodup_singleton _ }
  approvers := some ⟨fun id => if id = ofText "carol" then some [9] else none⟩

/-- Dependencies that all say yes. -/
def signingAnswers : Coordinator :=
  { willing with route := fun _ _ _ => .ok ⟨ofText "ed25519", ofText "card-1", 0⟩ }

def signs (principal : String) : NodeMove :=
  .execute signingAnswers newYear 0 none (signRequest principal)

/-- Alice's request is granted once, and repeated it is refused. -/
theorem signatures_spent_once_repeated :
    (approvingNode.run [.start dualControl none, signs "alice", signs "alice"]).grants.map
        (fun g => (g.request.principal, g.counted)) =
      [(ofText "alice", [carolApproval])] ∧
    (approvingNode.run [.start dualControl none, signs "alice", signs "alice"]).grants.Pairwise
      (fun g g' => ∀ e ∈ g.counted, ∀ e' ∈ g'.counted,
        approvingNode.library.decodeSignature e.signature ≠
          approvingNode.library.decodeSignature e'.signature) := by
  have heval : (∀ e ∈ (approvingNode.run
        [.start dualControl none, signs "alice", signs "alice"]).world.disk.journal,
        (Policy.StateEvent.decode (e.encode.getD [])).toOption = some e) ∧
      (approvingNode.run [.start dualControl none, signs "alice", signs "alice"]).grants.map
        (fun g => (g.request.principal, g.counted)) =
      [(ofText "alice", [carolApproval])] := by
    decide +kernel
  have hfirst : (∀ g ∈ (approvingNode.run [.start dualControl none, signs "alice"]).grants,
        g.request.principal = ofText "alice" ∧ g.policyID = ofText "p") ∧
      (approvingNode.run [.start dualControl none, signs "alice"]).process.map
        (fun process => (process.engine.find (ofText "o") (ofText "sign")).map
          Policy.Rules.id) = some (some (ofText "p")) := by
    decide +kernel
  refine ⟨heval.2, signatures_spent_once approvingNode (fun _ => True) _ ?_ ?_ ⟨?_, ?_, ?_, trivial⟩⟩
  · intro key key' message message' signature _ _ hverified hverified'
    exact (of_decide_eq_true hverified).trans (of_decide_eq_true hverified').symm
  · exact fun e he => Policy.hashTells_of_decode e (heval.1 e he)
  · exact fun _ _ _ _ _ => trivial
  · intro process _ g hg
    cases hg
  · intro process hprocess g hg _
    rcases hfirst.1 g hg with ⟨hprincipal, hpolicy⟩
    have hfound := hfirst.2
    rw [show (approvingNode.run [.start dualControl none, signs "alice"]).process = some process
      from hprocess] at hfound
    rw [hpolicy]
    exact ⟨hprincipal, Option.some.inj hfound⟩

/-- Bob repeats Alice's request with the approval she was given, and Carol's
    one signature is counted for both. -/
theorem approval_spent_twice :
    (approvingNode.run [.start dualControl none, signs "alice", signs "bob"]).grants.map
        (fun g => (g.request.principal, g.counted)) =
      [(ofText "alice", [carolApproval]), (ofText "bob", [carolApproval])] := by
  decide +kernel

end Operations

end Regalia
