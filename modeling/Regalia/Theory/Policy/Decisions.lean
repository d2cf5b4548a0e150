import Regalia.Theory.Policy.Caps

/-!
# What the Engine Allows and What It Asks

A request is looked up under its object and its operation joined by a zero
byte, so two pairs may share a key when their strings hold zero bytes. The
check that the policy's operation is the request's own settles it: with the key
and the operation equal, the object is too. So the policy that answers is the
one policy of the list with the request's object and operation.

All other checks come before the state is asked, and nothing after it can
deny: the state is asked once when they all hold, and otherwise never.

## Main definitions

* `governing`: The policies with the request's object and operation.
* `Rules.Permits`: What a policy demands of a request.
* `Request.Answerable`: What is demanded of every request.

## Theorems

* `find_of_governing`, `governing_of_find`: The lookup, apart from shared keys.
* `check_forms`: The checks, as a condition on the request.
* `evaluate_asks_once`: Only a permitted request is allowed; the state is asked
  exactly once for it, and not otherwise.
* `unanswerable_never_asked`: A permitted request without a principal is denied
  unasked.
-/

namespace Regalia.Policy

open List
open GoString (ofText)

/-- The policies of a list for the object and the operation of a request. -/
def governing (policies : List Rules) (request : Request) : List Rules :=
  policies.filter (fun p => p.objectID = request.objectID && p.operation = request.operation)

/-- The coins a request moves: none without a transaction. -/
def Request.moved (request : Request) : List Coin :=
  match request.cosmos with
  | some t => t.moved
  | none => []

/-- The request meets every dimension of the policy. -/
structure Rules.Permits (policy : Rules) (now : GoTime) (request : Request) : Prop where
  purpose : request.purpose = policy.purpose
  environment : request.environment = policy.environment
  operation : request.operation = policy.operation
  algorithm : request.algorithm = policy.algorithm
  content : request.contentType ∈ policy.contentTypes
  payload : 0 ≤ request.payloadBytes ∧ request.payloadBytes ≤ policy.maxPayloadBytes
  expiry : now.nanoseconds < request.expiresAt.nanoseconds ∧
    request.expiresAt.nanoseconds ≤ now.nanoseconds + policy.maxFuture
  approvals : policy.requiredApprovals ≤
    (policy.approvers.toFinset ∩ request.verifiedApprovers.toFinset).card
  cosmos : ∀ c, policy.cosmos = some c → ∀ rule ∈ cosmosRules, ¬ c.Violates request.cosmos rule

/-- The request says who asks and under which nonce, and brings a transaction
    only to a policy for transactions. -/
structure Request.Answerable (request : Request) (policy : Rules) : Prop where
  principal : request.principal ≠ []
  requestID : request.requestID ≠ []
  nonce : matchesNoncePattern request.nonce = true
  domain : policy.cosmos = none → request.cosmos = none

/-! ### The lookup -/

variable {policy : Rules}

theorem find_mem {engine : Engine} {objectID operation : GoString}
    (h : engine.find objectID operation = some policy) :
    policy ∈ engine.policies ∧
      policyKey policy.objectID policy.operation = policyKey objectID operation :=
  ⟨mem_of_find?_eq_some h, by simpa using find?_some h⟩

/-- A policy under the key of a request, with its operation, has its object. -/
theorem objectID_of_key {objectID : GoString}
    (h : policyKey policy.objectID policy.operation = policyKey objectID policy.operation) :
    policy.objectID = objectID := by
  unfold policyKey at h
  exact append_cancel_right (append_cancel_right h)

/-- Policies of an engine under one key are one policy. -/
theorem eq_of_key (engine : Engine) {p q : Rules} (hp : p ∈ engine.policies)
    (hq : q ∈ engine.policies)
    (h : policyKey p.objectID p.operation = policyKey q.objectID q.operation) : p = q :=
  inj_on_of_nodup_map engine.keys hp hq h

theorem mem_governing {policies : List Rules} {request : Request} {p : Rules} :
    p ∈ governing policies request ↔
      p ∈ policies ∧ p.objectID = request.objectID ∧ p.operation = request.operation := by
  simp only [governing, mem_filter, Bool.and_eq_true, decide_eq_true_eq]

theorem find_of_governing (engine : Engine) {request : Request} {p : Rules}
    (h : p ∈ governing engine.policies request) :
    engine.find request.objectID request.operation = some p := by
  rcases mem_governing.mp h with ⟨hp, hobject, hoperation⟩
  cases hfind : engine.find request.objectID request.operation with
  | none =>
    have := find?_eq_none.mp hfind p hp
    simp [hobject, hoperation] at this
  | some q =>
    rcases find_mem hfind with ⟨hq, hkey⟩
    rw [eq_of_key engine hp hq (by rw [hkey, hobject, hoperation])]

/-- The policy found, if its operation is the request's own, is the only one
    with the request's object and operation. -/
theorem governing_of_find {engine : Engine} {request : Request} {p : Rules}
    (h : engine.find request.objectID request.operation = some p)
    (hoperation : request.operation = p.operation) : governing engine.policies request = [p] := by
  rcases find_mem h with ⟨hp, hkey⟩
  rw [hoperation] at hkey
  have hmem : p ∈ governing engine.policies request :=
    mem_governing.mpr ⟨hp, objectID_of_key hkey, hoperation.symm⟩
  have hnodup : (governing engine.policies request).Nodup :=
    engine.keys.of_map.filter _
  refine perm_singleton.mp ((perm_ext_iff_of_nodup hnodup (nodup_singleton p)).mpr ?_)
  intro q
  rw [mem_singleton]
  constructor
  · intro hq
    have := (find_of_governing engine hq).symm.trans h
    exact Option.some.inj this
  · rintro rfl
    exact hmem

/-! ### The checks -/

theorem approvalsSatisfied_iff (hcompiled : policy.Compiled) (values : List GoString) :
    policy.approvalsSatisfied values = true ↔
      policy.requiredApprovals ≤ (policy.approvers.toFinset ∩ values.toFinset).card := by
  have hcard : (values.filter (inStringSet policy.approvers)).dedup.length =
      (policy.approvers.toFinset ∩ values.toFinset).card := by
    rw [← card_toFinset]
    congr 1
    ext v
    simp only [mem_toFinset, mem_filter, Finset.mem_inter, hcompiled.approvers]
    exact and_comm
  simp only [Rules.approvalsSatisfied, Bool.or_eq_true, decide_eq_true_eq, hcard]
  omega

/-- The last check: the amounts to reserve, or the rule the transaction is
    refused under. -/
def Rules.amounts (policy : Rules) (request : Request) : Except String Amounts :=
  match policy.cosmos with
  | some cosmos => (cosmos.validateCosmos request.cosmos).map some
  | none =>
    if request.cosmos.isSome then .error "unexpected-domain-data"
    else .ok (some SortedMap.empty)

theorem amounts_forms (hcompiled : policy.Compiled) (request : Request) :
    (∃ totals, policy.amounts request = .ok (some totals) ∧
      Totals.Stand totals request.moved ∧ (policy.cosmos = none → request.cosmos = none) ∧
      ∀ c, policy.cosmos = some c → ∀ rule ∈ cosmosRules, ¬ c.Violates request.cosmos rule) ∨
    (∃ rule, policy.amounts request = .error rule) ∧
      ¬ ((policy.cosmos = none → request.cosmos = none) ∧
        ∀ c, policy.cosmos = some c → ∀ rule ∈ cosmosRules, ¬ c.Violates request.cosmos rule) := by
  cases hcosmos : policy.cosmos with
  | none =>
    cases hrequest : request.cosmos with
    | none =>
      refine .inl ⟨SortedMap.empty, by simp [Rules.amounts, hcosmos, hrequest], ?_, by simp, by simp⟩
      simp only [Request.moved, hrequest]
      exact stand_empty
    | some t =>
      exact .inr ⟨⟨"unexpected-domain-data", by simp [Rules.amounts, hcosmos, hrequest]⟩, by simp⟩
  | some c =>
    rcases validateCosmos_forms (hcompiled.cosmos c hcosmos) request.cosmos with
      ⟨t, totals, hrequest, hok, hstand, hnone⟩ | ⟨rule, herr, before, after, hsplit, hviolates, -⟩
    · refine .inl ⟨totals, by simp [Rules.amounts, hcosmos, hok, Except.map], ?_, by simp, ?_⟩
      · simpa only [Request.moved, hrequest] using hstand
      · rintro c' hc'
        cases hc'
        exact hnone
    · refine .inr ⟨⟨rule.text, by simp [Rules.amounts, hcosmos, herr, Except.map]⟩, fun hall => ?_⟩
      exact hall.2 c rfl rule (by simp [hsplit]) hviolates

/-- The checks before the state is asked: they give the sums of what the
    request moves when the policy permits it, and otherwise deny. -/
theorem check_forms (hcompiled : policy.Compiled) (now : GoTime) (request : Request) :
    (∃ totals, policy.check now request = .ok (some totals) ∧
      Totals.Stand totals request.moved ∧ policy.Permits now request ∧
      request.Answerable policy) ∨
    (∃ rule, policy.check now request = .error rule) ∧
      ¬ (policy.Permits now request ∧ request.Answerable policy) := by
  unfold Rules.check
  by_cases hcontext : request.principal = [] ∨ request.requestID = [] ∨
      ¬ matchesNoncePattern request.nonce
  · rw [if_pos hcontext]
    refine .inr ⟨⟨_, rfl⟩, fun ⟨_, ha⟩ => ?_⟩
    rcases hcontext with h | h | h
    · exact ha.principal h
    · exact ha.requestID h
    · exact h ha.nonce
  rw [if_neg hcontext]
  by_cases hbinding : request.purpose ≠ policy.purpose ∨ request.environment ≠ policy.environment ∨
      request.operation ≠ policy.operation ∨ request.algorithm ≠ policy.algorithm
  · rw [if_pos hbinding]
    refine .inr ⟨⟨_, rfl⟩, fun ⟨hp, _⟩ => ?_⟩
    rcases hbinding with h | h | h | h
    · exact h hp.purpose
    · exact h hp.environment
    · exact h hp.operation
    · exact h hp.algorithm
  rw [if_neg hbinding]
  by_cases hcontent : ¬ inStringSet policy.contentTypes request.contentType ∨
      request.payloadBytes < 0 ∨ policy.maxPayloadBytes < request.payloadBytes
  · rw [if_pos hcontent]
    refine .inr ⟨⟨_, rfl⟩, fun ⟨hp, _⟩ => ?_⟩
    rcases hcontent with h | h | h
    · exact h ((hcompiled.contentTypes _).mpr hp.content)
    · exact absurd hp.payload.1 (not_le.mpr h)
    · exact absurd hp.payload.2 (not_le.mpr h)
  rw [if_neg hcontent]
  by_cases hfreshness : ¬ request.expiresAt.after now ∨
      now.nanoseconds + policy.maxFuture < request.expiresAt.nanoseconds
  · rw [if_pos hfreshness]
    refine .inr ⟨⟨_, rfl⟩, fun ⟨hp, _⟩ => ?_⟩
    rcases hfreshness with h | h
    · exact h (by simpa only [GoTime.after, decide_eq_true_eq] using hp.expiry.1)
    · exact absurd hp.expiry.2 (not_le.mpr h)
  rw [if_neg hfreshness]
  by_cases happroval : ¬ policy.approvalsSatisfied request.verifiedApprovers
  · rw [if_pos happroval]
    exact .inr ⟨⟨_, rfl⟩,
      fun ⟨hp, _⟩ => happroval ((approvalsSatisfied_iff hcompiled _).mpr hp.approvals)⟩
  rw [if_neg happroval]
  rcases amounts_forms hcompiled request with ⟨totals, hok, hstand, hdomain, hrules⟩ |
    ⟨hrefused, hnot⟩
  · simp only [not_or, not_not, ne_eq] at hcontext hbinding hcontent happroval
    simp only [not_or, not_not, GoTime.after, decide_eq_true_eq] at hfreshness
    refine .inl ⟨totals, hok, hstand, ?_, ⟨hcontext.1, hcontext.2.1, hcontext.2.2, hdomain⟩⟩
    exact {
      purpose := hbinding.1
      environment := hbinding.2.1
      operation := hbinding.2.2.1
      algorithm := hbinding.2.2.2
      content := (hcompiled.contentTypes _).mp hcontent.1
      payload := ⟨not_lt.mp hcontent.2.1, not_lt.mp hcontent.2.2⟩
      expiry := ⟨hfreshness.1, not_lt.mp hfreshness.2⟩
      approvals := (approvalsSatisfied_iff hcompiled _).mp happroval
      cosmos := hrules }
  · exact .inr ⟨hrefused, fun ⟨hp, ha⟩ => hnot ⟨ha.domain, hp.cosmos⟩⟩

/-! ### Decisions -/

/-- The state is asked once, for the sums the request moves, or not at all and
    the request is denied. -/
theorem evaluateIn_forms {policies : List Rules} {engine : Engine}
    (hnew : newEngine policies = .ok engine) (now : GoTime) (epoch : UInt64) (request : Request)
    (answer : List Reservation → Reservation → Option StateError) (asked : List Reservation) :
    (∃ p totals, governing policies request = [p] ∧ p.Permits now request ∧
      request.Answerable p ∧ Totals.Stand totals request.moved ∧
      ((engine.evaluateIn (recording answer) now epoch request).run asked).2 =
        asked ++ [p.reservation now epoch request (some totals)]) ∨
    (¬ ∃ p, governing policies request = [p] ∧ p.Permits now request ∧ request.Answerable p) ∧
      ((engine.evaluateIn (recording answer) now epoch request).run asked).2 = asked ∧
      ((engine.evaluateIn (recording answer) now epoch request).run asked).1.allowed = false := by
  rcases newEngine_ok hnew with ⟨hpolicies, hcompiled⟩
  unfold Engine.evaluateIn
  cases hfind : engine.find request.objectID request.operation with
  | none =>
    refine .inr ⟨?_, rfl, rfl⟩
    rintro ⟨p, hp, -⟩
    have := @find_of_governing engine request p (by rw [hpolicies, hp]; exact mem_singleton_self p)
    rw [hfind] at this
    cases this
  | some policy =>
    rcases check_forms (hcompiled policy (find_mem hfind).1) now request with
      ⟨totals, hok, hstand, hpermits, hanswerable⟩ | ⟨⟨rule, herr⟩, hnot⟩
    · have hgoverning := governing_of_find hfind hpermits.operation
      rw [hpolicies] at hgoverning
      refine .inl ⟨policy, totals, hgoverning, hpermits, hanswerable, hstand, ?_⟩
      simp only [hok]
      rfl
    · refine .inr ⟨?_, by simp only [herr]; rfl, by simp only [herr]; rfl⟩
      rintro ⟨p, hp, hpermitted⟩
      have hsame := @find_of_governing engine request p
        (by rw [hpolicies, hp]; exact mem_singleton_self p)
      rw [hfind] at hsame
      cases hsame
      exact hnot hpermitted

/-- Only a request that one policy of the list governs and permits is allowed.
    Of an answerable request that is so permitted the state is asked exactly
    once, for the sums it moves; of any other it is never asked, and the request
    is denied. -/
theorem evaluate_asks_once {policies : List Rules} {engine : Engine}
    (hnew : newEngine policies = .ok engine) (now : GoTime) (epoch : UInt64) (request : Request)
    (answer : List Reservation → Reservation → Option StateError) (asked : List Reservation) :
    let result := (engine.evaluateIn (recording answer) now epoch request).run asked
    (result.1.allowed = true →
      ∃ p, governing policies request = [p] ∧ p.Permits now request ∧ request.Answerable p) ∧
    (∀ p, governing policies request = [p] → p.Permits now request → request.Answerable p →
      ∃ totals, Totals.Stand totals request.moved ∧
        result.2 = asked ++ [p.reservation now epoch request (some totals)]) ∧
    ((¬ ∃ p, governing policies request = [p] ∧ p.Permits now request ∧ request.Answerable p) →
      result.2 = asked ∧ result.1.allowed = false) := by
  intro result
  rcases evaluateIn_forms hnew now epoch request answer asked with
    ⟨p, totals, hgoverning, hpermits, hanswerable, hstand, hasked⟩ | ⟨hnot, hasked, hdenied⟩
  · refine ⟨fun _ => ⟨p, hgoverning, hpermits, hanswerable⟩, ?_, ?_⟩
    · intro q hq _ _
      cases hgoverning.symm.trans hq
      exact ⟨totals, hstand, hasked⟩
    · exact fun hnone => absurd ⟨p, hgoverning, hpermits, hanswerable⟩ hnone
  · refine ⟨fun hallowed => ?_, ?_, fun _ => ⟨hasked, hdenied⟩⟩
    · rw [hdenied] at hallowed
      cases hallowed
    · exact fun q hq hp ha => absurd ⟨q, hq, hp, ha⟩ hnot

/-- A request to spend from the wallet. -/
def walletRequest (principal : GoString) (transaction : CosmosTransaction) : Request where
  requestID := ofText "request-1"
  principal := principal
  objectID := ofText "wallet"
  purpose := ofText "payments"
  environment := ofText "production"
  operation := ofText "sign"
  algorithm := ofText "secp256k1"
  contentType := ofText "application/vnd.cosmos.tx+protobuf"
  payloadBytes := 300
  expiresAt := ⟨1700000060, 0, 0⟩
  nonce := ofText "nonce-0123456789"
  verifiedApprovers := [ofText "bob"]
  cosmos := some transaction

def walletNow : GoTime := ⟨1700000000, 0, 0⟩

theorem governing_wallet (principal : GoString) (t : CosmosTransaction) :
    governing [walletRules] (walletRequest principal t) = [walletRules] :=
  filter_eq_self.mpr (by simp [walletRules, walletRequest])

/-- What the policy permits of a transfer does not depend on who asks. -/
theorem permits_wallet (principal : GoString) :
    walletRules.Permits walletNow (walletRequest principal (walletTransfer [600])) := by
  rcases newEngine_wallet with ⟨engine, hnew⟩
  rcases newEngine_ok hnew with ⟨hpolicies, hcompiled⟩
  have hcheck : (walletRules.check walletNow
      (walletRequest (ofText "site") (walletTransfer [600]))).isOk = true := rfl
  rcases check_forms (hcompiled walletRules (by rw [hpolicies]; exact mem_singleton_self _))
    walletNow (walletRequest (ofText "site") (walletTransfer [600])) with
    ⟨_, _, _, h, _⟩ | ⟨⟨rule, herr⟩, _⟩
  · exact ⟨h.purpose, h.environment, h.operation, h.algorithm, h.content, h.payload, h.expiry,
      h.approvals, h.cosmos⟩
  · rw [herr] at hcheck
    cases hcheck

/-- A transfer within every limit: the state is asked once, and the amount is
    the one of its message. -/
theorem evaluate_asks_once_wallet :
    ∃ engine totals, newEngine [walletRules] = .ok engine ∧
      Totals.Stand totals (walletTransfer [600]).moved ∧
      ((engine.evaluateIn (recording (fun _ _ => none)) walletNow 1
        (walletRequest (ofText "site") (walletTransfer [600]))).run []).2 =
        [walletRules.reservation walletNow 1
          (walletRequest (ofText "site") (walletTransfer [600])) (some totals)] := by
  rcases newEngine_wallet with ⟨engine, hnew⟩
  have hanswerable : (walletRequest (ofText "site") (walletTransfer [600])).Answerable
      walletRules :=
    ⟨nofun, nofun, rfl, nofun⟩
  rcases (evaluate_asks_once hnew walletNow 1
    (walletRequest (ofText "site") (walletTransfer [600])) (fun _ _ => none) []).2.1
    walletRules (governing_wallet _ _) (permits_wallet _) hanswerable with ⟨totals, hstand, hasked⟩
  exact ⟨engine, totals, hnew, hstand, hasked⟩

/-- The same transfer with nobody named as its principal is permitted by the
    policy, and the state is not asked. -/
theorem unanswerable_never_asked :
    ∃ engine, newEngine [walletRules] = .ok engine ∧
      governing [walletRules] (walletRequest [] (walletTransfer [600])) = [walletRules] ∧
      walletRules.Permits walletNow (walletRequest [] (walletTransfer [600])) ∧
      ∀ answer, ((engine.evaluateIn (recording answer) walletNow 1
        (walletRequest [] (walletTransfer [600]))).run []).2 = [] := by
  rcases newEngine_wallet with ⟨engine, hnew⟩
  refine ⟨engine, hnew, governing_wallet _ _, permits_wallet _, fun answer => ?_⟩
  rcases evaluateIn_forms hnew walletNow 1 (walletRequest [] (walletTransfer [600])) answer [] with
    ⟨_, _, _, _, hanswerable, _⟩ | ⟨_, hasked, _⟩
  · exact absurd rfl hanswerable.principal
  · exact hasked

end Regalia.Policy
