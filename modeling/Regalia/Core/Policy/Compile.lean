import Regalia.Core.Policy.Engine

/-!
# Compiling Policies

`New` takes a list of policies or refuses it whole. What it accepts is an
`Engine`: the policies of the list, in its order, with no identifier used twice
and no two policies under one lookup key.

`Evaluate` is here written over any way to reserve, so that what it asks of the
state can be recorded; over the durable state it is `Engine.evaluate`.

## Main definitions

* `stringSet`: The strings of a list that a set takes.
* `CosmosPolicy.compile`: The checks on the dimensions of a transaction policy.
* `newEngine`: `New`.
* `CosmosRule`: The rules a transaction is refused under.
* `Engine.evaluateIn`: `Evaluate`, over any state.
* `recording`: A state that keeps what it was asked.
-/

namespace Regalia.Policy

open List

/-- `stringSet`: neither the empty string nor a wildcard is taken. -/
def stringSet (values : List GoString) : List GoString :=
  (values.filter (fun v => v ≠ [] && v ≠ GoString.ofText "*")).dedup

def uintSet (values : List UInt64) : List UInt64 := values.dedup

/-- An error of `New`: the text of its format and what it formats. -/
structure NewError where
  format : String
  args : List GoString := []
  deriving DecidableEq

/-- The checks of `New` on a transaction policy. The loop over the transaction
    caps and the loop over the fee caps have one error each, so their order
    among the denominations is not seen. -/
def CosmosPolicy.compile (policy : CosmosPolicy) (contentTypes : List GoString) :
    Except NewError Unit :=
  let types := stringSet contentTypes
  let chains := stringSet policy.chainIDs
  let accounts := uintSet policy.accountNumbers
  let messages := stringSet policy.messageTypes
  let destinations := stringSet policy.destinations
  let sources := stringSet policy.sources
  if GoString.ofText "application/octet-stream" ∈ types then
    .error ⟨"Cosmos policy cannot allow opaque content", []⟩
  else if GoString.ofText "application/vnd.cosmos.tx+protobuf" ∉ types then
    .error ⟨"Cosmos policy requires canonical protobuf content", []⟩
  else if chains.length = 0 ∨ accounts.length = 0 ∨ messages.length = 0 ∨
      destinations.length = 0 ∨ sources.length = 0 ∨ policy.maxGasLimit = 0 ∨
      policy.maxFee.entries.length = 0 ∨ policy.maxPerTransaction.entries.length = 0 ∨
      policy.maxPerDay.entries.length = 0 then
    .error ⟨"Cosmos policy dimensions must be explicit", []⟩
  else if chains.length ≠ policy.chainIDs.length ∨
      accounts.length ≠ policy.accountNumbers.length ∨
      messages.length ≠ policy.messageTypes.length ∨
      destinations.length ≠ policy.destinations.length ∨
      sources.length ≠ policy.sources.length then
    .error ⟨"Cosmos policy dimensions must not contain duplicates or wildcards", []⟩
  else if policy.maxPerTransaction.entries.any (fun e =>
      e.1 = [] || e.2 = 0 || !(policy.maxPerDay.get? e.1).any (fun daily => e.2 ≤ daily)) then
    .error ⟨"Cosmos denomination caps are incomplete or inconsistent", []⟩
  else if policy.maxFee.entries.any (fun e => e.1 = [] || e.2 = 0) then
    .error ⟨"Cosmos fee caps are incomplete", []⟩
  else if policy.maxPerTransaction.entries.length ≠ policy.maxPerDay.entries.length then
    .error ⟨"Cosmos daily and transaction denominations must match", []⟩
  else .ok ()

/-- The engine before the first policy. -/
def Engine.bare : Engine := ⟨[], nodup_nil, nodup_nil⟩

/-- One policy of the list, after the ones before it. A negative number of
    approvals, which `New` refuses too, is not a number of approvals here. -/
def Engine.add (engine : Engine) (policy : Rules) : Except NewError Engine :=
  if policy.id = [] ∨ policy.objectID = [] ∨ policy.purpose = [] ∨ policy.environment = [] ∨
      policy.operation = [] ∨ policy.algorithm = [] ∨ policy.maxPayloadBytes < 1 ∨
      policy.maxFuture ≤ 0 then
    .error ⟨"policy contains an empty or unsafe required field", []⟩
  else if hid : policy.id ∈ engine.policies.map Rules.id then
    .error ⟨"duplicate policy id %q", [policy.id]⟩
  else if hkey : policyKey policy.objectID policy.operation ∈
      engine.policies.map (fun p => policyKey p.objectID p.operation) then
    .error ⟨"object %q has ambiguous %s policies", [policy.objectID, policy.operation]⟩
  else
    let contentTypes := stringSet policy.contentTypes
    let approvers := stringSet policy.approvers
    if contentTypes.length ≠ policy.contentTypes.length ∨ policy.contentTypes = [] ∨
        approvers.length ≠ policy.approvers.length ∨
        approvers.length < policy.requiredApprovals then
      .error ⟨"policy lists are empty, duplicated or inconsistent", []⟩
    else
      match policy.cosmos.elim (.ok ()) (fun c => c.compile policy.contentTypes) with
      | .error err => .error err
      | .ok () => .ok {
          policies := engine.policies ++ [policy]
          ids := by
            rw [map_append]
            exact engine.ids.append (nodup_singleton _) (disjoint_singleton.mpr hid)
          keys := by
            rw [map_append]
            exact engine.keys.append (nodup_singleton _) (disjoint_singleton.mpr hkey) }

/-- `New`, with a state and a clock. -/
def newEngine (policies : List Rules) : Except NewError Engine :=
  if policies = [] then
    .error ⟨"policy engine requires policies, durable state and a clock", []⟩
  else policies.foldlM Engine.add Engine.bare

/-! ### The rules of a transaction -/

/-- The dimension of a transaction that a policy refuses. -/
inductive CosmosRule where
  | transaction
  | chain
  | account
  | message
  | destination
  | source
  | amount
  | gas
  | fee
  deriving DecidableEq, Repr

def CosmosRule.text : CosmosRule → String
  | .transaction => "cosmos-transaction"
  | .chain => "cosmos-chain"
  | .account => "cosmos-account"
  | .message => "cosmos-message"
  | .destination => "cosmos-destination"
  | .source => "cosmos-source"
  | .amount => "cosmos-amount"
  | .gas => "cosmos-gas"
  | .fee => "cosmos-fee"

/-- `CosmosRules`: the rules in the order they are checked. -/
def cosmosRules : List CosmosRule :=
  [.transaction, .chain, .account, .message, .destination, .source, .amount, .gas, .fee]

/-! ### Asking the state -/

/-- `Evaluate`, where `reserve` is what the state does when it is asked. -/
def Engine.evaluateIn {m : Type → Type} [Monad m] (engine : Engine)
    (reserve : Reservation → m (Option StateError)) (now : GoTime) (epoch : UInt64)
    (request : Request) : m Decision :=
  match engine.find request.objectID request.operation with
  | none => pure (deny [] "unknown-object")
  | some policy =>
    match policy.check now request with
    | .error rule => pure (deny policy.id rule)
    | .ok amounts => do
      let err ← reserve (policy.reservation now epoch request amounts)
      pure (decisionOf policy.id err)

/-- A state that keeps what it was asked, and answers from that as it likes. -/
def recording (answer : List Reservation → Reservation → Option StateError) (r : Reservation) :
    StateM (List Reservation) (Option StateError) :=
  fun asked => (answer asked r, asked ++ [r])

/-- The durable state of a world: a call that kills the process has no answer. -/
def World.reserveIn (fault : Option Fault) (r : Reservation) :
    OptionT (StateM World) (Option StateError) :=
  OptionT.mk (fun w =>
    let result := w.step (.reserve r fault)
    match result.2 with
    | .returns err => (some err, result.1)
    | .dies => (none, result.1))

end Regalia.Policy
