import Regalia.Core.Policy.FileState

/-!
# The Policy Engine

`Evaluate` finds the policy for an object and an operation, checks the request
against it, and last of all asks the durable state to reserve the nonce and
the amounts. A request is allowed exactly when the state has committed.

An engine is what `New` returns: no two policies have one identifier, and no
two govern the same operation on the same object.

## Main definitions

* `Rules`: A policy.
* `Request`: What a policy is asked.
* `Rules.validateCosmos`: The rules for a transaction.
* `Engine.evaluate`: The decision, and the state after it.
-/

namespace Regalia.Policy

structure Coin where
  denom : GoString
  amount : UInt64
  deriving DecidableEq

structure CosmosMessage where
  type : GoString
  source : GoString
  destination : GoString
  amounts : List Coin
  deriving DecidableEq

structure CosmosTransaction where
  chainID : GoString
  accountNumber : UInt64
  sequence : UInt64
  fee : List Coin
  gasLimit : UInt64
  messages : List CosmosMessage
  deriving DecidableEq

structure CosmosPolicy where
  chainIDs : List GoString
  accountNumbers : List UInt64
  messageTypes : List GoString
  destinations : List GoString
  sources : List GoString
  maxGasLimit : UInt64
  maxFee : SortedMap GoString UInt64
  maxPerTransaction : SortedMap GoString UInt64
  maxPerDay : SortedMap GoString UInt64

/-- `Policy`, its durations in nanoseconds. -/
structure Rules where
  id : GoString
  objectID : GoString
  purpose : GoString
  environment : GoString
  operation : GoString
  algorithm : GoString
  contentTypes : List GoString
  maxPayloadBytes : Int
  maxFuture : Int
  requiredApprovals : Nat := 0
  approvers : List GoString := []
  cosmos : Option CosmosPolicy := none

structure Request where
  requestID : GoString
  principal : GoString
  objectID : GoString
  purpose : GoString
  environment : GoString
  operation : GoString
  algorithm : GoString
  contentType : GoString
  payloadBytes : Int
  expiresAt : GoTime
  nonce : GoString
  verifiedApprovers : List GoString := []
  cosmos : Option CosmosTransaction := none
  payloadSHA256 : GoString := []

inductive Code where
  | allowed
  | denied
  | replay
  | limitExceeded
  | stateUnavailable
  deriving DecidableEq, Repr

def Code.text : Code → String
  | .allowed => "ALLOWED"
  | .denied => "DENIED"
  | .replay => "REPLAY"
  | .limitExceeded => "LIMIT_EXCEEDED"
  | .stateUnavailable => "STATE_UNAVAILABLE"

structure Decision where
  allowed : Bool
  code : Code
  policyID : GoString
  rule : String
  deriving DecidableEq

/-- Membership in a `stringSet`, which takes neither the empty string nor a
    wildcard. -/
def inStringSet (values : List GoString) (value : GoString) : Bool :=
  value ∈ values && value ≠ [] && value ≠ GoString.ofText "*"

def policyKey (objectID operation : GoString) : GoString := objectID ++ separator ++ operation

/-- `Engine`: the policies that `New` compiled. -/
structure Engine where
  policies : List Rules
  ids : (policies.map Rules.id).Nodup
  keys : (policies.map (fun p => policyKey p.objectID p.operation)).Nodup

def Engine.find (engine : Engine) (objectID operation : GoString) : Option Rules :=
  engine.policies.find? (fun p => policyKey p.objectID p.operation = policyKey objectID operation)

def Rules.approvalsSatisfied (policy : Rules) (values : List GoString) : Bool :=
  policy.requiredApprovals = 0 ||
    policy.requiredApprovals ≤ (values.filter (inStringSet policy.approvers)).dedup.length

/-! ### Transactions -/

/-- One coin of a message added to the totals, within the cap of a
    transaction. -/
def addAmount (policy : CosmosPolicy) (totals : SortedMap GoString UInt64) (coin : Coin) :
    Except String (SortedMap GoString UInt64) :=
  let total := (totals.get? coin.denom).getD 0
  match policy.maxPerTransaction.get? coin.denom with
  | none => .error "cosmos-amount"
  | some maximum =>
    if coin.amount = 0 ∨ maximum < coin.amount ∨ maxUint64 - total < coin.amount then
      .error "cosmos-amount"
    else if maximum < total + coin.amount then .error "cosmos-amount"
    else .ok (totals.insert coin.denom (total + coin.amount))

/-- One coin of the fee. Unlike an amount, it is not compared with the cap
    before it is added. -/
def addFee (policy : CosmosPolicy) (totals : SortedMap GoString UInt64) (coin : Coin) :
    Except String (SortedMap GoString UInt64) :=
  let total := (totals.get? coin.denom).getD 0
  match policy.maxFee.get? coin.denom with
  | none => .error "cosmos-fee"
  | some maximum =>
    if coin.amount = 0 ∨ maxUint64 - total < coin.amount then .error "cosmos-fee"
    else if maximum < total + coin.amount then .error "cosmos-fee"
    else .ok (totals.insert coin.denom (total + coin.amount))

/-- `validateCosmos`: the amounts a transaction moves, or the rule that
    refuses it. Each rule is checked over all messages before the next. -/
def CosmosPolicy.validateCosmos (policy : CosmosPolicy) (transaction : Option CosmosTransaction) :
    Except String (SortedMap GoString UInt64) :=
  match transaction with
  | none => .error "cosmos-transaction"
  | some t =>
    if t.messages = [] then .error "cosmos-transaction"
    else if ¬ inStringSet policy.chainIDs t.chainID then .error "cosmos-chain"
    else if t.accountNumber ∉ policy.accountNumbers then .error "cosmos-account"
    else if t.messages.any (fun m => !inStringSet policy.messageTypes m.type || m.amounts.isEmpty) then
      .error "cosmos-message"
    else if t.messages.any (fun m => !inStringSet policy.destinations m.destination) then
      .error "cosmos-destination"
    else if t.messages.any (fun m => !inStringSet policy.sources m.source) then
      .error "cosmos-source"
    else
      match (t.messages.flatMap CosmosMessage.amounts).foldlM (addAmount policy) SortedMap.empty with
      | .error rule => .error rule
      | .ok totals =>
        if t.gasLimit = 0 ∨ policy.maxGasLimit < t.gasLimit then .error "cosmos-gas"
        else
          match t.fee.foldlM (addFee policy) SortedMap.empty with
          | .error rule => .error rule
          | .ok _ => .ok totals

/-! ### Decisions -/

def deny (policyID : GoString) (rule : String) : Decision := ⟨false, .denied, policyID, rule⟩

/-- `now.Format(utcDateLayout)`. -/
def utcDate (now : GoTime) : GoString :=
  let c := Civil.ofUnix now.unix
  GoString.ofRunes (paddedDecimal 4 c.year ++ '-' :: paddedDecimal 2 c.month ++ '-' ::
    paddedDecimal 2 c.day)

/-- The checks before the state is asked: the rule that denies, or the amounts
    to reserve. -/
def Rules.check (policy : Rules) (now : GoTime) (request : Request) : Except String Amounts :=
  if request.principal = [] ∨ request.requestID = [] ∨ ¬ matchesNoncePattern request.nonce then
    .error "invalid-context"
  else if request.purpose ≠ policy.purpose ∨ request.environment ≠ policy.environment ∨
      request.operation ≠ policy.operation ∨ request.algorithm ≠ policy.algorithm then
    .error "binding-mismatch"
  else if ¬ inStringSet policy.contentTypes request.contentType ∨ request.payloadBytes < 0 ∨
      policy.maxPayloadBytes < request.payloadBytes then
    .error "content"
  else if ¬ request.expiresAt.after now ∨
      now.nanoseconds + policy.maxFuture < request.expiresAt.nanoseconds then
    .error "freshness"
  else if ¬ policy.approvalsSatisfied request.verifiedApprovers then .error "approval"
  else
    match policy.cosmos with
    | some cosmos => (cosmos.validateCosmos request.cosmos).map some
    | none =>
      if request.cosmos.isSome then .error "unexpected-domain-data"
      else .ok (some SortedMap.empty)

/-- The reservation `Evaluate` asks for. -/
def Rules.reservation (policy : Rules) (now : GoTime) (epoch : UInt64) (request : Request)
    (amounts : Amounts) : Reservation where
  policyID := policy.id
  objectID := request.objectID
  principal := request.principal
  nonce := request.nonce
  utcDate := utcDate now
  amounts := amounts
  epoch := epoch
  sequence := request.cosmos.map CosmosTransaction.sequence
  sequenceKey :=
    match request.cosmos with
    | some t => t.chainID ++ separator ++ GoString.ofText (toString t.accountNumber.toNat)
    | none => []
  dailyCaps := some ((policy.cosmos.map CosmosPolicy.maxPerDay).getD SortedMap.empty)
  purpose := request.purpose
  environment := request.environment
  payloadSHA256 := request.payloadSHA256
  approvers := request.verifiedApprovers
  expiresAt := request.expiresAt

/-- The decision on what the state answered. -/
def decisionOf (policyID : GoString) : Option StateError → Decision
  | none => ⟨true, .allowed, policyID, "allow"⟩
  | some .replay => ⟨false, .replay, policyID, "replay"⟩
  | some .limit => ⟨false, .limitExceeded, policyID, "quota"⟩
  | some .epoch => ⟨false, .denied, policyID, "epoch"⟩
  | some .sequence => ⟨false, .denied, policyID, "sequence"⟩
  | some (.other _) => ⟨false, .stateUnavailable, policyID, "durable-state"⟩

/-- `Evaluate`, at a time and an epoch, over the state of a world: the
    decision, unless the process dies in the call, and the world after it. -/
def Engine.evaluate (engine : Engine) (now : GoTime) (epoch : UInt64) (fault : Option Fault)
    (w : World) (request : Request) : Option Decision × World :=
  match engine.find request.objectID request.operation with
  | none => (some (deny [] "unknown-object"), w)
  | some policy =>
    match policy.check now request with
    | .error rule => (some (deny policy.id rule), w)
    | .ok amounts =>
      let result := w.step (.reserve (policy.reservation now epoch request amounts) fault)
      match result.2 with
      | .returns err => (some (decisionOf policy.id err), result.1)
      | .dies => (none, result.1)

end Regalia.Policy
