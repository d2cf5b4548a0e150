import Regalia.Core.Approval.KeySet
import Regalia.Core.Policy.Engine

/-!
# The Coordinator

`Execute` takes a request through authorization, admission, routing, approvals
and policy, records that it was authorized, runs the operation on the
hardware, and records that it succeeded before it hands the output back.

Every dependency is a parameter of the call and may answer anything: those
that `Execute` asks once are fields of `Coordinator`, and what the runner and
its operation meet is a `Weather`. The calls and records are kept as a trace,
in the order they happen.

The operation runs in a goroutine of its own, and `Run` may return before it
ends. The rest of it then goes on beside `Execute` and writes to the variables
the closure shares with it. A `Schedule` says how much of it happens between
which statements of `Execute`.

## Main definitions

* `Request`, `Route`: What is asked, and where it goes.
* `Coordinator.check`: Everything up to the policy.
* `Coordinator.run`: The operation under its gates and the executor.
* `Coordinator.execute`: `Execute`, its trace and its result.
-/

namespace Regalia.Operations

open GoString (ofText)

structure OperationContext where
  purpose : GoString
  environment : GoString
  nonce : GoString
  expiresAt : GoTime
  signer : GoString := []

/-- `api.Request`. -/
structure Request where
  requestID : GoString
  principal : GoString
  objectID : GoString
  operation : GoString
  context : OperationContext
  format : GoString := []
  contentType : GoString := []
  data : List UInt8 := []
  envelopeAAD : List UInt8 := []
  approvals : GoString := []
  sealCiphertext : List UInt8 := []
  sealNonce : List UInt8 := []
  sealDataKey : List UInt8 := []

/-- `registry.Route`, the fields that are read here. -/
structure Route where
  algorithm : GoString
  deviceID : GoString
  envelopeMaxAge : Int := 0

/-- Why the registry gives no route. -/
inductive RegistryError where
  | notFound
  | dependencyUnavailable
  | revoked
  | other
  deriving DecidableEq, Repr

/-- `api.Failure`. -/
structure Failure where
  code : String
  status : Nat
  retryable : Bool
  deriving DecidableEq, Repr

def denied : Failure := ⟨"DENIED", 403, false⟩

def invalidArgument : Failure := ⟨"INVALID_ARGUMENT", 400, false⟩

def dependencyUnavailable : Failure := ⟨"DEPENDENCY_UNAVAILABLE", 503, true⟩

def internal : Failure := ⟨"INTERNAL", 500, false⟩

/-- `api.Result`. -/
structure Result where
  operationID : GoString
  contentType : GoString
  data : List UInt8
  deriving DecidableEq

/-- How far a record gets: not into the journal; written and synced; marked
    and queued to ship; acknowledged by the collector while the call waits. -/
inductive Progress where
  | lost
  | journaled
  | queued
  | acknowledged
  deriving DecidableEq, Repr

/-- Whether `Record` returns nil. -/
def Progress.recorded (requireRemote : Bool) : Progress → Bool
  | .lost => false
  | .journaled => false
  | .queued => !requireRemote
  | .acknowledged => true

/-- The fields of `audit.Draft` that a call chooses. -/
structure Draft where
  decision : String
  outcome : String
  deviceID : GoString := []
  approvers : List GoString := []
  deriving DecidableEq

/-- The runner's gates: a runtime lease or a site lease. -/
inductive Gate where
  | admitted
  | fenced
  deriving DecidableEq, Repr

/-- What an operation or its runner fails with. -/
inductive RunError where
  | notAdmitted
  | fenced
  | busy
  | timeout
  | canceled
  | panicked
  | invalidEnvelope
  | backend
  deriving DecidableEq, Repr

def Gate.error : Gate → RunError
  | .admitted => .notAdmitted
  | .fenced => .fenced

/-- One call of `Hardware.Execute`. -/
structure HardwareCall where
  deviceID : GoString
  operation : GoString
  format : GoString
  contentType : GoString
  data : List UInt8
  aad : List UInt8
  deriving DecidableEq

/-- What happens in a call. -/
inductive Event where
  /-- `Allowed` granted it. -/
  | authorized
  /-- The node is admitted. -/
  | admitted
  /-- The object is served here. -/
  | objectServed
  | routed
  | policyAllowed
  | recorded (draft : Draft) (requireRemote : Bool) (progress : Progress)
  /-- A record that never reached the journal is counted. -/
  | dropped (outcome : String)
  /-- A gate is asked before the operation is queued, as it starts, or as it
      ends. -/
  | queued (gate : Gate) (ready : Bool)
  | begun (gate : Gate) (ready : Bool)
  | ended (gate : Gate) (ready : Bool)
  | hardware (call : HardwareCall)
  /-- The closure assigns the variables it shares. -/
  | assigned
  /-- `Run` returns. -/
  | ran (err : Option RunError)
  deriving DecidableEq

/-- `admission`: the gate, and the outcome it refuses an object with if it is
    one that can; the empty outcome serves it. -/
structure Admission where
  ready : Bool
  refusesObject : Option (GoString → String) := none

/-- A coordinator and what its dependencies answer in one call. -/
structure Coordinator where
  allowed : GoString → GoString → GoString → GoString → Bool
  admission : Option Admission := none
  route : GoString → GoString → GoString → Except RegistryError Route
  routeForSeal : GoString → GoString → Except RegistryError Route
  routeForUnwrap : GoString → GoString → GoString → Except RegistryError Route
  /-- `envelope.Peek`: the version of the key and the time of sealing. -/
  peek : List UInt8 → Option (GoString × GoTime)
  now : GoTime
  library : Approval.Library
  approvers : Option Approval.KeySet := none
  nodeID : GoString := []
  /-- `policy.ParseCosmosSignDoc`. -/
  parseCosmos : List UInt8 → Option Policy.CosmosTransaction
  evaluate : Policy.Request → Policy.Decision
  record : Draft → Bool → Progress
  gates : List Gate := []
  randomID : Option GoString

/-! ### The checks -/

def sealEnvelope : GoString := ofText "seal-envelope"

def releaseSecret : GoString := ofText "release-secret"

def cosmosContentType : GoString := ofText "application/vnd.cosmos.tx+protobuf"

def dataKeyContentType : GoString := ofText "application/vnd.regalia.data-key"

def agentIdentityPrefix : GoString := ofText "spiffe://regalia/agent/"

def isAgent (principal : GoString) : Bool :=
  agentIdentityPrefix.length < principal.length &&
    principal.take agentIdentityPrefix.length = agentIdentityPrefix

def agentRefuses (principal operation : GoString) : Bool :=
  operation = releaseSecret && isAgent principal

/-- A refusal: what is recorded of it, and what the caller gets. -/
structure Refusal where
  draft : Draft
  failure : Failure

def deny (outcome : String) (failure : Failure) : Refusal := ⟨⟨"deny", outcome, [], []⟩, failure⟩

variable (c : Coordinator) (r : Request)

/-- The checks before routing: the trace of those that passed, and the refusal
    if one did not. -/
def Coordinator.authorize : List Event × Option Refusal :=
  if agentRefuses r.principal r.operation then ([], some (deny "agent-release-refused" denied))
  else if ¬ c.allowed r.principal r.objectID r.operation r.context.environment then
    ([], some (deny "rbac-denied" denied))
  else
    match c.admission with
    | none => ([.authorized], none)
    | some gate =>
      if ¬ gate.ready then ([.authorized], some (deny "not-admitted" dependencyUnavailable))
      else
        match gate.refusesObject with
        | none => ([.authorized, .admitted], none)
        | some refuses =>
          let outcome := refuses r.objectID
          if outcome = "" then ([.authorized, .admitted, .objectServed], none)
          else if outcome = "survivor-directive-disabled" then
            ([.authorized, .admitted], some (deny outcome denied))
          else ([.authorized, .admitted], some (deny outcome dependencyUnavailable))

/-- What a registry error is recorded and answered as. -/
def routingRefusal : RegistryError → Refusal
  | .notFound => deny "routing-object-unknown" ⟨"NOT_FOUND", 404, false⟩
  | .dependencyUnavailable => deny "routing-backend-unavailable" ⟨"BACKEND_UNAVAILABLE", 503, true⟩
  | .revoked => deny "denied-kek-revoked" denied
  | .other => deny "routing-denied" denied

/-- The route an operation takes. -/
def Coordinator.selectRoute : Except Refusal Route :=
  if r.operation = sealEnvelope then
    match c.routeForSeal r.objectID r.context.purpose with
    | .error err => .error (routingRefusal err)
    | .ok route => .ok route
  else if r.operation = releaseSecret then
    match c.peek r.data with
    | none => .error (deny "malformed-envelope" invalidArgument)
    | some (version, sealedAt) =>
      match c.routeForUnwrap r.objectID r.context.purpose version with
      | .error err => .error (routingRefusal err)
      | .ok route =>
        if 0 < route.envelopeMaxAge ∧ route.envelopeMaxAge < c.now.sub sealedAt then
          .error ⟨⟨"deny", "envelope-expired", route.deviceID, []⟩, denied⟩
        else .ok route
  else
    match c.route r.objectID r.context.purpose r.operation with
    | .error err => .error (routingRefusal err)
    | .ok route => .ok route

variable (r : Request) (route : Route) (asked : Policy.Request) (w : Weather) (s : Schedule)

def Request.effectiveType : GoString :=
  if r.contentType = [] then dataKeyContentType else r.contentType

def payloadBytes : Int :=
  if r.operation = sealEnvelope then r.sealCiphertext.length else r.data.length

/-- A length as eight bytes, the most significant first. -/
def bigEndian64 (n : Nat) : List UInt8 :=
  (List.range 8).map (fun i => UInt8.ofNat (n / 256 ^ (7 - i) % 256))

/-- The bytes an approver's signature commits to. -/
def approvalPayload : List UInt8 :=
  if r.operation ≠ sealEnvelope then r.data
  else bigEndian64 r.sealNonce.length ++ r.sealNonce ++ r.sealCiphertext

/-- What an approval for a request is bound to on this node. -/
def Coordinator.binding : Approval.Binding where
  objectID := r.objectID
  purpose := r.context.purpose
  environment := r.context.environment
  nonce := r.context.nonce
  expiresAt := r.context.expiresAt
  payload := approvalPayload r
  signer := c.nodeID

/-- The approvals counted for a request. -/
def Coordinator.counted : List Approval.Evidence :=
  Approval.counted c.library c.approvers r.approvals (c.binding r)

/-- What the policy is asked, but for the transaction. -/
def Coordinator.policyRequest : Policy.Request where
  requestID := r.requestID
  principal := r.principal
  objectID := r.objectID
  purpose := r.context.purpose
  environment := r.context.environment
  operation := r.operation
  algorithm := route.algorithm
  contentType := r.effectiveType
  payloadBytes := payloadBytes r
  expiresAt := r.context.expiresAt
  nonce := r.context.nonce
  payloadSHA256 := GoString.ofRunes (hexText (Sha256.sum (approvalPayload r)))
  verifiedApprovers := Approval.verify c.library c.approvers r.approvals (c.binding r)

/-- From the route to what the policy is asked. -/
def Coordinator.prepare :
    Except Refusal Policy.Request :=
  if r.context.signer ≠ [] ∧ r.context.signer ≠ c.nodeID then
    .error ⟨⟨"deny", "approval-signer-other-node", route.deviceID, []⟩, invalidArgument⟩
  else
    let asked := c.policyRequest r route
    if r.effectiveType = cosmosContentType then
      match c.parseCosmos r.data with
      | none =>
        .error ⟨⟨"deny", "policy-cosmos-malformed", route.deviceID, asked.verifiedApprovers⟩,
          invalidArgument⟩
      | some transaction => .ok { asked with cosmos := some transaction }
    else .ok asked

/-- Everything up to the policy: the trace, and the refusal or the route and
    what the policy is asked. -/
def Coordinator.check :
    List Event × Except Refusal (Route × Policy.Request) :=
  match c.authorize r with
  | (trace, some refusal) => (trace, .error refusal)
  | (trace, none) =>
    match c.selectRoute r with
    | .error refusal => (trace, .error refusal)
    | .ok route =>
      match c.prepare r route with
      | .error refusal => (trace ++ [.routed], .error refusal)
      | .ok asked => (trace ++ [.routed], .ok (route, asked))

/-- `policyReason`. -/
def policyReason (decision : Policy.Decision) : String :=
  "policy-" ++ decision.code.text ++ if decision.rule = "" then "" else ":" ++ decision.rule

/-- What a denial of the policy is answered with. -/
def policyFailure : Policy.Code → Failure
  | .stateUnavailable => dependencyUnavailable
  | .replay => ⟨"CONFLICT", 409, false⟩
  | .limitExceeded => ⟨"RESOURCE_EXHAUSTED", 429, true⟩
  | _ => denied

/-! ### Records -/

/-- `recordOrCount`. -/
def Coordinator.recordOrCount (c : Coordinator) (draft : Draft) (requireRemote : Bool) : List Event :=
  let progress := c.record draft requireRemote
  .recorded draft requireRemote progress ::
    if progress = .lost then [.dropped draft.outcome] else []

/-! ### The operation -/

/-- How a context ends. -/
inductive Expiry where
  | timeout
  | canceled
  deriving DecidableEq, Repr

def Expiry.error : Expiry → RunError
  | .timeout => .timeout
  | .canceled => .canceled

/-- What becomes of the operation in `Executor.Run`. -/
inductive Execution where
  /-- The context is done before it starts. -/
  | refused (expiry : Expiry)
  | busy
  /-- It ends, its context by then done or not. -/
  | ends (expired : Option Expiry)
  /-- It panics after so many of its effects. -/
  | panics (after : Nat)
  /-- Its context is done after so many of its effects, and it goes on. -/
  | outlives (after : Nat) (expiry : Expiry)
  deriving DecidableEq, Repr

/-- What the runner and the operation meet: the answers of the gates, of the
    card and of the executor. Sealing may fail before the card is asked, and
    makes an envelope of what the card returns. -/
structure Weather where
  queued : Gate → Bool
  begun : Gate → Bool
  ended : Gate → Bool
  sealRefused : Option RunError
  wrapAAD : List UInt8
  card : List UInt8 × GoString × Option RunError
  assemble : List UInt8 → Except RunError (List UInt8)
  execution : Execution

/-- The gates asked one after another, up to the first that is not ready. -/
def askGates (event : Gate → Bool → Event) (ready : Gate → Bool) :
    List Gate → List Event × Option RunError
  | [] => ([], none)
  | gate :: rest =>
    if ready gate then (event gate true :: (askGates event ready rest).1, (askGates event ready rest).2)
    else ([event gate false], some gate.error)

def envelopeContentType : GoString := ofText "application/vnd.regalia.envelope"

/-- `seal`, once the card has answered. -/
def Weather.sealed : List UInt8 × GoString × Option RunError :=
  if w.card.2.2 ≠ none ∨ w.card.1 = [] then ([], [], some .backend)
  else
    match w.assemble w.card.1 with
    | .error err => ([], [], some err)
    | .ok encoded => (encoded, envelopeContentType, none)

/-- The call to the card, if it comes to that, and what the closure assigns:
    the output, its type and the error. -/
def work :
    Option HardwareCall × (List UInt8 × GoString × Option RunError) :=
  if r.operation = sealEnvelope then
    match w.sealRefused with
    | some err => (none, [], [], some err)
    | none =>
      (some ⟨route.deviceID, ofText "wrap", ofText "regalia-envelope-v2",
        dataKeyContentType, r.sealDataKey, w.wrapAAD⟩, w.sealed)
  else
    let data := if r.effectiveType = cosmosContentType then Sha256.sum r.data else r.data
    (some ⟨route.deviceID, r.operation, r.format, r.effectiveType, data, r.envelopeAAD⟩, w.card)

/-- The closure and the gates around it: its effects in order, and what it
    returns. The gate nearest the executor starts first. -/
def Coordinator.operation :
    List Event × Option RunError :=
  match askGates .begun w.begun c.gates.reverse with
  | (trace, some err) => (trace, some err)
  | (trace, none) =>
    let done := work r route w
    let body := trace ++ (done.1.toList.map .hardware ++ [.assigned])
    match done.2.2.2 with
    | some err => (body, some err)
    | none =>
      let ends := askGates .ended w.ended c.gates
      (body ++ ends.1, ends.2)

/-- `Run`: what happens before it returns, what is left of the operation then,
    and what it returns. -/
def Coordinator.run :
    List Event × List Event × Option RunError :=
  match askGates .queued w.queued c.gates with
  | (trace, some err) => (trace, [], some err)
  | (trace, none) =>
    let operation := c.operation r route w
    match w.execution with
    | .refused expiry => (trace, [], some expiry.error)
    | .busy => (trace, [], some .busy)
    | .ends none => (trace ++ operation.1, [], operation.2)
    | .ends (some expiry) => (trace ++ operation.1, [], some expiry.error)
    | .panics after => (trace ++ operation.1.take after, [], some .panicked)
    | .outlives after expiry =>
      (trace ++ operation.1.take after, operation.1.drop after, some expiry.error)

/-! ### Execute -/

/-- How many effects of an operation that is still running happen before the
    statements of `Execute` that read or write what it shares: the assignment
    of the error, its test, the tests of which error it is and its answer, the
    test of the output, the record of success and the return. -/
structure Schedule where
  assign : Nat := 0
  test : Nat := 0
  output : Nat := 0
  success : Nat := 0
  envelope : Nat := 0
  admission : Nat := 0
  answer : Nat := 0

/-- The variables that the closure shares. -/
structure Shared where
  output : List UInt8 := []
  outputType : GoString := []
  err : Option RunError := none

/-- The variables after some effects of the operation. The closure assigns the
    error of `Execute` itself when it seals, and one of its own otherwise. -/
def Shared.after (s : Shared) (effects : List Event) :
    Shared :=
  if .assigned ∈ effects then
    let result := (work r route w).2
    { output := result.1
      outputType := result.2.1
      err := if r.operation = sealEnvelope then result.2.2 else s.err }
  else s

structure Outcome where
  trace : List Event
  result : Except Failure Result

/-- `classifyExecution`. -/
def classifyExecution : Option RunError → Failure
  | some .busy => ⟨"RESOURCE_EXHAUSTED", 429, true⟩
  | some .timeout => ⟨"DEADLINE_EXCEEDED", 504, true⟩
  | some .canceled => ⟨"CANCELED", 504, false⟩
  | some .panicked => internal
  | _ => ⟨"BACKEND_UNAVAILABLE", 503, true⟩

/-- The draft of an allowed request. -/
def allowDraft (outcome : String) : Draft :=
  ⟨"allow", outcome, route.deviceID, asked.verifiedApprovers⟩

/-- After a run that failed: which error it is, the record and the answer. -/
def Coordinator.fail (shared : Shared) (pending : List Event) : Outcome :=
  let before := pending.take s.envelope
  let shared := shared.after r route w before
  let pending := pending.drop s.envelope
  if shared.err = some .invalidEnvelope then
    ⟨before ++ c.recordOrCount (allowDraft route asked "integrity-failed") true ++ pending,
      .error invalidArgument⟩
  else
    let then_ := pending.take s.admission
    let shared := shared.after r route w then_
    let pending := pending.drop s.admission
    if shared.err = some .notAdmitted then
      ⟨before ++ then_ ++
          c.recordOrCount ⟨"deny", "not-admitted", route.deviceID, asked.verifiedApprovers⟩ true ++
          pending, .error dependencyUnavailable⟩
    else
      let last := pending.take s.answer
      let shared := shared.after r route w last
      ⟨before ++ then_ ++ c.recordOrCount (allowDraft route asked "backend-failed") true ++ last ++
          pending.drop s.answer, .error (classifyExecution shared.err)⟩

/-- After a run that succeeded: the test of the output, the record, and the
    output handed back. -/
def Coordinator.release (shared : Shared) (pending : List Event) : Outcome :=
  let before := pending.take s.output
  let shared := shared.after r route w before
  let pending := pending.drop s.output
  if shared.output = [] ∨ shared.outputType = [] then
    ⟨before ++ c.recordOrCount (allowDraft route asked "empty-output") true ++ pending,
      .error internal⟩
  else
    let draft := allowDraft route asked "success"
    let progress := c.record draft true
    let trace := before ++ [.recorded draft true progress]
    if ¬ progress.recorded true then ⟨trace ++ pending, .error dependencyUnavailable⟩
    else
      let last := pending.take s.success
      let shared := shared.after r route w last
      let pending := pending.drop s.success
      match c.randomID with
      | none => ⟨trace ++ last ++ pending, .error internal⟩
      | some id => ⟨trace ++ last ++ pending, .ok ⟨id, shared.outputType, shared.output⟩⟩

/-- From the call of `Run` to the end. -/
def Coordinator.settle : Outcome :=
  let run := c.run r route w
  let early := run.2.1.take s.assign
  let shared := ({} : Shared).after r route w (run.1 ++ early)
  -- what Run returned is assigned over whatever the closure assigned before
  let shared := { shared with err := run.2.2 }
  let pending := run.2.1.drop s.assign
  let late := pending.take s.test
  let shared := shared.after r route w late
  let pending := pending.drop s.test
  let rest :=
    if shared.err = none then c.release r route asked w s shared pending
    else c.fail r route asked w s shared pending
  ⟨run.1 ++ early ++ .ran run.2.2 :: (late ++ rest.trace), rest.result⟩

/-- From the record that a request is authorized to the end. -/
def Coordinator.perform : Outcome :=
  let draft := allowDraft route asked "authorized"
  let progress := c.record draft true
  if ¬ progress.recorded true then
    ⟨[.recorded draft true progress], .error dependencyUnavailable⟩
  else
    let rest := c.settle r route asked w s
    ⟨.recorded draft true progress :: rest.trace, rest.result⟩

/-- `Execute`. -/
def Coordinator.execute : Outcome :=
  match c.check r with
  | (trace, .error refusal) =>
    ⟨trace ++ c.recordOrCount refusal.draft false, .error refusal.failure⟩
  | (trace, .ok (route, asked)) =>
    let decision := c.evaluate asked
    if ¬ decision.allowed then
      ⟨trace ++ c.recordOrCount
          ⟨"deny", policyReason decision, route.deviceID, asked.verifiedApprovers⟩ false,
        .error (policyFailure decision.code)⟩
    else
      let rest := c.perform r route asked w s
      ⟨trace ++ .policyAllowed :: rest.trace, rest.result⟩

end Regalia.Operations
