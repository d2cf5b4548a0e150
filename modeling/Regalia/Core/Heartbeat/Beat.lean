import Regalia.Core.Heartbeat.Envelope

/-!
# Signing Heartbeats

`deploy/baremetal/beat.py`: how two nodes come to sign one heartbeat. A node
proposes a body of its own or co-signs one a peer proposes, and either way it
is its `Signer` that signs: the sequence is compared with the node's signing
counter, then reserved on that counter, and only then signed.

The threads and processes of a node share the counter and nothing else. Each
call of the signer is a task that goes through its stages one move at a time,
between any moves of the others: the first reading of the counter is made
without the lock, the advance under it, one increment of the TPM at a time, and
the signature after it is let go. A task that is refused is gone, and a crash
takes all of them.

## Main definitions

* `countingNodes`: The nodes whose signature counts.
* `cosignChecks`, `proposal`: What comes before the signer.
* `Signer.admits`, `advances`: What the signer checks.
* `Node`, `Move`, `Node.step`: A node and what can happen to it.
* `Cluster`, `Cluster.run`: Any number of nodes.
-/

namespace Regalia.Heartbeat

open Regalia.Membership

def issueSkew : Int := 300

/-- `strftime` does not pad the year. -/
def stamp (seconds : Int) : Value :=
  let t := Civil.ofUnix seconds
  .str (String.ofList (Nat.toDigits 10 t.year ++ (timeText t).drop 4))

/-! ### Before the signer -/

/-- `counting_nodes`: the proposers, in order. -/
def countingNodes (manifest : Value) : Check (List String) := do
  require (field manifest "schema" = .str Schema.v4.text)
    "heartbeats are signed by the nodes only under a %s manifest" [.text Schema.v4.text]
  let nodes ← Python.validate manifest
  let parties := (itemsOf (field (field manifest "heartbeat_signers") "parties")).map textOf
  return (parties.filter (fun p => p ≠ ownerParty &&
    ((nodes.at p).any (fun node => hasField node "signing_key" &&
      !(stateOf node).any NodeState.notCounting)))).insertionSort (· ≤ ·)

variable (crypto : Crypto) (signer : Signer) (node : Node)

/-- `held_sequence`: of the heartbeat a node holds, if it is for the manifest. -/
def heldSequence (held : Option Value) (manifest : Value) : Option Int :=
  held.bind fun envelope =>
    match verify crypto envelope manifest with
    | .ok signed => some (sequenceOf signed.heartbeat)
    | .error _ => none

/-- `_now`. -/
def authenticated (clock : Option Int) : Check Int :=
  demand clock "time is not authenticated: no heartbeat is signed" []

/-- What the calls around the signer are told: the clock's answer, none where
    the time is not authenticated, and what the node's freshness state has for
    the heartbeat counter and the heartbeat held. -/
structure Around where
  clock : Option Int
  accepted : Nat
  held : Option Value

/-- `cosign`, up to the call of the signer. -/
def cosignChecks (manifest : Value) (me caller : String)
    (body signature : Value) (around : Around) : Check Unit := do
  let order ← countingNodes manifest
  require (me ∈ order) "%s does not count toward heartbeat_signers under epoch %d: it co-signs nothing"
    [.text me, .value (field manifest "epoch")]
  require (caller ∈ order) "%s does not count toward heartbeat_signers under epoch %d"
    [.text caller, .value (field manifest "epoch")]
  let times ← validate body
  require (field body "epoch" = field manifest "epoch" ∧
      field body "manifest_digest" = .str (Python.digest manifest))
    "the proposal is for another manifest (epoch %d, %s...), this node's is epoch %d (%s...)"
    [.value (field body "epoch"), .text ((textOf (field body "manifest_digest")).take 16).toString,
      .value (field manifest "epoch"), .text ((Python.digest manifest).take 16).toString]
  let lives := times.2 - times.1
  require (lives ≤ maxLifetime manifest) "the proposal lives %d s, more than the manifest's %d s"
    [.number lives, .number (maxLifetime manifest)]
  let now ← authenticated around.clock
  require ((times.1 - now).natAbs ≤ issueSkew)
    "the proposal is issued at %s, %d s from this node's authenticated time"
    [.value (field body "issued_at"), .number (times.1 - now)]
  require (isObject signature ∧ field signature "party" = .str caller)
    "the proposal is not signed by %s, who sent it" [.text caller]
  let parties ← Python.countingParties crypto (some manifest) (message body) (.arr [signature])
    "proposal"
  require (parties = [caller]) "the proposer's signature does not count" []
  -- a node never signs what it would itself refuse to accept
  let sequence := sequenceOf body
  require (around.accepted < sequence)
    "REPLAY: sequence %d is not above this node's heartbeat counter %d"
    [.number sequence, .number around.accepted]
  let allowance ← allowedJump body (around.held.getD .null) maxJump
  require (sequence - around.accepted ≤ allowance) "sequence jump %d exceeds the bound %d"
    [.number (sequence - around.accepted), .number allowance]

/-- A heartbeat body, its names in order. -/
def bodyOf (epoch : Document) (sequence issued expires : Int) (digest : String) : Document :=
  ⟨.obj [("epoch", epoch), ("expires_at", stamp expires), ("issued_at", stamp issued),
      ("manifest_digest", .str digest), ("schema", .str schema), ("sequence", .num sequence)],
    ⟨(by decide +kernel : ["epoch", "expires_at", "issued_at", "manifest_digest", "schema",
      "sequence"].Pairwise (· < ·)), epoch.2, trivial, trivial, trivial, trivial, trivial, trivial⟩⟩

/-- The body `propose` makes. `signed` is what the signing counter reads. -/
def proposal (manifest : Document) (now : Int) (around : Around) (signed : Nat) :
    Document :=
  let held := (heldSequence crypto around.held manifest).getD 0
  let sequence := max (max held around.accepted) signed + 1
  bodyOf ⟨field manifest "epoch", Ordered.field manifest.2 "epoch"⟩ sequence now
    (now + maxLifetime manifest) (Python.digest manifest)

/-! ### The signer -/

/-- A node's name and its signing key. -/
structure Signer where
  nodeId : String
  key : String

/-- What the signer checks first: the key is the manifest's for this node, and
    the sequence is above the counter as it reads now. -/
def Signer.admits (body manifest : Value) (counter : Nat) : Check Unit := do
  let nodes ← Python.validate manifest
  require ((nodes.at signer.nodeId).any (fun node =>
      field (field node "signing_key") "key" = .str signer.key))
    "this node's signing key is not the one the manifest at epoch %d gives %s: nothing is signed"
    [.value (field manifest "epoch"), .text signer.nodeId]
  require (counter < sequenceOf body)
    "sequence %d is not above this node's signing counter %d: a number is signed once"
    [.number (sequenceOf body), .number counter]

/-- What `Counter.advance` checks once it has the lock. -/
def advances (sequence : Int) (counter : Nat) (bound : Int) : Check Unit := do
  require (counter < sequence) "REPLAY: sequence %d is not above the TPM counter %d"
    [.number sequence, .number counter]
  require (sequence - counter ≤ bound) "sequence jump %d exceeds the bound %d: anomaly"
    [.number (sequence - counter), .number bound]

/-! ### A node -/

/-- How far a call of the signer has come. -/
inductive Stage where
  | called
  | checked
  | advancing (now : Nat)  -- under the counter's lock; what it last read
  | reserved
  deriving DecidableEq

structure Task where
  body : Document
  manifest : Document
  stage : Stage

def Task.locks (task : Task) : Bool :=
  match task.stage with
  | .advancing _ => true
  | _ => false

/-- The counter is in the TPM. The tasks are the node's running calls, and
    what was signed is a record no code reads: the heartbeat bodies, and what
    else the signing key signed. -/
structure Node where
  counter : Nat := 0
  tasks : List Task := []
  bodies : List Document := []
  others : List (List UInt8) := []

/-- What an increment of the TPM comes to. -/
inductive Increment where
  | done
  | failed (moved : Bool)  -- it may have moved the counter and not said so
  deriving DecidableEq

inductive Move where
  | propose (manifest : Document) (around : Around)
  | cosign (manifest : Document) (caller : String) (body signature : Document) (around : Around)
  | check (i : Nat)
  | lock (i : Nat)
  | increment (i : Nat) (answer : Increment)
  | release (i : Nat)
  | sign (i : Nat)
  | abandon (i : Nat)  -- a call fails, or its process is gone
  | crash
  | raise (steps : Nat)
  | other (message : List UInt8)

namespace Node

/-- A task comes to its next stage. -/
def advanceTo (i : Nat) (task : Task) (stage : Stage) : Node :=
  { node with tasks := node.tasks.set i { task with stage := stage } }

/-- A task is refused or has returned. -/
def drop (i : Nat) : Node := { node with tasks := node.tasks.eraseIdx i }

def call (body manifest : Document) : Node :=
  { node with tasks := node.tasks ++ [⟨body, manifest, .called⟩] }

/-- One move of one task. -/
def taskStep (task : Task) : Move → Node
  | .check i =>
    if task.stage = .called then
      if (signer.admits task.body task.manifest node.counter).isOk then
        node.advanceTo i task .checked
      else node.drop i
    else node
  | .lock i =>
    if task.stage = .checked ∧ ¬ node.tasks.any Task.locks then
      if (advances (sequenceOf task.body) node.counter maxAllowance).isOk then
        node.advanceTo i task (.advancing node.counter)
      else node.drop i
    else node
  | .increment i answer =>
    match task.stage, answer with
    | .advancing now, .done =>
      if now < sequenceOf task.body then
        let next := node.counter + 1
        -- the increment is read back
        if next = now + 1 then
          { node.advanceTo i task (.advancing next) with counter := next }
        else { node.drop i with counter := next }
      else node
    | .advancing now, .failed moved =>
      if now < sequenceOf task.body then
        { node.drop i with counter := node.counter + moved.toNat }
      else node
    | _, _ => node
  | .release i =>
    match task.stage with
    | .advancing now => if now < sequenceOf task.body then node else node.advanceTo i task .reserved
    | _ => node
  | .sign i =>
    if task.stage = .reserved then
      { node.drop i with bodies := node.bodies ++ [task.body] }
    else node
  | .abandon i => node.drop i
  | _ => node

/-- The task a move is of. -/
def moved : Move → Option Task
  | .check i | .lock i | .increment i _ | .release i | .sign i | .abandon i => node.tasks[i]?
  | _ => none

def act (move : Move) : Node :=
  match node.moved move with
  | some task => node.taskStep signer task move
  | none => node

-- what else the key signed is no task's
theorem act_others (move : Move) : (node.act signer move).others = node.others := by
  unfold act
  split
  · cases move <;> simp only [taskStep] <;> repeat' split
    all_goals rfl
  · rfl

def step : Move → Node
  | .propose manifest around =>
    match authenticated around.clock with
    | .ok now => node.call (proposal crypto manifest now around node.counter) manifest
    | .error _ => node
  | .cosign manifest caller body signature around =>
    if (cosignChecks crypto manifest signer.nodeId caller body signature around).isOk then
      node.call body manifest
    else node
  | .crash => { node with tasks := [] }
  -- whatever else moves the counter moves it up
  | .raise steps => { node with counter := node.counter + steps }
  -- the signing key's other uses are each under a domain of their own
  | .other message =>
    if domain <+: message then node else { node with others := node.others ++ [message] }
  | move => node.act signer move

/-- The messages the node's signing key has signed. -/
def messages : List (List UInt8) :=
  node.bodies.map (fun body : Document => message body) ++ node.others

end Node

/-! ### Any number of nodes -/

/-- The nodes by name, and the signing key of each. -/
abbrev Cluster := String → Node

def Cluster.step (crypto : Crypto) (keys : String → String) (cluster : Cluster)
    (event : String × Move) : Cluster :=
  Function.update cluster event.1
    ((cluster event.1).step crypto ⟨event.1, keys event.1⟩ event.2)

def Cluster.run (keys : String → String) (events : List (String × Move)) :
    Cluster :=
  events.foldl (Cluster.step crypto keys) (fun _ => {})

end Regalia.Heartbeat
