import Regalia.Core.Coordinator.Execute

/-!
# A Node Over Its Policy State

One node over its life: processes start on the same policy journal, each with
the policies and approver keys of its configuration, execute requests, and end
or die. A call of `Execute` is followed up to the decision of the policy,
which is where its approvals are counted and its nonce is spent. What the
other dependencies answer in a call is part of the call and may be anything.

## Main definitions

* `Process`: What a process is started with.
* `Grant`: A request that the policy allowed.
* `Node.decide`: A call up to the decision.
* `Node.step`: One move in the life of a node.
-/

namespace Regalia.Operations

/-- What a process is started with. -/
structure Process where
  engine : Policy.Engine
  approvers : Option Approval.KeySet := none

/-- A request that `Evaluate` allowed, the policy that allowed it and the
    approvals that were counted for it. -/
structure Grant where
  request : Request
  policyID : GoString
  counted : List Approval.Evidence

/-- What all processes of a node share: its name, and the standard library. -/
structure Node where
  nodeID : GoString
  library : Approval.Library

/-- The coordinator of a process on a node, with what the other dependencies
    answer in one call. -/
def Node.coordinator (node : Node) (process : Process) (answers : Coordinator) : Coordinator :=
  { answers with nodeID := node.nodeID, library := node.library, approvers := process.approvers }

structure NodeState where
  world : Policy.World := {}
  process : Option Process := none
  grants : List Grant := []

/-- A call of `Execute` up to the decision of the policy: the decision, if the
    request comes to it and the process lives to see it, and the policy state
    after it. -/
def Node.decide (node : Node) (process : Process) (answers : Coordinator) (now : GoTime)
    (epoch : UInt64) (fault : Option Policy.Fault) (w : Policy.World) (r : Request) :
    Option Policy.Decision × Policy.World :=
  match ((node.coordinator process answers).check r).2 with
  | .error _ => (none, w)
  | .ok (_, asked) => process.engine.evaluate now epoch fault w asked

/-- A process starts, executes a request, closes its state, or is gone. -/
inductive NodeMove where
  | start (process : Process) (fault : Option Policy.OpenFault)
  | execute (answers : Coordinator) (now : GoTime) (epoch : UInt64) (fault : Option Policy.Fault)
      (r : Request)
  | close
  | kill

/-- One move. A process that cannot open its policy state does not serve, and
    one that dies in a call grants nothing. -/
def Node.step (node : Node) (s : NodeState) : NodeMove → NodeState
  | .start process fault =>
    let result := s.world.step (.openState fault)
    match result.2 with
    | .returns none => { s with world := result.1, process := some process }
    | _ => { s with world := result.1 }
  | .execute answers now epoch fault r =>
    match s.process, s.world.handle with
    | some process, some _ =>
      let result := node.decide process answers now epoch fault s.world r
      match result.1 with
      | some decision =>
        if decision.allowed then
          { s with
              world := result.2
              grants := s.grants ++
                [⟨r, decision.policyID, (node.coordinator process answers).counted r⟩] }
        else { s with world := result.2 }
      | none => { s with world := result.2 }
    | _, _ => s
  | .close => { s with world := (s.world.step .close).1 }
  | .kill => { s with world := (s.world.step .kill).1, process := none }

def Node.run (node : Node) (moves : List NodeMove) : NodeState := moves.foldl node.step {}

end Regalia.Operations
