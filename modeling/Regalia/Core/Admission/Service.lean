import Regalia.Core.Lease.Runtime

/-!
# The Admission Service

`deploy/baremetal/admission.py`, `Service`: in each round the service writes
the document that tells the daemon until when the node may serve, and puts a
change between serving and not serving on the node's trail. A change to
serving is recorded before the document is written; a change to not serving
is written first, and a record of it that fails is tried again.

What a round asks of others are its `Answers`. Rounds come one at a time:
the document and the trail are written under the service's lock.

## Main definitions

* `Document`, `Event`, `Service`: What is written, recorded and kept.
* `judge`: Whether the node may serve, and until when.
* `Service.publish`: `_publish_locked`.
* `Round`, `Service.round`: `step`, `lapse` and `publish_now`.
-/

namespace Regalia.Admission

open Regalia.Membership
open Regalia.Lease (maxLifetime)

/-- `MARGIN`, in seconds. -/
def margin : Int := 5

inductive Mode where
  | lease
  | recovery
  deriving DecidableEq

/-- The parts of a reason, which the text joins by semicolons. -/
abbrev Reason := List Refused

structure Document where
  /-- `serve_until_boottime_ms`. -/
  serveUntil : Int
  mode : Mode
  reason : Reason
  deriving DecidableEq

def Document.serving (d : Document) : Bool := d.serveUntil ≠ 0

structure Event where
  /-- `outcome`: `ALLOW` for a node that serves, else `DENY`. -/
  serving : Bool
  reason : Reason
  deriving DecidableEq

structure Service where
  recorded : Option Bool := none
  recordedMode : Option Mode := none
  written : Option Document := none
  /-- Every document written, every event the trail took, and whether it took the last. -/
  documents : List Document := []
  trail : List Event := []
  taken : Bool := true

structure Answers where
  /-- `boottime`, in milliseconds. -/
  before : Nat
  /-- `holder.check`: the seconds the lease has left. -/
  check : Check Int
  /-- `_may_serve`. -/
  mayServe : Bool
  /-- `survivor`, where the service has one: the seconds an authorization has left. -/
  survivor : Option (Check (Option Int))
  /-- `record`, of a change to serving: the text of its failure. -/
  allow : Except String Unit
  /-- Whether `record` takes a change to not serving. -/
  deny : Bool

/-! ### One round -/

/-- A normal lease has not run out, by the check or by the last document. -/
def alive (written : Option Document) (a : Answers) : Bool :=
  a.check.toOption.any (0 < ·) || written.any fun last =>
    last.mode = .lease && last.serving && (a.before : Int) < last.serveUntil + margin * 1000

/-- The owner's survivor authorization, asked for where no lease is alive. -/
def recover (reason : Reason) (a : Answers) : Document :=
  match a.survivor with
  | some (.error why) =>
    ⟨0, .lease, reason ++ [⟨"the survivor authorization does not hold: " ++ why.format, why.args⟩]⟩
  | some (.ok (some authLeft)) =>
    let left := min authLeft maxLifetime
    if left > margin then
      ⟨a.before + (left - margin) * 1000, .recovery,
        [⟨"RECOVERY: serving alone under the owner's survivor authorization (%d s left), " ++
          "stateless operations only (ADR-0002 D32.6)", [.number authLeft]⟩]⟩
    else
      ⟨0, .lease, reason ++ [⟨"the survivor authorization has %d s left, inside the %d s margin",
        [.number authLeft, .number margin]⟩]⟩
  | _ => ⟨0, .lease, reason⟩

/-- What the round finds: a document that serves, or why none may. -/
def judge (written : Option Document) (reason : Reason) (refused : Bool) (a : Answers) :
    Document :=
  let lasting : Check Int := do
    let left ← a.check
    require (left > margin) "the lease has %d s left, inside the %d s margin"
      [.number left, .number margin]
    return left
  if refused then ⟨0, .lease, reason⟩
  else match lasting with
    | .ok left => ⟨a.before + (left - margin) * 1000, .lease, []⟩
    | .error refusal =>
      if !alive written a && a.mayServe then recover (reason ++ [refusal]) a
      else ⟨0, .lease, reason ++ [refusal]⟩

variable (s : Service) (a : Answers)

/-- To serving, or to another mode: on the trail first, or not at all. -/
def Service.admit (found : Document) (a : Answers) : Service × Document :=
  if found.serving ∧ (s.recorded ≠ some true ∨ s.recordedMode ≠ some found.mode) then
    match a.allow with
    | .ok () =>
      let event := ⟨true, if found.mode = .recovery then found.reason else []⟩
      ({ s with recorded := some true, recordedMode := found.mode, taken := true,
                trail := s.trail ++ [event] }, found)
    | .error failure =>
      ({ s with taken := false }, ⟨0, .lease,
        [⟨"the change to serving could not be recorded on the admission trail: %s",
          [.text failure]⟩]⟩)
  else (s, found)

/-- To not serving: recorded once the document is written. -/
def Service.stop (document : Document) (a : Answers) : Service :=
  if document.serving = false ∧ s.recorded ≠ some false then
    if a.deny then
      { s with recorded := some false, recordedMode := none, taken := true,
               trail := s.trail ++ [⟨false, document.reason⟩] }
    else { s with taken := false }
  else s

/-- `_publish_locked`. -/
def Service.publish (reason : Reason) (refused : Bool) (a : Answers) : Service :=
  let (s, document) := s.admit (judge s.written reason refused a) a
  let s := { s with documents := s.documents ++ [document] }
  { s.stop document a with written := document }

/-! ### The rounds -/

inductive Round where
  /-- `step`: what a renewal failed with, and a refusal before the check. -/
  | step (failed : Option String) (refusal : Option Refused)
  /-- `lapse`, with the boot clock it reads first. -/
  | lapse (now : Nat)
  /-- `publish_now`: whether the node holds a manifest, where that can be read. -/
  | publishNow (held : Option Bool)

/-- What a round publishes: the reason so far, and whether it has refused. -/
def Round.asks : Round → Option (Reason × Bool)
  | .step failed refusal =>
    let renewal := failed.map fun failure => ⟨"renewal failed: %s", [.text failure]⟩
    some (renewal.toList ++ refusal.toList, refusal.isSome)
  | .lapse now =>
    if s.written.any fun last => last.serving && last.serveUntil ≤ (now : Int) then
      some ([⟨"the admission ran out at its bound", []⟩], false)
    else none
  | .publishNow none => none
  | .publishNow (some true) => some ([], false)
  | .publishNow (some false) => some ([⟨"this node holds no manifest", []⟩], true)

def Service.round (r : Round × Answers) : Service :=
  match r.1.asks s with
  | some (reason, refused) => s.publish reason refused r.2
  | none => s

/-- A new service over any number of rounds. -/
def run (rounds : List (Round × Answers)) : Service := rounds.foldl Service.round {}

end Regalia.Admission
