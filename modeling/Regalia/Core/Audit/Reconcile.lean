import Regalia.Core.Audit.Recorder

/-!
# Reconciling With the Collector

`internal/audit/reconcile.go`: before a daemon opens its journal it compares it
with the last event the collector committed for its stream, the one position
the host cannot write.

## Main definitions

* `reconcilePositions`, `reconcileContinuity`: The comparison.
* `Host.committedHead`, `Host.reconcile`: The comparison of a host.
-/

namespace Regalia.Audit

/-- `sequenceOf`. -/
def sequenceOf (events : List Event) : Nat := (events.getLast?.map Event.sequence).getD 0

/-- `reconcilePositions`. -/
def reconcilePositions (events : List Event) (head : Nat) (headHash : Literal) (shipped : Nat) :
    Except String Unit :=
  if head < shipped then
    .error ("local shipped mark records sequence " ++ toString shipped ++
      " but the collector committed only through " ++ toString head ++
      " — a mark ahead of the collector is impossible without forgery or an ack-without-commit")
  else if sequenceOf events < head then
    .error ("the collector committed through sequence " ++ toString head ++
      " but the local journal ends at " ++ toString (sequenceOf events) ++
      " — the host holds less history than it already shipped; the missing events exist off-host and their absence here is an incident")
  else
    match events[head - 1]? with
    | none => .error "runtime error: index out of range"
    | some committed =>
      if committed.hash ≠ headHash then
        .error ("the journal's event at sequence " ++ toString head ++
          " does not match what this site already shipped (collector hash " ++
          String.ofList (headHash.map (·.getD GoString.runeError)) ++
          ") — the journal was rewritten after the off-host copy was made")
      else .ok ()

/-- `ReconcileContinuity`, with a collector that answers: what `VerifyIntegrity`
    made of the journal, the head that was committed, and the shipped mark. -/
def reconcileContinuity (verified : Except String (List Event)) (head : Nat × Literal)
    (shipped : Option HighWaterMark) : Except String Unit :=
  match verified with
  | .error err => .error ("local journal: " ++ err)
  | .ok events =>
    if head.1 = 0 then
      if events ≠ [] then
        .error ("collector holds nothing for this stream but the journal has " ++
          toString events.length ++
          " events — the off-host memory forgot what this host already shipped")
      else .ok ()
    else reconcilePositions events head.1 head.2 (readMark shipped).sequence

/-- What a stream's hashes give as its position. -/
def position (hashes : List Literal) : Nat × Literal := (hashes.length, hashes.getLast?.getD [])

/-- `CommittedHead`, of the stream of a host. -/
def Host.committedHead (identity : Identity) (site : String) (w : Host) : Nat × Literal :=
  position (w.held identity site)

/-- `ReconcileContinuity` of a host whose collector is reachable. -/
def Host.reconcile (identity : Identity) (site : String) (w : Host) : Except String Unit :=
  reconcileContinuity w.disk.verifyIntegrity (w.committedHead identity site) w.disk.shipped

end Regalia.Audit
