import Regalia.Core.Audit.Collector

/-!
# Requests Under Way

The handler of an event asks `resolveCaller` whose streams the caller writes
and later runs `commit` under the answer. Each of the two holds the
collector's lock and the handler holds nothing between them, so a hand-over,
or another request, may come in between. A restart ends every request that is
under way.

What happens before `resolveCaller` reads no state of the collector; an
`Arrival` is a request that has passed it.

A hand-over is recorded as a whole: its line is in the log and it is in
effect, or neither.

## Main definitions

* `Arrival`, `Request`: A request before and after its caller was resolved.
* `Serving.step`: One critical section, or a restart.
-/

namespace Regalia.Audit

/-- An event that passed the checks that read no state, and its caller. -/
structure Arrival where
  caller : Identity
  site : String
  event : Event
  bound : event.hash = eventHash event
  fits : byteLength event.text + 1 ≤ maxLine
  read : event.decoded = event

/-- A request whose caller was resolved to the owner of some streams. -/
structure Request where
  arrival : Arrival
  streamIdentity : Identity

/-- The collector, none when it did not start, the requests between their two
    steps, and those whose `commit` ran when their caller was retired. -/
structure Serving where
  collector : Option Collector := some {}
  pending : List Request := []
  late : List Request := []

/-- One critical section, or a restart. -/
inductive Move where
  | resolve (arrival : Arrival)
  | commit (k : Nat) (fault : Option AppendFault)
  | handover (old new : Identity)
  | restart

def Serving.step (w : Serving) (m : Move) : Serving :=
  match w.collector with
  | none => w
  | some c =>
    match m with
    | .resolve arrival =>
      match c.resolveCaller arrival.caller with
      | .error _ => w
      | .ok streamIdentity => { w with pending := w.pending ++ [⟨arrival, streamIdentity⟩] }
    | .commit k fault =>
      match w.pending[k]? with
      | none => w
      | some r =>
        { collector := some (c.commit r.streamIdentity r.arrival.site r.arrival.event fault).1
          pending := w.pending.eraseIdx k
          late := if (c.successor r.arrival.caller).isSome then r :: w.late else w.late }
    | .handover old new => { w with collector := some (c.recordHandover old new).1 }
    | .restart => { w with collector := openCollector c.disk, pending := [] }

end Regalia.Audit
