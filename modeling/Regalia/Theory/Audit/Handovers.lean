import Regalia.Core.Audit.Requests
import Regalia.Data.Lineage
import Regalia.Theory.Audit.Streams

/-!
# Hand-overs

The hand-overs a collector records are lines of succession, whatever requests
are under way: `handoverAllowed` asks for exactly what `Lineage.Lined` does.
The streams are another matter. A stream should stand under the first
identity of its line, so that the last identity of the line, and no other,
reaches it; and a state directory in which an identity that took over has a
stream of its own is one that `loadHandovers` refuses.

A request that was resolved before a hand-over and commits after it can break
this. If it is the retired identity's, its event is committed for a retired
identity; if it is the new identity's, the stream it creates is the new
identity's own. When no request of either is under way as a hand-over is
recorded, neither can happen.

## Main definitions

* `Backed`: Hand-overs that the rules allow in turn, over some streams.
* `Serving.Inv`: What holds between any two steps.
* `Quiet`: No request of either identity is under way at a hand-over.

## Theorems

* `handoverAllowed_iff`: When a hand-over is allowed.
* `Backed.lined`: Hand-overs that are allowed in turn form lines.
* `Backed.grow`: More streams do not disturb the hand-overs there are.
* `handovers_kept`: Runs in which every hand-over is quiet.
* `handover_overtaken`: A run in which one is not.
-/

namespace Regalia.Audit

open List Lineage

variable {c : Collector} {hs : List Handover} {old new : Identity}

/-! ### Hand-overs as successions -/

/-- A hand-over as a succession. -/
def Handover.edge (h : Handover) : Identity × Identity := (h.old, h.new)

def Collector.edges (c : Collector) : List (Identity × Identity) := c.handovers.map Handover.edge

theorem successor_eq (c : Collector) (i : Identity) : c.successor i = next c.edges i := by
  rw [Collector.successor, Lineage.next, Collector.edges, find?_map, Option.map_map]
  rfl

theorem predecessor_eq (c : Collector) (i : Identity) :
    c.predecessor i = prev c.edges i := by
  rw [Collector.predecessor, Lineage.prev, Collector.edges, find?_map, Option.map_map]
  rfl

theorem streamIdentityFor_eq (c : Collector) (passes : Nat) (i : Identity) :
    c.streamIdentityFor passes i = rootFor c.edges passes i := by
  induction passes generalizing i with
  | zero => rfl
  | succ passes ih =>
    rw [Collector.streamIdentityFor, rootFor, predecessor_eq]
    cases prev c.edges i with
    | none => rfl
    | some previous => exact ih previous

theorem streamIdentity_eq (c : Collector) (i : Identity) :
    c.streamIdentity i = root c.edges i := by
  rw [Collector.streamIdentity, streamIdentityFor_eq, root, Collector.edges, length_map]

theorem hasStreams_iff (c : Collector) (i : Identity) :
    c.hasStreams i = true ↔ i ∈ c.streams.map Stream.identity := by
  simp [Collector.hasStreams, any_eq_true]

/-- When a hand-over is allowed. -/
theorem handoverAllowed_iff (c : Collector) (old new : Identity) :
    c.handoverAllowed old new = .ok () ↔
      old ≠ new ∧ c.successor old = none ∧ c.successor new = none ∧ c.predecessor new = none ∧
        c.hasStreams new = false ∧ c.hasStreams (c.streamIdentity old) = true := by
  unfold Collector.handoverAllowed
  by_cases hne : old = new
  · simp [hne]
  rw [if_neg hne]
  rcases hold : c.successor old with _ | successor
  · simp only
    by_cases hpart : (c.successor new).isSome = true ∨ (c.predecessor new).isSome = true
    · rw [if_pos hpart]
      rcases hpart with h | h <;> simp [Option.isSome_iff_ne_none.mp h]
    rw [if_neg hpart]
    rw [not_or, Option.not_isSome_iff_eq_none, Option.not_isSome_iff_eq_none] at hpart
    cases hnew : c.hasStreams new <;> cases hroot : c.hasStreams (c.streamIdentity old) <;>
      simp [hne, hpart.1, hpart.2]
  · simp

/-! ### Hand-overs allowed in turn -/

/-- Hand-overs that the rules allow in turn, over some streams. -/
inductive Backed (streams : List Stream) : List Handover → Prop
  | nil : Backed streams []
  | snoc {hs : List Handover} {old new : Identity} (h : Backed streams hs)
      (hallowed : (Collector.mk streams hs).handoverAllowed old new = .ok ()) :
      Backed streams (hs ++ [⟨old, new⟩])

theorem edges_snoc (streams : List Stream) (hs : List Handover) (old new : Identity) :
    (Collector.mk streams (hs ++ [⟨old, new⟩])).edges =
      (Collector.mk streams hs).edges ++ [(old, new)] := by
  simp [Collector.edges, Handover.edge]

/-- What an allowed hand-over asks of the successions before it. -/
theorem allowed_lined (h : c.handoverAllowed old new = .ok ()) :
    old ≠ new ∧ (∀ p ∈ c.edges, p.1 ≠ old) ∧ ∀ p ∈ c.edges, p.1 ≠ new ∧ p.2 ≠ new := by
  obtain ⟨hne, hold, hnew, hprev, -, -⟩ := (handoverAllowed_iff c old new).mp h
  rw [successor_eq, next_eq_none_iff] at hold hnew
  rw [predecessor_eq, prev_eq_none_iff] at hprev
  exact ⟨hne, hold, fun p hp => ⟨hnew p hp, hprev p hp⟩⟩

/-- Hand-overs that are allowed in turn form lines. -/
theorem Backed.lined {streams : List Stream} (h : Backed streams hs) :
    Lineage.Lined (Collector.mk streams hs).edges := by
  induction h with
  | nil => exact .nil
  | @snoc hs old new _ hallowed ih =>
    obtain ⟨hne, hold, hnew⟩ := allowed_lined hallowed
    rw [edges_snoc]
    exact .snoc ih hne hold hnew

theorem loadHandovers_append (c : Collector) (hs hs' : List Handover) :
    loadHandovers c (hs ++ hs') = (loadHandovers c hs).bind (loadHandovers · hs') := by
  induction hs generalizing c with
  | nil => rfl
  | cons h rest ih =>
    rw [cons_append, loadHandovers, loadHandovers]
    rcases c.recordHandover h.old h.new with ⟨c', _ | ⟨⟩⟩
    · rfl
    · exact ih c'

theorem recordHandover_ok (h : c.handoverAllowed old new = .ok ()) :
    c.recordHandover old new = ({ c with handovers := c.handovers ++ [⟨old, new⟩] }, .ok ()) := by
  rw [Collector.recordHandover, h]

/-- Replaying hand-overs that are allowed in turn. -/
theorem Backed.load {streams : List Stream} (h : Backed streams hs) :
    loadHandovers { streams := streams } hs = some ⟨streams, hs⟩ := by
  induction h with
  | nil => rfl
  | snoc _ hallowed ih =>
    rw [loadHandovers_append, ih, Option.bind_some, loadHandovers, recordHandover_ok hallowed]
    rfl

/-- More streams do not disturb the hand-overs there are, as long as the new
    ones stand under the first identities of their lines. -/
theorem Backed.grow {streams streams' : List Stream} (h : Backed streams hs)
    (hkept : ∀ i ∈ streams.map Stream.identity, i ∈ streams'.map Stream.identity)
    (hadded : ∀ i ∈ streams'.map Stream.identity, i ∈ streams.map Stream.identity ∨
      prev (Collector.mk streams hs).edges i = none) : Backed streams' hs := by
  induction h with
  | nil => exact .nil
  | @snoc hs old new _ hallowed ih =>
    obtain ⟨hne, hold, hnew, hprev, hown, hroot⟩ := (handoverAllowed_iff _ old new).mp hallowed
    have hfresh := (allowed_lined hallowed).2.2
    rw [edges_snoc] at hadded
    -- the identity that takes over has one before it, so none of the new streams is its own
    have hstill : new ∉ streams'.map Stream.identity := by
      intro hmem
      rcases hadded new hmem with hold' | hnone
      · rw [(hasStreams_iff _ new).mpr hold'] at hown
        cases hown
      · rw [prev_snoc (fun p hp => (hfresh p hp).2), if_pos rfl] at hnone
        cases hnone
    refine .snoc (ih ?_) ((handoverAllowed_iff _ old new).mpr ⟨hne, hold, hnew, hprev, ?_, ?_⟩)
    · intro i hi
      rcases hadded i hi with hmem | hnone
      · exact .inl hmem
      · by_cases hin : i = new
        · exact absurd (hin ▸ hi) hstill
        · rw [prev_snoc (fun p hp => (hfresh p hp).2), if_neg hin] at hnone
          exact .inr hnone
    · rw [Bool.eq_false_iff]
      exact fun htrue => hstill ((hasStreams_iff _ new).mp htrue)
    · have hsame : (Collector.mk streams' hs).streamIdentity old =
          (Collector.mk streams hs).streamIdentity old := by
        rw [streamIdentity_eq, streamIdentity_eq]
        rfl
      rw [hsame]
      exact (hasStreams_iff _ _).mpr (hkept _ ((hasStreams_iff _ _).mp hroot))

/-! ### What committing does to the identities -/

theorem replace_identities (c : Collector) (s : Stream) :
    (c.replace s).streams.map Stream.identity = c.streams.map Stream.identity := by
  rw [Collector.replace, map_map]
  refine map_congr_left (fun t _ => ?_)
  by_cases hkey : t.identity = s.identity ∧ t.site = s.site
  · rw [Function.comp, if_pos hkey, hkey.1]
  · rw [Function.comp, if_neg hkey]

theorem obtain_identities {c' : Collector} {s : Stream} {identity : Identity} {site : String}
    (h : c.obtain identity site = (c', s)) :
    (∀ i ∈ c.streams.map Stream.identity, i ∈ c'.streams.map Stream.identity) ∧
    ∀ i ∈ c'.streams.map Stream.identity, i ∈ c.streams.map Stream.identity ∨ i = identity := by
  rcases obtain_cases h with rfl | ⟨-, rfl⟩
  · exact ⟨fun i hi => hi, fun i hi => .inl hi⟩
  · simp only [map_append, map_singleton, mem_append, mem_singleton]
    exact ⟨fun i hi => .inl hi, fun i hi => hi⟩

theorem commit_identities (h : c.Inv) (identity : Identity) (site : String) (e : Event)
    (fault : Option AppendFault) :
    (∀ i ∈ c.streams.map Stream.identity,
      i ∈ (c.commit identity site e fault).1.streams.map Stream.identity) ∧
    ∀ i ∈ (c.commit identity site e fault).1.streams.map Stream.identity,
      i ∈ c.streams.map Stream.identity ∨ i = identity := by
  rcases hobtain : c.obtain identity site with ⟨c', s⟩
  rcases commit_cases h hobtain e fault with ⟨_, _, hc⟩ | ⟨hc, -⟩ | ⟨hc, -⟩ <;> rw [hc]
  · exact obtain_identities hobtain
  · exact obtain_identities hobtain
  · rw [replace_identities]
    exact obtain_identities hobtain

/-! ### Steps -/

/-- What holds between any two steps. -/
structure Serving.Inv (w : Serving) (c : Collector) : Prop where
  up : w.collector = some c
  streams : c.Inv
  backed : Backed c.streams c.handovers
  roots : ∀ i ∈ c.streams.map Stream.identity, c.predecessor i = none
  pending : ∀ r ∈ w.pending, c.successor r.arrival.caller = none ∧
    r.streamIdentity = c.streamIdentity r.arrival.caller
  late : w.late = []

/-- No request of either identity is under way as a hand-over is recorded. -/
def Quiet (w : Serving) : Move → Prop
  | .handover old new => ∀ c, w.collector = some c → c.handoverAllowed old new = .ok () →
      ∀ r ∈ w.pending, r.arrival.caller ≠ old ∧ r.arrival.caller ≠ new
  | _ => True

theorem open_eq (h : c.Inv) :
    openCollector c.disk = loadHandovers { streams := c.streams } c.handovers := by
  rw [openCollector, Collector.disk]
  simp only
  rw [mapM_load h.holds, Option.bind_some]

/-- Opening what a sound collector left behind. -/
theorem open_backed (h : c.Inv) (hbacked : Backed c.streams c.handovers) :
    openCollector c.disk = some c := by
  rw [open_eq h, hbacked.load]

theorem Serving.Inv.resolve {w : Serving} (h : w.Inv c) (arrival : Arrival) :
    (w.step (.resolve arrival)).Inv c := by
  simp only [step, h.up]
  rcases hsuccessor : c.successor arrival.caller with _ | successor
  · simp only [Collector.resolveCaller, hsuccessor]
    exact ⟨rfl, h.streams, h.backed, h.roots, forall_mem_snoc h.pending ⟨hsuccessor, rfl⟩, h.late⟩
  · simp only [Collector.resolveCaller, hsuccessor]
    exact h

theorem Serving.Inv.commit {w : Serving} (h : w.Inv c) (k : Nat) (fault : Option AppendFault) :
    ∃ c', (w.step (.commit k fault)).Inv c' := by
  simp only [step, h.up]
  rcases hk : w.pending[k]? with _ | r
  · exact ⟨c, h⟩
  simp only
  obtain ⟨hactive, hstream⟩ := h.pending r (mem_of_getElem? hk)
  have hhandovers := commit_handovers c r.streamIdentity r.arrival.site r.arrival.event fault
  obtain ⟨hkept, hadded⟩ :=
    commit_identities h.streams r.streamIdentity r.arrival.site r.arrival.event fault
  have hsound := (commit_inv h.streams r.streamIdentity r.arrival.site r.arrival.bound
    ⟨r.arrival.fits, r.arrival.read⟩ fault).1
  -- the stream it writes stands under the first identity of the caller's line
  have hroot : c.predecessor r.streamIdentity = none := by
    rw [hstream, streamIdentity_eq, predecessor_eq]
    exact prev_root h.backed.lined _
  generalize (c.commit r.streamIdentity r.arrival.site r.arrival.event fault).1 = c' at *
  have hsuccessor : ∀ i, c'.successor i = c.successor i := by
    intro i
    rw [Collector.successor, hhandovers, Collector.successor]
  have hpredecessor : ∀ i, c'.predecessor i = c.predecessor i := by
    intro i
    rw [Collector.predecessor, hhandovers, Collector.predecessor]
  have hresolved : ∀ i, c'.streamIdentity i = c.streamIdentity i := by
    intro i
    rw [streamIdentity_eq, streamIdentity_eq, Collector.edges, hhandovers, Collector.edges]
  refine ⟨c', rfl, hsound, ?_, ?_, ?_, ?_⟩
  · rw [hhandovers]
    refine h.backed.grow hkept (fun i hi => ?_)
    rcases hadded i hi with hmem | rfl
    · exact .inl hmem
    · exact .inr (predecessor_eq c r.streamIdentity ▸ hroot)
  · intro i hi
    rw [hpredecessor]
    rcases hadded i hi with hmem | rfl
    · exact h.roots i hmem
    · exact hroot
  · intro r' hr'
    rw [hsuccessor, hresolved]
    exact h.pending r' (mem_of_mem_eraseIdx hr')
  · simp only [hactive, Option.isSome_none, Bool.false_eq_true, if_false]
    exact h.late

theorem Serving.Inv.handover {w : Serving} (h : w.Inv c) (hquiet : Quiet w (.handover old new)) :
    ∃ c', (w.step (.handover old new)).Inv c' := by
  simp only [step, h.up]
  rcases hallowed : c.handoverAllowed old new with reason | ⟨⟩
  · have hsame : (c.recordHandover old new).1 = c := by
      rw [Collector.recordHandover, hallowed]
    rw [hsame]
    exact ⟨c, rfl, h.streams, h.backed, h.roots, h.pending, h.late⟩
  have hidle := hquiet c h.up hallowed
  obtain ⟨hne, hold, hnew⟩ := allowed_lined hallowed
  obtain ⟨-, -, -, -, hown, -⟩ := (handoverAllowed_iff c old new).mp hallowed
  have hedges : (Collector.mk c.streams (c.handovers ++ [⟨old, new⟩])).edges =
      c.edges ++ [(old, new)] := edges_snoc c.streams c.handovers old new
  rw [recordHandover_ok hallowed]
  refine ⟨_, rfl, ⟨h.streams.holds, h.streams.keys⟩, h.backed.snoc hallowed, ?_, ?_, h.late⟩
  · intro i hi
    have hin : i ≠ new := by
      rintro rfl
      rw [(hasStreams_iff c i).mpr hi] at hown
      cases hown
    rw [predecessor_eq, hedges, prev_snoc (fun p hp => (hnew p hp).2), if_neg hin,
      ← predecessor_eq]
    exact h.roots i hi
  · -- a request under way is of neither identity, so its answer is still the right one
    intro r hr
    obtain ⟨hactive, hstream⟩ := h.pending r hr
    obtain ⟨hnotOld, hnotNew⟩ := hidle r hr
    refine ⟨?_, ?_⟩
    · rw [successor_eq, hedges, next_snoc hold, if_neg hnotOld, ← successor_eq]
      exact hactive
    · rw [streamIdentity_eq, hedges, root_snoc h.backed.lined hne hnew, if_neg hnotNew,
        ← streamIdentity_eq]
      exact hstream

theorem Serving.step_inv (w : Serving) (m : Move) (h : ∃ c, w.Inv c) (hquiet : Quiet w m) :
    ∃ c, (w.step m).Inv c := by
  obtain ⟨c, h⟩ := h
  cases m with
  | resolve arrival => exact ⟨c, h.resolve arrival⟩
  | commit k fault => exact h.commit k fault
  | handover old new => exact h.handover hquiet
  | restart =>
    refine ⟨c, ?_⟩
    simp only [step, h.up, open_backed h.streams h.backed]
    exact ⟨rfl, h.streams, h.backed, h.roots, fun r hr => absurd hr not_mem_nil, h.late⟩

theorem Serving.inv_initial : ({} : Serving).Inv {} :=
  ⟨rfl, ⟨fun _ h => absurd h not_mem_nil, List.Pairwise.nil⟩, .nil,
    fun _ h => absurd h not_mem_nil, fun _ h => absurd h not_mem_nil, rfl⟩

/-- In every run whose hand-overs are quiet: the hand-overs form disjoint
    paths without a cycle, and resolving ends at an identity with none before
    it; no event is committed for a retired identity; every stream is reached
    by exactly one identity that is not retired; and the state directory opens
    again as the collector that wrote it. -/
theorem handovers_kept (moves : List Move) (h : Throughout Quiet Serving.step {} moves) :
    ∃ c, (moves.foldl Serving.step {}).collector = some c ∧
      c.handovers.Pairwise (fun h k => h.old ≠ k.old ∧ h.new ≠ k.new) ∧
      (∀ i, ¬ Relation.TransGen (fun a b => c.successor a = some b) i i) ∧
      (∀ i, c.predecessor (c.streamIdentity i) = none) ∧
      (moves.foldl Serving.step {}).late = [] ∧
      (∀ s ∈ c.streams, ∃! i, c.successor i = none ∧ c.streamIdentity i = s.identity) ∧
      openCollector c.disk = some c := by
  obtain ⟨c, hinv⟩ := h.invariant (P := fun w => ∃ c, w.Inv c) Serving.step_inv
    ⟨{}, Serving.inv_initial⟩
  have hlined := hinv.backed.lined
  refine ⟨c, hinv.up, ?_, ?_, ?_, hinv.late, ?_, open_backed hinv.streams hinv.backed⟩
  · exact pairwise_map.mp hlined.pairwise
  · intro i
    simp only [successor_eq]
    exact not_cycle hlined i
  · intro i
    rw [streamIdentity_eq, predecessor_eq]
    exact prev_root hlined i
  · intro s hs
    simp only [successor_eq, streamIdentity_eq]
    refine existsUnique_last hlined ?_
    exact predecessor_eq c s.identity ▸ hinv.roots _ (mem_map_of_mem hs)

/-! ### A hand-over between the two steps -/

theorem loadHandovers_streams {c c' : Collector} (h : loadHandovers c hs = some c') :
    c'.streams = c.streams ∧ ∀ k ∈ hs, c.hasStreams k.new = false := by
  induction hs generalizing c with
  | nil =>
    cases h
    exact ⟨rfl, fun k hk => absurd hk not_mem_nil⟩
  | cons k rest ih =>
    rw [loadHandovers] at h
    rcases hallowed : c.handoverAllowed k.old k.new with reason | ⟨⟩
    · rw [Collector.recordHandover, hallowed] at h
      cases h
    · rw [recordHandover_ok hallowed] at h
      obtain ⟨hstreams, hrest⟩ := ih h
      refine ⟨hstreams, fun k' hk' => ?_⟩
      rcases mem_cons.mp hk' with rfl | hk'
      · exact ((handoverAllowed_iff c _ _).mp hallowed).2.2.2.2.1
      · exact hrest k' hk'

/-- A state directory in which an identity that took over has a stream of its
    own does not open. -/
theorem open_refused (h : c.Inv) {k : Handover} (hk : k ∈ c.handovers)
    (hown : c.hasStreams k.new = true) : openCollector c.disk = none := by
  rcases hopen : openCollector c.disk with _ | c'
  · rfl
  · rw [open_eq h] at hopen
    have hnone := (loadHandovers_streams hopen).2 k hk
    exact absurd (hown.symm.trans hnone) (by decide)

/-- The streams are sound after every run, whatever the hand-overs. -/
theorem Serving.streams_inv (moves : List Move) :
    ∀ c, (moves.foldl step {}).collector = some c → c.Inv := by
  refine run_invariant (P := fun w : Serving => ∀ c, w.collector = some c → c.Inv) ?_ moves ?_
  · intro w m h c' hc'
    rcases hup : w.collector with _ | c
    · simp only [step, hup] at hc'
      cases hc'
    have hinv := h c hup
    cases m with
    | resolve arrival =>
      simp only [step, hup] at hc'
      rcases hresolve : c.resolveCaller arrival.caller with reason | streamIdentity
      · rw [hresolve] at hc'
        exact h c' hc'
      · rw [hresolve] at hc'
        cases hc'
        exact hinv
    | commit k fault =>
      simp only [step, hup] at hc'
      rcases hk : w.pending[k]? with _ | r
      · rw [hk] at hc'
        exact h c' hc'
      · rw [hk] at hc'
        cases hc'
        exact (commit_inv hinv r.streamIdentity r.arrival.site r.arrival.bound ⟨r.arrival.fits, r.arrival.read⟩ fault).1
    | handover old new =>
      simp only [step, hup] at hc'
      cases hc'
      rcases hallowed : c.handoverAllowed old new with reason | ⟨⟩
      · rw [Collector.recordHandover, hallowed]
        exact hinv
      · rw [recordHandover_ok hallowed]
        exact ⟨hinv.holds, hinv.keys⟩
    | restart =>
      simp only [step, hup] at hc'
      rw [open_eq hinv] at hc'
      obtain ⟨hstreams, -⟩ := loadHandovers_streams hc'
      exact ⟨hstreams ▸ hinv.holds, hstreams ▸ hinv.keys⟩
  · intro c hc
    cases hc
    exact ⟨fun _ h => absurd h not_mem_nil, List.Pairwise.nil⟩

def otherIdentity : Identity :=
  ⟨"1111111111111111111111111111111111111111111111111111111111111111", by decide⟩

/-- An event that is sound in itself and is the first of its journal. -/
def firstEvent : Event :=
  let unsigned : Event :=
    { sequence := 1, content := sampleContent, previousHash := genesisHash, hash := [] }
  { unsigned with hash := eventHash unsigned }

theorem firstEvent_fits : byteLength firstEvent.text + 1 ≤ maxLine := by decide +kernel

def firstFrom (caller : Identity) (site : String) : Arrival :=
  ⟨caller, site, firstEvent, rfl, firstEvent_fits,
    decoded_of_content rfl decoded_genesisHash rfl⟩

/-- A request of each identity is resolved, the one hands over to the other,
    and both requests commit. -/
def overtaken : List Move :=
  [.resolve (firstFrom someIdentity "x"), .commit 0 none,
    .resolve (firstFrom someIdentity "y"), .resolve (firstFrom otherIdentity ""),
    .handover someIdentity otherIdentity, .commit 0 none, .commit 0 none]

/-- The retired identity's event is committed, the new identity gets a stream
    of its own, and the collector does not start again. -/
theorem handover_overtaken :
    (overtaken.foldl Serving.step {}).late.map (fun r => r.arrival.caller) = [someIdentity] ∧
    (overtaken.foldl Serving.step {}).collector.map (fun c =>
        c.streams.map (fun s => (s.identity, s.site, s.hashes.length))) =
      some [(someIdentity, "x", 1), (someIdentity, "y", 1), (otherIdentity, "", 1)] ∧
    ((overtaken ++ [Move.restart]).foldl Serving.step {}).collector.isNone = true := by
  refine ⟨by decide, by decide, ?_⟩
  rw [foldl_append]
  rcases hup : (overtaken.foldl Serving.step {}).collector with _ | c
  · simp only [foldl_cons, foldl_nil, Serving.step, hup, Option.isNone_none]
  have hinv := Serving.streams_inv overtaken c hup
  have hstate : (overtaken.foldl Serving.step {}).collector.map (fun c =>
      (c.handovers, c.hasStreams otherIdentity)) = some ([⟨someIdentity, otherIdentity⟩], true) := by
    decide
  rw [hup, Option.map_some, Option.some.injEq, Prod.mk.injEq] at hstate
  have hmem : (⟨someIdentity, otherIdentity⟩ : Handover) ∈ c.handovers := by
    rw [hstate.1]
    exact mem_singleton_self _
  simp only [foldl_cons, foldl_nil, Serving.step, hup, open_refused hinv hmem hstate.2,
    Option.isNone_none]

/-- One identity writes a stream and hands over to another, which goes on with
    it, and the collector restarts. -/
def quietly : List Move :=
  [.resolve (firstFrom someIdentity "x"), .commit 0 none, .handover someIdentity otherIdentity,
    .resolve (firstFrom otherIdentity "x"), .commit 0 none, .restart]

theorem handovers_kept_quietly :
    Throughout Quiet Serving.step {} quietly ∧
    ∃ c, (quietly.foldl Serving.step {}).collector = some c ∧
      (quietly.foldl Serving.step {}).late = [] ∧
      (∀ s ∈ c.streams, ∃! i, c.successor i = none ∧ c.streamIdentity i = s.identity) ∧
      openCollector c.disk = some c := by
  have hquiet : Throughout Quiet Serving.step {} quietly :=
    ⟨trivial, trivial, fun _ _ _ r hr => absurd hr not_mem_nil, trivial, trivial, trivial, trivial⟩
  obtain ⟨c, hup, -, -, -, hlate, hreached, hopen⟩ := handovers_kept quietly hquiet
  exact ⟨hquiet, c, hup, hlate, hreached, hopen⟩

end Regalia.Audit
