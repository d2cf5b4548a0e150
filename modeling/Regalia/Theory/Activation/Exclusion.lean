import Mathlib.Data.List.Pairwise
import Regalia.Core.Activation.Grant
import Regalia.Data.Runs
import Regalia.Theory.Membership.NodeKeys
import Regalia.Theory.Membership.PythonAccept

/-!
# Never Two Sites by Quorum

Two quorums of the nodes share a node, and that node signed both leases. So
everything comes down to one node, which remembers its last grant and nothing
before it.

That memory is enough as long as the last grant is also the one that ends last.
Then a lease for another place is signed only once every lease signed before
has run out: it begins the margin after the last grant's end, and it may not
begin later than the margin from now. When the record does not stand the node
waits, from its start, for as long as any lease can live.

Two things undo it. A renewal that ends before the grant it renews makes the
node forget the longer lease; and where a grant moves the counter and then
fails to replace the record, the record stands no more, but the wait is counted
from the start of a process that may be long past it.

## Main definitions

* `endOf`, `placeOf`: The end of a lease, and the site and node it is for.
* `Orderly`: No renewal gives back time, and a lost record ends the process.
* `Node.Inv`: What every orderly move keeps.
* `Genuine`: The node signatures of an envelope were made by the nodes.
* `Live`: A lease is within its times.

## Theorems

* `exists_common`: Two majorities share a member.
* `checkGrant_covers`: A grant ends last, and waits out the other places.
* `Node.step_inv`: Every orderly move keeps the invariant.
* `one_place_live`: At no instant are two places live.
* `two_places_live`: A renewal that ends early makes two places live.
-/

namespace Regalia.Activation

open List

variable {times : Int × Int} {started now : Int} {held : Option Record} {name : String}

open Regalia.Membership

/-! ### Majorities -/

theorem exists_common {α : Type*} {all a b : List α} (ha : a.Nodup) (hb : b.Nodup)
    (hsub : a ⊆ all) (hsub' : b ⊆ all) (hcount : all.length < a.length + b.length) :
    ∃ x, x ∈ a ∧ x ∈ b := by
  by_contra hnone
  have hdisjoint : a.Disjoint b := fun x hx hx' => hnone ⟨x, hx, hx'⟩
  have hnodup : (a ++ b).Nodup := List.Nodup.append ha hb hdisjoint
  have hle := (hnodup.subperm (append_subset.mpr ⟨hsub, hsub'⟩)).length_le
  rw [length_append] at hle
  omega

/-! ### Leases -/

variable {lib : Library}

/-- The end of a lease, in seconds. -/
def endOf (lib : Library) (lease : Value) : Int := (validate lib lease).toOption.elim 0 Prod.snd

def placeOf (lease : Value) : String × String := (siteOf lease, nodeOf lease)

def Record.place (r : Record) : String × String := (r.site, r.nodeId)

theorem endOf_eq {lease : Value} (h : validate lib lease = .ok times) :
    endOf lib lease = times.2 := by
  simp [endOf, h, Except.toOption]

theorem validate_short {lease : Value} (h : validate lib lease = .ok times) :
    times.2 ≤ times.1 + maxLease := by
  unfold validate at h
  simp only [steps_eq_ok] at h
  obtain ⟨-, -, -, -, -, -, -, -, -, start, -, expires, -, -, hshort, -, rfl⟩ := h
  show expires ≤ start + maxLease
  omega

/-- What a check that lets a lease through has found. -/
structure Checked (lib : Library) (lease : Value) (held : Option Record) (count : Nat)
    (started now : Int) (times : Int × Int) : Prop where
  valid : validate lib lease = .ok times
  waited : standing held count = none → started + recoveryWait ≤ now
  begun : times.1 ≤ now + skew
  ahead : now < times.2
  handover : ∀ last, standing held count = some last → last.place ≠ placeOf lease →
    last.expires + skew ≤ times.1

theorem checkGrant_ok {lease : Value} {count : Nat}
    (h : checkGrant lib lease held count started now = .ok times) :
    Checked lib lease held count started now times := by
  unfold checkGrant at h
  simp only [steps_eq_ok] at h
  obtain ⟨found, hvalid, hwaited, hbegun, hahead, h⟩ := h
  cases hlast : standing held count with
  | none =>
    rw [hlast] at h hwaited
    obtain rfl := pure_eq_ok.mp h
    exact ⟨hvalid, fun _ => by simpa using hwaited, hbegun, hahead, by simp [hlast]⟩
  | some last =>
    rw [hlast] at h
    simp only [steps_eq_ok, onlyIf_eq_ok] at h
    obtain ⟨-, hhandover, rfl⟩ := h
    refine ⟨hvalid, by simp [hlast], hbegun, hahead, ?_⟩
    intro last' hlast' hplace
    rw [hlast] at hlast'
    obtain rfl := Option.some.inj hlast'
    exact hhandover hplace

/-! ### One node -/

/-- No renewal ends before the grant it renews, and a grant that has moved the
    counter and not replaced the record ends the process. -/
def Node.Orderly (lib : Library) (node : Node) : Move → Prop
  | .grant i fault dies =>
    (∀ call ∈ node.calls[i]?, ∀ last ∈ standing node.record node.counter,
      last.place = placeOf call.1 → last.expires ≤ endOf lib call.1) ∧
    (fault = .increment true ∨ fault = .write false → dies = true)
  | _ => True

/-- A record that every lease signed ends by, and all but those of its own
    place have run out. -/
def Record.Covers (lib : Library) (r : Record) (signed : List Signature) (time : Int) : Prop :=
  ∀ s ∈ signed, endOf lib s.lease ≤ r.expires ∧
    (placeOf s.lease ≠ r.place → endOf lib s.lease ≤ time)

structure Node.Inv (lib : Library) (time : Int) (node : Node) : Prop where
  -- a lease ends soon after it is signed
  short : ∀ s ∈ node.signed, endOf lib s.lease ≤ s.time + recoveryWait
  past : ∀ s ∈ node.signed, s.time ≤ time
  read : ∀ call ∈ node.calls, call.2 ≤ time
  held : ∀ r, node.record = some r → r ∈ node.written
  numbered : ∀ r ∈ node.written, r.grants ≤ node.counter
  -- the record with the counter's number, wherever it is, remembers enough
  covers : ∀ r ∈ node.written, r.grants = node.counter → r.Covers lib node.signed time
  apart : node.signed.Pairwise (fun old new => placeOf old.lease ≠ placeOf new.lease →
    endOf lib old.lease ≤ new.time)

/-- While the record does not stand, whatever was signed was signed before the
    start. -/
def Node.Waits (node : Node) : Prop :=
  ∀ started, node.started = some started → standing node.record node.counter = none →
    ∀ s ∈ node.signed, s.time ≤ started

variable {time : Int} {node : Node}

theorem standing_eq_some {count : Nat} {last : Record} (h : standing held count = some last) :
    held = some last ∧ last.grants = count := by
  unfold standing at h
  obtain ⟨hheld, hstands⟩ := Option.filter_eq_some_iff.mp h
  simp only [Bool.and_eq_true, decide_eq_true_eq] at hstands
  exact ⟨hheld, hstands.2⟩

-- the record just written stands
theorem standing_recordOf (node : Node) (lease : Value) (expires : Int) :
    standing (some (node.recordOf lease expires)) (node.counter + 1) =
      some (node.recordOf lease expires) := by
  simp [standing, Node.recordOf]

theorem Record.Covers.later {r : Record} {signed : List Signature} {later : Int}
    (h : r.Covers lib signed time) (hle : time ≤ later) : r.Covers lib signed later :=
  fun s hs => ⟨(h s hs).1, fun hplace => ((h s hs).2 hplace).trans hle⟩

theorem Node.Inv.later {later : Int} (h : node.Inv lib time) (hle : time ≤ later) :
    node.Inv lib later :=
  { h with
    past := fun s hs => (h.past s hs).trans hle
    read := fun call hcall => (h.read call hcall).trans hle
    covers := fun r hr hcount => (h.covers r hr hcount).later hle }

/-- What the check lets through ends last, and every lease for another place
    has run out. -/
theorem checkGrant_covers {lease : Document} (h : node.Inv lib time) (hwaits : node.Waits)
    (hstarted : node.started = some started) (hnow : now ≤ time)
    (hcheck : Checked lib lease node.record node.counter started now times)
    (hrenew : ∀ last, standing node.record node.counter = some last →
      last.place = placeOf lease → last.expires ≤ endOf lib lease) :
    (node.recordOf lease times.2).Covers lib node.signed time := by
  have hend := endOf_eq hcheck.valid
  have hahead := hcheck.ahead
  intro s hs
  show endOf lib s.lease ≤ times.2 ∧ (placeOf s.lease ≠ placeOf lease → endOf lib s.lease ≤ time)
  cases hlast : standing node.record node.counter with
  | none =>
    -- it was signed before the start, and no lease lives longer than the wait
    have hsigned := hwaits started hstarted hlast s hs
    have hshort := h.short s hs
    have hwaited := hcheck.waited hlast
    exact ⟨by omega, fun _ => by omega⟩
  | some last =>
    obtain ⟨hrecord, hcount⟩ := standing_eq_some hlast
    have hcovers := h.covers last (h.held last hrecord) hcount s hs
    by_cases hplace : last.place = placeOf lease
    · have hlater := hrenew last hlast hplace
      refine ⟨by omega, ?_⟩
      rw [← hplace]
      exact hcovers.2
    · -- the margin before the beginning is the margin after now
      have hhandover := hcheck.handover last hlast hplace
      have hbegun := hcheck.begun
      have hover := hcovers.1
      exact ⟨by omega, fun _ => by omega⟩

theorem Node.Inv.outnumbered {r : Record} (h : node.Inv lib time) (hr : r ∈ node.written)
    (hcount : r.grants = node.counter + 1) : False := by
  have hle := h.numbered r hr
  omega

-- the counter and the record after a grant that is recorded
theorem Node.Inv.recorded {lease : Value} {expires : Int} (h : node.Inv lib time)
    (hcovers : (node.recordOf lease expires).Covers lib node.signed time) :
    (node.recorded lease expires).Inv lib time where
  short := h.short
  past := h.past
  read := h.read
  held := by
    intro r hr
    obtain rfl := Option.some.inj hr
    exact mem_append_right _ (mem_singleton.mpr rfl)
  numbered := forall_mem_snoc (fun r hr => (h.numbered r hr).trans (Nat.le_succ _)) le_rfl
  covers := forall_mem_snoc (fun _ hr hcount => (h.outnumbered hr hcount).elim) (fun _ => hcovers)
  apart := h.apart

-- a counter that has moved makes every record one of the past
theorem Node.Inv.moved (h : node.Inv lib time) :
    { node with counter := node.counter + 1 }.Inv lib time :=
  { h with
    numbered := fun r hr => (h.numbered r hr).trans (Nat.le_succ _)
    covers := fun _ hr hcount => (h.outnumbered hr hcount).elim }

theorem Node.Inv.signed {lease : Document} (h : node.Inv lib time) (hnow : now ≤ time)
    (hcheck : Checked lib lease node.record node.counter started now times)
    (hcovers : (node.recordOf lease times.2).Covers lib node.signed time) :
    ((node.recorded lease times.2).sign lease time).Inv lib time := by
  have hrecorded := h.recorded hcovers
  have hend := endOf_eq hcheck.valid
  have hbegun := hcheck.begun
  have hshort := validate_short hcheck.valid
  refine ⟨?_, ?_, hrecorded.read, hrecorded.held, hrecorded.numbered, ?_, ?_⟩
  · refine forall_mem_snoc h.short ?_
    show endOf lib lease ≤ time + recoveryWait
    simp only [recoveryWait, maxLease, runtimeMaxLifetime, skew] at *
    omega
  · exact forall_mem_snoc h.past le_rfl
  · exact forall_mem_snoc (fun _ hr hcount => (h.outnumbered hr hcount).elim)
      (fun _ => forall_mem_snoc hcovers ⟨hend.le, fun hplace => absurd rfl hplace⟩)
  · exact pairwise_snoc h.apart (fun old hold => (hcovers old hold).2)

/-! ### Every orderly move -/

variable {setup : Setup} {name : String}

/-- What a call that gets the lock can come to. -/
theorem Node.grant_cases (setup : Setup) (name : String) (time : Int) (node : Node) (i : Nat)
    (fault : Fault) :
    (∃ calls ⊆ node.calls, node.grant setup name time i fault = { node with calls := calls }) ∨
    ∃ started call times, node.started = some started ∧ node.calls[i]? = some call ∧
      Checked setup.lib call.1 node.record node.counter started call.2 times ∧
      node.grant setup name time i fault =
        { node with calls := node.calls.eraseIdx i }.commit call.1 times.2 time fault := by
  unfold grant
  split
  · rename_i started lease now hstarted hcall
    split
    · split
      · rename_i times hcheck
        exact .inr ⟨started, (lease, now), times, hstarted, hcall, checkGrant_ok hcheck, rfl⟩
      · exact .inl ⟨_, eraseIdx_subset, rfl⟩
    · exact .inl ⟨_, eraseIdx_subset, rfl⟩
  · exact .inl ⟨node.calls, List.Subset.refl _, rfl⟩

theorem Node.Inv.fewer {calls : List (Document × Int)} (h : node.Inv lib time)
    (hsub : calls ⊆ node.calls) : { node with calls := calls }.Inv lib time :=
  { h with read := fun call hcall => h.read call (hsub hcall) }

theorem Node.Inv.stop (h : node.Inv lib time) : node.stop.Inv lib time :=
  { h with read := fun _ hcall => absurd hcall not_mem_nil }

theorem Node.waits_stop (node : Node) : node.stop.Waits := by
  intro started hstarted
  cases hstarted

-- a grant that is let through and does not lose the record
theorem Node.Inv.commit {call : Document × Int} {started : Int} {calls : List (Document × Int)}
    {fault : Fault} (h : node.Inv lib time) (hwaits : node.Waits) (hsub : calls ⊆ node.calls)
    (hstarted : node.started = some started) (hnow : call.2 ≤ time)
    (hcheck : Checked lib call.1 node.record node.counter started call.2 times)
    (hrenew : ∀ last, standing node.record node.counter = some last →
      last.place = placeOf call.1 → last.expires ≤ endOf lib call.1) :
    ({ node with calls := calls }.commit call.1 times.2 time fault).Inv lib time ∧
      (fault ≠ .increment true → fault ≠ .write false →
        ({ node with calls := calls }.commit call.1 times.2 time fault).Waits) := by
  have hcovers := checkGrant_covers h hwaits hstarted hnow hcheck hrenew
  have hfewer := h.fewer hsub
  -- once it is recorded the record stands
  have hstands : standing (some (node.recordOf call.1 times.2)) (node.counter + 1) ≠ none := by
    intro hnone
    rw [standing_recordOf] at hnone
    cases hnone
  cases fault with
  | increment moved =>
    cases moved with
    | false => exact ⟨hfewer, fun _ _ => hwaits⟩
    | true => exact ⟨hfewer.moved, fun hlost => absurd rfl hlost⟩
  | write replaced =>
    cases replaced with
    | false => exact ⟨hfewer.moved, fun _ hlost => absurd rfl hlost⟩
    | true => exact ⟨hfewer.recorded hcovers, fun _ _ _ _ hnone => absurd hnone hstands⟩
  | sign => exact ⟨hfewer.recorded hcovers, fun _ _ _ _ hnone => absurd hnone hstands⟩
  | none => exact ⟨hfewer.signed hnow hcheck hcovers, fun _ _ _ _ hnone => absurd hnone hstands⟩

theorem Node.step_inv {move : Move} (h : node.Inv setup.lib time) (hwaits : node.Waits)
    (hok : node.Orderly setup.lib move) :
    (node.step setup name time move).Inv setup.lib time ∧
      (node.step setup name time move).Waits := by
  cases move with
  | start =>
    simp only [step]
    split
    · refine ⟨{ h with }, ?_⟩
      intro started hstarted _ s hs
      obtain rfl := Option.some.inj hstarted
      exact h.past s hs
    · exact ⟨h, hwaits⟩
  | stop => exact ⟨h.stop, node.waits_stop⟩
  | restore i =>
    simp only [step]
    split
    · rename_i hstopped
      refine ⟨{ h with held := ?_ }, ?_⟩
      · intro r hr
        obtain ⟨i, -, hi⟩ := Option.bind_eq_some_iff.mp hr
        exact mem_of_getElem? hi
      · intro started hstarted
        have hnone : node.started = none := Option.isNone_iff_eq_none.mp hstopped
        have hsome : node.started = some started := hstarted
        rw [hnone] at hsome
        cases hsome
    · exact ⟨h, hwaits⟩
  | propose lease | cosign caller lease synced =>
    simp only [step]
    split
    · exact ⟨{ h with read := forall_mem_snoc h.read le_rfl }, hwaits⟩
    · exact ⟨h, hwaits⟩
  | grant i fault dies =>
    simp only [step]
    obtain ⟨hrenew, hlost⟩ := hok
    have hafter : (node.grant setup name time i fault).Inv setup.lib time ∧
        (fault ≠ .increment true → fault ≠ .write false →
          (node.grant setup name time i fault).Waits) := by
      rcases node.grant_cases setup name time i fault with
        ⟨calls, hsub, hgrant⟩ | ⟨started, call, times, hstarted, hcall, hcheck, hgrant⟩
      · rw [hgrant]
        exact ⟨h.fewer hsub, fun _ _ => hwaits⟩
      · rw [hgrant]
        exact h.commit hwaits eraseIdx_subset hstarted (h.read call (mem_of_getElem? hcall)) hcheck
          (fun last hlast => hrenew call hcall last hlast)
    split
    · exact ⟨hafter.1.stop, waits_stop _⟩
    · rename_i hlives
      have hkept := not_or.mp (fun hbad => hlives (hlost hbad))
      exact ⟨hafter.1, hafter.2 hkept.1 hkept.2⟩

/-! ### The nodes -/

def World.Orderly (lib : Library) (w : World) : Event → Prop
  | .tick _ => True
  | .node name move => (w.nodes name).Orderly lib move

theorem World.run_inv {start : Int} {events : List Event}
    (h : Throughout (Orderly setup.lib) (step setup) (init start) events)
    (name : String) :
    ((run setup start events).nodes name).Inv setup.lib
      (run setup start events).time := by
  have hrun := h.invariant (P := fun w : World => ∀ name,
    (w.nodes name).Inv setup.lib w.time ∧ (w.nodes name).Waits) ?_ ?_
  · exact (hrun name).1
  · intro w event hw hok name
    cases event with
    | tick seconds => exact ⟨(hw name).1.later (Int.le_add_of_nonneg_right (by omega)), (hw name).2⟩
    | node other move =>
      simp only [step]
      by_cases hname : name = other
      · subst hname
        rw [Function.update_self]
        exact Node.step_inv (hw name).1 (hw name).2 hok
      · rw [Function.update_of_ne hname]
        exact hw name
  · intro name
    refine ⟨⟨?_, ?_, ?_, ?_, ?_, ?_, List.Pairwise.nil⟩, ?_⟩ <;> simp [init, Node.Waits]

-- of two leases for two places one has run out
theorem Node.Inv.run_out (h : node.Inv lib time) {s t : Signature} (hs : s ∈ node.signed)
    (ht : t ∈ node.signed) (hplace : placeOf s.lease ≠ placeOf t.lease) :
    endOf lib s.lease ≤ time ∨ endOf lib t.lease ≤ time := by
  have hpairs : node.signed.Pairwise (fun a b => placeOf a.lease ≠ placeOf b.lease →
      endOf lib a.lease ≤ time ∨ endOf lib b.lease ≤ time) := by
    refine h.apart.imp_of_mem ?_
    intro a b _ hb hapart hne
    exact .inl ((hapart hne).trans (h.past b hb))
  have hsymm : Std.Symm (fun a b : Signature => placeOf a.lease ≠ placeOf b.lease →
      endOf lib a.lease ≤ time ∨ endOf lib b.lease ≤ time) :=
    ⟨fun a b hab hne => (hab hne.symm).symm⟩
  exact hpairs.forall_of_forall (fun a _ hne => absurd rfl hne) hs ht hplace

/-! ### Envelopes -/

/-- A lease is within its times. -/
def Live (lib : Library) (lease : Value) (time : Int) : Prop :=
  ∃ times, validate lib lease = .ok times ∧ times.1 ≤ time ∧ time < times.2

/-- Every signature of an envelope in a node's name was made by that node. -/
def Genuine (w : World) (envelope : Value) : Prop :=
  ∀ sig ∈ itemsOf (field envelope "signatures"), partyOf sig ≠ ownerParty →
    ∃ s ∈ (w.nodes (partyOf sig)).signed, (s.lease : Value) = field envelope "lease"

theorem Live.before_end {lease : Value} (h : Live lib lease time) : time < endOf lib lease := by
  obtain ⟨times, hvalid, -, hend⟩ := h
  rw [endOf_eq hvalid]
  exact hend

/-- A lease without a recovery block is activated by a quorum of nodes. -/
theorem verify_quorum {envelope m lease : Value} (h : verify lib envelope m = .ok lease)
    (hrecovery : hasField lease "recovery" = false) :
    lease = field envelope "lease" ∧
      ∃ quorum : List String, quorum.Nodup ∧ quorum ⊆ nodeParties m ∧
        threshold m ≤ quorum.length ∧
        ∀ p ∈ quorum, p ∈ (itemsOf (field envelope "signatures")).map partyOf := by
  unfold verify at h
  simp only [steps_eq_ok] at h
  obtain ⟨-, times, -, -, -, -, nodes, hvalid, -, serves, -, -, counted, hcounted, h⟩ := h
  obtain ⟨⟨schema, hvalid⟩, -⟩ := Python.validate_eq_ok.mp hvalid
  obtain ⟨-, parties, hsignatures, rfl⟩ := (Python.countingParties_eq_ok hvalid).mp hcounted
  have hparties := ((forall₂_iff_map (fun _ _ h => SignedBy.party h)).mp hsignatures.signed).2
  split at h
  · simp only [steps_eq_ok] at h
    obtain ⟨-, hthreshold, rfl⟩ := h
    refine ⟨rfl, _, ((hsignatures.distinct.filter _).filter _).filter _, ?_, hthreshold, ?_⟩
    · intro p hp
      simp only [mem_filter, decide_eq_true_eq] at hp
      exact mem_filter.mpr ⟨hp.1.2, by simpa using hp.2⟩
    · intro p hp
      simp only [mem_filter, decide_eq_true_eq] at hp
      rw [← hparties]
      exact hp.1.1.1
  · -- with the owner's signature there has to be a recovery block
    unfold verifyRecovery at h
    simp only [steps_eq_ok] at h
    obtain ⟨⟨hblock, -⟩, rfl⟩ := h
    rw [hrecovery] at hblock
    cases hblock

/-- At no instant are two places live: of two leases that both carry signatures
    which activate them, one is outside its times. -/
theorem one_place_live (setup : Setup) (start : Int) (events : List Event)
    (hmajority : ((nodeParties setup.manifest).length : Int) < 2 * threshold setup.manifest)
    (hok : Throughout (World.Orderly setup.lib) (World.step setup) (World.init start) events)
    (envelope envelope' : Document) {lease lease' : Value}
    (hverify : verify setup.lib envelope setup.manifest = .ok lease)
    (hverify' : verify setup.lib envelope' setup.manifest = .ok lease')
    (hrecovery : hasField lease "recovery" = false)
    (hrecovery' : hasField lease' "recovery" = false)
    (hgenuine : Genuine (World.run setup start events) envelope)
    (hgenuine' : Genuine (World.run setup start events) envelope')
    (hplace : placeOf lease ≠ placeOf lease') :
    ¬ (Live setup.lib lease (World.run setup start events).time ∧
      Live setup.lib lease' (World.run setup start events).time) := by
  rintro ⟨hlive, hlive'⟩
  obtain ⟨hlease, quorum, hnodup, hsub, hmost, hnamed⟩ := verify_quorum hverify hrecovery
  obtain ⟨hlease', quorum', hnodup', hsub', hmost', hnamed'⟩ := verify_quorum hverify' hrecovery'
  obtain ⟨p, hp, hp'⟩ := exists_common hnodup hnodup' hsub hsub' (by omega)
  have howner : p ≠ ownerParty := by simpa using (mem_filter.mp (hsub hp)).2
  -- the node the two quorums share has signed both leases
  obtain ⟨sig, hsig, rfl⟩ := mem_map.mp (hnamed p hp)
  obtain ⟨s, hs, hsame⟩ := hgenuine sig hsig howner
  obtain ⟨sig', hsig', hparty⟩ := mem_map.mp (hnamed' _ hp')
  obtain ⟨t, ht, hsame'⟩ := hgenuine' sig' hsig' (hparty ▸ howner)
  rw [hparty] at ht
  rw [hlease, ← hsame] at hlive hplace
  rw [hlease', ← hsame'] at hlive' hplace
  have hend := hlive.before_end
  have hend' := hlive'.before_end
  rcases (World.run_inv hok (partyOf sig)).run_out hs ht hplace with hout | hout
  · omega
  · omega

/-! ### Examples

Three nodes, of which two activate a site. Every signature verifies, so that an
envelope is genuine or not by what the nodes have signed. -/

def exampleLib : Library := ⟨⟨fun _ _ _ => true, fun _ _ _ _ => true⟩, fun _ => false, fun _ => true⟩

def exampleSetup : Setup := ⟨exampleLib, ⟨threeNodes, ordered_threeNodes⟩, exampleKey⟩

def exampleRegistry : String :=
  String.ofList (['s', 'h', 'a', '2', '5', '6', ':'] ++ List.replicate 64 '0')

/-- What a lease of the example says, with its times in seconds. -/
structure Draft where
  site : String
  node : String
  epoch : Int
  start : String
  expires : String
  times : Int × Int
  siteName : matchesSite site = true := by decide
  nodeName : node ∈ ["a", "b", "c"] := by decide
  positive : 1 ≤ epoch ∧ epoch < 2 ^ 63 := by decide
  parsed : Heartbeat.parseTime (.str start) "not_before" = .ok times.1 ∧
    Heartbeat.parseTime (.str expires) "expires_at" = .ok times.2 := by decide
  ordered : times.1 < times.2 := by decide
  short : times.2 - times.1 ≤ maxLease := by decide

namespace Draft

variable (l : Draft)

def value : Value :=
  .obj [("activation_epoch", .num l.epoch), ("expires_at", .str l.expires),
    ("manifest_digest", .str (Python.digest threeNodes)), ("manifest_epoch", .num 1),
    ("node_id", .str l.node), ("not_before", .str l.start),
    ("registry_digest", .str exampleRegistry), ("schema", .str schema), ("site", .str l.site)]

theorem value_ordered : l.value.Ordered := by
  refine ⟨?_, trivial, trivial, trivial, trivial, trivial, trivial, trivial, trivial, trivial,
    trivial⟩
  show ["activation_epoch", "expires_at", "manifest_digest", "manifest_epoch", "node_id",
    "not_before", "registry_digest", "schema", "site"].Pairwise (· < ·)
  decide

def lease : Document := ⟨l.value, l.value_ordered⟩

theorem fields_value : field l.value "schema" = .str schema ∧ field l.value "node_id" = .str l.node ∧
    field l.value "site" = .str l.site ∧ field l.value "registry_digest" = .str exampleRegistry ∧
    field l.value "activation_epoch" = .num l.epoch ∧ field l.value "manifest_epoch" = .num 1 ∧
    field l.value "manifest_digest" = .str (Python.digest threeNodes) ∧
    field l.value "not_before" = .str l.start ∧ field l.value "expires_at" = .str l.expires :=
  ⟨rfl, rfl, rfl, rfl, rfl, rfl, rfl, rfl, rfl⟩

theorem hasField_recovery : hasField l.value "recovery" = false := rfl

theorem placeOf_value : placeOf l.value = (l.site, l.node) := by
  simp only [placeOf, siteOf, nodeOf, l.fields_value, textOf]

end Draft

theorem Draft.validate_value (l : Draft) : validate exampleLib l.value = .ok l.times := by
  have hkeys : Python.exact l.value (leaseKeys ++ []) "the activation lease" = .ok () := by
    refine Python.exact_eq_ok.mpr (exact_of_perm rfl ?_)
    show ["activation_epoch", "expires_at", "manifest_digest", "manifest_epoch", "node_id",
      "not_before", "registry_digest", "schema", "site"].Perm (leaseKeys ++ [])
    decide
  have hregistry : matchesDigest exampleRegistry = true := by
    unfold matchesDigest exampleRegistry
    rw [String.toList_ofList]
    decide
  have hdigest : Python.hexField (.str (Python.digest threeNodes)) 64 "manifest_digest" = .ok () :=
    Python.hexField_eq_ok.mpr ⟨_, rfl, matchesHex_digest threeNodes⟩
  have hnode : ∀ node ∈ ["a", "b", "c"], matchesNodeID node = true := by decide
  have hobj : isObject l.value = true := rfl
  unfold validate epochField
  simp only [steps_eq_ok, l.fields_value, l.hasField_recovery, asText, asInteger, Option.any_some,
    hnode l.node l.nodeName, l.siteName, hregistry, hobj]
  refine ⟨trivial, hkeys, trivial, trivial, trivial, trivial, ?_, rfl, hdigest, l.times.1,
    l.parsed.1, l.times.2, l.parsed.2, l.ordered, l.short, by simp, rfl⟩
  simpa using l.positive

/-! The checks before the lock. -/

theorem ruleParties_threeNodes : ruleParties threeNodes = ["a", "b", "c"] := rfl

theorem nodeParties_threeNodes : nodeParties threeNodes = ["a", "b", "c"] := by decide

theorem Draft.admits (l : Draft) (hname : name ∈ ["a", "b", "c"]) :
    (signerAdmits threeNodes name (exampleKey name) l.value).isOk = true := by
  obtain ⟨node, -, hat, hserving⟩ := at_threeNodes hname
  have hepoch : field threeNodes "epoch" = .num 1 := rfl
  have hok : signerAdmits threeNodes name (exampleKey name) l.value = .ok () := by
    unfold signerAdmits
    simp only [steps_eq_ok, validate_threeNodes, exists_eq_left', hat,
      Option.any_some, ruleParties_threeNodes, l.fields_value, hepoch]
    exact ⟨by simpa using hserving.key.hex, ⟨hname, by simp [hserving.active,
      NodeState.notCounting]⟩, trivial, trivial⟩
  rw [hok]
  rfl

theorem Draft.cosigns (l : Draft) (hname : name ∈ ["a", "b", "c"]) (hother : l.node ≠ name) :
    (cosignChecks exampleLib threeNodes name l.node l.value true).isOk = true := by
  have hcounting : ∀ p ∈ ["a", "b", "c"], ((nodesById threeNodes).at p).any
      (fun node => !(stateOf node).any NodeState.notCounting) = true := by
    intro p hp
    obtain ⟨node, -, hat, hserving⟩ := at_threeNodes hp
    simp [hat, hserving.active, NodeState.notCounting]
  have hok : cosignChecks exampleLib threeNodes name l.node l.value true = .ok () := by
    unfold cosignChecks
    simp only [steps_eq_ok, validate_threeNodes, exists_eq_left',
      nodeParties_threeNodes, l.validate_value, l.fields_value, l.hasField_recovery,
      mem_filter, hname, l.nodeName, hcounting _ hname, hcounting _ l.nodeName]
    exact ⟨⟨trivial, trivial⟩, ⟨⟨trivial, trivial⟩, hother⟩, trivial, trivial, rfl⟩
  rw [hok]
  rfl

/-! Envelopes that two nodes sign. -/

def signatureOf (name : String) : Value :=
  .obj [("key", .str (exampleKey name)), ("party", .str name), ("sig", .str exampleSignature)]

def Draft.envelope (l : Draft) (p q : String) : Value :=
  .obj [("lease", l.value), ("signatures", .arr [signatureOf p, signatureOf q])]

theorem signatureOf_ordered (name : String) : (signatureOf name).Ordered := by
  refine ⟨?_, trivial, trivial, trivial, trivial⟩
  show ["key", "party", "sig"].Pairwise (· < ·)
  decide

theorem Draft.envelope_ordered (l : Draft) (p q : String) : (l.envelope p q).Ordered := by
  refine ⟨?_, l.value_ordered, ⟨signatureOf_ordered p, signatureOf_ordered q, trivial⟩, trivial⟩
  show ["lease", "signatures"].Pairwise (· < ·)
  decide

theorem signedBy_example (hname : name ∈ ["a", "b", "c"]) (message : List UInt8) :
    SignedBy exampleLib.crypto threeNodes message (signatureOf name) name := by
  obtain ⟨node, hnode, -, hserving⟩ := at_threeNodes hname
  have howner : ∀ p ∈ ["a", "b", "c"], p ≠ ownerParty := by decide
  have hshape := signingKey_example name hname
  refine ⟨exact_of_perm rfl ?_, rfl, (.ecdsaP256, exampleKey name), rfl, ?_, ?_, ?_⟩
  · show ["key", "party", "sig"].Perm ["party", "key", "sig"]
    exact List.Perm.swap _ _ _
  · unfold matchesSignatureKey
    rw [hshape.1, Bool.or_true]
  · unfold PartyKey
    rw [if_neg (howner name hname)]
    exact ⟨node, hnode, hserving.id, hserving.has, hserving.key⟩
  · exact signatureOver_example hname (fun _ _ _ _ => rfl) message

/-- Nodes that have signed are counted, whatever they have signed. -/
theorem countingParties_example {names : List String} (hnames : ∀ p ∈ names, p ∈ ["a", "b", "c"])
    (hdistinct : names.Nodup) (hsome : 1 ≤ names.length) (message : List UInt8) (label : String) :
    Python.countingParties exampleLib.crypto (some threeNodes) message
      (.arr (names.map signatureOf)) label = .ok names := by
  have hfew : names.length ≤ 3 := (hdistinct.subperm hnames).length_le
  refine (Python.countingParties_eq_ok valid_threeNodes).mpr ⟨rfl, names, ?_, ?_⟩
  · refine ⟨rfl, by simpa [itemsOf] using hsome, ?_, ?_, hdistinct⟩
    · simp only [itemsOf, length_map]
      exact hfew.trans (by decide)
    · exact forall₂_map_left_iff.mpr (forall₂_same.mpr
        (fun p hp => signedBy_example (hnames p hp) message))
  · refine (filter_eq_self.mpr (fun p hp => ?_)).symm
    obtain ⟨node, -, hat, hserving⟩ := at_threeNodes (hnames p hp)
    simp [counting, hat, hserving.active, NodeState.notCounting]

theorem Draft.verify_envelope (l : Draft) {p q : String} (hp : p ∈ ["a", "b", "c"])
    (hq : q ∈ ["a", "b", "c"]) (hne : p ≠ q) :
    verify exampleLib (l.envelope p q) threeNodes = .ok l.value := by
  have hlease : field (l.envelope p q) "lease" = l.value := rfl
  have hsigs : field (l.envelope p q) "signatures" = .arr ([p, q].map signatureOf) := rfl
  have hcounted := countingParties_example
    (show ∀ x ∈ [p, q], x ∈ ["a", "b", "c"] from by simp only [forall_mem_cons]; simp [hp, hq])
    (by simpa using hne) (Nat.le_add_left 1 1)
  have hexact : Python.exact (l.envelope p q) ["lease", "signatures"] "the activation envelope" =
      .ok () := Python.exact_eq_ok.mpr (exact_of_perm rfl (List.Perm.refl _))
  obtain ⟨node, -, hat, hserving⟩ := at_threeNodes l.nodeName
  have hnode : nodeOf l.value = l.node := by
    rw [nodeOf, l.fields_value.2.1]
    rfl
  have hmay : Python.may threeNodes l.node .serve = .ok true := by
    unfold Python.may
    rw [validate_threeNodes]
    simp [bind, Except.bind, pure, Except.pure, hat, nodeCapabilities, hserving.active,
      capabilities]
  have hepoch : Membership.epochOf threeNodes = 1 := rfl
  have hschema : field threeNodes "schema" = .str Schema.v4.text := rfl
  have hthreshold : threshold threeNodes = 2 := rfl
  have hquorum : ∀ p ∈ ["a", "b", "c"], ∀ q ∈ ["a", "b", "c"],
      [p, q].filter (· ∈ ruleParties threeNodes) = [p, q] ∧
        [p, q].filter (· ≠ ownerParty) = [p, q] ∧ ownerParty ∉ [p, q] := by decide
  obtain ⟨hnamed, hnodes, hnone⟩ := hquorum p hp q hq
  unfold verify
  simp only [steps_eq_ok, onlyIf_eq_ok, hlease, hsigs, hexact, l.validate_value,
    validate_threeNodes, hcounted, exists_eq_left', l.fields_value, hnode, hmay,
    hat, hepoch, hschema, hthreshold, asInteger, Option.getD_some, l.hasField_recovery]
  refine ⟨trivial, trivial, le_rfl, fun _ => trivial, rfl, trivial, ?_⟩
  rw [hnamed, if_pos hnone, hnodes]
  rfl

/-! The three nodes side by side. -/

def exampleWorld (time : Int) (a b c : Node) : World where
  time := time
  nodes name := if name = "a" then a else if name = "b" then b else if name = "c" then c else {}

section Steps

variable {time : Int} {a b c : Node} {move : Move}

theorem nodes_example : (exampleWorld time a b c).nodes "a" = a ∧
    (exampleWorld time a b c).nodes "b" = b ∧ (exampleWorld time a b c).nodes "c" = c :=
  ⟨rfl, rfl, rfl⟩

theorem init_example : World.init time = exampleWorld time {} {} {} := by
  simp [World.init, exampleWorld]

theorem tick_example {seconds : Nat} :
    World.step exampleSetup (exampleWorld time a b c) (.tick seconds) =
      exampleWorld (time + seconds) a b c := rfl

theorem step_example :
    (World.step exampleSetup (exampleWorld time a b c) (.node "a" move) =
      exampleWorld time (a.step exampleSetup "a" time move) b c) ∧
    (World.step exampleSetup (exampleWorld time a b c) (.node "b" move) =
      exampleWorld time a (b.step exampleSetup "b" time move) c) ∧
    World.step exampleSetup (exampleWorld time a b c) (.node "c" move) =
      exampleWorld time a b (c.step exampleSetup "c" time move) := by
  refine ⟨?_, ?_, ?_⟩ <;>
  · refine congrArg (World.mk time) (funext fun other => ?_)
    simp only [Function.update_apply, exampleWorld]
    split <;> simp_all

end Steps

/-! One node granting a lease. -/

theorem Draft.check (l : Draft) {count : Nat}
    (hwaited : (standing held count).isSome ∨ started + recoveryWait ≤ now)
    (hbegun : l.times.1 ≤ now + skew) (hahead : now < l.times.2)
    (hlast : ∀ last, standing held count = some last → last.epoch < l.epoch ∧
      (last.place ≠ (l.site, l.node) → last.expires + skew ≤ l.times.1)) :
    checkGrant exampleLib l.value held count started now = .ok l.times := by
  have hepoch : epochOf l.value = l.epoch := by
    rw [epochOf, l.fields_value.2.2.2.2.1]
    rfl
  have hplace := l.placeOf_value
  unfold placeOf at hplace
  unfold checkGrant
  simp only [steps_eq_ok, l.validate_value, exists_eq_left']
  refine ⟨hwaited, hbegun, hahead, ?_⟩
  cases hstands : standing held count with
  | none => rfl
  | some last =>
    obtain ⟨hnew, hhandover⟩ := hlast last hstands
    simp only [steps_eq_ok, onlyIf_eq_ok, hepoch]
    refine ⟨hnew, ?_, trivial⟩
    intro hne
    rw [hplace] at hne
    exact hhandover hne

/-- A node that has signed a lease, with no other call under way. -/
def Draft.granted (l : Draft) (node : Node) (time : Int) : Node :=
  (node.recorded l.value l.times.2).sign l.lease time

/-- The calls that enter a lease at a node: its own proposal, or another's. -/
def Draft.Enters (l : Draft) (name : String) (enter : Move) : Prop :=
  enter = .propose l.lease ∧ l.node = name ∨ enter = .cosign l.node l.lease true ∧ l.node ≠ name

section Enters

variable {l : Draft} {enter : Move} (h : l.Enters name enter) (node : Node) {started time : Int}
  (hname : name ∈ ["a", "b", "c"]) (hstarted : node.started = some started) (hcalls : node.calls = [])

include h hname hstarted hcalls

theorem Draft.Enters.calls :
    node.step exampleSetup name time enter = { node with calls := [(l.lease, time)] } := by
  have hsome : node.started.isSome := by
    rw [hstarted]
    rfl
  obtain ⟨rfl, rfl⟩ | ⟨rfl, hother⟩ := h
  · simp only [Node.step]
    rw [if_pos ⟨hsome, rfl, l.hasField_recovery⟩, hcalls]
    rfl
  · simp only [Node.step]
    rw [if_pos ⟨hsome, l.cosigns hname hother⟩, hcalls]
    rfl

theorem Draft.Enters.grant
    (hcheck : checkGrant exampleLib l.value node.record node.counter started time = .ok l.times) :
    (node.step exampleSetup name time enter).step exampleSetup name time (.grant 0 .none false) =
      l.granted node time := by
  rw [h.calls node hname hstarted hcalls]
  have hadmits : (signerAdmits exampleSetup.manifest name (exampleSetup.keys name)
      l.lease).isOk = true := l.admits hname
  have hcheck' : checkGrant exampleSetup.lib l.lease node.record node.counter started time =
      .ok l.times := hcheck
  simp only [Node.step, Node.grant, hstarted, getElem?_cons_zero]
  rw [if_pos hadmits, hcheck']
  simp only [eraseIdx_cons_zero, Node.commit, granted, Node.recorded, Node.sign,
    Node.recordOf, hcalls, hstarted]
  rfl

theorem Draft.Enters.orderly
    (hlast : ∀ last, standing node.record node.counter = some last →
      last.place = (l.site, l.node) → last.expires ≤ l.times.2) :
    (node.step exampleSetup name time enter).Orderly exampleLib (.grant 0 .none false) := by
  rw [h.calls node hname hstarted hcalls]
  refine ⟨?_, ?_⟩
  · intro call hcall last hstands hplace
    obtain rfl : (l.lease, time) = call := Option.some.inj hcall
    rw [show endOf exampleLib l.lease = l.times.2 from endOf_eq l.validate_value]
    exact hlast last hstands (hplace.trans l.placeOf_value)
  · rintro (h | h) <;> cases h

end Enters

/-! The leases, and the runs. The first site is active on `a` for ten minutes. -/

/-- 2026-10-05 09:00:00. -/
def exampleTime : Int := 1791190800

def firstLease : Draft where
  site := "site-x"
  node := "a"
  epoch := 1
  start := "2026-10-05T09:00:00Z"
  expires := "2026-10-05T09:10:00Z"
  times := (exampleTime, exampleTime + 600)

/-- A renewal that ends after ten seconds. -/
def shortRenewal : Draft where
  site := "site-x"
  node := "a"
  epoch := 2
  start := "2026-10-05T09:00:00Z"
  expires := "2026-10-05T09:00:10Z"
  times := (exampleTime, exampleTime + 10)

/-- The other site, on `c`, after the renewal and the margin. -/
def otherLease : Draft where
  site := "site-y"
  node := "c"
  epoch := 3
  start := "2026-10-05T09:01:10Z"
  expires := "2026-10-05T09:11:10Z"
  times := (exampleTime + 70, exampleTime + 670)

/-- The other site, on `c`, after the first lease and the margin. -/
def laterLease : Draft where
  site := "site-y"
  node := "c"
  epoch := 2
  start := "2026-10-05T09:11:00Z"
  expires := "2026-10-05T09:21:00Z"
  times := (exampleTime + 660, exampleTime + 1260)

def startedNode : Node := { started := some (exampleTime - 660) }

/-- A node that has signed the first lease. -/
abbrev firstNode : Node := firstLease.granted startedNode exampleTime

def startEvents : List Event :=
  [.node "a" .start, .node "b" .start, .node "c" .start, .tick 660]

def firstEvents : List Event :=
  [.node "b" (.cosign "a" firstLease.lease true), .node "b" (.grant 0 .none false),
    .node "a" (.propose firstLease.lease), .node "a" (.grant 0 .none false)]

def renewalEvents : List Event :=
  [.node "b" (.cosign "a" shortRenewal.lease true), .node "b" (.grant 0 .none false)]

def nextEvents (l : Draft) : List Event :=
  [.node "b" (.cosign "c" l.lease true), .node "b" (.grant 0 .none false),
    .node "c" (.propose l.lease), .node "c" (.grant 0 .none false)]

theorem asked_first : firstLease.Enters "b" (.cosign "a" firstLease.lease true) :=
  .inr ⟨rfl, by decide⟩

theorem proposed_first : firstLease.Enters "a" (.propose firstLease.lease) := .inl ⟨rfl, rfl⟩

theorem asked_next {l : Draft} (hl : l.node = "c") :
    l.Enters "b" (.cosign "c" l.lease true) := .inr ⟨hl ▸ rfl, hl ▸ by decide⟩

theorem proposed_next {l : Draft} (hl : l.node = "c") : l.Enters "c" (.propose l.lease) :=
  .inl ⟨rfl, hl⟩

theorem run_start : startEvents.foldl (World.step exampleSetup) (World.init (exampleTime - 660)) =
    exampleWorld exampleTime startedNode startedNode startedNode := by
  rw [init_example]
  simp only [startEvents, foldl_cons, foldl_nil, step_example, tick_example]
  rfl

-- a grant that has been recorded is what the next one is checked against
theorem Draft.check_after (l before : Draft) {node : Node} {now then_ : Int}
    (hbegun : l.times.1 ≤ now + skew) (hahead : now < l.times.2) (hepoch : before.epoch < l.epoch)
    (hplace : (before.site, before.node) ≠ (l.site, l.node) →
      before.times.2 + skew ≤ l.times.1) (started : Int) :
    checkGrant exampleLib l.value (before.granted node then_).record
      (before.granted node then_).counter started now = .ok l.times := by
  have hstands : standing (before.granted node then_).record (before.granted node then_).counter =
      some (node.recordOf before.value before.times.2) := standing_recordOf node _ _
  refine l.check (.inl (by rw [hstands]; rfl)) hbegun hahead ?_
  intro last hlast
  obtain rfl := Option.some.inj (hstands.symm.trans hlast)
  have hnew : epochOf before.value < l.epoch := by
    rw [epochOf, before.fields_value.2.2.2.2.1]
    exact hepoch
  refine ⟨hnew, ?_⟩
  intro hne
  refine hplace ?_
  rw [← before.placeOf_value]
  exact hne

theorem run_first : firstEvents.foldl (World.step exampleSetup)
    (exampleWorld exampleTime startedNode startedNode startedNode) =
      exampleWorld exampleTime firstNode firstNode startedNode := by
  have hcheck : checkGrant exampleLib firstLease.value startedNode.record startedNode.counter
      (exampleTime - 660) exampleTime = .ok firstLease.times :=
    firstLease.check (.inr (by decide)) (by decide) (by decide) (fun _ h => nomatch h)
  simp only [firstEvents, foldl_cons, foldl_nil, step_example]
  rw [asked_first.grant startedNode (by decide) rfl rfl hcheck,
    proposed_first.grant startedNode (by decide) rfl rfl hcheck]

theorem run_renewal {a c : Node} : renewalEvents.foldl (World.step exampleSetup)
    (exampleWorld exampleTime a firstNode c) = exampleWorld exampleTime a
        (shortRenewal.granted firstNode exampleTime) c := by
  have hasked : shortRenewal.Enters "b" (.cosign "a" shortRenewal.lease true) :=
    .inr ⟨rfl, by decide⟩
  simp only [renewalEvents, foldl_cons, foldl_nil, step_example]
  rw [hasked.grant firstNode (by decide) rfl rfl (shortRenewal.check_after firstLease (by decide)
    (by decide) (by decide) (fun h => absurd rfl h) _)]

-- the other site, once the last grant of `b` and the margin have passed
theorem run_next {a node : Node} {before l : Draft} {time then_ : Int} (hl : l.node = "c")
    (hstarted : node.started = some (exampleTime - 660)) (hcalls : node.calls = [])
    (hwaited : exampleTime ≤ time) (hbegun : l.times.1 ≤ time + skew) (hahead : time < l.times.2)
    (hepoch : before.epoch < l.epoch) (hover : before.times.2 + skew ≤ l.times.1) :
    (nextEvents l).foldl (World.step exampleSetup)
      (exampleWorld time a (before.granted node then_) startedNode) =
        exampleWorld time a (l.granted (before.granted node then_) time)
          (l.granted startedNode time) := by
  have hfresh : checkGrant exampleLib l.value startedNode.record startedNode.counter (exampleTime - 660)
      time = .ok l.times := by
    refine l.check (.inr ?_) hbegun hahead (fun _ h => nomatch h)
    show exampleTime - 660 + 660 ≤ time
    omega
  simp only [nextEvents, foldl_cons, foldl_nil, step_example]
  rw [(asked_next hl).grant (before.granted node then_) (by decide) hstarted hcalls
    (l.check_after before hbegun hahead hepoch (fun _ => hover) _),
    (proposed_next hl).grant startedNode (by decide) rfl rfl hfresh]

def renewedEvents : List Event :=
  startEvents ++ firstEvents ++ renewalEvents ++ [.tick 70] ++ nextEvents otherLease

theorem run_renewed : World.run exampleSetup (exampleTime - 660) renewedEvents =
    exampleWorld (exampleTime + 70) firstNode (otherLease.granted (shortRenewal.granted firstNode
        exampleTime) (exampleTime + 70)) (otherLease.granted startedNode (exampleTime + 70)) := by
  unfold World.run renewedEvents
  rw [foldl_append, foldl_append, foldl_append, foldl_append, run_start, run_first, run_renewal]
  exact run_next rfl rfl rfl (by decide) (by decide) (by decide) (by decide) (by decide)

theorem genuine_example {time : Int} {a b c : Node} {l : Draft} {p q : String}
    (hp : ∃ t, ⟨l.lease, t⟩ ∈ ((exampleWorld time a b c).nodes p).signed)
    (hq : ∃ t, ⟨l.lease, t⟩ ∈ ((exampleWorld time a b c).nodes q).signed) :
    Genuine (exampleWorld time a b c) (l.envelope p q) := by
  intro sig hsig _
  have hsig' : sig ∈ [signatureOf p, signatureOf q] := hsig
  simp only [mem_cons, not_mem_nil, or_false] at hsig'
  rcases hsig' with rfl | rfl
  · obtain ⟨t, ht⟩ := hp
    exact ⟨_, ht, rfl⟩
  · obtain ⟨t, ht⟩ := hq
    exact ⟨_, ht, rfl⟩

theorem Draft.live (l : Draft) {time : Int} (hbegun : l.times.1 ≤ time) (hahead : time < l.times.2) :
    Live exampleLib l.lease time := ⟨l.times, l.validate_value, hbegun, hahead⟩

/-- The renewal makes `b` forget the lease it renews, and the other site is
    activated while that one is live. -/
theorem two_places_live : ∃ (envelope envelope' : Document) (lease lease' : Value),
    ((nodeParties exampleSetup.manifest).length : Int) < 2 * threshold exampleSetup.manifest ∧
    verify exampleSetup.lib envelope exampleSetup.manifest = .ok lease ∧
    verify exampleSetup.lib envelope' exampleSetup.manifest = .ok lease' ∧
    hasField lease "recovery" = false ∧ hasField lease' "recovery" = false ∧
    Genuine (World.run exampleSetup (exampleTime - 660) renewedEvents) envelope ∧
    Genuine (World.run exampleSetup (exampleTime - 660) renewedEvents) envelope' ∧
    placeOf lease ≠ placeOf lease' ∧ Live exampleSetup.lib lease
      (World.run exampleSetup (exampleTime - 660) renewedEvents).time ∧ Live exampleSetup.lib lease'
      (World.run exampleSetup (exampleTime - 660) renewedEvents).time := by
  refine ⟨⟨firstLease.envelope "a" "b", firstLease.envelope_ordered _ _⟩,
    ⟨otherLease.envelope "b" "c", otherLease.envelope_ordered _ _⟩, firstLease.value,
    otherLease.value, by decide, firstLease.verify_envelope (by decide) (by decide) (by decide),
    otherLease.verify_envelope (by decide) (by decide) (by decide),
    firstLease.hasField_recovery, otherLease.hasField_recovery, ?_, ?_, ?_, ?_, ?_⟩
  · rw [run_renewed]
    exact genuine_example ⟨exampleTime, mem_singleton.mpr rfl⟩ ⟨exampleTime, mem_cons_self⟩
  · rw [run_renewed]
    exact genuine_example ⟨exampleTime + 70, mem_cons_of_mem _ (mem_cons_of_mem _ mem_cons_self)⟩
      ⟨exampleTime + 70, mem_singleton.mpr rfl⟩
  · rw [firstLease.placeOf_value, otherLease.placeOf_value]
    decide
  · rw [run_renewed]
    exact firstLease.live (by decide) (by decide)
  · rw [run_renewed]
    exact otherLease.live (by decide) (by decide)

/-! Without the renewal the other site waits out the first lease. -/

def laterEvents : List Event :=
  startEvents ++ firstEvents ++ [.tick 660] ++ nextEvents laterLease

theorem run_later : World.run exampleSetup (exampleTime - 660) laterEvents =
    exampleWorld (exampleTime + 660) firstNode (laterLease.granted firstNode (exampleTime + 660))
      (laterLease.granted startedNode (exampleTime + 660)) := by
  unfold World.run laterEvents
  rw [foldl_append, foldl_append, foldl_append, run_start, run_first]
  exact run_next rfl rfl rfl (by decide) (by decide) (by decide) (by decide) (by decide)

theorem orderly_first : Throughout (World.Orderly exampleLib) (World.step exampleSetup)
    (exampleWorld exampleTime startedNode startedNode startedNode) firstEvents := by
  refine ⟨trivial, ?_, trivial, ?_, trivial⟩
  · simp only [step_example, World.Orderly, nodes_example]
    exact asked_first.orderly startedNode (by decide) rfl rfl (fun _ h => nomatch h)
  · simp only [step_example, World.Orderly, nodes_example]
    exact proposed_first.orderly startedNode (by decide) rfl rfl (fun _ h => nomatch h)

theorem orderly_next : Throughout (World.Orderly exampleLib) (World.step exampleSetup)
    (exampleWorld (exampleTime + 660) firstNode firstNode startedNode) (nextEvents laterLease) := by
  refine ⟨trivial, ?_, trivial, ?_, trivial⟩
  · simp only [step_example, World.Orderly, nodes_example]
    refine (asked_next (l := laterLease) rfl).orderly firstNode (by decide) rfl rfl ?_
    intro last hlast hplace
    obtain rfl := Option.some.inj ((standing_recordOf startedNode firstLease.value _).symm.trans hlast)
    exact absurd (firstLease.placeOf_value.symm.trans hplace) (by decide)
  · simp only [step_example, World.Orderly, nodes_example]
    exact (proposed_next (l := laterLease) rfl).orderly startedNode (by decide) rfl rfl (fun _ h => nomatch h)

theorem orderly_later : Throughout (World.Orderly exampleLib) (World.step exampleSetup)
    (World.init (exampleTime - 660)) laterEvents := by
  refine Throughout.append (Throughout.append (Throughout.append ?_ ?_) ?_) ?_
  · exact ⟨trivial, trivial, trivial, trivial, trivial⟩
  · rw [run_start]
    exact orderly_first
  · exact ⟨trivial, trivial⟩
  · rw [foldl_append, foldl_append, run_start, run_first]
    exact orderly_next

theorem one_place_live_later :
    ¬ (Live exampleLib firstLease.value (exampleTime + 660) ∧
      Live exampleLib laterLease.value (exampleTime + 660)) := by
  have hlive := one_place_live exampleSetup (exampleTime - 660) laterEvents
    (by decide) orderly_later ⟨firstLease.envelope "a" "b", firstLease.envelope_ordered _ _⟩
    ⟨laterLease.envelope "b" "c", laterLease.envelope_ordered _ _⟩
    (firstLease.verify_envelope (by decide) (by decide) (by decide))
    (laterLease.verify_envelope (by decide) (by decide) (by decide))
    firstLease.hasField_recovery laterLease.hasField_recovery (by
      rw [run_later]
      exact genuine_example ⟨exampleTime, mem_singleton.mpr rfl⟩ ⟨exampleTime, mem_cons_self⟩)
    (by
      rw [run_later]
      exact genuine_example ⟨exampleTime + 660, mem_cons_of_mem _ mem_cons_self⟩
        ⟨exampleTime + 660, mem_singleton.mpr rfl⟩)
    (by
      rw [firstLease.placeOf_value, laterLease.placeOf_value]
      decide)
  rw [run_later] at hlive
  exact hlive

end Regalia.Activation
