import Mathlib.Data.List.Destutter
import Regalia.Core.Admission.Service
import Regalia.Data.Runs

/-!
# The Trail of an Admission Service

One flag of the service, `recorded`, stands for what its trail holds. Where a
record of not serving fails, the flag stays behind the document, and the trail
has one change still to take. A round that serves again before it is taken
loses both changes, and a node that passes from one mode to the other while it
serves is recorded as if it had changed. In every other run the trail tells
the changes of the documents, all but the one it has still to take.

## Main definitions

* `Service.changes`: The changes between serving and not serving.
* `Service.Told`: The trail holds what the last document said.
* `Undivided`: The rounds that keep the trail and the documents together.
* `Telling`: The invariant.

## Theorems

* `destutter_concat`: The changes of a list one item longer.
* `Telling.publish`: A round keeps the invariant.
* `trail_tells_changes`: The trail tells the changes of the documents.
* `trail_parts_from_documents`: The two ways in which they come apart.
-/

namespace Regalia.Admission

open List

section Changes

variable {α : Type*} [DecidableEq α] (l : List α)

theorem destutter_concat (b : α) : (l ++ [b]).destutter (· ≠ ·) =
    l.destutter (· ≠ ·) ++ if l.getLast? = some b then [] else [b] := by
  cases l with
  | nil => simp
  | cons a l =>
    simp only [cons_append, destutter_cons']
    induction l generalizing a with
    | nil => by_cases h : a = b <;> simp [List.destutter', h]
    | cons c l ih =>
      by_cases h : a = c
      · subst h
        simpa [List.destutter'] using ih a
      · simpa [List.destutter', h] using ih c

theorem getLast?_destutter : (l.destutter (· ≠ ·)).getLast? = l.getLast? := by
  induction l using List.reverseRecOn with
  | nil => rfl
  | append_singleton l b ih =>
    rw [destutter_concat]
    split_ifs with hlast <;> simp_all

end Changes

def Service.changes (s : Service) : List Bool :=
  (s.documents.map Document.serving).destutter (· ≠ ·)

def Service.outcomes (s : Service) : List Bool := s.trail.map Event.serving

abbrev Service.Told (s : Service) : Prop := s.written.map Document.serving = s.recorded

/-- A round that finds the node may serve finds the trail told, and a node that
    serves already in the mode it has found. -/
def Undivided (s : Service) (r : Round × Answers) : Prop :=
  ∀ asked ∈ r.1.asks s, (judge s.written asked.1 asked.2 r.2).serving = true → s.Told ∧
    (s.recorded = some true → s.recordedMode = some (judge s.written asked.1 asked.2 r.2).mode)

instance (s : Service) (r : Round × Answers) : Decidable (Undivided s r) := by
  unfold Undivided; infer_instance

structure Telling (s : Service) : Prop where
  written : s.written = s.documents.getLast?
  changes : s.changes = s.outcomes ++ if s.Told then [] else [false]
  behind : ¬ s.Told → s.written.map Document.serving = some false ∧ s.taken = false

variable {s : Service} {d : Document}

/-! ### One document more -/

theorem Telling.concat (h : Telling s) (d : Document) :
    { s with documents := s.documents ++ [d] }.changes = s.changes ++
      if s.written.map Document.serving = some d.serving then [] else [d.serving] := by
  simp only [Service.changes, map_append, map_singleton, destutter_concat,
    getLast?_map, ← h.written]

/-- A document that does not serve: its change is told, or still to be told. -/
theorem Telling.stopped (h : Telling s) (hd : d.serving = false) :
    { s with documents := s.documents ++ [d] }.changes =
      s.outcomes ++ if s.recorded = some false then [] else [false] := by
  rw [h.concat, hd, h.changes]
  by_cases hsame : s.Told
  · simp only [if_pos hsame, append_nil, show s.written.map _ = _ from hsame]
  · have hlast := (h.behind hsame).1
    have hrecorded : s.recorded ≠ some false := fun hc => hsame (hlast.trans hc.symm)
    simp only [if_neg hsame, if_pos hlast, if_neg hrecorded, append_nil]

/-- What a service with one document more has to tell. -/
theorem Telling.of_concat {t : Service} (hdocuments : t.documents = s.documents ++ [d])
    (hwritten : t.written = some d)
    (hchanges : { s with documents := s.documents ++ [d] }.changes =
      t.outcomes ++ if t.recorded = some d.serving then [] else [false])
    (hbehind : t.recorded ≠ some d.serving → d.serving = false ∧ t.taken = false) : Telling t := by
  have htold : t.Told ↔ t.recorded = some d.serving := by
    rw [Service.Told, hwritten, Option.map_some, eq_comm]
  refine ⟨by simp [hdocuments, hwritten], ?_, fun h => ?_⟩
  · rw [if_congr htold rfl rfl, ← hchanges, Service.changes, hdocuments]
    rfl
  · simpa [hwritten] using hbehind (h ∘ htold.mpr)

/-! ### The rounds -/

theorem Telling.stop (h : Telling s) (hd : d.serving = false) (a : Answers) (taken : Bool) :
    Telling { ({ s with documents := s.documents ++ [d], taken := taken } : Service).stop d a with
      written := some d } := by
  have hchanges := h.stopped hd
  unfold Service.stop
  split_ifs with hchange htaken
  · rw [if_neg hchange.2] at hchanges
    exact .of_concat rfl rfl (by simpa [Service.outcomes, hd] using hchanges) (by simp [hd])
  · exact .of_concat rfl rfl (by rw [hd]; exact hchanges) (fun _ => ⟨hd, rfl⟩)
  · have hrecorded : s.recorded = some false := by simpa [hd] using hchange
    exact .of_concat rfl rfl (by rw [hd]; exact hchanges) (by simp [hrecorded, hd])

theorem Telling.publish (h : Telling s) {reason : Reason} {refused : Bool} {a : Answers}
    (hok : (judge s.written reason refused a).serving = true → s.Told ∧
      (s.recorded = some true → s.recordedMode = some (judge s.written reason refused a).mode)) :
    Telling (s.publish reason refused a) := by
  unfold Service.publish Service.admit
  generalize judge s.written reason refused a = found at hok
  by_cases hserving : found.serving = true
  · rcases hok hserving with ⟨hsame, hmode⟩
    have hchanges := h.concat found
    rw [h.changes, if_pos hsame, hsame, hserving] at hchanges
    have hstays (t : Service) : t.stop found a = t := if_neg (by simp [hserving])
    by_cases hrecorded : s.recorded = some true
    · -- the node serves on, in its mode
      rw [if_neg (by simp [hrecorded, hmode hrecorded])]
      simp only [hstays]
      exact .of_concat rfl rfl (by simpa [Service.outcomes, hrecorded, hserving] using hchanges)
        (by simp [hrecorded, hserving])
    · rw [if_pos ⟨hserving, .inl hrecorded⟩]
      cases a.allow with
      | ok taken =>
        simp only [hstays]
        exact .of_concat rfl rfl (by simpa [Service.outcomes, hrecorded, hserving] using hchanges)
          (by simp [hserving])
      | error failure => exact h.stop rfl a false
  · rw [if_neg (fun hc => hserving hc.1)]
    exact h.stop (by simpa using hserving) a s.taken

theorem Telling.round (h : Telling s) {r : Round × Answers} (hok : Undivided s r) :
    Telling (s.round r) := by
  unfold Service.round
  cases hasked : r.1.asks s with
  | none => exact h
  | some asked => exact h.publish (hok asked hasked)

/-- Once the last record is taken the trail tells every change of the documents,
    in order. Before that it is short of one stop at most, and never while the
    last document serves. -/
theorem trail_tells_changes (rounds : List (Round × Answers))
    (hok : Throughout Undivided Service.round {} rounds) :
    let s := run rounds
    (s.changes = s.outcomes ∨ s.changes = s.outcomes ++ [false]) ∧
      (s.taken = true → s.outcomes = s.changes) ∧
      ∀ d ∈ s.documents.getLast?, d.serving = true →
        s.outcomes = s.changes ∧ s.outcomes.getLast? = some true := by
  intro s
  have hnew : Telling {} := ⟨rfl, rfl, fun h => absurd rfl h⟩
  have h : Telling s := hok.invariant (fun _ _ ht hr => ht.round hr) hnew
  have hwhole (ht : s.Told) : s.outcomes = s.changes := by
    rw [h.changes, if_pos ht, append_nil]
  refine ⟨?_, fun htaken => hwhole ?_, fun d hd hserving => ?_⟩
  · by_cases ht : s.Told
    · exact .inl (hwhole ht).symm
    · exact .inr (by rw [h.changes, if_neg ht])
  · by_contra ht
    simpa [htaken] using (h.behind ht).2
  · have hwritten : s.written = some d := h.written.trans hd
    have ht : s.Told := by
      by_contra ht
      simpa [hwritten, hserving] using (h.behind ht).1
    refine ⟨hwhole ht, ?_⟩
    rw [hwhole ht, Service.changes, getLast?_destutter, getLast?_map, hd, Option.map_some, hserving]

/-- A step of a node without a survivor authorization, with so many seconds left. -/
def plainStep (left : Int) (deny : Bool) : Round × Answers :=
  (.step none none, ⟨0, .ok left, true, none, .ok (), deny⟩)

theorem trail_tells_stop :
    let s := run [plainStep 30 true, plainStep 3 false, plainStep 2 true]
    s.outcomes = [true, false] ∧ s.outcomes = s.changes :=
  ⟨by decide, (trail_tells_changes [plainStep 30 true, plainStep 3 false, plainStep 2 true]
    (by decide)).2.1 (by decide)⟩

/-- The trail does not take a stop, and the node serves again before it is asked
    once more; or a lease runs out and the owner's authorization takes its place. -/
theorem trail_parts_from_documents :
    let lost := run [plainStep 30 true, plainStep 3 false, plainStep 30 true, plainStep 3 true]
    let moved := run [plainStep 30 true, (.step none none,
      ⟨60000, .error ⟨"no runtime lease is held: no peer vouches for this node", []⟩, true, some (.ok (some 30)), .ok (), true⟩)]
    lost.taken = true ∧ lost.changes = [true, false, true, false] ∧
      lost.outcomes = [true, false] ∧
      moved.taken = true ∧ moved.changes = [true] ∧ moved.outcomes = [true, true] := by
  decide

end Regalia.Admission
