import Mathlib.Data.List.Pairwise
import Regalia.Core.Lease.RevisionFloor
import Regalia.Data.Runs
import Regalia.Theory.Membership.Rules

/-!
# What an Issuer Remembers

The floor keeps a window of the reports and the time its history started. The
log beside it keeps every report that was accepted, and the floor answers as if
it had the log: what it drops is in front of a report that is one lease old, and
clocks do not run back.

## Main definitions

* `current`: The reports since the current state epoch began.
* `heldBy`: The last revision among them by some time.
* `Follows`: A floor that answers as its log does.

## Theorems

* `applied_cases`: What a report can do.
* `Follows.step`: One call keeps a floor in step with its log.
* `require_accepts_iff`: What a question is answered by.
-/

namespace Regalia.Lease

open List Option

variable {report : Report} {issuer : Issuer}

open Regalia.Membership

variable {minus : Subtraction} {floor : RevisionFloor} {log : List Report}

/-- The reports since the current state epoch began. -/
def current (log : List Report) : List Report :=
  log.filter (fun r => log.getLast?.map Report.epoch = some r.epoch)

/-- The last revision of the current history that was reported by some time. -/
def heldBy (log : List Report) (cutoff : ℚ) : Option Int :=
  (((current log).filter (fun r => r.time ≤ cutoff)).getLast?).map Report.revision

/-! ### One report -/

/-- What a report that is accepted leaves. -/
def RevisionFloor.taken (floor : RevisionFloor) (report : Report) (started : ℚ)
    (seen : List (ℚ × Int)) : RevisionFloor :=
  { floor with
    started := started
    clusterId := some report.clusterId
    epoch := some report.epoch
    seen := seen }

/-- A report is refused and changes nothing, begins a history, or is added to
    the current one. -/
theorem applied_cases (minus : Subtraction) (floor : RevisionFloor) (report : Report) :
    (∃ err, floor.applied minus report.time report.clusterId report.epoch report.revision =
      (floor, .error err)) ∨
    ((floor.seen = [] ∨ ∃ e ∈ floor.epoch, e < report.epoch) ∧
      floor.applied minus report.time report.clusterId report.epoch report.revision =
        (floor.taken report report.time [(report.time, report.revision)], .ok ())) ∨
    (floor.seen ≠ [] ∧ (∀ e ∈ floor.epoch, e = report.epoch) ∧
      floor.applied minus report.time report.clusterId report.epoch report.revision =
        (floor.taken report floor.started
          (fromLast (fun s => s.1 ≤ minus.sub report.time floor.lifetime)
            (floor.seen ++ [(report.time, report.revision)])), .ok ())) := by
  unfold RevisionFloor.applied
  by_cases hcluster : floor.clusterId.any (· ≠ report.clusterId) = true
  · rw [if_pos hcluster]
    exact .inl ⟨_, rfl⟩
  rw [if_neg hcluster]
  by_cases hepoch : floor.epoch.any (report.epoch < ·) = true
  · rw [if_pos hepoch]
    exact .inl ⟨_, rfl⟩
  rw [if_neg hepoch]
  by_cases hrisen : floor.epoch.any (· < report.epoch) = true
  · -- the list is emptied, so nothing is left that could refuse
    have hrestarted : floor.restarted report.time report.epoch =
        { floor with started := report.time, seen := [] } := by
      simp only [RevisionFloor.restarted, hrisen, if_true]
    rcases (Option.any_eq_true ..).mp hrisen with ⟨e, he, hlt⟩
    rw [hrestarted]
    exact .inr (.inl ⟨.inr ⟨e, he, of_decide_eq_true hlt⟩, rfl⟩)
  by_cases hseen : floor.seen = []
  · have hrestarted : floor.restarted report.time report.epoch =
        { floor with started := report.time, seen := [] } := by
      simp only [RevisionFloor.restarted, hrisen, if_false, hseen, if_true, Bool.false_eq_true]
    rw [hrestarted]
    exact .inr (.inl ⟨.inl hseen, rfl⟩)
  · have hrestarted : floor.restarted report.time report.epoch = floor := by
      simp only [RevisionFloor.restarted, hrisen, hseen, if_false, Bool.false_eq_true]
    rw [hrestarted]
    dsimp only
    split
    · exact .inl ⟨_, rfl⟩
    · refine .inr (.inr ⟨hseen, ?_, rfl⟩)
      intro e he
      rw [mem_def.mp he] at hepoch hrisen
      simp only [any_some, decide_eq_true_eq] at hepoch hrisen
      omega

/-! ### The log -/

theorem getLast?_log (log : List Report) (report : Report) :
    (log ++ [report]).getLast? = some report := getLast?_concat ..

/-- A report of a new epoch stands alone. -/
theorem current_new (h : ∀ r ∈ log, r.epoch ≠ report.epoch) :
    current (log ++ [report]) = [report] := by
  have hnone : log.filter (fun r => some report.epoch = some r.epoch) = [] := by
    refine filter_eq_nil_iff.mpr ?_
    intro r hr hsame
    exact h r hr (Option.some.inj (of_decide_eq_true hsame)).symm
  unfold current
  rw [getLast?_log, filter_append]
  simp only [map_some, hnone, decide_true, nil_append, filter_cons_of_pos, filter_nil]

/-- A report of the same epoch is added. -/
theorem current_same (h : log.getLast?.map Report.epoch = some report.epoch) :
    current (log ++ [report]) = current log ++ [report] := by
  unfold current
  rw [getLast?_log, filter_append, h]
  simp only [map_some, decide_true, filter_cons_of_pos, filter_nil]

theorem current_ne_nil {last : Report} (h : log.getLast? = some last) : last ∈ current log := by
  refine mem_filter.mpr ⟨mem_of_getLast? h, ?_⟩
  rw [h]
  exact decide_eq_true rfl

/-- The last entry by some time of a list that is longer by one. -/
theorem getLast?_filter_concat {α : Type} (p : α → Bool) (l : List α) (x : α) :
    ((l ++ [x]).filter p).getLast? = if p x = true then some x else (l.filter p).getLast? := by
  rw [filter_append]
  by_cases hx : p x = true
  · rw [if_pos hx, filter_cons_of_pos hx, filter_nil, getLast?_concat]
  · rw [if_neg hx, filter_cons_of_neg hx, filter_nil, append_nil]

/-! ### A floor and its log -/

/-- A floor that answers as its log does. -/
structure Follows (minus : Subtraction) (issuer : Issuer) : Prop where
  cluster : issuer.floor.clusterId = issuer.log.getLast?.map Report.clusterId
  epoch : issuer.floor.epoch = issuer.log.getLast?.map Report.epoch
  rising : ∀ r ∈ issuer.log, ∀ last ∈ issuer.log.getLast?, r.epoch ≤ last.epoch
  newest : issuer.floor.seen.getLast? = issuer.log.getLast?.map (fun r => (r.time, r.revision))
  started : ∀ first ∈ (current issuer.log).head?, issuer.floor.started = first.time
  held : ∀ last ∈ issuer.log.getLast?, ∀ cutoff,
    minus.sub last.time issuer.floor.lifetime ≤ cutoff →
      issuer.floor.held cutoff = heldBy issuer.log cutoff

theorem Follows.new (minus : Subtraction) (lifetime now : ℚ) :
    Follows minus (Issuer.new lifetime now) where
  cluster := rfl
  epoch := rfl
  rising := nofun
  newest := rfl
  started := nofun
  held := nofun

/-- A floor without reports has a log without any. -/
theorem Follows.log_eq_nil (h : Follows minus issuer) (hseen : issuer.floor.seen = []) :
    issuer.log = [] := by
  have hnewest := h.newest
  rw [hseen] at hnewest
  exact getLast?_eq_none_iff.mp (map_eq_none_iff.mp hnewest.symm)

/-- A report that begins a history. -/
theorem Follows.begin (h : Follows minus issuer)
    (hnew : issuer.floor.seen = [] ∨ ∃ e ∈ issuer.floor.epoch, e < report.epoch) :
    Follows minus ⟨issuer.floor.taken report report.time [(report.time, report.revision)],
      issuer.log ++ [report]⟩ := by
  have hbelow : ∀ r ∈ issuer.log, r.epoch < report.epoch := by
    intro r hr
    rcases hnew with hseen | ⟨e, he, hlt⟩
    · rw [h.log_eq_nil hseen] at hr
      cases hr
    · rw [h.epoch] at he
      rcases map_eq_some_iff.mp he with ⟨last, hlast, rfl⟩
      exact (h.rising r hr last hlast).trans_lt hlt
  have hcurrent := current_new (fun r hr => (hbelow r hr).ne)
  constructor
  · rw [getLast?_log]
    rfl
  · rw [getLast?_log]
    rfl
  · intro r hr last hlast
    rw [getLast?_log] at hlast
    cases hlast
    exact forall_mem_snoc (fun r hr => (hbelow r hr).le) le_rfl r hr
  · rw [getLast?_log]
    rfl
  · intro first hfirst
    rw [hcurrent] at hfirst
    cases hfirst
    rfl
  · intro last _ cutoff _
    unfold heldBy RevisionFloor.held
    rw [hcurrent]
    simp only [RevisionFloor.taken]
    by_cases hle : report.time ≤ cutoff <;> simp [hle]

/-- A report that is added, at a time not before the last one's. -/
theorem Follows.add (h : Follows minus issuer) (hseen : issuer.floor.seen ≠ [])
    (hepoch : ∀ e ∈ issuer.floor.epoch, e = report.epoch)
    (htime : ∀ last ∈ issuer.log.getLast?, last.time ≤ report.time) :
    Follows minus ⟨issuer.floor.taken report issuer.floor.started
        (fromLast (fun s => s.1 ≤ minus.sub report.time issuer.floor.lifetime)
          (issuer.floor.seen ++ [(report.time, report.revision)])), issuer.log ++ [report]⟩ := by
  obtain ⟨last, hlast⟩ : ∃ last, issuer.log.getLast? = some last := by
    cases hlog : issuer.log.getLast? with
    | some last => exact ⟨last, rfl⟩
    | none =>
      have hnewest := h.newest
      rw [hlog] at hnewest
      exact absurd (getLast?_eq_none_iff.mp hnewest) hseen
  have hsame : issuer.log.getLast?.map Report.epoch = some report.epoch := by
    have hlastEpoch := hepoch last.epoch (by rw [h.epoch, hlast]; rfl)
    rw [hlast, map_some, hlastEpoch]
  have hcurrent := current_same hsame
  constructor
  · rw [getLast?_log]
    rfl
  · rw [getLast?_log]
    rfl
  · intro r hr last' hlast'
    rw [getLast?_log] at hlast'
    cases hlast'
    rw [hlast] at hsame
    exact forall_mem_snoc (fun r hr => (h.rising r hr last hlast).trans (Option.some.inj hsame).le)
      le_rfl r hr
  · rw [getLast?_log]
    simp only [RevisionFloor.taken, getLast?_fromLast, getLast?_concat, map_some]
  · intro first hfirst
    obtain ⟨r, rest, hrest⟩ :=
      exists_cons_of_ne_nil (ne_nil_of_mem (current_ne_nil hlast))
    rw [hcurrent, hrest] at hfirst
    cases hfirst
    exact h.started first (by rw [hrest]; rfl)
  · intro last' hlast' cutoff hcutoff
    rw [getLast?_log] at hlast'
    cases hlast'
    -- a cutoff from here on is one from the last report on
    have hearlier : minus.sub last.time issuer.floor.lifetime ≤ cutoff :=
      (minus.mono _ (htime last hlast)).trans hcutoff
    have hheld := h.held last hlast cutoff hearlier
    unfold heldBy RevisionFloor.held at hheld ⊢
    rw [hcurrent, getLast?_filter_concat]
    simp only [RevisionFloor.taken]
    rw [getLast?_filter_fromLast
      (fun s hs => decide_eq_true ((of_decide_eq_true hs).trans hcutoff)), getLast?_filter_concat]
    by_cases hle : report.time ≤ cutoff
    · simp only [hle, decide_true, if_true, map_some]
    · simpa only [hle, decide_false, Bool.false_eq_true, if_false] using hheld

/-- One call, at a time not before the last report's. -/
theorem Follows.step {call : Call} (h : Follows minus issuer)
    (htime : ∀ last ∈ issuer.log.getLast?, last.time ≤ call.now) :
    Follows minus (issuer.step minus call) := by
  cases call with
  | require now clusterId stateEpoch revision => exact h
  | applied now clusterId stateEpoch revision =>
    rcases applied_cases minus issuer.floor ⟨now, clusterId, stateEpoch, revision⟩ with
      ⟨err, happlied⟩ | ⟨hnew, happlied⟩ | ⟨hseen, hepoch, happlied⟩
    · simp only [Issuer.step, happlied]
      exact h
    · simp only [Issuer.step, happlied]
      exact h.begin hnew
    · simp only [Issuer.step, happlied]
      exact h.add hseen hepoch htime

/-- A call adds a report with its own time, or none. -/
theorem log_step (issuer : Issuer) (call : Call) :
    ∀ last ∈ (issuer.step minus call).log.getLast?,
      last ∈ issuer.log.getLast? ∨ last.time = call.now := by
  intro last hlast
  cases call with
  | require now clusterId stateEpoch revision => exact .inl hlast
  | applied now clusterId stateEpoch revision =>
    simp only [Issuer.step] at hlast
    split at hlast
    · rw [getLast?_log] at hlast
      cases hlast
      exact .inr rfl
    · exact .inl hlast

/-- A run at times that do not fall keeps a floor in step with its log, and its
    last report is not after the last call. -/
theorem Follows.run {calls : List Call} {later : ℚ} :
    ∀ {issuer : Issuer}, Follows minus issuer →
      (∀ last ∈ issuer.log.getLast?, ∀ call ∈ calls, last.time ≤ call.now) →
      (∀ last ∈ issuer.log.getLast?, last.time ≤ later) →
      (calls.map Call.now ++ [later]).Pairwise (· ≤ ·) →
      Follows minus (calls.foldl (Issuer.step minus) issuer) ∧
        ∀ last ∈ (calls.foldl (Issuer.step minus) issuer).log.getLast?, last.time ≤ later := by
  induction calls with
  | nil =>
    intro issuer h _ hlater _
    exact ⟨h, hlater⟩
  | cons call rest ih =>
    intro issuer h hcalls hlater htimes
    rw [map_cons, cons_append, pairwise_cons] at htimes
    refine ih (h.step fun last hlast => hcalls last hlast call mem_cons_self) ?_ ?_ htimes.2
    · intro last hlast next hnext
      rcases log_step issuer call last hlast with hold | hnow
      · exact hcalls last hold next (mem_cons_of_mem call hnext)
      · rw [hnow]
        exact htimes.1 _ (mem_append_left _ (mem_map_of_mem hnext))
    · intro last hlast
      rcases log_step issuer call last hlast with hold | hnow
      · exact hlater last hold
      · rw [hnow]
        exact htimes.1 _ (mem_append_right _ (mem_singleton_self later))

/-- What a floor accepts, in terms of itself. -/
theorem floor_accepts_iff {now : ℚ} {clusterId : String} {stateEpoch revision : Int} :
    floor.require minus now clusterId stateEpoch revision = .ok () ↔
      floor.lifetime ≤ minus.sub now floor.started ∧ floor.clusterId = some clusterId ∧
      floor.epoch = some stateEpoch ∧
      ∃ held, floor.held (minus.sub now floor.lifetime) = some held ∧ held ≤ revision := by
  simp only [RevisionFloor.require, steps_eq_ok]

/-- For every run of reports and questions at times that do not fall, whatever
    they name: a question is answered yes exactly if one lease has passed since
    the first report of the current state epoch, the cluster and the epoch are
    those of the last report, and the revision is at least the last one reported
    a lease ago, over all the reports of the epoch that were accepted. A report
    that is refused changes nothing. -/
theorem require_accepts_iff (minus : Subtraction) (lifetime start : ℚ) (calls : List Call)
    (now : ℚ) (htimes : (calls.map Call.now ++ [now]).Pairwise (· ≤ ·)) :
    let issuer := calls.foldl (Issuer.step minus) (Issuer.new lifetime start)
    (∀ clusterId stateEpoch revision,
      issuer.floor.require minus now clusterId stateEpoch revision = .ok () ↔
        ∃ first last held, (current issuer.log).head? = some first ∧
          issuer.log.getLast? = some last ∧
          heldBy issuer.log (minus.sub now lifetime) = some held ∧
          lifetime ≤ minus.sub now first.time ∧
          clusterId = last.clusterId ∧ stateEpoch = last.epoch ∧ held ≤ revision) ∧
    ∀ clusterId stateEpoch revision err,
      (issuer.floor.applied minus now clusterId stateEpoch revision).2 = .error err →
      (issuer.floor.applied minus now clusterId stateEpoch revision).1 = issuer.floor := by
  intro issuer
  have hlifetime : issuer.floor.lifetime = lifetime := by
    refine run_invariant (P := fun i : Issuer => i.floor.lifetime = lifetime) ?_ calls rfl
    intro i call hi
    cases call with
    | require now clusterId stateEpoch revision => exact hi
    | applied now clusterId stateEpoch revision =>
      rcases applied_cases minus i.floor ⟨now, clusterId, stateEpoch, revision⟩ with
        ⟨err, happlied⟩ | ⟨-, happlied⟩ | ⟨-, -, happlied⟩ <;>
      simp only [Issuer.step, happlied] <;> exact hi
  obtain ⟨hfollows, hlast⟩ : Follows minus issuer ∧ ∀ last ∈ issuer.log.getLast?, last.time ≤ now :=
    (Follows.new minus lifetime start).run nofun nofun htimes
  refine ⟨?_, ?_⟩
  · intro clusterId stateEpoch revision
    rw [floor_accepts_iff, hfollows.cluster, hfollows.epoch, hlifetime]
    cases hlog : issuer.log.getLast? with
    | none => simp
    | some last =>
      obtain ⟨first, rest, hrest⟩ :=
        exists_cons_of_ne_nil (ne_nil_of_mem (current_ne_nil hlog))
      have hfirst : (current issuer.log).head? = some first := by rw [hrest]; rfl
      have hheld := hfollows.held last hlog (minus.sub now lifetime)
        (by rw [hlifetime]; exact minus.mono _ (hlast last hlog))
      rw [hfollows.started first hfirst, hheld]
      constructor
      · rintro ⟨hlease, hcluster, hepoch, held, hhas, hle⟩
        exact ⟨first, last, held, hfirst, rfl, hhas, hlease, (Option.some.inj hcluster).symm,
          (Option.some.inj hepoch).symm, hle⟩
      · rintro ⟨first', last', held, hfirst', hlog', hhas, hlease, rfl, rfl, hle⟩
        cases hfirst.symm.trans hfirst'
        cases hlog'
        exact ⟨hlease, rfl, rfl, held, hhas, hle⟩
  · intro clusterId stateEpoch revision err herr
    rcases applied_cases minus issuer.floor ⟨now, clusterId, stateEpoch, revision⟩ with
      ⟨_, happlied⟩ | ⟨-, happlied⟩ | ⟨-, -, happlied⟩
    · rw [happlied]
    · rw [happlied] at herr
      cases herr
    · rw [happlied] at herr
      cases herr

/-- Three reports and then a question, a lease of thirty seconds after the second
    report: the second one's revision is enough, and the first report is no
    longer kept. -/
def exampleCalls : List Call :=
  [.applied 0 "c" 1 5, .applied 10 "c" 1 7, .require 20 "c" 1 7, .applied 41 "c" 1 9]

def exampleLog : List Report := [⟨0, "c", 1, 5⟩, ⟨10, "c", 1, 7⟩, ⟨41, "c", 1, 9⟩]

theorem require_accepts_seven :
    (exampleCalls.map Call.now ++ [42]).Pairwise (· ≤ ·) ∧
    ((exampleCalls.foldl (Issuer.step .exact) (Issuer.new 30 0)).floor.require .exact 42 "c" 1 7 =
      .ok ()) := by
  have htimes : (exampleCalls.map Call.now ++ [42]).Pairwise (· ≤ ·) := by
    norm_num [exampleCalls, Call.now]
  have heval : (exampleCalls.foldl (Issuer.step .exact) (Issuer.new 30 0)).log = exampleLog ∧
      (current exampleLog).head? = some ⟨0, "c", 1, 5⟩ ∧
      exampleLog.getLast? = some ⟨41, "c", 1, 9⟩ ∧
      heldBy exampleLog (Subtraction.exact.sub 42 30) = some 7 := by
    decide +kernel
  rcases heval with ⟨hlog, hfirst, hlast, hheld⟩
  refine ⟨htimes, ((require_accepts_iff .exact 30 0 exampleCalls 42 htimes).1 "c" 1 7).mpr ?_⟩
  rw [hlog]
  refine ⟨_, _, 7, hfirst, hlast, hheld, ?_, rfl, rfl, le_rfl⟩
  norm_num [Subtraction.exact]

end Regalia.Lease
