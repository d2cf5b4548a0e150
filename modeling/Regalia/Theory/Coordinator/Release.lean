import Regalia.Core.Coordinator.Execute

/-!
# Releasing Output

When `Execute` hands output back. A trace tells everything that happened in a
call, so the promise is about its trace: output comes only with the one trace
of a release, in which every check passed, the request was recorded as
authorized and then as a success, both acknowledged, and the card was asked
once, in between, under gates that held throughout; and in no trace does the
card come before the acknowledgement.

The promise depends on one thing. When an operation outlives its run, the run
has failed, but a closure that seals assigns the very error that says so.

## Main definitions

* `Coordinator.releaseTrace`: The trace of a release.
* `Kept`: The promise, of one call.
* `Overtaken`: A seal that outlives its run and would have succeeded.

## Theorems

* `askGates_none`: Gates that all hold.
* `run_none`: A run that succeeds.
* `execute_cases`: What a call can come to.
* `execute_hardware`: The card is asked only after the acknowledgement.
* `released_iff`: When the promise is kept.
-/

namespace Regalia.Operations

open List
open GoString (ofText)

variable {c : Coordinator} {r : Request} {w : Weather} {route : Route} {asked : Policy.Request}
    {event : Gate → Bool → Event} {result : Result} {ready : Gate → Bool} {trace : List Event}
    {gates : List Gate} {s : Schedule}

/-! ### Gates -/

theorem askGates_none (h : askGates event ready gates = (trace, none)) :
    (∀ gate ∈ gates, ready gate = true) ∧ trace = gates.map (event · true) := by
  induction gates generalizing trace with
  | nil => exact ⟨fun _ h => absurd h not_mem_nil, (Prod.mk.inj h).1.symm⟩
  | cons gate rest ih =>
    by_cases hready : ready gate = true
    · simp only [askGates, if_pos hready, Prod.mk.injEq] at h
      obtain ⟨rfl, hnone⟩ := h
      obtain ⟨hall, htrace⟩ := ih (Prod.ext rfl hnone)
      exact ⟨forall_mem_cons.mpr ⟨hready, hall⟩, congrArg (event gate true :: ·) htrace⟩
    · simp only [askGates, if_neg hready] at h
      cases h

theorem askGates_ready (h : ∀ gate ∈ gates, ready gate = true) :
    askGates event ready gates = (gates.map (event · true), none) := by
  induction gates with
  | nil => rfl
  | cons gate rest ih =>
    have hrest := ih (fun g hg => h g (mem_cons_of_mem _ hg))
    simp only [askGates, if_pos (h gate mem_cons_self), hrest, map_cons]

/-- Asking gates does nothing else. -/
theorem mem_askGates {x : Event} (h : x ∈ (askGates event ready gates).1) :
    ∃ gate answer, x = event gate answer := by
  induction gates with
  | nil => cases h
  | cons gate rest ih =>
    by_cases hready : ready gate = true
    · simp only [askGates, if_pos hready] at h
      rcases mem_cons.mp h with rfl | h
      · exact ⟨gate, true, rfl⟩
      · exact ih h
    · simp only [askGates, if_neg hready] at h
      exact ⟨gate, false, mem_singleton.mp h⟩

/-! ### The operation -/

/-- An operation that assigns has started under its gates, and assigns right
    after the card was asked, if it was. -/
theorem operation_assigned (h : .assigned ∈ (c.operation r route w).1) :
    (∀ gate ∈ c.gates, w.begun gate = true) ∧
    ∃ ends, (c.operation r route w).1 = c.gates.reverse.map (.begun · true) ++
          ((work r route w).1.toList.map .hardware ++ [.assigned]) ++ ends ∧
      .assigned ∉ ends := by
  unfold Coordinator.operation at h ⊢
  rcases hbegin : askGates .begun w.begun c.gates.reverse with ⟨trace, _ | err⟩
  · obtain ⟨hall, rfl⟩ := askGates_none hbegin
    refine ⟨fun gate hgate => hall gate (mem_reverse.mpr hgate), ?_⟩
    simp only
    rcases hwork : (work r route w).2.2.2 with _ | err
    · refine ⟨(askGates .ended w.ended c.gates).1, rfl, ?_⟩
      intro hmem
      obtain ⟨gate, answer, hx⟩ := mem_askGates hmem
      cases hx
    · exact ⟨[], by rw [append_nil], not_mem_nil⟩
  · rw [hbegin] at h
    simp only at h
    have hmem : .assigned ∈ (askGates .begun w.begun c.gates.reverse).1 := by rwa [hbegin]
    obtain ⟨gate, answer, hx⟩ := mem_askGates hmem
    cases hx

/-- An operation that returns no error. -/
theorem operation_none (h : (c.operation r route w).2 = none) :
    (work r route w).2.2.2 = none ∧
    (c.operation r route w).1 = c.gates.reverse.map (.begun · true) ++
        ((work r route w).1.toList.map .hardware ++ [.assigned]) ++
        c.gates.map (.ended · true) := by
  unfold Coordinator.operation at h ⊢
  rcases hbegin : askGates .begun w.begun c.gates.reverse with ⟨trace, _ | err⟩
  · obtain ⟨-, rfl⟩ := askGates_none hbegin
    rw [hbegin] at h
    simp only at h ⊢
    rcases hwork : (work r route w).2.2.2 with _ | err
    · rw [hwork] at h
      exact ⟨rfl, congrArg (_ ++ ·) (askGates_none (Prod.ext rfl h)).2⟩
    · rw [hwork] at h
      cases h
  · rw [hbegin] at h
    cases h

/-- A card that works is asked. -/
theorem work_call (h : (work r route w).2.2.2 = none) : ∃ call, (work r route w).1 = some call := by
  unfold work at h ⊢
  by_cases hseal : r.operation = sealEnvelope
  · rw [if_pos hseal] at h ⊢
    rcases hrefused : w.sealRefused with _ | err
    · exact ⟨_, rfl⟩
    · rw [hrefused] at h
      cases h
  · rw [if_neg hseal]
    exact ⟨_, rfl⟩

/-! ### Runs -/

/-- A run that succeeds has nothing left to do, and its gates held before it,
    as it started and as it ended. -/
theorem run_none (h : (c.run r route w).2.2 = none) :
    (c.run r route w).2.1 = [] ∧ (work r route w).2.2.2 = none ∧
    ∃ call, (work r route w).1 = some call ∧
      (c.run r route w).1 =
        c.gates.map (.queued · true) ++ c.gates.reverse.map (.begun · true) ++
          [.hardware call, .assigned] ++ c.gates.map (.ended · true) := by
  unfold Coordinator.run at h ⊢
  rcases hqueue : askGates .queued w.queued c.gates with ⟨trace, _ | err⟩
  · obtain ⟨-, rfl⟩ := askGates_none hqueue
    rw [hqueue] at h
    simp only at h ⊢
    rcases hexecution : w.execution with _ | _ | (_ | expiry) | _ | _
    case ends.none =>
      rw [hexecution] at h
      simp only at h ⊢
      obtain ⟨hwork, hoperation⟩ := operation_none h
      obtain ⟨call, hcall⟩ := work_call hwork
      refine ⟨trivial, hwork, call, hcall, ?_⟩
      rw [hoperation, hcall]
      simp
    all_goals
      rw [hexecution] at h
      cases h
  · rw [hqueue] at h
    cases h

/-- What is left of a run: the end of an operation that outlives it. -/
theorem run_pending {x : Event} (h : x ∈ (c.run r route w).2.1) :
    (∀ gate ∈ c.gates, w.queued gate = true) ∧
    ∃ after expiry, w.execution = .outlives after expiry ∧
      (c.run r route w).2.1 = (c.operation r route w).1.drop after := by
  unfold Coordinator.run at h ⊢
  rcases hqueue : askGates .queued w.queued c.gates with ⟨trace, _ | err⟩
  · rw [hqueue] at h
    simp only at h ⊢
    rcases hexecution : w.execution with _ | _ | (_ | expiry) | _ | ⟨after, expiry⟩
    case outlives => exact ⟨(askGates_none hqueue).1, after, expiry, rfl, rfl⟩
    all_goals
      rw [hexecution] at h
      cases h
  · rw [hqueue] at h
    cases h

/-! ### The checks -/

/-- The trace of a request that passes every check before the policy. -/
def Coordinator.passed (c : Coordinator) : List Event :=
  .authorized ::
    ((match c.admission with
      | none => []
      | some gate => .admitted :: if gate.refusesObject.isSome then [.objectServed] else []) ++ [.routed])

/-- The grant and every check of the admission gate. -/
structure Coordinator.Admits (c : Coordinator) (r : Request) : Prop where
  agent : agentRefuses r.principal r.operation = false
  allowed : c.allowed r.principal r.objectID r.operation r.context.environment = true
  ready : ∀ gate, c.admission = some gate → gate.ready = true
  served : ∀ gate, c.admission = some gate → ∀ refuses, gate.refusesObject = some refuses →
    refuses r.objectID = ""

theorem authorize_none (h : c.authorize r = (trace, none)) :
    c.Admits r ∧ trace ++ [.routed] = c.passed := by
  unfold Coordinator.authorize at h
  unfold Coordinator.passed
  by_cases hagent : agentRefuses r.principal r.operation = true
  · rw [if_pos hagent] at h
    cases h
  rw [if_neg hagent] at h
  by_cases hallowed : c.allowed r.principal r.objectID r.operation r.context.environment = true
  case neg =>
    rw [if_pos hallowed] at h
    cases h
  rw [if_neg (not_not.mpr hallowed)] at h
  have hagent' := Bool.not_eq_true _ ▸ hagent
  rcases hadmission : c.admission with _ | gate
  · rw [hadmission] at h
    cases h
    exact ⟨⟨hagent', hallowed, by simp [hadmission], by simp [hadmission]⟩, rfl⟩
  · rw [hadmission] at h
    simp only at h
    by_cases hready : gate.ready = true
    case neg =>
      rw [if_pos hready] at h
      cases h
    rw [if_neg (not_not.mpr hready)] at h
    rcases hobject : gate.refusesObject with _ | refuses
    · rw [hobject] at h
      cases h
      exact ⟨⟨hagent', hallowed, by simp [hadmission, hready], by simp [hadmission, hobject]⟩,
        by simp [hobject]⟩
    · rw [hobject] at h
      simp only at h
      by_cases hserved : refuses r.objectID = ""
      · rw [if_pos hserved] at h
        cases h
        exact ⟨⟨hagent', hallowed, by simp [hadmission, hready],
          by simp [hadmission, hobject, hserved]⟩, by simp [hobject]⟩
      · rw [if_neg hserved] at h
        split_ifs at h
        all_goals cases h

theorem check_ok (h : c.check r = (trace, .ok (route, asked))) :
    c.Admits r ∧ trace = c.passed ∧ c.selectRoute r = .ok route ∧ c.prepare r route = .ok asked := by
  unfold Coordinator.check at h
  rcases hauthorize : c.authorize r with ⟨admitted, _ | refusal⟩
  · rw [hauthorize] at h
    simp only at h
    rcases hroute : c.selectRoute r with refusal | route'
    · rw [hroute] at h
      cases h
    · rw [hroute] at h
      simp only at h
      rcases hprepare : c.prepare r route' with refusal | asked'
      · rw [hprepare] at h
        cases h
      · rw [hprepare] at h
        cases h
        obtain ⟨hadmits, htrace⟩ := authorize_none hauthorize
        exact ⟨hadmits, htrace, rfl, hprepare⟩
  · rw [hauthorize] at h
    cases h

/-- The checks never ask the card. -/
theorem check_hardware (c : Coordinator) (r : Request) (call : HardwareCall) :
    .hardware call ∉ (c.check r).1 := by
  have hauthorize : .hardware call ∉ (c.authorize r).1 := by
    unfold Coordinator.authorize
    rcases c.admission with _ | ⟨ready, _ | refuses⟩ <;> simp only <;> split_ifs <;> simp
  unfold Coordinator.check
  rcases h : c.authorize r with ⟨admitted, _ | refusal⟩
  · rw [h] at hauthorize
    simp only at hauthorize ⊢
    rcases c.selectRoute r with refusal | route
    · exact hauthorize
    · simp only
      rcases c.prepare r route with refusal | asked <;> simp [hauthorize]
  · rw [h] at hauthorize
    exact hauthorize

theorem recordOrCount_hardware {call : HardwareCall} (c : Coordinator) (draft : Draft)
    (requireRemote : Bool) (h : .hardware call ∉ trace) :
    .hardware call ∉ trace ++ c.recordOrCount draft requireRemote := by
  unfold Coordinator.recordOrCount
  simp only [mem_append, h, false_or]
  split_ifs <;> simp

/-! ### The promise -/

/-- The trace of a release. -/
def Coordinator.releaseTrace (c : Coordinator) (route : Route) (asked : Policy.Request)
    (call : HardwareCall) : List Event :=
  c.passed ++ .policyAllowed :: .recorded (allowDraft route asked "authorized") true .acknowledged ::
    (c.gates.map (.queued · true) ++ c.gates.reverse.map (.begun · true) ++
      [.hardware call, .assigned] ++ c.gates.map (.ended · true) ++
      [.ran none, .recorded (allowDraft route asked "success") true .acknowledged])

/-- The promise of one call: output comes with the trace of a release and is
    what came of the one call to the card, and the card is asked only after the
    record that the request was authorized is acknowledged. -/
def Kept (c : Coordinator) (r : Request) (w : Weather) (o : Outcome) : Prop :=
  (∀ result, o.result = .ok result → ∃ route asked call,
    c.Admits r ∧ c.check r = (c.passed, .ok (route, asked)) ∧ (c.evaluate asked).allowed = true ∧
    o.trace = c.releaseTrace route asked call ∧ (work r route w).1 = some call ∧
    (work r route w).2 = (result.data, result.contentType, none)) ∧
  ∀ before call after, o.trace = before ++ .hardware call :: after →
    ∃ route asked, .recorded (allowDraft route asked "authorized") true .acknowledged ∈ before

/-- A seal that outlives its run with its assignment still to come, and that
    would have succeeded. -/
structure Overtaken (c : Coordinator) (r : Request) (w : Weather) : Prop where
  seals : r.operation = sealEnvelope
  allowed : ∃ trace route asked, c.check r = (trace, .ok (route, asked)) ∧
    (c.evaluate asked).allowed = true ∧
    c.record (allowDraft route asked "authorized") true = .acknowledged ∧
    c.record (allowDraft route asked "success") true = .acknowledged
  queued : ∀ gate ∈ c.gates, w.queued gate = true
  begun : ∀ gate ∈ c.gates, w.begun gate = true
  sealable : w.sealRefused = none
  sealed : w.sealed.2.2 = none ∧ w.sealed.1 ≠ []
  outlives : ∃ after expiry, w.execution = .outlives after expiry ∧ after ≤ c.gates.length + 1
  named : c.randomID.isSome = true

/-! ### The card -/

theorem recorded_true {progress : Progress} (h : progress.recorded true = true) :
    progress = .acknowledged := by
  cases progress
  case acknowledged => rfl
  all_goals cases h

/-- What stands before a card's call, if nothing of a first part is one. -/
theorem prefix_of_hardware {first rest before after : List Event} {call : HardwareCall}
    (hfirst : .hardware call ∉ first)
    (h : first ++ rest = before ++ .hardware call :: after) : first <+: before := by
  rcases append_eq_append_iff.mp h with ⟨middle, hbefore, -⟩ | ⟨middle, hfirst', hrest⟩
  · exact ⟨middle, hbefore.symm⟩
  · cases middle with
    | nil => exact ⟨[], by rw [hfirst', append_nil, append_nil]⟩
    | cons x middle =>
      rw [cons_append] at hrest
      rw [hfirst', (List.cons.inj hrest).1] at hfirst
      exact absurd (mem_append_right _ mem_cons_self) hfirst

/-- A call fails and never asks the card, or is authorized and settled. -/
theorem execute_cases (c : Coordinator) (r : Request) (w : Weather) (s : Schedule) :
    ((∃ e, (c.execute r w s).result = .error e) ∧
      ∀ call, .hardware call ∉ (c.execute r w s).trace) ∨
    ∃ route asked, c.check r = (c.passed, .ok (route, asked)) ∧
      (c.evaluate asked).allowed = true ∧
      c.record (allowDraft route asked "authorized") true = .acknowledged ∧
      c.execute r w s = ⟨c.passed ++ .policyAllowed ::
        .recorded (allowDraft route asked "authorized") true .acknowledged ::
        (c.settle r route asked w s).trace, (c.settle r route asked w s).result⟩ := by
  have hchecks := check_hardware c r
  unfold Coordinator.execute
  rcases hcheck : c.check r with ⟨trace, refusal | ⟨route, asked⟩⟩
  · -- a refused request ends with its record
    rw [hcheck] at hchecks
    exact .inl ⟨⟨_, rfl⟩, fun call => recordOrCount_hardware c _ _ (hchecks call)⟩
  · rw [hcheck] at hchecks
    obtain ⟨-, rfl, -, -⟩ := check_ok hcheck
    simp only
    by_cases hallowed : (c.evaluate asked).allowed = true
    case neg =>
      rw [if_pos hallowed]
      exact .inl ⟨⟨_, rfl⟩, fun call => recordOrCount_hardware c _ _ (hchecks call)⟩
    rw [if_neg (not_not.mpr hallowed)]
    unfold Coordinator.perform
    simp only
    by_cases hrecorded : (c.record (allowDraft route asked "authorized") true).recorded true = true
    case neg =>
      rw [if_pos hrecorded]
      exact .inl ⟨⟨_, rfl⟩, fun call => by simpa using hchecks call⟩
    rw [if_neg (not_not.mpr hrecorded), recorded_true hrecorded]
    exact .inr ⟨route, asked, rfl, hallowed, recorded_true hrecorded, rfl⟩

/-- The card is asked only after the acknowledgement. -/
theorem execute_hardware (c : Coordinator) (r : Request) (w : Weather) (s : Schedule)
    {before after : List Event} {call : HardwareCall}
    (h : (c.execute r w s).trace = before ++ .hardware call :: after) :
    ∃ route asked,
      .recorded (allowDraft route asked "authorized") true .acknowledged ∈ before := by
  rcases execute_cases c r w s with ⟨-, hnone⟩ | ⟨route, asked, hcheck, -, -, hexecute⟩
  · refine absurd ?_ (hnone call)
    rw [h]
    exact mem_append_right _ mem_cons_self
  · -- the record stands in front of everything that may ask the card
    have hfront : .hardware call ∉ c.passed ++
        [.policyAllowed, .recorded (allowDraft route asked "authorized") true .acknowledged] := by
      simpa [hcheck] using check_hardware c r call
    rw [hexecute] at h
    have hbefore := prefix_of_hardware hfront
      ((append_assoc _ _ (c.settle r route asked w s).trace).trans h)
    exact ⟨route, asked, hbefore.subset (mem_append_right _ (by simp))⟩

/-! ### What is shared -/

theorem after_of_notMem (s : Shared) {effects : List Event} (h : .assigned ∉ effects) :
    s.after r route w effects = s := by
  rw [Shared.after, if_neg h]

theorem after_of_mem (s : Shared) {effects : List Event} (h : .assigned ∈ effects) :
    s.after r route w effects =
      { output := (work r route w).2.1
        outputType := (work r route w).2.2.1
        err := if r.operation = sealEnvelope then (work r route w).2.2.2 else s.err } := by
  rw [Shared.after, if_pos h]

/-- Output is handed back when there is some, its record is acknowledged and
    it has a name. -/
theorem release_ok {shared : Shared} {pending : List Event} (hsettled : .assigned ∉ pending)
    (h : (c.release r route asked w s shared pending).result = .ok result) :
    shared.output ≠ [] ∧ c.record (allowDraft route asked "success") true = .acknowledged ∧
    c.randomID = some result.operationID ∧ result.data = shared.output ∧
    result.contentType = shared.outputType ∧
    (c.release r route asked w s shared pending).trace = pending.take s.output ++
      [.recorded (allowDraft route asked "success") true .acknowledged] ++ pending.drop s.output := by
  have hbefore : .assigned ∉ pending.take s.output :=
    fun hmem => hsettled (mem_of_mem_take hmem)
  have hlast : .assigned ∉ (pending.drop s.output).take s.success :=
    fun hmem => hsettled (mem_of_mem_drop (mem_of_mem_take hmem))
  unfold Coordinator.release at h ⊢
  simp only [after_of_notMem _ hbefore, after_of_notMem _ hlast] at h ⊢
  by_cases hempty : shared.output = [] ∨ shared.outputType = []
  · rw [if_pos hempty] at h
    cases h
  rw [if_neg hempty] at h ⊢
  by_cases hrecorded : (c.record (allowDraft route asked "success") true).recorded true = true
  case neg =>
    rw [if_pos hrecorded] at h
    cases h
  rw [if_neg (not_not.mpr hrecorded)] at h ⊢
  rcases hid : c.randomID with _ | id
  · rw [hid] at h
    cases h
  · rw [hid] at h
    have hresult := Except.ok.inj h
    refine ⟨fun hnil => hempty (.inl hnil), recorded_true hrecorded, ?_, ?_, ?_, ?_⟩
    · rw [← hresult]
    · rw [← hresult]
    · rw [← hresult]
    · simp only [recorded_true hrecorded, append_assoc, take_append_drop]

theorem fail_error (c : Coordinator) (r : Request) (route : Route) (asked : Policy.Request)
    (w : Weather) (s : Schedule) (shared : Shared) (pending : List Event) (result : Result) :
    (c.fail r route asked w s shared pending).result ≠ .ok result := by
  unfold Coordinator.fail
  simp only
  split_ifs <;> simp

/-! ### Runs that fail -/

/-- What is left after the assignment of an operation has none. -/
theorem assigned_notMem_drop {before ends : List Event} {n : Nat} (hends : Event.assigned ∉ ends)
    (hn : before.length < n) : Event.assigned ∉ (before ++ [Event.assigned] ++ ends).drop n := by
  intro hmem
  have hlength : (before ++ [Event.assigned]).length ≤ n := by
    rw [length_append, length_singleton]
    omega
  rw [drop_append, drop_eq_nil_of_le hlength, nil_append] at hmem
  exact hends (mem_of_mem_drop hmem)

theorem assigned_mem_drop {before ends : List Event} {n : Nat} (hn : n ≤ before.length) :
    Event.assigned ∈ (before ++ [Event.assigned] ++ ends).drop n := by
  rw [append_assoc, drop_append_of_le_length hn]
  exact mem_append_right _ (mem_append_left _ mem_cons_self)

/-- The effects of an operation up to its assignment. -/
theorem operation_split (h : .assigned ∈ (c.operation r route w).1) :
    ∃ before ends, (c.operation r route w).1 = before ++ [.assigned] ++ ends ∧
      before.length = c.gates.length + (work r route w).1.toList.length ∧
      .assigned ∉ before ∧ .assigned ∉ ends := by
  obtain ⟨-, ends, htrace, hends⟩ := operation_assigned h
  refine ⟨c.gates.reverse.map (.begun · true) ++ (work r route w).1.toList.map .hardware,
    ends, ?_, ?_, ?_, hends⟩
  · rw [htrace]
    simp only [append_assoc]
  · simp only [length_append, length_map, length_reverse]
  · simp

/-- A call whose run failed and that hands output back is one that a seal has
    overtaken. -/
theorem settle_overtaken {err : RunError} (hrun : (c.run r route w).2.2 = some err)
    (hcheck : c.check r = (trace, .ok (route, asked)))
    (hallowed : (c.evaluate asked).allowed = true)
    (hauthorized : c.record (allowDraft route asked "authorized") true = .acknowledged)
    (h : (c.settle r route asked w s).result = .ok result) : Overtaken c r w := by
  unfold Coordinator.settle at h
  simp only [hrun] at h
  -- the error can be gone only by an assignment that came after it
  by_cases hlate : .assigned ∈ ((c.run r route w).2.1.drop s.assign).take s.test
  case neg =>
    rw [after_of_notMem _ hlate] at h
    rw [if_neg (by simp)] at h
    exact absurd h (fail_error c r route asked w s _ _ result)
  have hpending : .assigned ∈ (c.run r route w).2.1 :=
    mem_of_mem_drop (mem_of_mem_take hlate)
  obtain ⟨hqueued, after, expiry, hexecution, hrest⟩ := run_pending hpending
  rw [hrest] at hpending
  have hassigned := mem_of_mem_drop hpending
  obtain ⟨before, ends, hsplit, hlength, hbefore, hends⟩ := operation_split hassigned
  rw [after_of_mem _ hlate] at h
  by_cases hseal : r.operation = sealEnvelope
  case neg =>
    simp only [if_neg hseal, reduceCtorEq, if_false] at h
    exact absurd h (fail_error c r route asked w s _ _ result)
  simp only [if_pos hseal] at h
  by_cases hsealed : (work r route w).2.2.2 = none
  case neg =>
    rw [if_neg hsealed] at h
    exact absurd h (fail_error c r route asked w s _ _ result)
  rw [if_pos hsealed] at h
  -- it was the only one
  have hsettled : .assigned ∉ ((c.run r route w).2.1.drop s.assign).drop s.test := by
    intro hmem
    have htwice : 2 ≤ ((c.run r route w).2.1.drop s.assign).count .assigned := by
      rw [← take_append_drop s.test ((c.run r route w).2.1.drop s.assign), count_append]
      have h₁ := count_pos_iff.mpr hlate
      have h₂ := count_pos_iff.mpr hmem
      omega
    have hsub : ((c.run r route w).2.1.drop s.assign).Sublist (c.operation r route w).1 := by
      rw [hrest]
      exact (drop_sublist _ _).trans (drop_sublist _ _)
    have honce : (c.operation r route w).1.count .assigned = 1 := by
      rw [hsplit]
      simp [count_eq_zero_of_not_mem hbefore, count_eq_zero_of_not_mem hends]
    have hle := hsub.count_le .assigned
    omega
  obtain ⟨houtput, hsuccess, hid, -⟩ := release_ok hsettled h
  have hwork : w.sealRefused = none ∧ (work r route w).1.toList.length = 1 ∧
      (work r route w).2 = w.sealed := by
    unfold work at hsealed ⊢
    rw [if_pos hseal] at hsealed ⊢
    rcases hrefused : w.sealRefused with _ | err
    · exact ⟨rfl, rfl, rfl⟩
    · rw [hrefused] at hsealed
      cases hsealed
  refine
    { seals := hseal
      allowed := ⟨trace, route, asked, hcheck, hallowed, hauthorized, hsuccess⟩
      queued := hqueued
      begun := (operation_assigned hassigned).1
      sealable := hwork.1
      sealed := ?_
      outlives := ⟨after, expiry, hexecution, ?_⟩
      named := ?_ }
  · rw [← hwork.2.2]
    exact ⟨hsealed, houtput⟩
  · by_contra hlt
    have hafter : before.length < after := by omega
    rw [hsplit] at hpending
    exact assigned_notMem_drop hends hafter hpending
  · rw [hid]
    rfl

/-! ### Runs that succeed -/

/-- A call whose run succeeded and that hands output back. -/
theorem settle_released (hrun : (c.run r route w).2.2 = none)
    (h : (c.settle r route asked w s).result = .ok result) :
    ∃ call, (work r route w).1 = some call ∧
      (work r route w).2 = (result.data, result.contentType, none) ∧
      (c.settle r route asked w s).trace =
        c.gates.map (.queued · true) ++ c.gates.reverse.map (.begun · true) ++
          [.hardware call, .assigned] ++ c.gates.map (.ended · true) ++
          [.ran none, .recorded (allowDraft route asked "success") true .acknowledged] := by
  obtain ⟨hpending, herr, call, hcall, htrace⟩ := run_none hrun
  have hassigned : .assigned ∈ (c.run r route w).1 := by
    rw [htrace]
    simp
  unfold Coordinator.settle at h ⊢
  simp only [hrun, hpending, take_nil, drop_nil, append_nil, nil_append,
    after_of_mem _ hassigned, after_of_notMem _ not_mem_nil, if_true] at h ⊢
  obtain ⟨-, -, -, hdata, htype, hrelease⟩ := release_ok not_mem_nil h
  refine ⟨call, hcall, ?_, ?_⟩
  · rw [hdata, htype, ← herr]
  · rw [hrelease, htrace]
    simp

/-! ### The promise kept -/

/-- A call that no seal overtakes keeps the promise, whatever the schedule. -/
theorem kept_of_not_overtaken (h : ¬ Overtaken c r w) (s : Schedule) :
    Kept c r w (c.execute r w s) := by
  refine ⟨?_, fun before call after htrace => execute_hardware c r w s htrace⟩
  intro result hresult
  rcases execute_cases c r w s with
    ⟨⟨e, herror⟩, -⟩ | ⟨route, asked, hcheck, hallowed, hauthorized, hexecute⟩
  · rw [herror] at hresult
    cases hresult
  rw [hexecute] at hresult ⊢
  rcases hrun : (c.run r route w).2.2 with _ | err
  · obtain ⟨call, hcall, hwork, hsettled⟩ := settle_released hrun hresult
    refine ⟨route, asked, call, (check_ok hcheck).1, hcheck, hallowed, ?_, hcall, hwork⟩
    rw [hsettled]
    rfl
  · exact absurd (settle_overtaken hrun hcheck hallowed hauthorized hresult) h

/-- The schedule on which a seal overtakes: all that is left of it happens
    between the assignment of the error and its test. -/
def overtaking (c : Coordinator) (r : Request) (route : Route) (w : Weather) : Schedule :=
  { test := (c.run r route w).2.1.length }

theorem run_outlives (r : Request) (route : Route)
    (hqueued : ∀ gate ∈ c.gates, w.queued gate = true) {after : Nat} {expiry : Expiry}
    (hexecution : w.execution = .outlives after expiry) :
    (c.run r route w).2 = ((c.operation r route w).1.drop after, some expiry.error) := by
  unfold Coordinator.run
  rw [askGates_ready hqueued]
  simp only [hexecution]

/-- An overtaken call hands output back although its run failed. -/
theorem overtaken_released (h : Overtaken c r w) :
    ∃ s result err, (c.execute r w s).result = .ok result ∧
      Event.ran (some err) ∈ (c.execute r w s).trace := by
  obtain ⟨hseal, ⟨trace, route, asked, hcheck, hallowed, hauthorized, hsuccess⟩, hqueued, hbegun,
    hsealable, ⟨hsealed, houtput⟩, ⟨after, expiry, hexecution, hafter⟩, hnamed⟩ := h
  obtain ⟨id, hid⟩ := Option.isSome_iff_exists.mp hnamed
  have hwork : work r route w =
      (some ⟨route.deviceID, ofText "wrap", ofText "regalia-envelope-v2",
        dataKeyContentType, r.sealDataKey, w.wrapAAD⟩, w.sealed) := by
    rw [work, if_pos hseal, hsealable]
  have htype : w.sealed.2.1 ≠ [] := by
    unfold Weather.sealed at hsealed ⊢
    by_cases hcard : w.card.2.2 ≠ none ∨ w.card.1 = []
    · rw [if_pos hcard] at hsealed
      cases hsealed
    rw [if_neg hcard] at hsealed ⊢
    rcases hassemble : w.assemble w.card.1 with err | encoded
    · rw [hassemble] at hsealed
      cases hsealed
    · simp only
      decide
  -- the assignment is still to come when the run returns
  have hassigned : .assigned ∈ (c.operation r route w).1 := by
    unfold Coordinator.operation
    rw [askGates_ready (fun gate hgate => hbegun gate (mem_reverse.mp hgate))]
    simp only [hwork, hsealed]
    simp
  obtain ⟨before, ends, hsplit, hlength, -, -⟩ := operation_split hassigned
  have hrun := run_outlives r route hqueued hexecution
  have hpending : Event.assigned ∈ (c.run r route w).2.1 := by
    rw [hrun, hsplit]
    refine assigned_mem_drop ?_
    rw [hlength, hwork]
    simpa using hafter
  have hsettle : (c.settle r route asked w (overtaking c r route w)).result =
      .ok ⟨id, w.sealed.2.1, w.sealed.1⟩ := by
    unfold Coordinator.settle overtaking
    simp only [drop_zero, take_length, drop_length, after_of_mem _ hpending,
      if_pos hseal, hwork, hsealed, if_true]
    unfold Coordinator.release
    simp only [take_nil, drop_nil, after_of_notMem _ not_mem_nil, houtput, htype,
      or_self, if_false, hsuccess, Progress.recorded, not_true_eq_false, hid]
  refine ⟨overtaking c r route w, ⟨id, w.sealed.2.1, w.sealed.1⟩, expiry.error, ?_, ?_⟩
  all_goals
    unfold Coordinator.execute
    rw [hcheck]
    simp only [hallowed, not_true_eq_false, if_false]
    unfold Coordinator.perform
    simp only [hauthorized, Progress.recorded, not_true_eq_false, if_false]
  · exact hsettle
  · unfold Coordinator.settle
    simp only [hrun, mem_append, mem_cons]
    simp

/-- Output is released only with every check passed, both records acknowledged
    and one call to the card under gates that held, and the card is asked only
    after the first acknowledgement, exactly when no seal that would have
    succeeded outlives its run with its assignment still to come. -/
theorem released_iff (c : Coordinator) (r : Request) (w : Weather) :
    (∀ s, Kept c r w (c.execute r w s)) ↔ ¬ Overtaken c r w := by
  refine ⟨fun hkept hovertaken => ?_, kept_of_not_overtaken⟩
  obtain ⟨s, result, err, hresult, hran⟩ := overtaken_released hovertaken
  obtain ⟨route, asked, call, -, -, -, htrace, -⟩ := (hkept s).1 result hresult
  rw [htrace] at hran
  unfold Coordinator.releaseTrace Coordinator.passed at hran
  rcases hadmission : c.admission with _ | gate
  · rw [hadmission] at hran
    simp at hran
  · rw [hadmission] at hran
    by_cases hobject : gate.refusesObject.isSome = true <;> simp [hobject] at hran

/-- A coordinator whose dependencies all say yes. -/
def willing : Coordinator where
  allowed := fun _ _ _ _ => true
  route := fun _ _ _ => .error .other
  routeForSeal := fun _ _ => .ok ⟨ofText "aes-256", ofText "card-1", 0⟩
  routeForUnwrap := fun _ _ _ => .error .other
  peek := fun _ => none
  now := GoTime.zero
  library := ⟨fun _ => none, fun _ => none, fun _ => none, fun _ _ _ => false⟩
  parseCosmos := fun _ => none
  evaluate := fun _ => ⟨true, .allowed, [], "allow"⟩
  record := fun _ _ => .acknowledged
  gates := [.fenced]
  randomID := some (ofText "id")

def sealRequest : Request where
  requestID := ofText "r"
  principal := ofText "p"
  objectID := ofText "o"
  operation := sealEnvelope
  context := ⟨ofText "backup", ofText "prod", ofText "n", GoTime.zero, []⟩

/-- The site's lease holds as the operation starts and is lost before it ends,
    and its context expires while the card works. -/
def slowCard : Weather where
  queued := fun _ => true
  begun := fun _ => true
  ended := fun _ => false
  sealRefused := none
  wrapAAD := []
  card := ([7], [], none)
  assemble := fun wrapped => .ok wrapped
  execution := .outlives 2 .timeout

/-- The envelope is handed back, although the run timed out and the lease was
    gone when the operation ended. -/
theorem seal_overtakes :
    (willing.execute sealRequest slowCard { test := 1 }).result =
      .ok ⟨ofText "id", envelopeContentType, [7]⟩ ∧
    .ran (some .timeout) ∈ (willing.execute sealRequest slowCard { test := 1 }).trace ∧
    .ended .fenced false ∈ (willing.execute sealRequest slowCard { test := 1 }).trace := by
  decide

end Regalia.Operations
