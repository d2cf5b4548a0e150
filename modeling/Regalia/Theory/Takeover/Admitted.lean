import Regalia.Core.Takeover.Run
import Regalia.Data.Runs

/-!
# Members That Were Admitted

After an admit has added a member, a start of etcd with `force-new-cluster`
would drop it again. `admit` asks systemd for the drop-in, and systemd answers
with what it loaded: a take-over killed between writing the drop-in and the
`daemon-reload` leaves one on disk that is not listed. An admit goes through,
and the next reload and restart force a new cluster.

While that does not happen, the drop-in is gone from the disk and from systemd
when an admit adds its member, and nothing but a take-over that writes it anew
brings it back.

## Main definitions

* `NeverDropped`: What is promised, of a history.
* `careful`: What a move is asked for.
* `World.Inv`: What every careful move preserves.

## Theorems

* `effect_quiet`: No command but one brings the drop-in back.
* `step_inv`: Every careful move keeps the invariant.
* `never_dropped`: In every careful run no admitted member is dropped.
* `dropped_after_admit`: Without care it may be.
-/

namespace Regalia.Takeover

open List

/-! ### Histories -/

/-- After an admit that added a member, etcd is started with
    `force-new-cluster` only if a take-over wrote the drop-in in between. -/
def NeverDropped (history : List Happening) : Prop :=
  ∀ before node middle after,
    history = before ++ .added node :: (middle ++ .started true :: after) → .wrote ∈ middle

/-- A member was added, and the drop-in was not written since. -/
def Exposed (history : List Happening) : Prop :=
  ∃ before node after, history = before ++ .added node :: after ∧ .wrote ∉ after

theorem exposed_snoc (history : List Happening) (e : Happening) (h : Exposed (history ++ [e])) :
    (∃ node, e = .added node) ∨ Exposed history ∧ e ≠ .wrote := by
  rcases h with ⟨before, node, after, heq, hnot⟩
  rcases eq_nil_or_concat after with rfl | ⟨init, last, rfl⟩
  · have := (append_inj' heq rfl).2
    exact .inl ⟨node, singleton_inj.mp this⟩
  · rw [concat_eq_append] at heq hnot
    rw [← cons_append, ← append_assoc] at heq
    rcases append_inj' heq rfl with ⟨hinit, hlast⟩
    refine .inr ⟨⟨before, node, init, hinit, fun hc => hnot (mem_append_left _ hc)⟩, ?_⟩
    rintro rfl
    refine hnot (mem_append_right _ ?_)
    rw [← hlast]
    exact mem_singleton_self _

theorem neverDropped_snoc (history : List Happening) (e : Happening) (h : NeverDropped history)
    (he : e = .started true → ¬ Exposed history) : NeverDropped (history ++ [e]) := by
  intro before node middle after heq
  rcases eq_nil_or_concat after with rfl | ⟨init, last, rfl⟩
  · -- the start is the last thing that happened
    rw [← cons_append, ← append_assoc] at heq
    rcases append_inj' heq rfl with ⟨hinit, hlast⟩
    by_contra hnot
    exact he (singleton_inj.mp hlast) ⟨before, node, middle, hinit, hnot⟩
  · refine h before node middle init ?_
    rw [concat_eq_append, ← cons_append, ← append_assoc, ← cons_append, ← append_assoc] at heq
    rw [(append_inj' heq rfl).1, append_assoc, cons_append]

/-! ### The drop-in -/

/-- The drop-in is neither on disk nor loaded. -/
def Machine.Clear (m : Machine) : Prop := m.dropin = false ∧ m.loaded = false

/-- A command that does not bring the drop-in back. If it started etcd, it did
    so with what systemd had loaded. -/
structure Quiet (m : Machine) (result : Machine × List Happening) : Prop where
  clear : m.Clear → result.1.Clear
  happened : result.2 = [] ∨ ∃ forced, result.2 = [.started forced] ∧
    (forced = true → m.loaded = true)

variable (me : String) (m : Machine)

theorem start_quiet : Quiet m (m.start me) := by
  unfold Machine.start
  split
  · exact ⟨id, .inl rfl⟩
  split
  · rename_i hloaded
    split
    · exact ⟨id, .inr ⟨true, rfl, fun _ => hloaded⟩⟩
    · exact ⟨id, .inl rfl⟩
  · exact ⟨id, .inr ⟨false, rfl, nofun⟩⟩

theorem restart_quiet : Quiet m (m.restart me) := by
  rcases start_quiet me { m with etcd := false } with ⟨hclear, hhappened⟩
  exact ⟨hclear, hhappened⟩

theorem reload_quiet : Quiet m (m.reload, []) :=
  ⟨fun h => ⟨h.1, h.1⟩, .inl rfl⟩

/-- No command of a take-over but the one that writes it brings the drop-in
    back. -/
theorem effect_quiet (stage : Stage) (h : stage ≠ .writeDropin) : Quiet m (stage.effect me m) := by
  have hkeep : ∀ m' : Machine, m'.dropin = m.dropin → m'.loaded = m.loaded → Quiet m (m', []) := by
    intro m' hd hl
    exact ⟨fun hc => ⟨hd.trans hc.1, hl.trans hc.2⟩, .inl rfl⟩
  cases stage with
  | writeDropin => exact absurd rfl h
  | removeDropin => exact ⟨fun hc => ⟨rfl, hc.2⟩, .inl rfl⟩
  | backReload => exact reload_quiet m
  | forceReload => exact reload_quiet m
  | normalReload => exact reload_quiet m
  | endReload => exact reload_quiet m
  | backEtcd => exact start_quiet me m
  | forceStart => exact start_quiet me m
  | normalRestart => exact restart_quiet me m
  | _ => exact hkeep _ rfl rfl

/-! ### The invariant -/

/-- The admit is about to ask systemd for the drop-in. -/
def Ask.asks : Option Ask → Bool
  | some (.forcing _ _) => true
  | _ => false

/-- The admit has been told that the drop-in is not there. -/
def Ask.told : Option Ask → Bool
  | some (.memberList _ _) => true
  | some (.memberAdd _ _) => true
  | _ => false

/-- What a move is asked for. systemd is not asked while a drop-in is on disk
    that it has not loaded, and no take-over writes the drop-in while an admit
    goes by its answer. -/
def careful (w : World) : Move → Prop
  | .admitNext i _ =>
    Ask.asks w.admits[i]?.join = true → w.machine.dropin = true → w.machine.loaded = true
  | .takeover i _ =>
    w.runs[i]? = some (some .writeDropin) → ∀ a ∈ w.admits, Ask.told a = false
  | _ => True

instance (w : World) : ∀ move, Decidable (careful w move)
  | .admitNext i _ => inferInstanceAs (Decidable
      (Ask.asks w.admits[i]?.join = true → w.machine.dropin = true → w.machine.loaded = true))
  | .takeover i _ => inferInstanceAs (Decidable
      (w.runs[i]? = some (some .writeDropin) → ∀ a ∈ w.admits, Ask.told a = false))
  | .begin | .kill _ | .ask _ _ | .killAdmit _ | .start | .restart | .reload | .stop | .dies
  | .changed _ => isTrue trivial

/-- What every careful move preserves. -/
structure World.Inv (w : World) : Prop where
  kept : NeverDropped w.history
  exposed : Exposed w.history → w.machine.Clear
  told : ∀ a ∈ w.admits, Ask.told a = true → w.machine.Clear

/-- A quiet command keeps it. -/
theorem inv_quiet (w : World) (result : Machine × List Happening) (runs : List (Option Stage))
    (h : w.Inv) (hq : Quiet w.machine result) :
    World.Inv ⟨result.1, runs, w.admits, w.history ++ result.2⟩ := by
  rcases hq.happened with hnone | ⟨forced, hone, hforced⟩
  · rw [hnone, append_nil]
    exact ⟨h.kept, fun he => hq.clear (h.exposed he), fun a ha ht => hq.clear (h.told a ha ht)⟩
  · rw [hone]
    refine ⟨?_, ?_, fun a ha ht => hq.clear (h.told a ha ht)⟩
    · refine neverDropped_snoc _ _ h.kept ?_
      intro he hexposed
      -- a forced start needs the drop-in loaded, and it is not
      have hloaded := hforced (Happening.started.inj he)
      rw [(h.exposed hexposed).2] at hloaded
      cases hloaded
    · intro hexposed
      rcases exposed_snoc _ _ hexposed with ⟨node, hc⟩ | ⟨hbefore, _⟩
      · cases hc
      · exact hq.clear (h.exposed hbefore)

/-- The admits that have been told are among those before, or the drop-in is
    nowhere. -/
theorem told_set (admits : List (Option Ask)) (i : Nat) (a : Option Ask) (P : Prop)
    (h : ∀ x ∈ admits, Ask.told x = true → P) (ha : Ask.told a = true → P) :
    ∀ x ∈ admits.set i a, Ask.told x = true → P := by
  intro x hx
  rcases mem_or_eq_of_mem_set hx with hx | rfl
  · exact h x hx
  · exact ha

/-- One command of a take-over keeps it. -/
theorem takeover_inv (w : World) (i : Nat) (stage : Stage) (answer : Answer)
    (h : w.Inv) (hcare : stage = .writeDropin → ∀ a ∈ w.admits, Ask.told a = false) :
    (w.takeover me i stage answer).Inv := by
  unfold World.takeover
  split
  · exact ⟨h.kept, h.exposed, h.told⟩
  by_cases hwrite : stage = .writeDropin
  · subst hwrite
    refine ⟨neverDropped_snoc _ _ h.kept nofun, ?_, ?_⟩
    · intro hexposed
      rcases exposed_snoc _ _ hexposed with ⟨node, hc⟩ | ⟨_, hc⟩
      · cases hc
      · exact absurd rfl hc
    · intro a ha ht
      rw [hcare rfl a ha] at ht
      cases ht
  · exact inv_quiet w (stage.effect me w.machine) _ h (effect_quiet me w.machine stage hwrite)

/-- One command of an admit keeps it. -/
theorem admit_inv (w : World) (i : Nat) (succeeds : Bool) (ask : Ask) (h : w.Inv)
    (hi : w.admits[i]? = some (some ask))
    (hcare : Ask.asks (some ask) = true → w.machine.dropin = true → w.machine.loaded = true) :
    (w.admitNext i succeeds ask).Inv := by
  have hmem : some ask ∈ w.admits := mem_of_getElem? hi
  cases ask with
  | forcing node url =>
    refine ⟨h.kept, h.exposed, told_set _ _ _ _ h.told ?_⟩
    intro ht
    cases hloaded : w.machine.loaded with
    | true => simp [hloaded, Ask.told] at ht
    | false =>
      cases hdropin : w.machine.dropin with
      | false => exact ⟨hdropin, hloaded⟩
      | true =>
        have := hcare rfl hdropin
        rw [hloaded] at this
        cases this
  | memberList node url =>
    have hclear := h.told _ hmem rfl
    exact ⟨h.kept, h.exposed, told_set _ _ _ _ h.told (fun _ => hclear)⟩
  | memberAdd node url =>
    have hclear : w.machine.Clear := h.told _ hmem rfl
    simp only [World.admitNext]
    split
    · refine ⟨neverDropped_snoc _ _ h.kept nofun, fun _ => hclear, ?_⟩
      exact told_set _ _ _ _ h.told nofun
    · exact ⟨h.kept, h.exposed, told_set _ _ _ _ h.told nofun⟩

/-- Every careful move keeps it. -/
theorem step_inv (w : World) (move : Move) (h : w.Inv) (hcare : careful w move) :
    (w.step me move).Inv := by
  have hoperate : ∀ result, Quiet w.machine result → (w.operate result).Inv :=
    fun result hq => inv_quiet w result w.runs h hq
  cases move with
  | «begin» => exact ⟨h.kept, h.exposed, h.told⟩
  | kill i => exact ⟨h.kept, h.exposed, h.told⟩
  | takeover i answer =>
    simp only [World.step]
    split
    · rename_i stage hi
      refine takeover_inv me w i stage answer h ?_
      rintro rfl
      exact hcare hi
    · exact h
  | ask node urls =>
    refine ⟨h.kept, h.exposed, ?_⟩
    intro a ha ht
    rcases mem_append.mp ha with ha | ha
    · exact h.told a ha ht
    · -- an admit that begins has not been told anything
      rw [mem_singleton.mp ha, askFor] at ht
      split at ht
      · split at ht <;> cases ht
      · cases ht
  | admitNext i succeeds =>
    simp only [World.step]
    split
    · rename_i ask hi
      refine admit_inv w i succeeds ask h hi ?_
      rw [careful, hi] at hcare
      exact hcare
    · exact h
  | killAdmit i => exact ⟨h.kept, h.exposed, told_set _ _ _ _ h.told nofun⟩
  | start => exact hoperate _ (start_quiet me w.machine)
  | restart => exact hoperate _ (restart_quiet me w.machine)
  | reload => exact hoperate _ (reload_quiet w.machine)
  | stop => exact hoperate _ ⟨id, .inl rfl⟩
  | dies => exact hoperate _ ⟨id, .inl rfl⟩
  | changed members => exact hoperate _ ⟨id, .inl rfl⟩

theorem boot_inv (members : List Member) (etcd daemon : Bool) :
    (World.boot members etcd daemon).Inv := by
  refine ⟨?_, fun _ => ⟨rfl, rfl⟩, nofun⟩
  intro before node middle after h
  exact absurd h (by simp [World.boot])

/-- In every careful run no member that an admit added is dropped by a start of
    etcd, unless a take-over wrote the drop-in anew. -/
theorem never_dropped (me : String) (members : List Member) (etcd daemon : Bool) (moves : List Move)
    (hcare : Throughout careful (World.step me) (World.boot members etcd daemon) moves) :
    NeverDropped ((World.boot members etcd daemon).run me moves).history :=
  (Throughout.invariant (P := World.Inv) (fun w move h hmove => step_inv me w move h hmove)
    (boot_inv members etcd daemon) hcare).kept

/-! ### A take-over that was killed -/

def exampleMembers : List Member :=
  [⟨"a", ["https://[fd00::a]:2380"], false⟩, ⟨"b", ["https://[fd00::b]:2380"], false⟩,
   ⟨"c", ["https://[fd00::c]:2380"], false⟩]

def exampleURLs : List (String × String) :=
  [("a", "https://[fd00::a]:2380"), ("b", "https://[fd00::b]:2380")]

/-- A take-over from its beginning to its end, and `b` admitted after it. -/
def takenOver : List Move := .begin :: List.replicate 24 (.takeover 0 .holds)

def admitted : List Move :=
  [.ask "b" exampleURLs, .admitNext 0 true, .admitNext 0 true, .admitNext 0 true]

/-- A restart after that keeps `b`. -/
theorem never_dropped_restart :
    NeverDropped ((World.boot exampleMembers true true).run "a"
      (takenOver ++ admitted ++ [.reload, .restart])).history ∧
    ((World.boot exampleMembers true true).run "a"
      (takenOver ++ admitted ++ [.reload, .restart])).machine.members.length = 2 :=
  ⟨never_dropped "a" exampleMembers true true _ (by decide), by decide⟩

/-- A second take-over is killed when it has written the drop-in, and etcd is
    started as it is. `b` is admitted; after a reload the restart drops it. -/
def killedRun : List Move :=
  takenOver ++ .begin :: List.replicate 9 (.takeover 1 .holds) ++ [.kill 1, .start] ++ admitted ++
    [.reload, .restart]

theorem dropped_after_admit :
    ¬ NeverDropped ((World.boot exampleMembers true true).run "a" killedRun).history ∧
    ((World.boot exampleMembers true true).run "a" killedRun).machine.members.map Member.name =
      ["a"] := by
  refine ⟨?_, by decide⟩
  have hhistory : ((World.boot exampleMembers true true).run "a" killedRun).history =
      [.wrote, .started true, .started false, .wrote, .started false] ++
        .added "b" :: ([] ++ .started true :: []) := by decide
  intro h
  exact absurd (h _ _ _ _ hhistory) (by decide)

end Regalia.Takeover
