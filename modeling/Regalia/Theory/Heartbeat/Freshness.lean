import Regalia.Theory.Activation.Exclusion
import Regalia.Theory.Heartbeat.StateSize

/-!
# What a Peer Accepts and Relies On

Over any calls of `accept` and `check`, cut anywhere, and with the state file
replaced by anything between them. The counter only rises, and only toward the
sequence of a heartbeat signed as the manifest of that call requires; no check
relies on less than an acceptance that completed, and every acceptance that
completed was of a higher sequence than the ones before. None of this rests on
the file: the counter is compared with what was verified in the same call.

The file matters after a cut. Once `accept` has written it, the heartbeat, the
bound it was taken under and the counter belong together, whatever was there
before: a check reads the state back, and has no more left to climb than the
bound allows. A cut that comes before the file is written leaves the heartbeat
held until then.

## Main definitions

* `Finishing`, `Taken`: What `accept` moves before the file is written, and
  after.
* `Entry.Before`: How what completed first stands to what completed later.

## Theorems

* `accept_spec`, `checked_spec`: The effects of the two operations.
* `step_moves`: How the counter moves in one step.
* `completed_kept`: What holds of every run.
* `recovered`: A cut after the file was written is made good by a check.
* `rises_and_recovers`: All of it.
-/

namespace Regalia.Heartbeat

open List

variable {signed : Signed} {world : World} {reading : Reading} {state : State}

open Traced
open Regalia.Membership

/-! ### The counter -/

/-- The increments among some effects. -/
def steps (effects : List Effect) : Nat :=
  (effects.filter (fun e => match e with
    | .increment => true
    | .write _ => false)).length

@[simp] theorem steps_append (effects later : List Effect) :
    steps (effects ++ later) = steps effects + steps later := by
  simp [steps]

@[simp] theorem steps_write (raw : Raw) (effects : List Effect) :
    steps (.write raw :: effects) = steps effects := rfl

@[simp] theorem steps_increments (n : Nat) : steps (replicate n .increment) = n := by
  simp [steps]

theorem steps_take_le (effects : List Effect) (k : Nat) : steps (effects.take k) ≤ steps effects :=
  ((take_sublist k effects).filter _).length_le

theorem act_increment {peer : Peer} (h : peer.counter + 1 < wrap) :
    Acts.act peer Effect.increment = ⟨peer.counter + 1, peer.file⟩ := by
  show (⟨(peer.counter + 1) % wrap, peer.file⟩ : Peer) = _
  rw [Nat.mod_eq_of_lt h]

theorem counter_after (effects : List Effect) (peer : Peer)
    (h : 0 < steps effects → peer.counter + steps effects < wrap) :
    (after peer effects).counter = peer.counter + steps effects := by
  induction effects generalizing peer with
  | nil => rfl
  | cons e effects ih =>
    cases e with
    | write raw => exact ih { peer with file := some raw } h
    | increment =>
      have hsteps : steps (.increment :: effects) = steps effects + 1 := rfl
      have hlt := h (by omega)
      have hnext := ih ⟨peer.counter + 1, peer.file⟩
        (fun _ => by show peer.counter + 1 + steps effects < wrap; omega)
      rw [after_cons, act_increment (by omega), hnext]
      show peer.counter + 1 + steps effects = _
      omega

-- an increment leaves the file alone
theorem file_increments (n : Nat) (peer : Peer) :
    (after peer (replicate n .increment)).file = peer.file := by
  induction n generalizing peer with
  | zero => rfl
  | succ n ih => exact ih { peer with counter := (peer.counter + 1) % wrap }

theorem increments_spec (n : Nat) (peer : Peer) (h : peer.counter + n < wrap) :
    Spec (increments n) peer (fun effects answer =>
      effects = replicate n .increment ∧ answer = .ok ()) := by
  induction n generalizing peer with
  | zero => exact ⟨rfl, rfl⟩
  | succ n ih =>
    refine Spec.look (Spec.effect (Spec.look (Spec.lift ?_ ?_)))
    · intro e he
      rw [act_increment (by omega)] at he
      simp [require] at he
    · intro _ _
      obtain ⟨htrace, hanswer⟩ := ih (Acts.act peer Effect.increment) (by
        rw [act_increment (by omega)]
        show peer.counter + 1 + n < wrap
        omega)
      refine ⟨?_, hanswer⟩
      show Effect.increment :: (increments n).trace _ = _
      rw [htrace, replicate_succ]

theorem advances_eq_ok {sequence bound : Int} {counter : Nat} {u : Unit} :
    advances sequence counter bound = .ok u ↔
      (counter : Int) < sequence ∧ sequence - counter ≤ bound := by
  unfold advances
  simp only [steps_eq_ok]

/-- An advance that is refused makes no increment; any other comes to its end. -/
theorem climb_spec {sequence : Int} (bound : Int) (peer : Peer) (h : sequence < 2 ^ 63) :
    Spec (climb sequence bound) peer (fun effects answer =>
      (effects = [] ∧ ∃ e, answer = .error e ∧ advances sequence peer.counter bound = .error e) ∨
      ∃ n, effects = replicate n .increment ∧ answer = .ok () ∧ 0 < n ∧
        (peer.counter : Int) + n = sequence ∧ (n : Int) ≤ bound) := by
  refine Spec.look (Spec.lift ?_ ?_)
  · intro e he
    exact .inl ⟨rfl, e, rfl, he⟩
  · intro u hu
    obtain ⟨hlow, hbound⟩ := advances_eq_ok.mp hu
    have hwrap : wrap = 2 ^ 64 := rfl
    obtain ⟨htrace, hanswer⟩ := increments_spec (sequence - peer.counter).toNat peer (by omega)
    exact .inr ⟨_, htrace, hanswer, by omega, by omega, by omega⟩

theorem climb_ok {sequence bound : Int} (peer : Peer) {n : Nat}
    (h : (peer.counter : Int) + n = sequence) (hpos : 0 < n) (hbound : (n : Int) ≤ bound)
    (hlt : sequence < 2 ^ 63) :
    Spec (climb sequence bound) peer (fun effects answer =>
      effects = replicate n .increment ∧ answer = .ok ()) := by
  have hadvances : advances sequence peer.counter bound = .ok () :=
    advances_eq_ok.mpr ⟨by omega, by omega⟩
  rcases climb_spec bound peer hlt with ⟨-, e, -, hrefused⟩ | ⟨m, htrace, hanswer, -, hsum, -⟩
  · rw [hadvances] at hrefused
    cases hrefused
  · have hsame : m = n := by omega
    exact ⟨hsame ▸ htrace, hanswer⟩

/-! ### The two operations -/

theorem verify_signedBy {crypto : Crypto} {envelope manifest : Value}
    (h : verify crypto envelope manifest = .ok signed) :
    signedBy crypto envelope manifest = .ok signed := by
  unfold verify at h
  simp only [steps_eq_ok] at h
  obtain ⟨found, hfound, -, -, -, -, rfl⟩ := h
  exact hfound

theorem sequence_lt {crypto : Crypto} {envelope manifest : Value}
    (h : signedBy crypto envelope manifest = .ok signed) :
    sequenceOf signed.heartbeat < 2 ^ 63 := (signedBy_eq_ok h).2.1.sequence.2.2

variable {setup : Setup} {manifest : Document} {peer : Peer}

/-- Increments toward a heartbeat signed as the manifest requires. -/
def Finishing (setup : Setup) (manifest : Document) (peer : Peer) (n : Nat) : Prop :=
  0 < n → ∃ (envelope : Value) (signed : Signed),
    signedBy setup.crypto envelope manifest = .ok signed ∧
      (peer.counter : Int) + n ≤ sequenceOf signed.heartbeat

theorem finishing_zero : Finishing setup manifest peer 0 := fun h => absurd h (Nat.lt_irrefl 0)

/-- The effects of taking a heartbeat: what was owed, the file, and the rest. -/
def taking (done : Nat) (raw : Raw) (more : Nat) : List Effect :=
  replicate done .increment ++ .write raw :: replicate more .increment

@[simp] theorem steps_taking (done : Nat) (raw : Raw) (more : Nat) :
    steps (taking done raw more) = done + more := by
  simp [taking]

/-- A heartbeat that was taken: the increments that finished an earlier
    advance, the state written, and the increments after it. -/
structure Taken (setup : Setup) (envelope manifest : Document) (peer : Peer) (signed : Signed)
    (state : State) (raw : Raw) (done more : Nat) : Prop where
  verified : verify setup.crypto envelope manifest = .ok signed
  finishing : Finishing setup manifest peer done
  envelope : state.envelope = envelope
  allowed : Allowed state.allowance
  bound : (more : Int) ≤ state.allowance.getD maxJump
  reaches : (peer.counter : Int) + done + more = sequenceOf signed.heartbeat
  moves : 0 < more
  written : written state = .ok raw

theorem pending_le (state : State) (held : Nat) :
    pending state held ≤ state.allowance.getD maxJump ∨ pending state held = 0 := by
  unfold pending
  split
  · omega
  · exact .inr rfl

-- what is owed is toward the sequence the held envelope names
theorem pending_le_sequence (h : signedBy setup.crypto state.envelope manifest = .ok signed)
    (howed : pending state peer.counter ≠ 0) :
    0 < pending state peer.counter ∧
      (peer.counter : Int) + pending state peer.counter ≤ sequenceOf signed.heartbeat := by
  obtain ⟨hheartbeat, hvalid, -⟩ := signedBy_eq_ok h
  have hsequence : Python.asInt (field (field state.envelope "heartbeat") "sequence") =
      some (sequenceOf signed.heartbeat) := by
    rw [← hheartbeat, hvalid.sequence.1]
    rfl
  unfold pending at howed ⊢
  rw [hsequence] at howed ⊢
  simp only [] at howed ⊢
  omega

/-- What of an owed advance `accept` makes first. -/
def finished (setup : Setup) (manifest : Document) (state : State) (counter : Nat) : Int :=
  if pending state counter ≠ 0 ∧ (signedBy setup.crypto state.envelope manifest).isOk = true then
    pending state counter
  else 0

/-- The owed advance goes through, and is toward a heartbeat signed as the
    manifest requires. -/
theorem finish_spec (state : State) :
    Spec (climbIf (pending state peer.counter ≠ 0 ∧
        (signedBy setup.crypto state.envelope manifest).isOk = true)
      (peer.counter + pending state peer.counter) (state.allowance.getD maxJump)) peer
      (fun effects answer => ∃ n, effects = replicate n .increment ∧ answer = .ok () ∧
        Finishing setup manifest peer n ∧ (n : Int) = finished setup manifest state peer.counter) := by
  unfold climbIf finished
  split
  · rename_i hfinishes
    obtain ⟨howed, hok⟩ := hfinishes
    cases hsigned : signedBy setup.crypto state.envelope manifest with
    | error e =>
      rw [hsigned] at hok
      cases hok
    | ok signed =>
      obtain ⟨hpositive, hreach⟩ := pending_le_sequence hsigned howed
      have hlt := sequence_lt hsigned
      have hbound := (pending_le state peer.counter).resolve_right howed
      obtain ⟨n, hn⟩ := Int.eq_ofNat_of_zero_le hpositive.le
      obtain ⟨htrace, hanswer⟩ := climb_ok peer (n := n) (by omega) (by omega)
        (hn ▸ hbound) (show (peer.counter : Int) + pending state peer.counter < 2 ^ 63 by omega)
      exact ⟨n, htrace, hanswer, fun _ => ⟨_, signed, hsigned, by omega⟩, hn.symm⟩
  · exact ⟨0, rfl, rfl, finishing_zero, rfl⟩

-- the sequence of a signed heartbeat is far from where the counter wraps
theorem counter_of_finishing {effects : List Effect}
    (h : Finishing setup manifest peer (steps effects)) :
    (after peer effects).counter = peer.counter + steps effects := by
  have hwrap : wrap = 2 ^ 64 := rfl
  refine counter_after effects peer (fun hpos => ?_)
  obtain ⟨envelope, signed, hsigned, hreach⟩ := h hpos
  have := sequence_lt hsigned
  omega

theorem counter_finishing {n : Nat} (h : Finishing setup manifest peer n) :
    (after peer (replicate n .increment)).counter = peer.counter + n := by
  rw [← steps_increments n] at h
  rw [counter_of_finishing h, steps_increments]

/-- `accept` is refused with at most the owed advance made, or takes the
    heartbeat. -/
theorem accept_spec (setup : Setup) (manifest : Document) (peer : Peer)
    (envelope : Document) (reading : Reading) :
    Spec (accept setup envelope manifest reading) peer (fun effects answer =>
      (∃ n e, effects = replicate n .increment ∧ answer = .error e ∧
        Finishing setup manifest peer n) ∨
      ∃ signed state raw done more left,
        Taken setup envelope manifest peer signed state raw done more ∧
        effects = taking done raw more ∧ answer = .ok left) := by
  have hnone : ∀ (e : Refused), ∃ n e', ([] : List Effect) = replicate n .increment ∧
      (.error e : Check Int) = .error e' ∧ Finishing setup manifest peer n :=
    fun e => ⟨0, e, rfl, rfl, finishing_zero⟩
  refine Spec.lift (fun e _ => .inl (hnone e)) (fun signed hverify => ?_)
  refine Spec.look (Spec.lift (fun e _ => .inl (hnone e)) (fun state hstate => ?_))
  refine Spec.lift (fun e _ => .inl (hnone e)) (fun now hnow => ?_)
  refine Spec.lift (fun e _ => .inl (hnone e)) (fun left hleft => ?_)
  refine Spec.bind (finish_spec state) ?_ ?_
  · rintro effects e ⟨n, -, herror, -⟩
    cases herror
  rintro effects u ⟨done, rfl, -, hfinishing, -⟩
  have hrefused : ∀ e : Refused, ∃ n e',
      replicate done Effect.increment ++ [] = replicate n .increment ∧
      (.error e : Check Int) = .error e' ∧ Finishing setup manifest peer n :=
    fun e => ⟨done, e, append_nil _, rfl, hfinishing⟩
  refine Spec.look (Spec.lift (fun e _ => .inl (hrefused e)) (fun jump hjump => ?_))
  generalize hallowance : min (jump + _) maxAllowance = allowance
  refine Spec.lift (fun e _ => .inl (hrefused e)) (fun _ hadvances => ?_)
  rw [counter_finishing hfinishing] at hadvances
  obtain ⟨hlow, hbound⟩ := advances_eq_ok.mp hadvances
  refine Spec.assoc (Spec.lift (fun e _ => .inl (hrefused e)) (fun raw hwritten => Spec.effect ?_))
  -- the file is written, and the last advance goes through
  have hverified := sequence_lt (verify_signedBy hverify)
  have hcounter : (Acts.act (after peer (replicate done .increment)) (.write raw)).counter =
      peer.counter + done := counter_finishing hfinishing
  refine Spec.bind (climb_spec _ _ hverified) ?_ ?_
  · rintro effects e (⟨-, e', -, hclimb⟩ | ⟨n, -, herror, -⟩)
    · rw [hcounter, hadvances] at hclimb
      cases hclimb
    · cases herror
  rintro effects u (⟨-, e, herror, -⟩ | ⟨more, rfl, -, hmoves, hreaches, hmore⟩)
  · cases herror
  rw [hcounter] at hreaches
  refine Spec.pure (.inr ⟨signed, ⟨envelope, some now.2, some allowance⟩, raw, done, more,
    left, ?_, by simp [taking], rfl⟩)
  exact {
    verified := hverify
    finishing := hfinishing
    envelope := rfl
    allowed := by
      rintro a ⟨⟩
      omega
    bound := hmore
    reaches := by omega
    moves := hmoves
    written := hwritten }

/-- `check` is refused with the file rewritten or not, or relies on a verified
    heartbeat and leaves the counter at its sequence. -/
theorem checked_spec (setup : Setup) (manifest : Document) (peer : Peer) (reading : Reading) :
    Spec (checked setup manifest reading) peer (fun effects answer =>
      ((∃ e, answer = .error e) ∧ steps effects = 0) ∨
      ∃ (envelope : Document) (now : Nat) (signed : Signed) (raw : Raw) (n : Nat),
        verify setup.crypto envelope manifest = .ok signed ∧
        (peer.counter : Int) + n = sequenceOf signed.heartbeat ∧
        effects = .write raw :: replicate n .increment ∧ answer = .ok (now, signed)) := by
  refine Spec.look (Spec.lift (fun e _ => .inl ⟨⟨e, rfl⟩, rfl⟩) (fun state _ => ?_))
  refine Spec.lift (fun e _ => .inl ⟨⟨e, rfl⟩, rfl⟩) (fun now _ => ?_)
  refine Spec.assoc (Spec.lift (fun e _ => .inl ⟨⟨e, rfl⟩, rfl⟩) (fun raw _ => Spec.effect ?_))
  refine Spec.lift (fun e _ => .inl ⟨⟨e, rfl⟩, rfl⟩) (fun _ _ => ?_)
  refine Spec.lift (fun e _ => .inl ⟨⟨e, rfl⟩, rfl⟩) (fun signed hverify => ?_)
  refine Spec.lift (fun e _ => .inl ⟨⟨e, rfl⟩, rfl⟩) (fun _ hheld => ?_)
  refine Spec.lift (fun e _ => .inl ⟨⟨e, rfl⟩, rfl⟩) (fun _ _ => ?_)
  rw [require_eq_ok] at hheld
  have hverified := sequence_lt (verify_signedBy hverify)
  by_cases hlow : (peer.counter : Int) < sequenceOf signed.heartbeat
  · -- an interrupted acceptance is finished, or refused by the stored bound
    rw [climbIf, if_pos hlow]
    refine Spec.bind (climb_spec _ _ hverified) ?_ ?_
    · rintro effects e (⟨rfl, -⟩ | ⟨n, -, herror, -⟩)
      · exact .inl ⟨⟨e, rfl⟩, rfl⟩
      · cases herror
    rintro effects u (⟨-, e, herror, -⟩ | ⟨n, rfl, -, -, hreaches, -⟩)
    · cases herror
    exact Spec.pure (.inr ⟨state.envelope, now.1, signed, raw, n, hverify, hreaches, by simp, rfl⟩)
  · rw [climbIf, if_neg hlow]
    exact .inr ⟨state.envelope, now.1, signed, raw, 0, hverify, by omega, rfl, rfl⟩

/-! ### How the counter moves -/

theorem Finishing.mono {m n : Nat} (h : Finishing setup manifest peer n) (hle : m ≤ n) :
    Finishing setup manifest peer m := by
  intro hpos
  obtain ⟨envelope, signed, hsigned, hreach⟩ := h (by omega)
  exact ⟨envelope, signed, hsigned, by omega⟩

theorem accept_finishing (setup : Setup) (manifest : Document) (peer : Peer)
    (envelope : Document) (reading : Reading) :
    Finishing setup manifest peer (steps ((accept setup envelope manifest reading).trace peer)) := by
  rcases accept_spec setup manifest peer envelope reading with
    ⟨n, e, htrace, -, hfinishing⟩ | ⟨signed, state, raw, done, more, left, htaken, htrace, -⟩
  · rwa [htrace, steps_increments]
  · rw [htrace, steps_taking]
    have hreaches := htaken.reaches
    exact fun _ => ⟨envelope, signed, verify_signedBy htaken.verified, by omega⟩

theorem checked_finishing (setup : Setup) (manifest : Document) (peer : Peer) (reading : Reading) :
    Finishing setup manifest peer (steps ((checked setup manifest reading).trace peer)) := by
  rcases checked_spec setup manifest peer reading with
    ⟨-, hnone⟩ | ⟨envelope, now, signed, raw, n, hverify, hreaches, htrace, -⟩
  · rw [hnone]
    exact finishing_zero
  · rw [htrace, steps_write, steps_increments]
    exact fun _ => ⟨envelope, signed, verify_signedBy hverify, by omega⟩

/-- The current manifest of a call. -/
def Event.current : Event → Option Document
  | .accept _ manifest _ _ => some manifest
  | .check manifest _ _ => some manifest
  | .replace _ => none

/-- The counter has moved, if at all, toward a signed heartbeat. -/
def Rises (setup : Setup) (manifest : Option Document) (here next : Peer) : Prop :=
  here.counter ≤ next.counter ∧ (here.counter < next.counter → ∃ m ∈ manifest,
    ∃ (envelope : Value) (signed : Signed), signedBy setup.crypto envelope m = .ok signed ∧
      (next.counter : Int) ≤ sequenceOf signed.heartbeat)

theorem rises_of_finishing {effects : List Effect}
    (h : Finishing setup manifest peer (steps effects)) :
    Rises setup (some manifest) peer (after peer effects) := by
  have hcounter := counter_of_finishing h
  refine ⟨by omega, fun hlt => ?_⟩
  obtain ⟨envelope, signed, hsigned, hreach⟩ := h (by omega)
  exact ⟨manifest, rfl, envelope, signed, hsigned, by omega⟩

-- a cut makes some of the effects, a call that is not cut all of them
theorem call_rises {α : Type} {program : Program α} {cut : Option Nat} {entry : α → Entry}
    (h : Finishing setup manifest world.peer (steps (program.trace world.peer))) :
    Rises setup (some manifest) world.peer (world.call program cut entry).peer := by
  cases cut with
  | some n => exact rises_of_finishing (h.mono (steps_take_le _ n))
  | none =>
    have hall := rises_of_finishing h
    unfold World.call
    cases program.result world.peer with
    | ok a => exact hall
    | error e => exact hall

theorem step_moves (world : World) (event : Event) :
    Rises setup event.current world.peer (world.step setup event).peer := by
  cases event with
  | accept envelope manifest reading cut => exact call_rises (accept_finishing setup manifest _ envelope reading)
  | check manifest reading cut => exact call_rises (checked_finishing setup manifest _ reading)
  | replace file => exact ⟨le_rfl, fun h => absurd h (lt_irrefl _)⟩

/-! ### What completed -/

/-- How an entry stands to one before it: no check relies on less than was
    accepted, and every acceptance is of more. -/
def Entry.Before : Entry → Entry → Prop
  | .accepted h, .accepted h' => sequenceOf h < sequenceOf h'
  | .accepted h, .relied h' => sequenceOf h ≤ sequenceOf h'
  | .relied _, _ => True

/-- What was accepted is at or below the counter. -/
structure World.Kept (world : World) : Prop where
  below : ∀ h, .accepted h ∈ world.log → sequenceOf h ≤ world.peer.counter
  before : world.log.Pairwise Entry.Before

theorem World.Kept.rise {next : Peer} (h : world.Kept) (hle : world.peer.counter ≤ next.counter) :
    World.Kept ⟨next, world.log⟩ where
  below heartbeat hmem := by
    have hbelow := h.below heartbeat hmem
    show sequenceOf heartbeat ≤ (next.counter : Int)
    omega
  before := h.before

/-- What completes is logged after everything it comes after. -/
theorem World.Kept.logged {next : Peer} {entry : Entry} (h : world.Kept)
    (hle : world.peer.counter ≤ next.counter)
    (hbefore : ∀ other, sequenceOf other ≤ world.peer.counter → (Entry.accepted other).Before entry)
    (hbelow : ∀ heartbeat, entry = .accepted heartbeat →
      sequenceOf heartbeat ≤ (next.counter : Int)) :
    World.Kept ⟨next, world.log ++ [entry]⟩ where
  below other hmem := by
    rcases mem_append.mp hmem with hmem | hmem
    · exact (h.rise hle).below other hmem
    · exact hbelow other (mem_singleton.mp hmem).symm
  before := by
    refine pairwise_snoc h.before (fun earlier hearlier => ?_)
    cases earlier with
    | accepted other => exact hbefore other (h.below other hearlier)
    | relied other => trivial

theorem accept_kept (h : world.Kept) (envelope : Document) (reading : Reading) :
    (world.step setup (.accept envelope manifest reading none)).Kept := by
  have hrises : Rises setup (some manifest) world.peer _ :=
    rises_of_finishing (accept_finishing setup manifest world.peer envelope reading)
  simp only [World.step, World.call]
  cases hresult : (accept setup envelope manifest reading).result world.peer with
  | error e => exact h.rise hrises.1
  | ok left =>
    rcases accept_spec setup manifest world.peer envelope reading with ⟨n, e, -, herror, -⟩ |
      ⟨signed, state, raw, done, more, left, htaken, htrace, -⟩
    · rw [hresult] at herror
      cases herror
    · have hcounter := counter_of_finishing
        (accept_finishing setup manifest world.peer envelope reading)
      rw [htrace, steps_taking, ← htrace] at hcounter
      have hreaches := htaken.reaches
      have hmoves := htaken.moves
      have hbody := (signedBy_eq_ok (verify_signedBy htaken.verified)).1
      rw [hbody] at hreaches
      refine h.logged hrises.1 (fun other hother => ?_) ?_
      · show sequenceOf other < _
        omega
      · rintro _ ⟨⟩
        show _ ≤ ((after world.peer _).counter : Int)
        omega

theorem check_kept (h : world.Kept) (reading : Reading) :
    (world.step setup (.check manifest reading none)).Kept := by
  have hrises : Rises setup (some manifest) world.peer _ :=
    rises_of_finishing (checked_finishing setup manifest world.peer reading)
  simp only [World.step, World.call]
  cases hresult : (checked setup manifest reading).result world.peer with
  | error e => exact h.rise hrises.1
  | ok found =>
    rcases checked_spec setup manifest world.peer reading with
      ⟨⟨e, herror⟩, -⟩ | ⟨envelope, now, signed, raw, n, -, hreaches, htrace, hanswer⟩
    · rw [hresult] at herror
      cases herror
    · have hcounter := counter_of_finishing (checked_finishing setup manifest world.peer reading)
      rw [htrace, steps_write, steps_increments, ← htrace] at hcounter
      rw [hresult] at hanswer
      cases hanswer
      refine h.logged hrises.1 (fun other hother => ?_) nofun
      show sequenceOf other ≤ sequenceOf signed.heartbeat
      omega

theorem step_kept (world : World) (event : Event) (h : world.Kept) :
    (world.step setup event).Kept := by
  cases event with
  | accept envelope manifest reading cut =>
    cases cut with
    | none => exact accept_kept h envelope reading
    | some n => exact h.rise (step_moves world (.accept envelope manifest reading (some n))).1
  | check manifest reading cut =>
    cases cut with
    | none => exact check_kept h reading
    | some n => exact h.rise (step_moves world (.check manifest reading (some n))).1
  | replace file => exact h.rise le_rfl

theorem completed_kept (peer : Peer) (events : List Event) :
    (World.run setup ⟨peer, []⟩ events).Kept :=
  run_invariant step_kept events
    ⟨fun _ hmem => absurd hmem not_mem_nil, List.Pairwise.nil⟩

/-! ### After a cut -/

/-- The floor on the disk. -/
def heldFloor (peer : Peer) : Option Floor :=
  match readState peer.file with
  | .ok state => state.floor
  | .error _ => none

/-- A reading that the floor takes. -/
structure Reads (setup : Setup) (reading : Reading) (floor : Option Floor) (now : Nat)
    (ticks : UInt64) : Prop where
  authenticated : reading.authenticated = true
  seconds : reading.seconds = some now
  clock : reading.ticks = some ticks
  forward : ∀ f ∈ floor, setup.notBefore f now ticks = true

/-- A heartbeat is live at a time. -/
def Live (signed : Signed) (now : Int) : Prop :=
  signed.issued ≤ now + futureSkew ∧ now < signed.expires

theorem live_eq_ok {now left : Int} :
    live signed now = .ok left ↔ Live signed now ∧ left = signed.expires - now := by
  unfold live Live
  simp only [steps_eq_ok]
  rw [and_assoc, eq_comm (a := left)]

-- numbers this small are always written
theorem readable_floor {depth time ticks : Nat} (htime : time < 2 ^ 64) (hticks : ticks < 2 ^ 64) :
    readable (depth + 1) (floorValue (some ⟨time, ticks⟩)) = true := by
  have hdigits : ∀ n < 2 ^ 64, (Nat.toDigits 10 n).length ≤ maxDigits := by
    intro n hn
    have hshort : (Nat.toDigits 10 n).length ≤ 20 :=
      (Nat.length_toDigits_le_iff (by decide) (by decide)).mpr (by omega)
    exact hshort.trans (by decide)
  simp only [floorValue, Floor.value, Option.map_some, Option.getD_some, readable, all_cons,
    all_nil, Bool.and_true, Bool.and_eq_true]
  exact ⟨decide_eq_true (hdigits time htime), decide_eq_true (hdigits ticks hticks)⟩

/-- The time, and a floor that can be written if the last one could. -/
theorem authenticatedNow_ok {floor : Option Floor} {now : Nat} {ticks : UInt64} {depth : Nat}
    (h : Reads setup reading floor now ticks) (hnow : now < 2 ^ 64)
    (hfloor : readable (depth + 1) (floorValue floor) = true) :
    ∃ next, authenticatedNow setup reading floor = .ok (now, next) ∧
      readable (depth + 1) (floorValue (some next)) = true := by
  have hsmall : readable (depth + 1) (floorValue (some ⟨now, ticks.toNat⟩)) = true :=
    readable_floor hnow ticks.toNat_lt
  unfold authenticatedNow
  rw [h.authenticated, h.seconds, h.clock]
  cases floor with
  | none => exact ⟨⟨now, ticks.toNat⟩, rfl, hsmall⟩
  | some f =>
    have hforward := h.forward f rfl
    simp only [steps_eq_ok, hforward, Option.some.injEq, true_and, exists_eq_left', Prod.mk.injEq]
    by_cases hle : f.time ≤ now
    · rwa [if_pos hle]
    · rwa [if_neg hle]

/-- A check that has a verified live heartbeat within its bound relies on it and
    leaves the counter at its sequence. -/
theorem checked_ok {now : Nat} {floor : Floor} {raw : Raw} (hread : readState peer.file = .ok state)
    (hnow : authenticatedNow setup reading state.floor = .ok (now, floor))
    (hwritten : written { state with floor := some floor } = .ok raw)
    (hverify : verify setup.crypto state.envelope manifest = .ok signed) (hlive : Live signed now)
    (hheld : (peer.counter : Int) ≤ sequenceOf signed.heartbeat)
    (hbound : sequenceOf signed.heartbeat - peer.counter ≤ state.allowance.getD maxJump) :
    Spec (checked setup manifest reading) peer (fun effects answer =>
      answer = .ok (now, signed) ∧
        ((after peer effects).counter : Int) = sequenceOf signed.heartbeat) := by
  have hlt := sequence_lt (verify_signedBy hverify)
  have hobject : state.envelope.1 ≠ .null := by
    intro hnull
    rcases (signedBy_eq_ok (verify_signedBy hverify)).2.2 with ⟨hexact, -⟩ | ⟨hexact, -⟩
    · exact absurd hexact.1 (by rw [hnull]; decide)
    · exact absurd hexact.1 (by rw [hnull]; decide)
  refine Spec.look (Spec.lift_ok hread (Spec.lift_ok hnow ?_))
  refine Spec.assoc (Spec.lift_ok hwritten (Spec.effect ?_))
  refine Spec.lift_ok (a := ()) (require_eq_ok.mpr hobject) ?_
  refine Spec.lift_ok hverify (Spec.lift_ok (a := ()) (require_eq_ok.mpr hheld) ?_)
  refine Spec.lift_ok (live_eq_ok.mpr ⟨hlive, rfl⟩) ?_
  by_cases hlow : (peer.counter : Int) < sequenceOf signed.heartbeat
  · rw [climbIf, if_pos hlow]
    obtain ⟨n, hn⟩ := Int.eq_ofNat_of_zero_le (Int.sub_nonneg.mpr hheld)
    have hclimb := climb_ok (Acts.act peer (Effect.write raw)) (n := n)
      (show (peer.counter : Int) + n = sequenceOf signed.heartbeat by omega) (by omega)
      (hn ▸ hbound) hlt
    refine Spec.bind_ok hclimb (Spec.pure ⟨rfl, ?_⟩)
    have hwrap : wrap = 2 ^ 64 := rfl
    rw [counter_after _ peer (by simp; omega)]
    simp
    omega
  · rw [climbIf, if_neg hlow]
    refine ⟨rfl, ?_⟩
    show (peer.counter : Int) = sequenceOf signed.heartbeat
    omega

/-- Once the file is written, what a cut leaves is that file and a part of the
    increments after it. -/
theorem take_taking {raw : Raw} {done more k : Nat}
    (h : ∃ r, Effect.write r ∈ (taking done raw more).take k) :
    ∃ m ≤ more, (taking done raw more).take k = taking done raw m := by
  unfold taking at h ⊢
  by_cases hk : k ≤ done
  · -- there is no write among the increments before it
    obtain ⟨r, hr⟩ := h
    rw [take_append_of_le_length (by simpa using hk), take_replicate] at hr
    cases eq_of_mem_replicate hr
  · obtain ⟨j, rfl⟩ : ∃ j, k = done + (j + 1) := ⟨k - done - 1, by omega⟩
    refine ⟨min j more, Nat.min_le_right _ _, ?_⟩
    have hlength : (replicate done Effect.increment).length = done := length_replicate
    rw [take_append, hlength, take_of_length_le (by omega), Nat.add_sub_cancel_left,
      take_succ_cons, take_replicate]

theorem file_taking (done : Nat) (raw : Raw) (more : Nat) :
    (after peer (taking done raw more)).file = some raw := by
  rw [taking, after_append, after_cons, file_increments]
  rfl

theorem readable_document {floor : Floor} (h : readable maxDepth state.document = true)
    (hfloor : readable (maxDepth - 1) (floorValue (some floor)) = true) :
    readable maxDepth (State.document { state with floor := some floor }) = true := by
  have hmax : maxDepth = (maxDepth - 1) + 1 := rfl
  rw [hmax] at h ⊢
  simp only [State.document, readable, all_cons, all_nil, Bool.and_true, Bool.and_eq_true] at h ⊢
  exact ⟨h.1, h.2.1, hfloor⟩

/-- A cut inside `accept` once the file is written: a check under the same
    manifest, while the heartbeat is live, succeeds and brings the counter to
    its sequence. -/
theorem recovered {envelope : Document} {reading later : Reading} {k now : Nat} {ticks : UInt64}
    (hcut : ∃ raw, Effect.write raw ∈ ((accept setup envelope manifest reading).trace peer).take k)
    (hverify : verify setup.crypto envelope manifest = .ok signed) (hreads : Reads setup later
      (heldFloor ((accept setup envelope manifest reading).cut k peer)) now ticks)
    (hlive : Live signed now) :
    Spec (checked setup manifest later)
      ((accept setup envelope manifest reading).cut k peer) (fun effects answer =>
        answer = .ok (now, signed) ∧
          ((after ((accept setup envelope manifest reading).cut k peer) effects).counter : Int) =
            sequenceOf signed.heartbeat) := by
  rcases accept_spec setup manifest peer envelope reading with
    ⟨n, e, htrace, -, -⟩ | ⟨found, state, raw, done, more, left, htaken, htrace, -⟩
  · obtain ⟨raw, hraw⟩ := hcut
    rw [htrace, take_replicate] at hraw
    cases eq_of_mem_replicate hraw
  have hsame : found = signed := by
    have := htaken.verified
    rw [hverify] at this
    exact (Except.ok.inj this).symm
  subst hsame
  rw [htrace] at hcut
  obtain ⟨m, hm, htake⟩ := take_taking hcut
  unfold cut at hreads ⊢
  rw [htrace, htake] at hreads ⊢
  have hfile : (after peer (taking done raw m)).file = some raw := file_taking done raw m
  generalize hleft : after peer (taking done raw m) = left at hfile hreads ⊢
  have hwrap : wrap = 2 ^ 64 := rfl
  have hlt := sequence_lt (verify_signedBy hverify)
  have hreaches := htaken.reaches
  have hcounter : left.counter = peer.counter + (done + m) := by
    have hafter := counter_after (taking done raw m) peer (by rw [steps_taking]; omega)
    rwa [hleft, steps_taking] at hafter
  -- the state is read back, and its floor was written once already
  obtain ⟨hreadable, hraw⟩ := written_eq_ok.mp htaken.written
  have hsize : raw.size ≤ maxStateBytes := by
    rw [hraw]
    refine length_document_le ?_ htaken.allowed hreadable
    rw [htaken.envelope]
    exact length_envelope_le (verify_signedBy hverify)
  have hread : readState left.file = .ok state := by
    rw [hfile]
    exact readState_written htaken.allowed htaken.written hsize
  have hfloor : heldFloor left = state.floor := by
    unfold heldFloor
    rw [hread]
  rw [hfloor] at hreads
  have hsmall : now < 2 ^ 64 := by
    have hexpires := (parseTime_eq_ok (signedBy_eq_ok (verify_signedBy hverify)).2.1.expires).2
    have := hlive.2
    omega
  have hheld : readable (maxDepth - 1) (floorValue state.floor) = true := by
    simp only [State.document, maxDepth, readable, all_cons, all_nil, Bool.and_true,
      Bool.and_eq_true] at hreadable
    exact hreadable.2.2
  obtain ⟨floor, hnow, hnext⟩ := authenticatedNow_ok hreads hsmall hheld
  have hbound := htaken.bound
  exact checked_ok hread hnow (written_eq_ok.mpr ⟨readable_document hreadable hnext, rfl⟩)
    (htaken.envelope ▸ hverify) hlive (by omega) (by omega)

theorem check_of_checked {now : Nat} {n : Int}
    (h : Spec (checked setup manifest reading) peer (fun effects answer =>
      answer = .ok (now, signed) ∧ ((after peer effects).counter : Int) = n)) :
    (check setup manifest reading).result peer = .ok (signed.expires - now) ∧
      (((check setup manifest reading).final peer).counter : Int) = n := by
  obtain ⟨hanswer, hcounter⟩ := h
  obtain ⟨htrace, hresult⟩ := bind_ok (f := fun found : Nat × Signed =>
    (pure (found.2.expires - found.1) : Program Int)) hanswer
  have hsame : (check setup manifest reading).trace peer =
      (checked setup manifest reading).trace peer := htrace.trans (append_nil _)
  refine ⟨hresult, ?_⟩
  rw [final, hsame]
  exact hcounter

/-! ### All of it -/

/-- Over every run the counter only rises, and only toward the sequence of a
    heartbeat signed as the current manifest of that call requires; no check
    relies on less than was accepted before, and what is accepted only rises.
    From wherever the run has come, a cut inside `accept` once the file is
    written is made good by a check while the heartbeat is live. -/
theorem rises_and_recovers (setup : Setup) (peer : Peer) (events : List Event) :
    (∀ earlier event later, events = earlier ++ event :: later →
      Rises setup event.current (World.run setup ⟨peer, []⟩ earlier).peer
        ((World.run setup ⟨peer, []⟩ earlier).step setup event).peer) ∧
    (World.run setup ⟨peer, []⟩ events).log.Pairwise Entry.Before ∧
    ∀ (envelope manifest : Document) (reading later : Reading) (k now : Nat) (ticks : UInt64)
      (signed : Signed) (left : Peer),
      (∃ raw, Effect.write raw ∈ ((accept setup envelope manifest reading).trace
        (World.run setup ⟨peer, []⟩ events).peer).take k) →
      left = (accept setup envelope manifest reading).cut k
        (World.run setup ⟨peer, []⟩ events).peer →
      verify setup.crypto envelope manifest = .ok signed →
      Reads setup later (heldFloor left) now ticks → Live signed now →
      (check setup manifest later).result left = .ok (signed.expires - now) ∧
        (((check setup manifest later).final left).counter : Int) =
          sequenceOf signed.heartbeat := by
  refine ⟨fun earlier event later _ => step_moves _ event, (completed_kept peer events).before, ?_⟩
  rintro envelope manifest reading later k now ticks signed left hcut rfl hverify hreads hlive
  exact check_of_checked (recovered hcut hverify hreads hlive)

/-! ### An example

A peer that was cut while it climbed to the third heartbeat takes the fifth. -/

/-- `accept` goes through: what is owed, the file, and the rest. -/
theorem accept_ok {envelope : Document} {signed held : Signed} {now : Nat} {floor : Floor}
    {raw : Raw} {jump : Int} (hverify : verify setup.crypto envelope manifest = .ok signed)
    (hread : readState peer.file = .ok state)
    (hnow : authenticatedNow setup reading state.floor = .ok (now, floor)) (hlive : Live signed now)
    (hheld : signedBy setup.crypto state.envelope manifest = .ok held)
    (howed : pending state peer.counter ≠ 0)
    (hjump : allowedJump signed.heartbeat state.envelope maxJump = .ok jump)
    (hlow : (peer.counter : Int) + pending state peer.counter < sequenceOf signed.heartbeat)
    (hbound : sequenceOf signed.heartbeat - (peer.counter + pending state peer.counter) ≤
      min jump maxAllowance)
    (hwritten : written ⟨envelope, some floor, some (min jump maxAllowance)⟩ = .ok raw) :
    (accept setup envelope manifest reading).trace peer =
      taking (pending state peer.counter).toNat raw
        (sequenceOf signed.heartbeat - (peer.counter + pending state peer.counter)).toNat := by
  obtain ⟨hpositive, -⟩ := pending_le_sequence hheld howed
  have hok : (signedBy setup.crypto state.envelope manifest).isOk = true := by
    rw [hheld]
    rfl
  refine show Spec (accept setup envelope manifest reading) peer
    (fun effects _ => effects = _) from ?_
  refine Spec.lift_ok hverify (Spec.look (Spec.lift_ok hread ?_))
  refine Spec.lift_ok hnow (Spec.lift_ok (live_eq_ok.mpr ⟨hlive, rfl⟩) ?_)
  refine Spec.bind (finish_spec state) ?_ ?_
  · rintro effects e ⟨n, -, herror, -⟩
    cases herror
  rintro effects u ⟨done, rfl, -, hfinishing, hdone⟩
  rw [finished, if_pos ⟨howed, hok⟩] at hdone
  have hcounter := counter_finishing hfinishing
  have hadvances : advances (sequenceOf signed.heartbeat) (peer.counter + done)
      (min jump maxAllowance) = .ok () := advances_eq_ok.mpr ⟨by omega, by omega⟩
  refine Spec.look (Spec.lift_ok hjump ?_)
  rw [if_pos ⟨howed, hok⟩, add_zero]
  refine Spec.lift_ok (hcounter ▸ hadvances) (Spec.assoc (Spec.lift_ok hwritten (Spec.effect ?_)))
  obtain ⟨more, hmore⟩ := Int.eq_ofNat_of_zero_le (Int.sub_nonneg.mpr hlow.le)
  have hsum : ((Acts.act (after peer (replicate done .increment)) (.write raw)).counter : Int) + more = sequenceOf signed.heartbeat := by
    show ((after peer (replicate done .increment)).counter : Int) + more = _
    rw [hcounter]
    omega
  have hclimb := climb_ok _ hsum (by omega) (hmore ▸ hbound) (sequence_lt (verify_signedBy hverify))
  refine Spec.bind_ok hclimb (Spec.pure ?_)
  rw [hmore, ← hdone]
  simp [taking]

variable (sequence : Int)

/-- A heartbeat of the example, for an hour. -/
def exampleBeat : Value :=
  .obj [("epoch", .num 1), ("expires_at", .str "2026-10-02T10:00:00Z"),
    ("issued_at", .str "2026-10-02T09:00:00Z"),
    ("manifest_digest", .str (Python.digest threeNodes)), ("schema", .str schema),
    ("sequence", .num sequence)]

def exampleEnvelope : Document :=
  ⟨.obj [("heartbeat", exampleBeat sequence),
      ("signatures", .arr [Activation.signatureOf "a", Activation.signatureOf "b"])], by
    have hbeat : ["epoch", "expires_at", "issued_at", "manifest_digest", "schema",
        "sequence"].Pairwise (· < ·) := by decide
    have hall : ["heartbeat", "signatures"].Pairwise (· < ·) := by decide
    exact ⟨hall, ⟨hbeat, trivial, trivial, trivial, trivial, trivial, trivial, trivial⟩,
      ⟨Activation.signatureOf_ordered "a", Activation.signatureOf_ordered "b", trivial⟩, trivial⟩⟩

def exampleSigned : Signed :=
  ⟨exampleBeat sequence, 1790931600, 1790935200, ["a", "b"]⟩

def exampleManifest : Document := ⟨threeNodes, ordered_threeNodes⟩

/-- Every signature verifies, and no time goes backwards. -/
def exampleSetup : Setup := ⟨Activation.exampleLib.crypto, fun _ _ _ => true⟩

def exampleReading : Reading := ⟨true, some 1790931700, some 0⟩

theorem validate_example (sequence : Int) (hlow : 1 ≤ sequence) (hhigh : sequence < 2 ^ 63) :
    validate (exampleBeat sequence) = .ok (1790931600, 1790935200) := by
  have hexact : Python.exact (exampleBeat sequence) heartbeatKeys "heartbeat" = .ok () := by
    refine Python.exact_eq_ok.mpr (exact_of_perm rfl ?_)
    show ["epoch", "expires_at", "issued_at", "manifest_digest", "schema", "sequence"].Perm
      heartbeatKeys
    decide
  have hdigest : Python.hexField (field (exampleBeat sequence) "manifest_digest") 64
      "manifest_digest" = .ok () :=
    Python.hexField_eq_ok.mpr ⟨_, rfl, matchesHex_digest threeNodes⟩
  have hepoch : positiveField (exampleBeat sequence) "epoch" = .ok () := rfl
  have hsequence : positiveField (exampleBeat sequence) "sequence" = .ok () := by
    have hfield : field (exampleBeat sequence) "sequence" = .num sequence := rfl
    unfold positiveField
    rw [require_eq_ok, hfield]
    simpa [asInteger] using ⟨hlow, hhigh⟩
  have htimes : parseTime (.str "2026-10-02T09:00:00Z") "issued_at" = .ok 1790931600 ∧
      parseTime (.str "2026-10-02T10:00:00Z") "expires_at" = .ok 1790935200 := by decide
  have hissued : field (exampleBeat sequence) "issued_at" = .str "2026-10-02T09:00:00Z" := rfl
  have hexpires : field (exampleBeat sequence) "expires_at" = .str "2026-10-02T10:00:00Z" := rfl
  unfold validate
  simp only [steps_eq_ok, hexact, hdigest, hepoch, hsequence, hissued, hexpires, htimes, exists_eq_left', true_and]
  exact ⟨rfl, by decide, by decide, trivial⟩

theorem verify_example (sequence : Int) (hlow : 1 ≤ sequence) (hhigh : sequence < 2 ^ 63) :
    verify exampleSetup.crypto (exampleEnvelope sequence) exampleManifest =
      .ok (exampleSigned sequence) := by
  have hexact : Python.exact (exampleEnvelope sequence) ["heartbeat", "signatures"] "envelope" =
      .ok () := Python.exact_eq_ok.mpr (exact_of_perm rfl (List.Perm.refl _))
  have hbody : field (exampleEnvelope sequence) "heartbeat" = exampleBeat sequence := rfl
  have hsigs : field (exampleEnvelope sequence) "signatures" =
      .arr (["a", "b"].map Activation.signatureOf) := rfl
  have hcounted : Python.countingParties exampleSetup.crypto (some threeNodes)
      (message (exampleBeat sequence)) (.arr (["a", "b"].map Activation.signatureOf)) "heartbeat" =
      .ok ["a", "b"] :=
    Activation.countingParties_example (by decide) (by decide) (by decide) _ _
  have hmeets : Python.meets (field threeNodes "heartbeat_signers") ["a", "b"] = true := by
    decide
  have hsigned : signedBy exampleSetup.crypto (exampleEnvelope sequence) threeNodes =
      .ok (exampleSigned sequence) := by
    unfold signedBy
    rw [if_pos (show schemaOf threeNodes = some .v4 from rfl)]
    unfold signedByQuorum
    simp only [steps_eq_ok, hexact, hbody, hsigs, validate_example sequence hlow hhigh,
      validate_threeNodes, hcounted, hmeets, exists_eq_left', true_and]
    rfl
  have howner : ownerParty ∉ (exampleSigned sequence).parties := by
    show ownerParty ∉ ["a", "b"]
    decide
  show verify exampleSetup.crypto (exampleEnvelope sequence) threeNodes = _
  unfold verify
  simp only [steps_eq_ok, onlyIf_eq_ok, hsigned, exists_eq_left', howner, false_implies, true_and]
  refine ⟨rfl, rfl, ?_, trivial⟩
  show (1790935200 : Int) - 1790931600 ≤ maxLifetime threeNodes
  decide

def exampleFloor : Floor := ⟨1790931700, 0⟩

/-- The state that holds a heartbeat. -/
def exampleState (floor : Option Floor) : State :=
  ⟨exampleEnvelope sequence, floor, some 1000⟩

def exampleRaw (floor : Option Floor) : Raw :=
  ⟨length (exampleState sequence floor).document, some (exampleState sequence floor).document⟩

theorem written_example (sequence : Int) (floor : Option Floor)
    (h : readable maxDepth (exampleState sequence floor).document = true) :
    written (exampleState sequence floor) = .ok (exampleRaw sequence floor) :=
  written_eq_ok.mpr ⟨h, rfl⟩

theorem readState_example (sequence : Int) (floor : Option Floor) (hlow : 1 ≤ sequence)
    (hhigh : sequence < 2 ^ 63)
    (h : readable maxDepth (exampleState sequence floor).document = true) :
    readState (some (exampleRaw sequence floor)) = .ok (exampleState sequence floor) := by
  have hallowed : Allowed (exampleState sequence floor).allowance := by
    rintro a ⟨⟩
    decide
  exact readState_written hallowed (written_example sequence floor h) (length_document_le
    (length_envelope_le (verify_signedBy (verify_example sequence hlow hhigh))) hallowed h)

theorem readable_example : readable maxDepth (exampleState 3 none).document = true ∧
    readable maxDepth (exampleState 3 (some exampleFloor)).document = true ∧
    readable maxDepth (exampleState 5 (some exampleFloor)).document = true := by decide

/-- The third heartbeat is held and the counter is at one. -/
def examplePeer : Peer := ⟨1, some (exampleRaw 3 none)⟩

theorem live_example (sequence : Int) : Live (exampleSigned sequence) (1790931700 : Nat) := by
  constructor
  · show (1790931600 : Int) ≤ 1790931700 + futureSkew
    decide
  · show (1790931700 : Int) < 1790935200
    decide

theorem accept_example :
    (accept exampleSetup (exampleEnvelope 5) exampleManifest exampleReading).trace examplePeer =
      taking 2 (exampleRaw 5 (some exampleFloor)) 2 := by
  have hpending : pending (exampleState 3 none) examplePeer.counter = 2 := by decide
  have hsequence : sequenceOf (exampleSigned 5).heartbeat = 5 := rfl
  have hread : readState examplePeer.file = .ok (exampleState 3 none) :=
    readState_example 3 none (by decide) (by decide) readable_example.1
  have hjump : allowedJump (exampleSigned 5).heartbeat (exampleState 3 none).envelope maxJump =
      .ok 1000 := by decide
  have hcounter : (examplePeer.counter : Int) = 1 := rfl
  have hbound : min 1000 maxAllowance = 1000 := by decide
  have hnow : authenticatedNow exampleSetup exampleReading (exampleState 3 none).floor =
      .ok (1790931700, exampleFloor) := rfl
  have htrace := accept_ok (verify_example 5 (by decide) (by decide)) hread hnow (live_example 5)
    (verify_signedBy (verify_example 3 (by decide) (by decide)))
    (by rw [hpending]; decide) hjump (by rw [hpending, hsequence, hcounter]; decide)
    (by rw [hpending, hsequence, hcounter]; decide)
    (by rw [hbound]; exact written_example 5 _ readable_example.2.2)
  rw [hpending, hsequence, hcounter] at htrace
  exact htrace

theorem reads_example (floor : Option Floor) :
    Reads exampleSetup exampleReading floor 1790931700 0 := ⟨rfl, rfl, rfl, fun _ _ => rfl⟩

/-- Cut once the file is written, with one increment still to make. -/
theorem rises_and_recovers_fifth :
    (check exampleSetup exampleManifest exampleReading).result
      ((accept exampleSetup (exampleEnvelope 5) exampleManifest exampleReading).cut 4
        examplePeer) = .ok 3500 ∧ ((check exampleSetup exampleManifest exampleReading).final
      ((accept exampleSetup (exampleEnvelope 5) exampleManifest exampleReading).cut 4
        examplePeer)).counter = 5 := by
  have hcut : ∃ raw, Effect.write raw ∈ ((accept exampleSetup (exampleEnvelope 5) exampleManifest
      exampleReading).trace examplePeer).take 4 := by
    rw [accept_example]
    exact ⟨exampleRaw 5 (some exampleFloor), by simp [taking]⟩
  obtain ⟨hresult, hcounter⟩ := (rises_and_recovers exampleSetup examplePeer []).2.2
    (exampleEnvelope 5) exampleManifest exampleReading exampleReading 4 1790931700 0
    (exampleSigned 5) _ hcut rfl (verify_example 5 (by decide) (by decide)) (reads_example _)
    (live_example 5)
  have hsequence : sequenceOf (exampleSigned 5).heartbeat = 5 := rfl
  have hexpires : (exampleSigned 5).expires - (1790931700 : Nat) = 3500 := by decide
  rw [hexpires] at hresult
  rw [hsequence] at hcounter
  exact ⟨hresult, Int.ofNat.inj hcounter⟩

/-- Cut while what was owed to the third heartbeat is still being made good, a
    check under the same manifest relies on the third: the fifth is live, and
    was never written. -/
theorem cut_before_written :
    let left := (accept exampleSetup (exampleEnvelope 5) exampleManifest exampleReading).cut 1
      examplePeer
    ((accept exampleSetup (exampleEnvelope 5) exampleManifest exampleReading).trace
      examplePeer).length = 5 ∧
    verify exampleSetup.crypto (exampleEnvelope 5) exampleManifest = .ok (exampleSigned 5) ∧
    sequenceOf (exampleSigned 5).heartbeat = 5 ∧
    Reads exampleSetup exampleReading (heldFloor left) 1790931700 0 ∧
    Live (exampleSigned 5) (1790931700 : Nat) ∧
    ((check exampleSetup exampleManifest exampleReading).final left).counter = 3 := by
  have hleft : (accept exampleSetup (exampleEnvelope 5) exampleManifest exampleReading).cut 1
      examplePeer = ⟨2, some (exampleRaw 3 none)⟩ := by
    unfold cut
    rw [accept_example]
    rfl
  refine ⟨by rw [accept_example]; rfl, verify_example 5 (by decide) (by decide), rfl,
    reads_example _, live_example 5, ?_⟩
  rw [hleft]
  have hread : readState (some (exampleRaw 3 none)) = .ok (exampleState 3 none) :=
    readState_example 3 none (by decide) (by decide) readable_example.1
  have hnow : authenticatedNow exampleSetup exampleReading (exampleState 3 none).floor =
      .ok (1790931700, exampleFloor) := rfl
  have hchecked : Spec (checked exampleSetup exampleManifest exampleReading)
      ⟨2, some (exampleRaw 3 none)⟩ (fun effects answer =>
        answer = .ok (1790931700, exampleSigned 3) ∧
          ((after (⟨2, some (exampleRaw 3 none)⟩ : Peer) effects).counter : Int) = 3) :=
    checked_ok hread hnow (written_example 3 (some exampleFloor) readable_example.2.1)
      (verify_example 3 (by decide) (by decide)) (live_example 3) (by decide) (by decide)
  exact Int.ofNat.inj (check_of_checked hchecked).2

end Regalia.Heartbeat
