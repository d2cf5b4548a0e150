import Regalia.Core.Heartbeat.Clock
import Regalia.Data.Runs
import Regalia.Theory.Membership.Rules

/-!
# The Floor Under the Time

What the floor promises is a bound: the last reading, and 0.85 of what the TPM
has counted since. An accepted reading may be up to `STEP_BACK` below it, and
the comment in the source says that such a reading does not become the new
baseline. It does not where it is below the last reading. Where it is at or
above the last reading and below the bound it does, and the bound moves back
with it: then each of many calls can take a few seconds off.

The bound never moves back exactly in the runs without such a reading
(`floor_never_back_iff`). In them no accepted reading is more than `STEP_BACK`
below the first floor's bound, as long as the readings are small enough for the
comparison in doubles to be the exact one.

## Main definitions

* `Floor.bound`, `boundOf`: The bound a floor stands for.
* `Dips`: A reading that is accepted below the bound and becomes the floor.

## Theorems

* `bound_le_of_notBefore`: What passes in doubles passes exactly.
* `floor_never_back_iff`: When the bound never moves back.
-/

namespace Regalia.Heartbeat

open Option
open Regalia.Membership

variable {setup : Setup} {floor : Option Floor} {reading : Reading}

/-- The bound at a reading of the TPM's clock. -/
def Floor.bound (floor : Floor) (k : Nat) : ℚ := floor.time + 85 / 100 * (k - floor.tpmClock) / 1000

/-- The bound, where there is a floor. -/
def boundOf (floor : Option Floor) (k : Nat) : WithBot ℚ := floor.map (fun f => f.bound k)

/-- An accepted reading that is not below the last one, but below the bound. -/
def Dips (setup : Setup) (floor : Option Floor) (reading : Reading) : Prop :=
  ∃ f now ticks, floor = some f ∧ reading.authenticated = true ∧ reading.seconds = some now ∧
    reading.ticks = some ticks ∧ setup.notBefore f now ticks = true ∧
    f.time ≤ now ∧ (now : ℚ) < f.bound ticks.toNat

/-! ### One call -/

/-- What an accepted call has read, and the floor it leaves. -/
theorem authenticatedNow_eq_ok {now : Nat} {next : Floor} :
    authenticatedNow setup reading floor = .ok (now, next) ↔
      reading.authenticated = true ∧ reading.seconds = some now ∧
      ∃ ticks, reading.ticks = some ticks ∧
        match floor with
        | none => next = ⟨now, ticks.toNat⟩
        | some f => setup.notBefore f now ticks = true ∧
            next = if f.time ≤ now then ⟨now, ticks.toNat⟩ else f := by
  cases floor with
  | none =>
    simp only [authenticatedNow, steps_eq_ok, Prod.mk.injEq]
    constructor
    · rintro ⟨hauth, _, hseconds, ticks, hticks, rfl, rfl⟩
      exact ⟨hauth, hseconds, ticks, hticks, rfl⟩
    · rintro ⟨hauth, hseconds, ticks, hticks, rfl⟩
      exact ⟨hauth, now, hseconds, ticks, hticks, rfl, rfl⟩
  | some f =>
    simp only [authenticatedNow, steps_eq_ok, Prod.mk.injEq]
    constructor
    · rintro ⟨hauth, _, hseconds, ticks, hticks, hnot, rfl, rfl⟩
      exact ⟨hauth, hseconds, ticks, hticks, hnot, rfl⟩
    · rintro ⟨hauth, hseconds, ticks, hticks, hnot, rfl⟩
      exact ⟨hauth, now, hseconds, ticks, hticks, hnot, rfl, rfl⟩

/-- A floor is replaced by an accepted reading that is not below it, and by
    nothing else. -/
theorem floorAfter_some_cases (setup : Setup) (f : Floor) (reading : Reading) :
    floorAfter setup (some f) reading = some f ∨
    ∃ now ticks, reading.authenticated = true ∧ reading.seconds = some now ∧
      reading.ticks = some ticks ∧ setup.notBefore f now ticks = true ∧ f.time ≤ now ∧
      floorAfter setup (some f) reading = some ⟨now, ticks.toNat⟩ := by
  unfold floorAfter
  cases hcall : authenticatedNow setup reading (some f) with
  | error err => exact .inl rfl
  | ok result =>
    rcases authenticatedNow_eq_ok.mp hcall with ⟨hauth, hseconds, ticks, hticks, hnot, hnext⟩
    by_cases hle : f.time ≤ result.1
    · rw [if_pos hle] at hnext
      exact .inr ⟨result.1, ticks, hauth, hseconds, hticks, hnot, hle, congrArg some hnext⟩
    · rw [if_neg hle] at hnext
      exact .inl (congrArg some hnext)

/-- Two floors are apart by the same at every reading of the TPM's clock. -/
theorem bound_le_bound_iff (f : Floor) (now ticks k : Nat) :
    f.bound k ≤ (⟨now, ticks⟩ : Floor).bound k ↔ f.bound ticks ≤ now := by
  unfold Floor.bound
  constructor <;> intro h <;> linarith

/-- The bound moves back in a call exactly where the reading dips. -/
theorem bound_rises_iff :
    (∀ k, boundOf floor k ≤ boundOf (floorAfter setup floor reading) k) ↔
      ¬ Dips setup floor reading := by
  cases floor with
  | none => exact ⟨fun _ => nofun, fun _ _ => bot_le⟩
  | some f =>
    constructor
    · rintro hrises ⟨_, now, ticks, ⟨⟩, hauth, hseconds, hticks, hnot, hle, hdips⟩
      have hcall : authenticatedNow setup reading (some f) = .ok (now, ⟨now, ticks.toNat⟩) :=
        authenticatedNow_eq_ok.mpr ⟨hauth, hseconds, ticks, hticks, hnot, (if_pos hle).symm⟩
      have hbound := hrises 0
      rw [floorAfter, hcall] at hbound
      have hbound := (bound_le_bound_iff f now ticks.toNat 0).mp (WithBot.coe_le_coe.mp hbound)
      exact absurd hbound (not_le.mpr hdips)
    · intro hdips k
      rcases floorAfter_some_cases setup f reading with hsame |
        ⟨now, ticks, hauth, hseconds, hticks, hnot, hle, hnext⟩
      · rw [hsame]
      · rw [hnext]
        refine WithBot.coe_le_coe.mpr ((bound_le_bound_iff f now ticks.toNat k).mpr ?_)
        by_contra hlow
        exact hdips ⟨f, now, ticks, rfl, hauth, hseconds, hticks, hnot, hle, not_le.mp hlow⟩

/-! ### The comparison in doubles -/

/-- What is left of a number after a rounding. -/
theorem mul_le_round64 {x : ℚ} (hx : 0 ≤ x) : (1 - 1 / 2 ^ 53) * x ≤ round64 x := by
  have hround := le_round64 hx
  linarith

/-- Five roundings are between the exact bound and the one that is compared. -/
theorem bound_mul_le_lowest {f : Floor} {ticks : UInt64} {low : ℚ} (h : lowest f ticks = some low) :
    (1 - 1 / 2 ^ 53) ^ 5 *
      (f.time + 85 / 100 * ((ticks.toNat - f.tpmClock : Nat) : ℚ) / 1000) ≤ low := by
  simp only [lowest, toDouble, bind_eq_bind, bind_eq_some_iff,
    ite_none_right_eq_some, pure_def, Option.some.injEq] at h
  rcases h with ⟨_, ⟨-, rfl⟩, rfl⟩
  generalize hd : ((ticks.toNat - f.tpmClock : Nat) : ℚ) = d
  generalize hc : (1 - 1 / 2 ^ 53 : ℚ) = c
  have hc0 : 0 ≤ c := by rw [← hc]; norm_num
  have hc1 : c ≤ 1 := by rw [← hc]; norm_num
  have hd0 : 0 ≤ d := by rw [← hd]; exact Nat.cast_nonneg _
  have hround : ∀ {x : ℚ}, 0 ≤ x → c * x ≤ round64 x := by
    intro x hx
    rw [← hc]
    exact mul_le_round64 hx
  have hrate : c * (85 / 100) ≤ tpmClockRate := hround (by norm_num)
  have hrate0 : 0 ≤ tpmClockRate := round64_nonneg (by norm_num)
  have hticks0 : 0 ≤ round64 d := round64_nonneg hd0
  have hproduct0 : 0 ≤ round64 (round64 d * tpmClockRate) :=
    round64_nonneg (mul_nonneg hticks0 hrate0)
  have helapsed : c ^ 4 * (85 / 100 * d / 1000) ≤ elapsed f ticks := by
    unfold elapsed
    rw [hd]
    calc c ^ 4 * (85 / 100 * d / 1000) = c * (c * ((c * d) * (c * (85 / 100))) / 1000) := by ring
      _ ≤ c * (c * (round64 d * tpmClockRate) / 1000) := by
        gcongr
        exact hround hd0
      _ ≤ c * (round64 (round64 d * tpmClockRate) / 1000) := by
        gcongr
        exact hround (mul_nonneg hticks0 hrate0)
      _ ≤ round64 (round64 (round64 d * tpmClockRate) / 1000) :=
        hround (div_nonneg hproduct0 (by norm_num))
  have helapsed0 : 0 ≤ elapsed f ticks := by
    unfold elapsed
    rw [hd]
    exact round64_nonneg (div_nonneg hproduct0 (by norm_num))
  have htime : c ^ 4 * f.time ≤ round64 f.time := by
    have hpow : c ^ 3 ≤ 1 := pow_le_one₀ hc0 hc1
    calc c ^ 4 * (f.time : ℚ) = c ^ 3 * (c * f.time) := by ring
      _ ≤ 1 * (c * f.time) := by gcongr
      _ = c * f.time := one_mul _
      _ ≤ round64 f.time := hround (Nat.cast_nonneg _)
  calc c ^ 5 * (f.time + 85 / 100 * d / 1000)
      = c * (c ^ 4 * f.time + c ^ 4 * (85 / 100 * d / 1000)) := by ring
    _ ≤ c * (round64 f.time + elapsed f ticks) := by gcongr
    _ ≤ round64 (round64 f.time + elapsed f ticks) :=
      hround (add_nonneg (round64_nonneg (Nat.cast_nonneg _)) helapsed0)

/-- What passes in doubles passes exactly: the bound is a multiple of 1/20000,
    and up to 2 ^ 36 seconds five roundings are less than that. -/
theorem bound_le_of_notBefore {f : Floor} {now : Nat} {ticks : UInt64}
    (h : notBefore f now ticks = true) (hsmall : now + stepBack < 2 ^ 36) :
    f.bound ticks.toNat ≤ (now + stepBack : Nat) := by
  rcases (any_eq_true ..).mp h with ⟨low, hsome, hlow⟩
  have hexact := (bound_mul_le_lowest hsome).trans (of_decide_eq_true hlow)
  generalize hd : ticks.toNat - f.tpmClock = d at hexact
  have hsteps : 20000 * f.time + 17 * d ≤ 20000 * (now + stepBack) := by
    by_contra hover
    have hover : ((20000 * (now + stepBack) + 1 : Nat) : ℚ) ≤ (20000 * f.time + 17 * d : Nat) :=
      Nat.cast_le.mpr (by omega)
    have hsmall : ((now + stepBack : Nat) : ℚ) ≤ 2 ^ 36 := by exact_mod_cast hsmall.le
    push_cast at hover hexact hsmall
    norm_num at hexact
    linarith
  have hticks : ((ticks.toNat : ℚ) - f.tpmClock) ≤ d := by
    rw [← hd, sub_le_iff_le_add]
    exact_mod_cast (le_tsub_add : ticks.toNat ≤ ticks.toNat - f.tpmClock + f.tpmClock)
  have hsteps : (20000 * f.time + 17 * d : ℚ) ≤ 20000 * (now + stepBack : Nat) := by
    exact_mod_cast hsteps
  unfold Floor.bound
  linarith

/-! ### Runs -/

/-- While the bound does not move back, it stays above the first one. -/
theorem boundOf_run_le {readings : List Reading} (k : Nat)
    (h : Throughout (fun f r => ¬ Dips setup f r) (floorAfter setup) floor readings) :
    boundOf floor k ≤ boundOf (readings.foldl (floorAfter setup) floor) k := by
  refine h.invariant (P := fun f => boundOf floor k ≤ boundOf f k) ?_ le_rfl
  intro f r hle hdips
  exact hle.trans (bound_rises_iff.mpr hdips k)

/-- For every run from any floor: the bound never moves back if and only if no
    reading dips, and then no accepted reading is more than `STEP_BACK` below
    the bound of the first floor. -/
theorem floor_never_back_iff (crypto : Crypto) (floor : Option Floor) (readings : List Reading) :
    ((∀ k, Throughout (fun f r => boundOf f k ≤ boundOf (floorAfter (inDoubles crypto) f r) k)
        (floorAfter (inDoubles crypto)) floor readings) ↔
      Throughout (fun f r => ¬ Dips (inDoubles crypto) f r)
        (floorAfter (inDoubles crypto)) floor readings) ∧
    (Throughout (fun f r => ¬ Dips (inDoubles crypto) f r)
        (floorAfter (inDoubles crypto)) floor readings →
      ∀ first ∈ floor, ∀ before reading after, readings = before ++ reading :: after →
        ∀ now next ticks, authenticatedNow (inDoubles crypto) reading
            (before.foldl (floorAfter (inDoubles crypto)) floor) = .ok (now, next) →
          reading.ticks = some ticks → now + stepBack < 2 ^ 36 →
          first.bound ticks.toNat ≤ (now + stepBack : Nat)) := by
  refine ⟨?_, ?_⟩
  · rw [throughout_forall]
    exact throughout_congr (fun f r => bound_rises_iff)
  · rintro hdips first hfirst before reading after rfl now next ticks hcall hticks hsmall
    have hrun := boundOf_run_le ticks.toNat hdips.split.1
    rw [mem_def.mp hfirst] at hrun
    cases hfloor : before.foldl (floorAfter (inDoubles crypto)) (some first) with
    | none =>
      rw [hfloor] at hrun
      exact absurd hrun (WithBot.not_coe_le_bot _)
    | some f =>
      rw [mem_def.mp hfirst, hfloor] at hcall
      rw [hfloor] at hrun
      rcases authenticatedNow_eq_ok.mp hcall with ⟨-, -, _, hticks', hnot, -⟩
      cases hticks'.symm.trans hticks
      exact (WithBot.coe_le_coe.mp hrun).trans (bound_le_of_notBefore hnot hsmall)

/-! ### A clock that falls behind -/

def readingAt (seconds : Nat) (ticks : UInt64) : Reading := ⟨true, some seconds, some ticks⟩

/-- No signature matters here. -/
def exampleClock : Setup := inDoubles ⟨fun _ _ _ => false, fun _ _ _ _ => false⟩

/-- Twice in twenty seconds of the TPM's clock a reading is taken 4.5 seconds
    below the bound and becomes the floor. The second is nine seconds below the
    bound of the first floor. -/
theorem floor_moves_back :
    authenticatedNow exampleClock (readingAt 104 10000) (some ⟨100, 0⟩) =
      .ok (104, ⟨104, 10000⟩) ∧
    authenticatedNow exampleClock (readingAt 108 20000) (some ⟨104, 10000⟩) =
      .ok (108, ⟨108, 20000⟩) ∧
    (⟨104, 10000⟩ : Floor).bound 10000 < (⟨100, 0⟩ : Floor).bound 10000 ∧
    ((108 + stepBack : Nat) : ℚ) < (⟨100, 0⟩ : Floor).bound 20000 := by
  have hnot : notBefore ⟨100, 0⟩ 104 10000 = true ∧ notBefore ⟨104, 10000⟩ 108 20000 = true := by
    decide +kernel
  refine ⟨?_, ?_, ?_, ?_⟩
  · exact authenticatedNow_eq_ok.mpr ⟨rfl, rfl, 10000, rfl, hnot.1, rfl⟩
  · exact authenticatedNow_eq_ok.mpr ⟨rfl, rfl, 20000, rfl, hnot.2, rfl⟩
  · norm_num [Floor.bound]
  · norm_num [Floor.bound, stepBack]

end Regalia.Heartbeat
