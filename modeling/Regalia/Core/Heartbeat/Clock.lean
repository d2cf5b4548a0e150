import Regalia.Core.Heartbeat.Freshness
import Regalia.Data.Binary64

/-!
# The Comparison With the Floor

`deploy/baremetal/heartbeat.py`, `authenticated_now`: a reading may be a few
seconds below the floor, which is the last reading and the time the TPM has
counted since. Python makes the sum and the product in doubles and compares the
result with an integer exactly.

## Main definitions

* `lowest`: The floor at a reading of the TPM's clock.
* `notBefore`: Whether a reading is late enough.
* `floorAfter`: The floor after a call.
-/

namespace Regalia.Heartbeat

/-- `STEP_BACK`. -/
def stepBack : Nat := 5

/-- `TPM_CLOCK_RATE`. -/
def tpmClockRate : ℚ := round64 (85 / 100)

/-- An integer as a double, where there is one. -/
def toDouble (n : Nat) : Option ℚ := if round64 n < 2 ^ 1024 then some (round64 n) else none

/-- `elapsed`. -/
def elapsed (floor : Floor) (ticks : UInt64) : ℚ :=
  round64 (round64 (round64 ((ticks.toNat - floor.tpmClock : Nat) : ℚ) * tpmClockRate) / 1000)

/-- `lowest`. -/
def lowest (floor : Floor) (ticks : UInt64) : Option ℚ := do
  let time ← toDouble floor.time
  return round64 (time + elapsed floor ticks)

/-- `seconds + STEP_BACK >= lowest`; an integer that is no double raises. -/
def notBefore (floor : Floor) (seconds : Nat) (ticks : UInt64) : Bool :=
  (lowest floor ticks).any (fun low => low ≤ ((seconds + stepBack : Nat) : ℚ))

/-- The code with its own comparison. -/
def inDoubles (crypto : Membership.Crypto) : Setup := ⟨crypto, notBefore⟩

/-- The floor the next call is given: a call that is refused returns none. -/
def floorAfter (setup : Setup) (floor : Option Floor) (reading : Reading) : Option Floor :=
  match authenticatedNow setup reading floor with
  | .ok (_, next) => some next
  | .error _ => floor

end Regalia.Heartbeat
