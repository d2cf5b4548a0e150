import Regalia.Core.Heartbeat.Beat
import Regalia.Data.JsonSpaced
import Regalia.Data.Traced

/-!
# Freshness

`deploy/baremetal/heartbeat.py`, `Freshness`: how a peer takes a heartbeat and
how it later relies on the one it holds. The heartbeat, the bound it was taken
under and the time floor are in a file that can be restored or forged; the
highest accepted sequence is a TPM counter.

Both operations are programs with a trace, whose effects are the writing of the
file and the increments of the counter. A power cut leaves a prefix of them, and
so does a disk or a TPM that fails.

The file is known by its size and what parses of it. What `json.dumps` writes
parses as what was written, unless it is too large, too deep or has a number
with more digits than Python converts.

## Main definitions

* `Raw`, `State`, `readState`, `written`: The file and what it holds.
* `authenticatedNow`: The time, and the floor under the next reading.
* `pending`: What the counter is still owed.
* `accept`, `check`: The two operations.
* `World`, `World.step`: A peer over any number of calls.
-/

namespace Regalia.Heartbeat

open Regalia.Membership

/-- `FUTURE_SKEW`. -/
def futureSkew : Int := 300

/-- `MAX_BYTES`: of the state. -/
def maxStateBytes : Nat := 16 * 1024

/-- `membership.MAX_DEPTH`. -/
def maxDepth : Nat := 64

/-- Python converts no number of more digits, in either direction. -/
def maxDigits : Nat := 4300

/-- `Counter.WRAP`. -/
def wrap : Nat := 2 ^ 64

/-! ### The state file -/

/-- What can be read: not too deep, and no number too long. -/
def readable : Nat → Value → Bool
  | _, .null | _, .bool _ | _, .str _ => true
  | _, .num n => (Nat.toDigits 10 n.natAbs).length ≤ maxDigits
  | depth + 1, .arr items => items.all (readable depth)
  | depth + 1, .obj fields => fields.all (fun f => readable depth f.2)
  | 0, .arr _ | 0, .obj _ => false

/-- A file: its size, and the document it parses as. -/
structure Raw where
  size : Nat
  parsed : Option Document

/-- The time floor: the last reading, and the TPM clock at that moment. -/
structure Floor where
  time : Nat
  tpmClock : Nat
  deriving DecidableEq

structure State where
  envelope : Document
  floor : Option Floor
  allowance : Option Int

/-- `membership.load`. -/
def load (raw : Raw) : Check Document := do
  let document ← demand raw.parsed "not valid JSON: %s" []
  require (readable maxDepth document) "not valid JSON: %s" []
  return document

/-- An integer from zero on, and no bool. -/
def asCount : Value → Option Nat
  | .num n => if 0 ≤ n then some n.toNat else none
  | _ => none

/-- `validate_floor`, and the floor. -/
def floorOf (v : Value) : Check (Option Floor) :=
  if v = .null then .ok none
  else do
    Python.exact v ["time", "tpm_clock"] "floor"
    let time ← demand (asCount (field v "time")) "floor must be integers" []
    let tpmClock ← demand (asCount (field v "tpm_clock")) "floor must be integers" []
    return some ⟨time, tpmClock⟩

def allowanceOf (v : Value) : Check (Option Int) :=
  if v = .null then .ok none
  else do
    let allowance ← demand ((asInteger v).filter (fun n => 1 ≤ n && n ≤ maxAllowance))
      "the stored allowance is out of range" []
    return some allowance

/-- `state.setdefault("allowance", None)`. -/
def setDefault : Value → Value
  | .obj fields =>
    if hasField (.obj fields) "allowance" then .obj fields else .obj (("allowance", .null) :: fields)
  | v => v

/-- `_read`. -/
def readState : Option Raw → Check State
  | none => .ok ⟨⟨.null, trivial⟩, none, none⟩
  | some raw => do
    require (raw.size ≤ maxStateBytes) "the freshness state is oversized" []
    let document ← load raw
    require (isObject document) "the freshness state must be an object" []
    let state := setDefault document
    Python.exact state ["envelope", "floor", "allowance"] "freshness state"
    let floor ← floorOf (field state "floor")
    let allowance ← allowanceOf (field state "allowance")
    return ⟨⟨field document "envelope", Ordered.field document.2 "envelope"⟩, floor, allowance⟩

def Floor.value (floor : Floor) : Value :=
  .obj [("time", .num floor.time), ("tpm_clock", .num floor.tpmClock)]

def floorValue (floor : Option Floor) : Value := (floor.map Floor.value).getD .null

def allowanceValue (allowance : Option Int) : Value := (allowance.map Json.num).getD .null

theorem floorValue_ordered (floor : Option Floor) : (floorValue floor).Ordered := by
  cases floor with
  | none => trivial
  | some floor => exact ⟨(by decide : ["time", "tpm_clock"].Pairwise (· < ·)), trivial,
      trivial, trivial⟩

theorem allowanceValue_ordered (allowance : Option Int) : (allowanceValue allowance).Ordered := by
  cases allowance <;> trivial

/-- The document that is written, its names in order. -/
def State.document (state : State) : Document :=
  ⟨.obj [("allowance", allowanceValue state.allowance), ("envelope", state.envelope),
      ("floor", floorValue state.floor)],
    ⟨(by decide : ["allowance", "envelope", "floor"].Pairwise (· < ·)),
      allowanceValue_ordered _, state.envelope.2, floorValue_ordered _, trivial⟩⟩

/-- The file `_write` leaves. -/
def written (state : State) : Check Raw := do
  -- what was read or verified is never deeper than what can be read
  require (readable maxDepth state.document)
    "Exceeds the limit (%d digits) for integer string conversion" [.number maxDigits]
  return ⟨(Json.spaced asciiQuoting state.document.1).length, some state.document⟩

/-! ### Time -/

/-- What the two clocks answer: the time where it is a number from zero on, and
    the TPM's clock where it can be read. -/
structure Reading where
  authenticated : Bool
  seconds : Option Nat
  ticks : Option UInt64

/-- What the peer's code is given: the signature library, and the comparison of
    a reading with the floor, `seconds + STEP_BACK >= floor["time"] + max(0,
    ticks - floor["tpm_clock"]) * TPM_CLOCK_RATE / 1000`, which is made in
    floating point. -/
structure Setup where
  crypto : Crypto
  notBefore : Floor → Nat → UInt64 → Bool

variable (setup : Setup)

/-- `authenticated_now`: the time, and the floor to store. -/
def authenticatedNow (reading : Reading) (floor : Option Floor) :
    Check (Nat × Floor) := do
  require reading.authenticated
    "time is not authenticated: an expiry cannot be judged (fail closed)" []
  let seconds ← demand reading.seconds "the clock returned no time" []
  let ticks ← demand reading.ticks "the TPM clock cannot be read" []
  match floor with
  | none => return (seconds, ⟨seconds, ticks.toNat⟩)
  | some floor => do
    require (setup.notBefore floor seconds ticks)
      "the clock went backwards: it reads %d, and it was at least %d at an earlier check"
      [.number seconds, .number floor.time]
    -- a small step back does not become the new baseline
    return (seconds, if floor.time ≤ seconds then ⟨seconds, ticks.toNat⟩ else floor)

/-- `_live`: the seconds left. -/
def live (signed : Signed) (now : Int) : Check Int := do
  require (signed.issued ≤ now + futureSkew) "the heartbeat is issued in the future (%s)"
    [.value (field signed.heartbeat "issued_at")]
  require (now < signed.expires) "EXPIRED: the heartbeat expired at %s"
    [.value (field signed.heartbeat "expires_at")]
  return signed.expires - now

/-! ### The counter -/

/-- The counter's value, and the state file if there is one. -/
structure Peer where
  counter : Nat
  file : Option Raw

inductive Effect where
  | write (raw : Raw)
  | increment

instance : Acts Peer Effect where
  act peer
    | .write raw => { peer with file := some raw }
    | .increment => { peer with counter := (peer.counter + 1) % wrap }

abbrev Program := Traced Peer Effect Refused

/-- The loop of `_advance`: so many increments, each read back. -/
def increments : Nat → Program Unit
  | 0 => pure ()
  | n + 1 => do
    let peer ← Traced.look
    Traced.effect .increment
    let next ← Traced.look
    require (next.counter = peer.counter + 1) "the NV counter did not advance by one (%d -> %d)"
      [.number peer.counter, .number next.counter]
    increments n

/-- `Counter.advance`. -/
def climb (sequence bound : Int) : Program Unit := do
  let peer ← Traced.look
  advances sequence peer.counter bound
  increments (sequence - peer.counter).toNat

/-- An advance that is made under a condition. -/
def climbIf (condition : Prop) [Decidable condition] (sequence bound : Int) : Program Unit :=
  if condition then climb sequence bound else pure ()

/-- `pending`: how far the counter is still owed toward the held heartbeat. -/
def pending (state : State) (held : Nat) : Int :=
  match Python.asInt (field (field state.envelope "heartbeat") "sequence") with
  | some sequence => max 0 (min (sequence - held) (state.allowance.getD maxJump))
  | none => 0

/-! ### The two operations -/

/-- `_write`. -/
def write (state : State) : Program Unit := do
  let raw ← liftM (written state)
  Traced.effect (.write raw)

/-- `accept`: the seconds a new heartbeat has left. -/
def accept (envelope manifest : Document) (reading : Reading) : Program Int := do
  let signed ← liftM (verify setup.crypto envelope manifest)
  let peer ← Traced.look
  let state ← liftM (readState peer.file)
  let now ← liftM (authenticatedNow setup reading state.floor)
  let left ← liftM (live signed now.1)
  -- an advance a crash interrupted is finished first, if the held heartbeat is
  -- signed as the current manifest requires; if not, its gap widens the bound
  let owed := pending state peer.counter
  let finishes := owed ≠ 0 ∧ (signedBy setup.crypto state.envelope manifest).isOk
  let widen := if finishes then 0 else owed
  climbIf finishes (peer.counter + owed) (state.allowance.getD maxJump)
  let peer ← Traced.look
  let jump ← liftM (allowedJump signed.heartbeat state.envelope maxJump)
  let allowance := min (jump + widen) maxAllowance
  let sequence := sequenceOf signed.heartbeat
  liftM (advances sequence peer.counter allowance)
  -- disk first, then the counter
  write { envelope := envelope, floor := now.2, allowance := allowance }
  climb sequence allowance
  return left

/-- `_checked`: the time, and the heartbeat relied on. -/
def checked (manifest : Document) (reading : Reading) :
    Program (Nat × Signed) := do
  let peer ← Traced.look
  let state ← liftM (readState peer.file)
  let now ← liftM (authenticatedNow setup reading state.floor)
  -- the floor moves whatever follows
  write { state with floor := now.2 }
  liftM (require (state.envelope.1 ≠ .null)
    "no heartbeat is held: nothing shows the membership is current" [])
  let signed ← liftM (verify setup.crypto state.envelope manifest)
  let sequence := sequenceOf signed.heartbeat
  liftM (require (peer.counter ≤ sequence)
    "ROLLBACK: the heartbeat on disk is sequence %d but the TPM counter is %d; wait for a newer heartbeat"
    [.number sequence, .number peer.counter])
  let _ ← liftM (live signed now.1)
  climbIf (peer.counter < sequence) sequence (state.allowance.getD maxJump)
  return (now.1, signed)

/-- `check`: the seconds the heartbeat relied on has left. -/
def check (manifest : Document) (reading : Reading) : Program Int := do
  let found ← checked setup manifest reading
  return found.2.expires - found.1

/-! ### A peer over time -/

/-- A call, cut after a number of effects or not, or the file replaced. -/
inductive Event where
  | accept (envelope manifest : Document) (reading : Reading) (cut : Option Nat)
  | check (manifest : Document) (reading : Reading) (cut : Option Nat)
  | replace (file : Option Raw)

/-- What completed: an acceptance, or a check with the heartbeat it relied on. -/
inductive Entry where
  | accepted (heartbeat : Value)
  | relied (heartbeat : Value)

/-- A peer, and a record of what completed, which no code reads. -/
structure World where
  peer : Peer
  log : List Entry

/-- What a call leaves: the state, and an entry if it completed. -/
def World.call {α : Type} (world : World) (program : Program α) (cut : Option Nat)
    (entry : α → Entry) : World :=
  match cut with
  | some n => { world with peer := program.cut n world.peer }
  | none =>
    match program.result world.peer with
    | .ok a => ⟨program.final world.peer, world.log ++ [entry a]⟩
    | .error _ => { world with peer := program.final world.peer }

def World.step (world : World) : Event → World
  | .accept envelope manifest reading cut =>
    world.call (accept setup envelope manifest reading) cut
      (fun _ => .accepted (field envelope "heartbeat"))
  | .check manifest reading cut =>
    world.call (checked setup manifest reading) cut (fun found => .relied found.2.heartbeat)
  | .replace file => { world with peer := { world.peer with file := file } }

def World.run (world : World) (events : List Event) : World :=
  events.foldl (World.step setup) world

end Regalia.Heartbeat
