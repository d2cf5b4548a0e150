import Regalia.Core.Attest.Policy
import Mathlib.Algebra.Order.Floor.Defs
import Mathlib.Data.Rat.Floor

/-!
# The Attestation Verifier

`deploy/baremetal/attest.py`, class `Verifier`: enrolment of an attestation key
in two steps, nonces, and the verification of a quote. The state is a file, and
every call reads it, changes it and saves it under an exclusive lock, so the
calls of any number of processes come one after another. A save may fail and
leave the file as it was, or be the last thing a process does.

The clock and the random bytes of a call are its arguments. So is the policy:
two processes need not hold the same.

## Main definitions

* `State`, `Record`: What the file holds.
* `Save`: How a save ends.
* `challenge`, `enroll`, `nonce`, `verify`: The calls.
* `checkCounters`: A quote's counters against the last accepted ones.
-/

namespace Regalia.Attest

open Regalia.Membership

def nonceTtl : Int := 120

def maxOutstanding : Nat := 8

/-! ### State -/

structure Pending where
  akPublic : Bytes
  secretSha256 : Bytes
  expires : Int
  deriving DecidableEq

/-- The last accepted boot: counters, and the hashes of its session and key. -/
structure Boot where
  counters : Nat × Nat
  session : Bytes
  key : Bytes
  deriving DecidableEq

structure Measurement where
  label : String
  epoch : Int
  phase : Option Phase
  deriving DecidableEq

/-- What is known of a node. -/
structure Record where
  pending : Option Pending := none
  akPublic : Option Bytes := none
  boot : Option Boot := none
  sessions : List Bytes := []
  measurement : Option Measurement := none
  deriving DecidableEq

/-- A nonce that may be used: to whom and until when, and its place in the
    order of all that were ever issued. -/
structure Issued where
  node : String
  expires : Int
  number : Nat
  deriving DecidableEq

structure State where
  nodes : String → Record
  nonces : List (Bytes × Issued)
  issued : Nat

namespace State

/-- The state before the first call, where there is no file. -/
def empty : State := ⟨fun _ => {}, [], 0⟩

def update (state : State) (node : String) (record : Record) : State :=
  { state with nodes := Function.update state.nodes node record }

def outstanding (state : State) (nonce : Bytes) : Option Issued := state.nonces.lookup nonce

/-- `state["nonces"].pop`. -/
def pop (state : State) (nonce : Bytes) : State :=
  { state with nonces := state.nonces.filter (fun p => p.1 ≠ nonce) }

end State

/-! ### Saves -/

/-- How a save ends: it is done, or it fails and the file is as it was, or the
    file is written and the call ends there. -/
inductive Save where
  | done
  | failed
  | last
  deriving DecidableEq

inductive Answer (α : Type) where
  | returned (a : α)
  | refused (r : Refused)
  | lost

def answerOf {α : Type} : Check α → Answer α
  | .ok a => .returned a
  | .error r => .refused r

def stateFull : Refused :=
  ⟨"the verifier state is full (%d KiB): archive it deliberately; nothing was recorded",
    [.number 4096]⟩

/-- A save, and what the call does after it. -/
def saving {α : Type} (save : Save) (before after : State) (next : State × Answer α) :
    State × Answer α :=
  match save with
  | .done => next
  | .failed => (before, .refused stateFull)
  | .last => (after, .lost)

/-! ### Enrolment -/

variable (policy : Policy) (c : Call)

def policyOf (node : String) : Check NodePolicy :=
  demand (policy.lookup node) "unknown node: not in the policy" []

/-- The seconds of a time, as `int` gives them. -/
def wholeSeconds (t : Rat) : Int := if t < 0 then ⌈t⌉ else ⌊t⌋

structure Challenge where
  node : String
  ekPublic : Bytes
  akPublic : Bytes
  replace : Bool
  akName : Option String
  secret : Bytes
  /-- The tool made the credential. -/
  wrapped : Bool
  now : Rat

def hexString (bytes : Bytes) : String := String.ofList (hexText bytes)

/-- What `challenge` asks. -/
def checkChallenge (c : Challenge) (record : Record) : Check Unit := do
  let expected ← policyOf policy c.node
  require (c.ekPublic.length ≤ 1024 ∧ c.akPublic.length ≤ 1024) "a public area exceeds 1 KiB" []
  let area ← publicArea c.ekPublic "the EK public area"
  require (hexString (nameOf area) = expected.ekName)
    "the EK is not the one recorded for this node at intake" []
  let (offered, _) ← akIdentity c.akPublic
  require (∀ name ∈ c.akName, matchesHex 68 name = true)
    "the manifest's ak_name must be 68 lowercase hex" []
  require (∀ name ∈ c.akName, hexString offered = name)
    "the AK offered is not the one the manifest names for this node" []
  require (c.wrapped = true) "tpm2_makecredential failed: %s" []
  require (c.replace = true ∨ record.akPublic = none)
    "the node already has an enrolled AK: enrolling another replaces its attestation identity (pass replace to do that deliberately)"
    []

def challenge (c : Challenge) (save : Save) (state : State) :
    State × Answer Unit :=
  let record := state.nodes c.node
  match checkChallenge policy c record with
  | .error r => (state, .refused r)
  | .ok () =>
    let pending : Pending := ⟨c.akPublic, Sha256.sum c.secret, wholeSeconds c.now + nonceTtl⟩
    let after := state.update c.node { record with pending := some pending }
    saving save state after (after, .returned ())

structure Enrol where
  node : String
  secret : Bytes
  akName : Option String
  now : Rat

/-- What `enroll` asks of a pending challenge. -/
def checkEnrol (e : Enrol) (pending : Option Pending) : Check Bytes := do
  let p ← demand pending "no enrollment challenge is outstanding for this node" []
  require (e.now ≤ p.expires) "the enrollment challenge expired" []
  require (Sha256.sum e.secret = p.secretSha256)
    "the activated credential is not the secret that was wrapped: the AK is not in the TPM with this EK"
    []
  require (∀ given ∈ e.akName, matchesHex 68 given = true ∧
      (akIdentity p.akPublic).toOption.any (fun id => hexString id.1 = given) = true)
    "the AK challenged is not the one the manifest names for this node now: nothing was enrolled" []
  return p.akPublic

def enroll (e : Enrol) (popping storing : Save) (state : State) :
    State × Answer Bytes :=
  match policyOf policy e.node with
  | .error r => (state, .refused r)
  | .ok _ =>
    let record := state.nodes e.node
    let popped := state.update e.node { record with pending := none }
    saving popping state popped <|
      match checkEnrol e record.pending with
      | .error r => (popped, .refused r)
      | .ok akPublic =>
        let after := state.update e.node { record with pending := none, akPublic := some akPublic }
        saving storing popped after (after, answerOf ((akIdentity akPublic).map Prod.fst))

/-! ### Nonces -/

structure Draw where
  node : String
  nonce : Bytes
  now : Rat

/-- The outstanding nonces after the expired ones, and the oldest of a node
    that has too many. -/
def dropOld (nonces : List (Bytes × Issued)) (node : String) (now : Rat) : List (Bytes × Issued) :=
  let live := nonces.filter (fun p => now ≤ p.2.expires)
  let mine := (live.filter (fun p => p.2.node = node)).insertionSort
    (fun a b => a.2.number ≤ b.2.number)
  let old := (mine.take (mine.length - maxOutstanding + 1)).map Prod.fst
  if maxOutstanding ≤ mine.length then live.filter (fun p => p.1 ∉ old) else live

def nonce (policy : Policy) (d : Draw) (save : Save) (state : State) : State × Answer Bytes :=
  match policyOf policy d.node with
  | .error r => (state, .refused r)
  | .ok _ =>
    if (state.nodes d.node).akPublic.isSome then
      let issued : Issued := ⟨d.node, wholeSeconds d.now + nonceTtl, state.issued + 1⟩
      let kept := (dropOld state.nonces d.node d.now).filter (fun p => p.1 ≠ d.nonce)
      let after := { state with
        nonces := kept ++ [(d.nonce, issued)], issued := state.issued + 1 }
      saving save state after (after, .returned d.nonce)
    else (state, .refused ⟨"the node has no enrolled AK", []⟩)

/-! ### Verification -/

structure Call where
  tuple : Tuple
  quote : Bytes
  signature : Bytes
  phase : Option Phase
  pcrValues : Option Value
  now : Rat

structure Verdict where
  node : String
  epoch : Int
  sessionId : Bytes
  akName : Bytes
  resetCount : Nat
  restartCount : Nat
  clock : Nat
  clockSafe : Bool
  pcrs : List Nat
  measurement : String
  phase : Option Phase
  deriving DecidableEq

/-- The counters of a boot are not before those of another. -/
def notBefore (boot last : Nat × Nat) : Prop := last.1 < boot.1 ∨ last.1 = boot.1 ∧ last.2 ≤ boot.2

instance (boot last : Nat × Nat) : Decidable (notBefore boot last) :=
  inferInstanceAs (Decidable (last.1 < boot.1 ∨ last.1 = boot.1 ∧ last.2 ≤ boot.2))

/-- The last accepted boot against the one of a quote. -/
def checkBoot (last boot : Boot) (history : List Bytes) : Check Unit := do
  require (notBefore boot.counters last.counters)
    "the TPM's reset/restart counters went backwards (%s after %s): rolled-back TPM state"
    [.number boot.counters.1, .number boot.counters.2, .number last.counters.1,
      .number last.counters.2]
  if boot.counters = last.counters then
    require (boot.session = last.session ∧ boot.key = last.key)
      "a second boot session in the same boot: one boot carries one session and one ephemeral key" []
  else
    require (boot.session ∉ history ∧ boot.key ∉ history)
      "a boot session or ephemeral key from an earlier boot was presented after a reboot" []

/-- The check of a boot where one was accepted before. -/
def checkLast (last : Option Boot) (boot : Boot) (history : List Bytes) : Check Unit :=
  match last with
  | none => .ok ()
  | some last => checkBoot last boot history

/-- `check_counters`: the record with the boot in it. -/
def checkCounters (record : Record) (q : Quote) (sessionId ephemeralPublic : Bytes) :
    Check Record := do
  let boot : Boot :=
    ⟨(q.resetCount, q.restartCount), Sha256.sum sessionId, Sha256.sum ephemeralPublic⟩
  checkLast record.boot boot record.sessions
  return { record with
    boot := some boot
    sessions := if record.boot.any (fun last => boot.counters = last.counters) then record.sessions
      else record.sessions ++ [boot.session, boot.key] }

/-- What `verify` asks before it reads the state. -/
def checkCall : Check NodePolicy := do
  let expected ← policyOf policy c.tuple.nodeId
  let phased := (expected.accepted.filter (fun s => s.phased.isSome)).map MeasurementSet.label
  require (c.phase.isSome = true ∨ phased = [])
    "the accepted measurements of %s are per boot phase (%s): the verification must name the phase the request comes from"
    [.text c.tuple.nodeId, .names phased]
  c.tuple.checkSession
  require (c.quote.length ≤ 1024 ∧ c.signature.length ≤ 256)
    "the quote or its signature is oversized" []
  return expected

/-- The nonce a call brings: issued to its node, and not expired. -/
def checkIssued (issued : Option Issued) : Check Unit := do
  let i ← demand issued "the nonce is not outstanding (never issued, or already used)" []
  require (i.node = c.tuple.nodeId) "the nonce was issued to another node" []
  require (c.now ≤ i.expires) "the nonce expired" []

/-- The key a quote is signed with, and what the quote says. -/
def checkQuote (signs : Bytes → Bytes → Bytes → Bool) (expected : NodePolicy) (c : Call)
    (akPublic : Option Bytes) : Check (Bytes × Quote) := do
  let ak ← demand akPublic "the node has no enrolled AK" []
  let (akName, spki) ← akIdentity ak
  require (signs spki c.quote c.signature = true)
    "the quote's signature does not verify under the enrolled AK" []
  let q ← parseQuote c.quote
  require (q.qualifiedSigner = qualifiedName (hexBytes expected.ekName) akName)
    "the quote's signer is not the enrolled AK under the recorded EK" []
  let data ← qualifyingData c.tuple
  require (q.extraData = data)
    "the quote is not bound to this transcript (node ID, manifest epoch, boot session ID, ephemeral key, nonce%s)"
    [.text (if c.tuple.binding.isSome then ", the value it must bind" else "")]
  return (akName, q)

/-- The sets whose registers a quote shows, in a phase. -/
def onPcrs (q : Quote) (phase : Option Phase) (sets : List MeasurementSet) : List MeasurementSet :=
  sets.filter (fun s => q.pcrDigest = expectedPcrDigest (s.values phase))

/-- The set a quote matches whole. -/
def checkMeasurement (expected : NodePolicy) (c : Call) (q : Quote) : Check MeasurementSet := do
  let sets := expected.accepted
  let selected := sets.head?.elim [] MeasurementSet.selection
  require (q.pcrs = selected) "the quote covers PCRs %s, not the expected %s"
    [.names (q.pcrs.map toString), .names (selected.map toString)]
  let reported ← checkReportedValues c.pcrValues selected q.pcrDigest
  let shown := onPcrs q c.phase sets
  let matched := shown.filter (fun s => q.firmwareVersion = s.firmware)
  let other := c.phase.map Phase.other
  let elsewhere := ((onPcrs q other sets).filter (fun s =>
    s.phased.isSome && q.firmwareVersion = s.firmware)).map MeasurementSet.label
  onlyIf (matched.isEmpty = true ∧ c.phase.isSome = true)
    (require (elsewhere = [])
      "the node is in the %s phase of %s; this request is accepted only from the %s phase"
      [.text (other.elim "" Phase.text), .text (elsewhere.head?.getD ""),
        .text (c.phase.elim "" Phase.text)])
  require (shown.isEmpty = false)
    (if sets.length = 1 then "the quoted PCR digest is not the expected PCR values%s"
      else "the quoted PCR digest is none of the accepted measurement sets (%s)%s")
    [.names (sets.map MeasurementSet.label), .text (differences reported sets c.phase)]
  demand matched.head? "the TPM firmware version %s is not the recorded %s"
    [.text q.firmwareVersion, .names (shown.map MeasurementSet.firmware)]

/-- What `verify` does between its two saves: the verdict, and the record that
    is stored. -/
def judge (signs : Bytes → Bytes → Bytes → Bool) (expected : NodePolicy) (c : Call)
    (issued : Option Issued) (record : Record) : Check (Verdict × Record) := do
  checkIssued c issued
  let (akName, q) ← checkQuote signs expected c record.akPublic
  let set ← checkMeasurement expected c q
  let counted ← checkCounters record q c.tuple.sessionId c.tuple.ephemeralPublic
  let seen := if set.phased.isSome then c.phase else none
  let verdict : Verdict := {
    node := c.tuple.nodeId
    epoch := c.tuple.epoch
    sessionId := c.tuple.sessionId
    akName
    resetCount := q.resetCount
    restartCount := q.restartCount
    clock := q.clock
    clockSafe := q.safe ≠ 0
    pcrs := q.pcrs
    measurement := set.label
    phase := seen }
  return (verdict, { counted with measurement := some ⟨set.label, c.tuple.epoch, seen⟩ })

def verify (signs : Bytes → Bytes → Bytes → Bool) (policy : Policy) (c : Call)
    (popping storing : Save) (state : State) : State × Answer Verdict :=
  match checkCall policy c with
  | .error r => (state, .refused r)
  | .ok expected =>
    let popped := state.pop c.tuple.nonce
    saving popping state popped <|
      match judge signs expected c (state.outstanding c.tuple.nonce)
        (state.nodes c.tuple.nodeId) with
      | .error r => (popped, .refused r)
      | .ok (verdict, record) =>
        let after := popped.update c.tuple.nodeId record
        saving storing popped after (after, .returned verdict)

end Regalia.Attest
