import Regalia.Core.Membership.Python

/-!
# Catching Up

`deploy/baremetal/convergence.py`, `catch_up`, over the `Store` of
`membership.py`: a node applies the envelopes a peer sent, with one commit for
each. A store may have a documents check, which refuses a manifest whose
reference values are not held. A commit on the way to a later epoch of the
batch skips it.

The file is the list of envelopes it holds. Whether it can be read, what the
TPM anchor answers and what becomes of a write are inputs, for each envelope.

## Main definitions

* `Store.read`, `Store.commit`: The store.
* `newPlaces`: The envelopes of a batch that are above all before them.
* `Store.catchUp`: `catch_up`.
-/

namespace Regalia.Membership

/-- Why a call does not return: it refuses, or the disk or the process fails. -/
inductive Stop where
  | refused (r : Refused)
  | failed

/-- What becomes of `_write` and what follows it. -/
inductive Write where
  | failed
  /-- The file is replaced, and the anchor refuses or the process dies. -/
  | stopped
  | done

/-- What is answered while an envelope is looked at. -/
structure Answers where
  loads : Check Unit := .ok ()
  judges : Check Unit := .ok ()
  write : Write := .done

structure Store where
  crypto : Crypto
  root : Value
  documents : Option (Value → Check Unit)

namespace Store

variable (s : Store)

/-- The manifest the envelopes of the file lead to. -/
def read (chain : List Value) : Check (Option Value) :=
  chain.foldlM (fun current envelope => do
    let next ← Python.accept s.crypto current envelope s.root
    require (current ≠ some next) "the stored chain repeats epoch %d" [.number (epochOf next)]
    return some next) none

/-- `_load`. -/
def load (chain : List Value) (loads : Check Unit) : Check (Option Value) := do
  let current ← s.read chain
  loads
  return current

/-- `_commit` up to the write: the manifest, and whether it is a new one. -/
def judge (chain : List Value) (envelope : Value) (final : Bool) (a : Answers) :
    Check (Value × Bool) := do
  let current ← s.load chain a.loads
  let next ← Python.accept s.crypto current envelope s.root
  if current = some next then return (next, false)
  else do
    onlyIf final ((s.documents.map (· next)).getD (.ok ()))
    a.judges
    return (next, true)

/-- `_commit`: the file after it, and the manifest held. -/
def commit (chain : List Value) (envelope : Value) (final : Bool) (a : Answers) :
    List Value × Except Stop Value :=
  match s.judge chain envelope final a with
  | .error r => (chain, .error (.refused r))
  | .ok (next, false) => (chain, .ok next)
  | .ok (next, true) =>
    match a.write with
    | .failed => (chain, .error .failed)
    | .stopped => (chain ++ [envelope], .error .failed)
    | .done => (chain ++ [envelope], .ok next)

end Store

def maxEnvelopes : Nat := 1000

def heldEpoch (current : Option Value) : Int := (current.map epochOf).getD 0

/-- The epoch an envelope says it is for, of whatever a peer sent. -/
def announced (envelope : Value) : Option Int := asInteger (field (field envelope "manifest") "epoch")

/-- `new`: the places of a batch whose epoch is above all before them. -/
def newPlaces : Int → Nat → List Value → List Nat
  | _, _, [] => []
  | top, i, envelope :: rest =>
    match (announced envelope).filter (top < ·) with
    | some epoch => i :: newPlaces epoch (i + 1) rest
    | none => newPlaces top (i + 1) rest

namespace Store

variable (s : Store)

/-- An envelope for an epoch that is held: verified against the manifest before
    it, and compared with the one held. -/
def resent (chain : List Value) (epoch : Int) (envelope : Value) (a : Answers) : Check Unit := do
  let _ ← s.load chain a.loads
  let around := chain.drop (epoch - 2).toNat
  let first := around.head?.getD .null
  let before := if epoch = 1 then none else some (field first "manifest")
  let mine := if epoch = 1 then first else around.tail.head?.getD .null
  let received ← Python.accept s.crypto before envelope s.root
  require (Python.digest received = Python.digest (field mine "manifest"))
    "CONFLICT: a different manifest at epoch %d: two manifests were signed for one epoch; record an incident"
    [.number epoch]

/-- The loop of `catch_up` from a place on. -/
def apply (new : List Nat) (answers : Nat → Answers) :
    Nat → Option Value → List Value → List Value → List Value × Except Stop Unit
  | _, _, chain, [] => (chain, .ok ())
  | i, current, chain, envelope :: rest =>
    if ¬ (isObject envelope ∧ isObject (field envelope "manifest")) then
      (chain, .error (.refused ⟨"an envelope must hold a manifest", []⟩))
    else
      match (announced envelope).filter (fun e => 1 ≤ e && e ≤ heldEpoch current) with
      | some epoch =>
        match s.resent chain epoch envelope (answers i) with
        | .error r => (chain, .error (.refused r))
        | .ok () => apply new answers (i + 1) current chain rest
      | none =>
        match s.commit chain envelope (new.getLast? = some i ∨ i ∉ new) (answers i) with
        | (chain, .error stop) => (chain, .error stop)
        | (chain, .ok next) => apply new answers (i + 1) (some next) chain rest

/-- `summary`: the epoch and the digest of the manifest held. -/
def summary (chain : List Value) (loads : Check Unit) : Check (Int × String) := do
  let current ← s.load chain loads
  return (heldEpoch current, (current.map Python.digest).getD "")

/-- `catch_up`: the file after it, and the summary. -/
def catchUp (chain envelopes : List Value) (opening closing : Check Unit)
    (answers : Nat → Answers) : List Value × Except Stop (Int × String) :=
  let opened : Check (Option Value) := do
    require (envelopes.length ≤ maxEnvelopes) "at most %d envelopes at a time"
      [.number maxEnvelopes]
    s.load chain opening
  match opened with
  | .error r => (chain, .error (.refused r))
  | .ok current =>
    match s.apply (newPlaces (heldEpoch current) 0 envelopes) answers 0 current chain envelopes with
    | (chain, .error stop) => (chain, .error stop)
    | (chain, .ok ()) => (chain, (s.summary chain closing).mapError .refused)

end Store

end Regalia.Membership
