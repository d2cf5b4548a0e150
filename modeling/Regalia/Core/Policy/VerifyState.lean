import Regalia.Core.Policy.JournalFile

/-!
# Verifying a Journal

`VerifyState` reads a journal and its mark without opening either for writing,
and tells an operator whether the record is whole. It asks all that
`OpenFileState` asks and, beyond that, that the journal exists and that a
journal with a history has a mark that says so.

## Main definitions

* `StateSummary`: What the operator learns.
* `verifyState`: `VerifyState` on the bytes.
* `FileWorld.created`: Whether a run has made the journal.
-/

namespace Regalia.Policy

structure StateSummary where
  reservations : UInt64
  headSequence : UInt64
  headHash : GoString
  headEpoch : UInt64
  deriving DecidableEq

/-- `VerifyState`, where `present` says whether the journal exists. The two
    files can be read and looked at. -/
def verifyState (decode : LineDecoder) (f : Files) (present : Bool) :
    Except StateError StateSummary :=
  if ¬ present then .error (.other "cannot verify: file does not exist")
  else
    match readJournal decode f.journal with
    | .error err => .error err
    | .ok events =>
      match replay {} events with
      | none => .error (.other "policy state journal contains an invalid reservation")
      | some s =>
        let mark := f.mark.getD ⟨0, stateGenesisHash⟩
        let count := "policy state journal has " ++ toString events.length ++ " reservations but "
        if 2 ≤ events.length ∧ ¬ f.mark.isSome then
          .error (.other (count ++ "no high-water mark recording a prior position — the write " ++
            "order makes that impossible beyond the first reservation's crash window, so the " ++
            "tail and the mark were deleted together"))
        else if 1 ≤ events.length ∧ f.mark.isSome ∧ mark.sequence = 0 then
          .error (.other (count ++ "its high-water mark sits at genesis — the only write site " ++
            "never records zero, so the mark was reset to hide how far the journal reached"))
        else if s.sequence < mark.sequence then
          .error (.other ("policy state journal has been truncated: it ends at sequence " ++
            toString s.sequence ++ " but reached " ++ toString mark.sequence ++
            " — spent quota and consumed nonces are missing, so both are available again"))
        else if s.sequence = mark.sequence ∧ mark.hash ≠ stateGenesisHash ∧
            s.lastHash ≠ mark.hash then
          .error (.other ("policy state journal does not match its recorded history: it was " ++
            "rewritten rather than shortened"))
        else .ok ⟨UInt64.ofNat events.length, s.sequence, s.lastHash, s.maxEpoch⟩

/-- A call that gets as far as `os.OpenFile`, which makes the journal if there
    is none. -/
def FileWorld.creates (w : FileWorld) : FileOp → Bool
  | .openState fault =>
    let reached := if fault = some .statFails ∨ fault = some .badMode then none else fault
    (openFiles StateEvent.decodeLine w.files reached).isOk
  | _ => false

/-- Whether some call of a run did. -/
def FileWorld.created : FileWorld → List FileOp → Bool
  | _, [] => false
  | w, op :: rest => w.creates op || FileWorld.created (w.step op).1 rest

end Regalia.Policy
