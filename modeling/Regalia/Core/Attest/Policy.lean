import Regalia.Core.Attest.Quote
import Regalia.Core.Membership.Python

/-!
# Attestation Policies

`deploy/baremetal/attest.py`, the reference values a verifier judges by: for
each node its endorsement key, and one or two sets of measurements. A set gives
a value for each register, some of them for each phase of the boot.

## Main definitions

* `Phase`, `MeasurementSet`: Measurements.
* `Policy`, `validatePolicy`: What a verifier holds.
* `expectedPcrDigest`, `checkReportedValues`: Values against a quote.
-/

namespace Regalia.Attest

open Regalia.Membership

inductive Phase where
  | initrd
  | system
  deriving DecidableEq

namespace Phase

def text : Phase → String
  | initrd => "initrd"
  | system => "system"

def other : Phase → Phase
  | initrd => system
  | system => initrd

end Phase

def phases : List Phase := [.initrd, .system]

/-- Registers and their values in hexadecimal. -/
abbrev Pcrs := List (Nat × String)

/-- A set of measurements: the firmware's version and the value of every
    register, of some of them in each phase. -/
structure MeasurementSet where
  label : String
  firmware : String
  pcrs : Pcrs
  phased : Option (Phase → Pcrs)

structure NodePolicy where
  ekName : String
  accepted : List MeasurementSet

/-- The nodes of a policy. -/
abbrev Policy := List (String × NodePolicy)

/-! ### Values -/

/-- In the order of the registers. -/
def ordered (pcrs : Pcrs) : Pcrs := pcrs.insertionSort (fun a b => a.1 ≤ b.1)

/-- `expected_pcr_digest`. -/
def expectedPcrDigest (pcrs : Pcrs) : Bytes :=
  Sha256.sum ((ordered pcrs).flatMap (fun p => hexBytes p.2))

namespace MeasurementSet

/-- The registers given in a phase. -/
def inPhase (entry : MeasurementSet) (phase : Phase) : Pcrs := entry.phased.elim [] (· phase)

/-- `selection`. -/
def selection (entry : MeasurementSet) : List Nat :=
  ((entry.pcrs ++ entry.inPhase .initrd).map Prod.fst).dedup.insertionSort (· ≤ ·)

/-- `values`: without a phase a set has none. -/
def values (entry : MeasurementSet) (phase : Option Phase) : Pcrs :=
  let own := phase.elim [] entry.inPhase
  entry.pcrs.filter (fun p => p.1 ∉ own.map Prod.fst) ++ own

end MeasurementSet

def isHex (n : Nat) (v : Value) : Bool := (asText v).any (matchesHex n)

/-- A register's number as it is written: `0|[1-9][0-9]?`. -/
def pcrIndex (s : String) : Option Nat :=
  match s.toList with
  | [c] => if c.isDigit then some (c.toNat - '0'.toNat) else none
  | [c, d] =>
    if c.isDigit && c ≠ '0' && d.isDigit then
      some (10 * (c.toNat - '0'.toNat) + (d.toNat - '0'.toNat))
    else none
  | _ => none

/-- The fields of an object, none for any other value. -/
def fieldsOf : Value → List (String × Value)
  | .obj fields => fields
  | _ => []

/-- `check_reported_values`. -/
def checkReportedValues (pcrValues : Option Value) (selected : List Nat) (quotedDigest : Bytes) :
    Check (Option Pcrs) :=
  match pcrValues with
  | none => .ok none
  | some v => do
    require (isObject v = true ∧ ∀ p ∈ fieldsOf v, isHex 64 p.2 = true)
      "the reported PCR values must map PCR indices to 64 lowercase hex" []
    let given : Pcrs := (fieldsOf v).filterMap (fun p => (pcrIndex p.1).map (·, textOf p.2))
    require (given.length = (fieldsOf v).length ∧ (ordered given).map Prod.fst = selected)
      "the reported PCR values cover PCRs %s, not the quoted selection %s"
      [.names v.keys, .names (selected.map toString)]
    require (quotedDigest = expectedPcrDigest given)
      "the reported PCR values do not match the quote" []
    return some given

/-- A register's value in a reported map. -/
def reportedValue (reported : Pcrs) (i : Nat) : String := (reported.lookup i).getD ""

/-- `differences`. -/
def differences (reported : Option Pcrs) (sets : List MeasurementSet) (phase : Option Phase) :
    String :=
  match reported with
  | none => ""
  | some reported =>
    let part (entry : MeasurementSet) : String :=
      let diff := (ordered (entry.values phase)).filterMap (fun p =>
        if reportedValue reported p.1 ≠ p.2 then
          some ("PCR " ++ toString p.1 ++ " is " ++ reportedValue reported p.1 ++ ", expected " ++ p.2)
        else none)
      let place := entry.label ++
        (if entry.phased.isSome then phase.elim "" (fun p => " (" ++ p.text ++ " phase)") else "")
      (if place = "" then "the set" else place) ++ ": " ++ "; ".intercalate diff
    ". " ++ " | ".intercalate (sets.map part)

/-! ### Reading a policy -/

def policySchema : String := "regalia-kms/attest-policy/v1"

def maxSets : Nat := 2

def setKeys : List String := ["label", "tpm_firmware_version", "pcrs"]

def signingKeys : List String := ["initrd", "system", "secure_boot_cert"]

/-- `[A-Za-z0-9._-]` up to a length. -/
def plainName (most : Nat) (s : String) : Bool :=
  matchesClass (fun c => c.isAlphanum || c = '.' || c = '_' || c = '-') most s

/-- `_validate_pcrs`. -/
def validatePcrs (pcrs : Value) (label : String) : Check Pcrs := do
  require (isObject pcrs = true ∧ fieldsOf pcrs ≠ []) "%s must expect at least one PCR" [.text label]
  (fieldsOf pcrs).mapM (fun p => do
    let i ← demand ((pcrIndex p.1).filter (· ≤ 23)) "%s: %r is not a PCR 0-23"
      [.text label, .text p.1]
    require (isHex 64 p.2 = true) "%s.%s must be 64 lowercase hex" [.text label, .text p.1]
    return (i, textOf p.2))

/-- The signing keys of a set, which are checked and not kept. -/
def validateSigning (entry : Value) (label : String) : Check Unit := do
  let signing := field entry "signing"
  Python.exact signing signingKeys (label ++ ".signing")
  signingKeys.forM (fun name =>
    require (isHex 64 (field signing name) = true) "%s.signing.%s must be 64 lowercase hex"
      [.text label, .text name])
  require (textOf (field signing "initrd") ≠ textOf (field signing "system"))
    "%s.signing: the two phases' PCR keys must be two keys" [.text label]

/-- The registers a set gives in each phase. -/
def validatePhases (entry : Value) (pcrs : Pcrs) (label : String) : Check (Phase → Pcrs) := do
  let given := field entry "phases"
  Python.exact given (phases.map Phase.text) (label ++ ".phases")
  let initrd ← validatePcrs (field given "initrd") (label ++ ".phases.initrd")
  let system ← validatePcrs (field given "system") (label ++ ".phases.system")
  require ((ordered initrd).map Prod.fst = (ordered system).map Prod.fst)
    "%s.phases: the two phases give different PCRs; a node quotes one selection" [.text label]
  let both := (ordered pcrs).filter (fun p => p.1 ∈ initrd.map Prod.fst)
  require (both = []) "%s: PCR %s is given once for every phase and again per phase"
    [.text label, .names (both.map (fun p => toString p.1))]
  require (ordered initrd ≠ ordered system)
    "%s.phases: the two phases hold the same values; a PCR that does not move between them belongs in pcrs"
    [.text label]
  return fun
    | .initrd => initrd
    | .system => system

/-- `validate_set`, with the label the set goes by. -/
def validateSet (entry : Value) (name label : String) : Check MeasurementSet := do
  require (isHex 16 (field entry "tpm_firmware_version") = true)
    "%s.tpm_firmware_version must be 16 hex" [.text label]
  let pcrs ← validatePcrs (field entry "pcrs") (label ++ ".pcrs")
  let firmware := textOf (field entry "tpm_firmware_version")
  if hasField entry "phases" then
    let given ← validatePhases entry pcrs label
    onlyIf (hasField entry "signing" = true) (validateSigning entry label)
    return ⟨name, firmware, pcrs, some given⟩
  else
    require (hasField entry "signing" = false)
      "%s.signing: only a set with per-phase PCR 11 (a signed unified kernel image) names signing keys"
      [.text label]
    return ⟨name, firmware, pcrs, none⟩

namespace MeasurementSet

/-- The phases in which a set is told apart. -/
def moments (entry : MeasurementSet) : List (Option Phase) :=
  if entry.phased.isSome then phases.map some else [none]

/-- What a quote of a set shows, phase by phase. -/
def shown (entry : MeasurementSet) : List (String × Pcrs) :=
  entry.moments.map (fun phase => (entry.firmware, ordered (entry.values phase)))

/-- `_measurements`. -/
def measurements (entry : MeasurementSet) : String × Pcrs × Option (List Pcrs) :=
  (entry.firmware, ordered entry.pcrs, entry.phased.map (fun given => phases.map (ordered ∘ given)))

end MeasurementSet

/-- Two sets of one node: told apart by their names and by what they show. -/
def distinctSets (label : String) (a b : MeasurementSet) : Check Unit := do
  require (a.label ≠ b.label) "%s.accepted: two sets share the label %r" [.text label, .text a.label]
  require (a.selection = b.selection)
    "%s.accepted: the two sets select different PCRs; a node quotes one selection" [.text label]
  require (a.measurements ≠ b.measurements)
    "%s.accepted: the two sets are the same measurements under two labels" [.text label]
  require (∀ shown ∈ a.shown, shown ∉ b.shown)
    "%s.accepted: %r and %r hold the same PCR values in one of their phases"
    [.text label, .text a.label, .text b.label]

/-- The check `validate_sets` makes where there are two. -/
def checkPair (label : String) : List MeasurementSet → Check Unit
  | [a, b] => distinctSets label a b
  | _ => .ok ()

/-- `validate_sets`. -/
def validateSets (sets : Value) (label : String) : Check (List MeasurementSet) := do
  let entries ← demand ((asList sets).filter (fun l => 1 ≤ l.length && l.length ≤ maxSets))
    "%s.accepted must hold one or two measurement sets (CURRENT, and NEXT during an update)"
    [.text label]
  let accepted ← entries.zipIdx.mapM (fun p => do
    let place := itemLabel (label ++ ".accepted") p.2
    require (isObject p.1 = true) "%s must be an object" [.text place]
    Python.exact p.1 (setKeys ++ ["phases", "signing"].filter (hasField p.1)) place
    require ((asText (field p.1 "label")).any (plainName 48) = true)
      "%s.label must be a short plain name" [.text place]
    validateSet p.1 (textOf (field p.1 "label")) place)
  checkPair label accepted
  return accepted

/-- A node of a policy, with one or two sets or with the only one beside the
    endorsement key. -/
def validateSetsOf (node : Value) (label : String) : Check (List MeasurementSet) :=
  if hasField node "accepted" then do
    Python.exact node ["ek_name", "accepted"] label
    validateSets (field node "accepted") label
  else do
    Python.exact node ["ek_name", "tpm_firmware_version", "pcrs"] label
    let entry ← validateSet node "" label
    return [entry]

def startsWith000b (s : String) : Bool := s.toList.take 4 = ['0', '0', '0', 'b']

/-- `validate_policy`. -/
def validatePolicy (doc : Value) : Check Policy := do
  Python.exact doc ["schema", "nodes"] "policy"
  require (field doc "schema" = .str policySchema) "policy schema must be %s" [.text policySchema]
  require (isObject (field doc "nodes") = true ∧ fieldsOf (field doc "nodes") ≠ [])
    "policy.nodes must name at least one node" []
  (fieldsOf (field doc "nodes")).mapM (fun p => do
    let label := "policy.nodes." ++ p.1
    require (plainName 64 p.1 = true) "%s is not a plain name" [.text label]
    let sets ← validateSetsOf p.2 label
    require (isHex 68 (field p.2 "ek_name") = true ∧
        startsWith000b (textOf (field p.2 "ek_name")) = true)
      "%s.ek_name must be a SHA-256 Name (000b + 64 hex)" [.text label]
    return (p.1, ⟨textOf (field p.2 "ek_name"), sets⟩))

end Regalia.Attest
