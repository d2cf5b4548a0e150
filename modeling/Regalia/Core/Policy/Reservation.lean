import Regalia.Data.GoString
import Regalia.Data.GoTime
import Regalia.Data.Sha256
import Regalia.Data.SortedMap

/-!
# Reservations and Their Journal Lines

A reservation is what the policy engine asks the durable state to commit: a
nonce, amounts against daily caps, a sequence number, under a fencing epoch.
The journal keeps each one in an event, a line of JSON that names its
predecessor's hash.

Both directions of the line are here, `encode` as `json.Marshal` writes it and
`decode` as the decoder of `readState` reads it, because a line is not always
read as it was written: a string that is no UTF-8 and a time zone with
seconds come back changed.

## Main definitions

* `Reservation`: The record, field for field.
* `validateReservation`: What every reservation must satisfy.
* `nonceKey`, `quotaKey`: The keys of the in-memory maps.
* `StateEvent`: A line of the journal.
* `StateEvent.encode`, `StateEvent.decode`: Its text, and the way back.
* `stateEventHash`: The hash that chains the lines.
-/

namespace Regalia.Policy

/-- A Go `map[string]uint64`: nil, or its entries. -/
abbrev Amounts := Option (SortedMap GoString UInt64)

/-- The entries a range loop over the map visits. -/
def Amounts.entries (m : Amounts) : List (GoString × UInt64) :=
  match m with
  | none => []
  | some m => m.entries

/-- Indexing the map: a missing key is zero. -/
def Amounts.get (m : Amounts) (k : GoString) : UInt64 :=
  match m with
  | none => 0
  | some m => (m.get? k).getD 0

/-- `policy.Reservation`. -/
structure Reservation where
  policyID : GoString
  objectID : GoString
  epoch : UInt64 := 0
  principal : GoString
  nonce : GoString
  utcDate : GoString
  amounts : Amounts
  dailyCaps : Amounts
  sequence : Option UInt64 := none
  purpose : GoString := []
  environment : GoString := []
  payloadSHA256 : GoString := []
  approvers : List GoString := []
  approverSet : GoString := []
  approvalsSHA256 : GoString := []
  expiresAt : GoTime := GoTime.zero
  sequenceKey : GoString := []
  deriving DecidableEq

/-- Why the state refuses: the four sentinel errors a caller tells apart, and
    every other error by its text. -/
inductive StateError where
  | replay
  | limit
  | sequence
  | epoch
  | other (text : String)
  deriving DecidableEq, Repr

/-- The largest `uint64`. -/
def maxUint64 : UInt64 := UInt64.ofNat (2 ^ 64 - 1)

/-- `noncePattern`: 16 to 128 letters, digits, underscores and hyphens. -/
def matchesNoncePattern (nonce : GoString) : Bool :=
  16 ≤ nonce.length && nonce.length ≤ 128 &&
    nonce.bytewise.all (fun c => c.isAlphanum || c = '_' || c = '-')

/-- A date `time.Parse` takes under `utcDateLayout` and `Format` gives back. -/
def isUTCDate (text : GoString) : Bool :=
  match parseDate text.bytewise with
  | some date => date.realDate
  | none => false

variable (r : Reservation) (v : Json Literal) (e : StateEvent)

def validateReservation : Except StateError Unit :=
  if r.policyID = [] ∨ r.objectID = [] ∨ r.principal = [] ∨ ¬ matchesNoncePattern r.nonce then
    .error (.other "invalid policy reservation identity")
  else if ¬ isUTCDate r.utcDate then .error (.other "invalid policy reservation date")
  else if r.amounts.entries.any (fun e =>
      e.1 = [] || e.2 = 0 || r.dailyCaps.get e.1 = 0 || r.dailyCaps.get e.1 < e.2) then
    .error (.other "invalid policy reservation amount")
  else if r.sequence = some maxUint64 then .error (.other "invalid policy reservation sequence")
  else if r.sequence ≠ none ∧ r.sequenceKey = [] then
    .error (.other "invalid policy reservation sequence key")
  else .ok ()

/-- The separator of the map keys. A name may hold it too, so two different
    reservations can share a key. -/
def separator : GoString := [0]

def nonceKey : GoString :=
  r.policyID ++ separator ++ r.objectID ++ separator ++ r.principal ++ separator ++ r.nonce

def quotaKey (denom : GoString) : GoString :=
  r.policyID ++ separator ++ r.objectID ++ separator ++ r.utcDate ++ separator ++ denom

/-! ### Writing -/

/-- The name of a struct field in JSON. -/
def jsonName (name : String) : Literal := name.toList.map some

def stringJson (s : GoString) : Json Literal := .str s.pieces

def uint64Json (n : UInt64) : Json Literal := .num n.toNat

def amountsJson : Amounts → Json Literal
  | none => .null
  | some m => .obj (m.entries.map (fun e => (e.1.pieces, uint64Json e.2)))

/-- A field that is always written. -/
def field (name : String) (v : Json Literal) : List (Literal × Json Literal) :=
  [(jsonName name, v)]

/-- A field under `omitempty` or `omitzero`. -/
def optional (name : String) (omitted : Bool) (v : Json Literal) :
    List (Literal × Json Literal) := if omitted then [] else [(jsonName name, v)]

theorem jsonName_inj (n m : String) : jsonName n = jsonName m ↔ n = m := by
  constructor
  · intro h
    exact String.toList_injective (List.map_injective_iff.mpr (fun _ _ h => Option.some.inj h) h)
  · intro h
    rw [h]

theorem get?_field (n m : String) (v : Json Literal) :
    (Json.obj (field m v)).get? (jsonName n) = if n = m then some v else none := by
  simp only [field, Json.get?_singleton, jsonName_inj]

theorem get?_optional (n m : String) (omitted : Bool) (v : Json Literal) :
    (Json.obj (optional m omitted v)).get? (jsonName n) =
      if n = m ∧ omitted = false then some v else none := by
  cases omitted with
  | true =>
    simp only [optional, if_true, Json.get?_nil, Bool.true_eq_false, and_false, if_false]
  | false =>
    simp only [optional, Bool.false_eq_true, if_false, and_true, Json.get?_singleton, jsonName_inj]

/-- The fields of a reservation in the order of the struct, given the text of
    its expiry. -/
def Reservation.fields (expiresAt : List Char) : List (Literal × Json Literal) :=
  field "policy_id" (stringJson r.policyID) ++
  field "object_id" (stringJson r.objectID) ++
  optional "epoch" (r.epoch = 0) (uint64Json r.epoch) ++
  field "principal" (stringJson r.principal) ++
  field "nonce" (stringJson r.nonce) ++
  field "utc_date" (stringJson r.utcDate) ++
  field "amounts" (amountsJson r.amounts) ++
  field "daily_caps" (amountsJson r.dailyCaps) ++
  optional "sequence" (r.sequence = none) (uint64Json (r.sequence.getD 0)) ++
  optional "purpose" (r.purpose = []) (stringJson r.purpose) ++
  optional "environment" (r.environment = []) (stringJson r.environment) ++
  optional "payload_sha256" (r.payloadSHA256 = []) (stringJson r.payloadSHA256) ++
  optional "approvers" (r.approvers = []) (.arr (r.approvers.map stringJson)) ++
  optional "approver_set" (r.approverSet = []) (stringJson r.approverSet) ++
  optional "approvals_sha256" (r.approvalsSHA256 = []) (stringJson r.approvalsSHA256) ++
  optional "expires_at" r.expiresAt.isZero (.str (expiresAt.map some)) ++
  optional "sequence_key" (r.sequenceKey = []) (stringJson r.sequenceKey)

/-- `stateEvent`. -/
structure StateEvent where
  sequence : UInt64
  reservation : Reservation
  previousHash : GoString
  hash : GoString
  deriving DecidableEq

/-- The value `json.Marshal` writes. It fails only where an expiry is written
    that has no text. -/
def StateEvent.json : Option (Json Literal) :=
  let expiry := if e.reservation.expiresAt.isZero then some [] else e.reservation.expiresAt.marshalText
  expiry.map (fun text => .obj (
    field "sequence" (uint64Json e.sequence) ++
    field "reservation" (.obj (e.reservation.fields text)) ++
    field "previous_hash" (stringJson e.previousHash) ++
    field "hash" (stringJson e.hash)))

def StateEvent.encode : Option (List Char) := e.json.map (Json.print goQuoting)

/-- The bytes `json.Marshal` returns, none at all if it fails. -/
def StateEvent.bytes : GoString :=
  match e.encode with
  | some text => GoString.ofRunes text
  | none => []

def stateEventHash : GoString :=
  GoString.ofText "sha256:" ++ GoString.ofRunes
    (hexText (Sha256.sum ({ e with hash := [] } : StateEvent).bytes))

/-! ### Reading -/

/-- A string field: absent or null leaves it empty. -/
def readString : Option (Json Literal) → Option GoString
  | none | some .null => some []
  | some (.str l) => some (GoString.readText l)
  | some _ => none

def readUint64 : Option (Json Literal) → Option UInt64
  | none | some .null => some 0
  | some (.num n) => if 0 ≤ n ∧ n < 2 ^ 64 then some (UInt64.ofNat n.toNat) else none
  | some _ => none

/-- The pointer field: absent or null is nil. -/
def readPointer : Option (Json Literal) → Option (Option UInt64)
  | none | some .null => some none
  | v => (readUint64 v).map some

/-- The fields of an object as keys and numbers. -/
def readPairs : List (Literal × Json Literal) → Option (List (GoString × UInt64))
  | [] => some []
  | (k, v) :: rest =>
    match readUint64 (some v), readPairs rest with
    | some n, some pairs => some ((GoString.readText k, n) :: pairs)
    | _, _ => none

def readAmounts : Option (Json Literal) → Option Amounts
  | none | some .null => some none
  | some (.obj fields) => (readPairs fields).map (fun pairs => some (SortedMap.ofPairs pairs))
  | some _ => none

def readStrings : Option (Json Literal) → Option (List GoString)
  | none | some .null => some []
  | some (.arr items) => items.mapM (fun v => readString (some v))
  | some _ => none

def readTime : Option (Json Literal) → Option GoTime
  | none | some .null => some GoTime.zero
  | some (.str l) => GoTime.unmarshalText (l.map (fun c => c.getD GoString.runeError))
  | some _ => none

/-- The names a reservation may have in JSON. -/
def reservationNames : List String :=
  ["policy_id", "object_id", "epoch", "principal", "nonce", "utc_date", "amounts", "daily_caps",
   "sequence", "purpose", "environment", "payload_sha256", "approvers", "approver_set",
   "approvals_sha256", "expires_at", "sequence_key"]

/-- `DisallowUnknownFields`: every name of the object is one of these. -/
def knownFields (names : List String) (v : Json Literal) : Bool :=
  v.keys.all (fun k => names.any (fun name => jsonName name = k))

/-- An object or null: what decodes into a struct. -/
def isStruct : Json Literal → Bool
  | .obj _ | .null => true
  | _ => false

def Reservation.ofJson : Option Reservation :=
  if ¬ isStruct v ∨ ¬ knownFields reservationNames v then none
  else do
    let get := fun name => v.get? (jsonName name)
    return {
      policyID := ← readString (get "policy_id")
      objectID := ← readString (get "object_id")
      epoch := ← readUint64 (get "epoch")
      principal := ← readString (get "principal")
      nonce := ← readString (get "nonce")
      utcDate := ← readString (get "utc_date")
      amounts := ← readAmounts (get "amounts")
      dailyCaps := ← readAmounts (get "daily_caps")
      sequence := ← readPointer (get "sequence")
      purpose := ← readString (get "purpose")
      environment := ← readString (get "environment")
      payloadSHA256 := ← readString (get "payload_sha256")
      approvers := ← readStrings (get "approvers")
      approverSet := ← readString (get "approver_set")
      approvalsSHA256 := ← readString (get "approvals_sha256")
      expiresAt := ← readTime (get "expires_at")
      sequenceKey := ← readString (get "sequence_key") }

def StateEvent.ofJson (v : Json Literal) : Option StateEvent :=
  if ¬ isStruct v ∨ ¬ knownFields ["sequence", "reservation", "previous_hash", "hash"] v then none
  else do
    return {
      sequence := ← readUint64 (v.get? (jsonName "sequence"))
      reservation := ← Reservation.ofJson ((v.get? (jsonName "reservation")).getD .null)
      previousHash := ← readString (v.get? (jsonName "previous_hash"))
      hash := ← readString (v.get? (jsonName "hash")) }

/-- One line of the journal decoded, with the two errors of `readState`. -/
def StateEvent.decode (text : List Char) : Except StateError StateEvent :=
  match Json.parseValue goQuoting (text.length + 1) text with
  | none => .error (.other "policy state contains invalid JSON")
  | some (v, rest) =>
    match StateEvent.ofJson v with
    | none => .error (.other "policy state contains invalid JSON")
    | some e =>
      if Json.skipBlanks rest = [] then .ok e
      else .error (.other "policy state contains trailing data")

end Regalia.Policy
