import Regalia.Theory.Policy.Ledger

/-!
# Events That Come Back

The line of an event read back gives the event, if JSON has room for what the
event holds: strings that are UTF-8, and an expiry whose zone has whole
minutes. `Reservation.plain` asks for that. The instant of the unset expiry
is left out of the line whatever zone it is shown in and comes back in UTC,
so it has to be there.

## Main definitions

* `GoString.validUTF8`: A string without a stray byte.
* `Reservation.plain`: JSON has room for the reservation.

## Theorems

* `ofJson_fields_plain`: The fields of a plain reservation give it back.
* `decode_plain`: The line of a plain event gives it back.
-/

namespace Regalia

open List

/-- `utf8.ValidString`: every byte belongs to a character. -/
def GoString.validUTF8 (s : GoString) : Bool := s.pieces.all Option.isSome

/-- A string without a stray byte comes back from JSON. -/
theorem GoString.readText_pieces (s : GoString) (h : s.validUTF8 = true) :
    readText s.pieces = s := by
  have hsome : s.pieces = (s.pieces.map (fun p => p.getD runeError)).map some := by
    rw [map_map]
    refine (map_id _).symm.trans (map_congr_left (fun p hp => ?_))
    have := all_eq_true.mp h p hp
    cases p with
    | none => cases this
    | some c => rfl
  exact (eq_ofRunes_of_piecesFor s.length s _ (Nat.le_refl _) hsome).symm

namespace Policy

/-- JSON has room for the reservation: its strings are UTF-8, and its expiry
    is unset or shown in a zone of whole minutes. A `time.Time` has fewer than
    10^9 nanoseconds. -/
def Reservation.plain (r : Reservation) : Bool :=
  [r.policyID, r.objectID, r.principal, r.nonce, r.utcDate, r.purpose, r.environment,
    r.payloadSHA256, r.approverSet, r.approvalsSHA256, r.sequenceKey].all GoString.validUTF8 &&
  r.approvers.all GoString.validUTF8 &&
  r.amounts.entries.all (fun e => e.1.validUTF8) &&
  r.dailyCaps.entries.all (fun e => e.1.validUTF8) &&
  (decide (r.expiresAt = GoTime.zero) ||
    (!r.expiresAt.isZero && decide (r.expiresAt.nanosecond < 10 ^ 9) &&
      decide (r.expiresAt.offset % 60 = 0)))

/-! ### One field -/

theorem readString_plain (s : GoString) (h : s.validUTF8 = true) :
    readString (some (stringJson s)) = some s :=
  congrArg some (GoString.readText_pieces s h)

/-- A string that is left out when it is empty. -/
theorem readString_optional (s : GoString) (h : s.validUTF8 = true) :
    readString (if s = [] then none else some (stringJson s)) = some s := by
  by_cases hnil : s = []
  · rw [if_pos hnil, hnil]
    rfl
  · rw [if_neg hnil]
    exact readString_plain s h

theorem readUint64_plain (n : UInt64) : readUint64 (some (uint64Json n)) = some n := by
  have hlt := n.toNat_lt
  have hrange : (0 : Int) ≤ n.toNat ∧ (n.toNat : Int) < 2 ^ 64 := by omega
  simp only [readUint64, uint64Json, if_pos hrange, Int.toNat_natCast, UInt64.ofNat_toNat]

theorem readUint64_optional (n : UInt64) :
    readUint64 (if n = 0 then none else some (uint64Json n)) = some n := by
  by_cases hzero : n = 0
  · rw [if_pos hzero, hzero]
    rfl
  · rw [if_neg hzero]
    exact readUint64_plain n

theorem readPointer_plain (n : Option UInt64) : readPointer (n.map uint64Json) = some n := by
  cases n with
  | none => rfl
  | some n =>
    change (readUint64 (some (uint64Json n))).map some = some (some n)
    rw [readUint64_plain]
    rfl

theorem readPairs_plain (entries : List (GoString × UInt64))
    (h : entries.all (fun e => e.1.validUTF8) = true) :
    readPairs (entries.map (fun e => (e.1.pieces, uint64Json e.2))) = some entries := by
  induction entries with
  | nil => rfl
  | cons e rest ih =>
    rw [all_cons, Bool.and_eq_true] at h
    rw [map_cons, readPairs, readUint64_plain, ih h.2, GoString.readText_pieces e.1 h.1]

theorem readAmounts_plain (m : Amounts) (h : m.entries.all (fun e => e.1.validUTF8) = true) :
    readAmounts (some (amountsJson m)) = some m := by
  cases m with
  | none => rfl
  | some m =>
    rw [amountsJson, readAmounts, readPairs_plain m.entries h, Option.map_some,
      SortedMap.ofPairs_entries]

theorem readStrings_optional (l : List GoString) (h : l.all GoString.validUTF8 = true) :
    readStrings (if l = [] then none else some (.arr (l.map stringJson))) = some l := by
  have hitems : (l.map stringJson).mapM (fun v => readString (some v)) = some l := by
    induction l with
    | nil => rfl
    | cons s l ih =>
      rw [all_cons, Bool.and_eq_true] at h
      rw [map_cons, mapM_cons, readString_plain s h.1, ih h.2]
      rfl
  by_cases hnil : l = []
  · rw [if_pos hnil, hnil]
    rfl
  · rw [if_neg hnil]
    exact hitems

theorem readTime_optional (t : GoTime) (text : List Char)
    (hplain : t = GoTime.zero ∨ t.isZero = false ∧ t.nanosecond < 10 ^ 9 ∧ t.offset % 60 = 0)
    (htext : (if t.isZero then some [] else t.marshalText) = some text) :
    readTime (if t.isZero then none else some (.str (text.map some))) = some t := by
  rcases hplain with rfl | ⟨hzero, hnanos, hminutes⟩
  · rfl
  · rw [hzero] at htext
    have hread : (text.map some).map (fun c => c.getD GoString.runeError) = text := by
      rw [map_map]
      exact map_id _
    simp only [hzero, Bool.false_eq_true, if_false, readTime, hread]
    exact t.unmarshalText_marshalText text hnanos hminutes htext

/-! ### Known names -/

variable (names : List String)

theorem knownFields_append (fs gs : List (Literal × Json Literal)) :
    knownFields names (.obj (fs ++ gs)) =
      (knownFields names (.obj fs) && knownFields names (.obj gs)) := by
  simp only [knownFields, Json.keys, map_append, all_append]

theorem knownFields_field (name : String) (v : Json Literal)
    (h : name ∈ names) : knownFields names (.obj (field name v)) = true := by
  simp only [knownFields, Json.keys, field, map_cons, map_nil, all_cons,
    all_nil, Bool.and_true, any_eq_true, decide_eq_true_eq]
  exact ⟨name, h, rfl⟩

theorem knownFields_optional (name : String) (omitted : Bool)
    (v : Json Literal) (h : name ∈ names) :
    knownFields names (.obj (optional name omitted v)) = true := by
  cases omitted with
  | true => rfl
  | false => exact knownFields_field names name v h

theorem knownFields_reservation (r : Reservation) (t : List Char) :
    knownFields reservationNames (.obj (r.fields t)) = true := by
  delta Reservation.fields
  simp only [knownFields_append, Bool.and_eq_true]
  simp [knownFields_field, knownFields_optional, reservationNames]

/-! ### Whole reservations and events -/

/-- The fields of a plain reservation give it back. -/
theorem ofJson_fields_plain (r : Reservation) (t : List Char) (h : r.plain = true)
    (ht : (if r.expiresAt.isZero then some [] else r.expiresAt.marshalText) = some t) :
    Reservation.ofJson (.obj (r.fields t)) = some r := by
  simp only [Reservation.plain, all_cons, all_nil, Bool.and_true, Bool.and_eq_true,
    Bool.or_eq_true, decide_eq_true_eq, Bool.not_eq_true', and_assoc] at h
  rcases h with ⟨h1, h2, h3, h4, h5, h6, h7, h8, h9, h10, h11, happrovers, hamounts, hcaps, htime⟩
  have hstruct : ¬ (¬ isStruct (Json.obj (r.fields t)) = true ∨
      ¬ knownFields reservationNames (.obj (r.fields t)) = true) := by
    rw [knownFields_reservation]
    simp [isStruct]
  have hget : ∀ name, (Json.obj (r.fields t)).get? (jsonName name) = fieldOf r t name :=
    fun _ => rfl
  unfold Reservation.ofJson
  rw [if_neg hstruct]
  simp only [hget, fieldOf_eq, readString_plain _ h1, readString_plain _ h2,
    readString_plain _ h3, readString_plain _ h4, readString_plain _ h5, readUint64_optional,
    readAmounts_plain _ hamounts, readAmounts_plain _ hcaps, readPointer_plain,
    readString_optional _ h6, readString_optional _ h7, readString_optional _ h8,
    readStrings_optional _ happrovers, readString_optional _ h9, readString_optional _ h10,
    readTime_optional _ _ htime ht, readString_optional _ h11]
  rfl

/-- The text of a value that is an event gives the event. -/
theorem decode_print (v : Json Literal) (e : StateEvent) (h : StateEvent.ofJson v = some e) :
    StateEvent.decode (Json.print goQuoting v) = .ok e := by
  have hparse := Json.parseValue_print goQuoting v
    ((Json.print goQuoting v).length + 1) [] (Nat.le_succ _) (by intro c hc; cases hc)
  rw [append_nil] at hparse
  simp only [StateEvent.decode, hparse, h]
  rfl

/-- The line of a plain event gives it back. -/
theorem decode_plain (e : StateEvent) (text : List Char) (h : e.reservation.plain = true)
    (hprevious : e.previousHash.validUTF8 = true) (hhash : e.hash.validUTF8 = true)
    (htext : e.encode = some text) : StateEvent.decode text = .ok e := by
  rcases Option.map_eq_some_iff.mp htext with ⟨v, hv, rfl⟩
  rcases Option.map_eq_some_iff.mp hv with ⟨t, ht, rfl⟩
  refine decode_print _ _ ?_
  have hknown : knownFields ["sequence", "reservation", "previous_hash", "hash"]
      (.obj (e.fields t)) = true := by
    simp only [StateEvent.fields, knownFields_append, Bool.and_eq_true]
    simp [knownFields_field]
  change StateEvent.ofJson (.obj (e.fields t)) = some e
  unfold StateEvent.ofJson
  rw [hknown, if_neg (by simp [isStruct])]
  simp only [StateEvent.fields, Json.get?_append, get?_field]
  simp only [String.reduceEq, if_true, if_false, Option.none_or, Option.some_or,
    readUint64_plain, Option.getD_some, ofJson_fields_plain e.reservation t h ht,
    readString_plain _ hprevious, readString_plain _ hhash]
  rfl

theorem validUTF8_stateEventHash (e : StateEvent) : (stateEventHash e).validUTF8 = true := by
  rw [GoString.validUTF8, stateEventHash_eq, GoString.pieces_ofRunes, all_map]
  exact all_eq_true.mpr (fun _ _ => rfl)

end Policy

end Regalia
