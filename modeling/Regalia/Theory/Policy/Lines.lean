import Regalia.Core.Policy.FileState

/-!
# Journal Lines Read Back

A journal line that passes the hash check of `readState` carries the same
accounting as the event that was written, although strings and times may come
back changed. The check compares the hash in the line with the hash of what
was decoded, so unless two different texts collide, the decoded event is
written with the same text; and a string that was decoded and is written like
the original is the original.

`Reservation.accounting` keeps the fields the four summaries are made of. The
others, the expiry among them, may differ.

## Main definitions

* `Reservation.accounting`: A reservation without the fields no summary reads.
* `HashTells`: Rereading an event does not run into a hash collision.

## Theorems

* `decode_accounting`: A line that passes its hash check has the accounting
  that was written.
-/

namespace Regalia.Policy

open List
open GoString (ofRunes)
open Option (bind_eq_some_iff)

/-! ### Looking fields up -/

/-- What a reader finds under a name of a reservation's object. -/
def fieldOf (r : Reservation) (expiry : List Char) (name : String) : Option (Json Literal) :=
  (Json.obj (r.fields expiry)).get? (jsonName name)

/-- What is found under each name. -/
theorem fieldOf_eq (r : Reservation) (t : List Char) :
    fieldOf r t "policy_id" = some (stringJson r.policyID) ∧
    fieldOf r t "object_id" = some (stringJson r.objectID) ∧
    fieldOf r t "epoch" = (if r.epoch = 0 then none else some (uint64Json r.epoch)) ∧
    fieldOf r t "principal" = some (stringJson r.principal) ∧
    fieldOf r t "nonce" = some (stringJson r.nonce) ∧
    fieldOf r t "utc_date" = some (stringJson r.utcDate) ∧
    fieldOf r t "amounts" = some (amountsJson r.amounts) ∧
    fieldOf r t "daily_caps" = some (amountsJson r.dailyCaps) ∧
    fieldOf r t "sequence" = r.sequence.map uint64Json ∧
    fieldOf r t "purpose" = (if r.purpose = [] then none else some (stringJson r.purpose)) ∧
    fieldOf r t "environment" =
      (if r.environment = [] then none else some (stringJson r.environment)) ∧
    fieldOf r t "payload_sha256" =
      (if r.payloadSHA256 = [] then none else some (stringJson r.payloadSHA256)) ∧
    fieldOf r t "approvers" =
      (if r.approvers = [] then none else some (.arr (r.approvers.map stringJson))) ∧
    fieldOf r t "approver_set" =
      (if r.approverSet = [] then none else some (stringJson r.approverSet)) ∧
    fieldOf r t "approvals_sha256" =
      (if r.approvalsSHA256 = [] then none else some (stringJson r.approvalsSHA256)) ∧
    fieldOf r t "expires_at" =
      (if r.expiresAt.isZero then none else some (.str (t.map some))) ∧
    fieldOf r t "sequence_key" =
      (if r.sequenceKey = [] then none else some (stringJson r.sequenceKey)) := by
  have hsequence : (if r.sequence = none then none else some (uint64Json (r.sequence.getD 0))) =
      r.sequence.map uint64Json := by
    cases r.sequence <;> rfl
  have hexpiry : (if r.expiresAt.isZero = false then some (.str (t.map some)) else none) =
      (if r.expiresAt.isZero then none else some (.str (t.map some)) : Option (Json Literal)) := by
    cases r.expiresAt.isZero <;> rfl
  delta fieldOf Reservation.fields
  simp only [Json.get?_append, get?_field, get?_optional]
  simp [hsequence, hexpiry]

/-- Of a field that is left out where it is `zero`. -/
theorem optional_inj {α β : Type} [DecidableEq α] {zero a b : α} {f : α → β}
    (hf : f a = f b → a = b)
    (h : (if a = zero then none else some (f a)) = if b = zero then none else some (f b)) :
    a = b := by
  split_ifs at h with ha hb hb
  · rw [ha, hb]
  · exact hf (Option.some.inj h)

/-! ### What a decoder returns -/

/-- A string that came out of a decoder. -/
def Decoded (s : GoString) : Prop := ∃ l, s = GoString.readText l

theorem readString_decoded (v : Option (Json Literal)) (s : GoString)
    (h : readString v = some s) : Decoded s := by
  unfold readString at h
  split at h
  · exact ⟨[], (Option.some.inj h).symm⟩
  · exact ⟨[], (Option.some.inj h).symm⟩
  · rename_i l
    exact ⟨l, (Option.some.inj h).symm⟩
  · cases h

theorem readPairs_decoded (fields : List (Literal × Json Literal)) :
    ∀ pairs, readPairs fields = some pairs → ∀ e ∈ pairs, Decoded e.1 := by
  induction fields with
  | nil =>
    intro pairs h e he
    rw [← Option.some.inj h] at he
    cases he
  | cons f rest ih =>
    intro pairs h e he
    simp only [readPairs] at h
    split at h
    · rename_i n pairs' _ hrest
      rw [← Option.some.inj h] at he
      rcases mem_cons.mp he with rfl | he
      · exact ⟨f.1, rfl⟩
      · exact ih pairs' hrest e he
    · cases h

theorem readAmounts_decoded (v : Option (Json Literal)) (m : Amounts)
    (h : readAmounts v = some m) : ∀ e ∈ m.entries, Decoded e.1 := by
  unfold readAmounts at h
  split at h
  · rw [← Option.some.inj h]
    intro e he
    cases he
  · rw [← Option.some.inj h]
    intro e he
    cases he
  · rename_i fields
    cases hpairs : readPairs fields with
    | none =>
      rw [hpairs] at h
      cases h
    | some pairs =>
      rw [hpairs, Option.map_some] at h
      rw [← Option.some.inj h]
      intro e he
      exact readPairs_decoded fields pairs hpairs e (SortedMap.mem_of_mem_ofPairs pairs e he)
  · cases h

/-- The strings the summaries read came out of a decoder. -/
structure DecodedReservation (r : Reservation) : Prop where
  policyID : Decoded r.policyID
  objectID : Decoded r.objectID
  principal : Decoded r.principal
  nonce : Decoded r.nonce
  utcDate : Decoded r.utcDate
  amounts : ∀ e ∈ r.amounts.entries, Decoded e.1
  sequenceKey : Decoded r.sequenceKey

theorem ofJson_decoded (v : Json Literal) (r : Reservation)
    (h : Reservation.ofJson v = some r) : DecodedReservation r := by
  unfold Reservation.ofJson at h
  split at h
  · cases h
  · rcases bind_eq_some_iff.mp h with ⟨policyID, hPolicyID, h⟩
    rcases bind_eq_some_iff.mp h with ⟨objectID, hObjectID, h⟩
    rcases bind_eq_some_iff.mp h with ⟨_, _, h⟩
    rcases bind_eq_some_iff.mp h with ⟨principal, hPrincipal, h⟩
    rcases bind_eq_some_iff.mp h with ⟨nonce, hNonce, h⟩
    rcases bind_eq_some_iff.mp h with ⟨utcDate, hUtcDate, h⟩
    rcases bind_eq_some_iff.mp h with ⟨amounts, hAmounts, h⟩
    rcases bind_eq_some_iff.mp h with ⟨_, _, h⟩
    rcases bind_eq_some_iff.mp h with ⟨_, _, h⟩
    rcases bind_eq_some_iff.mp h with ⟨_, _, h⟩
    rcases bind_eq_some_iff.mp h with ⟨_, _, h⟩
    rcases bind_eq_some_iff.mp h with ⟨_, _, h⟩
    rcases bind_eq_some_iff.mp h with ⟨_, _, h⟩
    rcases bind_eq_some_iff.mp h with ⟨_, _, h⟩
    rcases bind_eq_some_iff.mp h with ⟨_, _, h⟩
    rcases bind_eq_some_iff.mp h with ⟨_, _, h⟩
    rcases bind_eq_some_iff.mp h with ⟨sequenceKey, hSequenceKey, h⟩
    cases Option.some.inj h
    exact ⟨readString_decoded _ _ hPolicyID, readString_decoded _ _ hObjectID,
      readString_decoded _ _ hPrincipal, readString_decoded _ _ hNonce,
      readString_decoded _ _ hUtcDate, readAmounts_decoded _ _ hAmounts,
      readString_decoded _ _ hSequenceKey⟩

/-! ### Equal texts of decoded values -/

theorem stringJson_inj (s s' : GoString) (hs' : Decoded s') (h : stringJson s = stringJson s') :
    s = s' := by
  rcases hs' with ⟨l, rfl⟩
  injection h with h
  exact GoString.eq_of_pieces_eq s l h

theorem uint64Json_inj (n m : UInt64) (h : uint64Json n = uint64Json m) : n = m := by
  injection h with h
  exact UInt64.toNat_inj.mp (Int.ofNat.inj h)

theorem entries_eq_of_json (l : List (GoString × UInt64)) : ∀ l' : List (GoString × UInt64),
    (∀ e ∈ l', Decoded e.1) →
    l.map (fun e => (e.1.pieces, uint64Json e.2)) =
      l'.map (fun e => (e.1.pieces, uint64Json e.2)) → l = l' := by
  induction l with
  | nil =>
    intro l' _ h
    exact (map_eq_nil_iff.mp h.symm).symm
  | cons e l ih =>
    intro l' hdec h
    cases l' with
    | nil => cases h
    | cons e' l' =>
      simp only [map_cons, List.cons.injEq, Prod.mk.injEq] at h
      rcases h with ⟨⟨hkey, hval⟩, hrest⟩
      have hk : e.1 = e'.1 :=
        stringJson_inj e.1 e'.1 (hdec e' mem_cons_self) (by rw [stringJson, hkey, stringJson])
      have hv : e.2 = e'.2 := uint64Json_inj e.2 e'.2 hval
      rw [Prod.ext hk hv, ih l' (fun x hx => hdec x (mem_cons_of_mem _ hx)) hrest]

theorem amountsJson_inj (m m' : Amounts) (hm' : ∀ e ∈ m'.entries, Decoded e.1)
    (h : amountsJson m = amountsJson m') : m = m' := by
  cases m with
  | none =>
    cases m' with
    | none => rfl
    | some m' => cases h
  | some m =>
    cases m' with
    | none => cases h
    | some m' =>
      injection h with h
      exact congrArg some (SortedMap.ext (entries_eq_of_json m.entries m'.entries hm' h))

/-- The fields of a reservation that the state's summaries are made of; the
    others are reset. -/
def Reservation.accounting (r : Reservation) : Reservation :=
  { r with
    dailyCaps := none, purpose := [], environment := [], payloadSHA256 := [], approvers := []
    approverSet := [], approvalsSHA256 := [], expiresAt := GoTime.zero }

theorem accounting_eq_of_fields (r r' : Reservation) (t t' : List Char)
    (hr' : DecodedReservation r') (h : r.fields t = r'.fields t') :
    r.accounting = r'.accounting := by
  have hfield : ∀ name, fieldOf r t name = fieldOf r' t' name := by
    intro name
    rw [fieldOf, h, fieldOf]
  have hpolicy := hfield "policy_id"
  have hobject := hfield "object_id"
  have hepoch := hfield "epoch"
  have hprincipal := hfield "principal"
  have hnonce := hfield "nonce"
  have hdate := hfield "utc_date"
  have hamounts := hfield "amounts"
  have hsequence := hfield "sequence"
  have hkey := hfield "sequence_key"
  simp only [fieldOf_eq, Option.some.injEq]
    at hpolicy hobject hepoch hprincipal hnonce hdate hamounts hsequence hkey
  have epoch := optional_inj (uint64Json_inj _ _) hepoch
  have key := optional_inj (stringJson_inj _ _ hr'.sequenceKey) hkey
  have sequence : r.sequence = r'.sequence :=
    Option.map_injective (fun n m hnm => uint64Json_inj n m hnm) hsequence
  have policy := stringJson_inj _ _ hr'.policyID hpolicy
  have object := stringJson_inj _ _ hr'.objectID hobject
  have principal := stringJson_inj _ _ hr'.principal hprincipal
  have nonce := stringJson_inj _ _ hr'.nonce hnonce
  have date := stringJson_inj _ _ hr'.utcDate hdate
  have amounts := amountsJson_inj _ _ hr'.amounts hamounts
  simp only [Reservation.accounting, policy, object, epoch, principal, nonce, date, amounts,
    sequence, key]

/-! ### Whole lines -/

/-- An event as its hash sees it. -/
def StateEvent.unhashed (e : StateEvent) : StateEvent := { e with hash := [] }

/-- Rereading the event's line does not run into a collision: if what is read
    has the same digest, it is the same text. It holds trivially of an event
    that is read back as it was written. -/
def HashTells (e : StateEvent) : Prop :=
  ∀ e', StateEvent.decode (e.encode.getD []) = .ok e' →
    Sha256.sum e'.unhashed.bytes = Sha256.sum e.unhashed.bytes →
    e'.unhashed.bytes = e.unhashed.bytes

/-- The fields of an event's line, with the text of its expiry. -/
def StateEvent.fields (e : StateEvent) (t : List Char) : List (Literal × Json Literal) :=
  field "sequence" (uint64Json e.sequence) ++
    field "reservation" (.obj (e.reservation.fields t)) ++
    field "previous_hash" (stringJson e.previousHash) ++ field "hash" (stringJson e.hash)

theorem json_shape (e : StateEvent) (v : Json Literal) (h : e.json = some v) :
    ∃ t, v = .obj (e.fields t) := by
  rcases Option.map_eq_some_iff.mp h with ⟨t, _, hv⟩
  exact ⟨t, hv.symm⟩

/-- Decoding a line starts from the value that was written. -/
theorem decode_encode (e e' : StateEvent) (h : StateEvent.decode (e.encode.getD []) = .ok e') :
    ∃ v, e.json = some v ∧ StateEvent.ofJson v = some e' := by
  cases hjson : e.json with
  | none =>
    rw [StateEvent.encode, hjson] at h
    cases h
  | some v =>
    refine ⟨v, rfl, ?_⟩
    rw [StateEvent.encode, hjson, Option.map_some, Option.getD_some] at h
    have hparse := Json.parseValue_print goQuoting v
      ((Json.print goQuoting v).length + 1) [] (Nat.le_succ _) (by intro c hc; cases hc)
    rw [append_nil] at hparse
    simp only [StateEvent.decode, hparse] at h
    cases hof : StateEvent.ofJson v with
    | none =>
      rw [hof] at h
      cases h
    | some e'' =>
      rw [hof] at h
      simp only [Json.skipBlanks, dropWhile_nil, if_true] at h
      cases h
      rfl

theorem ofJson_fields (e e' : StateEvent) (v : Json Literal) (hv : e.json = some v)
    (h : StateEvent.ofJson v = some e') :
    e'.hash = GoString.readText e.hash.pieces ∧ DecodedReservation e'.reservation := by
  rcases json_shape e v hv with ⟨t, rfl⟩
  unfold StateEvent.ofJson at h
  split at h
  · cases h
  · rcases bind_eq_some_iff.mp h with ⟨_, _, h⟩
    rcases bind_eq_some_iff.mp h with ⟨reservation, hreservation, h⟩
    rcases bind_eq_some_iff.mp h with ⟨_, _, h⟩
    rcases bind_eq_some_iff.mp h with ⟨hash, hhash, h⟩
    cases Option.some.inj h
    refine ⟨?_, ofJson_decoded _ _ hreservation⟩
    have hget : (Json.obj (e.fields t)).get? (jsonName "hash") = some (stringJson e.hash) := by
      simp [StateEvent.fields, Json.get?_append, get?_field]
    rw [hget] at hhash
    exact (Option.some.inj hhash).symm

/-- A hash is ASCII. -/
theorem stateEventHash_eq (e : StateEvent) : stateEventHash e =
    ofRunes ("sha256:".toList ++ hexText (Sha256.sum e.unhashed.bytes)) := by
  simp only [stateEventHash, GoString.ofText, ofRunes, flatMap_append, StateEvent.unhashed]

theorem stateEventHash_decoded (e : StateEvent) :
    GoString.readText (stateEventHash e).pieces = stateEventHash e := by
  rw [stateEventHash_eq, GoString.pieces_ofRunes, GoString.readText, map_map]
  exact congrArg ofRunes (map_id _)

theorem sum_eq_of_hash_eq (e e' : StateEvent) (h : stateEventHash e = stateEventHash e') :
    Sha256.sum e.unhashed.bytes = Sha256.sum e'.unhashed.bytes :=
  hexText_injective _ _ (GoString.ofRunes_injective _ _ (append_cancel_left h))

/-- The bytes of an event determine its value, if it has one. -/
theorem json_eq_of_bytes_eq (e e' : StateEvent) (v : Json Literal) (hv : e.json = some v)
    (h : e'.bytes = e.bytes) : e'.json = some v := by
  have hpos : 0 < (Json.print goQuoting v).length := Json.print_length_pos goQuoting v
  have hbytes : e.bytes = ofRunes (Json.print goQuoting v) := by
    simp only [StateEvent.bytes, StateEvent.encode, hv, Option.map_some]
  cases hv' : e'.json with
  | none =>
    -- nothing was written, so nothing was printed
    have hnil : e'.bytes = ofRunes [] := by
      simp only [StateEvent.bytes, StateEvent.encode, hv', Option.map_none]
      exact flatMap_nil.symm
    rw [hnil, hbytes] at h
    have := GoString.ofRunes_injective _ _ h
    rw [← this] at hpos
    exact absurd hpos (Nat.lt_irrefl 0)
  | some v' =>
    have hbytes' : e'.bytes = ofRunes (Json.print goQuoting v') := by
      simp only [StateEvent.bytes, StateEvent.encode, hv', Option.map_some]
    rw [hbytes', hbytes] at h
    have hprint := GoString.ofRunes_injective _ _ h
    rw [Json.print_injective goQuoting v' v hprint]

/-- A line whose hash check passes carries the accounting that was written. -/
theorem decode_accounting (e e' : StateEvent)
    (hdec : StateEvent.decode (e.encode.getD []) = .ok e') (hhash : e.hash = stateEventHash e)
    (hcheck : e'.hash = stateEventHash e') (htells : HashTells e) :
    e'.reservation.accounting = e.reservation.accounting := by
  rcases decode_encode e e' hdec with ⟨v, hv, hof⟩
  rcases ofJson_fields e e' v hv hof with ⟨hread, hdecoded⟩
  -- the hash in the line is the one that was written
  have hsame : stateEventHash e' = stateEventHash e := by
    rw [← hcheck, hread, hhash, stateEventHash_decoded]
  have hbytes := htells e' hdec (sum_eq_of_hash_eq e' e hsame)
  have hsome : ∃ w, e.unhashed.json = some w := by
    rcases Option.map_eq_some_iff.mp hv with ⟨t, ht, _⟩
    exact ⟨_, Option.map_eq_some_iff.mpr ⟨t, ht, rfl⟩⟩
  rcases hsome with ⟨w, hw⟩
  have hw' := json_eq_of_bytes_eq e.unhashed e'.unhashed w hw hbytes
  rcases json_shape e.unhashed w hw with ⟨t, ht⟩
  rcases json_shape e'.unhashed w hw' with ⟨t', ht'⟩
  have hget := congrArg (fun j => j.get? (jsonName "reservation")) (ht'.symm.trans ht)
  simp only [StateEvent.fields, Json.get?_append, get?_field] at hget
  simp at hget
  exact (accounting_eq_of_fields e.reservation e'.reservation t t' hdecoded hget.symm).symm

end Regalia.Policy
