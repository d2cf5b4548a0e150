import Mathlib.Algebra.Order.BigOperators.Group.List
import Regalia.Core.Heartbeat.Freshness
import Regalia.Theory.Membership.Plain
import Regalia.Theory.Membership.PythonAccept

/-!
# The Written State Can Be Read

A state file is read only up to a size, and a file `accept` wrote that was too
large to be read would strand the peer: it could neither rely on the heartbeat
it holds nor take the next. What is written is a verified envelope, whose fields
are all of bounded length, with a floor whose numbers Python could convert.

## Main definitions

* `Valid`: What a heartbeat that validates holds.

## Theorems

* `length_envelope_le`: The length of a signed envelope.
* `length_document_le`: The length of a state with such an envelope.
* `readState_written`: What was written is read back.
-/

namespace Regalia.Heartbeat

open List

variable {manifest : Value} {crypto : Crypto} {heartbeat : Value}

open Regalia.Membership

/-! ### Heartbeats -/

theorem parseTime_eq_ok {v : Value} {label : String} {n : Int} (h : parseTime v label = .ok n) :
    (∃ s, v = .str s ∧ s.toList.length = 20 ∧ ∀ c ∈ s.toList, isPlain c = true) ∧ n < 2 ^ 38 := by
  unfold parseTime at h
  simp only [steps_eq_ok] at h
  obtain ⟨text, htext, t, ht, htakes, -, rfl⟩ := h
  obtain ⟨hlength, hchars, hyear⟩ := parseTime_shape ht
  simp only [strptimeTakes, Civil.realDate, Bool.and_eq_true, decide_eq_true_eq] at htakes
  have hday := daysIn_le t.year t.month
  refine ⟨⟨text, ?_, hlength, ?_⟩, Civil.unix_lt hyear (by omega) (by omega) (by omega) (by omega)
    (by omega)⟩
  · cases v with
    | str s => exact congrArg Json.str (Option.some.inj htext)
    | _ => cases htext
  · intro c hc
    rcases hchars c hc with hdigit | hmark
    · simp [isPlain, Char.isAlphanum, hdigit]
    · simp only [mem_cons, not_mem_nil, or_false] at hmark
      rcases hmark with rfl | rfl | rfl | rfl <;> rfl

/-- A number a heartbeat counts with. -/
def IsCount (v : Value) (n : Int) : Prop := v = .num n ∧ 1 ≤ n ∧ n < 2 ^ 63

/-- What a heartbeat that validates holds. -/
structure Valid (heartbeat : Value) (issued expires : Int) : Prop where
  exact : Exact heartbeat heartbeatKeys
  schema : field heartbeat "schema" = .str schema
  epoch : ∃ n, IsCount (field heartbeat "epoch") n
  sequence : IsCount (field heartbeat "sequence") (sequenceOf heartbeat)
  digest : IsHex 64 (field heartbeat "manifest_digest")
  issued : parseTime (field heartbeat "issued_at") "issued_at" = .ok issued
  expires : parseTime (field heartbeat "expires_at") "expires_at" = .ok expires

theorem positiveField_eq_ok {k : String} {u : Unit} (h : positiveField heartbeat k = .ok u) :
    IsCount (field heartbeat k) ((asInteger (field heartbeat k)).getD 0) := by
  unfold positiveField at h
  rw [require_eq_ok] at h
  cases hfield : field heartbeat k with
  | num n =>
    rw [hfield] at h
    simp only [asInteger, Option.any_some, Bool.and_eq_true, decide_eq_true_eq] at h
    exact ⟨rfl, h⟩
  | _ =>
    rw [hfield] at h
    simp [asInteger] at h

theorem valid_of_validate {times : Int × Int} (h : validate heartbeat = .ok times) :
    Valid heartbeat times.1 times.2 := by
  unfold validate at h
  simp only [steps_eq_ok, Python.exact_eq_ok, Python.hexField_eq_ok] at h
  obtain ⟨hexact, hschema, hepoch, hsequence, hdigest, issued, hissued, expires, hexpires,
    -, -, rfl⟩ := h
  exact ⟨hexact, hschema, ⟨_, positiveField_eq_ok hepoch⟩, positiveField_eq_ok hsequence, hdigest,
    hissued, hexpires⟩

/-! ### Lengths -/

/-- The length of what is written of a value. -/
def length (v : Value) : Nat := (Json.spaced asciiQuoting v).length

theorem length_num_le (n : Int) : length (.num n) ≤ (Nat.toDigits 10 n.natAbs).length + 1 := by
  unfold length
  rw [Json.spaced]
  exact length_printInt_le n

theorem IsCount.length_le {v : Value} {n : Int} (h : IsCount v n) : length v ≤ 20 := by
  obtain ⟨rfl, hlow, hhigh⟩ := h
  have hdigits : (Nat.toDigits 10 n.natAbs).length ≤ 19 :=
    (Nat.length_toDigits_le_iff (by decide) (by decide)).mpr (by omega)
  have := length_num_le n
  omega

theorem length_time {v : Value} {label : String} {n : Int} (h : parseTime v label = .ok n) :
    length v = 22 := by
  obtain ⟨⟨s, rfl, hlength, hplain⟩, -⟩ := parseTime_eq_ok h
  rw [length, length_spaced_str hplain, hlength]

theorem length_exact_le {v : Value} {keys : List String} (hordered : v.Ordered)
    (hexact : Exact v keys) (hkeys : keys.Nodup) :
    length v ≤ 2 + (keys.map (fun k =>
      (asciiQuoting.body k).length + length (field v k) + 5)).sum :=
  length_spaced_exact_le hordered hexact hkeys

theorem Valid.length_le {issued expires : Int} (h : Valid heartbeat issued expires)
    (hordered : heartbeat.Ordered) : length heartbeat ≤ 263 := by
  obtain ⟨epoch, hepoch⟩ := h.epoch
  have hepoch := hepoch.length_le
  have hsequence := h.sequence.length_le
  have hschema : length (field heartbeat "schema") = 22 := by
    rw [h.schema]
    decide
  have hissued := length_time h.issued
  have hexpires := length_time h.expires
  have hdigest : length (field heartbeat "manifest_digest") = 66 := h.digest.length_spaced
  have hnames : heartbeatKeys.map (fun k => (asciiQuoting.body k).length) = [7, 6, 9, 10, 11, 16] := by
    decide
  have hall := length_exact_le hordered h.exact (by decide)
  simp only [heartbeatKeys, map_cons, map_nil, cons.injEq, and_true] at hnames
  simp only [heartbeatKeys, map_cons, map_nil, sum_cons, sum_nil, hschema,
    hissued, hexpires, hdigest, hnames] at hall
  omega

theorem length_key_le {s : String} (h : matchesSignatureKey s = true) : length (.str s) ≤ 132 := by
  unfold matchesSignatureKey at h
  rw [Bool.or_eq_true] at h
  rcases h with h | h
  · have : length (.str s) = 66 := IsHex.length_spaced ⟨s, rfl, h⟩
    omega
  · exact le_of_eq (IsHex.length_spaced ⟨s, rfl, h⟩)

-- a party is the owner or has the name of a node
theorem length_party_le {schema : Schema} {party : String} {key : Algorithm × String}
    (hvalid : Membership.Valid schema manifest) (h : PartyKey manifest party key) :
    length (.str party) ≤ 34 := by
  unfold PartyKey at h
  by_cases howner : party = ownerParty
  · rw [howner]
    decide
  · rw [if_neg howner] at h
    obtain ⟨node, hnode, rfl, -⟩ := h
    obtain ⟨hshort, hplain⟩ := plain_of_matchesNodeID (hvalid.nodeRules node hnode).idName
    rw [length, length_spaced_str hplain]
    omega

theorem length_signature_le {schema : Schema} {message : List UInt8} {sig : Value} {party : String}
    (hvalid : Membership.Valid schema manifest) (hordered : sig.Ordered)
    (h : SignedBy crypto manifest message sig party) : length sig ≤ 327 := by
  obtain ⟨hexact, hparty, key, hkey, hname, hnamed, s, hsig, hhex, -⟩ := h
  have hpartyLength := length_party_le hvalid hnamed
  have hkeyLength := length_key_le hname
  have hsigLength : length (field sig "sig") = 130 := IsHex.length_spaced ⟨s, hsig, hhex⟩
  rw [← hparty] at hpartyLength
  rw [← hkey] at hkeyLength
  have hnames : ["party", "key", "sig"].map (fun k => (asciiQuoting.body k).length) = [6, 4, 4] := by
    decide
  have hall := length_exact_le hordered hexact (by decide)
  simp only [map_cons, map_nil, cons.injEq, and_true] at hnames
  simp only [map_cons, map_nil, sum_cons, sum_nil, hnames, hsigLength] at hall
  omega

theorem length_signatures_le {schema : Schema} {message : List UInt8} {signatures : Value}
    {parties : List String} (hvalid : Membership.Valid schema manifest)
    (hordered : signatures.Ordered) (h : Signatures crypto manifest message signatures parties) :
    length signatures ≤ 5266 := by
  have hitems : ∀ sig ∈ itemsOf signatures, length sig + 2 ≤ 329 := by
    intro sig hsig
    obtain ⟨party, -, hsigned⟩ := exists_of_mem_right h.signed.flip hsig
    have hsigOrdered : sig.Ordered := by
      rw [h.list] at hordered
      exact Json.orderedItems_iff.mp hordered sig hsig
    have := length_signature_le hvalid hsigOrdered hsigned
    omega
  have hsum : ((itemsOf signatures).map (fun sig => length sig + 2)).sum ≤
      (itemsOf signatures).length * 329 := by
    simpa using sum_le_card_nsmul ((itemsOf signatures).map (fun sig => length sig + 2)) 329
      (forall_mem_map.mpr hitems)
  have hfew := h.few
  have hlength : length (.arr (itemsOf signatures)) ≤
      2 + ((itemsOf signatures).map (fun sig => length sig + 2)).sum :=
    Json.length_spaced_arr_le asciiQuoting (itemsOf signatures)
  rw [← h.list] at hlength
  have hmax : maxSignatures = 16 := rfl
  omega

/-- What the two ways of signing ask of an envelope. -/
theorem signedBy_eq_ok {envelope manifest : Value} {signed : Signed}
    (h : signedBy crypto envelope manifest = .ok signed) :
    signed.heartbeat = field envelope "heartbeat" ∧
      Valid signed.heartbeat signed.issued signed.expires ∧
      ((Exact envelope ["heartbeat", "signatures"] ∧ ∃ schema parties,
          Membership.Valid schema manifest ∧ Signatures crypto manifest (message signed.heartbeat)
            (field envelope "signatures") parties) ∨
        (Exact envelope ["heartbeat", "signature"] ∧
          Exact (field envelope "signature") ["key", "sig"] ∧
          (∃ key, field (field envelope "signature") "key" = .str key ∧
            matchesSignatureKey key = true) ∧
          IsHex 128 (field (field envelope "signature") "sig"))) := by
  unfold signedBy at h
  split at h
  · unfold signedByQuorum at h
    simp only [steps_eq_ok, Python.exact_eq_ok] at h
    obtain ⟨hexact, times, htimes, nodes, hvalid, counted, hcounted, -, -, rfl⟩ := h
    obtain ⟨⟨schema, hvalid⟩, -⟩ := Python.validate_eq_ok.mp hvalid
    obtain ⟨-, parties, hsignatures, -⟩ := (Python.countingParties_eq_ok hvalid).mp hcounted
    exact ⟨rfl, valid_of_validate htimes, .inl ⟨hexact, schema, parties, hvalid, hsignatures⟩⟩
  · unfold signedByKey at h
    simp only [steps_eq_ok, Python.exact_eq_ok, Python.hexField_eq_ok, asText_filter_eq_some] at h
    obtain ⟨hexact, hsignature, key, hkey, hsig, times, htimes, -, -, -, -, -, -, -, -, rfl⟩ := h
    exact ⟨rfl, valid_of_validate htimes, .inr ⟨hexact, hsignature, ⟨key, hkey⟩, hsig⟩⟩

theorem length_envelope_le {envelope : Document} {signed : Signed}
    (h : signedBy crypto envelope manifest = .ok signed) : length envelope ≤ 5562 := by
  obtain ⟨hheartbeat, hvalid, hsigned⟩ := signedBy_eq_ok h
  have hlength := hvalid.length_le (hheartbeat ▸ Ordered.field envelope.2 "heartbeat")
  rw [hheartbeat] at hlength
  have hnames : ["heartbeat", "signatures", "signature", "key", "sig"].map (fun k =>
      (asciiQuoting.body k).length) = [10, 11, 10, 4, 4] := by
    decide
  simp only [map_cons, map_nil, cons.injEq, and_true] at hnames
  rcases hsigned with ⟨hexact, schema, parties, hmanifest, hsignatures⟩ |
    ⟨hexact, hsignature, ⟨key, hkey, hname⟩, hsig⟩
  · have hall := length_exact_le envelope.2 hexact (by decide)
    have hlist := length_signatures_le hmanifest (Ordered.field envelope.2 "signatures") hsignatures
    simp only [map_cons, map_nil, sum_cons, sum_nil, hnames] at hall
    omega
  · have hall := length_exact_le envelope.2 hexact (by decide)
    have hone := length_exact_le (Ordered.field envelope.2 "signature") hsignature (by decide)
    have hkeyLength := length_key_le hname
    rw [← hkey] at hkeyLength
    have hsigLength : length (field (field envelope "signature") "sig") = 130 := hsig.length_spaced
    simp only [map_cons, map_nil, sum_cons, sum_nil, hnames, hsigLength] at hall hone
    omega

/-! ### The state -/

theorem length_floorValue_le {floor : Option Floor} {depth : Nat}
    (h : readable depth (floorValue floor) = true) : length (floorValue floor) ≤ 8629 := by
  cases floor with
  | none => decide
  | some floor =>
    cases depth with
    | zero => simp [floorValue, Floor.value, readable] at h
    | succ depth =>
      simp only [floorValue, Floor.value, Option.map_some, Option.getD_some, readable,
        all_cons, all_nil, Bool.and_true, Bool.and_eq_true] at h
      have htime := length_num_le floor.time
      have hclock := length_num_le floor.tpmClock
      have htimeDigits := of_decide_eq_true h.1
      have hclockDigits := of_decide_eq_true h.2
      have hdigits : maxDigits = 4300 := rfl
      have hnames : ["time", "tpm_clock"].map (fun k => (asciiQuoting.body k).length) =
          [5, 10] := by decide
      have hall : length floor.value ≤ _ := Json.length_spaced_obj_le asciiQuoting
        [("time", .num floor.time), ("tpm_clock", .num floor.tpmClock)]
      simp only [map_cons, map_nil, cons.injEq, and_true] at hnames
      simp only [map_cons, map_nil, sum_cons, sum_nil, hnames] at hall
      show length floor.value ≤ 8629
      unfold length at htime hclock hall ⊢
      omega

/-- A stored bound. -/
def Allowed (allowance : Option Int) : Prop := ∀ a, allowance = some a → 1 ≤ a ∧ a ≤ maxAllowance

theorem length_allowanceValue_le {allowance : Option Int} (h : Allowed allowance) :
    length (allowanceValue allowance) ≤ 6 := by
  cases allowance with
  | none => decide
  | some a =>
    obtain ⟨hlow, hhigh⟩ := h a rfl
    have hmax : maxAllowance = 53704 := rfl
    have hdigits : (Nat.toDigits 10 a.natAbs).length ≤ 5 :=
      (Nat.length_toDigits_le_iff (by decide) (by decide)).mpr (by omega)
    have : length (allowanceValue (some a)) ≤ _ := length_num_le a
    omega

theorem length_document_le {state : State} (henvelope : length state.envelope ≤ 5562)
    (hallowed : Allowed state.allowance) (h : readable maxDepth state.document = true) :
    length state.document ≤ maxStateBytes := by
  have hfloor : readable (maxDepth - 1) (floorValue state.floor) = true := by
    simp only [State.document, maxDepth, readable, all_cons, all_nil, Bool.and_true,
      Bool.and_eq_true] at h
    exact h.2.2
  have hfloor := length_floorValue_le hfloor
  have hallowance := length_allowanceValue_le hallowed
  have hnames : ["allowance", "envelope", "floor"].map (fun k => (asciiQuoting.body k).length) =
      [10, 9, 6] := by decide
  have hall : length state.document ≤ _ := Json.length_spaced_obj_le asciiQuoting
    [("allowance", allowanceValue state.allowance), ("envelope", state.envelope),
      ("floor", floorValue state.floor)]
  have hmax : maxStateBytes = 16384 := rfl
  simp only [map_cons, map_nil, cons.injEq, and_true] at hnames
  simp only [map_cons, map_nil, sum_cons, sum_nil, hnames] at hall
  unfold length at henvelope hfloor hallowance hall ⊢
  omega

theorem written_eq_ok {state : State} {raw : Raw} :
    written state = .ok raw ↔ readable maxDepth state.document = true ∧
      raw = ⟨length state.document, some state.document⟩ := by
  unfold written
  simp only [steps_eq_ok, length]
  exact and_congr_right (fun _ => eq_comm)

theorem floorOf_floorValue (floor : Option Floor) : floorOf (floorValue floor) = .ok floor := by
  cases floor with
  | none => rfl
  | some floor =>
    have hexact : Python.exact floor.value ["time", "tpm_clock"] "floor" = .ok () :=
      Python.exact_eq_ok.mpr ⟨rfl, fun k => Iff.rfl⟩
    have hnull : floor.value ≠ .null := by simp [Floor.value]
    show floorOf floor.value = _
    unfold floorOf
    rw [if_neg hnull, hexact]
    simp [Floor.value, field, Json.get?, lookup_cons, asCount, demand, bind, Except.bind, pure,
      Except.pure]

theorem allowanceOf_allowanceValue {allowance : Option Int} (h : Allowed allowance) :
    allowanceOf (allowanceValue allowance) = .ok allowance := by
  cases allowance with
  | none => rfl
  | some a =>
    obtain ⟨hlow, hhigh⟩ := h a rfl
    have hnull : allowanceValue (some a) ≠ .null := by simp [allowanceValue]
    unfold allowanceOf
    rw [if_neg hnull]
    have hfilter : (asInteger (allowanceValue (some a))).filter
        (fun n => 1 ≤ n && n ≤ maxAllowance) = some a := by
      simp [allowanceValue, asInteger, Option.filter, hlow, hhigh]
    rw [hfilter]
    rfl

/-- What was written is read back, if it is not too large. -/
theorem readState_written {state : State} {raw : Raw} (hallowed : Allowed state.allowance)
    (h : written state = .ok raw) (hsize : raw.size ≤ maxStateBytes) :
    readState (some raw) = .ok state := by
  obtain ⟨hreadable, rfl⟩ := written_eq_ok.mp h
  have hload : load ⟨length state.document, some state.document⟩ = .ok state.document := by
    simp [load, demand, require, hreadable, bind, Except.bind, pure, Except.pure]
  have hdefault : setDefault state.document = state.document := rfl
  have hexact : Python.exact state.document ["envelope", "floor", "allowance"]
      "freshness state" = .ok () := by
    refine Python.exact_eq_ok.mpr ⟨rfl, fun k => ?_⟩
    show k ∈ ["allowance", "envelope", "floor"] ↔ _
    simp only [mem_cons, not_mem_nil, or_false]
    tauto
  have hfloor : field state.document "floor" = floorValue state.floor := rfl
  have hallowance : field state.document "allowance" = allowanceValue state.allowance := rfl
  simp only [readState, steps_eq_ok]
  refine ⟨hsize, state.document, hload, rfl, ?_⟩
  rw [hdefault]
  refine ⟨hexact, state.floor, ?_, state.allowance, ?_, rfl⟩
  · rw [hfloor, floorOf_floorValue]
  · rw [hallowance, allowanceOf_allowanceValue hallowed]

end Regalia.Heartbeat
