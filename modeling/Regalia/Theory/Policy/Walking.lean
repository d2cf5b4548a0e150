import Mathlib.Data.Nat.Bitwise
import Mathlib.Tactic.Ring
import Regalia.Core.Policy.Wire
import Regalia.Data.Checker

/-!
# Walking a Message

What `decodeVarint` and `walkFields` read, over the natural numbers: a varint
of any length and value, and the fields of a message as they stand one after
another. The code's shifts and sums are of 64 bits; where one of them would
wrap, the code refuses (`payload_fits`, `addLength_fits`).

## Main definitions

* `Varint`, `Fits`: A base-128 varint, and one that the code takes.
* `Framed`: The bytes in front of those of a field.
* `Fields`: The fields at the start of some bytes, and what follows them.
* `slicedFieldAt`: A round of the loop that panics outside the input.

## Theorems

* `decodeVarint_eq_ok`: What is decoded.
* `fieldAt_eq_ok`: One round reads one field.
* `walkFrom_fields`: The loop reads the fields, up to what is none.
* `walkFields_visits`: Both functions on every input.
-/

namespace Regalia.Policy

open List

/-- The bytes of a varint and its value: seven bits of each byte, the low ones
    first, and the high bit on every byte but the last. -/
inductive Varint : GoString → Nat → Prop
  | last {b : UInt8} (hb : b.toNat < 128) : Varint [b] b.toNat
  | more {b : UInt8} {rest : GoString} {n : Nat} (hb : ¬ b.toNat < 128) (hrest : Varint rest n) :
      Varint (b :: rest) (b.toNat % 128 + 128 * n)

/-- A varint of ten bytes at most, for a number of 64 bits. -/
structure Fits (varint : GoString) (n : Nat) : Prop where
  spells : Varint varint n
  length : varint.length ≤ 10
  value : n < 2 ^ 64

/-- The bytes in front of those of a field: its key and, for wire type 2, its
    length. -/
inductive Framed (f : Field) : GoString → Prop
  | varint {key : GoString} {n : Nat} (hwire : f.wire = 0)
      (hkey : Fits key (8 * f.tag.toNat + f.wire.toNat)) (hvalue : Fits f.value n) : Framed f key
  | bytes {key length : GoString} (hwire : f.wire = 2)
      (hkey : Fits key (8 * f.tag.toNat + f.wire.toNat)) (hlength : Fits length f.value.length) :
      Framed f (key ++ length)

/-- The fields at the start of some bytes, one behind the other, and the rest,
    at the start of which there is none. -/
inductive Fields : GoString → List Field → GoString → Prop
  | none {bytes : GoString}
      (hnone : ∀ f header rest, bytes = header ++ (f.value ++ rest) → ¬ Framed f header) :
      Fields bytes [] bytes
  | next {f : Field} {header rest left : GoString} {fields : List Field} (hframed : Framed f header)
      (hrest : Fields rest fields left) : Fields (header ++ (f.value ++ rest)) (f :: fields) left

/-- `input[lo:hi]`, which panics outside the input. -/
def slice (input : GoString) (lo hi : Int) : Option GoString :=
  if 0 ≤ lo ∧ lo ≤ hi ∧ hi ≤ input.length then some ((input.drop lo.toNat).take (hi - lo).toNat)
  else none

/-- `fieldAt` with the slices as the code takes them: `none` is a panic. -/
def slicedFieldAt (input : GoString) (offset : Nat) :
    ExceptT SignDocError Option (Field × Nat) := do
  let (key, consumed) ← under "tag varint: " [] (decodeVarint (← slice input offset input.length))
  let offset := offset + consumed
  let number := key >>> 3
  let wire := key &&& 0x7
  if wire = 0 then do
    let (_, consumed) ← under "field %d varint: " [number]
      (decodeVarint (← slice input offset input.length))
    return (⟨number, wire, ← slice input offset (offset + consumed : Nat)⟩, offset + consumed)
  else if wire = 2 then do
    let (length, consumed) ← under "field %d length: " [number]
      (decodeVarint (← slice input offset input.length))
    let offset := offset + consumed
    let stop := addLength offset length
    if stop < offset ∨ input.length < stop then
      throw { format := "field %d length %d exceeds buffer", numbers := [number, length] }
    else
      return (⟨number, wire, ← slice input offset stop⟩, stop.toNat)
  else throw { format := "field %d wire type %d not allowed", numbers := [number, wire] }

variable {value v : UInt64} {b : UInt8} {k n : Nat} {input : GoString} {f : Field}

/-! ### Varints -/

theorem toNat_payload : (b &&& 0x7f).toNat = b.toNat % 128 :=
  (UInt8.toNat_and b 0x7f).trans (Nat.and_two_pow_sub_one_eq_mod b.toNat 7)

theorem ends_iff : b &&& 0x80 = 0 ↔ b.toNat < 128 := by
  have hlt := b.toNat_lt
  have hbit := Nat.testBit_eq_decide_div_mod_eq (x := b.toNat) (i := 7)
  rw [← UInt8.toNat_inj, UInt8.toNat_and]
  change b.toNat &&& 2 ^ 7 = 0 ↔ _
  rw [Nat.and_two_pow, hbit]
  by_cases h : b.toNat < 128
  · simp [h, Nat.div_eq_of_lt]
  · simp [h]
    omega

theorem payload_fits (hk : k < 10) :
    2 ^ (7 * k) * (b.toNat % 128) < 2 ^ 64 ↔ ¬ (7 * k = 63 ∧ 1 < b &&& 0x7f) := by
  rw [UInt8.lt_iff_toNat_lt, toNat_payload, UInt8.toNat_one]
  by_cases hlast : k = 9
  · subst hlast
    omega
  · have hpow : 2 ^ (7 * k) ≤ 2 ^ 56 := Nat.pow_le_pow_right (by omega) (by omega)
    have hfit : 2 ^ (7 * k) * (b.toNat % 128) ≤ 2 ^ 56 * 128 := Nat.mul_le_mul hpow (by omega)
    omega

-- the payload comes in above what was read, so the or is a sum
theorem toNat_accumulate (hk : k < 10) (hvalue : value.toNat < 2 ^ (7 * k))
    (hfit : 2 ^ (7 * k) * (b.toNat % 128) < 2 ^ 64) :
    (value ||| ((b &&& 0x7f).toUInt64 <<< UInt64.ofNat (7 * k))).toNat =
      value.toNat + 2 ^ (7 * k) * (b.toNat % 128) := by
  have hshift : 7 * k % 2 ^ 64 % 64 = 7 * k := by omega
  rw [UInt64.toNat_or, UInt64.toNat_shiftLeft, UInt8.toNat_toUInt64, toNat_payload,
    UInt64.toNat_ofNat', hshift, Nat.shiftLeft_eq, Nat.mul_comm, Nat.mod_eq_of_lt hfit, Nat.or_comm,
    ← Nat.two_pow_add_eq_or_of_lt hvalue, Nat.add_comm]

/-- One byte more: its payload is added, if the sum is of 64 bits. -/
theorem decodeVarintFrom_cons {rest : GoString} (hvalue : value.toNat < 2 ^ (7 * k)) :
    decodeVarintFrom (b :: rest) (7 * k) value k = .ok (v, n) ↔
      k < 10 ∧ ∃ sum : UInt64, sum.toNat = value.toNat + 2 ^ (7 * k) * (b.toNat % 128) ∧
        if b.toNat < 128 then v = sum ∧ n = k + 1
        else decodeVarintFrom rest (7 * (k + 1)) sum (k + 1) = .ok (v, n) := by
  rw [decodeVarintFrom]
  by_cases hk : k < 10
  · rw [if_neg (by omega)]
    by_cases hfit : 2 ^ (7 * k) * (b.toNat % 128) < 2 ^ 64
    · rw [if_neg ((payload_fits hk).mp hfit), ← toNat_accumulate hk hvalue hfit]
      simp only [ends_iff, hk, true_and, UInt64.toNat_inj, exists_eq_left]
      by_cases hb : b.toNat < 128
      · simp only [if_pos hb, Except.ok.injEq, Prod.mk.injEq, eq_comm]
      · simp only [if_neg hb]
        rfl
    · rw [if_pos (not_not.mp (mt (payload_fits hk).mpr hfit))]
      constructor
      · nofun
      · rintro ⟨-, sum, hsum, -⟩
        have := sum.toNat_lt
        omega
  · rw [if_pos (by omega)]
    simp [hk]

theorem decodeVarintFrom_eq_ok (bytes : GoString) :
    ∀ {k : Nat} {value : UInt64}, value.toNat < 2 ^ (7 * k) →
      (decodeVarintFrom bytes (7 * k) value k = .ok (v, n) ↔
        ∃ varint rest c, bytes = varint ++ rest ∧ Varint varint c ∧ n = k + varint.length ∧ n ≤ 10 ∧
          v.toNat = value.toNat + 2 ^ (7 * k) * c) := by
  induction bytes with
  | nil =>
    intro k value _
    constructor
    · nofun
    · rintro ⟨_, _, _, h, hvarint, -⟩
      rw [(append_eq_nil_iff.mp h.symm).1] at hvarint
      cases hvarint
  | cons b rest ih =>
    intro k value hvalue
    have hpow : 2 ^ (7 * (k + 1)) = 2 ^ (7 * k) * 128 := Nat.pow_add 2 (7 * k) 7
    have hbelow : value.toNat + 2 ^ (7 * k) * (b.toNat % 128) < 2 ^ (7 * (k + 1)) := by
      have := Nat.mul_le_mul_left (2 ^ (7 * k)) (show b.toNat % 128 ≤ 127 by omega)
      omega
    rw [decodeVarintFrom_cons hvalue]
    constructor
    · rintro ⟨hk, sum, hsum, h⟩
      by_cases hb : b.toNat < 128
      · rw [if_pos hb] at h
        rw [Nat.mod_eq_of_lt hb, ← h.1] at hsum
        exact ⟨[b], rest, _, rfl, .last hb, h.2, by omega, hsum⟩
      · rw [if_neg hb, ih (hsum.trans_lt hbelow)] at h
        rcases h with ⟨varint, rest, c, rfl, hvarint, hn, hten, hv⟩
        refine ⟨b :: varint, rest, _, rfl, .more hb hvarint, ?_, hten, ?_⟩
        · rw [length_cons]
          omega
        · rw [hv, hsum, hpow]
          ring
    · rintro ⟨_, tail, _, happ, hvarint, hn, hten, hv⟩
      cases hvarint with
      | last hb =>
        cases happ
        rw [length_singleton] at hn
        exact ⟨by omega, v, by rw [hv, Nat.mod_eq_of_lt hb], by rw [if_pos hb]; exact ⟨rfl, hn⟩⟩
      | more hb hrest =>
        cases happ
        have hlt := v.toNat_lt
        rw [length_cons] at hn
        rw [Nat.mul_add] at hv
        have hsum := UInt64.toNat_ofNat_of_lt'
          (show value.toNat + 2 ^ (7 * k) * (b.toNat % 128) < 2 ^ 64 by omega)
        refine ⟨by omega, _, hsum, ?_⟩
        rw [if_neg hb, ih (hsum.trans_lt hbelow)]
        refine ⟨_, tail, _, rfl, hrest, by omega, hten, ?_⟩
        rw [hv, hsum, hpow]
        ring

theorem decodeVarint_eq_ok : decodeVarint input = .ok (v, n) ↔
    ∃ varint rest, input = varint ++ rest ∧ varint.length = n ∧ Fits varint v.toNat := by
  rw [decodeVarint, decodeVarintFrom_eq_ok (k := 0) input (by decide)]
  simp only [UInt64.toNat_zero, Nat.mul_zero, Nat.pow_zero, Nat.one_mul, Nat.zero_add]
  constructor
  · rintro ⟨varint, rest, c, happ, hvarint, rfl, hten, rfl⟩
    exact ⟨varint, rest, happ, rfl, hvarint, hten, v.toNat_lt⟩
  · rintro ⟨varint, rest, happ, rfl, hvarint, hten, -⟩
    exact ⟨varint, rest, _, happ, hvarint, rfl, hten, rfl⟩

theorem decodeVarint_append {varint rest : GoString} (h : Fits varint n) :
    decodeVarint (varint ++ rest) = .ok (UInt64.ofNat n, varint.length) := by
  rw [decodeVarint_eq_ok]
  refine ⟨varint, rest, rfl, rfl, ?_⟩
  rwa [UInt64.toNat_ofNat_of_lt' h.value]

/-! ### Fields -/

variable {offset size : Nat} {length : UInt64}

theorem addLength_eq : addLength offset length = (offset + length.toNat : Int).bmod (2 ^ 64) := by
  have hlength : length.toInt64.toInt = (length.toNat : Int).bmod (2 ^ 64) :=
    BitVec.toInt_eq_toNat_bmod length.toBitVec
  rw [addLength, Int64.toInt_add, Int64.toInt_ofNat', hlength]
  exact (Int.add_bmod ..).symm

-- a sum that wraps lies below the offset
theorem addLength_fits (hoffset : offset ≤ size) (hsize : size < 2 ^ 63) :
    ¬ (addLength offset length < offset ∨ size < addLength offset length) ↔
      offset + length.toNat ≤ size := by
  have hlt := length.toNat_lt
  rw [addLength_eq, Int.bmod_def]
  omega

theorem addLength_of_lt (h : offset + length.toNat < 2 ^ 63) :
    addLength offset length = (offset + length.toNat : Nat) := by
  rw [addLength_eq, Int.bmod_def]
  omega

theorem key_iff {key tag wire : UInt64} (hwire : wire.toNat < 8) :
    (key >>> 3 = tag ∧ key &&& 7 = wire) ↔ key.toNat = 8 * tag.toNat + wire.toNat := by
  have hand : (key &&& 7).toNat = key.toNat % 8 :=
    (UInt64.toNat_and key 7).trans (Nat.and_two_pow_sub_one_eq_mod key.toNat 3)
  have hshift : (key >>> 3).toNat = key.toNat / 8 :=
    (UInt64.toNat_shiftRight key 3).trans (Nat.shiftRight_eq_div_pow _ _)
  rw [← UInt64.toNat_inj, ← UInt64.toNat_inj, hand, hshift]
  omega

theorem under_eq_ok {α : Type} {format : String} {numbers : List UInt64}
    {r : Except SignDocError α} {a : α} : under format numbers r = .ok a ↔ r = .ok a := by
  cases r <;> simp [under, Except.mapError]

/-- One round reads the field at the start of what is left, and stops behind
    it. -/
theorem fieldAt_eq_ok {front bytes : GoString} (hlen : (front ++ bytes).length < 2 ^ 63) :
    fieldAt (front ++ bytes) front.length = .ok (f, n) ↔
      ∃ header rest, bytes = header ++ (f.value ++ rest) ∧ Framed f header ∧
        n = (front ++ (header ++ f.value)).length := by
  simp only [fieldAt, bind_eq_ok, under_eq_ok, drop_left, decodeVarint_eq_ok, Prod.exists]
  constructor
  · rintro ⟨key, _, ⟨header, tail, rfl, rfl, hfits⟩, h⟩
    rw [drop_length_add_append, drop_left] at h
    split at h
    · next hwire =>
      rw [(key_iff (by rw [hwire]; decide)).mp ⟨rfl, rfl⟩] at hfits
      simp only [bind_eq_ok, under_eq_ok, decodeVarint_eq_ok, pure_eq_ok, Prod.exists] at h
      rcases h with ⟨n, _, ⟨value, rest, rfl, rfl, hvalue⟩, h⟩
      rw [take_left] at h
      cases h
      exact ⟨header, rest, rfl, .varint hwire hfits hvalue, by simp [Nat.add_assoc]⟩
    · split at h
      · next hwire =>
        rw [(key_iff (by rw [hwire]; decide)).mp ⟨rfl, rfl⟩] at hfits
        simp only [bind_eq_ok, under_eq_ok, decodeVarint_eq_ok, Prod.exists] at h
        rcases h with ⟨n, _, ⟨length, tail, rfl, rfl, hlength⟩, h⟩
        split at h
        · cases h
        · next hstop =>
          simp only [length_append] at hlen hstop
          rw [addLength_fits (by omega) (by omega)] at hstop
          rw [addLength_of_lt (by omega), Int.toNat_natCast, Nat.add_sub_cancel_left,
            Nat.add_assoc, drop_length_add_append, drop_length_add_append, drop_left] at h
          have hn : (tail.take n.toNat).length = n.toNat := length_take_of_le (by omega)
          cases h
          refine ⟨header ++ length, tail.drop n.toNat, by simp, .bytes hwire hfits ?_, ?_⟩
          · rwa [hn]
          · simp only [length_append, hn]
            omega
      · cases h
  · rintro ⟨header, rest, rfl, hframed, rfl⟩
    cases hframed with
    | varint hwire hkey hvalue =>
      have hfits := UInt64.toNat_ofNat_of_lt' hkey.value
      obtain ⟨htag, hkind⟩ := (key_iff (by rw [hwire]; decide)).mpr hfits
      refine ⟨_, _, ⟨header, _, rfl, rfl, hfits.symm ▸ hkey⟩, ?_⟩
      rw [hkind, if_pos hwire, htag, drop_length_add_append, drop_left, decodeVarint_append hvalue]
      simp [under, Except.mapError, Nat.add_assoc]
    | @bytes key length hwire hkey hlength =>
      have hfits := UInt64.toNat_ofNat_of_lt' hkey.value
      have hvalue := UInt64.toNat_ofNat_of_lt' hlength.value
      obtain ⟨htag, hkind⟩ := (key_iff (by rw [hwire]; decide)).mpr hfits
      refine ⟨_, _, ⟨key, _, append_assoc .., rfl, hfits.symm ▸ hkey⟩, ?_⟩
      rw [hkind, if_neg (by rw [hwire]; decide), if_pos hwire, htag, append_assoc,
        drop_length_add_append, drop_left, decodeVarint_append hlength]
      simp only [length_append, Nat.add_assoc] at hlen
      simp only [under, Except.mapError, bind_eq_ok, Nat.add_assoc]
      refine ⟨_, rfl, ?_⟩
      simp only [drop_length_add_append, drop_left, length_append]
      rw [if_neg ((addLength_fits (by omega) hlen).mpr (by omega)), addLength_of_lt (by omega),
        hvalue, Int.toNat_natCast, Nat.add_sub_cancel_left, take_left, Nat.add_assoc,
        Nat.add_assoc]
      rfl

theorem slice_eq {lo hi : Nat} (hlo : lo ≤ hi) (hhi : hi ≤ input.length) :
    slice input lo hi = some ((input.drop lo).take (hi - lo)) := by
  rw [slice, if_pos (by omega), Int.toNat_natCast, ← Int.ofNat_sub hlo, Int.toNat_natCast]

theorem sliced_bind {α β : Type} {read : GoString → Except SignDocError α}
    {F : α → ExceptT SignDocError Option β} {G : α → Except SignDocError β}
    (hoffset : offset ≤ input.length)
    (h : ∀ a, read (input.drop offset) = .ok a → F a = ExceptT.mk (some (G a))) :
    (do F (← read (← slice input offset input.length))) =
      ExceptT.mk (some (read (input.drop offset) >>= G)) := by
  rw [slice_eq hoffset le_rfl, take_of_length_le (by rw [length_drop])]
  change ExceptT.bindCont F (read _) = _
  cases hread : read (input.drop offset) with
  | error e => rfl
  | ok a => exact h a hread

/-- No slice is taken outside the input. -/
theorem slicedFieldAt_eq (hlen : input.length < 2 ^ 63) (hoffset : offset ≤ input.length) :
    slicedFieldAt input offset = ExceptT.mk (some (fieldAt input offset)) := by
  have hconsumed : ∀ {offset : Nat} {v : UInt64} {n : Nat}, offset ≤ input.length →
      decodeVarint (input.drop offset) = .ok (v, n) → offset + n ≤ input.length := by
    intro offset v n ho h
    rcases decodeVarint_eq_ok.mp h with ⟨varint, rest, happ, rfl, -⟩
    have := congrArg List.length happ
    rw [length_drop, length_append] at this
    omega
  apply sliced_bind hoffset
  rintro ⟨key, consumed⟩ hkey
  have hkey := hconsumed hoffset (under_eq_ok.mp hkey)
  by_cases hwire : key &&& 7 = 0
  · simp only [if_pos hwire]
    apply sliced_bind hkey
    rintro ⟨v, n⟩ hvalue
    have hvalue := hconsumed hkey (under_eq_ok.mp hvalue)
    simp only [slice_eq (Nat.le_add_right _ n) hvalue, Nat.add_sub_cancel_left]
    rfl
  simp only [if_neg hwire]
  by_cases hwire : key &&& 7 = 2
  · simp only [if_pos hwire]
    apply sliced_bind hkey
    rintro ⟨length, n⟩ hlength
    have hlength := hconsumed hkey (under_eq_ok.mp hlength)
    simp only
    split
    · rfl
    · next hstop =>
      have hsum := (addLength_fits hlength hlen).mp hstop
      simp only [addLength_of_lt (Nat.lt_of_le_of_lt hsum hlen),
        slice_eq (Nat.le_add_right _ length.toNat) hsum]
      rfl
  · simp only [if_neg hwire]
    rfl

/-! ### Walks -/

theorem Framed.length_pos {header : GoString} (h : Framed f header) : 0 < header.length := by
  have hkey : ∀ {key : GoString} {n : Nat}, Fits key n → 0 < key.length := by
    rintro _ _ ⟨_ | _, -, -⟩ <;> exact Nat.succ_pos _
  cases h with
  | varint _ h _ => exact hkey h
  | bytes _ h _ => exact Nat.lt_of_lt_of_le (hkey h) (by simp)

theorem exists_fields (input : GoString) : ∃ fields left, Fields input fields left := by
  induction hn : input.length using Nat.strong_induction_on generalizing input with
  | _ n ih =>
    by_cases hfield : ∃ f header rest, input = header ++ (f.value ++ rest) ∧ Framed f header
    · rcases hfield with ⟨f, header, rest, rfl, hframed⟩
      have hpos := hframed.length_pos
      simp only [length_append] at hn
      rcases ih rest.length (by omega) rest rfl with ⟨fields, left, h⟩
      exact ⟨_, _, .next hframed h⟩
    · exact ⟨_, _, .none (fun f header rest h hframed => hfield ⟨f, header, rest, h, hframed⟩)⟩

/-- The loop reads the fields, and fails at what is none. -/
theorem walkFrom_fields {bytes left : GoString} {fields : List Field} (h : Fields bytes fields left)
    (hlen : input.length < 2 ^ 63) : ∀ front, input = front ++ bytes →
      ∃ e, ∀ {σ : Type} (visit : σ → Field → Except SignDocError σ) (s : σ) (fuel : Nat),
        bytes.length < fuel → walkFrom visit input fuel front.length s =
          fields.foldlM visit s >>= fun s => if left = [] then .ok s else .error e := by
  induction h with
  | @none bytes hnone =>
    rintro front rfl
    cases hfield : fieldAt (front ++ bytes) front.length with
    | ok read =>
      rcases (fieldAt_eq_ok (f := read.1) hlen).mp hfield with ⟨header, rest, hbytes, hframed, -⟩
      exact absurd hframed (hnone _ header rest hbytes)
    | error e =>
      refine ⟨e, fun visit s fuel hfuel => ?_⟩
      obtain ⟨fuel, rfl⟩ := Nat.exists_eq_succ_of_ne_zero (Nat.ne_zero_of_lt hfuel)
      rw [walkFrom, hfield]
      cases bytes with
      | nil => simp
      | cons b bytes =>
        rw [if_neg (by simp)]
        rfl
  | @next f header rest left fields hframed hrest ih =>
    rintro front rfl
    have hpos := hframed.length_pos
    rcases ih (front ++ (header ++ f.value)) (by simp) with ⟨e, ih⟩
    refine ⟨e, fun visit s fuel hfuel => ?_⟩
    obtain ⟨fuel, rfl⟩ := Nat.exists_eq_succ_of_ne_zero (Nat.ne_zero_of_lt hfuel)
    rw [walkFrom, (fieldAt_eq_ok hlen).mpr ⟨header, rest, rfl, hframed, rfl⟩, foldlM_cons,
      bind_assoc]
    simp only [length_append] at hfuel ⊢
    rw [if_neg (by omega)]
    change (do let s ← visit s f; walkFrom visit _ fuel _ s) = _
    congr 1
    funext s
    simpa using ih visit s fuel (by omega)

theorem walkFields_visits (hlen : input.length < 2 ^ 63) :
    (∀ v n, decodeVarint input = .ok (v, n) ↔
      ∃ varint rest, input = varint ++ rest ∧ varint.length = n ∧ Fits varint v.toNat) ∧
    (∀ offset < input.length,
      slicedFieldAt input offset = ExceptT.mk (some (fieldAt input offset))) ∧
    (∃ fields left, Fields input fields left) ∧
    ∀ fields left, Fields input fields left →
      ∃ e, ∀ {σ : Type} (visit : σ → Field → Except SignDocError σ) (s : σ),
        walkFields visit input s =
          (fields.foldlM visit s >>= fun s => if left = [] then .ok s else .error e) ∧
        ∀ fuel > input.length, walkFrom visit input fuel 0 s = walkFields visit input s := by
  refine ⟨fun _ _ => decodeVarint_eq_ok, fun _ h => slicedFieldAt_eq hlen h.le,
    exists_fields input, fun fields left h => ?_⟩
  rcases walkFrom_fields h hlen [] rfl with ⟨e, hwalk⟩
  have hall := fun {σ : Type} visit (s : σ) => hwalk visit s _ (Nat.lt_succ_self _)
  exact ⟨e, fun visit s => ⟨hall visit s, fun fuel hfuel =>
    (hwalk visit s fuel hfuel).trans (hall visit s).symm⟩⟩

theorem walkFields_visits_key : ∃ varint rest, [8, 5] = varint ++ rest ∧ varint.length = 1 ∧
    Fits varint (UInt64.toNat 8) :=
  ((walkFields_visits (by decide)).1 8 1).mp rfl

end Regalia.Policy
