import Mathlib.Data.List.TakeWhile
import Regalia.Data.Calendar

/-!
# Go Times in JSON

A Go time as far as JSON sees it: an instant and the offset of the zone it is
shown in. The text has no room for an offset's seconds, so a zone that has
some does not come back as it was, and the instant moves by what was cut off.

## Main definitions

* `GoTime`: An instant and its zone's offset.
* `GoTime.isZero`: The zero time, which `omitzero` leaves out.
* `GoTime.marshalText`: The RFC 3339 text, with as many digits of fraction as
  needed.
* `GoTime.rfc3339Nano`: The text of the instant in UTC, for any year.
* `GoTime.unmarshalText`: The time such a text names.

## Theorems

* `GoTime.unmarshalText_marshalText`: A time whose zone has whole minutes is
  read back as it was.
-/

namespace Regalia

open List

/-- An instant, in seconds since 1970 and nanoseconds, shown at an offset in
    seconds east of Greenwich. -/
structure GoTime where
  unix : Int
  nanosecond : Nat
  offset : Int
  deriving DecidableEq, Repr

namespace GoTime

/-- The first second of year one, in UTC: the value of an unset time. -/
def zero : GoTime := ⟨-62135596800, 0, 0⟩

/-- `Time.IsZero`: the instant of the unset time, in any zone. -/
def isZero (t : GoTime) : Bool := t.unix = zero.unix && t.nanosecond = 0

/-- The instant, in nanoseconds since 1970. -/
def nanoseconds (t : GoTime) : Int := 1000000000 * t.unix + t.nanosecond

/-- `Time.After`. -/
def after (t u : GoTime) : Bool := u.nanoseconds < t.nanoseconds

/-- `Time.Sub`: a duration is an `int64`, and one that is too long is the
    longest. -/
def sub (t u : GoTime) : Int :=
  max (-2 ^ 63) (min (2 ^ 63 - 1) (t.nanoseconds - u.nanoseconds))

/-- A fraction of a second without its trailing zeros, empty if it is zero. -/
def fractionText (nanosecond : Nat) : List Char :=
  if nanosecond = 0 then []
  else '.' :: ((paddedDecimal 9 nanosecond).reverse.dropWhile (· = '0')).reverse

/-- The zone: its offset in whole minutes, cut toward zero. -/
def zoneText (offset : Int) : List Char :=
  if offset = 0 then ['Z']
  else
    let minutes := offset.tdiv 60
    (if minutes < 0 then '-' else '+') ::
      (paddedDecimal 2 (minutes.natAbs / 60) ++ ':' :: paddedDecimal 2 (minutes.natAbs % 60))

/-- The text of a time. A year that does not have four digits and an offset
    of a day or more have none. -/
def marshalText (t : GoTime) : Option (List Char) :=
  let shown := t.unix + t.offset
  if shown < -62167219200 ∨ 253402300800 ≤ shown then none
  else if 24 ≤ (t.offset.tdiv 60).natAbs / 60 then none
  else
    let c := Civil.ofUnix shown
    some (paddedDecimal 4 c.year ++ '-' :: paddedDecimal 2 c.month ++ '-' :: paddedDecimal 2 c.day ++
      'T' :: paddedDecimal 2 c.hour ++ ':' :: paddedDecimal 2 c.minute ++
      ':' :: paddedDecimal 2 c.second ++ fractionText t.nanosecond ++ zoneText t.offset)

/-- The second in which year zero begins, and the seconds of 400 years. -/
def yearZero : Int := -62167219200

def eraSeconds : Int := 12622780800

/-- `t.UTC().Format(time.RFC3339Nano)`, for any year. A year before zero is
    counted back from one that is a multiple of 400 years later. -/
def rfc3339Nano (t : GoTime) : List Char :=
  let eras := if t.unix < yearZero then (yearZero - t.unix) / eraSeconds + 1 else 0
  let c := Civil.ofUnix (t.unix + eras * eraSeconds)
  let year : Int := c.year - 400 * eras
  (if year < 0 then ['-'] else []) ++ paddedDecimal 4 year.natAbs ++
    '-' :: paddedDecimal 2 c.month ++ '-' :: paddedDecimal 2 c.day ++
    'T' :: paddedDecimal 2 c.hour ++ ':' :: paddedDecimal 2 c.minute ++
    ':' :: paddedDecimal 2 c.second ++ fractionText t.nanosecond ++ ['Z']

/-- The nanoseconds of a fraction, its point included, and what follows. -/
def readFraction : List Char → Option (Nat × List Char)
  | '.' :: rest =>
    let digits := (rest.takeWhile Char.isDigit).take 9
    if digits = [] then none
    else some (decimalValue digits * 10 ^ (9 - digits.length), rest.dropWhile Char.isDigit)
  | text => some (0, text)

/-- The offset a zone spells, in seconds. -/
def readZone : List Char → Option Int
  | ['Z'] => some 0
  | [sign, h1, h2, colon, m1, m2] =>
    let hour := decimalValue [h1, h2]
    let minute := decimalValue [m1, m2]
    if colon = ':' ∧ [h1, h2, m1, m2].all Char.isDigit ∧ hour ≤ 23 ∧ minute ≤ 59 then
      if sign = '+' then some (3600 * hour + 60 * minute)
      else if sign = '-' then some (-(3600 * hour + 60 * minute))
      else none
    else none
  | _ => none

/-- The time a text names: `time.Time.UnmarshalJSON` on the inside of the
    string. -/
def unmarshalText (text : List Char) : Option GoTime :=
  match parseTime (text.take 19 ++ ['Z']), readFraction (text.drop 19) with
  | some civil, some (nanosecond, rest) =>
    match readZone rest with
    | some offset => if civil.real then some ⟨civil.unix - offset, nanosecond, offset⟩ else none
    | none => none
  | _, _ => none

/-! ### A time read back -/

/-- A list without its trailing zeros, and the zeros. -/
theorem strip_zeros (l : List Char) :
    ∃ k, l = (l.reverse.dropWhile (· = '0')).reverse ++ List.replicate k '0' := by
  refine ⟨(l.reverse.takeWhile (· = '0')).length, ?_⟩
  have hzeros : (l.reverse.takeWhile (· = '0')).reverse =
      List.replicate (l.reverse.takeWhile (· = '0')).length '0' := by
    refine eq_replicate_iff.mpr ⟨length_reverse, fun c hc => ?_⟩
    have hzero := mem_takeWhile_imp (mem_reverse.mp hc)
    exact of_decide_eq_true hzero
  rw [← hzeros, ← reverse_append, takeWhile_append_dropWhile, reverse_reverse]

/-- The digits of a fraction, and what they are worth. -/
theorem fractionText_spec (n : Nat) (h0 : n ≠ 0) (h : n < 10 ^ 9) :
    ∃ s : List Char, fractionText n = '.' :: s ∧ s ≠ [] ∧ s.length ≤ 9 ∧
      (∀ c ∈ s, c.isDigit = true) ∧ decimalValue s * 10 ^ (9 - s.length) = n := by
  rcases strip_zeros (paddedDecimal 9 n) with ⟨k, hk⟩
  have hlen := length_paddedDecimal 9 n (by decide) h
  have hvalue := decimalValue_paddedDecimal 9 n
  have hdigits := paddedDecimal_digits 9 n
  generalize hs : ((paddedDecimal 9 n).reverse.dropWhile (· = '0')).reverse = s at hk
  rw [hk] at hlen hvalue hdigits
  rw [length_append, length_replicate] at hlen
  have hworth : decimalValue s * 10 ^ k = n := by
    rw [← hvalue, decimalValue, decimalValue, Nat.ofDigitChars_append,
      Nat.ofDigitChars_replicate_zero, Nat.mul_comm]
  refine ⟨s, ?_, ?_, by omega, fun c hc => hdigits c (mem_append_left _ hc), ?_⟩
  · rw [fractionText, if_neg h0, hs]
  · rintro rfl
    rw [decimalValue, Nat.ofDigitChars_nil, Nat.zero_mul] at hworth
    exact h0 hworth.symm
  · rw [show 9 - s.length = k by omega]
    exact hworth

/-- A zone starts with no digit and no point. -/
theorem zoneText_head (offset : Int) : ∃ c rest, zoneText offset = c :: rest ∧
    c.isDigit = false ∧ c ≠ '.' := by
  unfold zoneText
  by_cases h0 : offset = 0
  · exact ⟨'Z', [], if_pos h0, by decide, by decide⟩
  · rw [if_neg h0]
    by_cases hneg : offset.tdiv 60 < 0
    · exact ⟨'-', _, by simp only [if_pos hneg]; rfl, by decide, by decide⟩
    · exact ⟨'+', _, by simp only [if_neg hneg]; rfl, by decide, by decide⟩

theorem readFraction_text (n : Nat) (h : n < 10 ^ 9) (offset : Int) :
    readFraction (fractionText n ++ zoneText offset) = some (n, zoneText offset) := by
  rcases zoneText_head offset with ⟨c, rest, hzone, hdigit, hpoint⟩
  by_cases h0 : n = 0
  · rw [fractionText, if_pos h0, nil_append, hzone, readFraction, h0]
    exact fun r hr => hpoint (List.cons.inj hr).1
  · rcases fractionText_spec n h0 h with ⟨s, htext, hne, hlen, hdigits, hworth⟩
    have htake : (s ++ zoneText offset).takeWhile Char.isDigit = s := by
      rw [takeWhile_append_of_pos hdigits, hzone, takeWhile_cons, hdigit]
      exact append_nil s
    have hdrop : (s ++ zoneText offset).dropWhile Char.isDigit = zoneText offset := by
      rw [dropWhile_append_of_pos hdigits, hzone, dropWhile_cons, hdigit]
      rfl
    rw [htext, cons_append, readFraction]
    simp only [htake, hdrop, take_of_length_le hlen, if_neg hne, hworth]

/-- An offset of whole minutes and less than a day is read back. -/
theorem readZone_text (offset : Int) (hminutes : offset % 60 = 0)
    (hday : (offset.tdiv 60).natAbs / 60 < 24) : readZone (zoneText offset) = some offset := by
  by_cases h0 : offset = 0
  · rw [h0]
    rfl
  have hexact : offset = 60 * offset.tdiv 60 := by
    rw [Int.mul_tdiv_cancel' (Int.dvd_of_emod_eq_zero hminutes)]
  generalize offset.tdiv 60 = minutes at hexact hday
  rcases paddedDecimal_two (minutes.natAbs / 60) (by omega) with ⟨h1, h2, hh, dh, vh⟩
  rcases paddedDecimal_two (minutes.natAbs % 60) (by omega) with ⟨m1, m2, hm, dm, vm⟩
  have hzone : zoneText offset = (if minutes < 0 then '-' else '+') :: [h1, h2, ':', m1, m2] := by
    have htdiv : offset.tdiv 60 = minutes := by
      rw [hexact, Int.mul_tdiv_cancel_left _ (by decide)]
    rw [zoneText, if_neg h0]
    simp only [htdiv, hh, hm, cons_append, nil_append]
  rw [hzone, readZone]
  · have hall : [h1, h2, m1, m2].all Char.isDigit = true := by simp [dh, dm]
    simp only [vh, vm, hall, true_and, if_pos (show minutes.natAbs / 60 ≤ 23 ∧
      minutes.natAbs % 60 ≤ 59 by omega)]
    by_cases hneg : minutes < 0
    · rw [if_pos hneg, if_neg (by decide), if_pos rfl]
      congr 1
      omega
    · rw [if_neg hneg, if_pos rfl]
      congr 1
      omega

/-- A time whose zone has whole minutes is read back as it was. -/
theorem unmarshalText_marshalText (t : GoTime) (text : List Char) (hn : t.nanosecond < 10 ^ 9)
    (hminutes : t.offset % 60 = 0) (h : t.marshalText = some text) :
    unmarshalText text = some t := by
  unfold marshalText at h
  simp only at h
  split at h
  · cases h
  rename_i hyears
  split at h
  · cases h
  rename_i hday
  have htext : text = (Civil.ofUnix (t.unix + t.offset)).text ++
      (fractionText t.nanosecond ++ zoneText t.offset) := by
    rw [← Option.some.inj h, ← append_assoc]
    rfl
  have hfirst : -62167219200 ≤ t.unix + t.offset := by omega
  have hyear := Civil.year_ofUnix_lt (t.unix + t.offset) hfirst (by omega)
  have hreal := Civil.real_ofUnix (t.unix + t.offset) hfirst
  have hlen := Civil.length_text (Civil.ofUnix (t.unix + t.offset)) hyear hreal
  rw [unmarshalText, htext, ← hlen, take_left, drop_left,
    parseTime_text _ hyear hreal, readFraction_text _ hn]
  simp only [readZone_text t.offset hminutes (by omega), hreal, if_true, Civil.unix_ofUnix _ hfirst]
  congr 2
  omega

/-- Half a minute of offset is not written, and the instant moves by it. -/
example : (marshalText ⟨1791203459, 5000000, 7230⟩).bind unmarshalText =
    some ⟨1791203489, 5000000, 7200⟩ := by decide +kernel

end GoTime

end Regalia
