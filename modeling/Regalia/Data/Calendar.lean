import Mathlib.Algebra.Group.Int.Defs
import Mathlib.Algebra.GroupWithZero.Nat
import Mathlib.Data.List.Basic

/-!
# Dates and Times

The proleptic Gregorian calendar as both standard libraries of the repository
read it: a date is real when its month is one of twelve and its day exists in
that month, and a time of day is counted in seconds from 1970.

The texts are fixed-width: four digits of year, two of everything else.
`parseDate` and `parseTime` read exactly those shapes, and leave the question
whether the fields name a real date to `Civil.real`, because the two
languages ask it differently.

## Main definitions

* `daysIn`: The days of a month.
* `Civil`: The six fields of a timestamp.
* `Civil.real`: The fields name a moment of the calendar.
* `Civil.unix`: Seconds since 1970.
* `Civil.ofUnix`: The fields of such a second.
* `parseDate`: A text of the form `YYYY-MM-DD`.
* `parseTime`: A text of the form `YYYY-MM-DDTHH:MM:SSZ`.

## Theorems

* `Civil.unix_ofUnix`, `Civil.real_ofUnix`: From year zero on, the fields of a
  second name it, and are a moment of the calendar.
* `parseTime_text`: The text of a moment names its fields.
* `parseTime_shape`: What a text of that form is made of.
* `Civil.unix_lt`: How many seconds a year of four digits can come to.
-/

namespace Regalia

open List

/-- The number a list of decimal digits spells. -/
def decimalValue (cs : List Char) : Nat := Nat.ofDigitChars 10 cs 0

/-- A number in decimal, with zeros in front up to a width. -/
def paddedDecimal (width n : Nat) : List Char :=
  List.replicate (width - (Nat.toDigits 10 n).length) '0' ++ Nat.toDigits 10 n

theorem paddedDecimal_digits (width n : Nat) : ∀ c ∈ paddedDecimal width n, c.isDigit = true := by
  intro c hc
  rcases mem_append.mp hc with hc | hc
  · rw [eq_of_mem_replicate hc]
    rfl
  · exact Nat.isDigit_of_mem_toDigits (by decide) (by decide) hc

theorem length_paddedDecimal (width n : Nat) (hw : 0 < width) (h : n < 10 ^ width) :
    (paddedDecimal width n).length = width := by
  have hle : (Nat.toDigits 10 n).length ≤ width :=
    (Nat.length_toDigits_le_iff (by decide) hw).mpr h
  rw [paddedDecimal, length_append, length_replicate]
  omega

theorem decimalValue_paddedDecimal (width n : Nat) : decimalValue (paddedDecimal width n) = n := by
  rw [decimalValue, paddedDecimal, Nat.ofDigitChars_append, Nat.ofDigitChars_replicate_zero,
    Nat.mul_zero, Nat.ofDigitChars_ten_toDigits]

/-- A number of two digits at its width. -/
theorem paddedDecimal_two (n : Nat) (h : n < 100) :
    ∃ a b, paddedDecimal 2 n = [a, b] ∧ (a.isDigit = true ∧ b.isDigit = true) ∧
      decimalValue [a, b] = n := by
  rcases length_eq_two.mp (length_paddedDecimal 2 n (by decide) h) with ⟨a, b, hab⟩
  have hdigits := paddedDecimal_digits 2 n
  have hvalue := decimalValue_paddedDecimal 2 n
  rw [hab] at hdigits hvalue
  exact ⟨a, b, hab, ⟨hdigits a (by simp), hdigits b (by simp)⟩, hvalue⟩

/-- A number of four digits at its width. -/
theorem paddedDecimal_four (n : Nat) (h : n < 10000) :
    ∃ a b c d, paddedDecimal 4 n = [a, b, c, d] ∧
      (a.isDigit = true ∧ b.isDigit = true ∧ c.isDigit = true ∧ d.isDigit = true) ∧
      decimalValue [a, b, c, d] = n := by
  rcases length_eq_four.mp (length_paddedDecimal 4 n (by decide) h) with ⟨a, b, c, d, hab⟩
  have hdigits := paddedDecimal_digits 4 n
  have hvalue := decimalValue_paddedDecimal 4 n
  rw [hab] at hdigits hvalue
  exact ⟨a, b, c, d, hab, ⟨hdigits a (by simp), hdigits b (by simp), hdigits c (by simp),
    hdigits d (by simp)⟩, hvalue⟩

theorem isDigit_toNat {c : Char} (h : c.isDigit = true) : 48 ≤ c.toNat ∧ c.toNat ≤ 57 := by
  simp only [Char.isDigit, Bool.and_eq_true, decide_eq_true_eq, UInt32.le_iff_toNat_le] at h
  have hval : c.toNat = c.val.toNat := rfl
  have h0 : '0'.val.toNat = 48 := rfl
  have h9 : '9'.val.toNat = 57 := rfl
  omega

theorem decimalValue_four_lt {a b c d : Char} (ha : a.isDigit = true) (hb : b.isDigit = true)
    (hc : c.isDigit = true) (hd : d.isDigit = true) : decimalValue [a, b, c, d] < 10000 := by
  have := isDigit_toNat ha
  have := isDigit_toNat hb
  have := isDigit_toNat hc
  have := isDigit_toNat hd
  have h0 : '0'.toNat = 48 := rfl
  simp only [decimalValue, Nat.ofDigitChars, foldl_cons, foldl_nil, h0]
  omega

/-- Every fourth year, but the centuries not divisible by 400. -/
def isLeap (year : Nat) : Bool := year % 4 == 0 && (year % 100 != 0 || year % 400 == 0)

/-- The days of a month. -/
def daysIn (year month : Nat) : Nat :=
  match month with
  | 2 => if isLeap year then 29 else 28
  | 4 | 6 | 9 | 11 => 30
  | _ => 31

theorem daysIn_le (year month : Nat) : daysIn year month ≤ 31 := by
  unfold daysIn
  split
  · split <;> omega
  all_goals omega

/-- The six fields of a timestamp. -/
structure Civil where
  year : Nat
  month : Nat
  day : Nat
  hour : Nat := 0
  minute : Nat := 0
  second : Nat := 0
  deriving DecidableEq, Repr

namespace Civil

/-- The month is one of twelve and the day exists in it. -/
def realDate (t : Civil) : Bool :=
  1 ≤ t.month && t.month ≤ 12 && 1 ≤ t.day && t.day ≤ daysIn t.year t.month

/-- The fields name a second of the calendar: no leap second, no hour 24. -/
def real (t : Civil) : Bool :=
  t.realDate && t.hour ≤ 23 && t.minute ≤ 59 && t.second ≤ 59

/-- The days before a month, in its year. -/
def daysBefore (year month : Nat) : Nat :=
  ((List.range (month - 1)).map (fun i => daysIn year (i + 1))).sum

/-- Days from 1970-01-01 to the date. Year zero is a leap year before year
    one. -/
def unixDay (t : Civil) : Int :=
  let y : Int := (t.year : Int) - 1
  365 * y + y / 4 - y / 100 + y / 400 + daysBefore t.year t.month + t.day - 1 - 719162

/-- Seconds since 1970. -/
def unix (t : Civil) : Int :=
  86400 * t.unixDay + 3600 * t.hour + 60 * t.minute + t.second

/-- The fields of a second counted from 1970. Years are counted from March,
    so that the leap day ends one. -/
def ofUnix (seconds : Int) : Civil :=
  let days := seconds / 86400
  let clock := (seconds % 86400).toNat
  let shifted := days + 719468
  let era := shifted / 146097
  let dayOfEra := shifted % 146097
  let yearOfEra := (dayOfEra - dayOfEra / 1460 + dayOfEra / 36524 - dayOfEra / 146096) / 365
  let dayOfYear := dayOfEra - (365 * yearOfEra + yearOfEra / 4 - yearOfEra / 100)
  let fromMarch := (5 * dayOfYear + 2) / 153
  let month := if fromMarch < 10 then fromMarch + 3 else fromMarch - 9
  { year := (yearOfEra + 400 * era + if month ≤ 2 then 1 else 0).toNat
    month := month.toNat
    day := (dayOfYear - (153 * fromMarch + 2) / 5 + 1).toNat
    hour := clock / 3600
    minute := clock / 60 % 60
    second := clock % 60 }

/-! ### The fields name the second -/

/-- A day of an era by its century, its four years in it, its year in those
    and its day in that. A year of 366 days is the last of its four, and the
    last four of a century have one only if the century is the last. -/
theorem day_of_era (d : Int) (h0 : 0 ≤ d) (h1 : d < 146097) :
    ∃ c q r k : Int, d = 36524 * c + 1461 * q + 365 * r + k ∧
      (0 ≤ c ∧ c ≤ 3) ∧ (0 ≤ q ∧ q ≤ 24) ∧ (0 ≤ r ∧ r ≤ 3) ∧ (0 ≤ k ∧ k ≤ 365) ∧
      (k = 365 → r = 3 ∧ (q = 24 → c = 3)) := by
  by_cases hc : d / 36524 = 4
  · refine ⟨3, 24, 3, 365, ?_, ?_, ?_, ?_, ?_, ?_⟩ <;> omega
  by_cases hr : d % 36524 % 1461 / 365 = 4
  · refine ⟨d / 36524, d % 36524 / 1461, 3, 365, ?_, ?_, ?_, ?_, ?_, ?_⟩ <;> omega
  · refine ⟨d / 36524, d % 36524 / 1461, d % 36524 % 1461 / 365, d % 36524 % 1461 % 365,
      ?_, ?_, ?_, ?_, ?_, ?_⟩ <;> omega

/-- The year of an era is what the division by 365 finds once the leap days
    are taken out. -/
theorem year_of_era (d c q r k : Int) (hd : d = 36524 * c + 1461 * q + 365 * r + k)
    (hc : 0 ≤ c ∧ c ≤ 3) (hq : 0 ≤ q ∧ q ≤ 24) (hr : 0 ≤ r ∧ r ≤ 3) (hk : 0 ≤ k ∧ k ≤ 365)
    (hleap : k = 365 → r = 3 ∧ (q = 24 → c = 3)) :
    (d - d / 1460 + d / 36524 - d / 146096) / 365 = 100 * c + 4 * q + r := by
  have hfour : d / 1460 = 25 * c + q + (if 1460 ≤ 24 * c + q + 365 * r + k then 1 else 0) := by
    split <;> omega
  have hcentury : d / 36524 - d / 146096 = c := by
    -- the last day of an era is the one day that starts a fifth century
    by_cases hlast : d = 146096
    · omega
    have : 1461 * q + 365 * r + k < 36524 := by
      by_cases hk' : k = 365
      · rcases hleap hk' with ⟨_, hq3⟩
        by_cases hq24 : q = 24
        · have := hq3 hq24
          omega
        · omega
      · omega
    omega
  have hdays : d - d / 1460 + d / 36524 - d / 146096 =
      365 * (100 * c + 4 * q + r) + (k - if 1460 ≤ 24 * c + q + 365 * r + k then 1 else 0) := by
    omega
  rw [hdays]
  split <;> omega

/-- The leap days up to a year are those up to the year before, and its own. -/
theorem leapDays_succ (year : Nat) :
    (year : Int) / 4 - (year : Int) / 100 + (year : Int) / 400 =
      ((year : Int) - 1) / 4 - ((year : Int) - 1) / 100 + ((year : Int) - 1) / 400 +
        (if isLeap year then 1 else 0) := by
  have hleap : isLeap year = true ↔ year % 4 = 0 ∧ (year % 100 ≠ 0 ∨ year % 400 = 0) := by
    simp [isLeap]
  by_cases h : isLeap year = true
  · rw [if_pos h]
    have := hleap.mp h
    omega
  · rw [if_neg h]
    have := mt hleap.mpr h
    omega

/-- The days before a month, counted from March: the months from March on
    have 153 days in every five. -/
theorem daysBefore_march (year month : Nat) (h1 : 3 ≤ month) (h2 : month ≤ 12) :
    (daysBefore year month : Int) =
      (153 * ((month : Int) - 3) + 2) / 5 + 59 + (if isLeap year then 1 else 0) := by
  cases hl : isLeap year <;>
    rcases month with _ | _ | _ | _ | _ | _ | _ | _ | _ | _ | _ | _ | _ | m <;>
    first
    | omega
    | simp [daysBefore, daysIn, hl, range_succ]

/-- The day of a year counted from March, given as the division finds it, is
    a day of a month. -/
theorem ofMarch (year : Nat) (doy mp : Int) (hmp : mp = (5 * doy + 2) / 153) (h0 : 0 ≤ doy)
    (h1 : doy ≤ 365) (hleap : doy = 365 → isLeap year = true) :
    ∃ month day : Nat, (month : Int) = (if mp < 10 then mp + 3 else mp - 9) ∧
      (day : Int) = doy - (153 * mp + 2) / 5 + 1 ∧ 1 ≤ month ∧ month ≤ 12 ∧ 1 ≤ day ∧
      day ≤ daysIn year month := by
  have hcases : mp = 0 ∨ mp = 1 ∨ mp = 2 ∨ mp = 3 ∨ mp = 4 ∨ mp = 5 ∨ mp = 6 ∨ mp = 7 ∨
      mp = 8 ∨ mp = 9 ∨ mp = 10 ∨ mp = 11 := by omega
  refine ⟨(if mp < 10 then mp + 3 else mp - 9).toNat,
    (doy - (153 * mp + 2) / 5 + 1).toNat, by split <;> omega, by omega, by split <;> omega,
    by split <;> omega, by omega, ?_⟩
  by_cases hfeb : mp = 11
  · subst hfeb
    change (doy - (153 * 11 + 2) / 5 + 1).toNat ≤ daysIn year 2
    simp only [daysIn]
    by_cases hl : isLeap year = true
    · rw [if_pos hl]
      omega
    · rw [if_neg hl]
      have := mt hleap hl
      omega
  · rcases hcases with h | h | h | h | h | h | h | h | h | h | h | h <;> subst h <;> first
      | exact absurd rfl hfeb
      | (simp [daysIn]; omega)

/-- A date given by its year and day counted from March. -/
theorem unixDay_march (t : Civil) (y doy mp : Int) (hmp : mp = (5 * doy + 2) / 153)
    (h0 : 0 ≤ doy) (h1 : doy ≤ 365) (hmonth : (t.month : Int) = if mp < 10 then mp + 3 else mp - 9)
    (hday : (t.day : Int) = doy - (153 * mp + 2) / 5 + 1)
    (hyear : (t.year : Int) = y + if t.month ≤ 2 then 1 else 0) :
    t.unixDay = 365 * y + y / 4 - y / 100 + y / 400 + doy - 719468 := by
  by_cases hlt : mp < 10
  · rw [if_pos hlt] at hmonth
    rw [if_neg (by omega), Int.add_zero] at hyear
    have hbefore := daysBefore_march t.year t.month (by omega) (by omega)
    have hleap := leapDays_succ t.year
    simp only [unixDay, hbefore]
    rw [show (t.month : Int) - 3 = mp by omega, ← hyear]
    omega
  · rw [if_neg hlt] at hmonth
    rw [if_pos (by omega)] at hyear
    have hbefore : (daysBefore t.year t.month : Int) = 31 * (t.month - 1) := by
      have hm : t.month = 1 ∨ t.month = 2 := by omega
      rcases hm with hm | hm
      · simp [hm, daysBefore]
      · simp [hm, daysBefore, daysIn]
    simp only [unixDay, hbefore, hyear]
    have hm : mp = 10 ∨ mp = 11 := by omega
    rw [show y + 1 - 1 = y by omega]
    rcases hm with rfl | rfl
    · omega
    · omega

/-- Only January and February of year zero belong to a year before it when
    years are counted from March. -/
theorem written_year (days era c q r k mp : Int) (hdays : -60 ≤ days)
    (hd : days = 146097 * era + (36524 * c + 1461 * q + 365 * r + k))
    (hc : 0 ≤ c ∧ c ≤ 3) (hq : 0 ≤ q ∧ q ≤ 24) (hr : 0 ≤ r ∧ r ≤ 3) (hk : 0 ≤ k ∧ k ≤ 365)
    (hmp : mp = (5 * k + 2) / 153) :
    ∃ year : Nat, (year : Int) = 100 * c + 4 * q + r + 400 * era +
      (if (if mp < 10 then mp + 3 else mp - 9) ≤ 2 then 1 else 0) := by
  have hfirst : 0 ≤ 100 * c + 4 * q + r + 400 * era ∨
      (100 * c + 4 * q + r + 400 * era = -1 ∧ 10 ≤ mp) := by omega
  refine ⟨_, Int.toNat_of_nonneg ?_⟩
  rcases hfirst with hpos | ⟨hneg, hten⟩
  · split <;> omega
  · rw [if_neg (by omega : ¬ mp < 10), if_pos (by omega)]
    omega

/-- The day of a year counted from March. -/
theorem day_of_year (d c q r k : Int) (hd : d = 36524 * c + 1461 * q + 365 * r + k)
    (hq : 0 ≤ q ∧ q ≤ 24) (hr : 0 ≤ r ∧ r ≤ 3) :
    d - (365 * (100 * c + 4 * q + r) + (100 * c + 4 * q + r) / 4 - (100 * c + 4 * q + r) / 100) =
      k := by
  omega

/-- The year that ends with a leap day counted from March is a leap year. -/
theorem isLeap_of_last (year : Nat) (c q era : Int) (hq : 0 ≤ q ∧ q ≤ 24)
    (hlast : q = 24 → c = 3) (h : (year : Int) = 100 * c + 4 * q + 3 + 400 * era + 1) :
    isLeap year = true := by
  have hyear4 : year % 4 = 0 := by omega
  have hyear400 : year % 100 ≠ 0 ∨ year % 400 = 0 := by
    by_cases hq' : q = 24
    · have := hlast hq'
      omega
    · omega
  simp [isLeap, hyear4, hyear400]

/-- The days before a year counted from March. -/
theorem days_before_year (era c q r : Int) (hc : 0 ≤ c ∧ c ≤ 3) (hq : 0 ≤ q ∧ q ≤ 24)
    (hr : 0 ≤ r ∧ r ≤ 3) :
    365 * (100 * c + 4 * q + r + 400 * era) + (100 * c + 4 * q + r + 400 * era) / 4 -
      (100 * c + 4 * q + r + 400 * era) / 100 + (100 * c + 4 * q + r + 400 * era) / 400 =
      146097 * era + (36524 * c + 1461 * q + 365 * r) := by
  omega

/-- From year zero on, the fields of a second name its day, and it is a day
    of the calendar. -/
theorem ofUnix_date (s : Int) (h : -62167219200 ≤ s) :
    (ofUnix s).unixDay = s / 86400 ∧ (ofUnix s).realDate = true := by
  have hs : -719528 ≤ s / 86400 := by omega
  rcases day_of_era ((s / 86400 + 719468) % 146097) (by omega) (by omega) with
    ⟨c, q, r, k, hd, hc, hq, hr, hk, hleap⟩
  have hyear := year_of_era _ c q r k hd hc hq hr hk hleap
  have hdays : s / 86400 + 719468 = 146097 * ((s / 86400 + 719468) / 146097) +
      (36524 * c + 1461 * q + 365 * r + k) := by
    rw [← hd]
    exact (Int.mul_ediv_add_emod _ _).symm
  have hfirst : -60 ≤ s / 86400 + 719468 := Int.add_le_add_right hs 719468
  rcases written_year (s / 86400 + 719468) ((s / 86400 + 719468) / 146097) c q r k _ hfirst
    hdays hc hq hr hk rfl with ⟨year, hwritten⟩
  have hdoy := day_of_year _ c q r k hd hq hr
  clear h hs hfirst hd
  generalize hera : (s / 86400 + 719468) / 146097 = era at hdays hwritten
  generalize hmp : (5 * k + 2) / 153 = mp at hwritten
  have hlast : k = 365 → isLeap year = true := by
    intro hk'
    rcases hleap hk' with ⟨hr3, hq24⟩
    rw [if_neg (by omega : ¬ mp < 10), if_pos (by omega)] at hwritten
    subst hr3
    exact isLeap_of_last year c q era hq hq24 hwritten
  rcases ofMarch year k mp hmp.symm hk.1 hk.2 hlast with
    ⟨month, day, hmonth, hday, hm1, hm12, hd1, hdlast⟩
  rw [← hmonth] at hwritten
  have hof : ofUnix s = ⟨year, month, day, (s % 86400).toNat / 3600,
      (s % 86400).toNat / 60 % 60, (s % 86400).toNat % 60⟩ := by
    simp only [ofUnix, hera, hyear, hdoy, hmp, ← hmonth, ← hday, ← hwritten, Int.toNat_natCast]
  have hcast : (if (month : Int) ≤ 2 then (1 : Int) else 0) = if month ≤ 2 then 1 else 0 :=
    if_congr Int.ofNat_le rfl rfl
  have hunix := unixDay_march ⟨year, month, day, (s % 86400).toNat / 3600,
      (s % 86400).toNat / 60 % 60, (s % 86400).toNat % 60⟩ _ k mp hmp.symm hk.1 hk.2 hmonth hday
      (hcast ▸ hwritten)
  rw [hof]
  refine ⟨?_, ?_⟩
  · rw [hunix, days_before_year era c q r hc hq hr]
    clear hunix hof hyear hdoy hwritten
    omega
  · simp only [realDate, hm1, hm12, hd1, hdlast, decide_true, Bool.and_self]

/-- The fields of a second from year zero on name that second. -/
theorem unix_ofUnix (s : Int) (h : -62167219200 ≤ s) : (ofUnix s).unix = s := by
  have hday := (ofUnix_date s h).1
  have hhour : (ofUnix s).hour = (s % 86400).toNat / 3600 := rfl
  have hminute : (ofUnix s).minute = (s % 86400).toNat / 60 % 60 := rfl
  have hsecond : (ofUnix s).second = (s % 86400).toNat % 60 := rfl
  rw [unix, hday, hhour, hminute, hsecond]
  omega

theorem real_ofUnix (s : Int) (h : -62167219200 ≤ s) : (ofUnix s).real = true := by
  have hhour : (ofUnix s).hour ≤ 23 := by
    change (s % 86400).toNat / 3600 ≤ 23
    omega
  have hminute : (ofUnix s).minute ≤ 59 := by
    change (s % 86400).toNat / 60 % 60 ≤ 59
    omega
  have hsecond : (ofUnix s).second ≤ 59 := by
    change (s % 86400).toNat % 60 ≤ 59
    omega
  simp only [real, (ofUnix_date s h).2, hhour, hminute, hsecond, decide_true, Bool.and_self]

/-- Before year ten thousand a year has four digits. -/
theorem year_ofUnix_lt (s : Int) (h : -62167219200 ≤ s) (hlt : s < 253402300800) :
    (ofUnix s).year < 10000 := by
  have hday := (ofUnix_date s h).1
  by_contra hge
  have hyear : (10000 : Int) ≤ (ofUnix s).year := by omega
  have hpos : 1 ≤ (ofUnix s).day := by
    have := (ofUnix_date s h).2
    simp only [realDate, Bool.and_eq_true, decide_eq_true_eq] at this
    exact this.1.2
  simp only [unixDay] at hday
  omega

end Civil

/-- A text of the form `YYYY-MM-DD`, every field at full width. -/
def parseDate : List Char → Option Civil
  | [y1, y2, y3, y4, s1, m1, m2, s2, d1, d2] =>
    if s1 = '-' ∧ s2 = '-' ∧ [y1, y2, y3, y4, m1, m2, d1, d2].all Char.isDigit then
      some { year := decimalValue [y1, y2, y3, y4], month := decimalValue [m1, m2],
             day := decimalValue [d1, d2] }
    else none
  | _ => none

/-- A text of the form `YYYY-MM-DDTHH:MM:SSZ`, every field at full width. -/
def parseTime (text : List Char) : Option Civil :=
  match parseDate (text.take 10), text.drop 10 with
  | some date, [t, h1, h2, c1, n1, n2, c2, s1, s2, z] =>
    if t = 'T' ∧ c1 = ':' ∧ c2 = ':' ∧ z = 'Z' ∧ [h1, h2, n1, n2, s1, s2].all Char.isDigit then
      some { date with hour := decimalValue [h1, h2], minute := decimalValue [n1, n2],
                       second := decimalValue [s1, s2] }
    else none
  | _, _ => none

/-- The text of a moment up to its seconds. -/
def Civil.text (t : Civil) : List Char :=
  paddedDecimal 4 t.year ++ '-' :: paddedDecimal 2 t.month ++ '-' :: paddedDecimal 2 t.day ++
    'T' :: paddedDecimal 2 t.hour ++ ':' :: paddedDecimal 2 t.minute ++
    ':' :: paddedDecimal 2 t.second

/-- The fields of a moment are of two digits, its year apart. -/
theorem Civil.real_bounds (t : Civil) (h : t.real = true) :
    t.month < 100 ∧ t.day < 100 ∧ t.hour < 100 ∧ t.minute < 100 ∧ t.second < 100 := by
  simp only [Civil.real, Civil.realDate, Bool.and_eq_true, decide_eq_true_eq] at h
  have hday := daysIn_le t.year t.month
  omega

theorem Civil.length_text (t : Civil) (hyear : t.year < 10000) (h : t.real = true) :
    t.text.length = 19 := by
  rcases t.real_bounds h with ⟨hm, hd, hh, hn, hs⟩
  simp [Civil.text, length_paddedDecimal 4 t.year (by decide) hyear,
    length_paddedDecimal 2 t.month (by decide) hm, length_paddedDecimal 2 t.day (by decide) hd,
    length_paddedDecimal 2 t.hour (by decide) hh, length_paddedDecimal 2 t.minute (by decide) hn,
    length_paddedDecimal 2 t.second (by decide) hs]

theorem parseTime_text (t : Civil) (hyear : t.year < 10000) (h : t.real = true) :
    parseTime (t.text ++ ['Z']) = some t := by
  rcases t.real_bounds h with ⟨bm, bd, bh, bn, bs⟩
  rcases paddedDecimal_four t.year hyear with ⟨y1, y2, y3, y4, hy, dy, vy⟩
  rcases paddedDecimal_two t.month bm with ⟨m1, m2, hm, dm, vm⟩
  rcases paddedDecimal_two t.day bd with ⟨d1, d2, hd, dd, vd⟩
  rcases paddedDecimal_two t.hour bh with ⟨h1, h2, hh, dh, vh⟩
  rcases paddedDecimal_two t.minute bn with ⟨n1, n2, hn, dn, vn⟩
  rcases paddedDecimal_two t.second bs with ⟨s1, s2, hs, ds, vs⟩
  simp [Civil.text, hy, hm, hd, hh, hn, hs, parseTime, parseDate, dy, dm, dd, dh, dn, ds, vy, vm,
    vd, vh, vn, vs]

/-- The characters of a date, and its year. -/
theorem parseDate_shape {text : List Char} {t : Civil} (h : parseDate text = some t) :
    text.length = 10 ∧ (∀ c ∈ text, c.isDigit = true ∨ c = '-') ∧ t.year < 10000 := by
  unfold parseDate at h
  split at h
  · split at h
    · rename_i hform
      obtain ⟨rfl, rfl, hdigits⟩ := hform
      simp only [all_cons, all_nil, Bool.and_eq_true, and_true] at hdigits
      obtain ⟨h1, h2, h3, h4, h5, h6, h7, h8⟩ := hdigits
      rw [← Option.some.inj h]
      exact ⟨rfl, by simp [*], decimalValue_four_lt h1 h2 h3 h4⟩
    · cases h
  · cases h

theorem parseTime_shape {text : List Char} {t : Civil} (h : parseTime text = some t) :
    text.length = 20 ∧ (∀ c ∈ text, c.isDigit = true ∨ c ∈ ['-', 'T', ':', 'Z']) ∧
      t.year < 10000 := by
  unfold parseTime at h
  split at h
  · rename_i date c h1 h2 c1 n1 n2 c2 s1 s2 z hdate hdrop
    split at h
    · rename_i hform
      obtain ⟨rfl, rfl, rfl, rfl, hdigits⟩ := hform
      simp only [all_cons, all_nil, Bool.and_eq_true, and_true] at hdigits
      obtain ⟨hlength, hchars, hyear⟩ := parseDate_shape hdate
      have htext : text = text.take 10 ++ text.drop 10 := (take_append_drop 10 text).symm
      rw [← Option.some.inj h]
      refine ⟨?_, ?_, hyear⟩
      · rw [htext, length_append, hlength, hdrop]
        rfl
      · intro c hc
        rw [htext, mem_append, hdrop] at hc
        rcases hc with hc | hc
        · rcases hchars c hc with hdigit | rfl
          · exact .inl hdigit
          · exact .inr (by simp)
        · simp only [mem_cons, not_mem_nil, or_false] at hc
          rcases hc with rfl | rfl | rfl | rfl | rfl | rfl | rfl | rfl | rfl | rfl <;> simp [*]
    · cases h
  · cases h

theorem Civil.daysBefore_le (year month : Nat) : Civil.daysBefore year month ≤ 31 * (month - 1) := by
  unfold Civil.daysBefore
  induction month - 1 with
  | zero => simp
  | succ n ih =>
    have := daysIn_le year (n + 1)
    rw [range_succ, map_append, sum_append]
    simp only [map_cons, map_nil, sum_cons, sum_nil]
    omega

/-- Before year ten thousand there are less than 2 ^ 38 seconds. -/
theorem Civil.unix_lt {t : Civil} (hyear : t.year < 10000) (hmonth : t.month ≤ 12)
    (hday : t.day ≤ 31) (hhour : t.hour ≤ 23) (hminute : t.minute ≤ 59) (hsecond : t.second ≤ 61) :
    t.unix < 2 ^ 38 := by
  have hbefore := Civil.daysBefore_le t.year t.month
  simp only [Civil.unix, Civil.unixDay]
  omega

example : (parseTime "2026-10-05T12:30:59Z".toList).map Civil.unix = some 1791203459 ∧
    (parseDate "1970-01-01".toList).map Civil.unix = some 0 ∧
    [-62135596800, -1, 951782400, 951868800, 1791203459].map Civil.ofUnix =
      [⟨1, 1, 1, 0, 0, 0⟩, ⟨1969, 12, 31, 23, 59, 59⟩, ⟨2000, 2, 29, 0, 0, 0⟩,
        ⟨2000, 3, 1, 0, 0, 0⟩, ⟨2026, 10, 5, 12, 30, 59⟩] := by
  decide +kernel

end Regalia
