import Regalia.Data.Json

/-!
# JSON Text

Writing a JSON value without blanks and reading one back. What a string looks
like between its quotes differs from one writer to the next, so both
directions are over a `Quoting`: a way to write a string together with a
reader that takes it back off the front of any text. A quoting carries that
proof, and from it comes the one fact everything else uses: the printed text
determines the value, and what follows it.

`readUnits` reads the inside of a string literal as RFC 8259 has it and keeps,
for each character, whether it stood as a `\u` escape. The reader of a
quoting is built from it.

## Main definitions

* `readUnits`: The characters of a string literal up to its closing quote.
* `Quoting`: How strings are written, and read back.
* `Json.print`: The text of a value.

## Theorems

* `Json.print_plain`: A printed value is one line.
* `Json.parseValue_print`: Reading what was printed gives the value back.
* `Json.print_injective`: The text determines the value.
-/

namespace Regalia

open List Option

/-! ### Hexadecimal -/

/-- A number below 65536 as four lowercase hexadecimal digits. -/
def hex4 (n : Nat) : List Char :=
  [Nat.digitChar (n / 4096 % 16), Nat.digitChar (n / 256 % 16),
    Nat.digitChar (n / 16 % 16), Nat.digitChar (n % 16)]

/-- The value of a hexadecimal digit, in either case. -/
def hexValue (c : Char) : Option Nat :=
  if '0' ≤ c ∧ c ≤ '9' then some (c.toNat - '0'.toNat)
  else if 'a' ≤ c ∧ c ≤ 'f' then some (c.toNat - 'a'.toNat + 10)
  else if 'A' ≤ c ∧ c ≤ 'F' then some (c.toNat - 'A'.toNat + 10)
  else none

/-- The value of four hexadecimal digits. -/
def hex4Value (a b c d : Char) : Option Nat :=
  match hexValue a, hexValue b, hexValue c, hexValue d with
  | some a, some b, some c, some d => some (4096 * a + 256 * b + 16 * c + d)
  | _, _, _, _ => none

theorem hexValue_digitChar : ∀ d < 16, hexValue (Nat.digitChar d) = some d := by decide

variable (n : Nat) (rest : List Char)

theorem hex4Value_hex4 (h : n < 65536) :
    hex4Value (Nat.digitChar (n / 4096 % 16)) (Nat.digitChar (n / 256 % 16))
      (Nat.digitChar (n / 16 % 16)) (Nat.digitChar (n % 16)) = some n := by
  simp only [hex4Value, hexValue_digitChar _ (Nat.mod_lt _ (by decide : 0 < 16))]
  congr 1
  omega

/-! ### String literals -/

/-- The character a one-letter escape stands for. -/
def shortEscape : Char → Option Char
  | '"' => some '"'
  | '\\' => some '\\'
  | '/' => some '/'
  | 'b' => some (Char.ofNat 8)
  | 'f' => some (Char.ofNat 12)
  | 'n' => some '\n'
  | 'r' => some '\r'
  | 't' => some '\t'
  | _ => none

/-- The inside of a string literal up to its closing quote, and what follows
    the quote. A character that stood as a `\u` escape is marked. A surrogate
    that is half of no pair is no character, and a control character has to
    be escaped. -/
def readUnits : List Char → Option (List (Bool × Char) × List Char)
  | [] => none
  | '"' :: rest => some ([], rest)
  | '\\' :: 'u' :: a :: b :: c :: d :: rest =>
    match hex4Value a b c d with
    | none => none
    | some n =>
      if n < 0xD800 ∨ 0xE000 ≤ n then
        (readUnits rest).map (fun p => ((true, Char.ofNat n) :: p.1, p.2))
      else
        match rest with
        | '\\' :: 'u' :: e :: f :: g :: h :: rest =>
          match hex4Value e f g h with
          | none => none
          | some m =>
            if n < 0xDC00 ∧ 0xDC00 ≤ m ∧ m < 0xE000 then
              (readUnits rest).map (fun p =>
                ((true, Char.ofNat (0x10000 + 1024 * (n - 0xD800) + (m - 0xDC00))) :: p.1, p.2))
            else none
        | _ => none
  | '\\' :: c :: rest =>
    match shortEscape c with
    | none => none
    | some c => (readUnits rest).map (fun p => ((false, c) :: p.1, p.2))
  | c :: rest =>
    if c.toNat < 0x20 then none
    else (readUnits rest).map (fun p => ((false, c) :: p.1, p.2))

/-- One more character in front of what `readUnits` read. -/
def consUnit (u : Bool × Char) (p : List (Bool × Char) × List Char) :
    List (Bool × Char) × List Char := (u :: p.1, p.2)

/-- A character that needs no escape reads as itself. -/
theorem readUnits_plain (c : Char) (rest : List Char) (hq : c ≠ '"') (hb : c ≠ '\\')
    (hc : 0x20 ≤ c.toNat) : readUnits (c :: rest) = (readUnits rest).map (consUnit (false, c)) := by
  rw [readUnits.eq_def]
  split
  · contradiction
  · rename_i heq
    injection heq with h1 h2
    exact absurd h1 hq
  · rename_i heq
    injection heq with h1 h2
    exact absurd h1 hb
  · rename_i heq
    injection heq with h1 h2
    exact absurd h1 hb
  · rename_i heq
    injection heq with h1 h2
    subst h1 h2
    rw [if_neg (by omega)]
    rfl

/-- A `\u` escape outside the surrogates reads as the character it names. -/
theorem readUnits_hex4 (hn : n < 0xD800 ∨ 0xE000 ≤ n) (hlt : n < 65536) :
    readUnits ('\\' :: 'u' :: hex4 n ++ rest) =
      (readUnits rest).map (consUnit (true, Char.ofNat n)) := by
  simp only [hex4, cons_append, nil_append]
  rw [readUnits]
  simp only [hex4Value_hex4 n hlt, if_pos hn]
  rfl

/-- A pair of surrogate escapes reads as the character it names. -/
theorem readUnits_surrogates (hlo : 0x10000 ≤ n) (hhi : n < 0x110000) :
    readUnits ('\\' :: 'u' :: hex4 (0xD800 + (n - 0x10000) / 1024) ++
        ('\\' :: 'u' :: hex4 (0xDC00 + (n - 0x10000) % 1024) ++ rest)) =
      (readUnits rest).map (consUnit (true, Char.ofNat n)) := by
  have h1 : 0xD800 + (n - 0x10000) / 1024 < 65536 := by omega
  have h2 : 0xDC00 + (n - 0x10000) % 1024 < 65536 := by omega
  have hn : 0x10000 + 1024 * (0xD800 + (n - 0x10000) / 1024 - 0xD800) +
      (0xDC00 + (n - 0x10000) % 1024 - 0xDC00) = n := by omega
  simp only [hex4, cons_append, nil_append]
  rw [readUnits]
  simp only [hex4Value_hex4 _ h1, hex4Value_hex4 _ h2]
  rw [if_neg (by omega), if_pos (by omega), hn]
  rfl

/-- An escape of one letter reads as the character it stands for. -/
theorem readUnits_short (c d : Char) (rest : List Char) (hu : c ≠ 'u')
    (h : shortEscape c = some d) :
    readUnits ('\\' :: c :: rest) = (readUnits rest).map (consUnit (false, d)) := by
  rw [readUnits.eq_def]
  split
  · contradiction
  · rename_i heq
    injection heq with h1 h2
    exact absurd h1 (by decide)
  · rename_i heq
    injection heq with h1 h2
    injection h2 with h2 h3
    exact absurd h2 hu
  · rename_i heq
    injection heq with h1 h2
    injection h2 with h2 h3
    subst h2 h3
    simp only [h]
    rfl
  · rename_i hb heq
    injection heq with h1 h2
    subst h1 h2
    exact absurd rfl (hb c rest rfl)

/-- A way to write strings between quotes: what stands between them, closing
    quote included, and a reader that takes it off the front of any text. -/
structure Quoting (σ : Type) where
  body : σ → List Char
  read : List Char → Option (σ × List Char)
  read_body : ∀ s rest, read (body s ++ rest) = some (s, rest)

/-! ### Numbers -/

/-- An integer in decimal. -/
def printInt (n : Int) : List Char :=
  if n < 0 then '-' :: Nat.toDigits 10 n.natAbs else Nat.toDigits 10 n.natAbs

/-- Decimal digits off the front of a text: at least one, and no zero before
    another digit. A point or an exponent after them makes a fraction, which
    is no value here. -/
def readNat (text : List Char) : Option (Nat × List Char) :=
  let digits := text.takeWhile Char.isDigit
  let rest := text.dropWhile Char.isDigit
  if digits = [] ∨ (digits.head? = some '0' ∧ digits.length ≠ 1) then none
  else if rest.head? = some '.' ∨ rest.head? = some 'e' ∨ rest.head? = some 'E' then none
  else some (Nat.ofDigitChars 10 digits 0, rest)

/-- An integer off the front of a text. -/
def readInt : List Char → Option (Int × List Char)
  | '-' :: rest => (readNat rest).map (fun p => (-(p.1 : Int), p.2))
  | text => (readNat text).map (fun p => ((p.1 : Int), p.2))

/-- What may follow a number without becoming part of it. -/
def EndsNumber (rest : List Char) : Prop :=
  ∀ c, rest.head? = some c → c.isDigit = false ∧ c ≠ '.' ∧ c ≠ 'e' ∧ c ≠ 'E'

theorem toDigits_head_ne_zero (h : 0 < n) : (Nat.toDigits 10 n).head? ≠ some '0' := by
  induction n using Nat.strongRecOn with
  | ind n ih =>
    by_cases hlt : n < 10
    · rw [Nat.toDigits_of_lt_base hlt, head?_cons]
      intro hc
      have : n = 0 := Nat.digitChar_eq_zero.mp (Option.some.inj hc)
      omega
    · -- the leading digit is that of the tenth
      have hpos : 0 < n / 10 := by omega
      rw [Nat.toDigits_of_base_le (by decide) (by omega),
        head?_append_of_ne_nil _ Nat.toDigits_ne_nil]
      exact ih (n / 10) (by omega) hpos

theorem toDigits_of_digit {c : Char} (h : c.isDigit = true) :
    c.toNat - '0'.toNat < 10 ∧ Nat.toDigits 10 (c.toNat - '0'.toNat) = [c] := by
  simp only [Char.isDigit, Bool.and_eq_true, decide_eq_true_eq] at h
  have hlow : '0'.toNat ≤ c.toNat := h.1
  have hhigh : c.toNat ≤ 57 := h.2
  have hlt : c.toNat - '0'.toNat < 10 := Nat.lt_of_le_of_lt (Nat.sub_le_sub_right hhigh _) (by decide)
  have hchar : ∀ d < 10, Nat.digitChar d = Char.ofNat ('0'.toNat + d) := by decide
  refine ⟨hlt, ?_⟩
  rw [Nat.toDigits_of_lt_base hlt, hchar _ hlt, Nat.add_sub_cancel' hlow, Char.ofNat_toNat]

/-- Digits behind those of a number that is not zero. -/
theorem toDigits_ofDigitChars {n : Nat} (hn : 0 < n) (cs : List Char)
    (h : ∀ c ∈ cs, c.isDigit = true) :
    Nat.toDigits 10 (Nat.ofDigitChars 10 cs n) = Nat.toDigits 10 n ++ cs := by
  induction cs generalizing n with
  | nil =>
    rw [append_nil]
    rfl
  | cons c cs ih =>
    rcases toDigits_of_digit (h c mem_cons_self) with ⟨hlt, hdigit⟩
    rw [Nat.ofDigitChars_cons, ih (by omega) (fun d hd => h d (mem_cons_of_mem _ hd)),
      ← Nat.toDigits_append_toDigits (by decide) hn hlt, hdigit, append_assoc, singleton_append]

/-- Digits that do not start with a zero are those of their number. -/
theorem toDigits_ofDigitChars_cons {c : Char} {cs : List Char} (hc : c ≠ '0')
    (h : ∀ d ∈ c :: cs, d.isDigit = true) :
    0 < Nat.ofDigitChars 10 (c :: cs) 0 ∧
      Nat.toDigits 10 (Nat.ofDigitChars 10 (c :: cs) 0) = c :: cs := by
  rcases toDigits_of_digit (h c mem_cons_self) with ⟨-, hdigit⟩
  have hpos : 0 < c.toNat - '0'.toNat := by
    rw [Nat.pos_iff_ne_zero]
    intro hzero
    rw [hzero, Nat.toDigits_zero] at hdigit
    exact hc (singleton_inj.mp hdigit).symm
  have hdigits := toDigits_ofDigitChars hpos cs (fun d hd => h d (mem_cons_of_mem _ hd))
  rw [Nat.ofDigitChars_cons, Nat.mul_zero, Nat.zero_add, hdigits, hdigit]
  refine ⟨?_, rfl⟩
  rw [Nat.pos_iff_ne_zero]
  intro hzero
  rw [hzero, hdigit, Nat.toDigits_zero] at hdigits
  injection hdigits with h0 _
  exact hc h0.symm

/-- Leading zeros do not count. -/
theorem ofDigitChars_dropZeros (cs : List Char) :
    Nat.ofDigitChars 10 (cs.dropWhile (· = '0')) 0 = Nat.ofDigitChars 10 cs 0 := by
  induction cs with
  | nil => rfl
  | cons c cs ih =>
    by_cases hc : c = '0'
    · rw [dropWhile_cons, if_pos (decide_eq_true hc), ih, hc, Nat.ofDigitChars_cons]
      rfl
    · rw [dropWhile_cons, if_neg (by simpa using hc)]

theorem takeWhile_toDigits (h : EndsNumber rest) :
    (Nat.toDigits 10 n ++ rest).takeWhile Char.isDigit = Nat.toDigits 10 n ∧
      (Nat.toDigits 10 n ++ rest).dropWhile Char.isDigit = rest := by
  have hall : ∀ c ∈ Nat.toDigits 10 n, c.isDigit = true := fun c hc =>
    Nat.isDigit_of_mem_toDigits (by decide) (by decide) hc
  rw [takeWhile_append_of_pos hall, dropWhile_append_of_pos hall]
  cases rest with
  | nil => simp only [takeWhile_nil, dropWhile_nil, append_nil, and_self]
  | cons c rest =>
    have hc : c.isDigit = false := (h c rfl).1
    simp only [takeWhile_cons, dropWhile_cons, hc, Bool.false_eq_true, if_false,
      append_nil, and_self]

theorem readNat_toDigits (h : EndsNumber rest) :
    readNat (Nat.toDigits 10 n ++ rest) = some (n, rest) := by
  rcases takeWhile_toDigits n rest h with ⟨htake, hdrop⟩
  have hzero : ¬ (Nat.toDigits 10 n = [] ∨
      ((Nat.toDigits 10 n).head? = some '0' ∧ (Nat.toDigits 10 n).length ≠ 1)) := by
    rintro (hnil | ⟨hhead, hlen⟩)
    · exact Nat.toDigits_ne_nil hnil
    · by_cases hn : n = 0
      · subst hn
        exact hlen (by rw [Nat.toDigits_zero]; rfl)
      · exact toDigits_head_ne_zero n (Nat.pos_of_ne_zero hn) hhead
  have hfrac : ¬ (rest.head? = some '.' ∨ rest.head? = some 'e' ∨ rest.head? = some 'E') := by
    rintro (hc | hc | hc)
    · exact (h _ hc).2.1 rfl
    · exact (h _ hc).2.2.1 rfl
    · exact (h _ hc).2.2.2 rfl
  simp only [readNat, htake, hdrop]
  rw [if_neg hzero, if_neg hfrac, Nat.ofDigitChars_ten_toDigits]

/-- The first character of a number. -/
theorem printInt_head (n : Int) : ∃ c t, printInt n = c :: t ∧ (c = '-' ∨ c.isDigit = true) := by
  by_cases hneg : n < 0
  · exact ⟨'-', _, if_pos hneg, Or.inl rfl⟩
  · rw [printInt, if_neg hneg]
    cases hd : Nat.toDigits 10 n.natAbs with
    | nil => exact absurd hd Nat.toDigits_ne_nil
    | cons c t =>
      refine ⟨c, t, rfl, Or.inr ?_⟩
      exact Nat.isDigit_of_mem_toDigits (b := 10) (n := n.natAbs) (by decide) (by decide)
        (hd ▸ mem_cons_self)

theorem readInt_printInt (n : Int) (rest : List Char) (h : EndsNumber rest) :
    readInt (printInt n ++ rest) = some (n, rest) := by
  by_cases hneg : n < 0
  · have habs : -(n.natAbs : Int) = n := by omega
    rw [printInt, if_pos hneg, cons_append, readInt, readNat_toDigits _ _ h, map_some, habs]
  · have habs : (n.natAbs : Int) = n := by omega
    rcases printInt_head n with ⟨c, t, hprint, hhead⟩
    have hne : c ≠ '-' := by
      rintro rfl
      rw [printInt, if_neg hneg] at hprint
      have : ('-' : Char).isDigit = true :=
        Nat.isDigit_of_mem_toDigits (b := 10) (n := n.natAbs) (by decide) (by decide)
          (hprint ▸ mem_cons_self)
      exact absurd this (by decide)
    have hread : readInt (printInt n ++ rest) =
        (readNat (printInt n ++ rest)).map (fun p => ((p.1 : Int), p.2)) := by
      rw [hprint, cons_append, readInt]
      intro r hr
      injection hr with h1 _
      exact hne h1
    rw [hread, printInt, if_neg hneg, readNat_toDigits _ _ h, map_some, habs]

/-! ### Values -/

namespace Json

variable {σ : Type} (q : Quoting σ)

mutual

/-- The text of a value, without blanks. -/
def print : Json σ → List Char
  | null => ['n', 'u', 'l', 'l']
  | bool true => ['t', 'r', 'u', 'e']
  | bool false => ['f', 'a', 'l', 's', 'e']
  | num n => printInt n
  | str s => '"' :: q.body s
  | arr [] => ['[', ']']
  | arr (v :: vs) => '[' :: (print v ++ printItems vs)
  | obj [] => ['{', '}']
  | obj ((k, v) :: fs) => '{' :: '"' :: (q.body k ++ ':' :: (print v ++ printFields fs))

/-- The items after the first, and the closing bracket. -/
def printItems : List (Json σ) → List Char
  | [] => [']']
  | v :: vs => ',' :: (print v ++ printItems vs)

/-- The fields after the first, and the closing brace. -/
def printFields : List (σ × Json σ) → List Char
  | [] => ['}']
  | (k, v) :: fs => ',' :: '"' :: (q.body k ++ ':' :: (print v ++ printFields fs))

end

/-- The blanks of JSON. -/
def isBlank (c : Char) : Bool := c = ' ' || c = '\t' || c = '\n' || c = '\r'

/-- A text without its leading blanks. -/
def skipBlanks (text : List Char) : List Char := text.dropWhile isBlank

/-- A name and its colon off the front of a text. -/
def readName (text : List Char) : Option (σ × List Char) :=
  match skipBlanks text with
  | '"' :: rest =>
    match q.read rest with
    | some (k, rest) =>
      match skipBlanks rest with
      | ':' :: rest => some (k, rest)
      | _ => none
    | none => none
  | _ => none

mutual

/-- A value off the front of a text, with `fuel` bounding the work. Objects
    come with their fields as they stand, repeated names included. -/
def parseValue : Nat → List Char → Option (Json σ × List Char)
  | 0, _ => none
  | fuel + 1, text =>
    match skipBlanks text with
    | 'n' :: 'u' :: 'l' :: 'l' :: rest => some (null, rest)
    | 't' :: 'r' :: 'u' :: 'e' :: rest => some (bool true, rest)
    | 'f' :: 'a' :: 'l' :: 's' :: 'e' :: rest => some (bool false, rest)
    | '"' :: rest => (q.read rest).map (fun p => (str p.1, p.2))
    | '[' :: rest =>
      if (skipBlanks rest).head? = some ']' then some (arr [], (skipBlanks rest).tail)
      else
        match parseValue fuel rest with
        | some (v, rest) => (parseItems fuel rest).map (fun p => (arr (v :: p.1), p.2))
        | none => none
    | '{' :: rest =>
      if (skipBlanks rest).head? = some '}' then some (obj [], (skipBlanks rest).tail)
      else
        match readName q rest with
        | some (k, rest) =>
          match parseValue fuel rest with
          | some (v, rest) => (parseFields fuel rest).map (fun p => (obj ((k, v) :: p.1), p.2))
          | none => none
        | none => none
    | rest => (readInt rest).map (fun p => (num p.1, p.2))

/-- The items after the first, up to the closing bracket. -/
def parseItems : Nat → List Char → Option (List (Json σ) × List Char)
  | 0, _ => none
  | fuel + 1, text =>
    match skipBlanks text with
    | ']' :: rest => some ([], rest)
    | ',' :: rest =>
      match parseValue fuel rest with
      | some (v, rest) => (parseItems fuel rest).map (fun p => (v :: p.1, p.2))
      | none => none
    | _ => none

/-- The fields after the first, up to the closing brace. -/
def parseFields : Nat → List Char → Option (List (σ × Json σ) × List Char)
  | 0, _ => none
  | fuel + 1, text =>
    match skipBlanks text with
    | '}' :: rest => some ([], rest)
    | ',' :: rest =>
      match readName q rest with
      | some (k, rest) =>
        match parseValue fuel rest with
        | some (v, rest) => (parseFields fuel rest).map (fun p => ((k, v) :: p.1, p.2))
        | none => none
      | none => none
    | _ => none

end

theorem skipBlanks_cons (c : Char) (rest : List Char) (h : isBlank c = false) :
    skipBlanks (c :: rest) = c :: rest := by
  simp only [skipBlanks, dropWhile_cons, h, Bool.false_eq_true, if_false]

theorem readName_body (k : σ) (rest : List Char) :
    readName q ('"' :: (q.body k ++ ':' :: rest)) = some (k, rest) := by
  rw [readName, skipBlanks_cons _ _ (by decide)]
  simp only [q.read_body, skipBlanks_cons ':' rest (by decide)]

/-- No blank and no closing bracket starts a printed value. -/
theorem print_opens (v : Json σ) :
    ∃ c t, print q v = c :: t ∧ isBlank c = false ∧ c ≠ ']' ∧ c ≠ '}' := by
  cases v with
  | null => exact ⟨'n', _, rfl, by decide, by decide, by decide⟩
  | bool b =>
    cases b with
    | true => exact ⟨'t', _, rfl, by decide, by decide, by decide⟩
    | false => exact ⟨'f', _, rfl, by decide, by decide, by decide⟩
  | num n =>
    rcases printInt_head n with ⟨c, t, hprint, hhead⟩
    refine ⟨c, t, by rw [print, hprint], ?_, ?_, ?_⟩
    · rcases hhead with rfl | hdigit
      · decide
      · simp only [isBlank, Bool.or_eq_false_iff, decide_eq_false_iff_not]
        refine ⟨⟨⟨?_, ?_⟩, ?_⟩, ?_⟩ <;> (rintro rfl; revert hdigit; decide)
    · rintro rfl
      revert hhead
      decide
    · rintro rfl
      revert hhead
      decide
  | str s => exact ⟨'"', _, by rw [print], by decide, by decide, by decide⟩
  | arr items =>
    cases items with
    | nil | cons v vs => exact ⟨'[', _, by rw [print], by decide, by decide, by decide⟩
  | obj fields =>
    cases fields with
    | nil | cons f fs => exact ⟨'{', _, by rw [print], by decide, by decide, by decide⟩

theorem print_head (v : Json σ) : ∃ c t, print q v = c :: t ∧ isBlank c = false ∧ c ≠ ']' := by
  rcases print_opens q v with ⟨c, t, hprint, hblank, hbracket, -⟩
  exact ⟨c, t, hprint, hblank, hbracket⟩

theorem print_length_pos (v : Json σ) : 0 < (print q v).length := by
  rcases print_head q v with ⟨c, t, h, _⟩
  rw [h, length_cons]
  omega

/-- The text of an array or an object ends with its bracket, so a number
    inside it is followed by a comma or a bracket. -/
theorem endsNumber_cons (c : Char) (rest : List Char)
    (h : c.isDigit = false ∧ c ≠ '.' ∧ c ≠ 'e' ∧ c ≠ 'E') : EndsNumber (c :: rest) := by
  intro d hd
  rw [head?_cons] at hd
  exact Option.some.inj hd ▸ h

theorem endsNumber_printItems (vs : List (Json σ)) (rest : List Char) :
    EndsNumber (printItems q vs ++ rest) := by
  cases vs with
  | nil => exact endsNumber_cons ']' rest (by decide)
  | cons v vs =>
    rw [printItems, cons_append]
    exact endsNumber_cons ',' _ (by decide)

theorem endsNumber_printFields (fs : List (σ × Json σ)) (rest : List Char) :
    EndsNumber (printFields q fs ++ rest) := by
  cases fs with
  | nil => exact endsNumber_cons '}' rest (by decide)
  | cons f fs =>
    rw [printFields, cons_append]
    exact endsNumber_cons ',' _ (by decide)

/-- A number is the only value that starts with a sign or a digit. -/
theorem parseValue_printInt (n : Int) (fuel : Nat) (rest : List Char) (h : EndsNumber rest) :
    parseValue q (fuel + 1) (printInt n ++ rest) = some (num n, rest) := by
  have hread := readInt_printInt n rest h
  rcases printInt_head n with ⟨c, t, hprint, hhead⟩
  rcases print_head q (num n) with ⟨c', t', hprint', hblank, _⟩
  rw [print, hprint] at hprint'
  injection hprint' with hc _
  subst hc
  rw [hprint, cons_append] at hread ⊢
  rw [parseValue, skipBlanks_cons _ _ hblank]
  split
  case h_7 => rw [hread, Option.map_some]
  -- the other branches start with a letter, a quote or a bracket
  all_goals
    rename_i heq
    injection heq with h1 _
    subst h1
    exact absurd hhead (by decide)

mutual

/-- Reading what was printed gives the value back and leaves what followed.
    The fuel is counted in characters: every call consumes one. -/
theorem parseValue_print : ∀ (v : Json σ) (fuel : Nat) (rest : List Char),
    (print q v).length ≤ fuel → EndsNumber rest →
    parseValue q fuel (print q v ++ rest) = some (v, rest)
  | v, 0, rest, hfuel, _ => by
    have := print_length_pos q v
    omega
  | null, fuel + 1, rest, _, _
  | bool true, fuel + 1, rest, _, _
  | bool false, fuel + 1, rest, _, _ => by
    simp only [print, cons_append, nil_append]
    rw [parseValue, skipBlanks_cons _ _ (by decide)]
    rfl
  | num n, fuel + 1, rest, _, hrest => by
    rw [print]
    exact parseValue_printInt q n fuel rest hrest
  | str s, fuel + 1, rest, _, _ => by
    rw [print, cons_append, parseValue, skipBlanks_cons _ _ (by decide)]
    simp only [q.read_body, Option.map_some]
  | arr [], fuel + 1, rest, _, _ => by
    simp only [print, cons_append, nil_append]
    rw [parseValue, skipBlanks_cons _ _ (by decide)]
    simp only [skipBlanks_cons ']' rest (by decide), head?_cons, tail_cons, if_true]
  | arr (v :: vs), fuel + 1, rest, hfuel, hrest => by
    rw [print, length_cons, length_append] at hfuel
    have hv := parseValue_print v fuel (printItems q vs ++ rest) (by omega)
      (endsNumber_printItems q vs rest)
    have hvs := parseItems_printItems vs fuel rest (by omega)
    rcases print_head q v with ⟨c, t, hprint, hblank, hc⟩
    have hopen : (skipBlanks (print q v ++ (printItems q vs ++ rest))).head? ≠ some ']' := by
      rw [hprint, cons_append, skipBlanks_cons _ _ hblank, head?_cons]
      exact fun heq => hc (Option.some.inj heq)
    rw [print, cons_append, append_assoc, parseValue, skipBlanks_cons _ _ (by decide)]
    simp only [if_neg hopen, hv, hvs, Option.map_some]
  | obj [], fuel + 1, rest, _, _ => by
    simp only [print, cons_append, nil_append]
    rw [parseValue, skipBlanks_cons _ _ (by decide)]
    simp only [skipBlanks_cons '}' rest (by decide), head?_cons, tail_cons, if_true]
  | obj ((k, v) :: fs), fuel + 1, rest, hfuel, hrest => by
    simp only [print, length_cons, length_append] at hfuel
    have hv := parseValue_print v fuel (printFields q fs ++ rest) (by omega)
      (endsNumber_printFields q fs rest)
    have hfs := parseFields_printFields fs fuel rest (by omega)
    have hname := readName_body q k (print q v ++ (printFields q fs ++ rest))
    simp only [print, cons_append, append_assoc]
    rw [parseValue, skipBlanks_cons _ _ (by decide)]
    have hopen : (skipBlanks ('"' :: (q.body k ++ ':' :: (print q v ++
        (printFields q fs ++ rest))))).head? ≠ some '}' := by
      rw [skipBlanks_cons _ _ (by decide), head?_cons]
      decide
    simp only [if_neg hopen, hname, hv, hfs, map_some]

theorem parseItems_printItems : ∀ (vs : List (Json σ)) (fuel : Nat) (rest : List Char),
    (printItems q vs).length ≤ fuel → parseItems q fuel (printItems q vs ++ rest) = some (vs, rest)
  | [], 0, rest, hfuel => by
    rw [printItems, length_singleton] at hfuel
    omega
  | v :: vs, 0, rest, hfuel => by
    rw [printItems, length_cons] at hfuel
    omega
  | [], fuel + 1, rest, _ => by
    rw [printItems, singleton_append, parseItems, skipBlanks_cons _ _ (by decide)]
    rfl
  | v :: vs, fuel + 1, rest, hfuel => by
    rw [printItems, length_cons, length_append] at hfuel
    have hv := parseValue_print v fuel (printItems q vs ++ rest) (by omega)
      (endsNumber_printItems q vs rest)
    have hvs := parseItems_printItems vs fuel rest (by omega)
    rw [printItems, cons_append, append_assoc, parseItems, skipBlanks_cons _ _ (by decide)]
    simp only [hv, hvs, map_some]

theorem parseFields_printFields : ∀ (fs : List (σ × Json σ)) (fuel : Nat) (rest : List Char),
    (printFields q fs).length ≤ fuel →
    parseFields q fuel (printFields q fs ++ rest) = some (fs, rest)
  | [], 0, rest, hfuel => by
    rw [printFields, length_singleton] at hfuel
    omega
  | (k, v) :: fs, 0, rest, hfuel => by
    rw [printFields, length_cons] at hfuel
    omega
  | [], fuel + 1, rest, _ => by
    rw [printFields, singleton_append, parseFields, skipBlanks_cons _ _ (by decide)]
    rfl
  | (k, v) :: fs, fuel + 1, rest, hfuel => by
    simp only [printFields, length_cons, length_append] at hfuel
    have hv := parseValue_print v fuel (printFields q fs ++ rest) (by omega)
      (endsNumber_printFields q fs rest)
    have hfs := parseFields_printFields fs fuel rest (by omega)
    have hname := readName_body q k (print q v ++ (printFields q fs ++ rest))
    simp only [printFields, cons_append, append_assoc]
    rw [parseFields, skipBlanks_cons _ _ (by decide)]
    simp only [hname, hv, hfs, map_some]

end

/-! ### One line -/

theorem printInt_plain (n : Int) : ∀ c ∈ printInt n, 0x20 ≤ c.toNat := by
  have hdigit : ∀ c : Char, c.isDigit = true → 0x20 ≤ c.toNat := by
    intro c hc
    simp only [Char.isDigit, Bool.and_eq_true, decide_eq_true_eq] at hc
    have hle : (48 : UInt32).toNat ≤ c.val.toNat := hc.1
    exact Nat.le_trans (by decide) hle
  intro c hc
  have hcases : c = '-' ∨ c ∈ Nat.toDigits 10 n.natAbs := by
    unfold printInt at hc
    split at hc
    · exact mem_cons.mp hc
    · exact .inr hc
  rcases hcases with rfl | hmem
  · decide
  · exact hdigit c (Nat.isDigit_of_mem_toDigits (by decide) (by decide) hmem)

-- A `Bool` test, so that deciding it looks at these characters and at no others.
theorem plain_of_all {cs : List Char} (h : cs.all (fun c => decide (0x20 ≤ c.toNat)) = true) :
    ∀ c ∈ cs, 0x20 ≤ c.toNat := by
  intro c hc
  exact of_decide_eq_true (all_eq_true.mp h c hc)

section Plain

variable (hq : ∀ s, ∀ c ∈ q.body s, 0x20 ≤ c.toNat)

include hq

mutual

/-- A printed value holds no control character, so it is one line. -/
theorem print_plain : ∀ v : Json σ, ∀ c ∈ print q v, 0x20 ≤ c.toNat
  | null => plain_of_all rfl
  | bool true => plain_of_all rfl
  | bool false => plain_of_all rfl
  | num n => printInt_plain n
  | str s => by
    intro c hc
    simp only [print, mem_cons] at hc
    rcases hc with rfl | hc
    · decide
    · exact hq s c hc
  | arr [] => plain_of_all rfl
  | arr (v :: vs) => by
    intro c hc
    simp only [print, mem_cons, mem_append] at hc
    rcases hc with rfl | hc | hc
    · decide
    · exact print_plain v c hc
    · exact printItems_plain vs c hc
  | obj [] => plain_of_all rfl
  | obj ((k, v) :: fs) => by
    intro c hc
    simp only [print, mem_cons, mem_append] at hc
    rcases hc with rfl | rfl | hc | rfl | hc | hc
    · decide
    · decide
    · exact hq k c hc
    · decide
    · exact print_plain v c hc
    · exact printFields_plain fs c hc

theorem printItems_plain : ∀ vs : List (Json σ), ∀ c ∈ printItems q vs, 0x20 ≤ c.toNat
  | [] => by simp [printItems]
  | v :: vs => by
    intro c hc
    simp only [printItems, mem_cons, mem_append] at hc
    rcases hc with rfl | hc | hc
    · decide
    · exact print_plain v c hc
    · exact printItems_plain vs c hc

theorem printFields_plain : ∀ fs : List (σ × Json σ), ∀ c ∈ printFields q fs, 0x20 ≤ c.toNat
  | [] => by simp [printFields]
  | (k, v) :: fs => by
    intro c hc
    simp only [printFields, mem_cons, mem_append] at hc
    rcases hc with rfl | rfl | hc | rfl | hc | hc
    · decide
    · decide
    · exact hq k c hc
    · decide
    · exact print_plain v c hc
    · exact printFields_plain fs c hc

end

end Plain

/-- The text determines the value. -/
theorem print_injective (v w : Json σ) (h : print q v = print q w) : v = w := by
  have hnil : EndsNumber [] := by
    intro c hc
    cases hc
  have hv := parseValue_print q v (print q v).length [] (Nat.le_refl _) hnil
  have hw := parseValue_print q w (print q w).length [] (Nat.le_refl _) hnil
  rw [h, hw] at hv
  exact (congrArg Prod.fst (Option.some.inj hv)).symm

end Json

end Regalia
