import Regalia.Data.JsonCut

/-!
# The Token Decoder

`encoding/json`'s `Decoder`, read one token at a time: what a caller sees of a
text that it walks by itself. The decoder keeps what it expects next and what
it will expect again once the innermost bracket closes; a separator is not a
token, it is passed over on the way to one. Bytes that are no character matter
only inside a string, where each becomes a replacement character, and so does
half of a surrogate pair.

A string that is written with one of the quotings of `Regalia.Quoting` comes
back as it was: what `readUnits` reads, this decoder reads (`readString_of_readUnits`).

## Main definitions

* `readString`, `readNumber`, `readScalar`: One value that is no bracket.
* `Expects`, `Token`, `Decoder`: The decoder.
* `Decoder.token`, `Decoder.more`: `Token` and `More`, with numbers as they are
  spelled.

## Theorems

* `readString_of_readUnits`: What is read of a string.
* `readNumber_printInt`: What is read of an integer.
* `token_scalar`, `token_comma`, `token_colon`: What a token is, from the text
  in front of the decoder.
-/

namespace Regalia.GoJson

open List Option

variable {stack : List Expects} {rest : Literal} {e : Expects}

/-! ### Scalars -/

/-- The inside of a string up to its closing quote, and what follows. -/
def readString : Literal → Option (List Char × Literal)
  | [] => none
  | some '"' :: rest => some ([], rest)
  | some '\\' :: some 'u' :: some a :: some b :: some c :: some d :: rest =>
    match hex4Value a b c d with
    | none => none
    | some n =>
      if n < 0xD800 ∨ 0xE000 ≤ n then
        (readString rest).map (fun p => (Char.ofNat n :: p.1, p.2))
      else
        match rest with
        | some '\\' :: some 'u' :: some e :: some f :: some g :: some h :: more =>
          match hex4Value e f g h with
          | none => none
          | some m =>
            if n < 0xDC00 ∧ 0xDC00 ≤ m ∧ m < 0xE000 then
              (readString more).map (fun p =>
                (Char.ofNat (0x10000 + 1024 * (n - 0xD800) + (m - 0xDC00)) :: p.1, p.2))
            -- half of no pair; the escape behind it stands by itself
            else (readString (some '\\' :: some 'u' :: some e :: some f :: some g :: some h ::
              more)).map (fun p => (GoString.runeError :: p.1, p.2))
        | rest => (readString rest).map (fun p => (GoString.runeError :: p.1, p.2))
  | some '\\' :: some c :: rest =>
    match shortEscape c with
    | none => none
    | some c => (readString rest).map (fun p => (c :: p.1, p.2))
  | some '\\' :: _ => none
  | some c :: rest =>
    if c.toNat < 0x20 then none
    else (readString rest).map (fun p => (c :: p.1, p.2))
  | none :: rest => (readString rest).map (fun p => (GoString.runeError :: p.1, p.2))

/-- The digits at the front of a text. -/
def spanDigits : Literal → List Char × Literal
  | some c :: rest =>
    if c.isDigit then (c :: (spanDigits rest).1, (spanDigits rest).2) else ([], some c :: rest)
  | rest => ([], rest)

variable (d : Decoder) (text : Literal)

/-- At least one digit. -/
def readDigits : Option (List Char × Literal) :=
  if (spanDigits text).1 = [] then none else some (spanDigits text)

/-- A zero, or digits that start with another. -/
def readWhole : Literal → Option (List Char × Literal)
  | some '0' :: rest => some (['0'], rest)
  | text => readDigits text

def readSign : Literal → List Char × Literal
  | some '-' :: rest => (['-'], rest)
  | text => ([], text)

def readFraction : Literal → Option (List Char × Literal)
  | some '.' :: rest => (readDigits rest).map (fun p => ('.' :: p.1, p.2))
  | text => some ([], text)

def readExponent : Literal → Option (List Char × Literal)
  | some c :: rest =>
    if c = 'e' ∨ c = 'E' then
      match rest with
      | some '+' :: rest => (readDigits rest).map (fun p => (c :: '+' :: p.1, p.2))
      | some '-' :: rest => (readDigits rest).map (fun p => (c :: '-' :: p.1, p.2))
      | rest => (readDigits rest).map (fun p => (c :: p.1, p.2))
    else some ([], some c :: rest)
  | text => some ([], text)

/-- The longest number at the front of a text, as it is spelled. -/
def readNumber : Option (List Char × Literal) := do
  let (sign, text) := readSign text
  let (whole, text) ← readWhole text
  let (fraction, text) ← readFraction text
  let (exponent, text) ← readExponent text
  return (sign ++ whole ++ fraction ++ exponent, text)

inductive Token where
  | delim (c : Char)
  | string (s : List Char)
  | number (spelling : List Char)
  | bool (b : Bool)
  | null
  deriving DecidableEq, Repr

/-- A value that is no array and no object. -/
def readScalar : Literal → Option (Token × Literal)
  | some '"' :: rest => (readString rest).map (fun p => (.string p.1, p.2))
  | some 't' :: some 'r' :: some 'u' :: some 'e' :: rest => some (.bool true, rest)
  | some 'f' :: some 'a' :: some 'l' :: some 's' :: some 'e' :: rest => some (.bool false, rest)
  | some 'n' :: some 'u' :: some 'l' :: some 'l' :: rest => some (.null, rest)
  | text => (readNumber text).map (fun p => (.number p.1, p.2))

/-! ### The decoder -/

/-- `tokenState`. -/
inductive Expects where
  | topValue
  | arrayStart
  | arrayValue
  | arrayComma
  | objectStart
  | objectKey
  | objectColon
  | objectValue
  | objectComma
  deriving DecidableEq, Repr

/-- `tokenValueAllowed`. -/
def Expects.value : Expects → Bool
  | .topValue | .arrayStart | .arrayValue | .objectValue => true
  | _ => false

/-- `tokenValueEnd`. -/
def Expects.afterValue : Expects → Expects
  | .arrayStart | .arrayValue => .arrayComma
  | .objectValue => .objectComma
  | e => e

/-- What is unread, what is expected next, and what of the open brackets. -/
structure Decoder where
  rest : Literal
  expects : Expects
  stack : List Expects

def Decoder.new (raw : GoString) : Decoder := ⟨GoString.pieces raw, .topValue, []⟩

inductive DecodeError where
  | eof
  | malformed
  deriving DecidableEq, Repr

/-- A text without its leading blanks. -/
def skip : Literal := text.dropWhile (fun p => p.any Json.isBlank)

/-- `More`: whether the innermost bracket has another item. -/
def Decoder.more : Bool :=
  match skip d.rest with
  | [] => false
  | p :: _ => p ≠ some ']' && p ≠ some '}'

/-- A separator where one is expected. -/
def Decoder.passSeparator : Decoder :=
  match skip d.rest, d.expects with
  | some ':' :: rest, .objectColon => { d with rest := rest, expects := .objectValue }
  | some ',' :: rest, .arrayComma => { d with rest := rest, expects := .arrayValue }
  | some ',' :: rest, .objectComma => { d with rest := rest, expects := .objectKey }
  | _, _ => d

/-- A bracket that opens, with what is expected behind it. -/
def Decoder.push (c : Char) (inside : Expects) (rest : Literal) :
    Except DecodeError (Token × Decoder) :=
  if d.expects.value then .ok (.delim c, ⟨rest, inside, d.expects :: d.stack⟩)
  else .error .malformed

/-- A bracket that closes, where one of two things is expected. -/
def Decoder.pop (c : Char) (atStart atComma : Expects) (rest : Literal) :
    Except DecodeError (Token × Decoder) :=
  match d.stack with
  | outer :: stack =>
    if d.expects = atStart ∨ d.expects = atComma then
      .ok (.delim c, ⟨rest, outer.afterValue, stack⟩)
    else .error .malformed
  | [] => .error .malformed

/-- A name, or a value that is no bracket. -/
def Decoder.plain : Except DecodeError (Token × Decoder) :=
  if text.head? = some (some '"') ∧ (d.expects = .objectStart ∨ d.expects = .objectKey) then
    match readString text.tail with
    | some (key, rest) => .ok (.string key, { d with rest := rest, expects := .objectColon })
    | none => .error .malformed
  else if d.expects.value then
    match readScalar text with
    | some (token, rest) => .ok (token, { d with rest := rest, expects := d.expects.afterValue })
    | none => .error .malformed
  else .error .malformed

/-- The token in front of the decoder, behind any separator. A separator met
    here stands where none is expected. -/
def Decoder.tokenHere : Except DecodeError (Token × Decoder) :=
  match skip d.rest with
  | [] => .error .eof
  | some '[' :: rest => d.push '[' .arrayStart rest
  | some ']' :: rest => d.pop ']' .arrayStart .arrayComma rest
  | some '{' :: rest => d.push '{' .objectStart rest
  | some '}' :: rest => d.pop '}' .objectStart .objectComma rest
  | text => d.plain text

/-- `Token`. -/
def Decoder.token : Except DecodeError (Token × Decoder) :=
  d.passSeparator.tokenHere

/-! ### Reading back -/

theorem readString_plain (c : Char) (rest : Literal) (hq : c ≠ '"') (hb : c ≠ '\\')
    (hc : 0x20 ≤ c.toNat) :
    readString (some c :: rest) = (readString rest).map (fun p => (c :: p.1, p.2)) := by
  rw [readString]
  · exact if_neg (Nat.not_lt.mpr hc)
  · exact hq
  · exact fun _ _ _ _ _ _ h => hb h
  · exact fun _ _ _ h => hb h
  · exact hb

theorem readString_short (e c : Char) (rest : Literal) (hu : e ≠ 'u') (h : shortEscape e = some c) :
    readString (some '\\' :: some e :: rest) =
      (readString rest).map (fun p => (c :: p.1, p.2)) := by
  rw [readString]
  · rw [h]
  · exact fun _ _ _ _ _ _ h => hu h

/-- What `readUnits` takes for the inside of a string, the decoder does. -/
theorem readString_of_readUnits (text : List Char) (more : Literal) :
    ∀ {units : List (Bool × Char)} {rest : List Char}, readUnits text = some (units, rest) →
    readString (text.map some ++ more) = some (units.map Prod.snd, rest.map some ++ more) := by
  fun_induction readUnits text with
  | case2 rest =>
    intro units r hread
    cases hread
    rfl
  | case4 a b c d rest n hhex hn ih =>
    intro units r hread
    rcases map_eq_some_iff.mp hread with ⟨p, hp, hpair⟩
    cases hpair
    simp only [map_cons, cons_append]
    rw [readString]
    simp only [hhex, if_pos hn, ih hp, map_some]
  | case6 a b c d n hhex hn e f g h rest m hhex' hm ih =>
    intro units r hread
    rcases map_eq_some_iff.mp hread with ⟨p, hp, hpair⟩
    cases hpair
    simp only [map_cons, cons_append]
    rw [readString]
    simp only [hhex, if_neg hn, hhex', if_pos hm, ih hp, map_some]
  | case10 c rest hu d hshort ih =>
    intro units r hread
    have hne : c ≠ 'u' := by
      rintro rfl
      cases hshort
    rcases map_eq_some_iff.mp hread with ⟨p, hp, hpair⟩
    cases hpair
    simp only [map_cons, cons_append]
    rw [readString_short c d _ hne hshort, ih hp, map_some]
  | case12 c rest hq hu hb hlow ih =>
    intro units r hread
    rcases map_eq_some_iff.mp hread with ⟨p, hp, hpair⟩
    cases hpair
    by_cases hc : c = '\\'
    · -- a backslash with nothing behind it
      have hrest : rest = [] := by
        cases rest with
        | nil => rfl
        | cons d rest => exact (hb d rest hc rfl).elim
      subst hc hrest
      cases hp
    · simp only [map_cons, cons_append]
      rw [readString_plain c _ hq hc (Nat.le_of_not_lt hlow), ih hp, map_some]
  | _ =>
    intro _ _ hread
    cases hread

/-! Numbers. -/

/-- What may follow a number without becoming part of it. -/
def StopsNumber (rest : Literal) : Prop :=
  ∀ c, rest.head? = some (some c) → c.isDigit = false ∧ c ≠ '.' ∧ c ≠ 'e' ∧ c ≠ 'E'

theorem spanDigits_append {digits : List Char} (hdigits : ∀ c ∈ digits, c.isDigit = true)
    (hrest : StopsNumber rest) : spanDigits (digits.map some ++ rest) = (digits, rest) := by
  induction digits with
  | nil =>
    cases rest with
    | nil => rfl
    | cons p rest =>
      cases p with
      | none => rfl
      | some c =>
        rw [map_nil, nil_append, spanDigits, (hrest c rfl).1]
        rfl
  | cons c cs ih =>
    have hc := hdigits c mem_cons_self
    have hcs := ih (fun d hd => hdigits d (mem_cons_of_mem _ hd))
    rw [map_cons, cons_append, spanDigits, if_pos hc, hcs]

theorem readWhole_toDigits (n : Nat) (hrest : StopsNumber rest) :
    readWhole ((Nat.toDigits 10 n).map some ++ rest) = some (Nat.toDigits 10 n, rest) := by
  have hall : ∀ c ∈ Nat.toDigits 10 n, c.isDigit = true := fun c hc =>
    Nat.isDigit_of_mem_toDigits (by decide) (by decide) hc
  by_cases hn : n = 0
  · subst hn
    rw [Nat.toDigits_zero]
    rfl
  · have hhead := toDigits_head_ne_zero n (Nat.pos_of_ne_zero hn)
    have hspan := spanDigits_append hall hrest
    cases hd : Nat.toDigits 10 n with
    | nil => exact absurd hd Nat.toDigits_ne_nil
    | cons c cs =>
      rw [hd] at hhead hspan
      rw [map_cons, cons_append] at hspan ⊢
      rw [readWhole, readDigits, hspan, if_neg (cons_ne_nil _ _)]
      rintro _ ⟨⟩
      exact hhead rfl

theorem readNumber_printInt (n : Int) (hrest : StopsNumber rest) :
    readNumber ((printInt n).map some ++ rest) = some (printInt n, rest) := by
  have hfraction : readFraction rest = some ([], rest) := by
    unfold readFraction
    split
    · exact absurd rfl (hrest '.' rfl).2.1
    · rfl
  have hexponent : readExponent rest = some ([], rest) := by
    unfold readExponent
    split
    · rename_i c _
      rw [if_neg]
      rintro (rfl | rfl)
      · exact (hrest 'e' rfl).2.2.1 rfl
      · exact (hrest 'E' rfl).2.2.2 rfl
    · rfl
  have hwhole := readWhole_toDigits n.natAbs hrest
  have hafter : ∀ sign, readSign ((printInt n).map some ++ rest) =
        (sign, (Nat.toDigits 10 n.natAbs).map some ++ rest) →
      readNumber ((printInt n).map some ++ rest) = some (sign ++ Nat.toDigits 10 n.natAbs, rest) := by
    intro sign hsign
    simp [readNumber, hsign, hwhole, hfraction, hexponent]
  by_cases hneg : n < 0
  · have hprint : printInt n = '-' :: Nat.toDigits 10 n.natAbs := if_pos hneg
    rw [hafter ['-'] (by rw [hprint]; rfl), hprint]
    rfl
  · have hprint : printInt n = Nat.toDigits 10 n.natAbs := if_neg hneg
    rw [hafter [] ?_, hprint]
    · rfl
    · rw [hprint]
      cases hd : Nat.toDigits 10 n.natAbs with
      | nil => exact absurd hd Nat.toDigits_ne_nil
      | cons c cs =>
        have hdigit : c.isDigit = true := Nat.isDigit_of_mem_toDigits (b := 10) (n := n.natAbs)
          (by decide) (by decide) (hd ▸ mem_cons_self)
        rw [map_cons, cons_append, readSign]
        rintro _ ⟨⟩
        exact absurd hdigit (by decide)

/-! Tokens. -/

theorem skip_cons (c : Char) (rest : Literal) (h : Json.isBlank c = false) :
    skip (some c :: rest) = some c :: rest := by
  simp only [skip, dropWhile_cons, any_some, h, Bool.false_eq_true, if_false]

theorem passSeparator_of_value {d : Decoder} (h : d.expects.value = true) : d.passSeparator = d := by
  unfold Decoder.passSeparator
  split
  · rename_i hexpects
    rw [hexpects] at h
    cases h
  · rename_i hexpects
    rw [hexpects] at h
    cases h
  · rename_i hexpects
    rw [hexpects] at h
    cases h
  · rfl

/-- A comma stands between two items, -/
theorem token_comma_item (rest : Literal) (stack : List Expects) :
    Decoder.token ⟨some ',' :: rest, .arrayComma, stack⟩ = Decoder.token ⟨rest, .arrayValue, stack⟩ := by
  have hpass : Decoder.passSeparator ⟨some ',' :: rest, .arrayComma, stack⟩ =
      ⟨rest, .arrayValue, stack⟩ := by
    rw [Decoder.passSeparator, skip_cons _ _ (by decide)]
    rfl
  rw [Decoder.token, hpass, Decoder.token, passSeparator_of_value rfl]

/-- and between two fields, -/
theorem token_comma_field (rest : Literal) (stack : List Expects) :
    Decoder.token ⟨some ',' :: rest, .objectComma, stack⟩ =
      Decoder.tokenHere ⟨rest, .objectKey, stack⟩ := by
  have hpass : Decoder.passSeparator ⟨some ',' :: rest, .objectComma, stack⟩ =
      ⟨rest, .objectKey, stack⟩ := by
    rw [Decoder.passSeparator, skip_cons _ _ (by decide)]
    rfl
  rw [Decoder.token, hpass]

/-- and a colon between a name and its value. -/
theorem token_colon (rest : Literal) (stack : List Expects) :
    Decoder.token ⟨some ':' :: rest, .objectColon, stack⟩ =
      Decoder.token ⟨rest, .objectValue, stack⟩ := by
  have hpass : Decoder.passSeparator ⟨some ':' :: rest, .objectColon, stack⟩ =
      ⟨rest, .objectValue, stack⟩ := by
    rw [Decoder.passSeparator, skip_cons _ _ (by decide)]
    rfl
  rw [Decoder.token, hpass, Decoder.token, passSeparator_of_value rfl]

theorem token_open {c : Char} {start : Expects}
    (hc : c = '[' ∧ start = .arrayStart ∨ c = '{' ∧ start = .objectStart) (h : e.value = true) :
    Decoder.token ⟨some c :: rest, e, stack⟩ = .ok (.delim c, ⟨rest, start, e :: stack⟩) := by
  rcases hc with ⟨rfl, rfl⟩ | ⟨rfl, rfl⟩ <;>
  · rw [Decoder.token, passSeparator_of_value h, Decoder.tokenHere, skip_cons _ _ (by decide)]
    exact if_pos h

theorem token_close {c : Char} {e outer : Expects}
    (h : c = ']' ∧ (e = .arrayStart ∨ e = .arrayComma) ∨
      c = '}' ∧ (e = .objectStart ∨ e = .objectComma)) :
    Decoder.token ⟨some c :: rest, e, outer :: stack⟩ =
      .ok (.delim c, ⟨rest, outer.afterValue, stack⟩) := by
  have hpass : Decoder.passSeparator ⟨some c :: rest, e, outer :: stack⟩ =
      ⟨some c :: rest, e, outer :: stack⟩ := by
    rcases h with ⟨rfl, -⟩ | ⟨rfl, -⟩ <;>
    · rw [Decoder.passSeparator, skip_cons _ _ (by decide)]
      rfl
  rcases h with ⟨rfl, h⟩ | ⟨rfl, h⟩ <;>
  · rw [Decoder.token, hpass, Decoder.tokenHere, skip_cons _ _ (by decide)]
    exact if_pos h

/-- A name, where one is expected. -/
theorem tokenHere_key {text rest : Literal} {key : List Char}
    (h : e = .objectStart ∨ e = .objectKey) (hread : readString text = some (key, rest)) :
    Decoder.tokenHere ⟨some '"' :: text, e, stack⟩ =
      .ok (.string key, ⟨rest, .objectColon, stack⟩) := by
  have hplain : Decoder.tokenHere ⟨some '"' :: text, e, stack⟩ =
      Decoder.plain ⟨some '"' :: text, e, stack⟩ (some '"' :: text) := by
    rw [Decoder.tokenHere, skip_cons _ _ (by decide)]
    rfl
  rw [hplain, Decoder.plain, if_pos ⟨rfl, h⟩, tail_cons, hread]

/-- A value that is no bracket, where a value is expected. -/
theorem token_scalar {c : Char} {text rest : Literal} {token : Token} (h : e.value = true)
    (hblank : Json.isBlank c = false) (hbracket : c ∉ ['[', ']', '{', '}'])
    (hread : readScalar (some c :: text) = some (token, rest)) :
    Decoder.token ⟨some c :: text, e, stack⟩ = .ok (token, ⟨rest, e.afterValue, stack⟩) := by
  have hname : ¬ ((some c :: text).head? = some (some '"') ∧
      (e = .objectStart ∨ e = .objectKey)) := by
    rintro ⟨-, rfl | rfl⟩
    · cases h
    · cases h
  have hplain : Decoder.tokenHere ⟨some c :: text, e, stack⟩ =
      Decoder.plain ⟨some c :: text, e, stack⟩ (some c :: text) := by
    have hne : ∀ b ∈ ['[', ']', '{', '}'], c ≠ b := fun b hb heq => hbracket (heq ▸ hb)
    rw [Decoder.tokenHere, skip_cons _ _ hblank]
    split
    case h_6 => rfl
    all_goals
      rename_i heq
      simp only [List.cons.injEq, Option.some.injEq, reduceCtorEq] at heq
    · exact absurd heq.1 (hne '[' (by decide))
    · exact absurd heq.1 (hne ']' (by decide))
    · exact absurd heq.1 (hne '{' (by decide))
    · exact absurd heq.1 (hne '}' (by decide))
  rw [Decoder.token, passSeparator_of_value h, hplain, Decoder.plain, if_neg hname, if_pos h, hread]

end Regalia.GoJson
