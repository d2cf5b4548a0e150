import Mathlib.Data.List.Sort
import Mathlib.Data.String.Basic
import Regalia.Data.GoString
import Regalia.Data.Sha256

/-!
# Canonical Documents

The bytes a document is signed and hashed as: sorted keys, no blanks, ASCII.
Python writes them with `json.dumps(obj, sort_keys=True,
separators=(",", ":"), ensure_ascii=True)`, and the Go reader has its own
writer that has to give the same bytes.

A document is a JSON value without fractions whose objects hold each name
once. Neither language's map has an order the code depends on, so the model
keeps objects in the one order both writers use.

## Main definitions

* `Value`, `Document`: JSON values, and those with their objects in order.
* `Python.canonical`, `Go.canonical`: The two writers.
* `Python.digest`, `Go.digest`: The SHA-256 of a document, in hex.
-/

namespace Regalia.Membership

open List

/-- A JSON value, as both verifiers hold one. -/
abbrev Value := Json String

/-- A JSON value whose objects hold each name once, in order. -/
abbrev Document := { v : Value // v.Ordered }

mutual

/-- A value with the fields of every object sorted by `less` on their names. -/
def sortKeys (less : String → String → Bool) : Value → Value
  | .arr items => .arr (sortKeysItems less items)
  | .obj fields =>
    .obj ((sortKeysFields less fields).insertionSort (fun a b => !less b.1 a.1))
  | .null => .null
  | .bool b => .bool b
  | .num n => .num n
  | .str s => .str s

/-- `sortKeys` of every item. -/
def sortKeysItems (less : String → String → Bool) : List Value → List Value
  | [] => []
  | v :: vs => sortKeys less v :: sortKeysItems less vs

/-- `sortKeys` of every field's value. -/
def sortKeysFields (less : String → String → Bool) : List (String × Value) → List (String × Value)
  | [] => []
  | (k, v) :: fs => (k, sortKeys less v) :: sortKeysFields less fs

end

/-- A pair of `\u` escapes for a character above U+FFFF, which `utf16` and
    Python's encoder compute alike. -/
def surrogateEscapes (n : Nat) : List Char :=
  '\\' :: 'u' :: hex4 (0xD800 + (n - 0x10000) / 1024) ++
    ('\\' :: 'u' :: hex4 (0xDC00 + (n - 0x10000) % 1024))

/-- The short escapes, the same in both writers. -/
def shortQuote : Char → Option (List Char)
  | '"' => some ['\\', '"']
  | '\\' => some ['\\', '\\']
  | '\n' => some ['\\', 'n']
  | '\r' => some ['\\', 'r']
  | '\t' => some ['\\', 't']
  | c =>
    if c = Char.ofNat 8 then some ['\\', 'b']
    else if c = Char.ofNat 12 then some ['\\', 'f']
    else none

namespace Python

/-- `json.encoder.py_encode_basestring_ascii` on one character: everything
    outside the space to the tilde is escaped. -/
def escape (c : Char) : List Char :=
  match shortQuote c with
  | some text => text
  | none =>
    if ' ' ≤ c ∧ c ≤ '~' then [c]
    else if c.toNat < 0x10000 then '\\' :: 'u' :: hex4 c.toNat
    else surrogateEscapes c.toNat

end Python

namespace Go

/-- `quote` on one rune. -/
def escape (c : Char) : List Char :=
  match shortQuote c with
  | some text => text
  | none =>
    if c.toNat < 0x20 ∨ (0x7f ≤ c.toNat ∧ c.toNat < 0x10000) then '\\' :: 'u' :: hex4 c.toNat
    else if 0x10000 ≤ c.toNat then surrogateEscapes c.toNat
    else [c]

/-- `lessCodePoints`. -/
def lessCodePoints : List Char → List Char → Bool
  | a :: as, b :: bs => if a ≠ b then a < b else lessCodePoints as bs
  | [], bs => bs ≠ []
  | _ :: _, [] => false

end Go

/-! ### The escapes read back -/

variable (c : Char)

theorem readUnits_surrogateEscapes (rest : List Char) (h : 0x10000 ≤ c.toNat) :
    readUnits (surrogateEscapes c.toNat ++ rest) = (readUnits rest).map (consUnit (true, c)) := by
  have hlt : c.toNat < 0x110000 := by
    have := c.valid
    simp only [UInt32.isValidChar, Nat.isValidChar] at this
    have hval : c.toNat = c.val.toNat := rfl
    omega
  have := readUnits_surrogates c.toNat rest h hlt
  rw [Char.ofNat_toNat] at this
  rw [surrogateEscapes, append_assoc]
  exact this

theorem readUnits_shortQuote (text rest : List Char) (h : shortQuote c = some text) :
    readUnits (text ++ rest) = (readUnits rest).map (consUnit (false, c)) := by
  have hshort : ∀ e, text = ['\\', e] → e ≠ 'u' → shortEscape e = some c →
      readUnits (text ++ rest) = (readUnits rest).map (consUnit (false, c)) := by
    intro e htext he hs
    rw [htext]
    exact readUnits_short e c rest he hs
  unfold shortQuote at h
  split at h
  · exact hshort '"' (Option.some.inj h).symm (by decide) rfl
  · exact hshort '\\' (Option.some.inj h).symm (by decide) rfl
  · exact hshort 'n' (Option.some.inj h).symm (by decide) rfl
  · exact hshort 'r' (Option.some.inj h).symm (by decide) rfl
  · exact hshort 't' (Option.some.inj h).symm (by decide) rfl
  · split at h
    · rename_i hc
      exact hshort 'b' (Option.some.inj h).symm (by decide) (by rw [hc]; rfl)
    · split at h
      · rename_i hc
        exact hshort 'f' (Option.some.inj h).symm (by decide) (by rw [hc]; rfl)
      · cases h

theorem shortQuote_none (h : shortQuote c = none) : c ≠ '"' ∧ c ≠ '\\' := by
  constructor
  · rintro rfl
    cases h
  · rintro rfl
    cases h

theorem readUnits_escape (rest : List Char) :
    ∃ b, readUnits (Python.escape c ++ rest) = (readUnits rest).map (consUnit (b, c)) := by
  unfold Python.escape
  cases hshort : shortQuote c with
  | some text => exact ⟨false, readUnits_shortQuote c text rest hshort⟩
  | none =>
    rcases shortQuote_none c hshort with ⟨hquote, hback⟩
    by_cases hplain : ' ' ≤ c ∧ c ≤ '~'
    · simp only [if_pos hplain]
      exact ⟨false, readUnits_plain c rest hquote hback hplain.1⟩
    · simp only [if_neg hplain]
      by_cases hbmp : c.toNat < 0x10000
      · simp only [if_pos hbmp]
        have hsurrogate : c.toNat < 0xD800 ∨ 0xE000 ≤ c.toNat := by
          have := c.valid
          simp only [UInt32.isValidChar, Nat.isValidChar] at this
          have hval : c.toNat = c.val.toNat := rfl
          omega
        have := readUnits_hex4 c.toNat rest hsurrogate hbmp
        rw [Char.ofNat_toNat] at this
        exact ⟨true, this⟩
      · simp only [if_neg hbmp]
        exact ⟨true, readUnits_surrogateEscapes c rest (Nat.le_of_not_lt hbmp)⟩

theorem readUnits_escapes (cs : List Char) (rest : List Char) :
    (readUnits (cs.flatMap Python.escape ++ '"' :: rest)).map (fun p => (p.1.map Prod.snd, p.2)) =
      some (cs, rest) := by
  induction cs with
  | nil => rfl
  | cons c cs ih =>
    rcases readUnits_escape c (cs.flatMap Python.escape ++ '"' :: rest) with ⟨b, hread⟩
    rw [flatMap_cons, append_assoc, hread]
    cases hrest : readUnits (cs.flatMap Python.escape ++ '"' :: rest) with
    | none =>
      rw [hrest] at ih
      cases ih
    | some p =>
      rw [hrest, Option.map_some] at ih
      injection ih with ih
      injection ih with ih1 ih2
      simp only [Option.map_some, consUnit, List.map_cons, ih1, ih2]

/-- Strings as `json.dumps` writes them in ASCII, and as a JSON reader reads
    them back. -/
def asciiQuoting : Quoting String where
  body s := s.toList.flatMap Python.escape ++ ['"']
  read text := (readUnits text).map (fun p => (String.ofList (p.1.map Prod.snd), p.2))
  read_body s rest := by
    have h := readUnits_escapes s.toList rest
    rw [append_assoc, singleton_append]
    cases hread : readUnits (s.toList.flatMap Python.escape ++ '"' :: rest) with
    | none =>
      rw [hread] at h
      cases h
    | some p =>
      rw [hread, Option.map_some] at h
      injection h with h
      injection h with h1 h2
      simp only [Option.map_some, h1, h2, String.ofList_toList]

theorem python_escape_eq_go : Go.escape c = Python.escape c := by
  unfold Go.escape Python.escape
  cases shortQuote c with
  | some text => rfl
  | none =>
    have hplain : (' ' ≤ c ∧ c ≤ '~') ↔ (0x20 ≤ c.toNat ∧ c.toNat < 0x7f) := by
      rw [toNat_char_le, toNat_char_le]
      exact and_congr Iff.rfl Nat.lt_succ_iff.symm
    by_cases h1 : ' ' ≤ c ∧ c ≤ '~'
    · have hr := hplain.mp h1
      simp only [if_pos h1]
      rw [if_neg (by omega), if_neg (by omega)]
    · have hr : ¬ (0x20 ≤ c.toNat ∧ c.toNat < 0x7f) := fun hc => h1 (hplain.mpr hc)
      simp only [if_neg h1]
      by_cases h2 : c.toNat < 0x10000
      · rw [if_pos (by omega), if_pos h2]
      · rw [if_neg (by omega), if_pos (by omega), if_neg h2]

namespace Python

/-- `membership.canonical`, as text. -/
def canonicalText (v : Value) : List Char :=
  Json.print asciiQuoting (sortKeys (fun a b => a < b) v)

def canonical (v : Value) : List UInt8 := GoString.ofRunes (canonicalText v)

/-- `membership.digest`. -/
def digest (v : Value) : String := String.ofList (hexText (Sha256.sum (canonical v)))

end Python

namespace Go

/-- The quoting of the Go writer. -/
def quoting : Quoting String where
  body s := s.toList.flatMap escape ++ ['"']
  read := asciiQuoting.read
  read_body s rest := by
    have hbody : s.toList.flatMap escape = s.toList.flatMap Python.escape :=
      flatMap_congr (fun c _ => python_escape_eq_go c)
    rw [hbody]
    exact asciiQuoting.read_body s rest

def canonicalText (v : Value) : List Char :=
  Json.print quoting (sortKeys (fun a b => lessCodePoints a.toList b.toList) v)

/-- `Canonical`. -/
def canonical (v : Value) : List UInt8 := GoString.ofRunes (canonicalText v)

/-- `Digest`. -/
def digest (v : Value) : String := String.ofList (hexText (Sha256.sum (canonical v)))

end Go

end Regalia.Membership
