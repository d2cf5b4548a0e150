import Regalia.Data.JsonText

/-!
# Go Strings

A Go string is a sequence of bytes with no promise about what the bytes
spell. The Go half of the repository builds map keys out of such strings and
writes the same strings into JSON, and the two treat bytes differently: a map
key keeps them as they are, while `encoding/json` writes every byte that
starts no UTF-8 encoding as an escaped replacement character, and reads that
back as the character itself. So a string with such a byte does not come back
as it was, and its second writing differs from its first: a real replacement
character is written plain.

`pieces` is the view the encoder takes, a character or a byte that is none,
and `goQuoting` writes it with the escapes of `encoding/json`.

## Main definitions

* `GoString`: A Go string, as its bytes.
* `GoString.ofText`: The bytes of a text.
* `GoString.bytewise`: A string as one character for each byte.
* `GoString.pieces`: The string as a JSON encoder walks it.
* `GoString.readText`: What a JSON decoder makes of the pieces.
* `GoString.asJson`: A string written to JSON and read back.
* `goQuoting`: Strings as `encoding/json` writes and reads them.

## Theorems

* `GoString.eq_of_pieces_eq`: A string written like one that was read is that
  string.
-/

namespace Regalia

open List

/-- A Go string: bytes of any value. -/
abbrev GoString := List UInt8

instance lawfulBEqBytes : LawfulBEq (List UInt8) := inferInstance

/-- A string as an encoder walks it: characters, and bytes that are none. -/
abbrev Literal := List (Option Char)

namespace GoString

/-- The UTF-8 bytes of a list of runes. -/
def ofRunes (cs : List Char) : GoString := cs.flatMap String.utf8EncodeChar

/-- The bytes of a text, as a Go string literal holds them. -/
def ofText (s : String) : GoString := ofRunes s.toList

/-- A string as one character for each byte, which is what a pattern over
    ASCII classes sees of it. -/
def bytewise (s : GoString) : List Char := s.map (fun b => Char.ofNat b.toNat)

/-- The replacement character, `utf8.RuneError`. -/
def runeError : Char := Char.ofNat 0xFFFD

/-- The pieces of a string, `fuel` of them at most. -/
def piecesFor : Nat → GoString → Literal
  | 0, _ => []
  | _ + 1, [] => []
  | fuel + 1, b :: rest =>
    -- an encoding is four bytes at most
    match ((b :: rest).take 4).toByteArray.utf8DecodeChar? 0 with
    | some c => some c :: piecesFor fuel ((b :: rest).drop c.utf8Size)
    | none => none :: piecesFor fuel rest

/-- The string as an encoder walks it. -/
def pieces (s : GoString) : Literal := piecesFor s.length s

/-- What a decoder makes of the pieces: every byte that was no character is
    one replacement character. -/
def readText (l : Literal) : GoString := ofRunes (l.map (fun c => c.getD runeError))

variable (cs : List Char) (s : GoString)

theorem ofRunes_of_ascii (h : ∀ c ∈ cs, c.toNat < 128) :
    ofRunes cs = cs.map (fun c => c.val.toUInt8) := by
  induction cs with
  | nil => rfl
  | cons c rest ih =>
    have hsize : c.utf8Size = 1 := by
      rw [Char.utf8Size_eq_one_iff]
      exact UInt32.le_iff_toNat_le.mpr (Nat.lt_succ_iff.mp (h c mem_cons_self))
    have hrest := ih (fun d hd => h d (mem_cons_of_mem _ hd))
    unfold ofRunes at hrest ⊢
    rw [flatMap_cons, String.utf8EncodeChar_eq_singleton hsize, hrest]
    rfl

theorem length_ofRunes_of_ascii (h : ∀ c ∈ cs, c.toNat < 128) :
    (ofRunes cs).length = cs.length := by
  rw [ofRunes_of_ascii cs h, length_map]

theorem exists_of_mem_ofRunes (h : ∀ c ∈ cs, c.toNat < 128) {b : UInt8} (hb : b ∈ ofRunes cs) :
    ∃ c ∈ cs, b.toNat = c.toNat := by
  rw [ofRunes_of_ascii cs h] at hb
  obtain ⟨c, hc, rfl⟩ := mem_map.mp hb
  exact ⟨c, hc, Nat.mod_eq_of_lt (Nat.lt_trans (h c hc) (by decide))⟩

theorem digits_bytes (n : Nat) :
    ∀ b ∈ ofRunes (Nat.toDigits 10 n), 48 ≤ b.toNat ∧ b.toNat ≤ 57 := by
  have hdigits : ∀ c ∈ Nat.toDigits 10 n, 48 ≤ c.toNat ∧ c.toNat ≤ 57 := by
    intro c hc
    have hdigit : c.isDigit = true := Nat.isDigit_of_mem_toDigits (by decide) (by decide) hc
    simp only [Char.isDigit, Bool.and_eq_true, decide_eq_true_eq] at hdigit
    exact ⟨UInt32.le_iff_toNat_le.mp hdigit.1, UInt32.le_iff_toNat_le.mp hdigit.2⟩
  intro b hb
  have hascii : ∀ c ∈ Nat.toDigits 10 n, c.toNat < 128 :=
    fun c hc => Nat.lt_of_le_of_lt (hdigits c hc).2 (by decide)
  obtain ⟨c, hc, hbc⟩ := exists_of_mem_ofRunes _ hascii hb
  rw [hbc]
  exact hdigits c hc

/-- No character is encoded as nothing. -/
theorem length_le_ofRunes : cs.length ≤ (ofRunes cs).length := by
  induction cs with
  | nil => exact Nat.le_refl _
  | cons c rest ih =>
    have hc : 0 < (String.utf8EncodeChar c).length := by
      rw [String.length_utf8EncodeChar]
      exact Char.utf8Size_pos c
    unfold ofRunes at ih ⊢
    rw [flatMap_cons, length_append, length_cons]
    omega

/-- The first character's encoding is the first bytes of the string. -/
theorem utf8EncodeChar_of_decode (c : Char)
    (h : (s.take 4).toByteArray.utf8DecodeChar? 0 = some c) :
    String.utf8EncodeChar c = s.take c.utf8Size := by
  have henc := String.toByteArray_utf8EncodeChar_of_utf8DecodeChar?_eq_some h
  have hdata := congrArg (fun b => b.data.toList) henc
  simp only [data_toByteArray, ByteArray.data_extract, Array.toList_extract,
    extract_eq_take_drop, drop_zero, Nat.sub_zero, take_take,
    Nat.min_eq_left (Char.utf8Size_le_four c)] at hdata
  exact hdata

/-- A string walked without meeting a stray byte is the encoding of what was
    met. -/
theorem eq_ofRunes_of_piecesFor (fuel : Nat) : ∀ (s : GoString) (cs : List Char),
    s.length ≤ fuel → piecesFor fuel s = cs.map some → s = ofRunes cs := by
  induction fuel with
  | zero =>
    intro s cs hlen h
    have hs : s = [] := eq_nil_of_length_eq_zero (Nat.le_zero.mp hlen)
    have hcs : cs = [] := map_eq_nil_iff.mp h.symm
    rw [hs, hcs]
    rfl
  | succ fuel ih =>
    intro s cs hlen h
    cases s with
    | nil =>
      have hcs : cs = [] := map_eq_nil_iff.mp h.symm
      rw [hcs]
      rfl
    | cons b rest =>
      cases hdec : ((b :: rest).take 4).toByteArray.utf8DecodeChar? 0 with
      | none =>
        -- a stray byte is no character of `cs`
        simp only [piecesFor, hdec] at h
        cases cs with
        | nil => cases h
        | cons c cs => cases h
      | some c =>
        simp only [piecesFor, hdec] at h
        cases cs with
        | nil => cases h
        | cons c' cs =>
          injection h with hc hrest
          injection hc with hc
          subst hc
          have hsize : 0 < c.utf8Size := Char.utf8Size_pos c
          have hlen' : ((b :: rest).drop c.utf8Size).length ≤ fuel := by
            rw [length_drop]
            simp only [length_cons] at hlen ⊢
            omega
          have htail := ih _ cs hlen' hrest
          have hhead := utf8EncodeChar_of_decode (b :: rest) c hdec
          calc b :: rest
              = (b :: rest).take c.utf8Size ++ (b :: rest).drop c.utf8Size :=
                (take_append_drop _ _).symm
            _ = String.utf8EncodeChar c ++ ofRunes cs := by rw [← hhead, ← htail]
            _ = ofRunes (c :: cs) := by simp only [ofRunes, flatMap_cons]

/-- The encoding of a text is walked character by character, whatever bytes
    follow it. -/
theorem piecesFor_append : ∀ fuel,
    (ofRunes cs ++ s).length ≤ fuel →
    ∃ fuel', s.length ≤ fuel' ∧ piecesFor fuel (ofRunes cs ++ s) = cs.map some ++ piecesFor fuel' s := by
  induction cs with
  | nil => exact fun fuel hfuel => ⟨fuel, hfuel, rfl⟩
  | cons c cs ih =>
    intro fuel hfuel
    have hcons : ofRunes (c :: cs) ++ s = String.utf8EncodeChar c ++ (ofRunes cs ++ s) := by
      simp only [ofRunes, flatMap_cons, append_assoc]
    have hdec : ((ofRunes (c :: cs) ++ s).take 4).toByteArray.utf8DecodeChar? 0 = some c := by
      have hle : (String.utf8EncodeChar c).length ≤ 4 := by
        rw [String.length_utf8EncodeChar]
        exact Char.utf8Size_le_four c
      rw [hcons, take_append, take_of_length_le hle, toByteArray_append]
      exact ByteArray.utf8DecodeChar?_utf8EncodeChar_append
    have hdrop : (ofRunes (c :: cs) ++ s).drop c.utf8Size = ofRunes cs ++ s := by
      rw [hcons, ← String.length_utf8EncodeChar, drop_left]
    have hsize : 0 < c.utf8Size := Char.utf8Size_pos c
    have hlen : (ofRunes (c :: cs) ++ s).length = c.utf8Size + (ofRunes cs ++ s).length := by
      rw [hcons, length_append, String.length_utf8EncodeChar]
    cases fuel with
    | zero => omega
    | succ n =>
      rcases ih n (by omega) with ⟨fuel', hfuel', hpieces⟩
      refine ⟨fuel', hfuel', ?_⟩
      cases hbytes : ofRunes (c :: cs) ++ s with
      | nil =>
        rw [hbytes, length_nil] at hlen
        omega
      | cons b rest =>
        rw [hbytes] at hdec hdrop
        simp only [piecesFor, hdec, hdrop, map_cons, hpieces, cons_append]

theorem piecesFor_nil (fuel : Nat) : piecesFor fuel [] = [] := by
  cases fuel <;> rfl

theorem pieces_ofRunes : pieces (ofRunes cs) = cs.map some := by
  rcases piecesFor_append cs [] (ofRunes cs).length (by simp) with
    ⟨fuel', _, h⟩
  rw [append_nil, piecesFor_nil, append_nil] at h
  exact h

/-- The bytes determine the runes they encode. -/
theorem ofRunes_injective (cs ds : List Char) (h : ofRunes cs = ofRunes ds) : cs = ds := by
  have hp := congrArg pieces h
  rw [pieces_ofRunes, pieces_ofRunes] at hp
  exact map_injective_iff.mpr (fun _ _ h => Option.some.inj h) hp

/-- A string written like one that was read is that string: what was read has
    no stray byte, so neither has the other. -/
theorem eq_of_pieces_eq (l : Literal) (h : pieces s = pieces (readText l)) : s = readText l := by
  rw [readText, pieces_ofRunes] at h
  exact eq_ofRunes_of_piecesFor s.length s _ (Nat.le_refl _) h

/-- A string written to JSON and read back. -/
def asJson (s : GoString) : GoString := readText (pieces s)

/-- What was read back once comes back as it is. -/
theorem asJson_asJson : asJson (asJson s) = asJson s := by
  unfold asJson readText
  rw [pieces_ofRunes, map_map]
  exact congrArg ofRunes (map_id _)

/-- A stray byte is lost: two strings that differ in one are written alike. -/
example : pieces [0xFF] = pieces [0xFE] ∧ readText (pieces [0xFF]) = [0xEF, 0xBF, 0xBD] := by
  decide +kernel

end GoString

/-- The escapes of `encoding/json`: the quote and the backslash, the control
    characters, the three characters of HTML, the two line separators, and the
    replacement character for a stray byte. -/
def goEscape : Option Char → List Char
  | none => '\\' :: 'u' :: hex4 0xFFFD
  | some c =>
    if c = '"' then ['\\', '"']
    else if c = '\\' then ['\\', '\\']
    else if c = Char.ofNat 8 then ['\\', 'b']
    else if c = Char.ofNat 12 then ['\\', 'f']
    else if c = '\n' then ['\\', 'n']
    else if c = '\r' then ['\\', 'r']
    else if c = '\t' then ['\\', 't']
    else if c.toNat < 0x20 ∨ c = '<' ∨ c = '>' ∨ c = '&' ∨ c.toNat = 0x2028 ∨ c.toNat = 0x2029 then
      '\\' :: 'u' :: hex4 c.toNat
    else [c]

/-- A piece off a literal: the escaped replacement character is a stray byte. -/
def goUnit (u : Bool × Char) : Option Char :=
  if u = (true, GoString.runeError) then none else some u.2

theorem readUnits_goEscape (p : Option Char) (rest : List Char) :
    ∃ u, goUnit u = p ∧ readUnits (goEscape p ++ rest) = (readUnits rest).map (consUnit u) := by
  cases p with
  | none => exact ⟨(true, GoString.runeError), rfl, readUnits_hex4 0xFFFD rest (by decide) (by decide)⟩
  | some c =>
    have hshort : ∀ e, e ≠ 'u' → shortEscape e = some c → ∃ u, goUnit u = some c ∧
          readUnits (['\\', e] ++ rest) = (readUnits rest).map (consUnit u) := fun e he hs =>
      ⟨(false, c), rfl, readUnits_short e c rest he hs⟩
    unfold goEscape
    by_cases h1 : c = '"'
    · subst h1
      exact hshort '"' (by decide) rfl
    by_cases h2 : c = '\\'
    · subst h2
      exact hshort '\\' (by decide) rfl
    by_cases h3 : c = Char.ofNat 8
    · subst h3
      exact hshort 'b' (by decide) rfl
    by_cases h4 : c = Char.ofNat 12
    · subst h4
      exact hshort 'f' (by decide) rfl
    by_cases h5 : c = '\n'
    · subst h5
      exact hshort 'n' (by decide) rfl
    by_cases h6 : c = '\r'
    · subst h6
      exact hshort 'r' (by decide) rfl
    by_cases h7 : c = '\t'
    · subst h7
      exact hshort 't' (by decide) rfl
    simp only [if_neg h1, if_neg h2, if_neg h3, if_neg h4, if_neg h5, if_neg h6, if_neg h7]
    by_cases h8 : c.toNat < 0x20 ∨ c = '<' ∨ c = '>' ∨ c = '&' ∨ c.toNat = 0x2028 ∨
        c.toNat = 0x2029
    · have hsmall : c.toNat < 0x2030 := by
        rcases h8 with h | rfl | rfl | rfl | h | h
        · omega
        · decide
        · decide
        · decide
        · omega
        · omega
      have hne : c ≠ GoString.runeError := by
        rintro rfl
        exact absurd hsmall (by decide)
      refine ⟨(true, c), ?_, ?_⟩
      · rw [goUnit, if_neg (fun h => hne (congrArg Prod.snd h))]
      · have := readUnits_hex4 c.toNat rest (by omega) (by omega)
        rw [Char.ofNat_toNat] at this
        rw [if_pos h8]
        exact this
    · rw [if_neg h8]
      have hlow : 0x20 ≤ c.toNat := Nat.le_of_not_lt (fun h => h8 (Or.inl h))
      exact ⟨(false, c), rfl, readUnits_plain c rest h1 h2 hlow⟩

theorem readUnits_goEscapes (l : Literal) (rest : List Char) :
    (readUnits (l.flatMap goEscape ++ '"' :: rest)).map (fun p => (p.1.map goUnit, p.2)) =
      some (l, rest) := by
  induction l with
  | nil => rfl
  | cons p l ih =>
    rcases readUnits_goEscape p (l.flatMap goEscape ++ '"' :: rest) with ⟨u, hu, hread⟩
    rw [flatMap_cons, append_assoc, hread]
    cases hrest : readUnits (l.flatMap goEscape ++ '"' :: rest) with
    | none =>
      rw [hrest] at ih
      cases ih
    | some p' =>
      rw [hrest, Option.map_some] at ih
      injection ih with ih
      injection ih with ih1 ih2
      simp only [Option.map_some, consUnit, List.map_cons, hu, ih1, ih2]

/-- Strings as `encoding/json` writes them, and as it reads them back. -/
def goQuoting : Quoting Literal where
  body l := l.flatMap goEscape ++ ['"']
  read text := (readUnits text).map (fun p => (p.1.map goUnit, p.2))
  read_body l rest := by
    rw [append_assoc, singleton_append]
    exact readUnits_goEscapes l rest

theorem hex4_plain (n : Nat) : ∀ c ∈ hex4 n, 0x20 ≤ c.toNat := by
  have hdigit : ∀ d < 16, 0x20 ≤ (Nat.digitChar d).toNat := by decide
  intro c hc
  simp only [hex4, mem_cons, not_mem_nil, or_false] at hc
  rcases hc with rfl | rfl | rfl | rfl
  · exact hdigit _ (Nat.mod_lt _ (by decide))
  · exact hdigit _ (Nat.mod_lt _ (by decide))
  · exact hdigit _ (Nat.mod_lt _ (by decide))
  · exact hdigit _ (Nat.mod_lt _ (by decide))

theorem goEscape_plain (p : Option Char) : ∀ c ∈ goEscape p, 0x20 ≤ c.toNat := by
  have hunicode : ∀ n, ∀ c ∈ '\\' :: 'u' :: hex4 n, 0x20 ≤ c.toNat := by
    intro n c hc
    rcases mem_cons.mp hc with rfl | hc
    · decide
    rcases mem_cons.mp hc with rfl | hc
    · decide
    · exact hex4_plain n c hc
  have hpair : ∀ d : Char, 0x20 ≤ d.toNat → ∀ c ∈ ['\\', d], 0x20 ≤ c.toNat := by
    intro d hd c hc
    rcases mem_cons.mp hc with rfl | hc
    · decide
    · rw [mem_singleton.mp hc]
      exact hd
  cases p with
  | none => exact hunicode _
  | some d =>
    unfold goEscape
    simp only
    split
    · exact hpair _ (by decide)
    split
    · exact hpair _ (by decide)
    split
    · exact hpair _ (by decide)
    split
    · exact hpair _ (by decide)
    split
    · exact hpair _ (by decide)
    split
    · exact hpair _ (by decide)
    split
    · exact hpair _ (by decide)
    split
    · exact hunicode _
    · rename_i h
      intro c hc
      rw [mem_singleton.mp hc]
      exact Nat.le_of_not_lt (fun hlt => h (.inl hlt))

/-- What `encoding/json` writes for a value is one line. -/
theorem goPrint_plain (v : Json Literal) : ∀ c ∈ Json.print goQuoting v, 0x20 ≤ c.toNat := by
  refine Json.print_plain goQuoting (fun l c hc => ?_) v
  rcases mem_append.mp hc with hc | hc
  · obtain ⟨p, -, hp⟩ := mem_flatMap.mp hc
    exact goEscape_plain p c hp
  · rw [mem_singleton.mp hc]
    decide

end Regalia
