import Regalia.Data.JsonText

/-!
# Hexadecimal Text

Bytes as pairs of digits. A reader takes digits of either case; a field that
has to be written in lowercase is one that its own bytes are written as.

## Main definitions

* `hexText`: Bytes as lowercase hexadecimal digits.
* `decodeHex`: The bytes of a hexadecimal text.
* `isLowerHex`: A lowercase hexadecimal digit.

## Theorems

* `hexText_injective`: The text determines the bytes.
* `hexText_decodeHex`: Lowercase text is what its bytes are written as.
* `decodeHex_hexText`: Bytes are read back from their text.
* `isSome_hexValue_of_decodeHex`: A text with bytes has digits only.
-/

namespace Regalia

open List

/-- Bytes as lowercase hexadecimal digits, two for each. -/
def hexText (bytes : List UInt8) : List Char :=
  bytes.flatMap (fun b => [Nat.digitChar (b.toNat / 16), Nat.digitChar (b.toNat % 16)])

/-- The bytes of a hexadecimal text, its digits in either case. -/
def decodeHex : List Char → Option (List UInt8)
  | [] => some []
  | [_] => none
  | a :: b :: rest =>
    match hexValue a, hexValue b, decodeHex rest with
    | some h, some l, some bytes => some (UInt8.ofNat (16 * h + l) :: bytes)
    | _, _, _ => none

/-- A lowercase hexadecimal digit. -/
def isLowerHex (c : Char) : Bool := ('0' ≤ c && c ≤ '9') || ('a' ≤ c && c ≤ 'f')

variable (bytes : List UInt8)

theorem length_hexText : (hexText bytes).length = 2 * bytes.length := by
  induction bytes with
  | nil => rfl
  | cons b rest ih =>
    rw [hexText, flatMap_cons, length_append]
    rw [hexText] at ih
    rw [ih, length_cons, length_cons, length_cons, length_nil]
    omega

theorem hexText_lower : ∀ c ∈ hexText bytes, isLowerHex c = true := by
  have hdigit : ∀ n < 16, isLowerHex (Nat.digitChar n) = true := by decide
  intro c hc
  obtain ⟨b, -, hb⟩ := mem_flatMap.mp hc
  have hlt := b.toNat_lt
  rcases mem_cons.mp hb with rfl | hb
  · exact hdigit _ (by omega)
  · rw [mem_singleton.mp hb]
    exact hdigit _ (by omega)

theorem digitChar_byte_injective (a b : UInt8)
    (h1 : Nat.digitChar (a.toNat / 16) = Nat.digitChar (b.toNat / 16))
    (h2 : Nat.digitChar (a.toNat % 16) = Nat.digitChar (b.toNat % 16)) : a = b := by
  have ha := a.toNat_lt
  have hb := b.toNat_lt
  have hval : ∀ m n, m < 16 → n < 16 → Nat.digitChar m = Nat.digitChar n → m = n := by
    intro m n hm hn h
    have := congrArg hexValue h
    rw [hexValue_digitChar m hm, hexValue_digitChar n hn] at this
    exact Option.some.inj this
  have hq := hval _ _ (by omega) (by omega) h1
  have hr := hval _ _ (by omega) (by omega) h2
  exact UInt8.toNat_inj.mp (by omega)

/-- The text determines the bytes. -/
theorem hexText_injective (a : List UInt8) : ∀ b, hexText a = hexText b → a = b := by
  induction a with
  | nil =>
    intro b h
    cases b with
    | nil => rfl
    | cons b bs => cases h
  | cons a as ih =>
    intro b h
    cases b with
    | nil => cases h
    | cons b bs =>
      simp only [hexText, flatMap_cons, cons_append, nil_append] at h
      injection h with h1 h
      injection h with h2 h
      rw [digitChar_byte_injective a b h1 h2, ih bs h]

theorem toNat_char_le (a b : Char) : a ≤ b ↔ a.toNat ≤ b.toNat := Iff.rfl

theorem isLowerHex_range {c : Char} (h : isLowerHex c = true) :
    (48 ≤ c.toNat ∧ c.toNat ≤ 57) ∨ (97 ≤ c.toNat ∧ c.toNat ≤ 102) := by
  simp only [isLowerHex, Bool.or_eq_true, Bool.and_eq_true, decide_eq_true_eq, toNat_char_le] at h
  exact h

/-- What holds of the lowercase digits among the ASCII characters. -/
@[elab_as_elim] theorem of_isLowerHex {motive : Char → Prop} (c : Char) (h : isLowerHex c = true)
    (hascii : ∀ n < 128, isLowerHex (Char.ofNat n) = true → motive (Char.ofNat n)) : motive c := by
  have hrange := isLowerHex_range h
  have := hascii c.toNat (by omega) (by rwa [Char.ofNat_toNat])
  rwa [Char.ofNat_toNat] at this

/-- The value of a lowercase digit, and the digit it came from. -/
theorem hexValue_lower (c : Char) (h : isLowerHex c = true) :
    ∃ n < 16, hexValue c = some n ∧ Nat.digitChar n = c :=
  of_isLowerHex c h (by decide)

theorem hexText_decodeHex (n : Nat) : ∀ cs : List Char, cs.length = 2 * n →
    (∀ c ∈ cs, isLowerHex c = true) → ∃ bytes, decodeHex cs = some bytes ∧ hexText bytes = cs := by
  induction n with
  | zero =>
    intro cs hlen _
    have hnil : cs = [] := eq_nil_of_length_eq_zero hlen
    subst hnil
    exact ⟨[], rfl, rfl⟩
  | succ n ih =>
    intro cs hlen hall
    match cs, hlen, hall with
    | a :: b :: rest, hlen, hall =>
      have hrest : rest.length = 2 * n := by
        simp only [length_cons] at hlen
        omega
      rcases hexValue_lower a (hall a mem_cons_self) with ⟨h, hlt, hh, hdh⟩
      rcases hexValue_lower b (hall b (mem_cons_of_mem _ mem_cons_self)) with
        ⟨l, llt, hl, hdl⟩
      rcases ih rest hrest
        (fun c hc => hall c (mem_cons_of_mem _ (mem_cons_of_mem _ hc))) with
        ⟨bytes, hbytes, htext⟩
      refine ⟨UInt8.ofNat (16 * h + l) :: bytes, ?_, ?_⟩
      · simp only [decodeHex, hh, hl, hbytes]
      · have hbyte : (UInt8.ofNat (16 * h + l)).toNat = 16 * h + l := by
          rw [UInt8.toNat_ofNat']
          exact Nat.mod_eq_of_lt (by omega)
        have hhigh : (16 * h + l) / 16 = h := by omega
        have hlow : (16 * h + l) % 16 = l := by omega
        simp only [hexText, flatMap_cons, cons_append, nil_append] at htext ⊢
        rw [hbyte, hhigh, hlow, hdh, hdl, htext]

theorem decodeHex_hexText : decodeHex (hexText bytes) = some bytes := by
  induction bytes with
  | nil => rfl
  | cons b rest ih =>
    have hlt := b.toNat_lt
    have hcons : hexText (b :: rest) =
        Nat.digitChar (b.toNat / 16) :: Nat.digitChar (b.toNat % 16) :: hexText rest := rfl
    have hbyte : UInt8.ofNat (16 * (b.toNat / 16) + b.toNat % 16) = b := by
      rw [Nat.div_add_mod, UInt8.ofNat_toNat]
    rw [hcons, decodeHex, hexValue_digitChar _ (by omega), hexValue_digitChar _ (by omega), ih]
    simp only [hbyte]

/-- A text with bytes has digits only. -/
theorem isSome_hexValue_of_decodeHex (n : Nat) : ∀ cs : List Char, cs.length ≤ n →
    (decodeHex cs).isSome = true → ∀ c ∈ cs, (hexValue c).isSome = true := by
  induction n with
  | zero =>
    intro cs hlen _ c hc
    rw [eq_nil_of_length_eq_zero (Nat.le_zero.mp hlen)] at hc
    cases hc
  | succ n ih =>
    intro cs hlen hsome c hc
    match cs, hlen, hsome, hc with
    | [_], _, hsome, _ => cases hsome
    | a :: b :: rest, hlen, hsome, hc =>
      simp only [decodeHex] at hsome
      split at hsome
      · rename_i h l bytes hh hl hbytes
        rcases mem_cons.mp hc with rfl | hc
        · rw [hh]
          rfl
        · rcases mem_cons.mp hc with rfl | hc
          · rw [hl]
            rfl
          · refine ih rest ?_ ?_ c hc
            · simp only [length_cons] at hlen
              omega
            · rw [hbytes]
              rfl
      · cases hsome

/-- A hexadecimal digit is ASCII. -/
theorem toNat_lt_of_hexValue (c : Char) (h : (hexValue c).isSome = true) : c.toNat < 128 := by
  unfold hexValue at h
  split at h
  · rename_i hc
    have := (toNat_char_le c '9').mp hc.2
    have h9 : '9'.toNat = 57 := rfl
    omega
  · split at h
    · rename_i hc
      have := (toNat_char_le c 'f').mp hc.2
      have hf : 'f'.toNat = 102 := rfl
      omega
    · split at h
      · rename_i hc
        have := (toNat_char_le c 'F').mp hc.2
        have hF : 'F'.toNat = 70 := rfl
        omega
      · cases h

/-- Among the ASCII characters, the hexadecimal digits that are their own
    lowercase are the lowercase ones. -/
theorem isLowerHex_iff (c : Char) :
    isLowerHex c = true ↔ (hexValue c).isSome = true ∧ c.toLower = c := by
  have hascii : ∀ n < 128, isLowerHex (Char.ofNat n) = true ↔
      (hexValue (Char.ofNat n)).isSome = true ∧ (Char.ofNat n).toLower = Char.ofNat n := by
    decide +kernel
  constructor
  · intro h
    exact of_isLowerHex c h (fun n hn => (hascii n hn).mp)
  · intro h
    have hlt := toNat_lt_of_hexValue c h.1
    have := (hascii c.toNat hlt).mpr (by rwa [Char.ofNat_toNat])
    rwa [Char.ofNat_toNat] at this

end Regalia
