import Regalia.Data.Sha256

/-!
# Length-Prefixed Fields

Several byte strings as one, each with its length in a fixed number of bytes in
front. The whole determines the fields, however many there are, as long as
every length fits its prefix.

## Main definitions

* `frames`: Fields one after another, each behind its length.

## Theorems

* `bigEndian_injective`: The bytes of a number that fits determine it.
* `frames_injective`: The bytes determine the fields.
-/

namespace Regalia

open List
open Sha256 (bigEndian)

/-- Fields one after another, each behind its length in `width` bytes. -/
def frames (width : Nat) (fields : List (List UInt8)) : List UInt8 :=
  fields.flatMap (fun f => bigEndian width f.length ++ f)

theorem length_bigEndian (width n : Nat) : (bigEndian width n).length = width := by
  induction width with
  | zero => rfl
  | succ width ih => rw [bigEndian, length_cons, ih]

theorem bigEndian_injective {width a b : Nat} (ha : a < 256 ^ width) (hb : b < 256 ^ width)
    (h : bigEndian width a = bigEndian width b) : a = b := by
  have hmod : ∀ w, bigEndian w a = bigEndian w b → a % 256 ^ w = b % 256 ^ w := by
    intro w
    induction w with
    | zero => intro _; rw [Nat.pow_zero, Nat.mod_one, Nat.mod_one]
    | succ w ih =>
      intro hw
      rw [bigEndian, bigEndian] at hw
      injection hw with hhead htail
      have hdigit : a / 256 ^ w % 256 = b / 256 ^ w % 256 := by
        have := congrArg UInt8.toNat hhead
        simpa only [UInt8.toNat_ofNat', Nat.reducePow, Nat.mod_mod] using this
      -- a number below 256 ^ (w + 1) is its top digit and the rest
      rw [Nat.pow_succ, Nat.mod_mul, Nat.mod_mul, ih htail, hdigit]
  have := hmod width h
  rwa [Nat.mod_eq_of_lt ha, Nat.mod_eq_of_lt hb] at this

theorem frames_injective {width : Nat} (hwidth : 0 < width) {l m : List (List UInt8)}
    (hl : ∀ f ∈ l, f.length < 256 ^ width) (hm : ∀ f ∈ m, f.length < 256 ^ width)
    (h : frames width l = frames width m) : l = m := by
  have hlong : ∀ (f : List UInt8) (rest : List (List UInt8)), frames width (f :: rest) ≠ [] := by
    intro f rest hnil
    have hlength := congrArg List.length hnil
    simp only [frames, flatMap_cons, length_append, length_bigEndian, length_nil] at hlength
    omega
  induction l generalizing m with
  | nil =>
    cases m with
    | nil => rfl
    | cons g rest => exact absurd h.symm (hlong g rest)
  | cons f l ih =>
    cases m with
    | nil => exact absurd h (hlong f l)
    | cons g m =>
      simp only [frames, flatMap_cons, append_assoc] at h
      have hlengths : (bigEndian width f.length).length = (bigEndian width g.length).length := by
        rw [length_bigEndian, length_bigEndian]
      rcases append_inj h hlengths with ⟨hnumber, hrest⟩
      have hsame : f.length = g.length := bigEndian_injective (hl f mem_cons_self)
        (hm g mem_cons_self) hnumber
      rcases append_inj hrest hsame with ⟨hfield, htail⟩
      rw [hfield, ih (fun x hx => hl x (mem_cons_of_mem _ hx))
        (fun x hx => hm x (mem_cons_of_mem _ hx)) htail]

end Regalia
