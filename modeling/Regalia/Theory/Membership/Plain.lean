import Regalia.Data.JsonSpaced
import Regalia.Theory.Membership.Rules

/-!
# The Length of What Is Written

How long the text of a verified document can be. Its strings are of characters
the writer leaves as they are, so a string is as long as it reads, and an object
with exactly the fields of a list is as long as those fields together.

## Main definitions

* `isPlain`: The characters of names, keys and times.

## Theorems

* `escape_plain`: The writer leaves a plain character as it is.
* `length_spaced_str`: The length of a plain string.
* `fields_perm`: The fields of an object that has exactly those of a list.
* `length_spaced_exact_le`: The length of such an object.
-/

namespace Regalia.Membership

open List

/-! ### Strings -/

def isPlain (c : Char) : Bool := c.isAlphanum || c = '-' || c = ':' || c = '.' || c = '/'

theorem toNat_lt_of_isPlain {c : Char} (h : isPlain c = true) : c.toNat < 128 := by
  simp only [isPlain, Bool.or_eq_true, decide_eq_true_eq] at h
  rcases h with (((h | rfl) | rfl) | rfl) | rfl
  · delta Char.isAlphanum Char.isAlpha Char.isUpper Char.isLower Char.isDigit at h
    simp only [Bool.or_eq_true, Bool.and_eq_true, decide_eq_true_eq, UInt32.le_iff_toNat_le] at h
    have hval : c.toNat = c.val.toNat := rfl
    have hZ : 'Z'.val.toNat = 90 := rfl
    have hz : 'z'.val.toNat = 122 := rfl
    have h9 : '9'.val.toNat = 57 := rfl
    omega
  all_goals decide

/-- The writer leaves a plain character as it is. -/
theorem escape_plain {c : Char} (h : isPlain c = true) : Python.escape c = [c] := by
  have hascii : ∀ n < 128, isPlain (Char.ofNat n) = true →
      Python.escape (Char.ofNat n) = [Char.ofNat n] := by decide
  have := hascii c.toNat (toNat_lt_of_isPlain h) (by rwa [Char.ofNat_toNat])
  rwa [Char.ofNat_toNat] at this

variable {s : String}

theorem length_body_of_plain (h : ∀ c ∈ s.toList, isPlain c = true) :
    (asciiQuoting.body s).length = s.toList.length + 1 := by
  have hbody : s.toList.flatMap Python.escape = s.toList := by
    rw [flatMap_congr (fun c hc => escape_plain (h c hc))]
    exact flatMap_singleton' _
  show (s.toList.flatMap Python.escape ++ ['"']).length = _
  rw [hbody, length_append]
  rfl

theorem length_spaced_str (h : ∀ c ∈ s.toList, isPlain c = true) :
    (Json.spaced asciiQuoting (.str s)).length = s.toList.length + 2 := by
  rw [Json.spaced, length_cons, length_body_of_plain h]

theorem isPlain_of_lowerHex {c : Char} (h : isLowerHex c = true) : isPlain c = true :=
  of_isLowerHex c h (by decide)

theorem plain_of_matchesHex {n : Nat} (h : matchesHex n s = true) :
    s.toList.length = n ∧ ∀ c ∈ s.toList, isPlain c = true := by
  unfold matchesHex at h
  simp only [Bool.and_eq_true, decide_eq_true_eq, all_eq_true] at h
  exact ⟨h.1, fun c hc => isPlain_of_lowerHex (h.2 c hc)⟩

theorem length_body_of_hex {n : Nat} (h : matchesHex n s = true) :
    (asciiQuoting.body s).length = n + 1 := by
  obtain ⟨hlength, hplain⟩ := plain_of_matchesHex h
  rw [length_body_of_plain hplain, hlength]

theorem IsHex.length_spaced {n : Nat} {v : Value} (h : IsHex n v) :
    (Json.spaced asciiQuoting v).length = n + 2 := by
  obtain ⟨s, rfl, hs⟩ := h
  rw [Json.spaced, length_cons, length_body_of_hex hs]

theorem isPlain_of_lowerAlphanum {c : Char} (h : lowerAlphanum c = true) : isPlain c = true := by
  simp only [lowerAlphanum, Bool.or_eq_true] at h
  delta isPlain Char.isAlphanum Char.isAlpha
  simp only [Bool.or_eq_true]
  tauto

theorem plain_of_matchesNodeID (h : matchesNodeID s = true) :
    s.toList.length ≤ 32 ∧ ∀ c ∈ s.toList, isPlain c = true := by
  unfold matchesNodeID at h
  cases hs : s.toList with
  | nil =>
    rw [hs] at h
    cases h
  | cons c cs =>
    rw [hs] at h
    simp only [Bool.and_eq_true, decide_eq_true_eq, all_eq_true, Bool.or_eq_true] at h
    obtain ⟨⟨hhead, hshort⟩, hrest⟩ := h
    refine ⟨by rw [length_cons]; omega, ?_⟩
    intro d hd
    rcases mem_cons.mp hd with rfl | hd
    · exact isPlain_of_lowerAlphanum hhead
    · rcases hrest d hd with hd | rfl
      · exact isPlain_of_lowerAlphanum hd
      · rfl

/-! ### Objects -/

/-- The fields of an object that has exactly those of a list. -/
theorem fields_perm {fields : List (String × Value)} {keys : List String}
    (hordered : Json.Ordered (.obj fields)) (hexact : Exact (.obj fields) keys)
    (hkeys : keys.Nodup) : fields.Perm (keys.map (fun k => (k, field (.obj fields) k))) := by
  have hnodup : (fields.map Prod.fst).Nodup := hordered.1.imp (fun h => ne_of_lt h)
  have hnames : (fields.map Prod.fst).Perm keys :=
    (perm_ext_iff_of_nodup hnodup hkeys).mpr hexact.2
  -- a field is its name and what the name finds
  have hfields : fields = (fields.map Prod.fst).map (fun k => (k, field (.obj fields) k)) := by
    rw [map_map]
    refine (map_id fields).symm.trans (map_congr_left ?_)
    intro f hf
    have hget := Json.get?_of_mem hnodup (show (f.1, f.2) ∈ fields from hf)
    show f = (f.1, field (.obj fields) f.1)
    rw [field, hget, Option.getD_some]
  exact (List.Perm.of_eq hfields).trans (hnames.map _)

theorem length_spaced_exact_le {v : Value} {keys : List String} (hordered : v.Ordered)
    (hexact : Exact v keys) (hkeys : keys.Nodup) :
    (Json.spaced asciiQuoting v).length ≤ 2 + (keys.map (fun k =>
      (asciiQuoting.body k).length + (Json.spaced asciiQuoting (field v k)).length + 5)).sum := by
  cases v with
  | obj fields =>
    refine le_of_le_of_eq (Json.length_spaced_obj_le asciiQuoting fields) ?_
    have hperm := (fields_perm hordered hexact hkeys).map (fun f =>
      (asciiQuoting.body f.1).length + (Json.spaced asciiQuoting f.2).length + 5)
    rw [hperm.sum_nat, map_map]
    rfl
  | _ => exact absurd hexact.1 (by simp [isObject])

end Regalia.Membership
