import Mathlib.Data.List.Lex
import Mathlib.Data.List.Sort

/-!
# Finite Maps by Sorted Keys

A finite map kept as its entries in increasing order of key, which is the one
form two maps with the same contents share: equality of maps is equality of
entries. Go iterates over a map in no fixed order and writes its keys sorted;
this form serves both, since nothing the repository does with a map depends
on the order it is walked in.

`ofPairs` builds a map from pairs in any order, a later pair replacing an
earlier one with the same key, as a JSON decoder does.

## Main definitions

* `SortedMap`: A finite map, its keys increasing.
* `SortedMap.get?`: The value at a key.
* `SortedMap.insertEntry`: One key set in a list of entries.
* `SortedMap.ofPairs`: The map a list of pairs spells.

## Theorems

* `SortedMap.keys_nodup`: No key occurs twice.
* `SortedMap.ofPairs_entries`: A map is what its own entries spell.
* `SortedMap.mem_of_mem_ofPairs`: And has no entries but those spelled.
-/

namespace Regalia

open List

/-- A finite map from `κ` to `α`: its entries, in increasing order of key. -/
@[ext] structure SortedMap (κ α : Type) [LinearOrder κ] where
  entries : List (κ × α)
  sorted : entries.Pairwise (fun a b => a.1 < b.1)

namespace SortedMap

variable {κ α : Type} [LinearOrder κ]

instance [DecidableEq α] : DecidableEq (SortedMap κ α) := fun a b =>
  decidable_of_iff (a.entries = b.entries) SortedMap.ext_iff.symm

/-- The map with no entries. -/
def empty : SortedMap κ α := ⟨[], List.Pairwise.nil⟩

/-- The value at a key, if the map has the key. -/
def get? (m : SortedMap κ α) (k : κ) : Option α :=
  (m.entries.find? (fun e => e.1 = k)).map Prod.snd

/-- Set one key in a list of entries, keeping the order. -/
def insertEntry (k : κ) (v : α) : List (κ × α) → List (κ × α)
  | [] => [(k, v)]
  | (k', v') :: rest =>
    if k < k' then (k, v) :: (k', v') :: rest
    else if k = k' then (k, v) :: rest
    else (k', v') :: insertEntry k v rest

variable (k : κ) (v : α) (l : List (κ × α)) (pairs : List (κ × α)) (m : SortedMap κ α)

theorem mem_insertEntry : ∀ e ∈ insertEntry k v l, e = (k, v) ∨ e ∈ l := by
  induction l with
  | nil =>
    intro e he
    exact .inl (mem_singleton.mp he)
  | cons a rest ih =>
    intro e he
    simp only [insertEntry] at he
    split at he
    · exact mem_cons.mp he
    · split at he
      · rcases mem_cons.mp he with h | h
        · exact .inl h
        · exact .inr (mem_cons_of_mem _ h)
      · rcases mem_cons.mp he with h | h
        · exact .inr (h ▸ mem_cons_self)
        · rcases ih e h with h' | h'
          · exact .inl h'
          · exact .inr (mem_cons_of_mem _ h')

theorem insertEntry_sorted (h : l.Pairwise (fun a b => a.1 < b.1)) :
    (insertEntry k v l).Pairwise (fun a b => a.1 < b.1) := by
  induction l with
  | nil => exact pairwise_singleton _ _
  | cons a rest ih =>
    rcases pairwise_cons.mp h with ⟨ha, hrest⟩
    simp only [insertEntry]
    split
    · rename_i hlt
      refine pairwise_cons.mpr ⟨fun e he => ?_, h⟩
      rcases mem_cons.mp he with rfl | he
      · exact hlt
      · exact lt_trans hlt (ha e he)
    · rename_i hnlt
      split
      · rename_i heq
        exact pairwise_cons.mpr ⟨fun e he => heq ▸ ha e he, hrest⟩
      · rename_i hne
        refine pairwise_cons.mpr ⟨fun e he => ?_, ih hrest⟩
        rcases mem_insertEntry k v rest e he with rfl | he
        · exact lt_of_le_of_ne (not_lt.mp hnlt) (fun hc => hne hc.symm)
        · exact ha e he

/-- The map with one key set. -/
def insert (m : SortedMap κ α) (k : κ) (v : α) : SortedMap κ α :=
  ⟨insertEntry k v m.entries, insertEntry_sorted k v m.entries m.sorted⟩

/-- The map a list of pairs spells, a later pair replacing an earlier one. -/
def ofPairs (pairs : List (κ × α)) : SortedMap κ α :=
  pairs.foldl (fun m e => ⟨insertEntry e.1 e.2 m.entries, insertEntry_sorted _ _ _ m.sorted⟩) empty

theorem mem_foldl_insertEntry : ∀ (m : SortedMap κ α),
    ∀ e ∈ (pairs.foldl (fun m e => (⟨insertEntry e.1 e.2 m.entries,
      insertEntry_sorted _ _ _ m.sorted⟩ : SortedMap κ α)) m).entries,
    e ∈ m.entries ∨ e ∈ pairs := by
  induction pairs with
  | nil =>
    intro m e he
    exact .inl he
  | cons p rest ih =>
    intro m e he
    rcases ih _ e he with h | h
    · rcases mem_insertEntry p.1 p.2 m.entries e h with rfl | h
      · exact .inr mem_cons_self
      · exact .inl h
    · exact .inr (mem_cons_of_mem _ h)

/-- Every entry of a map is one of the pairs that spell it. -/
theorem mem_of_mem_ofPairs (e : κ × α) (h : e ∈ (ofPairs pairs).entries) : e ∈ pairs := by
  rcases mem_foldl_insertEntry pairs empty e h with h | h
  · cases h
  · exact h

theorem keys_nodup : (m.entries.map Prod.fst).Nodup := by
  rw [List.Nodup, pairwise_map]
  exact m.sorted.imp (fun h => ne_of_lt h)

/-- A key above all the others goes last. -/
theorem insertEntry_last (h : ∀ e ∈ l, e.1 < k) : insertEntry k v l = l ++ [(k, v)] := by
  induction l with
  | nil => rfl
  | cons a rest ih =>
    have ha := h a mem_cons_self
    simp only [insertEntry, cons_append]
    rw [if_neg (not_lt.mpr (le_of_lt ha)), if_neg (ne_of_gt ha),
      ih (fun e he => h e (mem_cons_of_mem _ he))]

theorem foldl_insertEntry_entries : ∀ m : SortedMap κ α,
    (m.entries ++ pairs).Pairwise (fun a b => a.1 < b.1) →
    (pairs.foldl (fun m e => (⟨insertEntry e.1 e.2 m.entries,
      insertEntry_sorted _ _ _ m.sorted⟩ : SortedMap κ α)) m).entries = m.entries ++ pairs := by
  induction pairs with
  | nil =>
    intro m _
    simp only [foldl_nil, append_nil]
  | cons e rest ih =>
    intro m h
    have hlast : insertEntry e.1 e.2 m.entries = m.entries ++ [e] :=
      insertEntry_last e.1 e.2 m.entries
        (fun x hx => (pairwise_append.mp h).2.2 x hx e mem_cons_self)
    rw [foldl_cons, ih]
    · simp only [hlast, append_assoc, singleton_append]
    · simpa only [hlast, append_assoc, singleton_append] using h

/-- A map is what its own entries spell. -/
theorem ofPairs_entries : ofPairs m.entries = m := by
  refine SortedMap.ext ?_
  rw [ofPairs, foldl_insertEntry_entries]
  · simp only [empty, nil_append]
  · simpa only [empty, nil_append] using m.sorted

/-- Setting a key changes what the map holds at that key and nowhere else. -/
theorem get?_insert (k : κ) (v : α) (k' : κ) :
    (m.insert k v).get? k' = if k' = k then some v else m.get? k' := by
  rcases m with ⟨l, hs⟩
  simp only [get?, insert]
  clear hs
  induction l with
  | nil =>
    simp only [insertEntry, find?_cons, find?_nil]
    by_cases h : k' = k
    · simp [h]
    · simp [h, Ne.symm h]
  | cons a rest ih =>
    simp only [insertEntry]
    by_cases hlt : k < a.1
    · by_cases h : k' = k
      · simp [hlt, h]
      · simp [hlt, h, Ne.symm h]
    · by_cases heq : k = a.1
      · subst heq
        by_cases h : k' = a.1
        · simp [h]
        · simp [h, Ne.symm h]
      · simp only [if_neg hlt, if_neg heq, find?_cons]
        by_cases ha : a.1 = k'
        · simp [ha, show k' ≠ k from fun h => heq (by rw [ha, h])]
        · simpa [ha] using ih

/-- An entry of the map is what the map holds at its key. -/
theorem get?_of_mem (k : κ) (v : α) (h : (k, v) ∈ m.entries) : m.get? k = some v := by
  rcases m with ⟨l, hs⟩
  simp only [get?] at h ⊢
  induction l with
  | nil => cases h
  | cons a rest ih =>
    rcases pairwise_cons.mp hs with ⟨ha, hrest⟩
    rcases mem_cons.mp h with heq | hmem
    · simp only [find?_cons, ← heq, decide_true, Option.map_some]
    · have hlt : a.1 < k := ha _ hmem
      simp only [find?_cons, decide_eq_false (ne_of_lt hlt)]
      exact ih hrest hmem

/-- What the map holds at a key is one of its entries. -/
theorem mem_of_get? (k : κ) (v : α) (h : m.get? k = some v) : (k, v) ∈ m.entries := by
  rcases Option.map_eq_some_iff.mp h with ⟨e, hfind, hv⟩
  have hkey : e.1 = k := by simpa only [decide_eq_true_eq] using find?_some hfind
  have hmem := mem_of_find?_eq_some hfind
  rw [← hkey, ← hv]
  exact hmem

end SortedMap

/-- Bytes in the order of their values. -/
instance linearOrderUInt8 : LinearOrder UInt8 where
  le_refl := UInt8.le_refl
  le_trans _ _ _ := UInt8.le_trans
  le_antisymm _ _ := UInt8.le_antisymm
  le_total := UInt8.le_total
  lt_iff_le_not_ge _ _ := by rw [UInt8.not_le, and_iff_right_of_imp UInt8.le_of_lt]
  toDecidableLE := fun _ _ => inferInstance
  toDecidableEq := inferInstance
  toDecidableLT := fun _ _ => inferInstance

end Regalia
