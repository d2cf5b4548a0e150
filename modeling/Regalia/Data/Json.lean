import Mathlib.Algebra.Group.Int.Defs
import Mathlib.Algebra.GroupWithZero.Nat
import Mathlib.Data.List.Basic

/-!
# JSON Values

A JSON value whose numbers are integers, over any type of string: a verifier
reads the strings of a document as text, a writer sees the pieces it escapes.
An object is the list of its fields in the order they stand, so a printer and
a parser need nothing but the value; a decoder that keeps objects in a map
has them in one order, which `Json.Ordered` asks for.

## Main definitions

* `Json`: A value.
* `Json.get?`: A field of an object.
* `Json.keys`: The names of an object's fields.
* `Json.Ordered`: Every object in the value has its names strictly increasing.
* `Json.height`: How deeply the values inside stand.
* `Json.mapStrings`: A value with its strings replaced.

## Theorems

* `Json.beq_eq_true_iff`: The comparison by recursion is equality.
* `Json.get?_isSome_iff`, `Json.get?_of_mem`: What a field's name finds.
-/

namespace Regalia

open List

/-- A JSON value without fractions, its strings of type `σ`. -/
inductive Json (σ : Type) where
  | null
  | bool (b : Bool)
  | num (n : Int)
  | str (s : σ)
  | arr (items : List (Json σ))
  | obj (fields : List (σ × Json σ))

namespace Json

variable {σ τ : Type}

mutual

/-- Equality by recursion over both values. -/
def beq [DecidableEq σ] : Json σ → Json σ → Bool
  | null, null => true
  | bool a, bool b => a == b
  | num a, num b => a == b
  | str a, str b => a == b
  | arr a, arr b => beqItems a b
  | obj a, obj b => beqFields a b
  | _, _ => false

/-- Equality of two lists of values. -/
def beqItems [DecidableEq σ] : List (Json σ) → List (Json σ) → Bool
  | [], [] => true
  | a :: as, b :: bs => beq a b && beqItems as bs
  | _, _ => false

/-- Equality of two lists of fields. -/
def beqFields [DecidableEq σ] : List (σ × Json σ) → List (σ × Json σ) → Bool
  | [], [] => true
  | (k, a) :: as, (l, b) :: bs => k == l && beq a b && beqFields as bs
  | _, _ => false

end

mutual

theorem beq_eq_true_iff [DecidableEq σ] : ∀ a b : Json σ, beq a b = true ↔ a = b
  | null, b => by cases b <;> simp [beq]
  | bool a, b => by cases b <;> simp [beq]
  | num a, b => by cases b <;> simp [beq]
  | str a, b => by cases b <;> simp [beq]
  | arr a, b => by
    cases b with
    | arr b => simp [beq, beqItems_eq_true_iff a b]
    | _ => simp [beq]
  | obj a, b => by
    cases b with
    | obj b => simp [beq, beqFields_eq_true_iff a b]
    | _ => simp [beq]

theorem beqItems_eq_true_iff [DecidableEq σ] :
    ∀ a b : List (Json σ), beqItems a b = true ↔ a = b
  | [], b => by cases b <;> simp [beqItems]
  | a :: as, [] => by simp [beqItems]
  | a :: as, b :: bs => by
    simp [beqItems, beq_eq_true_iff a b, beqItems_eq_true_iff as bs]

theorem beqFields_eq_true_iff [DecidableEq σ] :
    ∀ a b : List (σ × Json σ), beqFields a b = true ↔ a = b
  | [], b => by cases b <;> simp [beqFields]
  | (k, a) :: as, [] => by simp [beqFields]
  | (k, a) :: as, (l, b) :: bs => by
    simp [beqFields, beq_eq_true_iff a b, beqFields_eq_true_iff as bs]

end

instance [DecidableEq σ] : DecidableEq (Json σ) := fun a b =>
  decidable_of_iff (beq a b = true) (beq_eq_true_iff a b)

/-- The names of an object's fields; a value that is no object has none. -/
def keys : Json σ → List σ
  | obj fields => fields.map Prod.fst
  | _ => []

/-- The first field of an object under a name. -/
def get? [DecidableEq σ] : Json σ → σ → Option (Json σ)
  | obj fields, k => fields.lookup k
  | _, _ => none

theorem get?_append [DecidableEq σ] (fs gs : List (σ × Json σ)) (k : σ) :
    (obj (fs ++ gs)).get? k = ((obj fs).get? k).or ((obj gs).get? k) := lookup_append

theorem get?_nil [DecidableEq σ] (k : σ) : (obj []).get? k = none := rfl

theorem get?_singleton [DecidableEq σ] (k k' : σ) (v : Json σ) :
    (obj [(k', v)]).get? k = if k = k' then some v else none := by
  by_cases h : k = k'
  · simp only [get?, h, lookup_cons_self, if_true]
  · have hne : (k == k') = false := beq_eq_false_iff_ne.mpr h
    simp only [get?, lookup_cons, hne, lookup_nil, if_neg h]

theorem get?_isSome_iff [DecidableEq σ] (v : Json σ) (k : σ) :
    (v.get? k).isSome = true ↔ k ∈ v.keys := by
  cases v with
  | obj fields =>
    induction fields with
    | nil => simp [get?, keys]
    | cons f rest ih =>
      have hcons : obj (f :: rest) = obj ([(f.1, f.2)] ++ rest) := rfl
      rw [hcons, get?_append, get?_singleton, Option.isSome_or]
      by_cases hk : k = f.1
      · simp [hk, keys]
      · simpa [hk, keys] using ih
  | _ => simp [get?, keys]

variable {fields : List (σ × Json σ)}

/-- The field of an object whose names are distinct. -/
theorem get?_of_mem [DecidableEq σ] {k : σ} {v : Json σ}
    (hnodup : (fields.map Prod.fst).Nodup) (h : (k, v) ∈ fields) :
    (obj fields).get? k = some v := by
  induction fields with
  | nil => cases h
  | cons f rest ih =>
    have hcons : obj (f :: rest) = obj ([(f.1, f.2)] ++ rest) := rfl
    rw [map_cons, nodup_cons] at hnodup
    rw [hcons, get?_append, get?_singleton]
    rcases mem_cons.mp h with rfl | hrest
    · simp
    · have hne : k ≠ f.1 := by
        rintro rfl
        exact hnodup.1 (mem_map.mpr ⟨(f.1, v), hrest, rfl⟩)
      rw [if_neg hne, Option.none_or]
      exact ih hnodup.2 hrest

theorem get?_mem [DecidableEq σ] {k : σ} {v : Json σ}
    (h : (obj fields).get? k = some v) : (k, v) ∈ fields := by
  induction fields with
  | nil => cases h
  | cons f rest ih =>
    have hcons : obj (f :: rest) = obj ([(f.1, f.2)] ++ rest) := rfl
    rw [hcons, get?_append, get?_singleton] at h
    by_cases hk : k = f.1
    · rw [if_pos hk, Option.some_or] at h
      rw [hk, ← Option.some.inj h]
      exact mem_cons_self
    · rw [if_neg hk, Option.none_or] at h
      exact mem_cons_of_mem _ (ih h)

mutual

/-- Every object in the value has its names strictly increasing, so no name
    stands twice and two values with the same contents are equal. -/
def Ordered [LT σ] : Json σ → Prop
  | arr items => OrderedItems items
  | obj fields => (fields.map Prod.fst).Pairwise (· < ·) ∧ OrderedFields fields
  | _ => True

/-- `Ordered` of every item. -/
def OrderedItems [LT σ] : List (Json σ) → Prop
  | [] => True
  | v :: vs => Ordered v ∧ OrderedItems vs

/-- `Ordered` of every field's value. -/
def OrderedFields [LT σ] : List (σ × Json σ) → Prop
  | [] => True
  | (_, v) :: fs => Ordered v ∧ OrderedFields fs

end

mutual

def decideOrdered [LT σ] [DecidableLT σ] : (v : Json σ) → Decidable v.Ordered
  | arr items => decideOrderedItems items
  | obj fields => @instDecidableAnd _ _ inferInstance (decideOrderedFields fields)
  | null | bool _ | num _ | str _ => isTrue trivial

def decideOrderedItems [LT σ] [DecidableLT σ] : (items : List (Json σ)) →
    Decidable (OrderedItems items)
  | [] => isTrue trivial
  | v :: vs => @instDecidableAnd _ _ (decideOrdered v) (decideOrderedItems vs)

def decideOrderedFields [LT σ] [DecidableLT σ] : (fields : List (σ × Json σ)) →
    Decidable (OrderedFields fields)
  | [] => isTrue trivial
  | (_, v) :: fs => @instDecidableAnd _ _ (decideOrdered v) (decideOrderedFields fs)

end

instance [LT σ] [DecidableLT σ] (v : Json σ) : Decidable v.Ordered := decideOrdered v

theorem orderedItems_iff [LT σ] {items : List (Json σ)} :
    OrderedItems items ↔ ∀ v ∈ items, v.Ordered := by
  induction items with
  | nil => simp [OrderedItems]
  | cons v rest ih => simp [OrderedItems, ih]

theorem orderedFields_iff [LT σ] : OrderedFields fields ↔ ∀ f ∈ fields, f.2.Ordered := by
  induction fields with
  | nil => simp [OrderedFields]
  | cons f rest ih => simp [OrderedFields, ih]

mutual

/-- How deeply the values inside stand. -/
def height : Json σ → Nat
  | arr items => heightItems items
  | obj fields => heightFields fields
  | _ => 0

/-- The height of a list of items, seen from outside. -/
def heightItems : List (Json σ) → Nat
  | [] => 0
  | v :: vs => max (height v + 1) (heightItems vs)

/-- The height of a list of fields, seen from outside. -/
def heightFields : List (σ × Json σ) → Nat
  | [] => 0
  | (_, v) :: fs => max (height v + 1) (heightFields fs)

end

theorem heightItems_le {items : List (Json σ)} {n : Nat} :
    heightItems items ≤ n ↔ ∀ v ∈ items, height v + 1 ≤ n := by
  induction items with
  | nil => simp [heightItems]
  | cons v rest ih => rw [heightItems, Nat.max_le, ih, forall_mem_cons]

theorem heightFields_le {n : Nat} : heightFields fields ≤ n ↔ ∀ f ∈ fields, height f.2 + 1 ≤ n := by
  induction fields with
  | nil => simp [heightFields]
  | cons f rest ih => rw [heightFields, Nat.max_le, ih, forall_mem_cons]

mutual

/-- The value with every string, and every name, replaced. -/
def mapStrings (f : σ → τ) : Json σ → Json τ
  | null => null
  | bool b => bool b
  | num n => num n
  | str s => str (f s)
  | arr items => arr (mapStringsItems f items)
  | obj fields => obj (mapStringsFields f fields)

/-- `mapStrings` of every item. -/
def mapStringsItems (f : σ → τ) : List (Json σ) → List (Json τ)
  | [] => []
  | v :: vs => mapStrings f v :: mapStringsItems f vs

/-- `mapStrings` of every field. -/
def mapStringsFields (f : σ → τ) : List (σ × Json σ) → List (τ × Json τ)
  | [] => []
  | (k, v) :: fs => (f k, mapStrings f v) :: mapStringsFields f fs

end

mutual

theorem mapStrings_mapStrings {υ : Type} (g : τ → υ) (f : σ → τ) :
    ∀ v : Json σ, (v.mapStrings f).mapStrings g = v.mapStrings (g ∘ f)
  | null => rfl
  | bool _ => rfl
  | num _ => rfl
  | str _ => rfl
  | arr items => congrArg arr (mapStringsItems_mapStringsItems g f items)
  | obj fields => congrArg obj (mapStringsFields_mapStringsFields g f fields)

theorem mapStringsItems_mapStringsItems {υ : Type} (g : τ → υ) (f : σ → τ) :
    ∀ vs : List (Json σ), mapStringsItems g (mapStringsItems f vs) = mapStringsItems (g ∘ f) vs
  | [] => rfl
  | v :: vs => by
    rw [mapStringsItems, mapStringsItems, mapStringsItems, mapStrings_mapStrings g f v,
      mapStringsItems_mapStringsItems g f vs]

theorem mapStringsFields_mapStringsFields {υ : Type} (g : τ → υ) (f : σ → τ) :
    ∀ fs : List (σ × Json σ),
      mapStringsFields g (mapStringsFields f fs) = mapStringsFields (g ∘ f) fs
  | [] => rfl
  | (k, v) :: fs => by
    rw [mapStringsFields, mapStringsFields, mapStringsFields, mapStrings_mapStrings g f v,
      mapStringsFields_mapStringsFields g f fs]
    rfl

end

end Json

end Regalia
