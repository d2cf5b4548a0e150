import Regalia.Core.Membership.Load
import Regalia.Theory.Membership.Comparing

/-!
# Spellings of a Document

The Go code holds a document with the spelling of its integers and with the
fields of its maps in no order. Two such documents are the same when neither
difference counts (`Any.Same`), which is the case exactly when they stand for
one value, names in order (`Any.normal`). `Canonical` writes that value, so the
canonical bytes tell documents apart as they should.

## Main definitions

* `Any.WellFormed`: A document: integers only, and no name twice.
* `Any.Same`: The same document, whatever its spelling.
* `Any.value`, `Any.normal`: The value a document stands for, and that value
  with its names in order.

## Theorems

* `canonical_eq`: `Canonical` writes the value's canonical bytes.
* `same_iff`: Documents are the same when their values are, names in order.
* `canonical_eq_iff`: Documents with the same bytes are the same.
-/

namespace Regalia.Membership

open List

namespace Go

/-! ### Documents -/

/-- The integer a spelling stands for. -/
def spelled (text : List Char) : Int :=
  if text.head? = some '-' then -(Nat.ofDigitChars 10 text.tail 0 : Int)
  else Nat.ofDigitChars 10 text 0

/-- The integer a value is, if it is one. -/
def Any.integer : Any → Option Int
  | .number spelling => some (spelled spelling)
  | .int n => some n
  | _ => none

mutual

/-- A document: its numbers are integers, and no name of a map stands twice. -/
def Any.WellFormed : Any → Prop
  | .number spelling => (setInt spelling).isSome
  | .slice items => Any.WellFormedItems items
  | .map fields => (fields.map Prod.fst).Nodup ∧ Any.WellFormedFields fields
  | _ => True

def Any.WellFormedItems : List Any → Prop
  | [] => True
  | v :: vs => v.WellFormed ∧ Any.WellFormedItems vs

def Any.WellFormedFields : List (String × Any) → Prop
  | [] => True
  | (_, v) :: fs => v.WellFormed ∧ Any.WellFormedFields fs

end

mutual

/-- The same document: maps by their fields in any order, integers by their
    value. -/
def Any.Same : Any → Any → Prop
  | .null, .null => True
  | .bool a, .bool b => a = b
  | .string a, .string b => a = b
  | .slice a, .slice b => Any.SameItems a b
  | .map a, .map b => (∀ k ∈ b.map Prod.fst, k ∈ a.map Prod.fst) ∧ Any.SameFields a b
  | a, b => ∃ n, a.integer = some n ∧ b.integer = some n

def Any.SameItems : List Any → List Any → Prop
  | [], [] => True
  | a :: as, b :: bs => a.Same b ∧ Any.SameItems as bs
  | _, _ => False

/-- Each field is one of the other map's. -/
def Any.SameFields : List (String × Any) → List (String × Any) → Prop
  | [], _ => True
  | (k, a) :: as, bs => (∃ b, (k, b) ∈ bs ∧ a.Same b) ∧ Any.SameFields as bs

end

mutual

/-- The value a document stands for. -/
def Any.value : Any → Value
  | .null => .null
  | .bool b => .bool b
  | .number spelling => .num (spelled spelling)
  | .int n => .num n
  | .string s => .str s
  | .slice items => .arr (Any.valueItems items)
  | .map fields => .obj (Any.valueFields fields)

def Any.valueItems : List Any → List Value
  | [] => []
  | v :: vs => v.value :: Any.valueItems vs

def Any.valueFields : List (String × Any) → List (String × Value)
  | [] => []
  | (k, v) :: fs => (k, v.value) :: Any.valueFields fs

end

theorem wellFormedFields_iff {fields : List (String × Any)} :
    Any.WellFormedFields fields ↔ ∀ f ∈ fields, f.2.WellFormed := by
  induction fields with
  | nil => simp [Any.WellFormedFields]
  | cons f rest ih => simp [Any.WellFormedFields, ih]

theorem valueItems_eq (items : List Any) : Any.valueItems items = items.map Any.value := by
  induction items with
  | nil => rfl
  | cons v rest ih => rw [Any.valueItems, ih, map_cons]

variable (fields : List (String × Any))

theorem valueFields_eq : Any.valueFields fields = fields.map (fun f => (f.1, f.2.value)) := by
  induction fields with
  | nil => rfl
  | cons f rest ih => rw [Any.valueFields, ih, map_cons]

/-! ### Integers -/

/-- An integer is written in decimal. -/
theorem setInt_eq {text set : List Char} (h : setInt text = some set) :
    set = printInt (spelled text) := by
  have hdigits : ∀ digits : List Char, digits.all Char.isDigit = true →
      digits.dropWhile (· = '0') ≠ [] →
      0 < Nat.ofDigitChars 10 digits 0 ∧
        Nat.toDigits 10 (Nat.ofDigitChars 10 digits 0) = digits.dropWhile (· = '0') := by
    intro digits hall hne
    rw [← ofDigitChars_dropZeros]
    cases hd : digits.dropWhile (· = '0') with
    | nil => exact absurd hd hne
    | cons c cs =>
      have hc := head_dropWhile_not (· = '0') hne
      simp only [hd, head_cons, decide_eq_false_iff_not] at hc
      refine toDigits_ofDigitChars_cons hc (fun d hdm => ?_)
      exact all_eq_true.mp hall d ((dropWhile_sublist _).mem (hd ▸ hdm))
  have hzero : ∀ digits : List Char, digits.dropWhile (· = '0') = [] →
      Nat.ofDigitChars 10 digits 0 = 0 := by
    intro digits hd
    rw [← ofDigitChars_dropZeros, hd]
    rfl
  unfold setInt at h
  unfold spelled
  by_cases hneg : text.head? = some '-'
  · simp only [hneg, if_true] at h ⊢
    split at h
    · cases h
    · rename_i hok
      rw [not_or, not_not] at hok
      split at h
      · rename_i hnil
        rw [hzero _ hnil, ← Option.some.inj h]
        rfl
      · rename_i hne
        rcases hdigits _ hok.2 hne with ⟨hpos, hprint⟩
        have hlt : -(Nat.ofDigitChars 10 text.tail 0 : Int) < 0 := by omega
        rw [← Option.some.inj h, printInt, if_pos hlt, Int.natAbs_neg, Int.natAbs_natCast, hprint]
  · simp only [hneg, if_false] at h ⊢
    split at h
    · cases h
    · rename_i hok
      rw [not_or, not_not] at hok
      split at h
      · rename_i hnil
        rw [hzero _ hnil, ← Option.some.inj h]
        rfl
      · rename_i hne
        rcases hdigits _ hok.2 hne with ⟨hpos, hprint⟩
        have hle : ¬ ((Nat.ofDigitChars 10 text 0 : Nat) : Int) < 0 := by omega
        rw [← Option.some.inj h, printInt, if_neg hle, Int.natAbs_natCast, hprint]

theorem printInt_head_ne {n : Int} (h : ¬ n < 0) : (printInt n).head? ≠ some '-' := by
  rw [printInt, if_neg h]
  intro hhead
  have hdigit : ('-' : Char).isDigit = true := Nat.isDigit_of_mem_toDigits (b := 10) (n := n.natAbs)
    (by decide) (by decide) (mem_of_head? hhead)
  exact absurd hdigit (by decide)

theorem spelled_printInt (n : Int) : spelled (printInt n) = n := by
  by_cases hneg : n < 0
  · rw [printInt, if_pos hneg, spelled, head?_cons, if_pos rfl, tail_cons,
      Nat.ofDigitChars_ten_toDigits]
    omega
  · rw [spelled, if_neg (printInt_head_ne hneg), printInt, if_neg hneg,
      Nat.ofDigitChars_ten_toDigits]
    omega

/-! ### Writing -/

theorem print_arr (items : List Value) :
    Json.print quoting (.arr items) = '[' :: (joined (items.map (Json.print quoting)) ++ [']']) := by
  have hrest : ∀ rest : List Value, Json.printItems quoting rest =
      (rest.map (Json.print quoting)).flatMap (',' :: ·) ++ [']'] := by
    intro rest
    induction rest with
    | nil => rfl
    | cons v rest ih => rw [Json.printItems, ih]; simp
  cases items with
  | nil => rfl
  | cons v rest => rw [Json.print, hrest]; simp [joined]

theorem print_obj (fields : List (String × Value)) :
    Json.print quoting (.obj fields) = '{' :: (joined (fields.map
      (fun f => quote f.1 ++ ':' :: Json.print quoting f.2)) ++ ['}']) := by
  have hbody : ∀ k : String, '"' :: quoting.body k = quote k := fun k => rfl
  have hrest : ∀ rest : List (String × Value), Json.printFields quoting rest =
      (rest.map (fun f => quote f.1 ++ ':' :: Json.print quoting f.2)).flatMap (',' :: ·) ++
        ['}'] := by
    intro rest
    induction rest with
    | nil => rfl
    | cons f rest ih => rw [Json.printFields, ih]; simp [← hbody]
  cases fields with
  | nil => rfl
  | cons f rest => rw [Json.print, hrest]; simp [joined, ← hbody]

/-- The order of names in which both writers write. -/
abbrev byName (a b : String) : Bool := lessCodePoints a.toList b.toList

/-- Fields in order, whatever they hold. -/
theorem insertionSort_mapFields {β γ : Type} (f : β → γ) (fields : List (String × β)) :
    (fields.map (fun g => (g.1, f g.2))).insertionSort (fun a b => !byName b.1 a.1) =
      (fields.insertionSort (fun a b => !byName b.1 a.1)).map (fun g => (g.1, f g.2)) := by
  have hmap := map_insertionSort (r := fun a b : String × β => (!byName b.1 a.1) = true)
    (s := fun a b : String × γ => (!byName b.1 a.1) = true) (fun g => (g.1, f g.2)) fields
  exact (hmap (fun a _ b _ => by simp only)).symm

theorem sortKeysItems_eq (less : String → String → Bool) (items : List Value) :
    sortKeysItems less items = items.map (sortKeys less) := by
  induction items with
  | nil => rfl
  | cons v rest ih => rw [sortKeysItems, ih, map_cons]

theorem sortKeysFields_eq (less : String → String → Bool) (fields : List (String × Value)) :
    sortKeysFields less fields = fields.map (fun f => (f.1, sortKeys less f.2)) := by
  induction fields with
  | nil => rfl
  | cons f rest ih => rw [sortKeysFields, ih, map_cons]

theorem canonicalItems_eq (items : List Any) :
    Any.canonicalItems items = items.map Any.canonicalText := by
  induction items with
  | nil => rfl
  | cons v rest ih => rw [Any.canonicalItems, ih, map_cons]

theorem canonicalFields_eq :
    Any.canonicalFields fields = fields.map (fun f => (f.1, f.2.canonicalText)) := by
  induction fields with
  | nil => rfl
  | cons f rest ih => rw [Any.canonicalFields, ih, map_cons]

mutual

/-- What is written of a document is its value, names in order. -/
theorem canonicalText_eq : ∀ v : Any, v.WellFormed →
    v.canonicalText = Json.print quoting (sortKeys byName v.value)
  | .null, _ => rfl
  | .bool true, _ => rfl
  | .bool false, _ => rfl
  | .number spelling, h => by
    rcases Option.isSome_iff_exists.mp h with ⟨set, hset⟩
    rw [Any.canonicalText, hset, Option.getD_some, setInt_eq hset]
    rfl
  | .int n, _ => rfl
  | .string s, _ => rfl
  | .slice items, h => by
    rw [Any.canonicalText, Any.value, sortKeys, print_arr, canonicalItems_eq,
      canonicalItems_map items h, sortKeysItems_eq, valueItems_eq, map_map, map_map]
    rfl
  | .map fields, h => by
    have hsorted := insertionSort_mapFields (Json.print quoting)
      (fields.map (fun f => (f.1, sortKeys byName f.2.value)))
    rw [map_map] at hsorted
    rw [Any.canonicalText, Any.value, sortKeys, print_obj, canonicalFields_eq,
      canonicalFields_map fields h.2, sortKeysFields_eq, valueFields_eq, map_map]
    refine congrArg (fun texts => '{' :: (joined texts ++ ['}'])) ?_
    exact (congrArg (List.map _) hsorted).trans (map_map ..)

theorem canonicalItems_map : ∀ items : List Any, Any.WellFormedItems items →
    items.map Any.canonicalText = items.map (fun v => Json.print quoting (sortKeys byName v.value))
  | [], _ => rfl
  | v :: rest, h => by
    rw [map_cons, map_cons, canonicalText_eq v h.1, canonicalItems_map rest h.2]

theorem canonicalFields_map : ∀ fields : List (String × Any), Any.WellFormedFields fields →
    fields.map (fun f => (f.1, f.2.canonicalText)) =
      fields.map (fun f => (f.1, Json.print quoting (sortKeys byName f.2.value)))
  | [], _ => rfl
  | (k, v) :: rest, h => by
    rw [map_cons, map_cons, canonicalText_eq v h.1, canonicalFields_map rest h.2]

end

/-- `Canonical` writes the canonical bytes of the value. -/
theorem canonical_eq {v : Any} (h : v.WellFormed) : v.canonical = Go.canonical v.value := by
  rw [Any.canonical, canonicalText_eq v h]
  rfl

/-! ### Names in order -/

theorem byName_eq : byName = fun a b => decide (a < b) := by
  funext a b
  rw [byName, lessCodePoints_eq, decide_eq_decide, String.lt_iff_toList_lt]

/-- The fields of an object in the order of their names. -/
abbrev inOrder {β : Type} (fields : List (String × β)) : List (String × β) :=
  fields.insertionSort (fun a b => !decide (b.1 < a.1))

theorem inOrder_names {β : Type} (fields : List (String × β)) :
    (inOrder fields).map Prod.fst = (fields.map Prod.fst).insertionSort (· ≤ ·) := by
  have hmap := map_insertionSort (r := fun a b : String × β => (!decide (b.1 < a.1)) = true)
    (s := fun a b : String => a ≤ b) Prod.fst fields
  exact hmap (fun a _ b _ => by rw [Bool.not_eq_true', decide_eq_false_iff_not, not_lt])

theorem mem_inOrder {β : Type} {fields : List (String × β)} {f : String × β} :
    f ∈ inOrder fields ↔ f ∈ fields := mem_insertionSort _

theorem inOrder_sorted {β : Type} (fields : List (String × β)) :
    (inOrder fields).Pairwise (fun a b => a.1 ≤ b.1) := by
  rw [← pairwise_map, inOrder_names]
  exact pairwise_insertionSort _ _

theorem inOrder_strict {β : Type} {fields : List (String × β)}
    (h : (fields.map Prod.fst).Nodup) : ((inOrder fields).map Prod.fst).Pairwise (· < ·) := by
  have hsorted := inOrder_sorted fields
  rw [← pairwise_map] at hsorted
  have hnodup : ((inOrder fields).map Prod.fst).Nodup :=
    ((perm_insertionSort _ fields).map Prod.fst).nodup_iff.mpr h
  exact hsorted.imp₂ (fun _ _ hle hne => lt_of_le_of_ne hle hne) hnodup

/-- Two maps with the same fields come out the same. -/
theorem inOrder_eq_iff {β : Type} {xs ys : List (String × β)} (hx : (xs.map Prod.fst).Nodup)
    (hy : (ys.map Prod.fst).Nodup) : inOrder xs = inOrder ys ↔ ∀ f, f ∈ xs ↔ f ∈ ys := by
  constructor
  · intro h f
    rw [← mem_inOrder, h, mem_inOrder]
  · intro h
    have hperm : xs.Perm ys := (perm_ext_iff_of_nodup hx.of_map hy.of_map).mpr h
    refine List.Perm.eq_of_pairwise ?_ (inOrder_sorted xs) (inOrder_sorted ys)
      ((perm_insertionSort _ xs).trans (hperm.trans (perm_insertionSort _ ys).symm))
    intro a b ha hb hab hba
    rw [mem_inOrder] at ha hb
    exact inj_on_of_nodup_map hy ((h a).mp ha) hb (le_antisymm hab hba)

/-- The value of a document, names in order. -/
def Any.normal (v : Any) : Value := sortKeys (fun a b => decide (a < b)) v.value

theorem normal_slice (items : List Any) :
    Any.normal (.slice items) = .arr (items.map Any.normal) := by
  rw [Any.normal, Any.value, sortKeys, sortKeysItems_eq, valueItems_eq, map_map]
  rfl

theorem normal_map :
    Any.normal (.map fields) = .obj (inOrder (fields.map (fun f => (f.1, f.2.normal)))) := by
  rw [Any.normal, Any.value, sortKeys, sortKeysFields_eq, valueFields_eq, map_map]
  rfl

theorem names_normal :
    (fields.map (fun f => (f.1, f.2.normal))).map Prod.fst = fields.map Prod.fst := by
  rw [map_map]
  rfl

mutual

theorem normal_ordered : ∀ v : Any, v.WellFormed → v.normal.Ordered
  | .null, _ => trivial
  | .bool _, _ => trivial
  | .number _, _ => trivial
  | .int _, _ => trivial
  | .string _, _ => trivial
  | .slice items, h => by
    rw [normal_slice]
    exact Json.orderedItems_iff.mpr (by simpa using normalItems_ordered items h)
  | .map fields, h => by
    rw [normal_map]
    refine ⟨inOrder_strict (by rw [names_normal]; exact h.1), Json.orderedFields_iff.mpr ?_⟩
    intro f hf
    rw [mem_inOrder] at hf
    rcases mem_map.mp hf with ⟨g, hg, rfl⟩
    exact normalFields_ordered fields h.2 g hg

theorem normalItems_ordered : ∀ items : List Any, Any.WellFormedItems items →
    ∀ v ∈ items, v.normal.Ordered
  | [], _ => by simp
  | v :: rest, h => by
    rw [forall_mem_cons]
    exact ⟨normal_ordered v h.1, normalItems_ordered rest h.2⟩

theorem normalFields_ordered : ∀ fields : List (String × Any), Any.WellFormedFields fields →
    ∀ f ∈ fields, f.2.normal.Ordered
  | [], _ => by simp
  | (k, v) :: rest, h => by
    rw [forall_mem_cons]
    exact ⟨normal_ordered v h.1, normalFields_ordered rest h.2⟩

end

/-! ### The same document -/

/-- Fields that are fields of the other map, and no others in that. -/
theorem fields_iff {fields fields' : List (String × Any)} (hnodup : (fields'.map Prod.fst).Nodup) :
    ((∀ k ∈ fields'.map Prod.fst, k ∈ fields.map Prod.fst) ∧
      ∀ f ∈ fields, ∃ w, (f.1, w) ∈ fields' ∧ f.2.normal = w.normal) ↔
    ∀ f, f ∈ fields.map (fun f => (f.1, f.2.normal)) ↔
      f ∈ fields'.map (fun f => (f.1, f.2.normal)) := by
  constructor
  · rintro ⟨hnames, hfields⟩ f
    constructor
    · intro hf
      rcases mem_map.mp hf with ⟨g, hg, rfl⟩
      rcases hfields g hg with ⟨w, hw, hnormal⟩
      exact mem_map.mpr ⟨_, hw, by rw [hnormal]⟩
    · intro hf
      rcases mem_map.mp hf with ⟨g, hg, rfl⟩
      rcases mem_map.mp (hnames _ (mem_map_of_mem hg)) with ⟨g', hg', hname⟩
      rcases hfields g' hg' with ⟨w, hw, hnormal⟩
      -- a name has one field
      have hsame : (g'.1, w) = g := inj_on_of_nodup_map hnodup hw hg hname
      exact mem_map.mpr ⟨g', hg', by rw [hnormal, ← hsame]⟩
  · intro h
    constructor
    · intro k hk
      rcases mem_map.mp hk with ⟨g, hg, rfl⟩
      rcases mem_map.mp ((h _).mpr (mem_map_of_mem hg)) with ⟨g', hg', heq⟩
      exact mem_map.mpr ⟨g', hg', (Prod.mk.inj heq).1⟩
    · intro f hf
      rcases mem_map.mp ((h _).mp (mem_map_of_mem hf)) with ⟨g, hg, heq⟩
      exact ⟨g.2, by rw [← (Prod.mk.inj heq).1]; exact hg, (Prod.mk.inj heq).2.symm⟩

mutual

/-- Documents are the same when their values are, names in order. -/
theorem same_iff : ∀ v w : Any, v.WellFormed → w.WellFormed → (v.Same w ↔ v.normal = w.normal)
  | .null, w, _, _ | .bool _, w, _, _ | .string _, w, _, _ => by
    cases w <;> simp [Any.Same, Any.integer, Any.normal, Any.value, sortKeys]
  | .number _, w, _, _ | .int _, w, _, _ => by
    cases w <;> simp [Any.Same, Any.integer, Any.normal, Any.value, sortKeys] <;> exact eq_comm
  | .slice items, w, hv, hw => by
    cases w with
    | slice items' =>
      rw [Any.Same, normal_slice, normal_slice, Json.arr.injEq]
      exact sameItems_iff items items' hv hw
    | _ => simp [Any.Same, Any.integer, Any.normal, Any.value, sortKeys]
  | .map fields, w, hv, hw => by
    cases w with
    | map fields' =>
      have hwf := wellFormedFields_iff.mp hw.2
      rw [Any.Same, normal_map, normal_map, Json.obj.injEq, inOrder_eq_iff
        (by rw [names_normal]; exact hv.1) (by rw [names_normal]; exact hw.1),
        sameFields_iff fields fields' hv.2 hwf]
      exact fields_iff hw.1
    | _ => simp [Any.Same, Any.integer, Any.normal, Any.value, sortKeys]

theorem sameItems_iff : ∀ items items' : List Any, Any.WellFormedItems items →
    Any.WellFormedItems items' →
    (Any.SameItems items items' ↔ items.map Any.normal = items'.map Any.normal)
  | [], [], _, _ => by simp [Any.SameItems]
  | [], _ :: _, _, _ => by simp [Any.SameItems]
  | _ :: _, [], _, _ => by simp [Any.SameItems]
  | v :: rest, w :: rest', hv, hw => by
    rw [Any.SameItems, same_iff v w hv.1 hw.1, sameItems_iff rest rest' hv.2 hw.2, map_cons,
      map_cons, List.cons.injEq]

theorem sameFields_iff : ∀ fields fields' : List (String × Any), Any.WellFormedFields fields →
    (∀ f ∈ fields', f.2.WellFormed) →
    (Any.SameFields fields fields' ↔ ∀ f ∈ fields, ∃ w, (f.1, w) ∈ fields' ∧ f.2.normal = w.normal)
  | [], _, _, _ => by simp [Any.SameFields]
  | (k, v) :: rest, fields', hv, hw => by
    rw [Any.SameFields, sameFields_iff rest fields' hv.2 hw, forall_mem_cons]
    refine and_congr_left' (exists_congr (fun w => and_congr_right (fun hmem => ?_)))
    exact same_iff v w hv.1 (hw _ hmem)

end

theorem canonical_eq_normal {v : Any} (h : v.WellFormed) : v.canonical = Python.canonical v.normal := by
  rw [canonical_eq h, go_canonical_eq, Python.canonical, Python.canonicalText, Python.canonical,
    Python.canonicalText, sortKeys_of_ordered _ (normal_ordered v h)]
  rfl

/-- Documents with the same bytes are the same. -/
theorem canonical_eq_iff {v w : Any} (hv : v.WellFormed) (hw : w.WellFormed) :
    v.canonical = w.canonical ↔ v.Same w := by
  rw [same_iff v w hv hw, canonical_eq_normal hv, canonical_eq_normal hw]
  exact ⟨canonical_injective (normal_ordered v hv) (normal_ordered w hw), fun h => by rw [h]⟩

end Go

end Regalia.Membership
