import Regalia.Data.JsonText

/-!
# JSON With Blanks

The text `json.dumps` writes when it is given no separators: a blank after
every comma and every colon. What is wanted of it is its length, so that a
reader with a limit can be shown to take what was written.

## Main definitions

* `Json.spaced`: The text of a value.

## Theorems

* `Json.length_spaced_arr_le`, `Json.length_spaced_obj_le`: The length of a
  list and of an object, from those of what they hold.
* `length_printInt_le`: The length of a number.
-/

namespace Regalia

theorem length_printInt_le (n : Int) :
    (printInt n).length ≤ (Nat.toDigits 10 n.natAbs).length + 1 := by
  unfold printInt
  split
  · exact Nat.le_of_eq List.length_cons
  · omega

namespace Json

variable {σ : Type} (q : Quoting σ)

mutual

/-- The text of a value, with a blank after every comma and colon. -/
def spaced : Json σ → List Char
  | null => ['n', 'u', 'l', 'l']
  | bool true => ['t', 'r', 'u', 'e']
  | bool false => ['f', 'a', 'l', 's', 'e']
  | num n => printInt n
  | str s => '"' :: q.body s
  | arr [] => ['[', ']']
  | arr (v :: vs) => '[' :: (spaced v ++ spacedItems vs)
  | obj [] => ['{', '}']
  | obj ((k, v) :: fs) => '{' :: '"' :: (q.body k ++ ':' :: ' ' :: (spaced v ++ spacedFields fs))

/-- The items after the first, and the closing bracket. -/
def spacedItems : List (Json σ) → List Char
  | [] => [']']
  | v :: vs => ',' :: ' ' :: (spaced v ++ spacedItems vs)

/-- The fields after the first, and the closing brace. -/
def spacedFields : List (σ × Json σ) → List Char
  | [] => ['}']
  | (k, v) :: fs =>
    ',' :: ' ' :: '"' :: (q.body k ++ ':' :: ' ' :: (spaced v ++ spacedFields fs))

end

theorem length_spacedItems (vs : List (Json σ)) :
    (spacedItems q vs).length = 1 + (vs.map (fun v => (spaced q v).length + 2)).sum := by
  induction vs with
  | nil => simp [spacedItems]
  | cons v vs ih =>
    simp [spacedItems, ih]
    omega

theorem length_spacedFields (fs : List (σ × Json σ)) :
    (spacedFields q fs).length =
      1 + (fs.map (fun f => (q.body f.1).length + (spaced q f.2).length + 5)).sum := by
  induction fs with
  | nil => simp [spacedFields]
  | cons f fs ih =>
    simp [spacedFields, ih]
    omega

theorem length_spaced_arr_le (vs : List (Json σ)) :
    (spaced q (arr vs)).length ≤ 2 + (vs.map (fun v => (spaced q v).length + 2)).sum := by
  cases vs with
  | nil => simp [spaced]
  | cons v vs =>
    simp [spaced, length_spacedItems]
    omega

theorem length_spaced_obj_le (fs : List (σ × Json σ)) :
    (spaced q (obj fs)).length ≤
      2 + (fs.map (fun f => (q.body f.1).length + (spaced q f.2).length + 5)).sum := by
  cases fs with
  | nil => simp [spaced]
  | cons f fs =>
    simp [spaced, length_spacedFields]
    omega

end Json

end Regalia
