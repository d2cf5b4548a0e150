import Mathlib.Data.List.Basic

/-!
# Texts as Lines

A text in lines, each ended by a terminator, with whatever follows the last
one: an unfinished line, or nothing. The text is over any alphabet, so that a
file of bytes and a file of characters are cut the same way.

## Main definitions

* `splitLines`: The finished lines of a text and the rest.
* `joinLines`: A text of finished lines.
* `Ended`: A text whose last line is finished.

## Theorems

* `splitLines_line`: A text that begins with a line.
* `splitLines_joinLines_append`: Finished lines in front of a text.
* `splitLines_joinLines`: The lines a text was made of are the lines it has.
* `joinLines_splitLines`: A text is made of its lines and the rest.
* `Ended.splitLines_append`: What follows a finished text.
-/

namespace Regalia

open List

variable {α : Type*} [DecidableEq α]

/-- The finished lines of a text, without their terminators, and what follows
    the last of them. -/
def splitLines (nl : α) : List α → List (List α) × List α
  | [] => ([], [])
  | c :: cs =>
    let p := splitLines nl cs
    if c = nl then ([] :: p.1, p.2)
    else
      match p.1 with
      | [] => ([], c :: p.2)
      | l :: ls => ((c :: l) :: ls, p.2)

/-- The text of finished lines. -/
def joinLines (nl : α) (ls : List (List α)) : List α := ls.flatMap (· ++ [nl])

variable (nl : α)

theorem splitLines_line (l text : List α) (h : nl ∉ l) :
    splitLines nl (l ++ nl :: text) = (l :: (splitLines nl text).1, (splitLines nl text).2) := by
  induction l with
  | nil => simp [splitLines]
  | cons c cs ih =>
    have hc : c ≠ nl := fun hc => h (hc ▸ mem_cons_self)
    have hcs := ih (fun hmem => h (mem_cons_of_mem _ hmem))
    simp only [cons_append, splitLines, hcs, if_neg hc]

theorem splitLines_rest (l : List α) (h : nl ∉ l) : splitLines nl l = ([], l) := by
  induction l with
  | nil => rfl
  | cons c cs ih =>
    have hc : c ≠ nl := fun hc => h (hc ▸ mem_cons_self)
    have hcs := ih (fun hmem => h (mem_cons_of_mem _ hmem))
    simp only [splitLines, hcs, if_neg hc]

/-- Finished lines in front of a text are its first lines. -/
theorem splitLines_joinLines_append (ls : List (List α)) (text : List α) (hls : ∀ l ∈ ls, nl ∉ l) :
    splitLines nl (joinLines nl ls ++ text) =
      (ls ++ (splitLines nl text).1, (splitLines nl text).2) := by
  induction ls with
  | nil => rfl
  | cons l ls ih =>
    have htail := ih (fun l' hl' => hls l' (mem_cons_of_mem _ hl'))
    have htext : joinLines nl (l :: ls) ++ text = l ++ nl :: (joinLines nl ls ++ text) := by
      simp [joinLines]
    rw [htext, splitLines_line nl l _ (hls l mem_cons_self), htail]
    rfl

theorem splitLines_joinLines (ls : List (List α)) (rest : List α)
    (hls : ∀ l ∈ ls, nl ∉ l) (hrest : nl ∉ rest) :
    splitLines nl (joinLines nl ls ++ rest) = (ls, rest) := by
  rw [splitLines_joinLines_append nl ls rest hls, splitLines_rest nl rest hrest, append_nil]

omit [DecidableEq α] in
theorem joinLines_append (ls ls' : List (List α)) :
    joinLines nl (ls ++ ls') = joinLines nl ls ++ joinLines nl ls' := flatMap_append

omit [DecidableEq α] in
theorem joinLines_singleton (l : List α) : joinLines nl [l] = l ++ [nl] := by
  simp [joinLines]

theorem joinLines_splitLines (text : List α) :
    joinLines nl (splitLines nl text).1 ++ (splitLines nl text).2 = text := by
  induction text with
  | nil => rfl
  | cons c cs ih =>
    unfold splitLines
    simp only
    split
    · rename_i hc
      rw [hc, joinLines, flatMap_cons, nil_append, append_assoc]
      exact congrArg (nl :: ·) ih
    · split
      · rename_i hnone
        rw [hnone] at ih
        exact congrArg (c :: ·) ih
      · rename_i l ls hlines
        rw [hlines] at ih
        exact congrArg (c :: ·) ih

/-- No line holds a terminator. -/
theorem notMem_splitLines (text : List α) :
    (∀ l ∈ (splitLines nl text).1, nl ∉ l) ∧ nl ∉ (splitLines nl text).2 := by
  induction text with
  | nil => exact ⟨nofun, nofun⟩
  | cons c cs ih =>
    unfold splitLines
    simp only
    split
    · refine ⟨fun l hl => ?_, ih.2⟩
      rcases mem_cons.mp hl with rfl | hl
      · exact not_mem_nil
      · exact ih.1 l hl
    · rename_i hc
      have hcons : ∀ l : List α, nl ∉ l → nl ∉ c :: l := by
        intro l hl hmem
        rcases mem_cons.mp hmem with rfl | hmem
        · exact hc rfl
        · exact hl hmem
      split
      · exact ⟨nofun, hcons _ ih.2⟩
      · rename_i l ls hlines
        rw [hlines] at ih
        refine ⟨fun l' hl' => ?_, ih.2⟩
        rcases mem_cons.mp hl' with rfl | hl'
        · exact hcons l (ih.1 l mem_cons_self)
        · exact ih.1 l' (mem_cons_of_mem _ hl')

/-- A text whose last line is finished. -/
def Ended (nl : α) (text : List α) : Prop := (splitLines nl text).2 = []

theorem Ended.joinLines {nl : α} {text : List α} (h : Ended nl text) :
    joinLines nl (splitLines nl text).1 = text := by
  have hjoin := joinLines_splitLines nl text
  rw [h, append_nil] at hjoin
  exact hjoin

theorem ended_iff {nl : α} {text : List α} :
    Ended nl text ↔ text = [] ∨ text.getLast? = some nl := by
  have hjoin := joinLines_splitLines nl text
  constructor
  · intro h
    rcases eq_nil_or_concat (splitLines nl text).1 with hnil | ⟨front, last, hlast⟩
    · rw [← h.joinLines, hnil]
      exact .inl rfl
    · rw [← h.joinLines, hlast, concat_eq_append, joinLines_append, joinLines_singleton,
        ← append_assoc]
      exact .inr getLast?_concat
  · rintro (rfl | hlast)
    · rfl
    · -- an unfinished line would end the text, and has no terminator
      by_contra hrest
      have hsome :=
        getLast?_append_of_ne_nil (Regalia.joinLines nl (splitLines nl text).1) hrest
      rw [hjoin, hlast] at hsome
      exact (notMem_splitLines nl text).2 (mem_of_getLast? hsome.symm)

/-- What follows a finished text has its lines behind those of the text. -/
theorem Ended.splitLines_append {nl : α} {text : List α} (h : Ended nl text) (more : List α) :
    splitLines nl (text ++ more) =
      ((splitLines nl text).1 ++ (splitLines nl more).1, (splitLines nl more).2) := by
  have happend := splitLines_joinLines_append nl (splitLines nl text).1 more
    (notMem_splitLines nl text).1
  rw [h.joinLines] at happend
  exact happend

end Regalia
