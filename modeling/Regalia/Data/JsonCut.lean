import Mathlib.Data.List.TakeWhile
import Regalia.Data.GoString

/-!
# JSON Cut Short

What a reader of JSON makes of a text that ends too early, or goes on too
long. A reader that found a value has looked at the text up to the value's
end and no further, a number apart, which ends where the next character says
so. That is `Json.parse_steady`: a text that goes on is read alike.

From it, a printed object that is cut anywhere before its closing brace is no
value. The reader of a byte string may find stray bytes at the cut, so the
statement allows characters outside ASCII after it.

## Main definitions

* `Quoting.Steady`: Strings are read up to their closing quote.
* `GoString.text`: The characters a decoder reads of a byte string.

## Theorems

* `Json.parse_steady`: What was read of a text is read alike when it goes on.
* `Json.parseValue_cut`: The beginning of a printed object is no value.
* `goQuoting_steady`: `encoding/json` reads strings up to their closing quote.
* `GoString.take_ofRunes`: A text cut at a byte is its first characters, and
  bytes outside ASCII.
* `goPrint_cut`, `goPrint_trailing`: What is read of the bytes of an object
  that are cut short, or that another object follows.
-/

namespace Regalia

open List
open Option (map_eq_some_iff)

open GoString (ofRunes)

/-- A string that was read is read alike when the text goes on. -/
def Quoting.Steady {σ : Type} (q : Quoting σ) : Prop :=
  ∀ text s rest, q.read text = some (s, rest) →
    rest <:+ text ∧ ∀ more, q.read (text ++ more) = some (s, rest ++ more)

/-! ### Numbers -/

variable {rest : List Char} {c : Char}

theorem readNat_steady {text : List Char} {n : Nat} (h : readNat (c :: text) = some (n, rest)) :
    c.isDigit = true ∧ rest <:+ text ∧
      ∀ more, rest ≠ [] → readNat (c :: (text ++ more)) = some (n, rest ++ more) := by
  have hc : c.isDigit = true := by
    by_contra hc
    simp [readNat, hc] at h
  unfold readNat at h
  simp only at h
  split at h
  · cases h
  rename_i hdigits
  split at h
  · cases h
  rename_i hend
  obtain ⟨rfl, hrest⟩ := Prod.mk.inj (Option.some.inj h)
  refine ⟨hc, ?_, ?_⟩
  · rw [← hrest, dropWhile_cons_of_pos hc]
    exact dropWhile_suffix _
  · intro more hne
    have htake : (c :: (text ++ more)).takeWhile Char.isDigit =
        (c :: text).takeWhile Char.isDigit := by
      have hlength := congrArg List.length
        (takeWhile_append_dropWhile (p := Char.isDigit) (l := c :: text))
      have hpos := length_pos_iff.mpr hne
      rw [length_append, hrest] at hlength
      rw [← cons_append, takeWhile_append, if_neg (by omega)]
    have hdrop : (c :: (text ++ more)).dropWhile Char.isDigit = rest ++ more := by
      rw [← cons_append, dropWhile_append, hrest, if_neg (by simpa using hne)]
    rw [hrest] at hend
    simp only [readNat, htake, hdrop, if_neg hdigits, head?_append_of_ne_nil _ hne,
      if_neg hend]

theorem readInt_steady {text : List Char} {n : Int} (h : readInt (c :: text) = some (n, rest)) :
    (c = '-' ∨ c.isDigit = true) ∧ rest <:+ text ∧
      ∀ more, rest ≠ [] → readInt (c :: (text ++ more)) = some (n, rest ++ more) := by
  unfold readInt at h ⊢
  split at h
  · rename_i text' heq
    obtain ⟨rfl, rfl⟩ := List.cons.inj heq
    obtain ⟨⟨m, r⟩, hread, ⟨⟩⟩ := map_eq_some_iff.mp h
    cases text with
    | nil => cases hread
    | cons d text =>
      obtain ⟨-, hsuffix, hmore⟩ := readNat_steady hread
      refine ⟨.inl rfl, hsuffix.trans (suffix_cons d text), fun more hne => ?_⟩
      simp only [cons_append, hmore more hne, Option.map_some]
  · rename_i hminus
    obtain ⟨⟨m, r⟩, hread, ⟨⟩⟩ := map_eq_some_iff.mp h
    obtain ⟨hdigit, hsuffix, hmore⟩ := readNat_steady hread
    refine ⟨.inr hdigit, hsuffix, fun more hne => ?_⟩
    split
    · rename_i heq
      exact absurd (List.cons.inj heq).1 (fun hc => hminus text (hc ▸ rfl))
    · rw [hmore more hne, Option.map_some]

namespace Json

variable {σ : Type} (q : Quoting σ)

/-! ### Blanks and names -/

theorem skipBlanks_suffix (text : List Char) : skipBlanks text <:+ text :=
  dropWhile_suffix _

theorem skipBlanks_append {text : List Char} (h : skipBlanks text = c :: rest)
    (more : List Char) : skipBlanks (text ++ more) = c :: (rest ++ more) := by
  rw [skipBlanks] at h ⊢
  rw [dropWhile_append, h]
  rfl

theorem head?_skipBlanks_append {text : List Char} (h : skipBlanks text ≠ [])
    (more : List Char) : (skipBlanks (text ++ more)).head? = (skipBlanks text).head? := by
  obtain ⟨c, rest, hskip⟩ := exists_cons_of_ne_nil h
  rw [skipBlanks_append hskip, hskip, head?_cons, head?_cons]

/-- What follows the first character behind the blanks is behind the text. -/
theorem suffix_of_skipBlanks {text tail : List Char}
    (h : skipBlanks text = c :: rest) (htail : tail <:+ rest) : tail <:+ text :=
  htail.trans ((suffix_cons c rest).trans (h ▸ skipBlanks_suffix text))

theorem readName_steady (hq : q.Steady) {text : List Char} {k : σ}
    (h : readName q text = some (k, rest)) :
    rest <:+ text ∧ ∀ more, readName q (text ++ more) = some (k, rest ++ more) ∧
      (skipBlanks (text ++ more)).head? = some '"' := by
  unfold readName at h
  split at h
  · rename_i quoted hskip
    split at h
    · rename_i k' afterName hread
      split at h
      · rename_i r hcolon
        obtain ⟨rfl, rfl⟩ := Prod.mk.inj (Option.some.inj h)
        obtain ⟨hsuffix, hmore⟩ := hq quoted k' afterName hread
        refine ⟨suffix_of_skipBlanks hskip ((suffix_of_skipBlanks hcolon
          suffix_rfl).trans hsuffix), fun more => ⟨?_, ?_⟩⟩
        · simp only [readName, skipBlanks_append hskip, hmore, skipBlanks_append hcolon]
        · rw [skipBlanks_append hskip, head?_cons]
      · cases h
    · cases h
  · cases h

/-! ### Values -/

/-- A value was read off the front of a text, which holds more than blanks.
    What is left is behind it, after the brace if the text starts with one, and
    is longer when the text goes on. A number that ends the text may go on. -/
def Steady (fuel : Nat) (text : List Char) (v : Json σ) (rest : List Char) : Prop :=
  skipBlanks text ≠ [] ∧ rest <:+ text ∧
    (text.head? = some '{' → '}' :: rest <:+ text ∧ ∀ n, v ≠ num n) ∧
    ∀ fuel' more, fuel ≤ fuel' → (rest = [] → ∀ n, v ≠ num n) →
      parseValue q fuel' (text ++ more) = some (v, rest ++ more)

/-- The same for what follows the first item or field, up to the bracket. -/
def ListSteady {α : Type} (parse : Nat → List Char → Option (List α × List Char))
    (bracket : Char) (fuel : Nat) (text : List Char) (l : List α) (rest : List Char) : Prop :=
  bracket :: rest <:+ text ∧
    ∀ fuel' more, fuel ≤ fuel' → parse fuel' (text ++ more) = some (l, rest ++ more)

/-- A text read from its first character that is no blank. -/
theorem steady_of_skipBlanks {fuel : Nat} {text tail : List Char} {v : Json σ}
    (hskip : skipBlanks text = c :: tail) (hsuffix : rest <:+ tail)
    (hbrace : c ≠ '{' ∨ ('}' :: rest <:+ tail ∧ ∀ n, v ≠ num n))
    (hread : ∀ fuel' more, fuel ≤ fuel' → (rest = [] → ∀ n, v ≠ num n) →
      ∀ t, skipBlanks t = c :: (tail ++ more) →
        parseValue q (fuel' + 1) t = some (v, rest ++ more)) : Steady q (fuel + 1) text v rest := by
  refine ⟨hskip ▸ cons_ne_nil _ _, suffix_of_skipBlanks hskip hsuffix, ?_, ?_⟩
  · intro hhead
    obtain ⟨t, rfl⟩ := head?_eq_some_iff.mp hhead
    rw [skipBlanks_cons _ _ (by decide)] at hskip
    obtain ⟨hsuf, hnum⟩ := hbrace.resolve_left (not_not.mpr (List.cons.inj hskip).1.symm)
    rw [(List.cons.inj hskip).2]
    exact ⟨hsuf.trans (suffix_cons _ _), hnum⟩
  · intro fuel' more hle hnum
    cases fuel' with
    | zero => omega
    | succ fuel' => exact hread fuel' more (by omega) hnum _ (skipBlanks_append hskip more)

section Step

variable {fuel : Nat}
  (ihValue : ∀ text v rest, parseValue q fuel text = some (v, rest) → Steady q fuel text v rest)
  (ihItems : ∀ text vs rest, parseItems q fuel text = some (vs, rest) →
    ListSteady (parseItems q) ']' fuel text vs rest)
  (ihFields : ∀ text fs rest, parseFields q fuel text = some (fs, rest) →
    ListSteady (parseFields q) '}' fuel text fs rest)

include ihValue

/-- A value and what follows it up to the bracket. -/
theorem value_steady {α : Type} {parse : Nat → List Char → Option (List α × List Char)}
    {bracket : Char} {text last : List Char} {v : Json σ} {l : List α}
    (hvalue : parseValue q fuel text = some (v, rest))
    (hl : ListSteady parse bracket fuel rest l last) :
    bracket :: last <:+ text ∧ ∀ fuel' more, fuel ≤ fuel' →
      parseValue q fuel' (text ++ more) = some (v, rest ++ more) ∧
        parse fuel' (rest ++ more) = some (l, last ++ more) := by
  obtain ⟨-, hsuffix, -, hread⟩ := ihValue text v rest hvalue
  refine ⟨hl.1.trans hsuffix, fun fuel' more hle => ⟨hread fuel' more hle ?_, hl.2 fuel' more hle⟩⟩
  rintro rfl
  exact absurd (suffix_nil.mp hl.1) (cons_ne_nil _ _)

include ihItems in
theorem parseItems_step (text : List Char) (vs : List (Json σ)) (rest : List Char)
    (h : parseItems q (fuel + 1) text = some (vs, rest)) :
    ListSteady (parseItems q) ']' (fuel + 1) text vs rest := by
  rw [parseItems] at h
  split at h
  · rename_i r hskip
    cases h
    refine ⟨hskip ▸ skipBlanks_suffix text, ?_⟩
    rintro (_ | fuel') more hle
    · omega
    · rw [parseItems, skipBlanks_append hskip]
      rfl
  · rename_i r hskip
    split at h
    · rename_i v r' hvalue
      obtain ⟨⟨vs', r''⟩, hitems, ⟨⟩⟩ := map_eq_some_iff.mp h
      obtain ⟨hsuffix, hread⟩ := value_steady q ihValue hvalue (ihItems r' vs' r'' hitems)
      refine ⟨suffix_of_skipBlanks hskip hsuffix, ?_⟩
      rintro (_ | fuel') more hle
      · omega
      · obtain ⟨hv, hvs⟩ := hread fuel' more (by omega)
        simp only [parseItems, skipBlanks_append hskip, hv, hvs, Option.map_some]
    · cases h
  · cases h

include ihFields

theorem parseFields_step (hq : q.Steady) (text : List Char) (fs : List (σ × Json σ))
    (rest : List Char) (h : parseFields q (fuel + 1) text = some (fs, rest)) :
    ListSteady (parseFields q) '}' (fuel + 1) text fs rest := by
  rw [parseFields] at h
  split at h
  · rename_i r hskip
    cases h
    refine ⟨hskip ▸ skipBlanks_suffix text, ?_⟩
    rintro (_ | fuel') more hle
    · omega
    · rw [parseFields, skipBlanks_append hskip]
      rfl
  · rename_i r hskip
    split at h
    · rename_i k r' hname
      split at h
      · rename_i v r'' hvalue
        obtain ⟨⟨fs', last⟩, hfields, ⟨⟩⟩ := map_eq_some_iff.mp h
        obtain ⟨hafter, hread'⟩ := readName_steady q hq hname
        obtain ⟨hsuffix, hread⟩ := value_steady q ihValue hvalue (ihFields r'' fs' last hfields)
        refine ⟨suffix_of_skipBlanks hskip (hsuffix.trans hafter), ?_⟩
        rintro (_ | fuel') more hle
        · omega
        · obtain ⟨hv, hfs⟩ := hread fuel' more (by omega)
          simp only [parseFields, skipBlanks_append hskip, (hread' more).1, hv, hfs,
            Option.map_some]
      · cases h
    · cases h
  · cases h

include ihItems in
theorem parseValue_step (hq : q.Steady) (text : List Char) (v : Json σ) (rest : List Char)
    (h : parseValue q (fuel + 1) text = some (v, rest)) : Steady q (fuel + 1) text v rest := by
  rw [parseValue] at h
  split at h
  case h_1 =>
    rename_i r hskip
    cases h
    refine steady_of_skipBlanks q hskip ⟨['u', 'l', 'l'], rfl⟩ (.inl (by decide)) ?_
    intro fuel' more _ _ t ht
    simp only [parseValue, ht, cons_append]
  case h_2 =>
    rename_i r hskip
    cases h
    refine steady_of_skipBlanks q hskip ⟨['r', 'u', 'e'], rfl⟩ (.inl (by decide)) ?_
    intro fuel' more _ _ t ht
    simp only [parseValue, ht, cons_append]
  case h_3 =>
    rename_i r hskip
    cases h
    refine steady_of_skipBlanks q hskip ⟨['a', 'l', 's', 'e'], rfl⟩ (.inl (by decide)) ?_
    intro fuel' more _ _ t ht
    simp only [parseValue, ht, cons_append]
  case h_4 =>
    rename_i r hskip
    obtain ⟨⟨s, r'⟩, hread, ⟨⟩⟩ := map_eq_some_iff.mp h
    obtain ⟨hsuffix, hmore⟩ := hq r s r' hread
    refine steady_of_skipBlanks q hskip hsuffix (.inl (by decide)) ?_
    intro fuel' more _ _ t ht
    simp only [parseValue, ht, hmore, Option.map_some]
  case h_5 =>
    rename_i r hskip
    split at h
    · rename_i hclose
      cases h
      obtain ⟨r', hr'⟩ := head?_eq_some_iff.mp hclose
      refine steady_of_skipBlanks q hskip ((tail_suffix _).trans (skipBlanks_suffix r))
        (.inl (by decide)) ?_
      intro fuel' more _ _ t ht
      simp only [parseValue, ht, skipBlanks_append hr', hr', head?_cons, tail_cons, if_true]
    · rename_i hclose
      split at h
      · rename_i w r' hvalue
        obtain ⟨⟨vs, r''⟩, hitems, ⟨⟩⟩ := map_eq_some_iff.mp h
        obtain ⟨hsuffix, hread⟩ := value_steady q ihValue hvalue (ihItems r' vs r'' hitems)
        refine steady_of_skipBlanks q hskip ((suffix_cons _ _).trans hsuffix)
          (.inl (by decide)) ?_
        intro fuel' more hle _ t ht
        obtain ⟨hv, hvs⟩ := hread fuel' more hle
        have hopen : (skipBlanks (r ++ more)).head? ≠ some ']' := by
          rw [head?_skipBlanks_append (ihValue r w r' hvalue).1]
          exact hclose
        simp only [parseValue, ht, if_neg hopen, hv, hvs, Option.map_some]
      · cases h
  case h_6 =>
    rename_i r hskip
    split at h
    · rename_i hclose
      cases h
      obtain ⟨r', hr'⟩ := head?_eq_some_iff.mp hclose
      have hsuffix : '}' :: (skipBlanks r).tail <:+ r := by
        rw [hr', tail_cons, ← hr']
        exact skipBlanks_suffix r
      refine steady_of_skipBlanks q hskip ((suffix_cons _ _).trans hsuffix)
        (.inr ⟨hsuffix, by simp⟩) ?_
      intro fuel' more _ _ t ht
      simp only [parseValue, ht, skipBlanks_append hr', hr', head?_cons, tail_cons, if_true]
    · split at h
      · rename_i k r' hname
        split at h
        · rename_i w r'' hvalue
          obtain ⟨⟨fs, last⟩, hfields, ⟨⟩⟩ := map_eq_some_iff.mp h
          obtain ⟨hafter, hread'⟩ := readName_steady q hq hname
          obtain ⟨hsuffix, hread⟩ := value_steady q ihValue hvalue (ihFields r'' fs last hfields)
          have hclosed := hsuffix.trans hafter
          refine steady_of_skipBlanks q hskip ((suffix_cons _ _).trans hclosed)
            (.inr ⟨hclosed, by simp⟩) ?_
          intro fuel' more hle _ t ht
          obtain ⟨hv, hfs⟩ := hread fuel' more hle
          obtain ⟨hk, hquote⟩ := hread' more
          have hopen : (skipBlanks (r ++ more)).head? ≠ some '}' := by
            rw [hquote]
            decide
          simp only [parseValue, ht, if_neg hopen, hk, hv, hfs, Option.map_some]
        · cases h
      · cases h
  case h_7 =>
    obtain ⟨⟨n, r⟩, hread, ⟨⟩⟩ := map_eq_some_iff.mp h
    cases hskip : skipBlanks text with
    | nil =>
      rw [hskip] at hread
      cases hread
    | cons c tail =>
      rw [hskip] at hread
      obtain ⟨hc, hsuffix, hmore⟩ := readInt_steady hread
      refine steady_of_skipBlanks q hskip hsuffix ?_ ?_
      · refine .inl ?_
        rintro rfl
        exact absurd hc (by decide)
      · intro fuel' more _ hnum t ht
        rw [parseValue, ht]
        split
        case h_7 => rw [hmore more (fun hr => hnum hr n rfl), Option.map_some]
        -- the other branches start with a letter, a quote or a bracket
        all_goals
          rename_i heq
          injection heq with h1 _
          subst h1
          exact absurd hc (by decide)

end Step

/-- What was read off the front of a text is read alike when it goes on. -/
theorem parse_steady (hq : q.Steady) (fuel : Nat) :
    (∀ text v rest, parseValue q fuel text = some (v, rest) → Steady q fuel text v rest) ∧
    (∀ text vs rest, parseItems q fuel text = some (vs, rest) →
      ListSteady (parseItems q) ']' fuel text vs rest) ∧
    (∀ text fs rest, parseFields q fuel text = some (fs, rest) →
      ListSteady (parseFields q) '}' fuel text fs rest) := by
  induction fuel with
  | zero => exact ⟨nofun, nofun, nofun⟩
  | succ fuel ih =>
    obtain ⟨ihValue, ihItems, ihFields⟩ := ih
    exact ⟨parseValue_step q ihValue ihItems ihFields hq, parseItems_step q ihValue ihItems,
      parseFields_step q ihValue ihFields hq⟩

/-- A blank is an ASCII character. -/
theorem toNat_lt_of_isBlank (h : isBlank c = true) : c.toNat < 128 := by
  have hsmall : c = ' ' ∨ c = '\t' ∨ c = '\n' ∨ c = '\r' := by
    simpa [isBlank, or_assoc] using h
  rcases hsmall with rfl | rfl | rfl | rfl <;> decide

/-- The beginning of a printed object is no value, whatever characters
    outside ASCII follow it: a value that was found would end before the cut,
    and the whole text would be read as that value with something behind it. -/
theorem parseValue_cut (hq : q.Steady) (fields : List (σ × Json σ)) (shown : List Char) (c : Char)
    (cut stray : List Char) (hprint : print q (obj fields) = shown ++ c :: cut)
    (hshown : shown ≠ []) (hstray : ∀ d ∈ stray, 128 ≤ d.toNat) (fuel : Nat) (v : Json σ)
    (rest : List Char) (h : parseValue q fuel (shown ++ stray) = some (v, rest)) :
    skipBlanks rest ≠ [] := by
  intro hblank
  have hhead : (shown ++ stray).head? = some '{' := by
    have hbrace : (print q (obj fields)).head? = some '{' := by
      cases fields with
      | nil => rw [print, head?_cons]
      | cons f fs => rw [print, head?_cons]
    rw [head?_append_of_ne_nil _ hshown, ← head?_append_of_ne_nil _ hshown, ← hprint]
    exact hbrace
  obtain ⟨-, -, hbrace, hread⟩ := (parse_steady q hq fuel).1 _ v rest h
  obtain ⟨⟨used, hused⟩, hnum⟩ := hbrace hhead
  have hnone : stray = [] := by
    by_contra hne
    -- the last character is a stray one, and the brace or a blank
    have hlast : stray.getLast hne ∈ '}' :: rest := by
      have hsame := congrArg List.getLast? hused
      rw [getLast?_append_cons, getLast?_append_of_ne_nil _ hne,
        getLast?_eq_some_getLast hne] at hsame
      exact mem_of_getLast? hsame
    have hhigh := hstray _ (getLast_mem hne)
    rcases mem_cons.mp hlast with hd | hd
    · rw [hd] at hhigh
      exact absurd hhigh (by decide)
    · have := toNat_lt_of_isBlank (dropWhile_eq_nil_iff.mp hblank _ hd)
      omega
  -- the whole text is read up to the same place, and to its end
  have hwhole := parseValue_print q (obj fields) (fuel + (print q (obj fields)).length) []
    (by omega) (by intro d hd; cases hd)
  have hpart := hread (fuel + (print q (obj fields)).length) (c :: cut) (by omega) (fun _ => hnum)
  rw [hnone, append_nil, ← hprint] at hpart
  rw [append_nil, hpart] at hwhole
  exact absurd (Prod.mk.inj (Option.some.inj hwhole)).2 (by simp)

end Json

/-! ### Strings of `encoding/json` -/

/-- One more character in front. -/
theorem consUnit_steady (front : List Char) {text : List Char} {units : List (Bool × Char)}
    {u : Bool × Char}
    (hfront : ∀ x, readUnits (front ++ x) = (readUnits x).map (consUnit u))
    (ih : ∀ units rest, readUnits text = some (units, rest) →
      rest <:+ text ∧ ∀ more, readUnits (text ++ more) = some (units, rest ++ more))
    (h : (readUnits text).map (consUnit u) = some (units, rest)) :
    rest <:+ front ++ text ∧
      ∀ more, readUnits (front ++ text ++ more) = some (units, rest ++ more) := by
  obtain ⟨⟨units', rest'⟩, hread, ⟨⟩⟩ := map_eq_some_iff.mp h
  obtain ⟨hsuffix, hmore⟩ := ih units' rest' hread
  refine ⟨hsuffix.trans (suffix_append front text), fun more => ?_⟩
  rw [append_assoc, hfront, hmore, Option.map_some]
  rfl

/-- The inside of a literal is read alike whatever follows the quote. -/
theorem readUnits_steady (text : List Char) : ∀ units rest,
    readUnits text = some (units, rest) →
      rest <:+ text ∧ ∀ more, readUnits (text ++ more) = some (units, rest ++ more) := by
  fun_induction readUnits text with
  | case2 rest =>
    intro units r hread
    cases hread
    exact ⟨suffix_cons _ _, fun more => rfl⟩
  | case4 a b c d rest n hhex hn ih =>
    intro units r hread
    refine consUnit_steady ['\\', 'u', a, b, c, d] (fun x => ?_) ih hread
    simp only [cons_append, nil_append]
    rw [readUnits]
    simp only [hhex, if_pos hn]
    rfl
  | case6 a b c d n hhex hn e f g h rest m hhex' hm ih =>
    intro units r hread
    refine consUnit_steady ['\\', 'u', a, b, c, d, '\\', 'u', e, f, g, h] (fun x => ?_) ih hread
    simp only [cons_append, nil_append]
    rw [readUnits]
    simp only [hhex, if_neg hn, hhex', if_pos hm]
    rfl
  | case10 c rest hu d hshort ih =>
    intro units r hread
    have hne : c ≠ 'u' := by
      rintro rfl
      cases hshort
    exact consUnit_steady ['\\', c] (fun x => readUnits_short c d x hne hshort) ih hread
  | case12 c rest hq hu hb hlow ih =>
    intro units r hread
    by_cases hc : c = '\\'
    · -- a backslash with nothing behind it
      have hrest : rest = [] := by
        cases rest with
        | nil => rfl
        | cons d rest => exact (hb d rest hc rfl).elim
      subst hrest
      cases hread
    · exact consUnit_steady [c]
        (fun x => readUnits_plain c x hq hc (Nat.le_of_not_lt hlow)) ih hread
  | _ =>
    intro _ _ hread
    cases hread

theorem goQuoting_steady : goQuoting.Steady := by
  intro text s rest h
  obtain ⟨⟨units, r⟩, hread, ⟨⟩⟩ := map_eq_some_iff.mp h
  obtain ⟨hsuffix, hmore⟩ := readUnits_steady text units r hread
  refine ⟨hsuffix, fun more => ?_⟩
  change (readUnits (text ++ more)).map _ = _
  rw [hmore]
  rfl

/-! ### Bytes cut short -/

namespace GoString

open List

/-- A byte of a longer encoding is no ASCII byte. -/
theorem utf8EncodeChar_high (c : Char) (h : 128 ≤ c.toNat) :
    ∀ b ∈ String.utf8EncodeChar c, 128 ≤ b.toNat := by
  intro b hb
  have hval : ¬ c.val.toNat ≤ 0x7f := by
    change 128 ≤ c.val.toNat at h
    omega
  unfold String.utf8EncodeChar at hb
  simp only [if_neg hval] at hb
  split at hb
  · simp only [mem_cons, not_mem_nil, or_false] at hb
    rcases hb with rfl | rfl <;> rw [UInt8.toNat_ofNat'] <;> omega
  split at hb
  · simp only [mem_cons, not_mem_nil, or_false] at hb
    rcases hb with rfl | rfl | rfl <;> rw [UInt8.toNat_ofNat'] <;> omega
  · simp only [mem_cons, not_mem_nil, or_false] at hb
    rcases hb with rfl | rfl | rfl | rfl <;> rw [UInt8.toNat_ofNat'] <;> omega

theorem utf8EncodeChar_ascii (c : Char) (h : c.toNat < 128) :
    String.utf8EncodeChar c = [UInt8.ofNat c.toNat] := by
  have hval : c.val.toNat ≤ 0x7f := by
    change c.val.toNat < 128 at h
    omega
  unfold String.utf8EncodeChar
  simp only [if_pos hval]
  rfl

/-- Bytes outside ASCII spell no ASCII character. -/
theorem piecesFor_high (fuel : Nat) : ∀ s : GoString, (∀ b ∈ s, 128 ≤ b.toNat) →
    ∀ c, some c ∈ piecesFor fuel s → 128 ≤ c.toNat := by
  induction fuel with
  | zero =>
    intro s _ c hc
    cases hc
  | succ fuel ih =>
    intro s hs c hc
    cases s with
    | nil => cases hc
    | cons b rest =>
      cases hdec : ((b :: rest).take 4).toByteArray.utf8DecodeChar? 0 with
      | none =>
        simp only [piecesFor, hdec, mem_cons] at hc
        rcases hc with hc | hc
        · cases hc
        · exact ih rest (fun d hd => hs d (mem_cons_of_mem _ hd)) c hc
      | some d =>
        simp only [piecesFor, hdec, mem_cons] at hc
        rcases hc with hc | hc
        · -- the encoding of an ASCII character would be its one byte
          by_contra hlow
          have hd : d.toNat < 128 := by
            rw [← Option.some.inj hc]
            omega
          have henc := utf8EncodeChar_of_decode (b :: rest) d hdec
          rw [utf8EncodeChar_ascii d hd] at henc
          have hmem : UInt8.ofNat d.toNat ∈ b :: rest :=
            mem_of_mem_take (henc ▸ mem_singleton_self _)
          have := hs _ hmem
          rw [UInt8.toNat_ofNat'] at this
          omega
        · exact ih _ (fun e he => hs e (mem_of_mem_drop he)) c hc

/-- A text cut at a byte is its first characters, and some bytes of the next
    one. -/
theorem take_ofRunes (cs : List Char) : ∀ n, n < (ofRunes cs).length →
    ∃ shown c cut part, cs = shown ++ c :: cut ∧ (ofRunes cs).take n = ofRunes shown ++ part ∧
      ∀ b ∈ part, 128 ≤ b.toNat := by
  induction cs with
  | nil =>
    intro n hn
    exact absurd hn (Nat.not_lt_zero n)
  | cons c cs ih =>
    intro n hn
    have hcons : ofRunes (c :: cs) = String.utf8EncodeChar c ++ ofRunes cs := by
      simp only [ofRunes, flatMap_cons]
    rw [hcons] at hn ⊢
    by_cases hlt : n < (String.utf8EncodeChar c).length
    · -- the cut is inside the first character
      refine ⟨[], c, cs, (String.utf8EncodeChar c).take n, rfl, ?_, ?_⟩
      · rw [take_append_of_le_length (Nat.le_of_lt hlt)]
        rfl
      · by_cases hhigh : 128 ≤ c.toNat
        · exact fun b hb => utf8EncodeChar_high c hhigh b (mem_of_mem_take hb)
        · rw [utf8EncodeChar_ascii c (by omega), length_singleton] at hlt
          rw [Nat.lt_one_iff.mp hlt]
          intro b hb
          cases hb
    · rw [length_append] at hn
      rcases ih (n - (String.utf8EncodeChar c).length) (by omega) with
        ⟨shown, d, cut, part, hcs, htake, hpart⟩
      refine ⟨c :: shown, d, cut, part, by rw [hcs, cons_append], ?_, hpart⟩
      rw [take_append, take_of_length_le (by omega), htake, ← append_assoc]
      simp only [ofRunes, flatMap_cons]

/-- What a decoder reads of a string: a replacement character for every byte
    that is none. -/
def text (s : GoString) : List Char := s.pieces.map (fun p => p.getD runeError)

theorem text_ofRunes (cs : List Char) : text (ofRunes cs) = cs := by
  rw [text, pieces_ofRunes, map_map]
  exact map_id _

theorem text_append (cs : List Char) (s : GoString) :
    ∃ rest, text (ofRunes cs ++ s) = cs ++ rest ∧
      ((∀ b ∈ s, 128 ≤ b.toNat) → ∀ c ∈ rest, 128 ≤ c.toNat) := by
  rcases piecesFor_append cs s _ (Nat.le_refl _) with ⟨fuel, _, hpieces⟩
  refine ⟨(piecesFor fuel s).map (fun p => p.getD runeError), ?_, ?_⟩
  · rw [text, pieces, hpieces, map_append, map_map]
    congr 1
    exact map_id _
  · intro hs c hc
    rcases mem_map.mp hc with ⟨p, hp, rfl⟩
    cases p with
    | none => exact (by decide : 128 ≤ runeError.toNat)
    | some c => exact piecesFor_high fuel s hs c hp

end GoString

/-! ### The bytes of an object -/

theorem ofRunes_plain (cs : List Char) (h : ∀ c ∈ cs, 0x20 ≤ c.toNat) :
    ∀ b ∈ ofRunes cs, 0x20 ≤ b.toNat := by
  intro b hb
  rcases mem_flatMap.mp hb with ⟨c, hc, hbc⟩
  by_cases hlow : c.toNat < 128
  · rw [GoString.utf8EncodeChar_ascii c hlow] at hbc
    rw [mem_singleton.mp hbc, UInt8.toNat_ofNat', Nat.mod_eq_of_lt (by omega)]
    exact h c hc
  · have := GoString.utf8EncodeChar_high c (by omega) b hbc
    omega

theorem print_object_brace (fields : List (Literal × Json Literal)) :
    ∃ rest, Json.print goQuoting (.obj fields) = '{' :: rest := by
  cases fields with
  | nil => exact ⟨_, by rw [Json.print]⟩
  | cons f fs => exact ⟨_, by rw [Json.print]⟩

/-- The bytes of an object start with a brace. -/
theorem ofRunes_object_brace (fields : List (Literal × Json Literal)) :
    ∃ rest, ofRunes (Json.print goQuoting (.obj fields)) = 123 :: rest := by
  rcases print_object_brace fields with ⟨rest, hrest⟩
  exact ⟨ofRunes rest, by rw [hrest]; rfl⟩

/-- The beginning of an object's bytes is no value. -/
theorem goPrint_cut (fields : List (Literal × Json Literal)) (n : Nat) (h0 : 0 < n)
    (hn : n < (ofRunes (Json.print goQuoting (.obj fields))).length) (fuel : Nat)
    (v : Json Literal) (rest : List Char) (h : Json.parseValue goQuoting fuel
      (GoString.text ((ofRunes (Json.print goQuoting (.obj fields))).take n)) =
        some (v, rest)) : Json.skipBlanks rest ≠ [] := by
  rcases ofRunes_object_brace fields with ⟨brest, hbrace⟩
  rcases GoString.take_ofRunes _ n hn with ⟨shown, c, cut, part, hsplit, htake, hpart⟩
  rcases GoString.text_append shown part with ⟨stray, hread, hstray⟩
  have hshown : shown ≠ [] := by
    -- the first byte is the brace, which is no stray byte
    rintro rfl
    have hfirst : (123 : UInt8) ∈ part := by
      rw [hbrace] at htake
      cases n with
      | zero => omega
      | succ n =>
        have htake : (123 : UInt8) :: brest.take n = part := htake
        rw [← htake]
        exact mem_cons_self
    exact absurd (hpart 123 hfirst) (by decide)
  rw [htake, hread] at h
  exact Json.parseValue_cut goQuoting goQuoting_steady fields shown c cut stray hsplit hshown
    (hstray hpart) _ v rest h

/-- An object's bytes and the beginning of another's are read as the first,
    and something is left. -/
theorem goPrint_trailing (fields : List (Literal × Json Literal)) (more : GoString)
    (v : Json Literal) (rest : List Char) (h : Json.parseValue goQuoting
      ((GoString.text (ofRunes (Json.print goQuoting (.obj fields)) ++ 123 :: more)).length
        + 1)
      (GoString.text (ofRunes (Json.print goQuoting (.obj fields)) ++ 123 :: more)) =
        some (v, rest)) : Json.skipBlanks rest ≠ [] := by
  rcases GoString.text_append (Json.print goQuoting (.obj fields) ++ ['{']) more with
    ⟨tail, hread, _⟩
  have hsame : ofRunes (Json.print goQuoting (.obj fields)) ++ 123 :: more =
      ofRunes (Json.print goQuoting (.obj fields) ++ ['{']) ++ more := by
    rw [ofRunes, ofRunes, flatMap_append, append_assoc]
    rfl
  rw [hsame, hread, append_assoc, singleton_append] at h
  have hwhole := Json.parseValue_print goQuoting (.obj fields)
    ((Json.print goQuoting (.obj fields) ++ '{' :: tail).length + 1) ('{' :: tail)
    (by rw [length_append]; omega) (Json.endsNumber_cons '{' tail (by decide))
  rw [h] at hwhole
  rw [(Prod.mk.inj (Option.some.inj hwhole)).2, Json.skipBlanks_cons _ _ (by decide)]
  exact cons_ne_nil _ _

end Regalia
