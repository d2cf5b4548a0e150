import Regalia.Theory.Membership.Spellings

/-!
# Canonical Bytes and Back

What `Canonical` writes, `Load` reads: the document as it was, but for the
spelling of its integers and the order of its fields, which a map does not
have. So two documents with the same canonical bytes are the same, and a
signature over the bytes is one over the document.

The reading is of a printed value in front of any text, with the decoder
anywhere a value may stand; its fuel is counted in characters.

## Main definitions

* `Any.ofValue`: A value as it is read.

## Theorems

* `readValue_print`: What is read of a printed value.
* `load_canonical`: What is loaded of canonical bytes.
* `canonical_round_trip`: Loading what was written, and what it determines.
-/

namespace Regalia.Membership

open List

namespace Go

variable {stack : List Expects} {fuel depth : Nat} {rest : Literal} {e : Expects}

open GoJson

/-! ### Reading -/

mutual

/-- A value as it is read. -/
def Any.ofValue : Value → Any
  | .null => .null
  | .bool b => .bool b
  | .num n => .number (printInt n)
  | .str s => .string s
  | .arr items => .slice (Any.ofItems items)
  | .obj fields => .map (Any.ofFields fields)

def Any.ofItems : List Value → List Any
  | [] => []
  | v :: vs => Any.ofValue v :: Any.ofItems vs

def Any.ofFields : List (String × Value) → List (String × Any)
  | [] => []
  | (k, v) :: fs => (k, Any.ofValue v) :: Any.ofFields fs

end

theorem ofFields_keys (fields : List (String × Value)) :
    (Any.ofFields fields).map Prod.fst = fields.map Prod.fst := by
  induction fields with
  | nil => rfl
  | cons f rest ih => rw [Any.ofFields, map_cons, map_cons, ih]

/-- The text of a value, in front of the decoder. -/
abbrev pieces (v : Value) : Literal := (Json.print quoting v).map some

theorem readString_body (s : String) (rest : Literal) :
    readString ((quoting.body s).map some ++ rest) = some (s.toList, rest) := by
  have hread : asciiQuoting.read (quoting.body s) = some (s, []) := by
    have := quoting.read_body s []
    rwa [append_nil] at this
  rcases Option.map_eq_some_iff.mp hread with ⟨⟨units, tail⟩, hunits, hpair⟩
  rcases Prod.mk.inj hpair with ⟨hs, rfl⟩
  rw [readString_of_readUnits _ rest hunits, ← hs, String.toList_ofList]
  rfl

variable {d : Decoder} {d' : Decoder}

/-- Values are read alike where the next token is the same. -/
theorem readValue_congr {floats : Bool} (h : d.token = d'.token) :
    readValue floats fuel depth d = readValue floats fuel depth d' := by
  cases fuel with
  | zero => rfl
  | succ fuel => simp only [readValue, next, h]

theorem next_eq {token : Token} (h : d.token = .ok (token, d')) : next d = .ok (token, d') := by
  rw [next, h]
  rfl

theorem more_of_print {v : Value} : Decoder.more ⟨pieces v ++ rest, e, stack⟩ = true := by
  rcases Json.print_opens quoting v with ⟨c, t, hprint, hblank, hbracket, hbrace⟩
  rw [Decoder.more, pieces, hprint, map_cons, cons_append, skip_cons _ _ hblank]
  simp [hbracket, hbrace]

theorem stopsNumber_items (vs : List Value) (rest : Literal) :
    StopsNumber ((Json.printItems quoting vs).map some ++ rest) := by
  intro c hc
  cases vs with
  | nil =>
    cases hc
    decide
  | cons v vs =>
    rw [Json.printItems] at hc
    cases hc
    decide

theorem stopsNumber_fields (fs : List (String × Value)) (rest : Literal) :
    StopsNumber ((Json.printFields quoting fs).map some ++ rest) := by
  intro c hc
  cases fs with
  | nil =>
    cases hc
    decide
  | cons f fs =>
    rw [Json.printFields] at hc
    cases hc
    decide

/-- An integer is no fraction, and no other value. -/
theorem readValue_printInt (n : Int) (hvalue : e.value = true) (hrest : StopsNumber rest)
    (hdepth : depth ≤ maxDepth) :
    readValue false (fuel + 1) depth ⟨(printInt n).map some ++ rest, e, stack⟩ =
      .ok (.number (printInt n), ⟨rest, e.afterValue, stack⟩) := by
  have hplain : (printInt n).any (fun c => c = '.' || c = 'e' || c = 'E') = false := by
    rw [any_eq_false]
    intro c hc
    have hcases : c = '-' ∨ c.isDigit = true := by
      unfold printInt at hc
      split at hc
      · rcases mem_cons.mp hc with rfl | hmem
        · exact .inl rfl
        · exact .inr (Nat.isDigit_of_mem_toDigits (by decide) (by decide) hmem)
      · exact .inr (Nat.isDigit_of_mem_toDigits (by decide) (by decide) hc)
    rcases hcases with rfl | hdigit
    · decide
    · simp only [Bool.or_eq_true, decide_eq_true_eq]
      rintro ((rfl | rfl) | rfl) <;> revert hdigit <;> decide
  have hread := readNumber_printInt n hrest
  rcases printInt_head n with ⟨c, t, hprint, hhead⟩
  have hscalar : readScalar ((printInt n).map some ++ rest) = some (.number (printInt n), rest) := by
    rw [hprint, map_cons, cons_append] at hread ⊢
    unfold readScalar
    split
    case h_5 => rw [hread, Option.map_some]
    all_goals
      rename_i heq
      injection heq with h1 _
      rw [Option.some.inj h1] at hhead
      exact absurd hhead (by decide)
  have htoken : Decoder.token ⟨(printInt n).map some ++ rest, e, stack⟩ =
      .ok (.number (printInt n), ⟨rest, e.afterValue, stack⟩) := by
    rw [hprint, map_cons, cons_append] at hscalar ⊢
    refine token_scalar hvalue ?_ ?_ hscalar
    · rcases Json.print_opens quoting (.num n) with ⟨c', t', hprint', hblank, -⟩
      rw [Json.print, hprint] at hprint'
      rw [(List.cons.inj hprint').1]
      exact hblank
    · intro hmem
      simp only [mem_cons, not_mem_nil, or_false] at hmem
      rcases hmem with rfl | rfl | rfl | rfl <;> revert hhead <;> decide
  rw [readValue, if_neg (Nat.not_lt.mpr hdepth), next_eq htoken]
  show (if _ then _ else _) = _
  rw [hplain]
  rfl

/-- A value that is one token. -/
theorem readValue_scalar {c : Char} {text rest : Literal} {token : Token}
    (hdepth : depth ≤ maxDepth) (hvalue : e.value = true)
    (hc : Json.isBlank c = false ∧ c ∉ ['[', ']', '{', '}'])
    (hread : readScalar (some c :: text) = some (token, rest)) {v : Any}
    (hv : (token = .null ∧ v = .null) ∨ (∃ b, token = .bool b ∧ v = .bool b) ∨
      ∃ s, token = .string s ∧ v = .string (String.ofList s)) :
    readValue false (fuel + 1) depth ⟨some c :: text, e, stack⟩ =
      .ok (v, ⟨rest, e.afterValue, stack⟩) := by
  rw [readValue, if_neg (Nat.not_lt.mpr hdepth), next_eq (token_scalar hvalue hc.1 hc.2 hread)]
  rcases hv with ⟨rfl, rfl⟩ | ⟨b, rfl, rfl⟩ | ⟨s, rfl, rfl⟩
  · rfl
  · rfl
  · rfl

theorem readValue_slice {items : List Any} (hdepth : depth ≤ maxDepth) (hvalue : e.value = true)
    (hitems : readItems false fuel depth ⟨rest, .arrayStart, e :: stack⟩ = .ok (items, d)) :
    readValue false (fuel + 1) depth ⟨some '[' :: rest, e, stack⟩ = .ok (.slice items, d) := by
  rw [readValue, if_neg (Nat.not_lt.mpr hdepth), next_eq (token_open (.inl ⟨rfl, rfl⟩) hvalue)]
  show (do
    let p ← readItems false fuel depth ⟨rest, .arrayStart, e :: stack⟩
    return (Any.slice p.1, p.2)) = _
  rw [hitems]
  rfl

theorem readValue_map {fields : List (String × Any)} (hdepth : depth ≤ maxDepth)
    (hvalue : e.value = true)
    (hfields : readFields false fuel depth [] ⟨rest, .objectStart, e :: stack⟩ = .ok (fields, d)) :
    readValue false (fuel + 1) depth ⟨some '{' :: rest, e, stack⟩ = .ok (.map fields, d) := by
  rw [readValue, if_neg (Nat.not_lt.mpr hdepth), next_eq (token_open (.inr ⟨rfl, rfl⟩) hvalue)]
  show (do
    let p ← readFields false fuel depth [] ⟨rest, .objectStart, e :: stack⟩
    return (Any.map p.1, p.2)) = _
  rw [hfields]
  rfl

theorem readItems_cons {d'' : Decoder} {v : Any} {vs : List Any} (hmore : d.more = true)
    (hv : readValue false fuel (depth + 1) d = .ok (v, d'))
    (hvs : readItems false fuel depth d' = .ok (vs, d'')) :
    readItems false (fuel + 1) depth d = .ok (v :: vs, d'') := by
  rw [readItems, if_pos hmore, hv]
  show (do
    let p ← readItems false fuel depth d'
    return (v :: p.1, p.2)) = _
  rw [hvs]
  rfl

theorem readItems_nil {e outer : Expects} (he : e = .arrayStart ∨ e = .arrayComma) :
    readItems false (fuel + 1) depth ⟨some ']' :: rest, e, outer :: stack⟩ =
      .ok ([], ⟨rest, outer.afterValue, stack⟩) := by
  have hmore : ¬ Decoder.more ⟨some ']' :: rest, e, outer :: stack⟩ = true := by
    rw [Decoder.more, skip_cons _ _ (by decide)]
    simp
  rw [readItems, if_neg hmore, next_eq (token_close (.inl ⟨rfl, he⟩))]
  rfl

/-- A field off the front of an object: its name, and its value by `hv`. -/
theorem readFields_cons {k : String} {v : Value} {outer : Expects}
    {object fields : List (String × Any)} (hmore : d.more = true)
    (hhere : d.token = Decoder.tokenHere
      ⟨some '"' :: ((quoting.body k).map some ++ some ':' :: (pieces v ++ rest)), e, outer :: stack⟩)
    (he : e = .objectStart ∨ e = .objectKey) (hnew : k ∉ object.map Prod.fst)
    (hv : readValue false fuel (depth + 1) ⟨pieces v ++ rest, .objectValue, outer :: stack⟩ =
      .ok (Any.ofValue v, ⟨rest, .objectComma, outer :: stack⟩))
    (hfields : readFields false fuel depth (object ++ [(k, Any.ofValue v)])
      ⟨rest, .objectComma, outer :: stack⟩ = .ok (fields, d')) :
    readFields false (fuel + 1) depth object d = .ok (fields, d') := by
  have htoken := hhere.trans (tokenHere_key he (readString_body k _))
  rw [← readValue_congr (token_colon _ _)] at hv
  rw [readFields, if_pos hmore, next_eq htoken]
  show (if String.ofList k.toList ∈ _ then _ else _) = _
  rw [String.ofList_toList, if_neg hnew, hv]
  exact hfields

theorem readFields_nil {e outer : Expects} {object : List (String × Any)}
    (he : e = .objectStart ∨ e = .objectComma) :
    readFields false (fuel + 1) depth object ⟨some '}' :: rest, e, outer :: stack⟩ =
      .ok (object, ⟨rest, outer.afterValue, stack⟩) := by
  have hmore : ¬ Decoder.more ⟨some '}' :: rest, e, outer :: stack⟩ = true := by
    rw [Decoder.more, skip_cons _ _ (by decide)]
    simp
  rw [readFields, if_neg hmore, next_eq (token_close (.inr ⟨rfl, he⟩))]
  rfl

theorem more_cons {c : Char} {rest : Literal} {e : Expects} {stack : List Expects}
    (hblank : Json.isBlank c = false) (hbracket : c ≠ ']') (hbrace : c ≠ '}') :
    Decoder.more ⟨some c :: rest, e, stack⟩ = true := by
  rw [Decoder.more, skip_cons _ _ hblank]
  simp [hbracket, hbrace]

mutual

/-- What is read of a printed value, in front of any text. A token takes a
    character, and a loop another step, so twice the length is enough fuel. -/
theorem readValue_print : ∀ (v : Value) (fuel depth : Nat) (rest : Literal) (e : Expects)
    (stack : List Expects), 2 * (Json.print quoting v).length ≤ fuel → v.Ordered →
    depth + v.height ≤ maxDepth → e.value = true → StopsNumber rest →
    readValue false fuel depth ⟨pieces v ++ rest, e, stack⟩ =
      .ok (Any.ofValue v, ⟨rest, e.afterValue, stack⟩)
  | v, 0, _, _, _, _, hfuel, _, _, _, _ => by
    have := Json.print_length_pos quoting v
    omega
  | .null, fuel + 1, depth, rest, e, stack, _, _, hdepth, hvalue, _ => by
    exact readValue_scalar (Nat.le_of_add_right_le hdepth) hvalue (by decide) rfl (.inl ⟨rfl, rfl⟩)
  | .bool true, fuel + 1, depth, rest, e, stack, _, _, hdepth, hvalue, _ => by
    exact readValue_scalar (Nat.le_of_add_right_le hdepth) hvalue (by decide) rfl
      (.inr (.inl ⟨true, rfl, rfl⟩))
  | .bool false, fuel + 1, depth, rest, e, stack, _, _, hdepth, hvalue, _ => by
    exact readValue_scalar (Nat.le_of_add_right_le hdepth) hvalue (by decide) rfl
      (.inr (.inl ⟨false, rfl, rfl⟩))
  | .num n, fuel + 1, depth, rest, e, stack, _, _, hdepth, hvalue, hrest => by
    exact readValue_printInt n hvalue hrest (Nat.le_of_add_right_le hdepth)
  | .str s, fuel + 1, depth, rest, e, stack, _, _, hdepth, hvalue, _ => by
    have hread : readScalar (some '"' :: ((quoting.body s).map some ++ rest)) =
        some (.string s.toList, rest) := by
      rw [readScalar, readString_body, Option.map_some]
    refine readValue_scalar (Nat.le_of_add_right_le hdepth) hvalue (by decide) hread
      (.inr (.inr ⟨s.toList, rfl, ?_⟩))
    rw [String.ofList_toList]
    rfl
  | .arr [], 1, _, _, _, _, hfuel, _, _, _, _ => by
    rw [Json.print] at hfuel
    simp at hfuel
  | .arr [], fuel + 2, depth, rest, e, stack, _, _, hdepth, hvalue, _ =>
    readValue_slice (Nat.le_of_add_right_le hdepth) hvalue (readItems_nil (.inl rfl))
  | .arr (v :: vs), 1, _, _, _, _, hfuel, _, _, _, _ => by
    have := Json.print_length_pos quoting v
    simp only [Json.print, length_cons, length_append] at hfuel
    omega
  | .arr (v :: vs), fuel + 2, depth, rest, e, stack, hfuel, hordered, hdepth, hvalue, _ => by
    simp only [Json.print, length_cons, length_append] at hfuel
    have hheight := Json.heightItems_le.mp (Nat.le_sub_of_add_le' hdepth)
    have hv := readValue_print v fuel (depth + 1) ((Json.printItems quoting vs).map some ++ rest)
      .arrayStart (e :: stack) (by omega) hordered.1
      (by have := hheight v mem_cons_self; omega) rfl (stopsNumber_items vs rest)
    have hvs := readItems_print vs fuel depth rest e stack (by omega) hordered.2
      (fun w hw => by have := hheight w (mem_cons_of_mem _ hw); omega)
    have htext : pieces (.arr (v :: vs)) ++ rest =
        some '[' :: (pieces v ++ ((Json.printItems quoting vs).map some ++ rest)) := by
      simp only [pieces, Json.print, map_cons, map_append, cons_append, append_assoc]
    rw [htext]
    exact readValue_slice (Nat.le_of_add_right_le hdepth) hvalue
      (readItems_cons more_of_print hv hvs)
  | .obj [], 1, _, _, _, _, hfuel, _, _, _, _ => by
    rw [Json.print] at hfuel
    simp at hfuel
  | .obj [], fuel + 2, depth, rest, e, stack, _, _, hdepth, hvalue, _ =>
    readValue_map (Nat.le_of_add_right_le hdepth) hvalue (readFields_nil (.inl rfl))
  | .obj ((k, v) :: fs), 1, _, _, _, _, hfuel, _, _, _, _ => by
    have := Json.print_length_pos quoting v
    simp only [Json.print, length_cons, length_append] at hfuel
    omega
  | .obj ((k, v) :: fs), fuel + 2, depth, rest, e, stack, hfuel, hordered, hdepth, hvalue, _ => by
    simp only [Json.print, length_cons, length_append] at hfuel
    have hheight := Json.heightFields_le.mp (Nat.le_sub_of_add_le' hdepth)
    have hv := readValue_print v fuel (depth + 1) ((Json.printFields quoting fs).map some ++ rest)
      .objectValue (e :: stack) (by omega) hordered.2.1
      (by have : v.height + 1 ≤ maxDepth - depth := hheight (k, v) mem_cons_self; omega) rfl
      (stopsNumber_fields fs rest)
    have hnodup : (((k, v) :: fs).map Prod.fst).Nodup := hordered.1.imp ne_of_lt
    have hfs := readFields_print fs fuel depth [(k, Any.ofValue v)] rest e stack (by omega)
      hordered.2.2 (fun f hf => by have := hheight f (mem_cons_of_mem _ hf); omega) hnodup
    have htext : pieces (.obj ((k, v) :: fs)) ++ rest = some '{' :: (some '"' ::
        ((quoting.body k).map some ++ some ':' ::
          (pieces v ++ ((Json.printFields quoting fs).map some ++ rest)))) := by
      simp only [pieces, Json.print, map_cons, map_append, cons_append,
        append_assoc]
    rw [htext]
    refine readValue_map (Nat.le_of_add_right_le hdepth) hvalue
      (readFields_cons (more_cons (by decide) (by decide) (by decide)) ?_ (.inl rfl)
        not_mem_nil hv hfs)
    rw [Decoder.token, Decoder.passSeparator, skip_cons _ _ (by decide)]
    rfl

theorem readItems_print : ∀ (vs : List Value) (fuel depth : Nat) (rest : Literal) (outer : Expects)
    (stack : List Expects), 2 * (Json.printItems quoting vs).length ≤ fuel →
    Json.OrderedItems vs → (∀ v ∈ vs, depth + 1 + v.height ≤ maxDepth) → readItems false fuel depth
        ⟨(Json.printItems quoting vs).map some ++ rest, .arrayComma, outer :: stack⟩ =
      .ok (Any.ofItems vs, ⟨rest, outer.afterValue, stack⟩)
  | [], 0, _, _, _, _, hfuel, _, _ => by
    rw [Json.printItems, length_singleton] at hfuel
    omega
  | v :: vs, 0, _, _, _, _, hfuel, _, _ => by
    rw [Json.printItems, length_cons] at hfuel
    omega
  | [], fuel + 1, depth, rest, outer, stack, _, _, _ => readItems_nil (.inr rfl)
  | v :: vs, fuel + 1, depth, rest, outer, stack, hfuel, hordered, hdepth => by
    simp only [Json.printItems, length_cons, length_append] at hfuel
    have hv := readValue_print v fuel (depth + 1) ((Json.printItems quoting vs).map some ++ rest)
      .arrayValue (outer :: stack) (by omega) hordered.1 (hdepth v mem_cons_self) rfl
      (stopsNumber_items vs rest)
    have hvs := readItems_print vs fuel depth rest outer stack (by omega) hordered.2
      (fun w hw => hdepth w (mem_cons_of_mem _ hw))
    rw [Json.printItems, map_cons, map_append, cons_append, append_assoc]
    rw [← readValue_congr (token_comma_item _ _)] at hv
    exact readItems_cons (more_cons (by decide) (by decide) (by decide)) hv hvs

theorem readFields_print : ∀ (fs : List (String × Value)) (fuel depth : Nat)
    (object : List (String × Any)) (rest : Literal) (outer : Expects) (stack : List Expects),
    2 * (Json.printFields quoting fs).length ≤ fuel → Json.OrderedFields fs →
    (∀ f ∈ fs, depth + 1 + f.2.height ≤ maxDepth) →
    (object.map Prod.fst ++ fs.map Prod.fst).Nodup → readFields false fuel depth object
        ⟨(Json.printFields quoting fs).map some ++ rest, .objectComma, outer :: stack⟩ =
      .ok (object ++ Any.ofFields fs, ⟨rest, outer.afterValue, stack⟩)
  | [], 0, _, _, _, _, _, hfuel, _, _, _ => by
    rw [Json.printFields, length_singleton] at hfuel
    omega
  | (k, v) :: fs, 0, _, _, _, _, _, hfuel, _, _, _ => by
    rw [Json.printFields, length_cons] at hfuel
    omega
  | [], fuel + 1, depth, object, rest, outer, stack, _, _, _, _ => by
    rw [Any.ofFields, append_nil]
    exact readFields_nil (.inr rfl)
  | (k, v) :: fs, fuel + 1, depth, object, rest, outer, stack, hfuel, hordered, hdepth, hnodup => by
    simp only [Json.printFields, length_cons, length_append] at hfuel
    have hv := readValue_print v fuel (depth + 1) ((Json.printFields quoting fs).map some ++ rest)
      .objectValue (outer :: stack) (by omega) hordered.1 (hdepth (k, v) mem_cons_self) rfl
      (stopsNumber_fields fs rest)
    have hnew : k ∉ object.map Prod.fst := by
      intro hk
      exact (nodup_append.mp hnodup).2.2 k hk k mem_cons_self rfl
    have hfs := readFields_print fs fuel depth (object ++ [(k, Any.ofValue v)]) rest outer stack
      (by omega) hordered.2 (fun f hf => hdepth f (mem_cons_of_mem _ hf))
      (by simpa using hnodup)
    rw [append_assoc, singleton_append] at hfs
    refine readFields_cons (more_cons (by decide) (by decide) (by decide)) ?_ (.inr rfl) hnew hv hfs
    simp only [Json.printFields, map_cons, map_append, cons_append,
      append_assoc]
    exact token_comma_field _ _

end

/-! ### There and back -/

mutual

/-- What is read stands for the value that was printed. -/
theorem value_ofValue : ∀ v : Value, (Any.ofValue v).value = v
  | .null => rfl
  | .bool _ => rfl
  | .num n => congrArg Json.num (spelled_printInt n)
  | .str _ => rfl
  | .arr items => congrArg Json.arr (valueItems_ofItems items)
  | .obj fields => congrArg Json.obj (valueFields_ofFields fields)

theorem valueItems_ofItems : ∀ items : List Value, Any.valueItems (Any.ofItems items) = items
  | [] => rfl
  | v :: rest => by
    rw [Any.ofItems, Any.valueItems, value_ofValue v, valueItems_ofItems rest]

theorem valueFields_ofFields : ∀ fields : List (String × Value),
    Any.valueFields (Any.ofFields fields) = fields
  | [] => rfl
  | (k, v) :: rest => by
    rw [Any.ofFields, Any.valueFields, value_ofValue v, valueFields_ofFields rest]

end

/-- A decimal is an integer's spelling. -/
theorem setInt_printInt (n : Int) : (setInt (printInt n)).isSome := by
  have hdigits : ∀ n : Nat, ¬ (Nat.toDigits 10 n = [] ∨ ¬ (Nat.toDigits 10 n).all Char.isDigit) := by
    rintro n (hnil | hall)
    · exact Nat.toDigits_ne_nil hnil
    · exact hall (all_eq_true.mpr
        (fun c hc => Nat.isDigit_of_mem_toDigits (by decide) (by decide) hc))
  have hsome : ∀ text digits : List Char, (if text.head? = some '-' then text.tail else text) = digits →
      ¬ (digits = [] ∨ ¬ digits.all Char.isDigit) → (setInt text).isSome := by
    intro text digits htext hok
    simp only [setInt, htext, if_neg hok]
    split
    · rfl
    · split <;> rfl
  by_cases hneg : n < 0
  · refine hsome _ (Nat.toDigits 10 n.natAbs) ?_ (hdigits _)
    rw [printInt, if_pos hneg, head?_cons, if_pos rfl, tail_cons]
  · refine hsome _ (Nat.toDigits 10 n.natAbs) ?_ (hdigits _)
    rw [if_neg (printInt_head_ne hneg), printInt, if_neg hneg]

mutual

theorem wellFormed_ofValue : ∀ v : Value, v.Ordered → (Any.ofValue v).WellFormed
  | .null, _ => trivial
  | .bool _, _ => trivial
  | .num n, _ => setInt_printInt n
  | .str _, _ => trivial
  | .arr items, h => wellFormed_ofItems items h
  | .obj fields, h =>
    ⟨by rw [ofFields_keys]; exact h.1.imp ne_of_lt, wellFormed_ofFields fields h.2⟩

theorem wellFormed_ofItems : ∀ items : List Value, Json.OrderedItems items →
    Any.WellFormedItems (Any.ofItems items)
  | [], _ => trivial
  | v :: rest, h => ⟨wellFormed_ofValue v h.1, wellFormed_ofItems rest h.2⟩

theorem wellFormed_ofFields : ∀ fields : List (String × Value), Json.OrderedFields fields →
    Any.WellFormedFields (Any.ofFields fields)
  | [], _ => trivial
  | (_, v) :: rest, h => ⟨wellFormed_ofValue v h.1, wellFormed_ofFields rest h.2⟩

end

mutual

/-- Putting names in order does not change how deeply values stand. -/
theorem height_sortKeys (less : String → String → Bool) : ∀ (v : Value) (n : Nat),
    v.height ≤ n → (sortKeys less v).height ≤ n
  | .null, _, h => h
  | .bool _, _, h => h
  | .num _, _, h => h
  | .str _, _, h => h
  | .arr items, n, h => by
    rw [sortKeys, sortKeysItems_eq]
    refine Json.heightItems_le.mpr (fun w hw => ?_)
    rcases mem_map.mp hw with ⟨v, hv, rfl⟩
    exact heightItems_sortKeys less items n (Json.heightItems_le.mp h) v hv
  | .obj fields, n, h => by
    rw [sortKeys, sortKeysFields_eq]
    refine Json.heightFields_le.mpr (fun w hw => ?_)
    rcases mem_map.mp ((mem_insertionSort _).mp hw) with ⟨f, hf, rfl⟩
    exact heightFields_sortKeys less fields n (Json.heightFields_le.mp h) f hf

theorem heightItems_sortKeys (less : String → String → Bool) : ∀ (items : List Value) (n : Nat),
    (∀ v ∈ items, v.height + 1 ≤ n) → ∀ v ∈ items, (sortKeys less v).height + 1 ≤ n
  | [], _, _ => by simp
  | v :: rest, n, h => by
    rw [forall_mem_cons] at h ⊢
    have hv := height_sortKeys less v (n - 1) (by omega)
    exact ⟨by omega, heightItems_sortKeys less rest n h.2⟩

theorem heightFields_sortKeys (less : String → String → Bool) :
    ∀ (fields : List (String × Value)) (n : Nat),
    (∀ f ∈ fields, f.2.height + 1 ≤ n) → ∀ f ∈ fields, (sortKeys less f.2).height + 1 ≤ n
  | [], _, _ => by simp
  | (k, v) :: rest, n, h => by
    rw [forall_mem_cons] at h ⊢
    have hk : v.height + 1 ≤ n := h.1
    have hv := height_sortKeys less v (n - 1) (by omega)
    exact ⟨show (sortKeys less v).height + 1 ≤ n by omega, heightFields_sortKeys less rest n h.2⟩

end

/-- What is loaded of the canonical bytes of a document. -/
theorem load_canonical {v : Any} (h : v.WellFormed) (hheight : v.value.height ≤ maxDepth)
    (limit : Nat) :
    loadDocument v.canonical limit =
      if v.canonical.length ≤ limit then .ok (Any.ofValue v.normal) else .error (.tooLong limit) := by
  have hnormal : sortKeys byName v.value = v.normal := by rw [byName_eq]; rfl
  have hbytes : v.canonical = GoString.ofRunes (Json.print quoting v.normal) := by
    rw [Any.canonical, canonicalText_eq v h, hnormal]
  by_cases hlimit : v.canonical.length ≤ limit
  · have hnew : Decoder.new v.canonical = ⟨pieces v.normal ++ [], .topValue, []⟩ := by
      rw [Decoder.new, hbytes, GoString.pieces_ofRunes, append_nil]
    have hlength : (Json.print quoting v.normal).length ≤ v.canonical.length := by
      rw [hbytes]
      exact GoString.length_le_ofRunes _
    have hread := readValue_print v.normal (2 * v.canonical.length + 2) 0 [] .topValue []
      (by omega) (normal_ordered v h)
      (by rw [Nat.zero_add]; exact height_sortKeys _ _ _ hheight) rfl (by simp [StopsNumber])
    rw [loadDocument, load, if_neg (Nat.not_lt.mpr hlimit), if_pos hlimit, hnew, hread]
    rfl
  · rw [loadDocument, load, if_pos (Nat.lt_of_not_le hlimit), if_neg hlimit]

/-- For every document within the reader's depth: what is loaded of its
    canonical bytes is the same document, with the same canonical bytes, and
    every document with these bytes is the same. -/
theorem canonical_round_trip {v : Any} (h : v.WellFormed) (hheight : v.value.height ≤ maxDepth) :
    (∃ w : Any, (∀ limit, loadDocument v.canonical limit =
        if v.canonical.length ≤ limit then .ok w else .error (.tooLong limit)) ∧
      v.Same w ∧ w.canonical = v.canonical) ∧
    ∀ w : Any, w.WellFormed → (w.canonical = v.canonical ↔ w.Same v) := by
  have hordered := normal_ordered v h
  have hloaded : (Any.ofValue v.normal).WellFormed := wellFormed_ofValue _ hordered
  have hagain : (Any.ofValue v.normal).normal = v.normal := by
    rw [Any.normal, value_ofValue, sortKeys_of_ordered _ hordered]
  have hsame : v.Same (Any.ofValue v.normal) := (same_iff _ _ h hloaded).mpr hagain.symm
  exact ⟨⟨_, load_canonical h hheight, hsame, ((canonical_eq_iff h hloaded).mpr hsame).symm⟩,
    fun w hw => canonical_eq_iff hw h⟩

/-- Two spellings of one document. -/
theorem canonical_round_trip_zero :
    (∃ w : Any, (∀ limit, loadDocument
        (Any.canonical (.map [("b", .number ['-', '0']), ("a", .slice [.null, .int 7])])) limit =
          if 20 ≤ limit then .ok w else .error (.tooLong limit)) ∧
      Any.Same (.map [("b", .number ['-', '0']), ("a", .slice [.null, .int 7])]) w) ∧
    Any.Same (.map [("a", .slice [.null, .number ['0', '7']]), ("b", .int 0)])
      (.map [("b", .number ['-', '0']), ("a", .slice [.null, .int 7])]) := by
  have hfirst : Any.WellFormed (.map [("b", .number ['-', '0']), ("a", .slice [.null, .int 7])]) :=
    ⟨by decide, rfl, ⟨trivial, trivial, trivial⟩, trivial⟩
  have hsecond : Any.WellFormed (.map [("a", .slice [.null, .number ['0', '7']]), ("b", .int 0)]) :=
    ⟨by decide, ⟨trivial, rfl, trivial⟩, trivial, trivial⟩
  have hlength : (Any.canonical (.map [("b", .number ['-', '0']),
      ("a", .slice [.null, .int 7])])).length = 20 := by decide
  have htrip := canonical_round_trip hfirst (by decide)
  rcases htrip with ⟨⟨w, hload, hsame, -⟩, hbytes⟩
  rw [hlength] at hload
  exact ⟨⟨w, hload, hsame⟩, (hbytes _ hsecond).mp (by decide)⟩

end Go

end Regalia.Membership
