import Mathlib.Data.Finset.Card
import Regalia.Theory.Membership.Rules

/-!
# Reading Values

What the accessors of a document find, as equations of the value: the facts
about single fields that the accounts of both verifiers are assembled from.

## Theorems

* `hasField_iff`: A field is there when its name is.
* `Schema.ofValue_eq_some`, `Algorithm.ofValue_eq_some`: What a text names.
* `names_eq_some`: A list of names.
* `typedEntry_iff`, `typedKey_iff`: A key by the fields that are checked.
* `KeyEntry.unique`, `TypedKey.unique`: An entry is one key.
* `nodesById_at_eq_some`: A node of a valid manifest by its ID.
* `nodeLoop_eq_ok`, `signatureLoop_eq_ok`: The loops both verifiers make.
-/

namespace Regalia.Membership

open List

variable {v : Value} {m : Value} {k : Algorithm × String} {keys : List (Algorithm × String)}
    {algs : List Algorithm} {schema : Schema} {current : Option Value} {l : List String}
    {crypto : Crypto} {message : List UInt8} {s : String} {node : Value} {root : Value}
    {key : String}

/-! ### Fields -/

theorem hasField_iff (v : Value) (k : String) : hasField v k = true ↔ k ∈ v.keys :=
  Json.get?_isSome_iff v k

theorem field_eq_null {k : String} (h : k ∉ v.keys) : field v k = .null := by
  unfold field
  cases hget : v.get? k with
  | none => rfl
  | some w => exact absurd ((hasField_iff v k).mp (by rw [hasField, hget]; rfl)) h

theorem get?_eq_some {v w : Value} {k : String} :
    v.get? k = some w ↔ hasField v k = true ∧ field v k = w := by
  unfold hasField field
  cases v.get? k with
  | none => simp
  | some _ => simp

theorem asText_eq_some : asText v = some s ↔ v = .str s := by
  cases v <;> simp [asText]

theorem asList_eq_some {l : List Value} : asList v = some l ↔ v = .arr l := by
  cases v <;> simp [asList]

theorem asInteger_eq_some {n : Int} : asInteger v = some n ↔ v = .num n := by
  cases v <;> simp [asInteger]

theorem asText_filter_eq_some {p : String → Bool} :
    (asText v).filter p = some s ↔ v = .str s ∧ p s = true := by
  rw [Option.filter_eq_some_iff, asText_eq_some]

theorem asText_any_eq_true {p : String → Bool} :
    (asText v).any p = true ↔ ∃ s, v = .str s ∧ p s = true := by
  cases v <;> simp [asText]

theorem asList_filter_eq_some {p : List Value → Bool} {l : List Value} :
    (asList v).filter p = some l ↔ v = .arr l ∧ p l = true := by
  rw [Option.filter_eq_some_iff, asList_eq_some]

theorem mapM_asText_eq_some (items : List Value) (l : List String) :
    items.mapM asText = some l ↔ items = l.map .str := by
  induction items generalizing l with
  | nil =>
    rw [mapM_nil]
    cases l with
    | nil => exact ⟨fun _ => rfl, fun _ => rfl⟩
    | cons s l' => simp
  | cons v rest ih =>
    rw [mapM_cons]
    constructor
    · intro h
      rcases Option.bind_eq_some_iff.mp h with ⟨s, hs, h⟩
      rcases Option.bind_eq_some_iff.mp h with ⟨l', hl', h⟩
      rw [asText_eq_some.mp hs, (ih l').mp hl', ← Option.some.inj h, map_cons]
    · intro h
      cases l with
      | nil => cases h
      | cons s l' =>
        injection h with hv hrest
        rw [hv, (ih l').mpr hrest]
        rfl

/-- A list of names, read at once. -/
theorem names_eq_some : (asList v).bind (fun items => items.mapM asText) = some l ↔ Names v l := by
  rw [Option.bind_eq_some_iff]
  constructor
  · rintro ⟨items, hitems, hl⟩
    rw [Names, asList_eq_some.mp hitems, (mapM_asText_eq_some items l).mp hl]
  · intro h
    exact ⟨l.map .str, asList_eq_some.mpr h, (mapM_asText_eq_some _ l).mpr rfl⟩

theorem Names.itemsOf_eq (h : Names v l) : itemsOf v = l.map .str := by
  rw [Names] at h
  rw [h]
  rfl

theorem Names.texts (h : Names v l) : (itemsOf v).map textOf = l := by
  rw [h.itemsOf_eq, map_map]
  exact map_id l

theorem Names.filterMap_asText (h : Names v l) : (itemsOf v).filterMap asText = l := by
  rw [h.itemsOf_eq, filterMap_map]
  exact filterMap_some

theorem Names.unique {l l' : List String} (h : Names v l) (h' : Names v l') :
    l = l' := h.texts.symm.trans h'.texts

/-! ### Enumerations -/

/-- A search for the member of a list whose text a value is. -/
theorem find?_text_eq_some {α : Type} (text : α → String)
    (hinj : ∀ a b, text a = text b → a = b) (l : List α) (v : Value) (a : α) :
    l.find? (fun a => decide (v = .str (text a))) = some a ↔ a ∈ l ∧ v = .str (text a) := by
  constructor
  · intro h
    exact ⟨mem_of_find?_eq_some h, by simpa using find?_some h⟩
  · rintro ⟨hmem, rfl⟩
    have hsome : (l.find? (fun b => decide (Json.str (text a) = .str (text b)))).isSome = true := by
      rw [find?_isSome]
      exact ⟨a, hmem, by simp⟩
    rcases Option.isSome_iff_exists.mp hsome with ⟨b, hb⟩
    have htext : text a = text b := by simpa using find?_some hb
    rw [hinj a b htext]
    rwa [hinj a b htext] at hb

theorem Schema.text_injective (a b : Schema) (h : a.text = b.text) : a = b := by
  revert h
  cases a <;> cases b <;> decide

theorem Schema.ofValue_eq_some {s : Schema} : ofValue v = some s ↔ v = .str s.text := by
  rw [ofValue, find?_text_eq_some text text_injective]
  have hmem : s ∈ schemas := by cases s <;> decide
  exact ⟨fun h => h.2, fun h => ⟨hmem, h⟩⟩

theorem NodeState.text_injective (a b : NodeState) (h : a.text = b.text) : a = b := by
  revert h
  cases a <;> cases b <;> decide

theorem stateOf_eq_some {s : NodeState} :
    stateOf node = some s ↔ field node "state" = .str s.text := by
  rw [stateOf, NodeState.ofValue, find?_text_eq_some NodeState.text NodeState.text_injective]
  have hmem : s ∈ nodeStates := by cases s <;> decide
  exact ⟨fun h => h.2, fun h => ⟨hmem, h⟩⟩

theorem Algorithm.text_injective (a b : Algorithm) (h : a.text = b.text) : a = b := by
  revert h
  cases a <;> cases b <;> decide

theorem Algorithm.ofValue_eq_some {a : Algorithm} :
    ofValue algs v = some a ↔ a ∈ algs ∧ v = .str a.text :=
  find?_text_eq_some text text_injective algs v a

theorem schemaOf_eq_some {manifest : Value} {s : Schema} :
    schemaOf manifest = some s ↔ field manifest "schema" = .str s.text := Schema.ofValue_eq_some

theorem Valid.schemaOf (h : Valid schema m) :
    schemaOf m = some schema := schemaOf_eq_some.mpr h.named

/-! ### Checks -/

theorem Valid.fourth (h : Valid schema m) (hfourth : Membership.schemaOf m = some .v4) :
    schema = .v4 :=
  Option.some.inj (h.schemaOf.symm.trans hfourth)

theorem forM_require_eq_ok {γ : Type} {p : γ → Prop} [∀ x, Decidable (p x)] {format : γ → String}
    {args : γ → List Arg} {l : List γ} {u : Unit} :
    l.forM (fun x => require (p x) (format x) (args x)) = .ok u ↔ ∀ x ∈ l, p x :=
  forM_eq_ok p l (fun _ _ => require_eq_ok)

/-- The shape a node is held to is one of its own, if it is a tombstone with
    one: a search that finds it settles the question. -/
theorem exact_find?_shape {shapes : List (List String)} {keys : List String}
    (p : List String → Bool) (hp : ∀ s ∈ shapes, p s = true ↔ terminal node = true ∧ Exact node s) :
    Exact node ((shapes.find? p).getD keys) ↔
      Exact node keys ∨ (terminal node = true ∧ ∃ s ∈ shapes, Exact node s) := by
  cases hfind : shapes.find? p with
  | none =>
    rw [Option.getD_none]
    refine ⟨.inl, ?_⟩
    rintro (h | ⟨hterminal, s, hs, hexact⟩)
    · exact h
    · exact absurd ((hp s hs).mpr ⟨hterminal, hexact⟩) (find?_eq_none.mp hfind s hs)
  | some s =>
    have hs := mem_of_find?_eq_some hfind
    rcases (hp s hs).mp (find?_some hfind) with ⟨hterminal, hexact⟩
    rw [Option.getD_some]
    exact ⟨fun _ => .inr ⟨hterminal, s, hs, hexact⟩, fun _ => hexact⟩

theorem hexText_hexBytes {n : Nat} (h : matchesHex (2 * n) s = true) :
    hexText (hexBytes s) = s.toList := by
  simp only [matchesHex, Bool.and_eq_true, decide_eq_true_eq, all_eq_true] at h
  rcases hexText_decodeHex n s.toList h.1 h.2 with ⟨bytes, hdecode, htext⟩
  rw [hexBytes, hdecode, Option.getD_some, htext]

/-- A hexadecimal field of an even length, in bytes. -/
theorem length_hexBytes {n : Nat} (h : matchesHex (2 * n) s = true) : (hexBytes s).length = n := by
  have hlength := length_hexText (hexBytes s)
  rw [hexText_hexBytes h] at hlength
  simp only [matchesHex, Bool.and_eq_true, decide_eq_true_eq] at h
  omega

/-! ### Keys -/

theorem TypedKey.unique {algs algs' : List Algorithm} {k l : Algorithm × String}
    (hk : TypedKey algs v k) (hl : TypedKey algs' v l) : k = l := by
  have halg : Json.str k.1.text = Json.str l.1.text := hk.alg.symm.trans hl.alg
  have hhex : Json.str k.2 = Json.str l.2 := hk.hex.symm.trans hl.hex
  injection halg with halg
  injection hhex with hhex
  exact Prod.ext (Algorithm.text_injective _ _ halg) hhex

theorem TypedKey.not_str (h : TypedKey algs v k) : v ≠ .str s := by
  rintro rfl
  cases h.exact.1

/-- A typed key is looked up by the text of its entry. -/
theorem exists_typedKey_iff {P : String → Prop} :
    (∃ key, TypedKey algs v key ∧ P key.2) ↔
      (∃ key, TypedKey algs v key) ∧ P (textOf (field v "key")) := by
  constructor
  · rintro ⟨key, hkey, h⟩
    have htext : textOf (field v "key") = key.2 := by rw [hkey.hex]; rfl
    exact ⟨⟨key, hkey⟩, htext ▸ h⟩
  · rintro ⟨⟨key, hkey⟩, h⟩
    have htext : textOf (field v "key") = key.2 := by rw [hkey.hex]; rfl
    exact ⟨key, hkey, htext ▸ h⟩

/-- A typed entry of the revocation keys, by the fields a verifier checks. -/
theorem typedEntry_iff :
    (Exact v ["alg", "key"] ∧ ∃ alg, (alg ∈ typedAlgorithms ∧ field v "alg" = .str alg.text) ∧
      IsHex 130 (field v "key") ∧ (textOf (field v "key")).toList.take 2 = ['0', '4'] ∧
      onP256 (hexBytes (textOf (field v "key"))) = true ∧ (alg, textOf (field v "key")) = k) ↔
      TypedKey typedAlgorithms v k := by
  constructor
  · rintro ⟨hexact, alg, ⟨hmem, halg⟩, ⟨s, hs, hhex⟩, hpoint, hcurve, rfl⟩
    rw [hs] at hpoint hcurve ⊢
    have hecdsa : alg = .ecdsaP256 := by simpa [typedAlgorithms, revocationAlgs] using hmem
    subst hecdsa
    exact ⟨hexact, hmem, halg, hs, hhex, hpoint, hcurve⟩
  · intro htyped
    have hecdsa : k.1 = .ecdsaP256 := by
      simpa [typedAlgorithms, revocationAlgs] using htyped.mem
    have hshape := htyped.shape
    rw [hecdsa] at hshape
    rcases hshape with ⟨hhex, hpoint, hcurve⟩
    refine ⟨htyped.exact, k.1, ⟨htyped.mem, htyped.alg⟩, ⟨k.2, htyped.hex, hhex⟩, ?_⟩
    rw [htyped.hex]
    exact ⟨hpoint, hcurve, rfl⟩

/-- A typed key whose entry has been read: an Ed25519 key is checked on the
    spot, any other as an entry of the revocation keys. -/
theorem typedKey_iff {checked : Algorithm → Prop} (hecdsa : checked .ecdsaP256 ↔ KeyEntry v k)
    (hed : checked .ed25519 ↔ IsHex 64 (field v "key") ∧ (.ed25519, textOf (field v "key")) = k) :
    (isObject v = true ∧ Exact v ["alg", "key"] ∧
      ∃ alg, (alg ∈ algs ∧ field v "alg" = .str alg.text) ∧ checked alg) ↔ TypedKey algs v k := by
  constructor
  · rintro ⟨_, hexact, alg, ⟨hmem, halg⟩, hchecked⟩
    cases alg with
    | ed25519 =>
      rcases hed.mp hchecked with ⟨⟨s, hs, hhex⟩, rfl⟩
      rw [hs]
      exact ⟨hexact, hmem, halg, hs, hhex⟩
    | ecdsaP256 =>
      rcases hecdsa.mp hchecked with ⟨_, hstr, _⟩ | htyped
      · rw [hstr] at hexact
        cases hexact.1
      · injection halg.symm.trans htyped.alg with htext
        have halgs := Algorithm.text_injective _ _ htext
        exact ⟨hexact, halgs ▸ hmem, htyped.alg, htyped.hex, htyped.shape⟩
  · intro h
    refine ⟨h.exact.1, h.exact, k.1, ⟨h.mem, h.alg⟩, ?_⟩
    have hshape := h.shape
    cases halg : k.1 with
    | ed25519 =>
      rw [halg] at hshape
      refine hed.mpr ⟨⟨k.2, h.hex, hshape⟩, ?_⟩
      rw [h.hex]
      exact Prod.ext halg.symm rfl
    | ecdsaP256 =>
      refine hecdsa.mpr (.inr ⟨h.exact, ?_, h.alg, h.hex, h.shape⟩)
      rw [halg]
      exact mem_singleton.mpr rfl

/-- A bare entry is an Ed25519 key. -/
theorem keyEntry_str_iff : KeyEntry (.str s) k ↔ IsHex 64 (.str s) ∧ (.ed25519, s) = k := by
  constructor
  · rintro (⟨halg, hk, hshape⟩ | htyped)
    · injection hk with hs
      rw [halg] at hshape
      exact ⟨⟨k.2, by rw [hs], hshape⟩, Prod.ext halg.symm hs⟩
    · exact absurd rfl htyped.not_str
  · rintro ⟨⟨t, ht, hhex⟩, rfl⟩
    injection ht with ht
    exact .inl ⟨rfl, rfl, ht ▸ hhex⟩

/-- Any other entry is a typed one. -/
theorem keyEntry_iff_typed (hv : ∀ s, v ≠ .str s) :
    KeyEntry v k ↔ TypedKey typedAlgorithms v k :=
  ⟨fun h => h.resolve_left (fun ⟨_, hk, _⟩ => hv _ hk), .inr⟩

theorem KeyEntry.unique {k l : Algorithm × String} (hk : KeyEntry v k) (hl : KeyEntry v l) :
    k = l := by
  rcases hk with ⟨halg, hv, _⟩ | hk
  · rcases hl with ⟨halg', hv', _⟩ | hl
    · injection hv.symm.trans hv' with hhex
      exact Prod.ext (halg.trans halg'.symm) hhex
    · exact absurd hv hl.not_str
  · rcases hl with ⟨_, hv', _⟩ | hl
    · exact absurd hv' hk.not_str
    · exact hk.unique hl

/-- The keys of a list of entries. -/
theorem exists_entry_iff {R : Value → Algorithm × String → Prop}
    (hunique : ∀ v k l, R v k → R v l → k = l) {entries : List Value}
    (h : List.Forall₂ R entries keys) (k : Algorithm × String) :
    (∃ e ∈ entries, R e k) ↔ k ∈ keys := by
  induction h with
  | nil => simp
  | cons hd _ ih =>
    rw [exists_mem_cons_iff, ih, mem_cons]
    exact or_congr ⟨fun h => hunique _ _ _ h hd, fun h => h ▸ hd⟩ Iff.rfl

theorem Valid.itemsOf_revocation_keys_v4 (h : Valid .v4 m) :
    itemsOf (field m "revocation_keys") = [] := by
  have hnot : "revocation_keys" ∉ m.keys := by
    rw [h.exact.2]
    decide
  rw [field_eq_null hnot]
  rfl

/-- The keys of a valid manifest's revocation entries; v4 has none. -/
theorem Valid.revocationKeys (h : Valid schema m) :
    ∃ keys, List.Forall₂ KeyEntry (itemsOf (field m "revocation_keys")) keys ∧
      (keys.map Prod.snd).Nodup := by
  by_cases hfourth : schema = .v4
  · subst hfourth
    rw [h.itemsOf_revocation_keys_v4]
    exact ⟨[], .nil, nodup_nil⟩
  · rcases h.revocation hfourth with ⟨entries, keys, hentries, hkeys, hnodup, _⟩
    rw [hentries]
    exact ⟨keys, hkeys, hnodup⟩

/-- The keys of a v4 manifest's owner entries, with their hex in order. -/
theorem SignerFields.ownerKeys (h : SignerFields m) :
    ∃ keys, List.Forall₂ (TypedKey ownerKeyAlgs) (itemsOf (field m "owner_keys")) keys ∧
      (keys.map Prod.snd).Nodup := by
  rcases h.owners with ⟨entries, hentries, _, _, htyped⟩
  have hitems : itemsOf (field m "owner_keys") = entries := by rw [hentries]; rfl
  rcases exists_forall₂ htyped with ⟨keys, hkeys⟩
  refine ⟨keys, hitems.symm ▸ hkeys, ?_⟩
  -- the keys' hex, in order, is what the owner's entries name
  have hhex : keys.map Prod.snd = ownerKeysOf m := by
    rw [ownerKeysOf, hitems]
    have hrel : List.Forall₂ (fun e s => field e "key" = .str s) entries (keys.map Prod.snd) :=
      forall₂_map_right_iff.mpr (hkeys.imp (fun _ _ h => h.hex))
    exact ((forall₂_iff_map (fun e s h => by rw [h]; rfl)).mp hrel).2
  rw [hhex]
  exact (h.unique.of_append_right).of_map _

/-- The owner's keys as a table, by their hex. -/
def OwnerTable (m : Value) (owners : List (String × Algorithm)) : Prop :=
  ∀ key alg, (owners.find? (fun p => p.1 = key)).map Prod.snd = some alg ↔
    ∃ e ∈ itemsOf (field m "owner_keys"), TypedKey ownerKeyAlgs e (alg, key)

theorem SignerFields.ownerTable (h : SignerFields m) :
    ∃ keys, List.Forall₂ (TypedKey ownerKeyAlgs) (itemsOf (field m "owner_keys")) keys ∧
      OwnerTable m (keys.map Prod.swap) := by
  rcases h.ownerKeys with ⟨keys, hkeys, hnodup⟩
  refine ⟨keys, hkeys, ?_⟩
  intro key alg
  have hswap : ((keys.map Prod.swap).map Prod.fst).Nodup := by
    rw [map_map]
    exact hnodup
  rw [exists_entry_iff (R := TypedKey ownerKeyAlgs) (fun _ _ _ => TypedKey.unique) hkeys,
    Option.map_eq_some_iff]
  simp only [find?_key_eq_some hswap]
  constructor
  · rintro ⟨p, ⟨hmem, rfl⟩, rfl⟩
    rcases mem_map.mp hmem with ⟨k, hk, rfl⟩
    exact hk
  · intro hmem
    exact ⟨(key, alg), ⟨mem_map.mpr ⟨(alg, key), hmem, rfl⟩, rfl⟩, rfl⟩

/-- The pinned root, by what a verifier checks of it. -/
theorem rootKeys_iff :
    (((asList root).getD [root] ≠ [] ∧ ((asList root).getD [root]).length ≤ maxRootKeys) ∧
      ∃ out, List.Forall₂ KeyEntry ((asList root).getD [root]) out ∧
        (out.map Prod.snd).dedup.length = out.length ∧ out = keys) ↔ RootKeys root keys := by
  have hdistinct : ∀ out : List (Algorithm × String),
      (out.map Prod.snd).dedup.length = out.length ↔ (out.map Prod.snd).Nodup := by
    intro out
    rw [← dedup_length_eq_iff, length_map]
  constructor
  · rintro ⟨⟨hne, hfew⟩, out, hout, hnodup, rfl⟩
    refine ⟨hout, ?_, ?_, (hdistinct out).mp hnodup⟩
    · rintro rfl
      exact hne (forall₂_nil_right_iff.mp hout)
    · rw [← hout.length_eq]
      exact hfew
  · rintro ⟨hentries, hsome, hfew, hnodup⟩
    refine ⟨⟨?_, ?_⟩, keys, hentries, (hdistinct keys).mpr hnodup, rfl⟩
    · intro hnil
      rw [hnil] at hentries
      exact hsome (forall₂_nil_left_iff.mp hentries)
    · rw [hentries.length_eq]
      exact hfew

theorem short_iff {l : List Value} {most : Nat} :
    (!(decide (l.length < 1) || decide (l.length > most))) = true ↔
      1 ≤ l.length ∧ l.length ≤ most := by
  rw [Bool.not_eq_true', Bool.or_eq_false_iff, decide_eq_false_iff_not, decide_eq_false_iff_not,
    Nat.not_lt, Nat.not_lt]

/-- The owner's keys are registered one by one, each under its place. -/
theorem ownerLoop_eq_ok {κ : Type} (keyed : String → κ)
    {f : List (κ × String) → Value × Nat → Check (List (κ × String))}
    (hf : ∀ s x s', f s x = .ok s' ↔ (∃ key, TypedKey ownerKeyAlgs x.1 key) ∧
      keyed (textOf (field x.1 "key")) ∉ s.map Prod.fst ∧
      s' = s ++ [(keyed (textOf (field x.1 "key")), itemLabel "owner_keys" x.2)])
    {owners : List Value} {s s' : List (κ × String)} :
    owners.zipIdx.foldlM f s = .ok s' ↔
      (∀ e ∈ owners, ∃ key, TypedKey ownerKeyAlgs e key) ∧
      Fresh (s.map Prod.fst) ((owners.map (fun e => textOf (field e "key"))).map keyed) ∧
      s' = s ++ owners.zipIdx.map (fun x =>
        (keyed (textOf (field x.1 "key")), itemLabel "owner_keys" x.2)) := by
  rw [foldlM_register_eq_ok (fun x : Value × Nat => ∃ key, TypedKey ownerKeyAlgs x.1 key)
    (fun x => (keyed (textOf (field x.1 "key")), itemLabel "owner_keys" x.2)) owners.zipIdx
    (fun s x _ s' => hf s x s'), forall_mem_zipIdx (P := fun e => ∃ key, TypedKey ownerKeyAlgs e key),
    map_zipIdx (fun e => keyed (textOf (field e "key"))), map_map]
  rfl

/-- The rules that stand alone, and the list of those that revoke. -/
theorem ruleLoops_eq_ok {ids : List String} {f : Value → String → Bool → Check Unit}
    (hf : ∀ {rule label alone}, f rule label alone = .ok () ↔
      ∃ parties t, SignerRule ids alone rule parties t) :
    (∀ m u, (singleRules.forM fun name => f (field m name) name false) = .ok u ↔
      ∀ name ∈ singleRules, ∃ parties t, SignerRule ids false (field m name) parties t) ∧
    ∀ (rules : List Value) u, (rules.zipIdx.forM fun item =>
        f item.1 (itemLabel "revocation_signers" item.2) true) = .ok u ↔
      ∀ rule ∈ rules, ∃ parties t, SignerRule ids true rule parties t :=
  ⟨fun _ _ => forM_eq_ok _ _ (fun _ _ => hf), fun rules _ => forM_zipIdx_eq_ok (fun _ => hf) rules⟩

/-- The fields of a v4 manifest, in the order a verifier reads them. -/
theorem signerFields_iff {most : Int} (hmost : field m "heartbeat_max_lifetime_s" = .num most) :
    (∃ owners, (field m "owner_keys" = .arr owners ∧ 1 ≤ owners.length ∧
        owners.length ≤ maxOwnerKeys) ∧ (∀ e ∈ owners, ∃ key, TypedKey ownerKeyAlgs e key) ∧
      ((nodesOf m).flatMap identities ++
        (owners.map (fun e => textOf (field e "key"))).map SeenKey.value).Nodup ∧
      (∃ life, field m "owner_heartbeat_lifetime_s" = .num life ∧ ownerHeartbeatMin ≤ life ∧
        life ≤ most) ∧ (∀ name ∈ singleRules, ∃ parties t,
        SignerRule (nodesById m).ids false (field m name) parties t) ∧
      ∃ rules, (field m "revocation_signers" = .arr rules ∧ 1 ≤ rules.length ∧
        rules.length ≤ maxRules) ∧ ∀ rule ∈ rules, ∃ parties t,
          SignerRule (nodesById m).ids true rule parties t) ↔ SignerFields m := by
  have hkeys : ∀ owners, field m "owner_keys" = .arr owners →
      ownerKeysOf m = owners.map (fun e => textOf (field e "key")) := by
    intro owners hlist
    rw [ownerKeysOf, hlist]
    rfl
  constructor
  · rintro ⟨owners, ⟨hlist, hsome, hfew⟩, htyped, hnew, ⟨life, hfield, hmin, hmax⟩, hsingle, rules,
      ⟨hruleList, hone, hfour⟩, hrule⟩
    exact ⟨⟨owners, hlist, hsome, hfew, htyped⟩, (hkeys owners hlist) ▸ hnew,
      ⟨life, most, hfield, hmost, hmin, hmax⟩, hsingle, rules, hruleList, hone, hfour, hrule⟩
  · rintro ⟨⟨owners, hlist, hsome, hfew, htyped⟩, hnew, ⟨life, most', hfield, hmost', hmin, hmax⟩,
      hsingle, rules, hruleList, hone, hfour, hrule⟩
    injection hmost.symm.trans hmost' with hmost''
    subst hmost''
    exact ⟨owners, ⟨hlist, hsome, hfew⟩, htyped, (hkeys owners hlist) ▸ hnew,
      ⟨life, hfield, hmin, hmax⟩, hsingle, rules, ⟨hruleList, hone, hfour⟩, hrule⟩

/-! ### Nodes -/

theorem mem_nodesById {p : String × Value} :
    p ∈ nodesById m ↔ p.2 ∈ nodesOf m ∧ p.1 = nodeId p.2 := by
  unfold nodesById
  rw [mem_map]
  constructor
  · rintro ⟨n, hn, rfl⟩
    exact ⟨hn, rfl⟩
  · rintro ⟨hn, hid⟩
    exact ⟨p.2, hn, Prod.ext hid.symm rfl⟩

theorem nodesById_ids (m : Value) : (nodesById m).ids = (nodesOf m).map nodeId := by
  unfold nodesById Nodes.ids
  rw [map_map]
  rfl

/-- A node of a manifest whose IDs are distinct, by its ID. -/
theorem nodesById_at_eq_some (hids : ((nodesOf m).map nodeId).Nodup) (id : String) (n : Value) :
    (nodesById m).at id = some n ↔ n ∈ nodesOf m ∧ nodeId n = id := by
  unfold Nodes.at
  rw [Option.map_eq_some_iff]
  have hkeys : ((nodesById m).map Prod.fst).Nodup := by
    rw [← nodesById_ids] at hids
    exact hids
  constructor
  · rintro ⟨p, hp, rfl⟩
    rcases (find?_key_eq_some hkeys id p).mp hp with ⟨hmem, hid⟩
    rcases mem_nodesById.mp hmem with ⟨hn, hfst⟩
    exact ⟨hn, hfst.symm.trans hid⟩
  · rintro ⟨hn, hid⟩
    refine ⟨(id, n), (find?_key_eq_some hkeys id _).mpr ⟨?_, rfl⟩, rfl⟩
    exact mem_nodesById.mpr ⟨hn, hid.symm⟩

variable {candidate : Value}

/-- A loop over the nodes of a manifest with as many as the one before: each
    replaces one. -/
theorem forM_replaced_eq_ok {β : Type} {g : Value → β} {f : β → Check Unit} {u : Unit}
    {current : Value} {P : Value → Value → Prop}
    (hids : ((nodesOf current).map nodeId).Nodup) (hsame : ∀ id,
      id ∈ (nodesOf current).map nodeId ↔ id ∈ (nodesOf candidate).map nodeId)
    (hf : ∀ node ∈ nodesOf candidate, ∀ old ∈ nodesOf current,
      (nodesById current).at (nodeId node) = some old → (f (g node) = .ok () ↔ P node old)) :
    ((nodesOf candidate).map g).forM f = .ok u ↔
      ∀ node ∈ nodesOf candidate, ∀ old ∈ nodesOf current, nodeId old = nodeId node →
        P node old := by
  apply forM_map_eq_ok
  intro node hnode
  rcases mem_map.mp ((hsame _).mpr (mem_map_of_mem (f := nodeId) hnode)) with
    ⟨old, hold, hid⟩
  rw [hf node hnode old hold ((nodesById_at_eq_some hids _ old).mpr ⟨hold, hid⟩)]
  constructor
  · intro h other hother hsameID
    -- IDs are unique, so the node replaces no other
    rw [inj_on_of_nodup_map hids hother hold (hsameID.trans hid.symm)]
    exact h
  · intro h
    exact h old hold hid

theorem restrictive_iff {current : Value} : Restrictive current candidate ↔
    (∀ k ∈ rootFields, field candidate k = field current k) ∧
    (∀ id, id ∈ (nodesOf current).map nodeId ↔ id ∈ (nodesOf candidate).map nodeId) ∧
    ∀ node ∈ nodesOf candidate, ∀ old ∈ nodesOf current, nodeId old = nodeId node →
      SameHardware old node ∧ ∀ a ∈ nodeCapabilities node, a ∈ nodeCapabilities old :=
  ⟨fun h => ⟨h.fields, fun id => (h.ids id).symm, h.nodes⟩,
    fun ⟨hfields, hids, hnodes⟩ => ⟨hfields, fun id => (hids id).symm, hnodes⟩⟩

/-- A node's signing key, as the format has it and as a verifier reads it. -/
theorem signingKey_iff (h : NodeRule schema node) (hhas : hasField node "signing_key" = true)
    {alg : Algorithm} :
    TypedKey signingKeyAlgs (field node "signing_key") (alg, key) ↔
      field (field node "signing_key") "key" = .str key ∧
      (alg ∈ revocationAlgs ∧ field (field node "signing_key") "alg" = .str alg.text) := by
  constructor
  · intro hkey
    refine ⟨hkey.hex, ?_, hkey.alg⟩
    cases alg <;> decide
  · rintro ⟨hhex, _, halg⟩
    rcases h.signing hhas with ⟨k, hk⟩
    injection hhex.symm.trans hk.hex with hhex
    injection halg.symm.trans hk.alg with halg
    have hk' : k = (alg, key) := Prod.ext (Algorithm.text_injective _ _ halg).symm hhex.symm
    rw [← hk']
    exact hk

theorem IsHex.matches_textOf {n : Nat} (h : IsHex n v) : matchesHex n (textOf v) = true := by
  rcases h with ⟨s, rfl, hs⟩
  exact hs

/-- Every identity of a node is hex, and long. -/
theorem NodeRule.identity_hex (h : NodeRule schema node) {k : String} (hk : k ∈ identityKeys node) :
    ∃ n, 64 ≤ n ∧ matchesHex n (identityValue node k) = true := by
  have hplain : ∀ {k n}, k ≠ "signing_key" → 64 ≤ n → IsHex n (field node k) →
      ∃ n, 64 ≤ n ∧ matchesHex n (identityValue node k) = true := by
    intro k n hne hn hhex
    refine ⟨n, hn, ?_⟩
    rw [identityValue, if_neg hne]
    exact hhex.matches_textOf
  unfold identityKeys at hk
  rcases mem_append.mp hk with hk | hsigning
  · rcases mem_append.mp hk with hfour | hssh
    · simp only [mem_cons, not_mem_nil, or_false] at hfour
      rcases hfour with rfl | rfl | rfl | rfl
      · exact hplain (by decide) (by decide) h.ek
      · exact hplain (by decide) (by decide) h.ak
      · exact hplain (by decide) (by decide) h.wgBoot
      · exact hplain (by decide) (by decide) h.wgService
    · by_cases hhas : hasField node "ssh_host_pub" = true
      · rw [if_pos hhas, mem_singleton] at hssh
        subst hssh
        exact hplain (by decide) (by decide) (h.sshHost hhas)
      · rw [if_neg hhas] at hssh
        cases hssh
  · by_cases hhas : hasField node "signing_key" = true
    · rw [if_pos hhas, mem_singleton] at hsigning
      subst hsigning
      rcases h.signing hhas with ⟨key, hkey⟩
      have hecdsa : key.1 = .ecdsaP256 := by simpa [signingKeyAlgs] using hkey.mem
      have hshape := hkey.shape
      rw [hecdsa] at hshape
      refine ⟨130, by decide, ?_⟩
      rw [identityValue, if_pos rfl, hkey.hex]
      exact hshape.1
    · rw [if_neg hhas] at hsigning
      cases hsigning

/-! ### The loops of a verifier -/

/-- A loop that takes each node in turn, with whatever it keeps of what it has
    seen: the nodes are all right, and together they hold nothing twice. -/
theorem nodeLoop_eq_ok {κ : Type}
    {f : Nodes × List (κ × String) → Value × Nat → Check (Nodes × List (κ × String))}
    {uses : Value → List (κ × String)} (hf : ∀ s x r, f s x = .ok r ↔ NodeRule schema x.1 ∧
      (Fresh s.1.ids [nodeId x.1] ∧ Fresh (s.2.map Prod.fst) ((uses x.1).map Prod.fst)) ∧
      r = (s.1 ++ [(nodeId x.1, x.1)], s.2 ++ uses x.1)) {nodes : List Value}
    {r : Nodes × List (κ × String)} :
    nodes.zipIdx.foldlM f ([], []) = .ok r ↔ (∀ node ∈ nodes, NodeRule schema node) ∧
      ((nodes.map nodeId).Nodup ∧ ((nodes.flatMap uses).map Prod.fst).Nodup) ∧
      r = (nodes.map (fun n => (nodeId n, n)), nodes.flatMap uses) := by
  have hend : ∀ (l : List (Value × Nat)) (s : Nodes × List (κ × String)),
      l.foldl (fun s x => (s.1 ++ [(nodeId x.1, x.1)], s.2 ++ uses x.1)) s =
        (s.1 ++ l.map (fun x => (nodeId x.1, x.1)), s.2 ++ l.flatMap (fun x => uses x.1)) := by
    intro l
    induction l with
    | nil => intro s; simp
    | cons x rest ih =>
      intro s
      rw [foldl_cons, ih]
      simp
  rw [foldlM_collect_eq_ok (fun x : Value × Nat => NodeRule schema x.1)
    (fun (s : Nodes × List (κ × String)) x => Fresh s.1.ids [nodeId x.1] ∧
      Fresh (s.2.map Prod.fst) ((uses x.1).map Prod.fst))
    (fun s x => (s.1 ++ [(nodeId x.1, x.1)], s.2 ++ uses x.1)) nodes.zipIdx
    (fun s x _ r => hf s x r), freshThrough_and,
    freshThrough_iff (fun s : Nodes × List (κ × String) => s.1.ids)
      (fun x : Value × Nat => [nodeId x.1]) _ (fun s x => by simp [Nodes.ids]),
    freshThrough_iff (fun s : Nodes × List (κ × String) => s.2.map Prod.fst)
      (fun x : Value × Nat => (uses x.1).map Prod.fst) _ (fun s x => by simp), hend]
  rw [forall_mem_zipIdx (P := NodeRule schema), ← map_eq_flatMap, map_zipIdx nodeId,
    flatMap_zipIdx (fun n => (uses n).map Prod.fst), map_zipIdx (fun n => (nodeId n, n)),
    flatMap_zipIdx uses, nil_append, nil_append, map_flatMap]
  simp only [Nodes.ids, map_nil, fresh_of_nil]

/-- The party a signature names. -/
def partyOf (sig : Value) : String := textOf (field sig "party")

theorem SignedBy.party {sig : Value} {party : String} (h : SignedBy crypto m message sig party) :
    party = partyOf sig := by
  unfold partyOf
  rw [h.2.1]
  rfl

/-- A signature, in the order a verifier reads it, and what is then known of the
    parties. -/
theorem signatureOver_iff {alg : Algorithm} {sig : Value} :
    SignatureOver crypto alg key message sig ↔
      IsHex 128 sig ∧ Verifies crypto alg (hexBytes key) message (hexBytes (textOf sig)) := by
  constructor
  · rintro ⟨s, rfl, hhex, h⟩
    exact ⟨⟨s, rfl, hhex⟩, h⟩
  · rintro ⟨⟨s, rfl, hhex⟩, h⟩
    exact ⟨s, rfl, hhex, h⟩

theorem signedBy_iff {sig : Value} {found r : List String × List String} :
    (Exact sig ["party", "key", "sig"] ∧ ∃ party, (field sig "party" = .str party ∧
        party ∉ found.1) ∧ ∃ key, (field sig "key" = .str key ∧ matchesSignatureKey key = true) ∧
      ∃ alg, PartyKey m party (alg, key) ∧ SignatureOver crypto alg key message (field sig "sig") ∧
        (found.1 ++ [party], if counting m party = true then found.2 ++ [party] else found.2) = r) ↔
      SignedBy crypto m message sig (partyOf sig) ∧ Fresh found.1 [partyOf sig] ∧
      r = (found.1 ++ [partyOf sig], found.2 ++ [partyOf sig].filter (counting m)) := by
  have hcounts : ∀ party, (if counting m party = true then found.2 ++ [party] else found.2) =
      found.2 ++ [party].filter (counting m) := by
    intro party
    cases hc : counting m party with
    | true => simp [hc]
    | false => simp [hc]
  simp only [hcounts, fresh_singleton]
  constructor
  · rintro ⟨hexact, party, ⟨hparty, hnew⟩, key, ⟨hkey, hname⟩, alg, hpartyKey, hsigned, rfl⟩
    have hof : partyOf sig = party := by
      rw [partyOf, hparty]
      rfl
    rw [hof]
    exact ⟨⟨hexact, hparty, (alg, key), hkey, hname, hpartyKey, hsigned⟩, hnew, rfl⟩
  · rintro ⟨⟨hexact, hparty, key, hkey, hname, hpartyKey, hsigned⟩, hnew, rfl⟩
    exact ⟨hexact, partyOf sig, ⟨hparty, hnew⟩, key.2, ⟨hkey, hname⟩, key.1, hpartyKey, hsigned,
      rfl⟩

/-- A loop that takes each signature in turn, with the parties named so far
    and those of them that count. -/
theorem signatureLoop_eq_ok
    {f : List String × List String → Value × Nat → Check (List String × List String)}
    (hf : ∀ s x r, f s x = .ok r ↔ SignedBy crypto m message x.1 (partyOf x.1) ∧
      Fresh s.1 [partyOf x.1] ∧
      r = (s.1 ++ [partyOf x.1], s.2 ++ [partyOf x.1].filter (counting m))) {list : List Value}
    {r : List String × List String} :
    list.zipIdx.foldlM f ([], []) = .ok r ↔ ∃ parties,
      List.Forall₂ (SignedBy crypto m message) list parties ∧ parties.Nodup ∧
      r = (parties, parties.filter (counting m)) := by
  have hend : ∀ (l : List (Value × Nat)) (s : List String × List String),
      l.foldl (fun s x => (s.1 ++ [partyOf x.1], s.2 ++ [partyOf x.1].filter (counting m))) s =
        (s.1 ++ l.map (fun x => partyOf x.1),
          s.2 ++ (l.map (fun x => partyOf x.1)).filter (counting m)) := by
    intro l
    induction l with
    | nil => intro s; simp
    | cons x rest ih =>
      intro s
      have hfilter := filter_append (p := counting m) [partyOf x.1]
        (rest.map (fun x => partyOf x.1))
      rw [singleton_append] at hfilter
      rw [foldl_cons, ih, map_cons, hfilter]
      simp only [append_assoc, singleton_append]
  rw [foldlM_collect_eq_ok (fun x : Value × Nat => SignedBy crypto m message x.1 (partyOf x.1))
    (fun (s : List String × List String) x => Fresh s.1 [partyOf x.1])
    (fun s x => (s.1 ++ [partyOf x.1], s.2 ++ [partyOf x.1].filter (counting m))) list.zipIdx
    (fun s x _ r => hf s x r), freshThrough_iff (fun s : List String × List String => s.1)
      (fun x : Value × Nat => [partyOf x.1]) _ (fun _ _ => rfl), hend,
    forall_mem_zipIdx (P := fun sig => SignedBy crypto m message sig (partyOf sig)),
    ← map_eq_flatMap, map_zipIdx partyOf, fresh_of_nil, nil_append, nil_append]
  simp only [forall₂_iff_map (R := SignedBy crypto m message) (fun _ _ h => SignedBy.party h)]
  constructor
  · rintro ⟨hsigned, hnodup, rfl⟩
    exact ⟨list.map partyOf, ⟨hsigned, rfl⟩, hnodup, rfl⟩
  · rintro ⟨_, ⟨hsigned, rfl⟩, hnodup, rfl⟩
    exact ⟨hsigned, hnodup, rfl⟩

/-! ### Who signs -/

theorem Signer.text_injective {a b : Signer} (h : a.text = b.text) : a = b := by
  cases a <;> cases b <;> first | rfl | exact absurd h (by decide)

/-- A key of the pinned root, found by its hex. -/
theorem rootSigner_iff {r : Signer × Algorithm} :
    (∃ keys, RootKeys root keys ∧ ∃ k, keys.find? (fun k => k.2 = key) = some k ∧
      (Signer.root, k.1) = r) ↔
      Json.str "root" = .str r.1.text ∧ SoleKey root current r.1 (r.2, key) := by
  constructor
  · rintro ⟨keys, hkeys, k, hk, rfl⟩
    rcases (find?_key_eq_some hkeys.distinct key k).mp hk with ⟨hmem, rfl⟩
    exact ⟨rfl, keys, hkeys, hmem⟩
  · rintro ⟨hr, hsole⟩
    have hr1 : r.1 = .root := by
      injection hr with htext
      exact Signer.text_injective htext.symm
    rw [hr1] at hsole
    rcases hsole with ⟨keys, hkeys, hmem⟩
    exact ⟨keys, hkeys, (r.2, key), (find?_key_eq_some hkeys.distinct key _).mpr ⟨hmem, rfl⟩,
      Prod.ext hr1.symm rfl⟩

/-- A revocation key of the current manifest. -/
theorem revocationSigner_iff {r : Signer × Algorithm} :
    (∃ alg, (∃ m, current = some m ∧ ∃ e ∈ itemsOf (field m "revocation_keys"),
      KeyEntry e (alg, key)) ∧ (Signer.revocation, alg) = r) ↔
      Json.str "revocation" = .str r.1.text ∧ SoleKey root current r.1 (r.2, key) := by
  constructor
  · rintro ⟨alg, hentry, rfl⟩
    exact ⟨rfl, hentry⟩
  · rintro ⟨hr, hsole⟩
    have hr1 : r.1 = .revocation := by
      injection hr with htext
      exact Signer.text_injective htext.symm
    rw [hr1] at hsole
    exact ⟨r.2, hsole, Prod.ext hr1.symm rfl⟩

/-- The first revocation key with a hex. -/
theorem revocationKey_iff (hkeys : List.Forall₂ KeyEntry (itemsOf (field m "revocation_keys")) keys)
    (hnodup : (keys.map Prod.snd).Nodup) {alg : Algorithm} :
    (keys.find? (fun k => k.2 = key)).map Prod.fst = some alg ↔
      ∃ e ∈ itemsOf (field m "revocation_keys"), KeyEntry e (alg, key) := by
  rw [exists_entry_iff (R := KeyEntry) (fun _ _ _ => KeyEntry.unique) hkeys]
  simp only [Option.map_eq_some_iff, find?_key_eq_some hnodup]
  constructor
  · rintro ⟨k, ⟨hmem, rfl⟩, rfl⟩
    exact hmem
  · intro hmem
    exact ⟨(alg, key), ⟨hmem, rfl⟩, rfl⟩

/-- Alone sign the root and a revocation key, never a quorum. -/
theorem Single.signer {envelope : Value} {signer : Signer} {key : Algorithm × String}
    (h : Single crypto root current envelope candidate signer key) :
    field (field envelope "signature") "signer" = .str "root" ∨
      field (field envelope "signature") "signer" = .str "revocation" := by
  have hsole := h.sole
  have hnamed := h.named
  cases signer with
  | root => exact .inl hnamed
  | revocation => exact .inr hnamed
  | quorum => exact hsole.elim

/-- A change of the schema goes up, and the root signs it. -/
def SchemaStep (current candidate : Value) (signer : Signer) : Prop :=
  field candidate "schema" = field current "schema" ∨
    (signer = .root ∧ ∃ old new, schemaOf current = some old ∧ schemaOf candidate = some new ∧
      old.index < new.index)

theorem schemaStep_iff {s t : Schema} {current : Value} {signer : Signer}
    (hcurrent : Valid s current) (hcandidate : Valid t candidate) :
    (field candidate "schema" ≠ field current "schema" → s.index < t.index ∧ signer = .root) ↔
      SchemaStep current candidate signer := by
  rw [SchemaStep, hcurrent.schemaOf, hcandidate.schemaOf]
  by_cases hsame : field candidate "schema" = field current "schema"
  · simp [hsame]
  · simp only [ne_eq, hsame, not_false_eq_true, forall_const, false_or]
    constructor
    · rintro ⟨hlt, hroot⟩
      exact ⟨hroot, s, t, rfl, rfl, hlt⟩
    · rintro ⟨hroot, old, new, hold, hnew, hlt⟩
      rw [Option.some.inj hold, Option.some.inj hnew]
      exact ⟨hlt, hroot⟩

/-- The next manifest, in the order a verifier checks it. -/
theorem next_iff {current m : Value} {signer : Signer} :
    (epochOf candidate = epochOf current + 1 ∧
      field candidate "prev_digest" = .str (Python.digest current) ∧
      SchemaStep current candidate signer ∧ Tombstones current candidate ∧
      (signer ≠ .root → Restrictive current candidate) ∧
      candidate = m) ↔ Next current candidate signer ∧ m = candidate := by
  constructor
  · rintro ⟨hnext, hchained, hschema, htombstones, hrestrictive, rfl⟩
    exact ⟨⟨hnext, hchained, hschema, htombstones, hrestrictive⟩, rfl⟩
  · rintro ⟨h, rfl⟩
    exact ⟨h.epoch, h.chained, h.schema, h.tombstones, h.restrictive, rfl⟩

theorem SignerRule.meets_iff {ids named : List String} {alone : Bool} {rule : Value} {t : Int}
    {parties : List String} (h : SignerRule ids alone rule named t) :
    t ≤ ((named.filter (· ∈ parties)).length : Int) ↔ Meets rule parties := by
  constructor
  · intro hmet
    exact ⟨named, t, h.names, h.number, hmet⟩
  · rintro ⟨named', t', hnames, hnumber, hmet⟩
    injection h.number.symm.trans hnumber with ht
    rw [h.names.unique hnames, ht]
    exact hmet

/-- The rules of a v4 manifest are well formed, so it is enough that a test
    decides a well-formed rule. -/
theorem exists_rule_iff (h : Valid .v4 m) {test : Value → Bool} {P : Value → Prop}
    (htest : ∀ {rule named t}, SignerRule (nodesById m).ids true rule named t →
      (test rule = true ↔ P rule)) :
    (∃ rule ∈ itemsOf (field m "revocation_signers"), test rule = true) ↔
      ∃ rule ∈ itemsOf (field m "revocation_signers"), P rule := by
  rcases (h.signers rfl).revocation with ⟨rules, hrules, _, _, hrule⟩
  rw [hrules]
  refine exists_congr (fun rule => and_congr_right (fun hmem => ?_))
  rcases hrule rule hmem with ⟨named, t, hnamed⟩
  exact htest hnamed

end Regalia.Membership
