import Regalia.Core.Membership.Go
import Regalia.Core.Membership.Python
import Regalia.Theory.Membership.Reading

/-!
# Comparing Values

How the two verifiers compare values that may be anything. Both writers give
the same bytes for every value. Go compares those bytes, and a document has
its own; Python compares the values, where a bool equals a number, and a valid
manifest holds no bool.

## Main definitions

* `Plain`: A value without bools.

## Theorems

* `go_canonical_eq`: The two writers give the same bytes.
* `canonical_injective`: A document is told by its canonical bytes.
* `equal_iff`, `equals_iff`: The comparisons are equality.
* `Valid.plain`: A valid manifest holds no bool.
-/

namespace Regalia.Membership

open List

variable {v : Value} {schema : Schema} {envelope candidate : Value} {current : Option Value}

/-! ### Documents -/

theorem Ordered.items {v w : Value} (h : v.Ordered) (hw : w ∈ itemsOf v) : w.Ordered := by
  cases v with
  | arr items => exact Json.orderedItems_iff.mp h w hw
  | _ => cases hw

theorem Ordered.keys_nodup (h : v.Ordered) : v.keys.Nodup := by
  cases v with
  | obj fields => exact h.1.imp (fun hlt => ne_of_lt hlt)
  | _ => exact nodup_nil

/-! ### Canonical bytes -/

theorem lessCodePoints_eq (a b : List Char) : Go.lessCodePoints a b = decide (a < b) := by
  induction a generalizing b with
  | nil => cases b <;> simp [Go.lessCodePoints]
  | cons c cs ih =>
    cases b with
    | nil => simp [Go.lessCodePoints]
    | cons d ds =>
      rw [Go.lessCodePoints, ih]
      by_cases hcd : c = d
      · simp [hcd]
      · simp [hcd, cons_lt_cons_iff]

/-- The two writers give the same bytes. -/
theorem go_canonical_eq (v : Value) : Go.canonical v = Python.canonical v := by
  have hless : (fun a b : String => Go.lessCodePoints a.toList b.toList) =
      (fun a b => decide (a < b)) := by
    funext a b
    rw [lessCodePoints_eq, decide_eq_decide, String.lt_iff_toList_lt]
  have hquoting : Go.quoting = asciiQuoting := by
    have hbody : (fun s : String => s.toList.flatMap Go.escape ++ ['"']) =
        (fun s => s.toList.flatMap Python.escape ++ ['"']) := by
      funext s
      rw [flatMap_congr (fun c _ => python_escape_eq_go c)]
    unfold Go.quoting asciiQuoting
    simp only [hbody]
  unfold Go.canonical Python.canonical Go.canonicalText Python.canonicalText
  rw [hless, hquoting]

theorem go_digest_eq (v : Value) : Go.digest v = Python.digest v := by
  unfold Go.digest Python.digest
  rw [go_canonical_eq]

mutual

theorem sortKeys_of_ordered : ∀ v : Value, v.Ordered → sortKeys (fun a b => decide (a < b)) v = v
  | .null, _ => rfl
  | .bool _, _ => rfl
  | .num _, _ => rfl
  | .str _, _ => rfl
  | .arr items, h => by
    rw [sortKeys, sortKeysItems_of_ordered items h]
  | .obj fields, h => by
    rw [sortKeys, sortKeysFields_of_ordered fields h.2]
    congr 1
    apply List.Pairwise.insertionSort_eq
    have hsorted := pairwise_map.mp h.1
    refine hsorted.imp ?_
    intro a b hab
    simp [not_lt_of_gt hab]

theorem sortKeysItems_of_ordered : ∀ items : List Value, Json.OrderedItems items →
    sortKeysItems (fun a b => decide (a < b)) items = items
  | [], _ => rfl
  | v :: rest, h => by
    rw [sortKeysItems, sortKeys_of_ordered v h.1, sortKeysItems_of_ordered rest h.2]

theorem sortKeysFields_of_ordered : ∀ fields : List (String × Value), Json.OrderedFields fields →
    sortKeysFields (fun a b => decide (a < b)) fields = fields
  | [], _ => rfl
  | (k, v) :: rest, h => by
    rw [sortKeysFields, sortKeys_of_ordered v h.1, sortKeysFields_of_ordered rest h.2]

end

/-- A document is told by its canonical bytes. -/
theorem canonical_injective {v w : Value} (hv : v.Ordered) (hw : w.Ordered)
    (h : Python.canonical v = Python.canonical w) : v = w := by
  have htext := GoString.ofRunes_injective _ _ h
  unfold Python.canonicalText at htext
  have hsort := Json.print_injective asciiQuoting _ _ htext
  rwa [sortKeys_of_ordered v hv, sortKeys_of_ordered w hw] at hsort

/-- Go's comparison of documents is equality. -/
theorem equal_iff {v w : Value} (hv : v.Ordered) (hw : w.Ordered) :
    Go.equal v w = true ↔ v = w := by
  unfold Go.equal
  rw [decide_eq_true_eq, go_canonical_eq, go_canonical_eq]
  exact ⟨canonical_injective hv hw, fun h => by rw [h]⟩

/-! ### Values without bools -/

/-- A value without bools: reading bools as numbers leaves it as it is. -/
def Plain (v : Value) : Prop := Python.boolsAsInts v = v

/-- Python's comparison of plain values is equality. -/
theorem equals_iff {v w : Value} (hv : Plain v) (hw : Plain w) :
    Python.equals v w = true ↔ v = w := by
  unfold Python.equals
  rw [decide_eq_true_eq, hv, hw]

theorem plain_arr {items : List Value} : Plain (.arr items) ↔ ∀ v ∈ items, Plain v := by
  unfold Plain
  rw [Python.boolsAsInts, Json.arr.injEq]
  induction items with
  | nil => simp [Python.boolsAsIntsItems]
  | cons v rest ih => simp [Python.boolsAsIntsItems, ih]

theorem plain_obj {fields : List (String × Value)} :
    Plain (.obj fields) ↔ ∀ f ∈ fields, Plain f.2 := by
  unfold Plain
  rw [Python.boolsAsInts, Json.obj.injEq]
  induction fields with
  | nil => simp [Python.boolsAsIntsFields]
  | cons f rest ih =>
    rw [forall_mem_cons, ← ih]
    simp [Python.boolsAsIntsFields, Prod.ext_iff]

theorem Plain.field (h : Plain v) (k : String) : Plain (field v k) := by
  unfold Membership.field
  cases hget : v.get? k with
  | none => rfl
  | some w =>
    cases v with
    | obj fields => exact plain_obj.mp h (k, w) (Json.get?_mem hget)
    | _ => cases hget

theorem Plain.items {v w : Value} (h : Plain v) (hw : w ∈ itemsOf v) : Plain w := by
  cases v with
  | arr items => exact plain_arr.mp h w hw
  | _ => cases hw

theorem plain_of_isHex {n : Nat} (h : IsHex n v) : Plain v := by
  rcases h with ⟨s, rfl, _⟩
  rfl

theorem plain_of_names {l : List String} (h : Names v l) : Plain v := by
  rw [Names] at h
  rw [h, plain_arr]
  intro w hw
  rcases mem_map.mp hw with ⟨s, _, rfl⟩
  rfl

/-- An object of a document is plain when each of its fields is. -/
theorem plain_of_fields (hord : v.Ordered) (hobj : isObject v = true)
    (h : ∀ k ∈ v.keys, Plain (field v k)) : Plain v := by
  cases v with
  | obj fields =>
    rw [plain_obj]
    intro f hf
    have hkey : f.1 ∈ (Json.obj fields).keys := mem_map_of_mem (f := Prod.fst) hf
    have hget := Json.get?_of_mem (Ordered.keys_nodup hord) hf
    have hplain := h f.1 hkey
    unfold field at hplain
    rwa [hget] at hplain
  | _ => cases hobj

theorem TypedKey.plain {algs : List Algorithm} {key : Algorithm × String} (hord : v.Ordered)
    (h : TypedKey algs v key) : Plain v := by
  apply plain_of_fields hord h.exact.1
  intro k hk
  rw [h.exact.2 k] at hk
  rcases mem_cons.mp hk with rfl | hk
  · rw [h.alg]
    rfl
  · rw [mem_singleton.mp hk, h.hex]
    rfl

theorem KeyEntry.plain {key : Algorithm × String} (hord : v.Ordered) (h : KeyEntry v key) :
    Plain v := by
  rcases h with ⟨_, rfl, _⟩ | h
  · rfl
  · exact h.plain hord

theorem SignerRule.plain {ids parties : List String} {ownerAlone : Bool} {t : Int}
    (hord : v.Ordered) (h : SignerRule ids ownerAlone v parties t) : Plain v := by
  apply plain_of_fields hord h.exact.1
  intro k hk
  rw [h.exact.2 k] at hk
  rcases mem_cons.mp hk with rfl | hk
  · rw [h.number]
    rfl
  · rw [mem_singleton.mp hk]
    exact plain_of_names h.names

theorem mem_nodeKeys_of_shape {node : Value} (h : NodeShape schema node) {k : String}
    (hk : k ∈ node.keys) : k ∈ v4NodeKeys := by
  have hkeys : ∀ keys : List String, (keys = nodeKeys schema ∨ keys ∈ tombstoneShapes schema) →
      ∀ k ∈ keys, k ∈ v4NodeKeys := by
    rintro keys (rfl | hkeys)
    · cases schema <;> decide
    · revert keys
      cases schema <;> decide
  rcases h with hexact | ⟨_, keys, hmem, hexact⟩
  · exact hkeys _ (.inl rfl) k ((hexact.2 k).mp hk)
  · exact hkeys keys (.inr hmem) k ((hexact.2 k).mp hk)

theorem NodeRule.plain {node : Value} (hord : node.Ordered) (h : NodeRule schema node) :
    Plain node := by
  have hobj : isObject node = true := by
    rcases h.shape with hexact | ⟨_, _, _, hexact⟩
    · exact hexact.1
    · exact hexact.1
  apply plain_of_fields hord hobj
  intro k hk
  have hmem := mem_nodeKeys_of_shape h.shape hk
  have hhas : hasField node k = true := (hasField_iff node k).mpr hk
  simp only [v4NodeKeys, v2NodeKeys, v1NodeKeys, cons_append, nil_append, mem_cons,
    not_mem_nil, or_false] at hmem
  rcases hmem with rfl | rfl | rfl | rfl | rfl | rfl | rfl | rfl | rfl
  · rw [h.id]
    rfl
  · rcases Option.isSome_iff_exists.mp h.state with ⟨s, hs⟩
    rw [stateOf_eq_some.mp hs]
    rfl
  · exact plain_of_isHex h.ek
  · exact plain_of_isHex h.ak
  · exact plain_of_isHex h.wgBoot
  · exact plain_of_isHex h.wgService
  · exact plain_of_names h.serials
  · exact plain_of_isHex (h.sshHost hhas)
  · rcases h.signing hhas with ⟨key, hkey⟩
    exact hkey.plain (Ordered.field hord _)

/-- The fields of a manifest: those of every schema, and those of some. -/
theorem mem_manifestKeys {k : String} (h : k ∈ manifestKeys schema) :
    k ∈ ["schema", "epoch", "prev_digest", "policy_version", "issued_at", "nodes"] ∨
      (k = "revocation_keys" ∧ schema ≠ .v4) ∨
      (k = "heartbeat_max_lifetime_s" ∧ schema.second = true) ∨
      (k ∈ signerFields ∧ schema = .v4) := by
  revert k
  cases schema <;> decide

theorem SignerFields.plain {m : Value} (hord : m.Ordered) (h : SignerFields m) {k : String}
    (hk : k ∈ signerFields) : Plain (field m k) := by
  have hfield := Ordered.field hord
  have hlist : ∀ {k items}, field m k = .arr items → (∀ v ∈ items, v.Ordered → Plain v) →
      Plain (field m k) := by
    intro k items hitems hplain
    rw [hitems, plain_arr]
    intro v hv
    refine hplain v hv (Ordered.items (hfield k) ?_)
    rw [hitems]
    exact hv
  simp only [signerFields, mem_cons, not_mem_nil, or_false] at hk
  rcases hk with rfl | rfl | rfl | rfl | rfl
  · rcases h.lifetime with ⟨life, _, hlife, _⟩
    rw [hlife]
    rfl
  · rcases h.owners with ⟨owners, howners, _, _, htyped⟩
    refine hlist howners ?_
    intro v hv hord'
    rcases htyped v hv with ⟨key, hkey⟩
    exact hkey.plain hord'
  · rcases h.single "heartbeat_signers" (by decide) with ⟨_, _, hrule⟩
    exact hrule.plain (hfield _)
  · rcases h.single "activation_signers" (by decide) with ⟨_, _, hrule⟩
    exact hrule.plain (hfield _)
  · rcases h.revocation with ⟨rules, hrules, _, _, hrule⟩
    refine hlist hrules ?_
    intro v hv hord'
    rcases hrule v hv with ⟨_, _, hv'⟩
    exact hv'.plain hord'

/-- A valid manifest holds no bool. -/
theorem Valid.plain {m : Value} (hord : m.Ordered) (h : Valid schema m) : Plain m := by
  apply plain_of_fields hord h.exact.1
  intro k hk
  rw [h.exact.2 k] at hk
  rcases mem_manifestKeys hk with hmem | ⟨rfl, hne⟩ | ⟨rfl, hsecond⟩ | ⟨hmem, hfourth⟩
  · simp only [mem_cons, not_mem_nil, or_false] at hmem
    rcases h.epoch with ⟨e, he, _, hfirst, hlater⟩
    rcases hmem with rfl | rfl | rfl | rfl | rfl | rfl
    · rw [h.named]
      rfl
    · rw [he]
      rfl
    · by_cases hone : e = 1
      · rw [hfirst hone]
        rfl
      · exact plain_of_isHex (hlater hone)
    · rcases h.policy with ⟨s, hs, _⟩
      rw [hs]
      rfl
    · rcases h.issued with ⟨s, _, hs, _⟩
      rw [hs]
      rfl
    · rw [h.nodes, plain_arr]
      intro node hnode
      exact (h.nodeRules node hnode).plain (Ordered.items (Ordered.field hord "nodes") hnode)
  · rcases h.revocation hne with ⟨entries, keys, hentries, hkeys, _⟩
    have hitems := Ordered.field hord "revocation_keys"
    rw [hentries] at hitems ⊢
    rw [plain_arr]
    intro v hv
    rcases forall₂_iff_get.mp hkeys with ⟨hlen, hget⟩
    rcases mem_iff_get.mp hv with ⟨i, rfl⟩
    exact (hget i i.2 (hlen ▸ i.2)).plain (Json.orderedItems_iff.mp hitems _ hv)
  · rcases h.lifetime hsecond with ⟨life, hlife, _⟩
    rw [hlife]
    rfl
  · exact (h.signers hfourth).plain hord hmem

/-- The nodes of a valid document, plain. -/
theorem Valid.plain_node {m node : Value} (h : Valid schema m) (hord : m.Ordered)
    (hnode : node ∈ nodesOf m) : Plain node :=
  ((h.plain hord).field "nodes").items hnode

/-! ### What an envelope holds -/

variable {crypto : Crypto} {root : Value} {signer : Signer}
  (h : Envelope crypto root current envelope candidate signer)

include h

theorem Envelope.manifest :
    field envelope "manifest" = candidate ∧ ∃ schema, Valid schema candidate := by
  unfold Envelope at h
  by_cases hquorum : hasField envelope "signatures" = true
  · rw [if_pos hquorum] at h
    rcases h with ⟨_, _, _, _, h⟩
    exact ⟨h.manifest, h.valid⟩
  · rw [if_neg hquorum] at h
    rcases h with ⟨_, h⟩
    exact ⟨h.manifest, h.valid⟩

theorem Envelope.valid : ∃ schema, Valid schema candidate := h.manifest.2

theorem Envelope.ordered (hord : envelope.Ordered) : candidate.Ordered := by
  rw [← h.manifest.1]
  exact Ordered.field hord "manifest"

omit h

/-- Nodes with the same fields name their hardware in the same fields. -/
theorem hardwareKeys_congr {a b : Value} (h : ∀ k, k ∈ a.keys ↔ k ∈ b.keys) :
    hardwareKeys a = hardwareKeys b := by
  have hhas : ∀ k, hasField a k = hasField b k := by
    intro k
    rw [Bool.eq_iff_iff, hasField_iff, hasField_iff, h]
  unfold hardwareKeys identityKeys
  rw [hhas, hhas]

end Regalia.Membership
