import Regalia.Theory.Attest.Verdicts
import Regalia.Theory.Membership.PythonRules
import Regalia.Theory.Membership.Comparing
import Mathlib.Data.List.Pairwise

/-!
# Matched Measurements

A verifier matches a quote by its firmware's version and by a digest of the
registers' values in the order of the registers. What `validate_policy` asks
of a node's sets makes the digest tell the values: all sets select the same
registers, each value has the same length, and no set shows in any phase what
another shows, or what it shows itself in the other phase.

## Main definitions

* `MeasurementSet.Told`: What is asked of one set.
* `matched`: The sets a quote matches in a phase.

## Theorems

* `one_set_one_phase`: A quote matches one set, and a set with registers for
  each phase in one phase.
-/

namespace Regalia.Attest

open List
open Regalia.Membership

/-! ### Registers -/

theorem pcrIndex_eq_some {s : String} {i : Nat} (h : pcrIndex s = some i) :
    s.toList = Nat.toDigits 10 i := by
  unfold pcrIndex at h
  split at h
  · rename_i c hs
    split at h
    · rename_i hc
      rw [hs, ← Option.some.inj h, (toDigits_of_digit hc).2]
    · cases h
  · rename_i c d hs
    split at h
    · rename_i hform
      simp only [Bool.and_eq_true, decide_eq_true_eq] at hform
      obtain ⟨⟨hc, hzero⟩, hd⟩ := hform
      have hall : ∀ e ∈ [c, d], e.isDigit = true := by simp [hc, hd]
      have hdigits := (toDigits_ofDigitChars_cons hzero hall).2
      simp only [Nat.ofDigitChars_cons, Nat.ofDigitChars_nil, Nat.mul_zero, Nat.zero_add] at hdigits
      rw [hs, ← Option.some.inj h, hdigits]
    · cases h
  · cases h

/-- Registers that are named once, each with 32 bytes. -/
structure Pcrs.Plain (pcrs : Pcrs) : Prop where
  nodup : (pcrs.map Prod.fst).Nodup
  hex : ∀ p ∈ pcrs, matchesHex (2 * 32) p.2 = true

theorem matchesHex_of_isHex {n : Nat} {v : Value} (h : isHex n v = true) :
    matchesHex n (textOf v) = true := by
  cases v with
  | str s => exact h
  | _ => cases h

theorem validatePcrs_plain {v : Value} {label : String} {pcrs : Pcrs} (hord : v.Ordered)
    (h : validatePcrs v label = .ok pcrs) : pcrs.Plain := by
  simp only [validatePcrs, steps_eq_ok] at h
  have hall := (mapM_eq_ok _ _ (fun _ _ _ => Iff.rfl) pcrs).mp h.2
  have hkeys : (fieldsOf v).map Prod.fst = v.keys := by cases v <;> rfl
  have hnodup := (Ordered.keys_nodup hord).map (fun _ _ => String.toList_injective)
  rw [← hkeys, map_map] at hnodup
  have hread : (fieldsOf v).map (String.toList ∘ Prod.fst) =
      (pcrs.map Prod.fst).map (Nat.toDigits 10) ∧ ∀ p ∈ pcrs, matchesHex (2 * 32) p.2 = true := by
    clear h hnodup hkeys
    generalize fieldsOf v = fields at hall ⊢
    induction hall with
    | nil => exact ⟨rfl, forall_mem_nil _⟩
    | cons hread _ ih =>
      simp only [steps_eq_ok, Option.filter_eq_some_iff] at hread
      obtain ⟨i, ⟨hi, -⟩, hhex, rfl⟩ := hread
      refine ⟨?_, forall_mem_cons.mpr ⟨matchesHex_of_isHex hhex, ih.2⟩⟩
      rw [map_cons, map_cons, map_cons, ← ih.1, ← pcrIndex_eq_some hi]
      rfl
  rw [hread.1] at hnodup
  exact ⟨hnodup.of_map _, hread.2⟩

theorem ordered_perm (pcrs : Pcrs) : (ordered pcrs).Perm pcrs := perm_insertionSort _ _

/-- Registers that are named once have one order. -/
theorem ordered_eq_of_perm {a b : Pcrs} (h : a.Perm b) (ha : (a.map Prod.fst).Nodup) :
    ordered a = ordered b := by
  have hsame := (ordered_perm a).trans (h.trans (ordered_perm b).symm)
  refine hsame.eq_of_pairwise ?_ (pairwise_insertionSort _ a) (pairwise_insertionSort _ b)
  intro p q hp hq hle hge
  exact inj_on_of_nodup_map ha ((ordered_perm a).mem_iff.mp hp)
    (h.mem_iff.mpr ((ordered_perm b).mem_iff.mp hq)) (Nat.le_antisymm hle hge)

/-- Values of one length in the order of the same registers are told apart by
    their bytes. -/
theorem eq_of_bytes {a b : Pcrs} (hindex : a.map Prod.fst = b.map Prod.fst)
    (ha : ∀ p ∈ a, matchesHex (2 * 32) p.2 = true) (hb : ∀ p ∈ b, matchesHex (2 * 32) p.2 = true)
    (h : a.flatMap (fun p => hexBytes p.2) = b.flatMap (fun p => hexBytes p.2)) : a = b := by
  induction a generalizing b with
  | nil => exact (map_eq_nil_iff.mp hindex.symm).symm
  | cons p a ih =>
    cases b with
    | nil => cases hindex
    | cons r b =>
      obtain ⟨hp, hrest⟩ := List.cons.inj hindex
      rw [forall_mem_cons] at ha hb
      obtain ⟨hbytes, htail⟩ := append_inj h
        ((length_hexBytes ha.1).trans (length_hexBytes hb.1).symm)
      have hvalue : p.2 = r.2 := String.toList_injective <| by
        rw [← hexText_hexBytes ha.1, ← hexText_hexBytes hb.1]
        exact congrArg hexText hbytes
      rw [Prod.ext hp hvalue, ih hrest ha.2 hb.2 htail]

/-- What is hashed of registers. -/
def shownBytes (pcrs : Pcrs) : Bytes := (ordered pcrs).flatMap (fun p => hexBytes p.2)

/-! ### One set -/

namespace MeasurementSet

variable {s t : MeasurementSet} {phase phase' : Option Phase}

/-- What `validate_set` asks of a set. -/
structure Told (s : MeasurementSet) : Prop where
  pcrs : s.pcrs.Plain
  phase : ∀ phase, (s.inPhase phase).Plain
  same : ∀ phase, ((s.inPhase phase).map Prod.fst).Perm ((s.inPhase .initrd).map Prod.fst)
  apart : ∀ p ∈ s.pcrs, p.1 ∉ (s.inPhase .initrd).map Prod.fst
  moves : s.phased ≠ none → ordered (s.inPhase .initrd) ≠ ordered (s.inPhase .system)

/-- A phase in which a set can be matched. -/
def Tells (s : MeasurementSet) (phase : Option Phase) : Prop := phase ≠ none ∨ s.phased = none

theorem Told.values_eq (h : s.Told) (phase : Option Phase) :
    s.values phase = s.pcrs ++ phase.elim [] s.inPhase := by
  simp only [values]
  rw [filter_eq_self.mpr]
  intro p hp
  cases phase with
  | none => rfl
  | some phase =>
    refine decide_eq_true (fun hown => h.apart p hp ?_)
    exact (h.same phase).mem_iff.mp hown

theorem Told.values_plain (h : s.Told) (phase : Option Phase) : Pcrs.Plain (s.values phase) := by
  rw [h.values_eq]
  cases phase with
  | none => simpa using h.pcrs
  | some phase =>
    refine ⟨?_, ?_⟩
    · rw [map_append, nodup_append]
      refine ⟨h.pcrs.nodup, (h.phase phase).nodup, ?_⟩
      rintro i hi j hj rfl
      obtain ⟨p, hp, rfl⟩ := mem_map.mp hi
      exact h.apart p hp ((h.same phase).mem_iff.mp hj)
    · intro p hp
      rcases mem_append.mp hp with hp | hp
      · exact h.pcrs.hex p hp
      · exact (h.phase phase).hex p hp

theorem inPhase_of_unphased (h : s.phased = none) (phase : Phase) : s.inPhase phase = [] := by
  rw [inPhase, h]
  rfl

theorem Told.selects (h : s.Told) (hphase : s.Tells phase) :
    (ordered (s.values phase)).map Prod.fst = s.selection := by
  have hinitrd := h.values_plain (some .initrd)
  have hregisters : ((s.values phase).map Prod.fst).Perm
      ((s.pcrs ++ s.inPhase .initrd).map Prod.fst).dedup := by
    rw [h.values_eq] at hinitrd
    have hnodup : ((s.pcrs ++ s.inPhase .initrd).map Prod.fst).Nodup := hinitrd.nodup
    rw [h.values_eq, hnodup.dedup, map_append, map_append]
    refine List.Perm.append_left _ ?_
    cases phase with
    | none =>
      rw [inPhase_of_unphased (hphase.resolve_left (fun h => h rfl))]
      exact .refl _
    | some phase => exact h.same phase
  have hordered := (ordered_perm (s.values phase)).map Prod.fst
  have hsorted : ((ordered (s.values phase)).map Prod.fst).Pairwise (· ≤ ·) :=
    pairwise_map.mpr (pairwise_insertionSort _ _)
  exact (hordered.trans (hregisters.trans (perm_insertionSort _ _).symm)).eq_of_pairwise'
    hsorted (pairwise_insertionSort _ _)

theorem Tells.mem_shown (hphase : s.Tells phase) :
    (s.firmware, ordered (s.values phase)) ∈ s.shown := by
  unfold shown moments
  cases hphased : s.phased with
  | none =>
    have hnone : s.values phase = s.values none := by
      cases phase with
      | none => rfl
      | some phase =>
        simp only [values, Option.elim, inPhase_of_unphased hphased]
        rfl
    simp [hnone]
  | some given =>
    obtain ⟨phase, rfl⟩ := Option.ne_none_iff_exists'.mp
      (hphase.resolve_right (by rw [hphased]; exact nofun))
    cases phase <;> simp [phases]

/-- With no two values of one digest, a digest tells what a set shows. -/
theorem Told.values_eq_of_digest (hs : s.Told) (ht : t.Told) (hphase : s.Tells phase)
    (hphase' : t.Tells phase') (hselects : s.selection = t.selection) {messages : List Bytes}
    (hfree : Sha256.CollisionFree messages) (hmem : shownBytes (s.values phase) ∈ messages)
    (hmem' : shownBytes (t.values phase') ∈ messages)
    (h : expectedPcrDigest (s.values phase) = expectedPcrDigest (t.values phase')) :
    ordered (s.values phase) = ordered (t.values phase') := by
  refine eq_of_bytes ?_ ?_ ?_ (hfree _ hmem _ hmem' h)
  · rw [hs.selects hphase, ht.selects hphase', hselects]
  · exact fun p hp => (hs.values_plain phase).hex p ((ordered_perm _).mem_iff.mp hp)
  · exact fun p hp => (ht.values_plain phase').hex p ((ordered_perm _).mem_iff.mp hp)

/-- A set with registers for each phase shows its phases apart. -/
theorem Told.phases_apart (h : s.Told) (hphased : s.phased ≠ none) :
    ordered (s.values (some .initrd)) ≠ ordered (s.values (some .system)) := by
  intro hsame
  have hperm := (ordered_perm (s.values (some .initrd))).symm.trans
    (hsame ▸ ordered_perm (s.values (some .system)))
  rw [h.values_eq, h.values_eq] at hperm
  exact h.moves hphased
    (ordered_eq_of_perm ((perm_append_left_iff _).mp hperm) (h.phase .initrd).nodup)

end MeasurementSet

theorem validateSet_told {entry : Value} {name label : String} {s : MeasurementSet}
    (hord : entry.Ordered) (h : validateSet entry name label = .ok s) : s.Told := by
  simp only [validateSet, steps_eq_ok] at h
  obtain ⟨-, pcrs, hpcrs, h⟩ := h
  have hplain := validatePcrs_plain (Ordered.field hord "pcrs") hpcrs
  split at h
  · simp only [validatePhases, steps_eq_ok, onlyIf_eq_ok] at h
    obtain ⟨given, ⟨-, initrd, hinitrd, system, hsystem, hindex, hboth, hmoves, rfl⟩, -, rfl⟩ := h
    have hgiven := Ordered.field hord "phases"
    refine ⟨hplain, ?_, ?_, ?_, fun _ => hmoves⟩
    · rintro (_ | _)
      · exact validatePcrs_plain (Ordered.field hgiven "initrd") hinitrd
      · exact validatePcrs_plain (Ordered.field hgiven "system") hsystem
    · rintro (_ | _)
      · exact .refl _
      · exact ((ordered_perm system).map Prod.fst).symm.trans
          (hindex ▸ (ordered_perm initrd).map Prod.fst)
    · intro p hp hmem
      have hnone := filter_eq_nil_iff.mp hboth p ((ordered_perm _).mem_iff.mpr hp)
      exact hnone (decide_eq_true hmem)
  · simp only [steps_eq_ok] at h
    obtain ⟨-, rfl⟩ := h
    exact ⟨hplain, fun _ => ⟨nodup_nil, forall_mem_nil _⟩, fun _ => .refl _, fun _ _ => not_mem_nil, fun h => absurd rfl h⟩

/-! ### The sets of a node -/

/-- What `validate_sets` asks of two sets. -/
def Apart (a b : MeasurementSet) : Prop :=
  a.selection = b.selection ∧ ∀ shown ∈ a.shown, shown ∉ b.shown

instance : Std.Symm Apart :=
  ⟨fun _ _ h => ⟨h.1.symm, fun shown hb ha => h.2 shown ha hb⟩⟩

/-- What `validate_sets` asks of the sets of a node. -/
def ToldApart (sets : List MeasurementSet) : Prop := (∀ s ∈ sets, s.Told) ∧ sets.Pairwise Apart

theorem validateSetsOf_told {node : Value} {label : String} {sets : List MeasurementSet}
    (hord : node.Ordered) (h : validateSetsOf node label = .ok sets) : ToldApart sets := by
  unfold validateSetsOf at h
  split at h
  · simp only [validateSets, steps_eq_ok, Option.filter_eq_some_iff] at h
    obtain ⟨-, entries, ⟨hlist, hfew⟩, accepted, hall, hpair, rfl⟩ := h
    have hlength := ((mapM_eq_ok _ _ (fun _ _ _ => Iff.rfl) _).mp hall).length_eq
    refine ⟨forall_of_mapM hall ?_, ?_⟩
    · intro x hx s hs
      simp only [steps_eq_ok] at hs
      obtain ⟨-, -, -, hs⟩ := hs
      refine validateSet_told (Ordered.items (Ordered.field hord "accepted") ?_) hs
      rw [asList_eq_some.mp hlist]
      exact fst_mem_of_mem_zipIdx hx
    · rcases accepted with _ | ⟨a, _ | ⟨b, _ | ⟨c, rest⟩⟩⟩
      · exact List.Pairwise.nil
      · exact pairwise_singleton _ _
      · simp only [checkPair, distinctSets, steps_eq_ok] at hpair
        exact pairwise_pair.mpr ⟨hpair.2.1, hpair.2.2.2⟩
      · simp only [Bool.and_eq_true, decide_eq_true_eq] at hfew
        have hmost : entries.length ≤ 2 := hfew.2
        simp only [length_zipIdx, length_cons] at hlength
        omega
  · simp only [steps_eq_ok] at h
    obtain ⟨-, s, hs, rfl⟩ := h
    exact ⟨by simpa using validateSet_told hord hs, pairwise_singleton _ _⟩

theorem validatePolicy_told {doc : Document} {policy : Policy} (h : validatePolicy doc = .ok policy)
    {name : String} {node : NodePolicy} (hnode : policy.lookup name = some node) :
    (name, node) ∈ policy ∧ ToldApart node.accepted := by
  obtain ⟨before, after, hsplit, -⟩ := lookup_eq_some_iff.mp hnode
  have hmem : (name, node) ∈ policy := by rw [hsplit]; simp
  refine ⟨hmem, ?_⟩
  simp only [validatePolicy, steps_eq_ok] at h
  obtain ⟨-, -, -, hall⟩ := h
  have hsets : ∀ p ∈ policy, ToldApart p.2.accepted := by
    refine forall_of_mapM hall ?_
    intro x hx p hp
    simp only [steps_eq_ok] at hp
    obtain ⟨-, sets, hsets, -, rfl⟩ := hp
    refine validateSetsOf_told ?_ hsets
    have hord := Ordered.field doc.2 "nodes"
    cases hnodes : field doc "nodes" with
    | obj fields =>
      rw [hnodes] at hord hx
      exact Json.orderedFields_iff.mp hord.2 x hx
    | _ =>
      rw [hnodes] at hx
      cases hx
  exact hsets _ hmem

/-! ### Quotes -/

/-- The sets a quote matches in a phase, by the registers and the firmware. -/
def matched (sets : List MeasurementSet) (phase : Option Phase) (q : Quote) :
    List MeasurementSet :=
  (onPcrs q phase sets).filter (fun s => q.firmwareVersion = s.firmware)

/-- What is hashed for the sets of a node, in every phase. -/
def NodePolicy.messages (node : NodePolicy) : List Bytes :=
  node.accepted.flatMap (fun s => (none :: phases.map some).map (fun phase =>
    shownBytes (s.values phase)))

theorem mem_messages {node : NodePolicy} {s : MeasurementSet} (hs : s ∈ node.accepted)
    (phase : Option Phase) : shownBytes (s.values phase) ∈ node.messages := by
  refine mem_flatMap.mpr ⟨s, hs, mem_map.mpr ⟨phase, ?_, rfl⟩⟩
  rcases phase with _ | _ | _ <;> decide

theorem mem_matched {sets : List MeasurementSet} {phase : Option Phase} {q : Quote}
    {s : MeasurementSet} : s ∈ matched sets phase q ↔
      s ∈ sets ∧ q.pcrDigest = expectedPcrDigest (s.values phase) ∧
        q.firmwareVersion = s.firmware := by
  simp [matched, onPcrs, and_comm]

/-- A set of a node that a quote matches in a phase it can be matched in. -/
structure Matches (node : NodePolicy) (phase : Option Phase) (q : Quote) (s : MeasurementSet) :
    Prop where
  mem : s ∈ node.accepted
  told : s.Told
  tells : s.Tells phase
  digest : q.pcrDigest = expectedPcrDigest (s.values phase)
  firmware : q.firmwareVersion = s.firmware

section

variable {node : NodePolicy} {phase phase' : Option Phase} {q q' : Quote} {s t : MeasurementSet}

/-- Sets that one quote matches show the same, in one phase or in two. -/
theorem Matches.values_eq (hfree : Sha256.CollisionFree node.messages)
    (hs : Matches node phase q s) (ht : Matches node phase' q' t)
    (hselects : s.selection = t.selection) (hdigest : q.pcrDigest = q'.pcrDigest) :
    ordered (s.values phase) = ordered (t.values phase') :=
  hs.told.values_eq_of_digest ht.told hs.tells ht.tells hselects hfree (mem_messages hs.mem phase)
    (mem_messages ht.mem phase') (hs.digest.symm.trans (hdigest.trans ht.digest))

/-- Two sets of a node show nothing alike. -/
theorem Matches.not_apart (hfree : Sha256.CollisionFree node.messages)
    (hs : Matches node phase q s) (ht : Matches node phase' q' t)
    (hdigest : q.pcrDigest = q'.pcrDigest) (hfirmware : q.firmwareVersion = q'.firmwareVersion) :
    ¬ Apart s t := by
  intro hapart
  refine hapart.2 _ hs.tells.mem_shown ?_
  rw [hs.values_eq hfree ht hapart.1 hdigest, ← hs.firmware, hfirmware, ht.firmware]
  exact ht.tells.mem_shown

end

theorem checkMeasurement_matched {expected : NodePolicy} {c : Call} {q : Quote} {s : MeasurementSet}
    (h : checkMeasurement expected c q = .ok s) : s ∈ matched expected.accepted c.phase q := by
  simp only [checkMeasurement, steps_eq_ok] at h
  obtain ⟨-, -, -, -, -, hhead⟩ := h
  exact mem_of_mem_head? hhead

/-- A verdict comes with a set that its quote matches. -/
theorem verify_matched {signs : Bytes → Bytes → Bytes → Bool} {policy : Policy} {c : Call}
    {popping storing : Save} {state : State} {verdict : Verdict}
    (h : (verify signs policy c popping storing state).2 = .returned verdict) {q : Quote}
    (hq : parseQuote c.quote = .ok q) : ∃ expected s,
      checkCall policy c = .ok expected ∧ s ∈ matched expected.accepted c.phase q := by
  unfold verify at h
  split at h
  · cases h
  · rename_i expected hcall
    cases popping with
    | failed => cases h
    | last => cases h
    | done =>
      dsimp only [saving] at h
      split at h
      · cases h
      · rename_i hjudge
        simp only [judge, bind_eq_ok, checkQuote_eq_ok, Prod.exists] at hjudge
        obtain ⟨_, -, _, parsed, hshown, s, hset, -⟩ := hjudge
        obtain rfl := Except.ok.inj (hshown.parsed.symm.trans hq)
        exact ⟨expected, s, hcall, checkMeasurement_matched hset⟩

theorem checkCall_matches {policy : Policy} {c : Call} {node : NodePolicy}
    (h : checkCall policy c = .ok node) (htold : ToldApart node.accepted) {q : Quote}
    {s : MeasurementSet} (hs : s ∈ matched node.accepted c.phase q) : Matches node c.phase q s := by
  simp only [checkCall, steps_eq_ok] at h
  obtain ⟨found, -, hphase, -, -, rfl⟩ := h
  obtain ⟨hmem, hdigest, hfirmware⟩ := mem_matched.mp hs
  refine ⟨hmem, htold.1 s hmem, hphase.imp Option.isSome_iff_ne_none.mp ?_, hdigest, hfirmware⟩
  intro hnone
  have hfilter := filter_eq_nil_iff.mp (map_eq_nil_iff.mp hnone) s hmem
  exact Option.not_isSome_iff_eq_none.mp hfilter

def examplePolicyDoc : Document :=
  let register (digit : Char) : Value := .str (String.ofList (List.replicate 64 digit))
  let phases : Value := .obj [("initrd", .obj [("11", register 'a')]),
    ("system", .obj [("11", register 'b')])]
  let set : Value := .obj [("label", .str "A"), ("pcrs", .obj [("0", register '0')]),
    ("phases", phases), ("tpm_firmware_version", .str "0000000000000001")]
  let name := String.ofList (['0', '0', '0', 'b'] ++ List.replicate 64 '1')
  ⟨.obj [("nodes", .obj [("n", .obj [("accepted", .arr [set]), ("ek_name", .str name)])]),
    ("schema", .str policySchema)], by decide⟩

end Regalia.Attest
