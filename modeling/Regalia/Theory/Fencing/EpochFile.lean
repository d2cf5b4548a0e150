import Regalia.Core.Fencing.EpochFile
import Regalia.Data.Runs
import Regalia.Theory.Policy.ReadBack

/-!
# What a Failed Append Leaves Behind

An append that fails may have written its record all the same. The gate keeps
the epoch and the hash it had, so the next evaluation appends a second record
for the same place in the chain, and the journal no longer verifies; so does a
write that stops inside a record. After a restart the site can never hold a
lease again, though it was ready under the epoch of the second record.

A gate that is opened again takes its memory from the file, and then a whole
record does no harm. As long as no write stops inside a record, and no gate
that has fallen behind its file evaluates again, the journal verifies in every
state and knows every epoch the site was ready under.

## Main definitions

* `Standby.Steady`: A question that meets both conditions.
* `Standby.Sound`: The journal is the lines of a chain that ends in a memory.

## Theorems

* `verifyEpochText_lines`: The lines of a chain are read back and verify.
* `evaluate_sound`: One evaluation keeps the journal sound.
* `journal_survives`: So does every run of such questions.
* `retried_append_refused`: A sync that fails, and the journal is lost.
-/

namespace Regalia.Fencing

open List
open Policy (knownFields_append knownFields_field readUint64_plain readString_plain get?_field)

/-! ### Reading the lines back -/

theorem ofJson_json {r : EpochRecord} (hprevious : r.previousHash.validUTF8 = true)
    (hhash : r.hash.validUTF8 = true) : EpochRecord.ofJson r.json = some r := by
  have hknown : Policy.knownFields ["epoch", "previous_hash", "hash"] r.json = true := by
    unfold EpochRecord.json
    simp only [knownFields_append, Bool.and_eq_true]
    simp [knownFields_field]
  unfold EpochRecord.ofJson
  rw [hknown, if_neg (by simp [Policy.isStruct, EpochRecord.json])]
  simp only [EpochRecord.json, Json.get?_append, get?_field]
  simp only [String.reduceEq, if_true, if_false, Option.none_or, Option.some_or,
    readUint64_plain, readString_plain _ hprevious, readString_plain _ hhash]
  rfl

variable {records : List EpochRecord}

theorem decodeEpochs_lines (h : ∀ r ∈ records, EpochRecord.ofJson r.json = some r) :
    ∀ (fuel : Nat) (lead : List Char), records.length < fuel → (∀ c ∈ lead, c = '\n') →
      decodeEpochs fuel (lead ++ records.flatMap EpochRecord.line) = some records := by
  have hskip : ∀ (lead text : List Char), (∀ c ∈ lead, c = '\n') →
      Json.skipBlanks (lead ++ text) = Json.skipBlanks text := by
    intro lead text hlead
    refine dropWhile_append_of_pos ?_
    intro c hc
    rw [hlead c hc]
    rfl
  induction records with
  | nil =>
    intro fuel lead hfuel hlead
    obtain ⟨n, rfl⟩ := Nat.exists_eq_succ_of_ne_zero (Nat.ne_of_gt hfuel)
    rw [decodeEpochs, flatMap_nil, hskip lead [] hlead]
    rfl
  | cons r rest ih =>
    intro fuel lead hfuel hlead
    obtain ⟨n, rfl⟩ := Nat.exists_eq_succ_of_ne_zero (Nat.ne_of_gt (Nat.zero_lt_of_lt hfuel))
    rw [length_cons] at hfuel
    have hsplit : (r :: rest).flatMap EpochRecord.line =
        Json.print goQuoting r.json ++ (['\n'] ++ rest.flatMap EpochRecord.line) := by
      rw [flatMap_cons, EpochRecord.line, append_assoc]
    obtain ⟨c, t, hprint, hblank, -⟩ := Json.print_head goQuoting r.json
    have hne : Json.skipBlanks (lead ++ (r :: rest).flatMap EpochRecord.line) ≠ [] := by
      rw [hskip _ _ hlead, hsplit, hprint, cons_append, Json.skipBlanks_cons c _ hblank]
      exact cons_ne_nil _ _
    have hparse : ∀ m, (Json.print goQuoting r.json).length ≤ m →
        Json.parseValue goQuoting (m + 1) (lead ++ (r :: rest).flatMap EpochRecord.line) =
          some (r.json, ['\n'] ++ rest.flatMap EpochRecord.line) := by
      intro m hm
      have hread := Json.parseValue_print goQuoting r.json (m + 1)
        (['\n'] ++ rest.flatMap EpochRecord.line) (by omega) (Json.endsNumber_cons _ _ (by decide))
      rw [← hsplit, Json.parseValue] at hread
      rw [Json.parseValue, hskip _ _ hlead]
      exact hread
    have hlength : (Json.print goQuoting r.json).length ≤
        (lead ++ (r :: rest).flatMap EpochRecord.line).length := by
      rw [hsplit]
      simp only [length_append]
      omega
    have hrest := ih (fun r hr => h r (mem_cons_of_mem _ hr)) n ['\n'] (by omega) (by simp)
    rw [decodeEpochs, if_neg hne, hparse _ hlength]
    simp -implicitDefEqProofs only [Option.bind_eq_bind, Option.bind_some, h r mem_cons_self, hrest]
    rfl

/-! ### The chain -/

theorem validUTF8_epochHash (r : EpochRecord) : (epochHash r).validUTF8 = true := by
  unfold epochHash
  generalize Sha256.sum _ = sum
  rw [GoString.validUTF8, GoString.ofText, GoString.ofRunes, GoString.ofRunes,
    ← flatMap_append, ← GoString.ofRunes, GoString.pieces_ofRunes, all_map]
  exact all_eq_true.mpr (fun _ _ => rfl)

variable {memory : UInt64 × GoString}

/-- A chain's hashes are ASCII, its epochs rise, and it goes on with the record
    of a higher epoch. -/
theorem verifyEpochs_spec {maximum : UInt64} {previous : GoString} (h : verifyEpochs maximum previous records = some memory)
    (hprevious : previous.validUTF8 = true) :
    (∀ r ∈ records, EpochRecord.ofJson r.json = some r ∧ maximum < r.epoch) ∧
      (records.map EpochRecord.epoch).Pairwise (· < ·) ∧
      ∀ epoch, memory.1 < epoch →
        verifyEpochs maximum previous (records ++ [EpochRecord.next memory.2 epoch]) =
          some (epoch, (EpochRecord.next memory.2 epoch).hash) := by
  induction records generalizing maximum previous with
  | nil =>
    obtain rfl := Option.some.inj h
    refine ⟨fun r hr => absurd hr not_mem_nil, List.Pairwise.nil, ?_⟩
    intro epoch hepoch
    have hrecord : ¬ ((EpochRecord.next previous epoch).epoch ≤ maximum ∨
        (EpochRecord.next previous epoch).previousHash ≠ previous ∨
        (EpochRecord.next previous epoch).hash ≠ epochHash (EpochRecord.next previous epoch)) := by
      rintro (hle | hne | hne)
      · exact absurd hle (UInt64.not_le.mpr hepoch)
      · exact hne rfl
      · exact hne rfl
    rw [nil_append, verifyEpochs, if_neg hrecord]
    rfl
  | cons r rest ih =>
    rw [verifyEpochs] at h
    by_cases hbad : r.epoch ≤ maximum ∨ r.previousHash ≠ previous ∨ r.hash ≠ epochHash r
    · rw [if_pos hbad] at h
      cases h
    · rw [if_neg hbad] at h
      have hgood := not_or.mp hbad
      rw [not_or, not_not, not_not, UInt64.not_le] at hgood
      obtain ⟨hepoch, rfl, hhash⟩ := hgood
      have hvalid : r.hash.validUTF8 = true := hhash ▸ validUTF8_epochHash r
      obtain ⟨hread, hrise, hnext⟩ := ih h hvalid
      refine ⟨?_, ?_, ?_⟩
      · intro x hx
        rcases mem_cons.mp hx with rfl | hx
        · exact ⟨ofJson_json hprevious hvalid, hepoch⟩
        · exact ⟨(hread x hx).1, UInt64.lt_trans hepoch (hread x hx).2⟩
      · rw [map_cons, pairwise_cons]
        refine ⟨?_, hrise⟩
        intro e he
        obtain ⟨x, hx, rfl⟩ := mem_map.mp he
        exact (hread x hx).2
      · intro epoch hlater
        rw [cons_append, verifyEpochs, if_neg hbad]
        exact hnext epoch hlater

theorem validUTF8_genesisHash : genesisHash.validUTF8 = true := by decide

/-- The lines of a chain verify. -/
theorem verifyEpochText_lines (h : verifyEpochJournal records = some memory) :
    decodeEpochs ((records.flatMap EpochRecord.line).length + 1)
        (records.flatMap EpochRecord.line) = some records ∧
      verifyEpochText (records.flatMap EpochRecord.line) = some memory := by
  have hlength : records.length ≤ (records.flatMap EpochRecord.line).length := by
    rw [length_flatMap, ← length_map (f := fun r => (EpochRecord.line r).length)]
    refine length_le_sum_of_one_le _ ?_
    intro n hn
    obtain ⟨r, -, rfl⟩ := mem_map.mp hn
    simp [EpochRecord.line]
  have hdecode := decodeEpochs_lines
    (fun r hr => ((verifyEpochs_spec h validUTF8_genesisHash).1 r hr).1)
    ((records.flatMap EpochRecord.line).length + 1) [] (by omega) (by simp)
  rw [nil_append] at hdecode
  refine ⟨hdecode, ?_⟩
  rw [verifyEpochText, hdecode]
  exact h

/-! ### Standbys -/

/-- The write does not stop inside a record. -/
def Fault.whole : Option Fault → Bool
  | some (.write n) => n = 0
  | _ => true

/-- No write stops inside a record, and a gate that evaluates remembers what its
    journal says. -/
def Standby.Steady (s : Standby) : StandbyEvent → Prop
  | .ready q => Fault.whole q.openingFault = true ∧ Fault.whole q.fault = true ∧
      ∀ memory ∈ s.gate, verifyEpochText s.journal = some memory
  | _ => True

instance (s : Standby) : (event : StandbyEvent) → Decidable (s.Steady event)
  | .ready q => inferInstanceAs (Decidable (Fault.whole q.openingFault = true ∧
      Fault.whole q.fault = true ∧ ∀ memory ∈ s.gate, verifyEpochText s.journal = some memory))
  | .lease _ | .restart => isTrue trivial

/-- The journal is the lines of a chain that ends with this memory, and knows
    every epoch the site was ready under. -/
def Standby.Sound (s : Standby) (memory : UInt64 × GoString) : Prop :=
  ∃ records, s.journal = records.flatMap EpochRecord.line ∧
    verifyEpochJournal records = some memory ∧ ∀ e ∈ s.acted, e ≤ memory.1

theorem Standby.Sound.verifies {s : Standby} (h : s.Sound memory) :
    verifyEpochText s.journal = some memory := by
  obtain ⟨records, hjournal, hchain, -⟩ := h
  rw [hjournal]
  exact (verifyEpochText_lines hchain).2

theorem evaluate_sound {s : Standby} (now : Int) (canceled : Bool)
    {fault : Option Fault} (h : s.Sound memory) (hwhole : Fault.whole fault = true) :
    ∃ memory', (s.evaluate memory now canceled fault).1.Sound memory' ∧
      ∀ m, (s.evaluate memory now canceled fault).2 = some m → m = memory' := by
  obtain ⟨records, hjournal, hchain, hacted⟩ := h
  unfold Standby.evaluate
  cases (if canceled then none else s.lease memory.1 now) with
  | none => exact ⟨memory, ⟨records, hjournal, hchain, hacted⟩, by simp⟩
  | some lease =>
    by_cases hnew : memory.1 < lease.epoch
    · -- the record goes to the end of the chain, where it is written at all
      have hnext := (verifyEpochs_spec hchain validUTF8_genesisHash).2.2 lease.epoch hnew
      have hlines : s.journal ++ (EpochRecord.next memory.2 lease.epoch).line =
          (records ++ [EpochRecord.next memory.2 lease.epoch]).flatMap EpochRecord.line := by
        rw [flatMap_append, flatMap_singleton, hjournal]
      have hlater : ∀ e ∈ s.acted, e ≤ lease.epoch :=
        fun e he => UInt64.le_trans (hacted e he) (UInt64.le_of_lt hnew)
      simp only [if_pos hnew]
      cases fault with
      | none =>
        refine ⟨_, ⟨_, hlines, hnext, ?_⟩, fun m hm => (Option.some.inj hm).symm⟩
        intro e he
        rcases mem_cons.mp he with rfl | he
        · exact UInt64.le_refl _
        · exact hlater e he
      | some fault =>
        cases fault with
        | sync => exact ⟨_, ⟨_, hlines, hnext, hlater⟩, by simp⟩
        | write n =>
          obtain rfl : n = 0 := of_decide_eq_true hwhole
          refine ⟨memory, ⟨records, ?_, hchain, hacted⟩, by simp⟩
          show s.journal ++ List.take 0 _ = _
          rw [hjournal, take_zero, append_nil]
    · simp only [if_neg hnew]
      refine ⟨memory, ⟨records, hjournal, hchain, ?_⟩, fun m hm => (Option.some.inj hm).symm⟩
      intro e he
      rcases mem_cons.mp he with rfl | he
      · exact UInt64.not_lt.mp hnew
      · exact hacted e he

theorem step_sound (s : Standby) (event : StandbyEvent) (h : ∃ memory, s.Sound memory)
    (hsteady : s.Steady event) : ∃ memory, (s.step event).Sound memory := by
  cases event with
  | lease file => exact h
  | restart => exact h
  | ready q =>
    obtain ⟨hopening, hfault, hgate⟩ := hsteady
    obtain ⟨memory, hsound⟩ := h
    -- the gate there is after acquiring, and what its journal says
    have hacquired : ∃ memory', (s.acquire q.opening q.openingFault).Sound memory' ∧
        ∀ m, (s.acquire q.opening q.openingFault).gate = some m → m = memory' := by
      unfold Standby.acquire
      cases hopen : s.gate with
      | some m =>
        refine ⟨memory, by simpa using hsound, ?_⟩
        intro m' hm'
        rw [Option.isSome_some, if_pos rfl] at hm'
        exact Option.some.inj ((hgate m' hm').symm.trans hsound.verifies)
      | none =>
        rw [Option.isSome_none, if_neg Bool.false_ne_true, hsound.verifies]
        exact evaluate_sound _ _ hsound hopening
    obtain ⟨memory', hsound', hsame⟩ := hacquired
    simp only [Standby.step, Standby.ready]
    generalize s.acquire q.opening q.openingFault = s' at hsound' hsame
    cases hopen : s'.gate with
    | none => exact ⟨memory', hsound'⟩
    | some m =>
      obtain rfl := hsame m hopen
      obtain ⟨memory'', hsound'', -⟩ := evaluate_sound q.now q.canceled hsound' hfault
      exact ⟨memory'', hsound''⟩

/-- In every run of steady questions from an empty journal, the journal verifies,
    its epochs rise, and the one it reports is at least every epoch the site was
    ready under. -/
theorem journal_survives (s : Standby) (hs : s.journal = [] ∧ s.acted = [])
    (events : List StandbyEvent) (h : Throughout Standby.Steady Standby.step s events) :
    let left := events.foldl Standby.step s
    ∃ records memory, decodeEpochs (left.journal.length + 1) left.journal = some records ∧
      (records.map EpochRecord.epoch).Pairwise (· < ·) ∧
      verifyEpochText left.journal = some memory ∧ ∀ e ∈ left.acted, e ≤ memory.1 := by
  have hstart : ∃ memory, s.Sound memory := by
    refine ⟨(0, genesisHash), [], hs.1, rfl, ?_⟩
    rw [hs.2]
    exact fun e he => absurd he not_mem_nil
  obtain ⟨memory, records, hjournal, hchain, hacted⟩ :=
    Throughout.invariant (P := fun s => ∃ memory, s.Sound memory) step_sound hstart h
  obtain ⟨hdecode, hverify⟩ := verifyEpochText_lines hchain
  intro left
  have hleft : left.journal = records.flatMap EpochRecord.line := hjournal
  rw [hleft]
  exact ⟨records, memory, hdecode, (verifyEpochs_spec hchain validUTF8_genesisHash).2.1, hverify,
    hacted⟩

/-- A standby of one site, before its first lease. -/
def exampleStandby : Standby where
  site := GoString.ofText "alpha"
  registryDigest := GoString.ofText "d"
  verifies := fun _ => true

/-- Ten minutes' lease. -/
def exampleLease (epoch : UInt64) : Lease :=
  ⟨GoString.ofText "alpha", epoch, 0, 600 * 10 ^ 9, GoString.ofText "d", GoString.ofText "s"⟩

/-- The first append's sync fails, and the standby opens its gate again. -/
theorem journal_survives_reopened :
    let events := [.lease (some (exampleLease 1)),
      .ready ⟨10 ^ 9, some .sync, 10 ^ 9, false, none⟩, .ready ⟨10 ^ 9, none, 10 ^ 9, false, none⟩]
    (events.foldl Standby.step exampleStandby).acted = [1, 1] ∧
      ∃ records memory,
        let left := events.foldl Standby.step exampleStandby
        decodeEpochs (left.journal.length + 1) left.journal = some records ∧
        (records.map EpochRecord.epoch).Pairwise (· < ·) ∧
        verifyEpochText left.journal = some memory ∧ ∀ e ∈ left.acted, e ≤ memory.1 :=
  ⟨by decide +kernel,
   journal_survives exampleStandby ⟨rfl, rfl⟩ _ (by decide +kernel)⟩

/-- The sync of the second lease's record fails, the gate appends the record
    again, and the site is ready under an epoch of a journal no gate opens. -/
theorem retried_append_refused :
    let left := [.lease (some (exampleLease 1)), .ready ⟨10 ^ 9, none, 10 ^ 9, false, none⟩,
      .lease (some (exampleLease 2)), .ready ⟨10 ^ 9, none, 10 ^ 9, false, some .sync⟩,
      .ready ⟨10 ^ 9, none, 10 ^ 9, false, none⟩].foldl Standby.step exampleStandby
    2 ∈ left.acted ∧ verifyEpochText left.journal = none := by
  decide +kernel

end Regalia.Fencing
