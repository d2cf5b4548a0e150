import Regalia.Data.Runs
import Regalia.Theory.Policy.JournalFile

/-!
# Events in a Chain

A journal of events each of which names its position and its predecessor's
hash. Whatever a decoder makes of the lines, `readState` lets through a chain
and nothing else, and every run of the code writes one: the handle that
appends stands at its end, also after a reopening, because a hash comes back
from its line as it was.

Two chains that agree in one hash agree in everything before it, unless two
of their texts collide.

## Main definitions

* `Chained`: Positions and hashes follow each other.
* `chainEnd`: The hash a chain ends with.
* `World.Linked`: What every call preserves: a chain, a mark on it, and the
  handle at its end.

## Theorems

* `readLines_chained`: What `readState` lets through is a chain.
* `chained_agree`: One hash fixes the chain before it.
* `run_linked`: Every run writes a chain.
-/

namespace Regalia.Policy

open List

/-- Each event names its position, the hash before it and its own. -/
def Chained : GoString → Nat → List StateEvent → Prop
  | _, _, [] => True
  | previous, count, e :: rest =>
    e.sequence = UInt64.ofNat (count + 1) ∧ e.previousHash = previous ∧
      e.hash = stateEventHash e ∧ Chained e.hash (count + 1) rest

/-- The hash after a list of events. -/
def chainEnd (previous : GoString) : List StateEvent → GoString
  | [] => previous
  | e :: rest => chainEnd e.hash rest

theorem chainEnd_append (previous : GoString) (l : List StateEvent) (e : StateEvent) :
    chainEnd previous (l ++ [e]) = e.hash := by
  induction l generalizing previous with
  | nil => rfl
  | cons x l ih => exact ih x.hash

theorem chained_append (l m : List StateEvent) : ∀ (previous : GoString) (count : Nat),
    Chained previous count (l ++ m) ↔
      Chained previous count l ∧ Chained (chainEnd previous l) (count + l.length) m := by
  induction l with
  | nil =>
    intro previous count
    simp only [nil_append, chainEnd, length_nil, Nat.add_zero, Chained, true_and]
  | cons e l ih =>
    intro previous count
    have hcount : count + (l.length + 1) = count + 1 + l.length := by omega
    simp only [cons_append, Chained, ih, chainEnd, length_cons, hcount]
    constructor
    · rintro ⟨h1, h2, h3, h4, h5⟩
      exact ⟨⟨h1, h2, h3, h4⟩, h5⟩
    · rintro ⟨⟨h1, h2, h3, h4⟩, h5⟩
      exact ⟨h1, h2, h3, h4, h5⟩

variable (l : List StateEvent)

theorem chained_hashes : ∀ (previous : GoString) (count : Nat),
    Chained previous count l → ∀ e ∈ l, e.hash = stateEventHash e := by
  induction l with
  | nil =>
    intro _ _ _ e he
    cases he
  | cons x l ih =>
    intro previous count h e he
    rcases mem_cons.mp he with rfl | he
    · exact h.2.2.1
    · exact ih x.hash (count + 1) h.2.2.2 e he

/-! ### Reading -/

/-- What `readState` lets through is a chain, whatever the decoder. -/
theorem readLines_chained (decode : LineDecoder) (lines : List GoString) :
    ∀ (previous : GoString) (count : Nat) (events : List StateEvent),
    readLines decode previous count lines = .ok events → Chained previous count events := by
  induction lines with
  | nil =>
    intro previous count events h
    rw [readLines] at h
    cases h
    trivial
  | cons line rest ih =>
    intro previous count events h
    simp only [readLines] at h
    split at h
    · cases h
    split at h
    · cases h
    rename_i event _
    split at h
    · cases h
    rename_i hcheck
    split at h
    · cases h
    split at h
    · cases h
    rename_i tail htail
    cases h
    simp only [not_or, ne_eq, Decidable.not_not] at hcheck
    exact ⟨hcheck.1, hcheck.2.1, hcheck.2.2, ih event.hash (count + 1) tail htail⟩

/-- The events of lines that were written carry the hashes that were written. -/
theorem readEvents_hashes (journal : List StateEvent) (previous : GoString) (count : Nat)
    (events : List StateEvent) (hhashes : ∀ e ∈ journal, e.hash = stateEventHash e)
    (h : readEvents previous count journal = .ok events) :
    events.map StateEvent.hash = journal.map StateEvent.hash := by
  refine readEvents_map journal previous count events (fun line hline event hdec _ => ?_) h
  rcases decode_encode line event hdec with ⟨v, hv, hof⟩
  have hread := (ofJson_fields line event v hv hof).1
  rwa [hhashes line hline, stateEventHash_decoded, ← hhashes line hline] at hread

theorem chainEnd_congr (l m : List StateEvent) : ∀ previous,
    l.map StateEvent.hash = m.map StateEvent.hash → chainEnd previous l = chainEnd previous m := by
  induction l generalizing m with
  | nil =>
    intro previous h
    rw [map_eq_nil_iff.mp h.symm]
  | cons e l ih =>
    intro previous h
    cases m with
    | nil => cases h
    | cons e' m =>
      rw [map_cons, map_cons] at h
      injection h with h1 h2
      rw [chainEnd, chainEnd, h1]
      exact ih m _ h2

/-- Where a replayed handle stands in the chain. -/
theorem replay_position (events : List StateEvent) : ∀ (s s' : FileState) (count : Nat),
    s.sequence = UInt64.ofNat count → Chained s.lastHash count events →
    replay s events = some s' →
    s'.sequence = UInt64.ofNat (count + events.length) ∧ s'.lastHash = chainEnd s.lastHash events ∧
      s'.closed = s.closed ∧ s'.failed = s.failed := by
  induction events with
  | nil =>
    intro s s' count hs _ h
    rw [← Option.some.inj h]
    exact ⟨hs, rfl, rfl, rfl⟩
  | cons e rest ih =>
    intro s s' count hs hchain h
    rw [replay] at h
    split at h
    · cases h
    · rename_i s₁ happly
      have hkept : s₁.closed = s.closed ∧ s₁.failed = s.failed := by
        rcases apply_eq s s₁ e.reservation happly with ⟨_, _, rfl⟩
        exact ⟨rfl, rfl⟩
      have hnext := ih { s₁ with sequence := e.sequence, lastHash := e.hash } s' (count + 1)
        hchain.1 hchain.2.2.2 h
      rw [show count + (e :: rest).length = count + 1 + rest.length by
        rw [length_cons]; omega]
      exact ⟨hnext.1, hnext.2.1, hnext.2.2.1.trans hkept.1, hnext.2.2.2.trans hkept.2⟩

/-! ### Agreement -/

/-- Equal hashes are hashes of equal texts, unless the texts collide. -/
theorem unhashed_of_hash (e e' : StateEvent) (messages : List (List UInt8))
    (hfree : Sha256.CollisionFree messages) (he : e.unhashed.bytes ∈ messages)
    (he' : e'.unhashed.bytes ∈ messages) (h : stateEventHash e = stateEventHash e') :
    e.unhashed.bytes = e'.unhashed.bytes := hfree _ he _ he' (sum_eq_of_hash_eq e e' h)

/-- An event that has a text has one without its hash. -/
theorem unhashed_json {e : StateEvent} (h : e.encode.isSome = true) :
    ∃ w, e.unhashed.json = some w := by
  rcases Option.isSome_iff_exists.mp h with ⟨text, htext⟩
  rcases Option.map_eq_some_iff.mp htext with ⟨v, hv, -⟩
  rcases Option.map_eq_some_iff.mp hv with ⟨t, ht, -⟩
  exact ⟨_, Option.map_eq_some_iff.mpr ⟨t, ht, rfl⟩⟩

/-- The text without the hash and the hash give the line. -/
theorem bytes_of_unhashed (e e' : StateEvent) (hjson : e.unhashed.json = e'.unhashed.json)
    (hsome : e.encode.isSome = true) (hhash : e.hash = e'.hash) : e.bytes = e'.bytes := by
  rcases Option.isSome_iff_exists.mp hsome with ⟨text, htext⟩
  rcases Option.map_eq_some_iff.mp htext with ⟨v, hv, _⟩
  rcases Option.map_eq_some_iff.mp hv with ⟨t, ht, hobj⟩
  have hleft : e.unhashed.json = some (.obj (e.unhashed.fields t)) :=
    Option.map_eq_some_iff.mpr ⟨t, ht, rfl⟩
  rcases Option.map_eq_some_iff.mp (hjson.symm.trans hleft) with ⟨t', ht', hobj'⟩
  have hfields := Json.obj.inj hobj'
  have hsame := append_cancel_right hfields
  have hjson' : e'.json = some v := by
    refine Option.map_eq_some_iff.mpr ⟨t', ht', ?_⟩
    rw [← hobj, ← hhash]
    exact congrArg (fun l => Json.obj (l ++ field "hash" (stringJson e.hash))) hsame
  rw [StateEvent.bytes, StateEvent.bytes, StateEvent.encode, StateEvent.encode, hv, hjson']

/-- Equal texts without the hash name the same predecessor, if one of the
    names comes back from JSON. -/
theorem previousHash_of_unhashed (e e' : StateEvent) (hjson : e.unhashed.json = e'.unhashed.json)
    (hsome : e.encode.isSome = true) (hdecoded : Decoded e.previousHash) :
    e'.previousHash = e.previousHash := by
  rcases unhashed_json hsome with ⟨w, hw⟩
  rcases json_shape e.unhashed w hw with ⟨t₁, hw₁⟩
  rcases json_shape e'.unhashed w (hjson ▸ hw) with ⟨t₂, hw₂⟩
  have hget := congrArg (fun j => j.get? (jsonName "previous_hash")) (hw₂.symm.trans hw₁)
  simp only [StateEvent.fields, Json.get?_append, get?_field] at hget
  simp at hget
  exact stringJson_inj _ _ hdecoded hget

/-- The end of a chain comes back from JSON. -/
theorem chainEnd_decoded : ∀ previous, Decoded previous →
    (∀ e ∈ l, e.hash = stateEventHash e) → Decoded (chainEnd previous l) := by
  induction l with
  | nil => exact fun _ h _ => h
  | cons e l ih =>
    intro previous _ hhashes
    refine ih e.hash ?_ (fun x hx => hhashes x (mem_cons_of_mem _ hx))
    rw [hhashes e mem_cons_self]
    exact ⟨_, (stateEventHash_decoded e).symm⟩

theorem stateGenesisHash_decoded : Decoded stateGenesisHash := by
  refine ⟨("sha256:".toList ++ replicate 64 '0').map some, ?_⟩
  rw [GoString.readText, map_map]
  have hmap : (("sha256:".toList ++ replicate 64 '0').map
      ((fun c => Option.getD c GoString.runeError) ∘ some)) =
      "sha256:".toList ++ replicate 64 '0' := map_id _
  rw [hmap, GoString.ofRunes, flatMap_append]
  rfl

/-- One hash fixes the chain before it. The induction is on the end: equal
    hashes have equal texts, which name equal predecessors. -/
theorem chained_agree : ∀ l' : List StateEvent,
    l.length = l'.length → Chained stateGenesisHash 0 l → Chained stateGenesisHash 0 l' →
    (∀ e ∈ l, e.encode.isSome = true) →
    Sha256.CollisionFree ((l ++ l').map (fun e => e.unhashed.bytes)) →
    chainEnd stateGenesisHash l = chainEnd stateGenesisHash l' →
    l.map StateEvent.bytes = l'.map StateEvent.bytes := by
  induction l using reverseRecOn with
  | nil =>
    intro l' hlen _ _ _ _ _
    rw [eq_nil_of_length_eq_zero hlen.symm]
  | append_singleton l e ih =>
    intro l' hlen hl hl' hencoded hfree hend
    rcases eq_nil_or_concat l' with rfl | ⟨l₁, e', rfl⟩
    · rw [length_append, length_singleton, length_nil] at hlen
      omega
    rw [concat_eq_append] at hlen hl' hfree hend ⊢
    rcases (chained_append l [e] _ _).mp hl with ⟨hchain, _, hprev, hhash, _⟩
    rcases (chained_append l₁ [e'] _ _).mp hl' with ⟨hchain', _, hprev', hhash', _⟩
    rw [chainEnd_append, chainEnd_append] at hend
    have hsome := hencoded e (by simp)
    have hbytes : e.unhashed.bytes = e'.unhashed.bytes := by
      refine unhashed_of_hash e e' _ hfree ?_ ?_ (hhash ▸ hhash' ▸ hend)
      · exact mem_map.mpr ⟨e, by simp, rfl⟩
      · exact mem_map.mpr ⟨e', by simp, rfl⟩
    have hjson : e.unhashed.json = e'.unhashed.json := by
      rcases unhashed_json hsome with ⟨w, hw⟩
      rw [hw, json_eq_of_bytes_eq e.unhashed e'.unhashed w hw hbytes.symm]
    have hdecoded : Decoded e.previousHash := by
      rw [hprev]
      exact chainEnd_decoded l _ stateGenesisHash_decoded (chained_hashes l _ _ hchain)
    have hends : chainEnd stateGenesisHash l = chainEnd stateGenesisHash l₁ := by
      rw [← hprev, ← hprev', previousHash_of_unhashed e e' hjson hsome hdecoded]
    have hrest := ih l₁ (by simpa using hlen) hchain hchain'
      (fun x hx => hencoded x (mem_append_left _ hx)) (hfree.subset (by
        intro m hm
        simp only [map_append, mem_append] at hm ⊢
        exact hm.elim (fun h => Or.inl (Or.inl h)) (fun h => Or.inr (Or.inl h)))) hends
    rw [map_append, map_append, hrest]
    exact congrArg _ (congrArg (fun b => [b]) (bytes_of_unhashed e e' hjson hsome hend))

/-! ### Runs -/

/-- What every call preserves: the journal is a chain, the mark names one of
    its events, and a handle that still appends stands at its end. -/
structure World.Linked (w : World) : Prop where
  chain : Chained stateGenesisHash 0 w.disk.journal
  mark : ∀ m, w.disk.mark = some m → ∃ before e after,
    w.disk.journal = before ++ e :: after ∧ m = ⟨e.sequence, e.hash⟩
  handle : ∀ s, w.handle = some s → s.closed = false → s.failed = false →
    s.sequence = UInt64.ofNat w.disk.journal.length ∧
      s.lastHash = chainEnd stateGenesisHash w.disk.journal

/-- The event a handle at the end of a chain appends continues it. -/
theorem chained_nextEvent (s : FileState) (journal : List StateEvent) (r : Reservation)
    (hchain : Chained stateGenesisHash 0 journal)
    (hsequence : s.sequence = UInt64.ofNat journal.length)
    (hlast : s.lastHash = chainEnd stateGenesisHash journal) :
    Chained stateGenesisHash 0 (journal ++ [s.nextEvent r]) := by
  refine (chained_append _ _ _ _).mpr ⟨hchain, ?_, hlast, rfl, trivial⟩
  change s.sequence + 1 = UInt64.ofNat (0 + journal.length + 1)
  rw [hsequence, Nat.zero_add, UInt64.ofNat_add]
  rfl

/-- A journal that opens gives a handle at the end of its chain. -/
theorem openFileState_position (d : Disk) (fault : Option OpenFault) (s : FileState)
    (hchain : Chained stateGenesisHash 0 d.journal) (h : openFileState d fault = .ok s)
    (hencoded : ∀ e ∈ d.journal, e.encode.isSome = true) :
    s.sequence = UInt64.ofNat d.journal.length ∧
      s.lastHash = chainEnd stateGenesisHash d.journal ∧ s.closed = false ∧ s.failed = false := by
  rcases openFileState_ok d fault s h with ⟨events, hread, hreplay, _⟩
  have hevents := readState_ok d events hread
  have hhashes := readEvents_hashes d.journal _ _ events (chained_hashes _ _ _ hchain) hevents
  have hlen : events.length = d.journal.length := by
    simpa using congrArg length hhashes
  rw [← readLines_bytes d.journal _ _ hencoded] at hevents
  have hposition := replay_position events {} s 0 rfl
    (readLines_chained _ _ _ _ events hevents) hreplay
  rw [Nat.zero_add, hlen] at hposition
  exact ⟨hposition.1, hposition.2.1.trans (chainEnd_congr _ _ _ hhashes), hposition.2.2⟩

/-- A mark stays on a journal that grows. -/
theorem mark_grows {journal more : List StateEvent} {m : HighWaterMark}
    (h : ∃ before e after, journal = before ++ e :: after ∧
      m = HighWaterMark.mk e.sequence e.hash) :
    ∃ before e after, journal ++ more = before ++ e :: after ∧
      m = HighWaterMark.mk e.sequence e.hash := by
  rcases h with ⟨before, e, after, hjournal, hm⟩
  refine ⟨before, e, after ++ more, ?_, hm⟩
  rw [hjournal, append_assoc, cons_append]

/-- Whatever a write left of the next event, the journal is a chain with its
    mark on it. -/
theorem linked_append (w : World) (s : FileState) (r : Reservation) (written : Written)
    (handle : Option FileState) (h : w.Linked) (hs : w.handle = some s)
    (hclosed : s.closed = false) (hfailed : s.failed = false)
    (hhandle : ∀ s', handle = some s' → s'.failed = true) :
    World.Linked ⟨w.disk.append (s.nextEvent r) written, handle⟩ := by
  rcases h.handle s hs hclosed hfailed with ⟨hsequence, hlast⟩
  have hmark : (w.disk.append (s.nextEvent r) written).mark = w.disk.mark := by
    cases written <;> rfl
  rcases append_journal w.disk (s.nextEvent r) written with hj | hj
  all_goals
    refine ⟨?_, fun m hm => ?_, fun s' hs' _ hf => absurd (hhandle s' hs') (by simp [hf])⟩ <;>
      simp only [hj]
  · exact h.chain
  · exact h.mark m (hmark ▸ hm)
  · exact chained_nextEvent s _ r h.chain hsequence hlast
  · exact mark_grows (h.mark m (hmark ▸ hm))

/-- Every call keeps the chain. -/
theorem step_linked (w : World) (op : Op) (h : w.Linked)
    (hencoded : ∀ e ∈ w.disk.journal, e.encode.isSome = true) : (w.step op).1.Linked := by
  rcases step_cases w op with ⟨hdisk, hhandle⟩ | ⟨s, r, fault, _, hs, _, hclosed, hfailed, _, _,
    ⟨written, handle, hstep, hdead, _⟩ | ⟨s₁, handle, _, hstep, hend⟩⟩
  · refine ⟨hdisk ▸ h.chain, hdisk ▸ h.mark, ?_⟩
    rw [hdisk]
    intro s' hs' hopen hgood
    rcases hhandle s' hs' with ⟨s, hs, rfl | rfl⟩ | ⟨fault, hnew⟩
    · exact h.handle _ hs hopen hgood
    · cases hopen
    · rcases openFileState_position w.disk fault s' h.chain hnew hencoded with ⟨h1, h2, _⟩
      exact ⟨h1, h2⟩
  · rw [hstep]
    exact linked_append w s r written handle h hs hclosed hfailed hdead
  · -- the line and the mark are on the disk
    rcases h.handle s hs hclosed hfailed with ⟨hsequence, hlast⟩
    rw [hstep]
    refine ⟨chained_nextEvent s _ r h.chain hsequence hlast, fun m hm =>
      ⟨w.disk.journal, s.nextEvent r, [], rfl, (Option.some.inj hm).symm⟩, ?_⟩
    intro s' hs' _ _
    rcases hend with ⟨rfl, _⟩ | ⟨rfl, _⟩
    · cases hs'
    · cases hs'
      refine ⟨?_, (chainEnd_append _ _ _).symm⟩
      change s.sequence + 1 = UInt64.ofNat (w.disk.journal ++ [s.nextEvent r]).length
      rw [hsequence, length_append, length_singleton, UInt64.ofNat_add]
      rfl

theorem linked_init : World.Linked {} := ⟨trivial, nofun, nofun⟩

/-- Every run on the bytes is followed by a disk that holds a chain. -/
theorem run_linked (ops : List FileOp) :
    ∃ w : World, Follows w (FileWorld.run {} ops) ∧ w.Linked := by
  refine run_invariant (P := fun b => ∃ w : World, Follows w b ∧ w.Linked) ?_ ops
    ⟨{}, follows_init, linked_init⟩
  rintro b op ⟨w, hfollows, hlinked⟩
  exact ⟨_, step_follows w b op hfollows, step_linked w _ hlinked hfollows.stored.encoded⟩

end Regalia.Policy
