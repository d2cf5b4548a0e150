import Regalia.Theory.Audit.Restarts

/-!
# A Journal Put in Another's Place

What the marks and the collector say of a journal that someone wrote in the
place of an honest one. A chain is determined by the hash of its last event, as
far as no two of its messages collide, so wherever a hash is compared the two
agree up to there. The shipped mark's is always compared, and so is the
collector's. The high-water mark's is compared only where the journal ends: a
longer chain is never held against it.

## Main definitions

* `LineDecoder.Reads`: A decoder whose strings are UTF-8.
* `messages`: What the hashes of some events are taken over.

## Theorems

* `chains_agree`: Two chains with one hash at one place agree up to there.
* `replaced_agrees_iff`: What `VerifyIntegrity` and `ReconcileContinuity` say
  of any journal.
* `replaced_journal_accepted`: A journal that is rewritten and one event longer.
-/

namespace Regalia.Audit

open List

variable {events : List Event} {decode : LineDecoder}

/-- What is decoded has strings that are UTF-8. -/
def LineDecoder.Reads (decode : LineDecoder) : Prop :=
  ∀ line e, decode line = .ok e → e.decoded = e

/-- What the hashes of some events are taken over. -/
def messages (events : List Event) : List (List UInt8) :=
  events.map (fun e => GoString.ofRunes ({ e with hash := [] } : Event).text)

/-! ### Chains -/

theorem literal_injective {cs ds : List Char} (h : literal cs = literal ds) : cs = ds :=
  map_injective_iff.mpr (Option.some_injective _) h

/-- Events that come back from their lines are told apart by their hashes,
    unless two messages collide. -/
theorem eq_of_hash_eq {a b : Event} {all : List (List UInt8)} (hfree : Sha256.CollisionFree all)
    (ha : GoString.ofRunes ({ a with hash := [] } : Event).text ∈ all)
    (hb : GoString.ofRunes ({ b with hash := [] } : Event).text ∈ all)
    (hreada : a.decoded = a) (hreadb : b.decoded = b) (hbinda : a.hash = eventHash a)
    (hbindb : b.hash = eventHash b) (hhash : a.hash = b.hash) : a = b := by
  have hsum : eventHash a = eventHash b := hbinda.symm.trans (hhash.trans hbindb)
  have hdigest := hexText_injective _ _ (append_cancel_left (literal_injective hsum))
  have htext := GoString.ofRunes_injective _ _ (hfree _ ha _ hb hdigest)
  have hdecode := congrArg Event.decode htext
  rw [decode_text, decode_text] at hdecode
  have hsame := Except.ok.inj hdecode
  -- but for the hash, what is decoded is the event itself
  have hplain : ∀ e : Event, e.decoded = e →
      ({ e with hash := [] } : Event).decoded = { e with hash := [] } := by
    intro e he
    obtain ⟨sequence, content, detail, previousHash, hash⟩ := e
    simp only [Event.decoded, Event.mk.injEq, true_and] at he ⊢
    exact ⟨he.1, he.2.1, rfl⟩
  rw [hplain a hreada, hplain b hreadb] at hsame
  obtain ⟨sequence, content, detail, previousHash, hash⟩ := a
  obtain ⟨sequence', content', detail', previousHash', hash'⟩ := b
  simp only [Event.mk.injEq, and_true] at hsame hhash ⊢
  exact ⟨hsame.1, hsame.2.1, hsame.2.2.1, hsame.2.2.2, hhash⟩

/-- The hash before an event of a chain. -/
theorem chained_previous (h : Chained genesisHash 0 events) {i : Nat} {e : Event}
    (hget : events[i + 1]? = some e) : (events[i]?).map Event.hash = some e.previousHash := by
  have hlt := (List.getElem?_eq_some_iff.mp hget).1
  obtain ⟨d, hd⟩ : ∃ d, events[i]? = some d := ⟨_, List.getElem?_eq_getElem (by omega)⟩
  have hprevious := (chained_getElem? h hget).1
  rw [take_add_one, getElem?_map, hd, Option.map_some, Option.toList_some,
    getLast?_concat, Option.getD_some] at hprevious
  rw [hd, Option.map_some, hprevious]

section Agree

variable {a b : List Event} (hfree : Sha256.CollisionFree (messages (a ++ b)))
  (ha : Chained genesisHash 0 a) (hb : Chained genesisHash 0 b)
  (hreada : ∀ e ∈ a, e.decoded = e) (hreadb : ∀ e ∈ b, e.decoded = e)

include hfree ha hb hreada hreadb in
/-- Two chains with one hash at one place have one event there. -/
theorem chains_meet {i : Nat} {hash : Literal} (hhasha : (a[i]?).map Event.hash = some hash)
    (hhashb : (b[i]?).map Event.hash = some hash) : ∃ e, a[i]? = some e ∧ b[i]? = some e := by
  obtain ⟨x, hx, rfl⟩ := Option.map_eq_some_iff.mp hhasha
  obtain ⟨y, hy, hyhash⟩ := Option.map_eq_some_iff.mp hhashb
  have hxmem := mem_of_getElem? hx
  have hymem := mem_of_getElem? hy
  have hsame : x = y := eq_of_hash_eq hfree (mem_map_of_mem (mem_append_left _ hxmem))
    (mem_map_of_mem (mem_append_right _ hymem)) (hreada x hxmem) (hreadb y hymem)
    (chained_getElem? ha hx).2 (chained_getElem? hb hy).2 hyhash.symm
  exact ⟨x, hx, hsame ▸ hy⟩

include hfree ha hb hreada hreadb in
/-- Two chains with one hash at one place agree up to there. -/
theorem chains_agree (i : Nat) {hash : Literal} (hhasha : (a[i]?).map Event.hash = some hash)
    (hhashb : (b[i]?).map Event.hash = some hash) : a.take (i + 1) = b.take (i + 1) := by
  induction i generalizing hash with
  | zero =>
    obtain ⟨e, hea, heb⟩ := chains_meet hfree ha hb hreada hreadb hhasha hhashb
    rw [take_add_one, take_add_one, hea, heb]
    rfl
  | succ i ih =>
    obtain ⟨e, hea, heb⟩ := chains_meet hfree ha hb hreada hreadb hhasha hhashb
    rw [take_add_one, hea, ih (chained_previous ha hea) (chained_previous hb heb),
      take_add_one (i := i + 1), heb]

end Agree

/-! ### What is accepted -/

theorem decoded_decoded (l : Literal) : decoded (decoded l) = decoded l := by
  simp [decoded]

theorem decodeLine_reads : LineDecoder.Reads Event.decodeLine := by
  intro line e h
  rw [Event.decodeLine, Event.decode] at h
  split at h
  · cases h
  · split at h
    · cases h
    · rename_i event _
      split at h
      · rw [← Except.ok.inj h]
        have hcontent : event.content.decoded.decoded = event.content.decoded := by
          refine Subtype.ext ?_
          show List.map _ (List.map _ _) = _
          rw [map_map]
          refine map_congr_left (fun f _ => ?_)
          simp only [Function.comp, Json.mapStrings_mapStrings]
          exact congrArg (fun g => (f.1, f.2.mapStrings g)) (funext decoded_decoded)
        simp only [Event.decoded, hcontent, decoded_decoded]
      · cases h

theorem scanEvents_reads (hreads : decode.Reads) {previous : Literal} {count : Nat}
    {lines : List GoString} (h : scanEvents decode previous count lines = .ok events) :
    ∀ e ∈ events, e.decoded = e := by
  induction lines generalizing previous count events with
  | nil =>
    cases h
    exact nofun
  | cons line lines ih =>
    obtain ⟨e, rest, -, hdecode, -, -, -, hrest, rfl⟩ := scanEvents_cons.mp h
    intro e' he'
    rcases mem_cons.mp he' with rfl | he'
    · exact hreads _ _ hdecode
    · exact ih hrest e' he'

/-- The journal of an honest host against one that was put in its place. -/
theorem Host.Linked.replaced {identity : Identity} {site : String} {w : Host}
    (h : w.Linked identity site) (hreads : decode.Reads) {f : JournalFiles}
    (hmark : f.highWater = w.disk.highWater) (hshipped : f.shipped = w.disk.shipped)
    (hevents : f.verifyIntegrity decode = .ok events)
    (hfree : Sha256.CollisionFree (messages (w.disk.journal ++ events))) :
    max (readMark w.disk.highWater).sequence (readMark w.disk.shipped).sequence ≤ events.length ∧
    (w.disk.journal.take
        (max (readMark w.disk.highWater).sequence (readMark w.disk.shipped).sequence) =
      events.take (max (readMark w.disk.highWater).sequence (readMark w.disk.shipped).sequence) ↔
      (readMark w.disk.highWater).sequence ≤ (readMark w.disk.shipped).sequence ∨
      (events.length = (readMark w.disk.highWater).sequence ∧
        (readMark w.disk.highWater).hash ≠ genesisHash) ∨
      (events[(readMark w.disk.highWater).sequence - 1]?).map Event.hash =
        some (readMark w.disk.highWater).hash) := by
  obtain ⟨hbytes, hmarks⟩ := verifyIntegrity_eq_ok.mp hevents
  have hmarkd : f.marks.highWater = w.disk.highWater := hmark
  have hshippedd : f.marks.shipped = w.disk.shipped := hshipped
  obtain ⟨-, -, hreached, hrecorded, hacknowledged, hnoted, -⟩ := hmarks
  rw [hmarkd] at hreached hrecorded
  rw [hshippedd] at hacknowledged hnoted
  -- where the two have one hash they agree
  have hagree : ∀ n hash, Noted (w.disk.journal.map Event.hash) n hash →
      (events[n - 1]?).map Event.hash = some hash → w.disk.journal.take n = events.take n := by
    intro n hash hjournal hthere
    have hchains := chains_agree hfree h.chained (verifyBytes_chained hbytes)
      (fun e he => (h.fits e he).read) (scanEvents_reads hreads hbytes) (n - 1)
      (by rw [← getElem?_map]; exact hjournal.2) hthere
    rw [Nat.sub_add_cancel hjournal.1] at hchains
    exact hchains
  refine ⟨max_le hreached hacknowledged, ?_⟩
  by_cases hordered : (readMark w.disk.highWater).sequence ≤ (readMark w.disk.shipped).sequence
  · rw [max_eq_right hordered]
    refine ⟨fun _ => .inl hordered, fun _ => ?_⟩
    rcases h.shipped_noted with hzero | hthere
    · rw [hzero]
      rfl
    · exact hagree _ _ hthere (hnoted hthere.1)
  · rw [max_eq_left (Nat.le_of_not_le hordered)]
    have hthere : Noted (w.disk.journal.map Event.hash) (readMark w.disk.highWater).sequence
        (readMark w.disk.highWater).hash := by
      rcases h.mark_noted with ⟨hread, -⟩ | hthere
      · rw [hread] at hordered
        exact absurd (Nat.zero_le _) hordered
      · exact hthere
    constructor
    · intro hsame
      refine .inr (.inr ?_)
      -- the event the mark names is in both
      have hlt : (readMark w.disk.highWater).sequence - 1 <
          (readMark w.disk.highWater).sequence := Nat.sub_lt hthere.1 Nat.one_pos
      rw [← getElem?_take_of_lt hlt, ← hsame, getElem?_take_of_lt hlt, ← getElem?_map]
      exact hthere.2
    · rintro (hle | ⟨hlength, hhash⟩ | hsame)
      · exact absurd hle hordered
      · refine hagree _ _ hthere ?_
        have hlast := hrecorded hlength hhash
        have hne : events ≠ [] := by
          rintro rfl
          have := hthere.1
          simp only [length_nil] at hlength
          omega
        obtain ⟨e, he⟩ := Option.isSome_iff_exists.mp (getLast?_isSome.mpr hne)
        rw [he, Option.map_some, Option.getD_some] at hlast
        rw [← hlength, ← getLast?_eq_getElem?, he, Option.map_some, hlast]
      · exact hagree _ _ hthere hsame

/-- A journal that is reconciled with a stream of the collector. -/
theorem reconciled_agrees (hreads : decode.Reads) {f : JournalFiles} {events stream : List Event}
    {hashes : List Literal} (hevents : f.verifyIntegrity decode = .ok events)
    (hchain : Chained genesisHash 0 stream) (hread : ∀ e ∈ stream, e.decoded = e)
    (hhashes : hashes = stream.map Event.hash) (hne : hashes ≠ [])
    (hok : reconcileContinuity (f.verifyIntegrity decode) (position hashes) f.shipped = .ok ())
    (hfree : Sha256.CollisionFree (messages (stream ++ events))) :
    stream.length ≤ events.length ∧ events.take stream.length = stream := by
  have hbytes := (verifyIntegrity_eq_ok.mp hevents).1
  have hlength : hashes.length = stream.length := by rw [hhashes, length_map]
  have hpos : 0 < stream.length := by
    rw [← hlength]
    exact length_pos_iff.mpr hne
  obtain ⟨hash, hhash⟩ := Option.isSome_iff_exists.mp (getLast?_isSome.mpr hne)
  have hstream : (stream[stream.length - 1]?).map Event.hash = some hash := by
    rw [← getElem?_map, ← hhashes, ← hlength, ← getLast?_eq_getElem?, hhash]
  have hzero : (position hashes).1 ≠ 0 := fun hzero => hne (length_eq_zero_iff.mp hzero)
  simp only [reconcileContinuity, hevents, if_neg hzero] at hok
  simp only [reconcilePositions, position, hhash, Option.getD_some, hlength] at hok
  split_ifs at hok with hahead hbehind
  -- what is left of the comparison is the hash at the head
  rcases hget : events[stream.length - 1]? with _ | committed
  · rw [hget] at hok
    cases hok
  · rw [hget] at hok
    simp only at hok
    split_ifs at hok with hconflict
    have hagree := chains_agree hfree hchain (verifyBytes_chained hbytes) hread
      (scanEvents_reads hreads hbytes) (stream.length - 1) hstream
      (by rw [hget, Option.map_some, not_not.mp hconflict])
    rw [Nat.sub_add_cancel hpos, List.take_length] at hagree
    have hlt := (List.getElem?_eq_some_iff.mp hget).1
    exact ⟨by omega, hagree.symm⟩

/-- A journal in the place of an honest one, the marks untouched, that
    `VerifyIntegrity` accepts reaches as far as both marks, and agrees up to
    there exactly if the shipped mark is not behind, or the journal ends at the
    high-water mark, or has that mark's hash in its place. And any files that
    `ReconcileContinuity` accepts agree with all that the collector holds. -/
theorem replaced_agrees_iff (decode : LineDecoder) (f : JournalFiles) (events : List Event) :
    (∀ (identity : Identity) (site : String) (moves : List HostMove),
      Throughout (fun w m => HostMove.Whole w m) (Host.step identity site) {} moves →
      decode.Reads →
      let w := moves.foldl (Host.step identity site) {}
      let s := (readMark w.disk.highWater).sequence
      let p := (readMark w.disk.shipped).sequence
      f.highWater = w.disk.highWater → f.shipped = w.disk.shipped →
      f.verifyIntegrity decode = .ok events →
      Sha256.CollisionFree (messages (w.disk.journal ++ events)) →
      max s p ≤ events.length ∧
      (w.disk.journal.take (max s p) = events.take (max s p) ↔
        s ≤ p ∨ (events.length = s ∧ (readMark w.disk.highWater).hash ≠ genesisHash) ∨
        (events[s - 1]?).map Event.hash = some (readMark w.disk.highWater).hash)) ∧
    ∀ (valid : Event → Except String Unit) (xs : List Happening) (c : Collector) (t : Stream)
      (stream : List Event),
      (xs.foldl (Service.step valid) {}).collector = some c → t ∈ c.streams → t.hashes ≠ [] →
      verifyEvents t.file = .ok stream → decode.Reads → f.verifyIntegrity decode = .ok events →
      reconcileContinuity (f.verifyIntegrity decode) (position t.hashes) f.shipped = .ok () →
      Sha256.CollisionFree (messages (stream ++ events)) →
      stream.length ≤ events.length ∧ events.take stream.length = stream := by
  constructor
  · intro identity site moves hwhole hreads w s p hmark hshipped hevents hfree
    exact (Host.linked_run hwhole).replaced hreads hmark hshipped hevents hfree
  · intro valid xs c t stream hup ht hne hstream hreads hevents hok hfree
    obtain ⟨c', hup', hinv, -⟩ := Service.run_inv valid xs
    obtain rfl := Option.some.inj (hup.symm.trans hup')
    obtain ⟨held, hholds⟩ := hinv.holds t ht
    obtain rfl := Except.ok.inj (hstream.symm.trans hholds.verify)
    exact reconciled_agrees hreads hevents hholds.chained
      (fun e he => (hholds.fits e he).read) hholds.hashes hne hok hfree

/-- A mark inside a journal is compared with nothing. -/
theorem marksAgree_of_longer {f : JournalFiles} {m : HighWaterMark} (hmark : f.highWater = some m)
    (hshipped : f.shipped = none) (hmoved : m.sequence ≠ 0) (hlonger : m.sequence < events.length) :
    MarksAgree f.marks events := by
  have hread : readMark f.marks.highWater = m := by
    show readMark f.highWater = m
    rw [hmark]
    rfl
  have hnone : (readMark f.marks.shipped).sequence = 0 := by
    show (readMark f.shipped).sequence = 0
    rw [hshipped]
    rfl
  refine
    { present := ?_, moved := ?_, reached := ?_, recorded := ?_, acknowledged := ?_, noted := ?_,
      ordered := ?_ }
  · intro hmissing
    have hmissing : f.highWater = none := hmissing
    rw [hmark] at hmissing
    cases hmissing
  · exact fun _ _ => hread ▸ hmoved
  · rw [hread]
    omega
  · intro hlength
    rw [hread] at hlength
    omega
  all_goals omega

theorem verifyBytes_first {e : Event} (h : Next [] e) :
    verifyBytes Event.decodeLine e.line = .ok [e] := by
  have hempty : Ended 10 ([] : GoString) := rfl
  have hnone : verifyBytes Event.decodeLine [] = .ok [] := rfl
  have hfirst := verifyBytes_append hempty hnone h
  rw [nil_append, nil_append] at hfirst
  exact hfirst

/-- The fields of another draft. -/
def otherContent : Content :=
  contentOf (sampleContent.val.map (fun f =>
    if f.1 = Policy.jsonName "principal" then (f.1, .str (Policy.jsonName "q")) else f))

/-- The recorder after the other draft's event. -/
def rewritten : Recorder :=
  { freshRecorder.toRecorder with
    sequence := 1
    lastHash := (freshRecorder.next otherContent).hash }

/-- The journal of a host with one event, whose mark is written, is replaced by
    a chain of two others: the mark's hash is nowhere in it, and it is
    accepted. -/
theorem replaced_journal_accepted :
    let w := stoppedEarly.foldl (Host.step someIdentity "") {}
    let events := [freshRecorder.next otherContent, rewritten.next otherContent]
    let f : JournalFiles :=
      { journal := (freshRecorder.next otherContent).line ++ (rewritten.next otherContent).line
        highWater := w.disk.highWater
        shipped := w.disk.shipped }
    (readMark w.disk.highWater).sequence = 1 ∧
    f.verifyIntegrity Event.decodeLine = .ok events ∧
    w.disk.journal.take 1 ≠ events.take 1 := by
  have hshort : (freshRecorder.next otherContent).line.length ≤ maxLine ∧
      (rewritten.next otherContent).line.length ≤ maxLine := by decide +kernel
  have hfirst : Next [] (freshRecorder.next otherContent) :=
    next_of_chain trivial rfl rfl rfl hshort.1
  have hone := verifyBytes_first hfirst
  have hsecond : Next [freshRecorder.next otherContent] (rewritten.next otherContent) :=
    next_of_chain (verifyBytes_chained hone) rfl rfl rfl hshort.2
  refine ⟨rfl, verifyIntegrity_eq_ok.mpr ⟨?_, ?_⟩, ?_⟩
  · exact verifyBytes_append (freshRecorder.next otherContent).ended_line hone hsecond
  · exact marksAgree_of_longer rfl rfl Nat.one_ne_zero (Nat.lt_succ_self 1)
  · intro hsame
    have hcontent : sampleContent = otherContent :=
      congrArg Event.content (head_eq_of_cons_eq hsame)
    exact absurd hcontent (by decide)

end Regalia.Audit
