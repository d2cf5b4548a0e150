import Regalia.Core.Audit.Recorder
import Regalia.Theory.Audit.Streams

/-!
# Shipping the Journal

What the collector holds of a host's journal, over whole runs of recording,
shipping, lost requests and kills.

Two invariants carry the results. `Host.Safe` holds in every run: what the
collector holds is a prefix of the journal, and nothing on the host or on the
wire claims more than that. It needs no more of a pending event than that the
journal has its number and hash, so it survives a queue with a gap in it.
`Host.Flowing` says that there is no gap: what is pending is the rest of the
journal. It is what lets a round of shipping always make progress, and it is
lost when an event is recorded whose mark is not written.

## Main definitions

* `Host.Safe`, `Host.Flowing`: The two invariants.
* `HostMove.Sound`: The steps that keep the queue whole.

## Theorems

* `commit_held`: What committing does to a stream's hashes.
* `Host.safe_step`, `Host.flowing_step`: One step keeps the invariants.
* `Host.ship_flowing`: A round of shipping takes the queue's head.
* `journal_shipped`: The stream over every run.
-/

namespace Regalia.Audit

open List

variable {journal : List Event} {identity : Identity}

/-! ### One stream of the collector -/

theorem find_obtain (c : Collector) (identity : Identity) (site : String) :
    (c.obtain identity site).1.find identity site = some (c.obtain identity site).2 := by
  unfold Collector.obtain
  rcases hfind : c.find identity site with _ | s
  · unfold Collector.find at hfind ⊢
    simp only [find?_append, hfind, Option.none_or, find?_cons, and_self, decide_true]
  · exact hfind

/-- The stream found under a key is the one last put there. -/
theorem find_replace {c : Collector} {site : String} {s t : Stream}
    (hfind : c.find identity site = some s) (hidentity : t.identity = identity)
    (hsite : t.site = site) : (c.replace t).find identity site = some t := by
  subst hidentity hsite
  obtain ⟨-, hs⟩ := find_some hfind
  -- a stream is under the key after the replacement if it was before
  have hkey : (fun u : Stream => decide (u.identity = t.identity ∧ u.site = t.site)) ∘
      (fun u => if u.identity = t.identity ∧ u.site = t.site then t else u) =
      fun u => decide (u.identity = t.identity ∧ u.site = t.site) := by
    funext u
    by_cases hu : u.identity = t.identity ∧ u.site = t.site
    · simp [hu]
    · simp only [Function.comp, if_neg hu]
  unfold Collector.find at hfind ⊢
  rw [Collector.replace, find?_map, hkey, hfind, Option.map_some, if_pos hs]

theorem obtain_of_find {c : Collector} {site : String} {s : Stream}
    (h : c.find identity site = some s) : c.obtain identity site = (c, s) := by
  rw [Collector.obtain, h]

theorem append_key (s : Stream) (e : Event) (fault : Option AppendFault) :
    (s.append e fault).1.identity = s.identity ∧ (s.append e fault).1.site = s.site := by
  rcases fault with _ | ⟨_, _⟩ | _ <;> exact ⟨rfl, rfl⟩

/-- What committing does to the hashes of the stream: nothing, and then an
    answer of 204 is about a hash that is there; or the next one is appended. -/
theorem commit_held (c : Collector) (identity : Identity) (site : String) (e : Event)
    (fault : Option AppendFault) :
    (((c.commit identity site e fault).1.obtain identity site).2.hashes =
        (c.obtain identity site).2.hashes ∧
      ∀ hash, (c.commit identity site e fault).2 = .acknowledged hash →
        hash = e.hash ∧ 1 ≤ e.sequence ∧
          (c.obtain identity site).2.hashes[e.sequence - 1]? = some e.hash) ∨
    (((c.commit identity site e fault).1.obtain identity site).2.hashes =
        (c.obtain identity site).2.hashes ++ [e.hash] ∧
      (c.commit identity site e fault).2 = .acknowledged e.hash ∧
      e.sequence = (c.obtain identity site).2.hashes.length + 1) := by
  have hfound := find_obtain c identity site
  rcases hobtain : c.obtain identity site with ⟨c', s⟩
  rw [hobtain] at hfound
  obtain ⟨hidentity, hsite, -⟩ := obtain_key hobtain
  have hagain := obtain_of_find hfound
  have hput : ∀ fault', ((c'.replace (s.append e fault').1).obtain identity site).2 =
      (s.append e fault').1 := by
    intro fault'
    obtain ⟨hi, hs⟩ := append_key s e fault'
    rw [obtain_of_find (find_replace hfound (hi.trans hidentity) (hs.trans hsite))]
  rcases commit_outcome hobtain e fault with
    ⟨status, reason, hc⟩ | ⟨fault', status, reason, hc⟩ | ⟨hc, hfirst, hheld⟩ | ⟨hc, hnext, -⟩
  · rw [hc, hagain]
    exact .inl ⟨rfl, fun hash h => nomatch h⟩
  · rw [hc]
    refine .inl ⟨?_, fun hash h => nomatch h⟩
    rw [hput]
    cases fault' <;> rfl
  · rw [hc, hagain]
    refine .inl ⟨rfl, fun hash h => ?_⟩
    cases h
    exact ⟨rfl, hfirst, hheld⟩
  · rw [hc]
    refine .inr ⟨?_, rfl, hnext⟩
    rw [hput]
    rfl

/-! ### What is noted of the stream -/

/-- A stream's hashes have this one at this number. -/
def Noted (hashes : List Literal) (sequence : Nat) (hash : Literal) : Prop :=
  1 ≤ sequence ∧ hashes[sequence - 1]? = some hash

theorem Noted.mono {hashes hashes' : List Literal} {sequence : Nat} {hash : Literal}
    (h : Noted hashes sequence hash) (hlonger : hashes <+: hashes') :
    Noted hashes' sequence hash := by
  obtain ⟨rest, rfl⟩ := hlonger
  have hlt := (List.getElem?_eq_some_iff.mp h.2).1
  refine ⟨h.1, ?_⟩
  rw [List.getElem?_append_left hlt]
  exact h.2

theorem Noted.le {hashes : List Literal} {sequence : Nat} {hash : Literal}
    (h : Noted hashes sequence hash) : sequence ≤ hashes.length := by
  have hlt := (List.getElem?_eq_some_iff.mp h.2).1
  have hfirst := h.1
  omega

/-- An event of which the journal has the number and the hash. -/
structure Copy (journal : List Event) (e : Event) : Prop where
  noted : Noted (journal.map Event.hash) e.sequence e.hash
  plain : decoded e.hash = e.hash

variable {e : Event}

theorem Copy.mono (h : Copy journal e) (e' : Event) : Copy (journal ++ [e']) e := by
  refine ⟨h.noted.mono ?_, h.plain⟩
  rw [map_append]
  exact prefix_append _ _

/-- Events that are numbered from one on. -/
def Numbered (journal : List Event) : Prop :=
  journal.map Event.sequence = List.range' 1 journal.length

theorem numbered_append (h : Numbered journal)
    (hsequence : e.sequence = journal.length + 1) : Numbered (journal ++ [e]) := by
  rw [Numbered, map_append, h, map_singleton, hsequence, length_append,
    length_singleton, range'_1_concat, Nat.add_comm]

theorem Numbered.sequence (h : Numbered journal) {i : Nat}
    (hget : journal[i]? = some e) : e.sequence = i + 1 := by
  have hlt := (List.getElem?_eq_some_iff.mp hget).1
  have hmap : (journal.map Event.sequence)[i]? = some e.sequence := by
    rw [List.getElem?_map, hget, Option.map_some]
  rw [h, getElem?_range' hlt] at hmap
  have := Option.some.inj hmap
  omega

theorem Numbered.last (h : Numbered journal) :
    (journal.getLast?.map Event.sequence).getD 0 = journal.length := by
  rcases hlast : journal.getLast? with _ | e
  · rw [getLast?_eq_none_iff.mp hlast]
    rfl
  · rw [List.getLast?_eq_getElem?] at hlast
    have hlt := (List.getElem?_eq_some_iff.mp hlast).1
    rw [Option.map_some, Option.getD_some, h.sequence hlast]
    omega

/-- An event of the journal is a copy of itself, and so is what is read back
    from its line. -/
theorem copy_decoded (hnumbered : Numbered journal)
    (hplain : ∀ e ∈ journal, decoded e.hash = e.hash) (he : e ∈ journal) :
    Copy journal e.decoded := by
  obtain ⟨i, hget⟩ := mem_iff_getElem?.mp he
  have hsequence := hnumbered.sequence hget
  have hhash : e.decoded.hash = e.hash := hplain e he
  refine ⟨⟨?_, ?_⟩, ?_⟩
  · show 1 ≤ e.sequence
    omega
  · show (journal.map Event.hash)[e.sequence - 1]? = some e.decoded.hash
    rw [hsequence, Nat.add_sub_cancel, List.getElem?_map, hget, hhash, Option.map_some]
  · rw [hhash]
    exact hplain e he

/-! ### Opening -/

theorem verifyLines_decoded {previous : Literal} {count : Nat} {journal events : List Event}
    (h : verifyLines previous count (journal.map Event.text) = .ok events) :
    events = journal.map Event.decoded := by
  induction journal generalizing previous count events with
  | nil => exact (Except.ok.inj h).symm
  | cons e rest ih =>
    rw [map_cons, verifyLines, decode_text] at h
    simp only at h
    split_ifs at h
    rcases hrest : verifyLines e.decoded.hash (count + 1) (rest.map Event.text) with err | tail
    · rw [hrest] at h
      cases h
    · rw [hrest] at h
      rw [← Except.ok.inj h, map_cons, ih hrest]

variable {d : JournalDisk}

theorem verify_ok {events : List Event} (h : d.verify = .ok events) :
    events = d.journal.map Event.decoded := by
  unfold JournalDisk.verify at h
  rcases hlines : verifyLines genesisHash 0 (d.journal.map Event.text) with err | events'
  · rw [hlines] at h
    cases h
  · rw [hlines] at h
    have hevents := verifyLines_decoded hlines
    cases htail : d.tail <;> rw [htail] at h
    case whole | unended => exact (Except.ok.inj h) ▸ hevents
    all_goals cases h

theorem verifyIntegrity_ok {events : List Event}
    (h : d.verifyIntegrity = .ok events) : events = d.journal.map Event.decoded := by
  unfold JournalDisk.verifyIntegrity at h
  rcases hverify : d.verify with err | events'
  · rw [hverify] at h
    cases h
  · rw [hverify] at h
    simp only at h
    split at h
    · cases h
    · split at h
      · cases h
      · exact (Except.ok.inj h) ▸ verify_ok hverify

theorem openRecorder_ok {r : Recorder} (h : openRecorder d = .ok r) :
    r = { sequence := ((d.journal.map Event.decoded).getLast?.map Event.sequence).getD 0
          lastHash := ((d.journal.map Event.decoded).getLast?.map Event.hash).getD genesisHash
          pending := (d.journal.map Event.decoded).drop (readMark d.shipped).sequence
          shipped := (readMark d.shipped).sequence } := by
  unfold openRecorder at h
  rcases hverify : d.verifyIntegrity with err | events
  · rw [hverify] at h
    cases h
  · rw [hverify] at h
    rw [← verifyIntegrity_ok hverify]
    exact (Except.ok.inj h).symm

/-! ### Recording -/

/-- What recording does: the process is gone, with the event in the journal or
    not; or the event is there and pending, or there and forgotten. -/
theorem record_cases (r : Recorder) (d : JournalDisk) (content : Content)
    (fault : Option RecordFault) :
    ((r.record d content fault).1 = none ∧
      ((r.record d content fault).2.journal = d.journal ∨
        (r.record d content fault).2.journal = d.journal ++ [r.next content])) ∨
    (fault = some .mark ∧
      (r.record d content fault).1 =
        some { r with sequence := r.sequence + 1, lastHash := (r.next content).hash } ∧
      (r.record d content fault).2.journal = d.journal ++ [r.next content]) ∨
    ((r.record d content fault).1 =
        some { r with sequence := r.sequence + 1, lastHash := (r.next content).hash,
                      pending := r.pending ++ [r.next content] } ∧
      (r.record d content fault).2.journal = d.journal ++ [r.next content]) := by
  rcases fault with _ | fault
  · exact .inr (.inr ⟨rfl, rfl⟩)
  · cases fault with
    | mark => exact .inr (.inl ⟨rfl, rfl, rfl⟩)
    | diesWriting written => cases written <;> simp [Recorder.record, JournalDisk.append]
    | diesMarked => exact .inl ⟨rfl, .inr rfl⟩

theorem record_shipped (r : Recorder) (d : JournalDisk) (content : Content)
    (fault : Option RecordFault) : (r.record d content fault).2.shipped = d.shipped := by
  rcases fault with _ | ⟨⟩ | ⟨⟨⟩⟩ | ⟨⟩ <;> rfl

section Runs

variable {w : Host} {r : Recorder} {head : Event} (identity : Identity) (site : String)

/-! ### Safety -/

/-- What the collector holds is a prefix of the journal, and nothing claims
    more than that. -/
structure Host.Safe (w : Host) : Prop where
  numbered : Numbered w.disk.journal
  plain : ∀ e ∈ w.disk.journal, decoded e.hash = e.hash
  stream : w.held identity site <+: w.disk.journal.map Event.hash
  shipped : ∀ m, w.disk.shipped = some m → Noted (w.held identity site) m.sequence m.hash
  acks : ∀ a ∈ w.acks, Noted (w.held identity site) a.1 a.2
  wire : ∀ e ∈ w.wire, Copy w.disk.journal e
  counted : ∀ r, w.recorder = some r → r.sequence = w.disk.journal.length
  pending : ∀ r, w.recorder = some r → ∀ e ∈ r.pending, Copy w.disk.journal e

variable {identity site}

/-- The journal has grown by the event of a recorder, and the recorder is
    gone or knows it. -/
theorem Host.Safe.grow (h : w.Safe identity site) (hr : w.recorder = some r) (content : Content) (hjournal : d.journal = w.disk.journal ++ [r.next content])
    (hshipped : d.shipped = w.disk.shipped) {recorder : Option Recorder}
    (hrecorder : ∀ r', recorder = some r' → r'.sequence = r.sequence + 1 ∧
      ∀ e ∈ r'.pending, e ∈ r.pending ∨ e = r.next content) :
    ({ w with disk := d, recorder := recorder } : Host).Safe identity site := by
  have hcount := h.counted r hr
  have hsequence : (r.next content).sequence = w.disk.journal.length + 1 := by
    rw [← hcount]
    rfl
  have hplain : decoded (r.next content).hash = (r.next content).hash := decoded_eventHash _
  have hnumbered := numbered_append h.numbered hsequence
  have hnew : Copy (w.disk.journal ++ [r.next content]) (r.next content) := by
    refine ⟨⟨by omega, ?_⟩, hplain⟩
    rw [hsequence, Nat.add_sub_cancel, map_append, getElem?_append_right (by simp)]
    simp
  refine
    { numbered := ?_, plain := ?_, stream := ?_, shipped := ?_, acks := h.acks, wire := ?_,
      counted := ?_, pending := ?_ }
  · exact hjournal ▸ hnumbered
  · exact hjournal ▸ forall_mem_snoc h.plain hplain
  · refine h.stream.trans ?_
    rw [hjournal, map_append]
    exact prefix_append _ _
  · intro m hm
    exact h.shipped m (hshipped ▸ hm)
  · intro e he
    rw [hjournal]
    exact (h.wire e he).mono _
  · intro r' hr'
    rw [(hrecorder r' hr').1, hjournal, length_append, length_singleton, hcount]
  · intro r' hr' e he
    rw [hjournal]
    rcases (hrecorder r' hr').2 e he with hold | rfl
    · exact (h.pending r hr e hold).mono _
    · exact hnew

/-- What arrives at the collector leaves its stream a prefix of the journal,
    at least as long. -/
theorem accept_held (h : w.Safe identity site) (he : Copy w.disk.journal e)
    (fault : Option AppendFault) :
    let result := w.collector.accept identity site e.text fault
    w.held identity site <+: (result.1.obtain identity site).2.hashes ∧
    (result.1.obtain identity site).2.hashes <+: w.disk.journal.map Event.hash ∧
    ∀ hash, result.2 = .acknowledged hash →
      Noted (result.1.obtain identity site).2.hashes e.sequence hash := by
  unfold Collector.accept
  rw [decode_text]
  simp only
  by_cases hbinds : eventHash e.decoded = e.decoded.hash
  · rw [if_neg (not_not.mpr hbinds)]
    have hhash : e.decoded.hash = e.hash := he.plain
    rcases commit_held w.collector identity site e.decoded fault with
      ⟨hsame, hacked⟩ | ⟨hgrown, hanswer, hnext⟩
    · rw [hsame]
      refine ⟨prefix_refl _, h.stream, fun hash hack => ?_⟩
      obtain ⟨rfl, hnoted⟩ := hacked hash hack
      exact hnoted
    · rw [hgrown, hanswer]
      have hsequence : e.sequence = (w.held identity site).length + 1 := hnext
      refine ⟨prefix_append _ _, ?_, fun hash hack => ?_⟩
      · -- the event is the one the journal has right after the prefix
        obtain ⟨rest, hrest⟩ := h.stream
        have hget := he.noted.2
        rw [← hrest, hsequence, Nat.add_sub_cancel, getElem?_append_right (Nat.le_refl _),
          Nat.sub_self] at hget
        rcases rest with _ | ⟨first, rest⟩
        · cases hget
        · rw [← hrest, hhash]
          rw [getElem?_cons_zero] at hget
          rw [Option.some.inj hget]
          exact ⟨rest, by simp [Host.held]⟩
      · cases hack
        refine ⟨by omega, ?_⟩
        rw [hsequence, Nat.add_sub_cancel]
        exact getElem?_concat_length
  · rw [if_pos hbinds]
    exact ⟨prefix_refl _, h.stream, fun hash hack => nomatch hack⟩

theorem Host.safe_step (w : Host) (m : HostMove) (h : w.Safe identity site) :
    (w.step identity site m).Safe identity site := by
  cases m with
  | start =>
    rcases hr : w.recorder with _ | r
    · simp only [step, hr]
      -- what is opened is read from the journal
      rcases hopen : openRecorder w.disk with err | r
      · refine { h with counted := ?_, pending := ?_ } <;> exact fun r hr => nomatch hr
      · have hrecorder := openRecorder_ok hopen
        refine { h with counted := ?_, pending := ?_ }
        · intro r' hr'
          cases hr'
          rw [hrecorder, ← h.numbered.last, getLast?_map, Option.map_map]
          rfl
        · intro r' hr' e he
          cases hr'
          rw [hrecorder] at he
          obtain ⟨e', he', rfl⟩ := mem_map.mp (mem_of_mem_drop he)
          exact copy_decoded h.numbered h.plain he'
    · simp only [step, hr]
      exact h
  | record content fault =>
    rcases hr : w.recorder with _ | r
    · simp only [step, hr]
      exact h
    · simp only [step, hr]
      have hshipped := record_shipped r w.disk content fault
      rcases record_cases r w.disk content fault with
        ⟨hgone, hjournal | hjournal⟩ | ⟨-, hforgotten, hjournal⟩ | ⟨hpending, hjournal⟩
      · -- nothing of the event is in the journal
        rw [hgone]
        refine
          { numbered := hjournal ▸ h.numbered, plain := hjournal ▸ h.plain,
            stream := hjournal ▸ h.stream, shipped := ?_, acks := h.acks,
            wire := hjournal ▸ h.wire, counted := (fun r hr => nomatch hr),
            pending := (fun r hr => nomatch hr) }
        intro m hm
        exact h.shipped m (hshipped ▸ hm)
      · rw [hgone]
        exact h.grow hr content hjournal hshipped (fun r hr => nomatch hr)
      · rw [hforgotten]
        refine h.grow hr content hjournal hshipped (fun r' hr' => ?_)
        cases hr'
        exact ⟨rfl, fun e he => .inl he⟩
      · rw [hpending]
        refine h.grow hr content hjournal hshipped (fun r' hr' => ?_)
        cases hr'
        exact ⟨rfl, forall_mem_snoc (fun _ => .inl) (.inr rfl)⟩
  | send =>
    rcases hhead : w.recorder.bind (fun r => r.pending.head?) with _ | head
    · simp only [step, hhead]
      exact h
    · simp only [step, hhead]
      by_cases hsend : sendable head = true
      · rw [if_pos hsend]
        obtain ⟨r, hr, hfirst⟩ := Option.bind_eq_some_iff.mp hhead
        exact { h with wire := forall_mem_snoc h.wire (h.pending r hr head (mem_of_head? hfirst)) }
      · rw [if_neg hsend]
        exact h
  | deliver k fault =>
    rcases hk : w.wire[k]? with _ | e
    · simp only [step, hk]
      exact h
    · simp only [step, hk]
      obtain ⟨hgrown, hlonger, hacked⟩ :=
        accept_held h (h.wire e (mem_of_getElem? hk)) fault
      refine { h with stream := hlonger, shipped := ?_, acks := ?_ }
      · exact fun m hm => (h.shipped m hm).mono hgrown
      · intro a ha
        rcases mem_append.mp ha with hnew | hold
        · rcases hanswer : (w.collector.accept identity site e.text fault).2 with hash | ⟨_, _⟩
          · rw [hanswer] at hnew
            rw [mem_singleton.mp hnew]
            exact hacked hash hanswer
          · rw [hanswer] at hnew
            cases hnew
        · exact (h.acks a hold).mono hgrown
  | acknowledged written =>
    rcases hr : w.recorder with _ | r
    · simp only [step, hr]
      exact h
    · rcases hpending : r.pending with _ | ⟨head, rest⟩
      · simp only [step, hr, hpending]
        exact h
      · simp only [step, hr, hpending]
        by_cases hacked : (head.sequence, head.hash) ∈ w.acks
        · rw [if_pos hacked]
          have hrest : Safe identity site
              { w with recorder := some { r with pending := rest, shipped := head.sequence } } := by
            refine { h with counted := ?_, pending := ?_ }
            · rintro _ ⟨⟩
              exact h.counted r hr
            · rintro _ ⟨⟩ e he
              exact h.pending r hr e (hpending ▸ mem_cons_of_mem _ he)
          cases written with
          | false => exact hrest
          | true =>
            refine { hrest with shipped := ?_ }
            rintro _ ⟨⟩
            exact h.acks _ hacked
        · rw [if_neg hacked]
          exact h
  | stop => exact { h with counted := (fun r hr => nomatch hr), pending := (fun r hr => nomatch hr) }

theorem Host.safe_run (moves : List HostMove) :
    (moves.foldl (step identity site) {}).Safe identity site := by
  refine run_invariant safe_step moves ?_
  refine
    { numbered := rfl, plain := ?_, stream := prefix_refl _, shipped := ?_, acks := ?_,
      wire := ?_, counted := ?_, pending := ?_ }
  all_goals
    intro _ h
    cases h

/-! ### The queue -/

variable (identity site) in
/-- What is pending is the rest of the journal, of events that the collector
    takes. -/
structure Host.Flowing (w : Host) : Prop extends w.Safe identity site where
  read : ∀ e ∈ w.disk.journal, e.decoded = e
  short : ∀ e ∈ w.disk.journal, byteLength e.text ≤ maxCollectorEventBody
  chained : Chained genesisHash 0 w.disk.journal
  last : ∀ r, w.recorder = some r →
    r.lastHash = (w.disk.journal.map Event.hash).getLast?.getD genesisHash
  behind : ∀ r, w.recorder = some r → r.shipped ≤ (w.held identity site).length
  queue : ∀ r, w.recorder = some r → r.pending = w.disk.journal.drop r.shipped

/-- The steps that keep the queue whole: an event that is recorded gets its
    mark, is one that comes back from its line, and is within what `Send`
    takes. -/
def HostMove.Sound (w : Host) : HostMove → Prop
  | .record content fault =>
    fault ≠ some .mark ∧ content.decoded = content ∧
      ∀ r, w.recorder = some r → byteLength (r.next content).text ≤ maxCollectorEventBody
  | _ => True

/-- A step that leaves the journal and the recorder alone. -/
theorem Host.Flowing.same {w w' : Host} (h : w.Flowing identity site) (hsafe : w'.Safe identity site)
    (hjournal : w'.disk.journal = w.disk.journal) (hrecorder : w'.recorder = w.recorder)
    (hheld : w.held identity site <+: w'.held identity site) : w'.Flowing identity site := by
  refine
    { hsafe with read := hjournal ▸ h.read, short := hjournal ▸ h.short,
                 chained := hjournal ▸ h.chained, last := ?_, behind := ?_, queue := ?_ }
  · intro r hr
    rw [hjournal]
    exact h.last r (hrecorder ▸ hr)
  · intro r hr
    have hle := h.behind r (hrecorder ▸ hr)
    have hlonger := hheld.length_le
    omega
  · intro r hr
    rw [hjournal]
    exact h.queue r (hrecorder ▸ hr)

/-- A step after which no recorder runs. -/
theorem Host.Flowing.gone {w w' : Host} (h : w.Flowing identity site) (hsafe : w'.Safe identity site)
    (hjournal : w'.disk.journal = w.disk.journal) (hrecorder : w'.recorder = none) :
    w'.Flowing identity site := by
  refine
    { hsafe with read := hjournal ▸ h.read, short := hjournal ▸ h.short,
                 chained := hjournal ▸ h.chained, last := ?_, behind := ?_, queue := ?_ }
  all_goals
    intro r hr
    rw [hrecorder] at hr
    cases hr

/-- The journal has grown by a sound event of a recorder, which is gone or has
    the event pending. -/
theorem Host.Flowing.grow {w w' : Host} (h : w.Flowing identity site)
    (hsafe : w'.Safe identity site) (hr : w.recorder = some r) {content : Content}
    (hcontent : content.decoded = content)
    (hshort : byteLength (r.next content).text ≤ maxCollectorEventBody)
    (hjournal : w'.disk.journal = w.disk.journal ++ [r.next content])
    (hcollector : w'.collector = w.collector) (hrecorder : w'.recorder = none ∨ w'.recorder =
      some { r with sequence := r.sequence + 1, lastHash := (r.next content).hash,
                    pending := r.pending ++ [r.next content] }) : w'.Flowing identity site := by
  have hcount := h.counted r hr
  have hlast := h.last r hr
  have hheld : w'.held identity site = w.held identity site := by
    rw [held, hcollector, held]
  -- the hash before the new event is genesis or the hash of an event of the journal
  have hprevious : decoded r.lastHash = r.lastHash := by
    rw [hlast]
    rcases hget : (w.disk.journal.map Event.hash).getLast? with _ | hash
    · exact decoded_genesisHash
    · obtain ⟨e, he, rfl⟩ := mem_map.mp (mem_of_getLast? hget)
      exact h.plain e he
  have hread : (r.next content).decoded = r.next content :=
    decoded_of_content (e := r.next content) hcontent hprevious rfl
  refine { hsafe with read := ?_, short := ?_, chained := ?_, last := ?_, behind := ?_, queue := ?_ }
  · exact hjournal ▸ forall_mem_snoc h.read hread
  · exact hjournal ▸ forall_mem_snoc h.short hshort
  · rw [hjournal, chained_append]
    refine ⟨h.chained, ?_, hlast, rfl⟩
    rw [Nat.zero_add, ← hcount]
    rfl
  all_goals
    intro r' hr'
    rcases hrecorder with hgone | hkept
    · rw [hgone] at hr'
      cases hr'
    rw [hkept] at hr'
    cases hr'
  · rw [hjournal, map_append, map_singleton, getLast?_concat, Option.getD_some]
  · rw [hheld]
    exact h.behind r hr
  · have hle := h.behind r hr
    have hstream := h.stream.length_le
    rw [length_map] at hstream
    have hshipped : r.shipped ≤ w.disk.journal.length := by omega
    rw [hjournal, drop_append_of_le_length hshipped, ← h.queue r hr]

theorem readMark_le (h : w.Safe identity site) :
    (readMark w.disk.shipped).sequence ≤ (w.held identity site).length := by
  rcases hm : w.disk.shipped with _ | m
  · exact Nat.zero_le _
  · exact (h.shipped m hm).le

theorem Host.flowing_step (w : Host) (m : HostMove) (h : w.Flowing identity site)
    (hm : m.Sound w) : (w.step identity site m).Flowing identity site := by
  have hsafe := safe_step w m h.toSafe
  cases m with
  | start =>
    rcases hr : w.recorder with _ | r
    · simp only [step, hr] at hsafe ⊢
      rcases hopen : openRecorder w.disk with err | r
      · rw [hopen] at hsafe
        exact h.gone hsafe rfl rfl
      · rw [hopen] at hsafe
        have hrecorder := openRecorder_ok hopen
        -- what is read back is the journal
        have hmap : w.disk.journal.map Event.decoded = w.disk.journal := by
          rw [map_congr_left h.read, map_id']
        rw [hmap] at hrecorder
        refine
          { hsafe with read := h.read, short := h.short, chained := h.chained, last := ?_,
                       behind := ?_, queue := ?_ }
        all_goals
          intro r' hr'
          cases hr'
          rw [hrecorder]
        · rw [getLast?_map]
        · exact readMark_le h.toSafe
    · simp only [step, hr]
      exact h
  | record content fault =>
    obtain ⟨hmark, hcontent, hshort⟩ := hm
    rcases hr : w.recorder with _ | r
    · simp only [step, hr]
      exact h
    · simp only [step, hr] at hsafe ⊢
      rcases record_cases r w.disk content fault with
        ⟨hgone, hjournal | hjournal⟩ | ⟨hfault, -⟩ | ⟨hpending, hjournal⟩
      · exact h.gone hsafe hjournal hgone
      · exact h.grow hsafe hr hcontent (hshort r hr) hjournal rfl (.inl hgone)
      · exact absurd hfault hmark
      · exact h.grow hsafe hr hcontent (hshort r hr) hjournal rfl (.inr hpending)
  | send =>
    rcases hhead : w.recorder.bind (fun r => r.pending.head?) with _ | head
    · simp only [step, hhead]
      exact h
    · simp only [step, hhead] at hsafe ⊢
      by_cases hsend : sendable head = true
      · rw [if_pos hsend] at hsafe ⊢
        exact h.same hsafe rfl rfl (prefix_refl _)
      · rw [if_neg hsend]
        exact h
  | deliver k fault =>
    rcases hk : w.wire[k]? with _ | e
    · simp only [step, hk]
      exact h
    · simp only [step, hk] at hsafe ⊢
      exact h.same hsafe rfl rfl (accept_held h.toSafe (h.wire e (mem_of_getElem? hk)) fault).1
  | acknowledged written =>
    rcases hr : w.recorder with _ | r
    · simp only [step, hr]
      exact h
    · rcases hpending : r.pending with _ | ⟨head, rest⟩
      · simp only [step, hr, hpending]
        exact h
      · simp only [step, hr, hpending] at hsafe ⊢
        by_cases hacked : (head.sequence, head.hash) ∈ w.acks
        · rw [if_pos hacked] at hsafe ⊢
          -- the head of the queue is the event after the shipped ones
          have hqueue := h.queue r hr
          rw [hpending] at hqueue
          have hget : w.disk.journal[r.shipped]? = some head := by
            rw [← head?_drop, ← hqueue, head?_cons]
          have hsequence := h.numbered.sequence hget
          have hrest : rest = w.disk.journal.drop head.sequence := by
            rw [hsequence, ← tail_drop, ← hqueue, tail_cons]
          have hle := (h.acks _ hacked).le
          cases written <;>
          · refine
              { hsafe with read := h.read, short := h.short, chained := h.chained, last := ?_,
                           behind := ?_, queue := ?_ } <;>
            · intro r' hr'
              cases hr'
              first
                | exact h.last r hr
                | exact hle
                | exact hrest
        · rw [if_neg hacked]
          exact h
  | stop => exact h.gone hsafe rfl rfl

theorem Host.flowing_run {moves : List HostMove}
    (h : Throughout (fun w m => HostMove.Sound w m) (step identity site) {} moves) :
    (moves.foldl (step identity site) {}).Flowing identity site := by
  refine Throughout.invariant flowing_step ?_ h
  refine
    { safe_run [] with
      read := ?_, short := ?_, chained := trivial, last := ?_, behind := ?_, queue := ?_ }
  all_goals
    intro _ h
    cases h

/-! ### Progress -/

/-- Committing without a fault acknowledges what is held and what is next. -/
theorem commit_acknowledges {c : Collector} {hashes : List Literal}
    (hhashes : (c.obtain identity site).2.hashes = hashes)
    (h : (1 ≤ e.sequence ∧ hashes[e.sequence - 1]? = some e.hash) ∨
      (e.sequence = hashes.length + 1 ∧ e.previousHash = hashes.getLast?.getD genesisHash)) :
    (c.commit identity site e none).2 = .acknowledged e.hash := by
  subst hhashes
  unfold Collector.commit
  rcases h with ⟨hfirst, hheld⟩ | ⟨hnext, hprevious⟩
  · have hlt := (List.getElem?_eq_some_iff.mp hheld).1
    have hle : 1 ≤ e.sequence ∧ e.sequence ≤ (c.obtain identity site).2.hashes.length := by omega
    simp only
    rw [if_neg (by omega), if_pos hle, if_pos hheld]
  · simp only
    rw [if_pos hnext, if_neg (not_not.mpr hprevious)]
    rfl

/-- The collector takes the event after those that are shipped. -/
theorem accept_next (h : w.Flowing identity site) {i : Nat}
    (hget : w.disk.journal[i]? = some e) (hle : i ≤ (w.held identity site).length) :
    (w.collector.accept identity site e.text none).2 = .acknowledged e.hash := by
  have hread := h.read e (mem_of_getElem? hget)
  have hsequence := h.numbered.sequence hget
  obtain ⟨hprevious, hhash⟩ := chained_getElem? h.chained hget
  have htake := prefix_iff_eq_take.mp h.stream
  unfold Collector.accept
  rw [decode_text, hread]
  simp only
  rw [if_neg (not_not.mpr hhash.symm)]
  refine commit_acknowledges rfl ?_
  by_cases hnext : i = (w.held identity site).length
  · right
    refine ⟨by rw [hsequence, hnext]; rfl, ?_⟩
    rw [hprevious, hnext, ← htake]
    rfl
  · left
    refine ⟨by omega, ?_⟩
    show (w.held identity site)[e.sequence - 1]? = some e.hash
    rw [htake, hsequence, Nat.add_sub_cancel, getElem?_take_of_lt (by omega), List.getElem?_map,
      hget, Option.map_some]

/-- A round in which the head of the queue can be sent. -/
theorem Host.ship_eq (hr : w.recorder = some r) (hhead : r.pending.head? = some head)
    (hsend : sendable head = true) :
    w.ship identity site = step identity site
        { w with
          wire := w.wire ++ [head]
          collector := (w.collector.accept identity site head.text none).1
          acks := acksOf head.sequence (w.collector.accept identity site head.text none).2 ++ w.acks }
        (.acknowledged true) := by
  have hsent : w.step identity site .send = { w with wire := w.wire ++ [head] } := by
    simp only [step, hr, Option.bind_some, hhead, if_pos hsend]
  have hwire : (w.wire ++ [head])[w.wire.length]? = some head := getElem?_concat_length
  rw [ship, foldl_cons, hsent, foldl_cons, foldl_cons, foldl_nil]
  congr 1
  rw [step, hwire]

/-- A round of shipping takes the head of the queue. -/
theorem Host.ship_flowing (h : w.Flowing identity site) (hr : w.recorder = some r)
    {rest : List Event} (hpending : r.pending = head :: rest) :
    (w.ship identity site).Flowing identity site ∧
    (w.ship identity site).recorder = some { r with pending := rest, shipped := head.sequence } ∧
    (w.ship identity site).disk.journal = w.disk.journal := by
  have hget : w.disk.journal[r.shipped]? = some head := by
    rw [← head?_drop, ← h.queue r hr, hpending, head?_cons]
  have hmem := mem_of_getElem? hget
  -- the head is sent
  have hsend : sendable head = true := by
    have hhash := (chained_getElem? h.chained hget).2
    rw [sendable, hhash, isHash_eventHash, Bool.true_and]
    exact decide_eq_true (h.short head hmem)
  have hfirst : r.pending.head? = some head := by
    rw [hpending, head?_cons]
  -- it arrives and is acknowledged
  have hack := accept_next h hget (h.behind r hr)
  refine ⟨?_, ?_, ?_⟩
  · have hsound : Throughout (fun w m => HostMove.Sound w m) (step identity site) w
        [HostMove.send, .deliver w.wire.length none, .acknowledged true] :=
      ⟨trivial, trivial, trivial, trivial⟩
    exact Throughout.invariant flowing_step h hsound
  all_goals
    rw [ship_eq hr hfirst hsend, hack]
    simp only [step, hr, hpending, acksOf, singleton_append, mem_cons_self, if_true]

/-- As many rounds as there are pending events leave none. -/
theorem Host.shipFor_flowing (h : w.Flowing identity site) (hr : w.recorder = some r) :
    (shipFor identity site r.pending.length w).held identity site =
      w.disk.journal.map Event.hash := by
  -- the induction is on the queue, which a round makes shorter by one
  generalize hpending : r.pending = pending
  induction pending generalizing w r with
  | nil =>
    have hqueue := h.queue r hr
    have hbehind := h.behind r hr
    rw [hpending] at hqueue
    have hall := drop_eq_nil_iff.mp hqueue.symm
    refine h.stream.eq_of_length_le ?_
    rw [length_map]
    exact Nat.le_trans hall hbehind
  | cons head rest ih =>
    obtain ⟨hflowing, hrecorder, hjournal⟩ := ship_flowing h hr hpending
    rw [length_cons, shipFor, ih hflowing hrecorder rfl, hjournal]

/-! ### A gap -/

/-- The collector refuses an event that is not next. -/
theorem accept_gap (hgap : (w.held identity site).length + 1 < e.sequence) :
    ((w.collector.accept identity site e.text none).1.obtain identity site).2.hashes =
        w.held identity site ∧
      ∃ status reason, (w.collector.accept identity site e.text none).2 = .refused status reason := by
  unfold Collector.accept
  rw [decode_text]
  simp only
  by_cases hbinds : eventHash e.decoded = e.decoded.hash
  · rw [if_neg (not_not.mpr hbinds)]
    have hgap' : (w.collector.obtain identity site).2.hashes.length + 1 < e.decoded.sequence := hgap
    rcases commit_held w.collector identity site e.decoded none with
      ⟨hsame, hacked⟩ | ⟨-, -, hnext⟩
    · refine ⟨hsame, ?_⟩
      rcases hanswer : (w.collector.commit identity site e.decoded none).2 with hash | ⟨status, reason⟩
      · have hlt := (List.getElem?_eq_some_iff.mp (hacked hash hanswer).2.2).1
        omega
      · exact ⟨status, reason, rfl⟩
    · omega
  · rw [if_pos hbinds]
    exact ⟨rfl, _, _, rfl⟩

/-- A queue whose head is not the next event for the collector does not
    move. -/
theorem Host.ship_gap (h : w.Safe identity site) (hr : w.recorder = some r)
    (hhead : r.pending.head? = some head)
    (hgap : (w.held identity site).length + 1 < head.sequence) :
    (w.ship identity site).recorder = some r ∧
      (w.ship identity site).held identity site = w.held identity site ∧
      (w.ship identity site).disk.journal = w.disk.journal := by
  obtain ⟨rest, hpending⟩ : ∃ rest, r.pending = head :: rest := by
    rcases hp : r.pending with _ | ⟨first, rest⟩
    · rw [hp] at hhead
      cases hhead
    · rw [hp] at hhead
      exact ⟨rest, by rw [Option.some.inj hhead]⟩
  -- nothing the collector holds could have been acknowledged under its number
  have hacks : (head.sequence, head.hash) ∉ w.acks := by
    intro hmem
    have hle := (h.acks _ hmem).le
    simp only at hle
    omega
  by_cases hsend : sendable head = true
  · obtain ⟨hsame, status, reason, hanswer⟩ := accept_gap hgap
    rw [ship_eq hr hhead hsend, hanswer]
    simp only [step, hr, hpending, acksOf, nil_append, if_neg hacks, true_and, and_true]
    exact hsame
  · have hsent : w.step identity site .send = w := by
      simp only [step, hr, Option.bind_some, hhead, if_neg hsend]
    have hwire : w.wire[w.wire.length]? = none := getElem?_eq_none (Nat.le_refl _)
    rw [ship, foldl_cons, hsent]
    simp only [foldl_cons, foldl_nil, step, hwire, hr, hpending, if_neg hacks, and_self]

theorem Host.shipFor_gap (h : w.Safe identity site) (hr : w.recorder = some r)
    (hhead : r.pending.head? = some head) (hgap : (w.held identity site).length + 1 < head.sequence)
    (rounds : Nat) :
    (shipFor identity site rounds w).held identity site = w.held identity site := by
  induction rounds generalizing w with
  | zero => rfl
  | succ rounds ih =>
    obtain ⟨hrecorder, hheld, -⟩ := ship_gap h hr hhead hgap
    have hsafe : (w.ship identity site).Safe identity site := run_invariant safe_step _ h
    rw [shipFor, ih hsafe hrecorder (by rw [hheld]; exact hgap), hheld]

end Runs

/-! ### Runs -/

/-- In every run the collector's stream is a prefix of the journal, whose
    events are numbered from one on, so that each has one place in it; the
    shipped mark is not past it; and if every step is sound, a running
    recorder delivers its journal in as many rounds as it has events
    pending. -/
theorem journal_shipped (identity : Identity) (site : String) (moves : List HostMove) :
    let w := moves.foldl (Host.step identity site) {}
    w.held identity site <+: w.disk.journal.map Event.hash ∧
    w.disk.journal.map Event.sequence = List.range' 1 w.disk.journal.length ∧
    (readMark w.disk.shipped).sequence ≤ (w.held identity site).length ∧
    (Throughout (fun w m => HostMove.Sound w m) (Host.step identity site) {} moves →
      ∀ r, w.recorder = some r →
        (Host.shipFor identity site r.pending.length w).held identity site =
          w.disk.journal.map Event.hash) := by
  have hsafe : (moves.foldl (Host.step identity site) {}).Safe identity site := Host.safe_run moves
  refine ⟨hsafe.stream, hsafe.numbered, readMark_le hsafe, fun hsound r hr => ?_⟩
  exact Host.shipFor_flowing (Host.flowing_run hsound) hr

/-- An event is recorded, shipped and acknowledged, and the daemon is started
    again. -/
def recordedOnce : List HostMove :=
  [.start, .record sampleContent none, .send, .deliver 0 none, .acknowledged true, .stop, .start]

theorem recordedOnce_shipped :
    Throughout (fun w m => HostMove.Sound w m) (Host.step someIdentity "") {} recordedOnce ∧
    ∀ r, (recordedOnce.foldl (Host.step someIdentity "") {}).recorder = some r →
      (Host.shipFor someIdentity "" r.pending.length
        (recordedOnce.foldl (Host.step someIdentity "") {})).held someIdentity "" =
        (recordedOnce.foldl (Host.step someIdentity "") {}).disk.journal.map Event.hash := by
  have hsound : Throughout (fun w m => HostMove.Sound w m) (Host.step someIdentity "") {}
      recordedOnce := by
    refine ⟨trivial, ⟨by decide, rfl, ?_⟩, trivial, trivial, trivial, trivial, trivial, trivial⟩
    intro r hr
    have hrecorder := Option.some.inj hr
    rw [← hrecorder]
    decide +kernel
  exact ⟨hsound, (journal_shipped someIdentity "" recordedOnce).2.2.2 hsound⟩

/-- Two events are recorded, the first without its mark. -/
def forgotten : List HostMove :=
  [.start, .record sampleContent (some .mark), .record sampleContent none]

/-- The first event is in the journal and is never sent, and the second one is
    refused for ever. -/
theorem forgotten_wedged :
    (forgotten.foldl (Host.step someIdentity "") {}).recorder.isSome = true ∧
    (forgotten.foldl (Host.step someIdentity "") {}).disk.journal.length = 2 ∧
    ∀ rounds, (Host.shipFor someIdentity "" rounds
      (forgotten.foldl (Host.step someIdentity "") {})).held someIdentity "" = [] := by
  refine ⟨rfl, rfl, fun rounds => ?_⟩
  exact Host.shipFor_gap (Host.safe_run forgotten) rfl rfl (by decide) rounds

end Regalia.Audit
