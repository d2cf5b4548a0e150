import Mathlib.Data.List.Pairwise
import Regalia.Core.Audit.Collector
import Regalia.Data.Runs
import Regalia.Theory.Audit.Events

/-!
# Streams

What the collector holds, over whole runs of submissions, failed appends and
restarts. `Stream.Holds` says which events a stream is made of, and everything
else about the stream follows from them: its file, its size and its three
lists. Loading the file computes the same lists by other code, so a stream
that holds its events is the stream a reload gives.

Committing can do three things to a sound collector: nothing, create an empty
stream, or append one event to a stream (`commit_cases`). A failed append is
among the first two, since what it wrote is cut off again.

## Main definitions

* `Stream.Holds`: The events a stream is made of.
* `Collector.Inv`: Every stream holds a chain, and no two have one key.
* `Collector.Kept`: What a client was told is so.
* `Service.Inv`: The collector is up and keeps what it acknowledged.

## Theorems

* `Stream.Holds.load`: A reload gives the stream.
* `Stream.Holds.append`: Appending the next event.
* `commit_cases`, `handleEvent_cases`: What a submission does.
* `open_disk`: Opening what a collector left behind.
* `streams_kept`: The streams over every run.
-/

namespace Regalia.Audit

open List

variable {c : Collector} {s : Stream} {events : List Event}

/-! ### One stream -/

/-- The events a stream is made of. -/
structure Stream.Holds (s : Stream) (events : List Event) : Prop where
  chained : Chained genesisHash 0 events
  fits : ∀ e ∈ events, Fits e
  file : s.file = journalText events
  size : s.size = s.file.length
  hashes : s.hashes = events.map Event.hash
  lineHashes : s.lineHashes = events.map (fun e => trailLineHash e.detail)
  lineChains : s.lineChains = chainsFrom lineChainStart s.lineHashes

theorem chainsFrom_append (start : Literal) (hashes : List Literal) (lineHash : Literal) :
    chainsFrom start (hashes ++ [lineHash]) = chainsFrom start hashes ++
      [lineChain ((chainsFrom start hashes).getLast?.getD start) lineHash] := by
  induction hashes generalizing start with
  | nil => rfl
  | cons h rest ih =>
    have hlast : (chainsFrom start (h :: rest)).getLast?.getD start =
        (chainsFrom (lineChain start h) rest).getLast?.getD (lineChain start h) := by
      rw [chainsFrom, getLast?_cons, Option.getD_some]
    rw [hlast, cons_append, chainsFrom, ih, chainsFrom, cons_append]

theorem Stream.Holds.verify (h : s.Holds events) : verifyEvents s.file = .ok events := by
  rw [h.file]
  exact verifyEvents_journalText events h.chained h.fits

/-- A reload of the file gives the stream. -/
theorem Stream.Holds.load (h : s.Holds events) : loadStream s.identity s.site s.file = some s := by
  rw [loadStream, h.verify]
  simp only [Except.toOption, Option.map_some, ← h.hashes, ← h.lineHashes, ← h.lineChains, ← h.size]

theorem holds_empty (identity : Identity) (site : String) :
    ({ identity := identity, site := site } : Stream).Holds [] :=
  ⟨trivial, fun _ h => absurd h not_mem_nil, rfl, rfl, rfl, rfl, rfl⟩

theorem Stream.Holds.append {e : Event} (h : s.Holds events)
    (hsequence : e.sequence = s.hashes.length + 1)
    (hprevious : e.previousHash = s.hashes.getLast?.getD genesisHash) (hhash : e.hash = eventHash e)
    (hfits : Fits e) : (s.append e none).1.Holds (events ++ [e]) := by
  have hlength : s.hashes.length = events.length := by
    rw [h.hashes, length_map]
  refine ⟨?_, forall_mem_snoc h.fits hfits, ?_, ?_, ?_, ?_, ?_⟩
  · rw [chained_append]
    refine ⟨h.chained, by omega, ?_, hhash⟩
    rw [hprevious, h.hashes]
  · rw [journalText_append, ← h.file]
    rfl
  · simp only [Stream.append, length_append, h.size]
  · simp only [Stream.append, h.hashes, map_append, map_singleton]
  · simp only [Stream.append, h.lineHashes, map_append, map_singleton]
  · simp only [Stream.append]
    rw [chainsFrom_append, ← h.lineChains]

/-- A failed append leaves the stream as it was: the file is cut to the size
    it had. -/
theorem Stream.Holds.append_fault (h : s.Holds events) (e : Event) (fault : AppendFault) :
    (s.append e (some fault)).1 = s ∧ ∃ err, (s.append e (some fault)).2 = some err := by
  have hcut : ∀ text, (s.file ++ text).take s.size = s.file := by
    intro text
    rw [h.size, take_left']
    rfl
  cases fault with
  | write written err => exact ⟨by simp only [Stream.append, hcut], err, rfl⟩
  | sync err => exact ⟨by simp only [Stream.append, hcut], err, rfl⟩

/-! ### The collector -/

/-- Two streams under one key. -/
def Stream.SameKey (s t : Stream) : Prop := s.identity = t.identity ∧ s.site = t.site

instance (s t : Stream) : Decidable (s.SameKey t) := inferInstanceAs (Decidable (_ ∧ _))

/-- Every stream holds a chain of events, and no two have one key. -/
structure Collector.Inv (c : Collector) : Prop where
  holds : ∀ s ∈ c.streams, ∃ events, s.Holds events
  keys : c.streams.Pairwise (fun s t => ¬ s.SameKey t)

theorem Collector.Inv.eq_of_sameKey (h : c.Inv) {s t : Stream} (hs : s ∈ c.streams)
    (ht : t ∈ c.streams) (hkey : s.SameKey t) : s = t := by
  by_contra hne
  have hsymm : Std.Symm (fun s t : Stream => ¬ s.SameKey t) :=
    ⟨fun s t hst hts => hst ⟨hts.1.symm, hts.2.symm⟩⟩
  exact h.keys.forall hs ht hne hkey

variable {c' : Collector} {identity : Identity} {site : String}

theorem find_some (h : c.find identity site = some s) :
    s ∈ c.streams ∧ s.identity = identity ∧ s.site = site := by
  have hkey := find?_some h
  exact ⟨mem_of_find?_eq_some h, by simpa only [decide_eq_true_eq] using hkey⟩

theorem find_none (h : c.find identity site = none) (s : Stream) (hs : s ∈ c.streams) :
    ¬ (s.identity = identity ∧ s.site = site) := by
  have hfalse := find?_eq_none.mp h s hs
  simpa only [decide_eq_true_eq] using hfalse

/-- What obtaining a stream does to the collector. -/
theorem obtain_cases (h : c.obtain identity site = (c', s)) :
    c' = c ∨ (c.find identity site = none ∧
      c' = { c with streams := c.streams ++ [{ identity := identity, site := site }] }) := by
  unfold Collector.obtain at h
  rcases hfind : c.find identity site with _ | t <;> rw [hfind] at h <;> cases h
  · exact .inr ⟨rfl, rfl⟩
  · exact .inl rfl

theorem obtain_key (h : c.obtain identity site = (c', s)) :
    s.identity = identity ∧ s.site = site ∧ s ∈ c'.streams := by
  unfold Collector.obtain at h
  rcases hfind : c.find identity site with _ | t <;> rw [hfind] at h <;> cases h
  · exact ⟨rfl, rfl, mem_append_right _ (mem_singleton_self _)⟩
  · obtain ⟨hmem, hidentity, hsite⟩ := find_some hfind
    exact ⟨hidentity, hsite, hmem⟩

theorem Collector.Inv.obtain (h : c.Inv) (hobtain : c.obtain identity site = (c', s)) : c'.Inv := by
  rcases obtain_cases hobtain with rfl | ⟨hnone, rfl⟩
  · exact h
  · exact ⟨forall_mem_snoc h.holds ⟨[], holds_empty identity site⟩,
      pairwise_snoc h.keys (find_none hnone)⟩

/-- Putting a stream in the place of itself. -/
theorem Collector.Inv.replace_self (h : c.Inv) (hs : s ∈ c.streams) : c.replace s = c := by
  have hmap : c.streams.map (fun t => if t.identity = s.identity ∧ t.site = s.site then s else t) =
      c.streams.map id := by
    refine map_congr_left (fun t ht => ?_)
    by_cases hkey : t.identity = s.identity ∧ t.site = s.site
    · rw [if_pos hkey, id]
      exact (h.eq_of_sameKey ht hs hkey).symm
    · rw [if_neg hkey, id]
  rw [replace, hmap, map_id]

theorem Collector.Inv.replace (h : c.Inv) (hs : s.Holds events) : (c.replace s).Inv := by
  refine ⟨?_, ?_⟩
  · intro t ht
    obtain ⟨t', ht', rfl⟩ := List.mem_map.mp ht
    by_cases hkey : t'.identity = s.identity ∧ t'.site = s.site
    · rw [if_pos hkey]
      exact ⟨events, hs⟩
    · rw [if_neg hkey]
      exact h.holds t' ht'
  · -- a replaced stream has the key of the one whose place it takes
    have hkeyOf : ∀ t : Stream, Stream.SameKey
        (if t.identity = s.identity ∧ t.site = s.site then s else t) t := by
      intro t
      by_cases hkey : t.identity = s.identity ∧ t.site = s.site
      · rw [if_pos hkey]
        exact ⟨hkey.1.symm, hkey.2.symm⟩
      · rw [if_neg hkey]
        exact ⟨rfl, rfl⟩
    refine pairwise_map.mpr (h.keys.imp ?_)
    intro t u hne hsame
    obtain ⟨ht, ht'⟩ := hkeyOf t
    obtain ⟨hu, hu'⟩ := hkeyOf u
    exact hne ⟨ht.symm.trans (hsame.1.trans hu), ht'.symm.trans (hsame.2.trans hu')⟩

/-! ### Committing -/

/-- What committing an event does: it is refused, with the stream created or
    an append begun and undone; it is already there; or it is appended. -/
theorem commit_outcome (hobtain : c.obtain identity site = (c', s)) (e : Event)
    (fault : Option AppendFault) :
    (∃ status reason, c.commit identity site e fault = (c', .refused status reason)) ∨
    (∃ fault' status reason, c.commit identity site e fault =
      (c'.replace (s.append e (some fault')).1, .refused status reason)) ∨
    (c.commit identity site e fault = (c', .acknowledged e.hash) ∧
      1 ≤ e.sequence ∧ s.hashes[e.sequence - 1]? = some e.hash) ∨
    (c.commit identity site e fault = (c'.replace (s.append e none).1, .acknowledged e.hash) ∧
      e.sequence = s.hashes.length + 1 ∧ e.previousHash = s.hashes.getLast?.getD genesisHash) := by
  unfold Collector.commit
  simp only [hobtain]
  by_cases hnext : e.sequence = s.hashes.length + 1
  · rw [if_pos hnext]
    by_cases hprevious : e.previousHash = s.hashes.getLast?.getD genesisHash
    · rw [if_neg (not_not.mpr hprevious)]
      cases fault with
      | none => exact .inr (.inr (.inr ⟨rfl, hnext, hprevious⟩))
      | some fault => cases fault <;> exact .inr (.inl ⟨_, _, _, rfl⟩)
    · rw [if_pos hprevious]
      exact .inl ⟨_, _, rfl⟩
  · rw [if_neg hnext]
    by_cases hheld : 1 ≤ e.sequence ∧ e.sequence ≤ s.hashes.length
    · rw [if_pos hheld]
      by_cases hsame : s.hashes[e.sequence - 1]? = some e.hash
      · rw [if_pos hsame]
        exact .inr (.inr (.inl ⟨rfl, hheld.1, hsame⟩))
      · rw [if_neg hsame]
        exact .inl ⟨_, _, rfl⟩
    · rw [if_neg hheld]
      exact .inl ⟨_, _, rfl⟩

/-- The same of a sound collector, where an append that was begun leaves
    nothing. -/
theorem commit_cases (h : c.Inv) (hobtain : c.obtain identity site = (c', s)) (e : Event)
    (fault : Option AppendFault) :
    (∃ status reason, c.commit identity site e fault = (c', .refused status reason)) ∨
    (c.commit identity site e fault = (c', .acknowledged e.hash) ∧
      1 ≤ e.sequence ∧ s.hashes[e.sequence - 1]? = some e.hash) ∨
    (c.commit identity site e fault = (c'.replace (s.append e none).1, .acknowledged e.hash) ∧
      e.sequence = s.hashes.length + 1 ∧ e.previousHash = s.hashes.getLast?.getD genesisHash) := by
  have hinv := h.obtain hobtain
  obtain ⟨-, -, hmem⟩ := obtain_key hobtain
  obtain ⟨events, hholds⟩ := hinv.holds s hmem
  rcases commit_outcome hobtain e fault with hc | ⟨fault', status, reason, hc⟩ | hc | hc
  · exact .inl hc
  · -- what was written is cut off, and the stream put back is the one that was there
    rw [(hholds.append_fault e fault').1, hinv.replace_self hmem] at hc
    exact .inl ⟨status, reason, hc⟩
  · exact .inr (.inl hc)
  · exact .inr (.inr hc)

theorem mapM_literal (cs : List Char) : (literal cs).mapM id = some cs := by
  induction cs with
  | nil => rfl
  | cons c rest ih =>
    rw [literal, map_cons, mapM_cons]
    simp only [id]
    rw [← literal, ih]
    rfl

theorem isHash_eventHash (e : Event) : isHash (eventHash e) = true := by
  rw [isHash, eventHash, mapM_literal]
  simp only [Bool.and_eq_true, decide_eq_true_eq]
  refine ⟨⟨?_, ?_⟩, ?_⟩
  · exact take_left' (by decide)
  · rw [length_append, length_hexText, Sha256.sum_length]
    decide
  · rw [drop_left' (by decide)]
    exact all_eq_true.mpr (hexText_lower _)

/-- A submission is refused at once, or it carries an event that is sound in
    itself and is committed under the identity its sender writes for. -/
theorem handleEvent_cases (valid : Event → Except String Unit) (c : Collector) (sub : Submission)
    (fault : Option AppendFault) :
    (∃ status reason, c.handleEvent valid sub fault = (c, .refused status reason)) ∨
    ∃ identity streamIdentity e read length grows,
      sub.identity = some identity ∧ sub.body = .read length (.event e read) grows ∧
      length ≤ maxCollectorEventBody ∧ e.hash = eventHash e ∧
      c.resolveCaller identity = .ok streamIdentity ∧
      c.handleEvent valid sub fault = c.commit streamIdentity sub.site e fault := by
  obtain ⟨sender, site, body⟩ := sub
  unfold Collector.handleEvent
  cases sender with
  | none => exact .inl ⟨_, _, rfl⟩
  | some identity =>
    simp only
    by_cases hsite : siteAllowed site = true
    case neg =>
      rw [if_pos hsite]
      exact .inl ⟨_, _, rfl⟩
    rw [if_neg (not_not.mpr hsite)]
    cases body with
    | unreadable => exact .inl ⟨_, _, rfl⟩
    | read length decoded grows =>
      simp only
      by_cases hlarge : maxCollectorEventBody < length
      · rw [if_pos hlarge]
        exact .inl ⟨_, _, rfl⟩
      rw [if_neg hlarge]
      cases decoded with
      | malformed err => exact .inl ⟨_, _, rfl⟩
      | trailing => exact .inl ⟨_, _, rfl⟩
      | event e read =>
        simp only
        by_cases hshape : ¬ isHash e.hash = true ∨ ¬ isHash e.previousHash = true
        · rw [if_pos hshape]
          exact .inl ⟨_, _, rfl⟩
        rw [if_neg hshape]
        by_cases hhash : eventHash e = e.hash
        case neg =>
          rw [if_pos hhash]
          exact .inl ⟨_, _, rfl⟩
        rw [if_neg (not_not.mpr hhash)]
        rcases hvalid : valid e with err | ⟨⟩
        · exact .inl ⟨_, _, rfl⟩
        rcases hresolve : c.resolveCaller identity with reason | streamIdentity
        · exact .inl ⟨_, _, rfl⟩
        · exact .inr ⟨identity, streamIdentity, e, read, length, grows, rfl, rfl,
            Nat.le_of_not_lt hlarge, hhash.symm, hresolve, rfl⟩

/-- A sound event within the bounds reaches `commit`. -/
theorem handleEvent_event {valid : Event → Except String Unit} {identity streamIdentity : Identity}
    {site : String} {length : Nat} {e : Event} {read grows} (hsite : siteAllowed site = true)
    (hlength : length ≤ maxCollectorEventBody) (hprevious : isHash e.previousHash = true)
    (hhash : e.hash = eventHash e) (hvalid : valid e = .ok ())
    (hresolve : c.resolveCaller identity = .ok streamIdentity) (fault : Option AppendFault) :
    c.handleEvent valid ⟨some identity, site, .read length (.event e read) grows⟩ fault =
      c.commit streamIdentity site e fault := by
  have hown : isHash e.hash = true := hhash ▸ isHash_eventHash e
  have hshape : ¬ (¬ isHash e.hash = true ∨ ¬ isHash e.previousHash = true) := by
    simp only [hown, hprevious, not_true_eq_false, or_self, not_false_eq_true]
  simp only [Collector.handleEvent]
  rw [if_neg (not_not.mpr hsite), if_neg (Nat.not_lt.mpr hlength), if_neg hshape,
    if_neg (not_not.mpr hhash.symm)]
  simp only [hvalid, hresolve]

/-- An event that arrives in a body within the bound fits a line. -/
theorem fits_of_grows {length : Nat} {e : Event} (hlength : length ≤ maxCollectorEventBody)
    (hgrows : byteLength e.text ≤ 6 * length + 64) (hread : e.decoded = e) : Fits e := by
  refine ⟨?_, hread⟩
  unfold maxLine
  unfold maxCollectorEventBody at hlength
  omega

/-! ### What was acknowledged -/

/-- What a client was told is so. -/
def Collector.Kept (c : Collector) (a : Ack) : Prop :=
  ∃ s ∈ c.streams, s.identity = a.identity ∧ s.site = a.site ∧ 1 ≤ a.sequence ∧
    s.hashes[a.sequence - 1]? = some a.hash

theorem Collector.Kept.obtain {a : Ack} (h : c.Kept a)
    (hobtain : c.obtain identity site = (c', s)) : c'.Kept a := by
  rcases obtain_cases hobtain with rfl | ⟨-, rfl⟩
  · exact h
  · obtain ⟨s, hs, hspec⟩ := h
    exact ⟨s, mem_append_left _ hs, hspec⟩

/-- Appending to a stream keeps what any stream holds. -/
theorem Collector.Kept.replace (hinv : c.Inv) {a : Ack} (h : c.Kept a) (hs : s ∈ c.streams)
    (e : Event) : (c.replace (s.append e none).1).Kept a := by
  obtain ⟨t, ht, hidentity, hsite, hfirst, hhash⟩ := h
  by_cases hkey : t.identity = s.identity ∧ t.site = s.site
  · have heq : t = s := hinv.eq_of_sameKey ht hs hkey
    subst heq
    refine ⟨(t.append e none).1, ?_, hidentity, hsite, hfirst, ?_⟩
    · exact List.mem_map.mpr ⟨t, ht, if_pos ⟨rfl, rfl⟩⟩
    · have hlt : a.sequence - 1 < t.hashes.length := (List.getElem?_eq_some_iff.mp hhash).1
      simp only [Stream.append]
      rw [List.getElem?_append_left hlt]
      exact hhash
  · refine ⟨t, ?_, hidentity, hsite, hfirst, hhash⟩
    exact List.mem_map.mpr ⟨t, ht, if_neg hkey⟩

theorem kept_appended (hs : s ∈ c.streams) (e : Event) (hnext : e.sequence = s.hashes.length + 1) :
    (c.replace (s.append e none).1).Kept ⟨s.identity, s.site, e.sequence, e.hash⟩ := by
  refine ⟨(s.append e none).1, List.mem_map.mpr ⟨s, hs, if_pos ⟨rfl, rfl⟩⟩, rfl, rfl, ?_, ?_⟩
  · exact hnext ▸ Nat.le_add_left 1 _
  · simp only [Stream.append, hnext, Nat.add_sub_cancel, getElem?_concat_length]

/-! ### Restarts -/

theorem mapM_load {streams : List Stream} (h : ∀ s ∈ streams, ∃ events, s.Holds events) :
    (streams.map (fun s => (s.identity, s.site, s.file))).mapM
      (fun f => loadStream f.1 f.2.1 f.2.2) = some streams := by
  induction streams with
  | nil => rfl
  | cons s rest ih =>
    obtain ⟨events, hholds⟩ := h s mem_cons_self
    have hrest := ih (fun t ht => h t (mem_cons_of_mem _ ht))
    rw [map_cons, mapM_cons, hholds.load, hrest]
    rfl

/-- A collector without hand-overs opens as it was left. -/
theorem open_disk (h : c.Inv) (hnone : c.handovers = []) : openCollector c.disk = some c := by
  obtain ⟨streams, handovers⟩ := c
  subst hnone
  rw [openCollector, Collector.disk]
  simp only
  rw [mapM_load h.holds]
  rfl

theorem resolveCaller_of_nil (hnone : c.handovers = []) {i j : Identity}
    (h : c.resolveCaller i = .ok j) : j = i ∧ c.streamIdentity i = i := by
  have hstream : c.streamIdentity i = i := by
    rw [Collector.streamIdentity, hnone]
    rfl
  rw [Collector.resolveCaller, Collector.successor, hnone] at h
  exact ⟨(Except.ok.inj h).symm.trans hstream, hstream⟩

/-! ### Runs -/

/-- The collector is up, sound, and keeps what it acknowledged. -/
def Service.Inv (w : Service) : Prop :=
  ∃ c, w.collector = some c ∧ c.Inv ∧ c.handovers = [] ∧ ∀ a ∈ w.acked, c.Kept a

theorem commit_inv (h : c.Inv) (identity : Identity) (site : String) {e : Event}
    (hhash : e.hash = eventHash e) (hfits : Fits e) (fault : Option AppendFault) :
    (c.commit identity site e fault).1.Inv ∧
    (∀ a, c.Kept a → (c.commit identity site e fault).1.Kept a) ∧
    (∀ hash, (c.commit identity site e fault).2 = .acknowledged hash →
      (c.commit identity site e fault).1.Kept ⟨identity, site, e.sequence, hash⟩) := by
  rcases hobtain : c.obtain identity site with ⟨c', s⟩
  have hinv := h.obtain hobtain
  obtain ⟨hidentity, hsite, hmem⟩ := obtain_key hobtain
  rcases commit_cases h hobtain e fault with
    ⟨status, reason, hc⟩ | ⟨hc, hfirst, hheld⟩ | ⟨hc, hnext, hprevious⟩
  · rw [hc]
    exact ⟨hinv, fun a ha => ha.obtain hobtain, fun hash h => nomatch h⟩
  · rw [hc]
    refine ⟨hinv, fun a ha => ha.obtain hobtain, fun hash h => ?_⟩
    cases h
    exact ⟨_, hmem, hidentity, hsite, hfirst, hheld⟩
  · obtain ⟨events, hholds⟩ := hinv.holds _ hmem
    rw [hc]
    refine ⟨hinv.replace (hholds.append hnext hprevious hhash hfits), ?_, fun hash h => ?_⟩
    · exact fun a ha => (ha.obtain hobtain).replace hinv hmem e
    · cases h
      have hkept := kept_appended hmem e hnext
      rwa [hidentity, hsite] at hkept

theorem commit_handovers (c : Collector) (identity : Identity) (site : String) (e : Event)
    (fault : Option AppendFault) : (c.commit identity site e fault).1.handovers = c.handovers := by
  rcases hobtain : c.obtain identity site with ⟨c', s⟩
  have hsame : c'.handovers = c.handovers := by
    rcases obtain_cases hobtain with rfl | ⟨-, rfl⟩ <;> rfl
  unfold Collector.commit
  simp only [hobtain]
  split_ifs <;> exact hsame

theorem Service.step_inv (valid : Event → Except String Unit) (w : Service) (x : Happening)
    (h : w.Inv) : (w.step valid x).Inv := by
  obtain ⟨c, hup, hinv, hnone, hkept⟩ := h
  cases x with
  | reopen =>
    refine ⟨c, ?_, hinv, hnone, hkept⟩
    simp only [step, hup, Option.bind_some]
    exact open_disk hinv hnone
  | submit sub fault =>
    simp only [step, hup]
    rcases handleEvent_cases valid c sub fault with
      ⟨status, reason, hrefused⟩ |
      ⟨identity, streamIdentity, e, read, length, grows, hsender, hbody, hlength, hhash, hresolve, hcommit⟩
    · rw [hrefused]
      exact ⟨c, rfl, hinv, hnone, hkept⟩
    · obtain ⟨rfl, hstream⟩ := resolveCaller_of_nil hnone hresolve
      obtain ⟨hinv', hkept', hnew⟩ :=
        commit_inv hinv streamIdentity sub.site hhash (fits_of_grows hlength (grows e read rfl) read) fault
      rw [hcommit]
      refine ⟨_, rfl, hinv', (commit_handovers c _ _ e fault).trans hnone, ?_⟩
      intro a ha
      rcases mem_append.mp ha with ha | ha
      · rcases hanswer : (c.commit streamIdentity sub.site e fault).2 with hash | ⟨status, reason⟩
        · simp only [hanswer, Submission.ack, hsender, hbody, hstream, mem_singleton] at ha
          rw [ha]
          exact hnew hash hanswer
        · simp only [hanswer, Submission.ack, not_mem_nil] at ha
      · exact hkept' a (hkept a ha)

theorem Service.run_inv (valid : Event → Except String Unit) (xs : List Happening) :
    (xs.foldl (step valid) {}).Inv :=
  run_invariant (step_inv valid) xs
    ⟨{}, rfl, ⟨fun _ h => absurd h not_mem_nil, List.Pairwise.nil⟩, rfl,
      fun _ h => absurd h not_mem_nil⟩

/-- A refused submission leaves the collector as it was, or with one more
    stream, its sender's own and empty. -/
theorem handleEvent_refused {valid : Event → Except String Unit} (hinv : c.Inv)
    (hnone : c.handovers = []) {sub : Submission} {fault : Option AppendFault} {status : Nat}
    {reason : String} (h : (c.handleEvent valid sub fault).2 = .refused status reason) :
    (c.handleEvent valid sub fault).1 = c ∨
    ∃ identity, sub.identity = some identity ∧ c.find identity sub.site = none ∧
      (c.handleEvent valid sub fault).1 =
        { c with streams := c.streams ++ [{ identity := identity, site := sub.site }] } := by
  rcases handleEvent_cases valid c sub fault with
    ⟨status', reason', hrefused⟩ |
    ⟨identity, streamIdentity, e, -, length, grows, hsender, -, -, -, hresolve, hcommit⟩
  · rw [hrefused]
    exact .inl rfl
  · obtain ⟨rfl, -⟩ := resolveCaller_of_nil hnone hresolve
    rw [hcommit] at h ⊢
    rcases hobtain : c.obtain streamIdentity sub.site with ⟨c', s⟩
    rcases commit_cases hinv hobtain e fault with ⟨_, _, hc⟩ | ⟨hc, -⟩ | ⟨hc, -⟩ <;> rw [hc] at h ⊢
    · rcases obtain_cases hobtain with hsame | ⟨hfind, hnew⟩
      · exact .inl hsame
      · exact .inr ⟨streamIdentity, hsender, hfind, hnew⟩
    · cases h
    · cases h

/-- After every run of submissions, failed appends and restarts the collector
    is up; each stream is a chain from genesis, and is what a reload of its
    file gives; what was acknowledged is held; and a submission that is
    refused next changes no stream, and adds at most an empty one of its
    sender's own. -/
theorem streams_kept (valid : Event → Except String Unit) (xs : List Happening) :
    ∃ c, (xs.foldl (Service.step valid) {}).collector = some c ∧
      (∀ s ∈ c.streams, ∃ events, verifyEvents s.file = .ok events ∧
        Chained genesisHash 0 events ∧ s.hashes = events.map Event.hash) ∧
      (∀ s ∈ c.streams, loadStream s.identity s.site s.file = some s) ∧
      (∀ a ∈ (xs.foldl (Service.step valid) {}).acked, c.Kept a) ∧
      (∀ sub fault status reason, (c.handleEvent valid sub fault).2 = .refused status reason →
        (c.handleEvent valid sub fault).1 = c ∨
        ∃ identity, sub.identity = some identity ∧ c.find identity sub.site = none ∧
          (c.handleEvent valid sub fault).1 =
            { c with streams := c.streams ++ [{ identity := identity, site := sub.site }] }) := by
  obtain ⟨c, hup, hinv, hnone, hkept⟩ := Service.run_inv valid xs
  refine ⟨c, hup, ?_, ?_, hkept, ?_⟩
  · intro s hs
    obtain ⟨events, hholds⟩ := hinv.holds s hs
    exact ⟨events, hholds.verify, hholds.chained, hholds.hashes⟩
  · intro s hs
    obtain ⟨events, hholds⟩ := hinv.holds s hs
    exact hholds.load
  · intro sub fault status reason h
    exact handleEvent_refused hinv hnone h

/-- Fields that `validateDraft` accepts. -/
def sampleContent : Content :=
  let text := fun (name value : String) => (Policy.jsonName name, Json.str (Policy.jsonName value))
  contentOf [
    text "timestamp" "2026-01-01T00:00:00Z",
    (Policy.jsonName "request_id", .str (literal (List.replicate 36 '0'))),
    text "principal" "p", text "decision" "allow", text "operation" "sign",
    text "outcome" "ok", (Policy.jsonName "latency_ms", .num 1),
    text "registry_digest" "r", text "policy_digest" "p", text "rbac_digest" "b"]

/-- An event that is sound in itself and is the second of its journal. -/
def secondEvent : Event :=
  { sequence := 2
    content := sampleContent
    previousHash := genesisHash
    hash := literal (hashPrefix ++ hexText [
      195, 181, 44, 82, 86, 183, 93, 103, 220, 85, 103, 251, 5, 235, 126, 177,
      156, 135, 113, 239, 34, 90, 212, 209, 76, 66, 174, 115, 244, 85, 42, 42]) }

def someIdentity : Identity :=
  ⟨"0000000000000000000000000000000000000000000000000000000000000000", by decide⟩

/-- The second event of a journal, sent first. -/
def secondFirst : Submission where
  identity := some someIdentity
  site := ""
  body := .read 416 (.event secondEvent rfl) (by
    intro e read he
    cases he
    decide +kernel)

/-- A submission that is refused for its order has created a stream. -/
theorem refused_creates_stream :
    (Collector.handleEvent (fun _ => .ok ()) {} secondFirst none).2 =
      .refused 409 "event 2 is out of order: the committed head is 0 and only the next link is accepted" ∧
    ({} : Collector).disk.files = [] ∧
    (Collector.handleEvent (fun _ => .ok ()) {} secondFirst none).1.disk.files =
      [(someIdentity, "", [])] := by
  have hcommit : Collector.handleEvent (fun _ => .ok ()) {} secondFirst none =
      Collector.commit {} someIdentity "" secondEvent none :=
    handleEvent_event rfl (by decide) rfl (by decide +kernel) rfl rfl none
  -- what is committed depends on the event's number alone, never on its hash
  rw [hcommit]
  exact ⟨rfl, rfl, rfl⟩

end Regalia.Audit
