import Regalia.Theory.Policy.Reopening

/-!
# Another Journal in Its Place

What the high-water mark says about a journal that someone else put there.
The mark is the number and the hash of the last event the code wrote it for.
`OpenFileState` compares the hash only when the journal ends at that number:
a shorter one is refused by its length and another of the same length by its
hash, but one that is longer is not compared at all. The chain cannot help,
since anyone can write a chain.

Where the event at the mark's number does have the mark's hash, the journal
agrees with the one that was replaced up to there.

## Theorems

* `openFiles_none_iff`: What an open asks of a journal and a mark.
* `accepted_rewrite_iff`: A journal that is accepted agrees with the one that
  was replaced, unless it is longer than the mark and differs at it.
* `longer_rewrite_accepted`: Such a journal is accepted.
-/

namespace Regalia.Policy

open List

/-- What an open asks, if nothing else goes wrong. -/
theorem openFiles_none_iff (decode : LineDecoder) (f : Files) (s : FileState) :
    openFiles decode f none = .ok s ↔
      ∃ events, readJournal decode f.journal = .ok events ∧ replay {} events = some s ∧
        ¬ s.sequence < (f.mark.getD ⟨0, stateGenesisHash⟩).sequence ∧
        ¬ (s.sequence = (f.mark.getD ⟨0, stateGenesisHash⟩).sequence ∧
          (f.mark.getD ⟨0, stateGenesisHash⟩).hash ≠ stateGenesisHash ∧
          s.lastHash ≠ (f.mark.getD ⟨0, stateGenesisHash⟩).hash) := by
  constructor
  · intro h
    unfold openFiles at h
    simp only [reduceCtorEq, if_false] at h
    split at h
    · cases h
    rename_i events hread
    split at h
    · cases h
    rename_i s' hreplay
    split at h
    · cases h
    rename_i hlength
    split at h
    · cases h
    rename_i hlast
    cases h
    exact ⟨events, hread, hreplay, hlength, hlast⟩
  · rintro ⟨events, hread, hreplay, hlength, hlast⟩
    simp only [openFiles, hread, hreplay, if_neg hlength, if_neg hlast, reduceCtorEq, if_false]

/-- The event of a position, and the events up to it. -/
theorem split_at_position (l : List StateEvent) (n : Nat) (h0 : 0 < n) (hn : n ≤ l.length) :
    ∃ before e after, l = before ++ e :: after ∧ before.length + 1 = n ∧
      l[n - 1]? = some e ∧ l.take n = before ++ [e] := by
  have hlt : n - 1 < l.length := by omega
  refine ⟨l.take (n - 1), l[n - 1], l.drop n, ?_, ?_, getElem?_eq_getElem hlt, ?_⟩
  · have hdrop := drop_eq_getElem_cons hlt
    rw [show n - 1 + 1 = n by omega] at hdrop
    rw [← hdrop, take_append_drop]
  · rw [length_take]
    omega
  · rw [take_append_getElem hlt, show n - 1 + 1 = n by omega]

/-- A chain of fewer than 2^64 events has its positions as numbers. -/
theorem sequence_toNat (before after : List StateEvent) (e : StateEvent)
    (h : Chained stateGenesisHash 0 (before ++ e :: after))
    (hlen : (before ++ e :: after).length < 2 ^ 64) : e.sequence.toNat = before.length + 1 := by
  rcases (chained_append before (e :: after) _ _).mp h with ⟨_, hsequence, _⟩
  rw [length_append, length_cons] at hlen
  rw [hsequence, UInt64.toNat_ofNat', Nat.mod_eq_of_lt (by omega), Nat.zero_add]

/-- A journal put in place of one that a run has left, with its mark: it is
    accepted only if it agrees with the old one up to the mark, except where
    it goes on beyond the mark and has another event there. A hash of zeros
    in the mark is taken for no hash. -/
theorem accepted_rewrite_iff (ops : List FileOp) (mark : HighWaterMark)
    (hmark : (FileWorld.run {} ops).files.mark = some mark)
    (hcount : (FileWorld.run {} ops).written.length < 2 ^ 64)
    (decode : LineDecoder) (journal : GoString) (events : List StateEvent)
    (hread : readJournal decode journal = .ok events) (hlen : events.length < 2 ^ 63)
    (hfree : Sha256.CollisionFree
      (((FileWorld.run {} ops).written ++ events).map (fun e => e.unhashed.bytes))) :
    (∀ s, openFiles decode ⟨journal, some mark⟩ none = .ok s →
      mark.sequence.toNat ≤ events.length ∧
      (events[mark.sequence.toNat - 1]?).map StateEvent.hash = some mark.hash ∧
      (events.take mark.sequence.toNat).map StateEvent.bytes =
        ((FileWorld.run {} ops).written.take mark.sequence.toNat).map StateEvent.bytes) ↔
    ¬ ((replay {} events).isSome = true ∧
      (events[mark.sequence.toNat - 1]?).map StateEvent.hash ≠ some mark.hash ∧
      (mark.sequence.toNat < events.length ∨
        mark.sequence.toNat = events.length ∧ mark.hash = stateGenesisHash)) := by
  rcases run_linked ops with ⟨w, hfollows, hlinked⟩
  generalize FileWorld.run {} ops = b at *
  -- the event the mark was set for
  rcases hlinked.mark mark (hfollows.stored.mark.trans hmark) with
    ⟨before, e, after, hjournal, rfl⟩
  have hwritten : b.written = before ++ e :: after := hfollows.written ▸ hjournal
  have hchain := hlinked.chain
  rw [hjournal] at hchain
  rw [hwritten] at hcount hfree ⊢
  have hnumber := sequence_toNat before after e hchain hcount
  simp only [hnumber]
  have hevents : Chained stateGenesisHash 0 events := readLines_chained decode _ _ _ events hread
  have hposition : ∀ s, replay {} events = some s →
      s.sequence.toNat = events.length ∧ s.lastHash = chainEnd stateGenesisHash events := by
    intro s hreplay
    rcases replay_position events {} s 0 rfl hevents hreplay with ⟨hs, hl, _⟩
    refine ⟨?_, hl⟩
    rw [hs, Nat.zero_add, UInt64.toNat_ofNat', Nat.mod_eq_of_lt (by omega)]
  constructor
  · rintro h ⟨hreplays, hdiffers, hbeyond⟩
    rcases Option.isSome_iff_exists.mp hreplays with ⟨s, hreplay⟩
    rcases hposition s hreplay with ⟨hs, _⟩
    refine hdiffers (h s ((openFiles_none_iff _ _ _).mpr ⟨events, hread, hreplay, ?_, ?_⟩)).2.1
    · change ¬ s.sequence < e.sequence
      rw [UInt64.lt_iff_toNat_lt, hs, hnumber]
      omega
    · rintro ⟨hsame, hgenesis, _⟩
      change s.sequence = e.sequence at hsame
      rcases hbeyond with hlt | ⟨_, hzero⟩
      · have := congrArg UInt64.toNat hsame
        rw [hs, hnumber] at this
        omega
      · exact hgenesis hzero
  · intro hcond s hopen
    rcases (openFiles_none_iff _ _ _).mp hopen with ⟨events', hread', hreplay, hshort, hother⟩
    change readJournal decode journal = .ok events' at hread'
    rw [hread] at hread'
    cases hread'
    rcases hposition s hreplay with ⟨hs, hlast⟩
    change ¬ s.sequence < e.sequence at hshort
    rw [UInt64.lt_iff_toNat_lt, hs, hnumber] at hshort
    have hle : before.length + 1 ≤ events.length := by omega
    rcases split_at_position events (before.length + 1) (by omega) hle with
      ⟨before', e', after', hsplit, hlength, hget, htake⟩
    -- the event at the mark's number has the mark's hash
    have hhash : e'.hash = e.hash := by
      by_contra hne
      have hdiffers : (events[before.length + 1 - 1]?).map StateEvent.hash ≠ some e.hash := by
        rw [hget]
        exact fun hc => hne (Option.some.inj hc)
      by_cases hlt : before.length + 1 < events.length
      · exact hcond ⟨Option.isSome_iff_exists.mpr ⟨s, hreplay⟩, hdiffers, .inl hlt⟩
      · have hend : before.length + 1 = events.length := by omega
        have hafter : after' = [] := by
          have := congrArg List.length hsplit
          rw [length_append, length_cons] at this
          exact eq_nil_of_length_eq_zero (by omega)
        have hlast' : s.lastHash = e'.hash := by
          rw [hlast, hsplit, hafter, chainEnd_append]
        have hsame : s.sequence = e.sequence :=
          UInt64.toNat_inj.mp (by rw [hs, hnumber, hend])
        by_cases hzero : e.hash = stateGenesisHash
        · exact hcond ⟨Option.isSome_iff_exists.mpr ⟨s, hreplay⟩, hdiffers, .inr ⟨hend, hzero⟩⟩
        · exact hother ⟨hsame, hzero, by rw [hlast']; exact hne⟩
    refine ⟨hle, by rw [hget, Option.map_some, hhash], ?_⟩
    have htake' : (before ++ e :: after).take (before.length + 1) = before ++ [e] := by
      rw [take_append, take_of_length_le (Nat.le_succ _),
        show before.length + 1 - before.length = 1 by omega]
      rfl
    rw [htake, htake']
    -- and from there back the two are one chain
    rw [hsplit] at hevents
    have hchain' := ((chained_append before' (e' :: after') _ _).mp hevents)
    have hchain₁ := ((chained_append before (e :: after) _ _).mp hchain)
    refine (chained_agree (before ++ [e]) (before' ++ [e']) ?_ ?_ ?_ ?_ ?_ ?_).symm
    · rw [length_append, length_append, length_singleton, length_singleton]
      omega
    · exact (chained_append _ _ _ _).mpr ⟨hchain₁.1, hchain₁.2.1, hchain₁.2.2.1, hchain₁.2.2.2.1,
        trivial⟩
    · exact (chained_append _ _ _ _).mpr ⟨hchain'.1, hchain'.2.1, hchain'.2.2.1, hchain'.2.2.2.1,
        trivial⟩
    · refine fun x hx => hfollows.stored.encoded x (hjournal ▸ ?_)
      exact forall_mem_snoc (fun _ => mem_append_left _) (by simp) x hx
    · refine hfree.subset ?_
      intro m hm
      rw [hsplit]
      rcases mem_map.mp hm with ⟨x, hx, rfl⟩
      refine mem_map.mpr ⟨x, ?_, rfl⟩
      simp only [mem_append, mem_cons, not_mem_nil, or_false] at hx ⊢
      rcases hx with (hx | hx) | (hx | hx)
      · exact .inl (.inl hx)
      · exact .inl (.inr (.inl hx))
      · exact .inr (.inl hx)
      · exact .inr (.inr (.inl hx))
    · rw [chainEnd_append, chainEnd_append, hhash]

/-- Two other spends. -/
def otherSpendsRun : List FileOp :=
  [.openState none, .reserve (exampleReservation "nonce-bbbbbbbbbb" 1) none,
   .reserve (exampleReservation "nonce-cccccccccc" 1) none]

/-- The spend is gone, and the two in its place are accepted under its mark. -/
theorem longer_rewrite_accepted :
    (FileWorld.run {} spendRun).files.mark.map HighWaterMark.sequence = some 1 ∧
    (openFiles StateEvent.decodeLine
      { (FileWorld.run {} spendRun).files with
        journal := (FileWorld.run {} otherSpendsRun).files.journal } none).toOption.map
          FileState.sequence = some 2 ∧
    (FileWorld.run {} otherSpendsRun).written[0]?.map StateEvent.hash ≠
      (FileWorld.run {} spendRun).files.mark.map HighWaterMark.hash := by
  decide +kernel

/-- What the spend leaves, read back as it was written. -/
theorem spendRun_files :
    (FileWorld.run {} spendRun).files.mark.map HighWaterMark.sequence = some 1 ∧
    (FileWorld.run {} spendRun).written[0]?.map StateEvent.hash =
      (FileWorld.run {} spendRun).files.mark.map HighWaterMark.hash ∧
    (FileWorld.run {} spendRun).written.length = 1 ∧
    (readJournal StateEvent.decodeLine (FileWorld.run {} spendRun).files.journal).toOption =
      some (FileWorld.run {} spendRun).written := by
  decide +kernel

/-- Its own journal does not differ at the mark. -/
theorem accepted_rewrite_own :
    ∃ mark, (FileWorld.run {} spendRun).files.mark = some mark ∧
      ∀ s, openFiles StateEvent.decodeLine
          ⟨(FileWorld.run {} spendRun).files.journal, some mark⟩ none = .ok s →
        mark.sequence.toNat ≤ (FileWorld.run {} spendRun).written.length ∧
        ((FileWorld.run {} spendRun).written[mark.sequence.toNat - 1]?).map StateEvent.hash =
          some mark.hash := by
  rcases spendRun_files with ⟨hnumber, hhash, hlength, hread⟩
  rcases Option.map_eq_some_iff.mp hnumber with ⟨mark, hmark, hone⟩
  rcases length_eq_one_iff.mp hlength with ⟨e, hwritten⟩
  refine ⟨mark, hmark, ?_⟩
  have hread' : readJournal StateEvent.decodeLine (FileWorld.run {} spendRun).files.journal =
      .ok (FileWorld.run {} spendRun).written := by
    cases h : readJournal StateEvent.decodeLine (FileWorld.run {} spendRun).files.journal with
    | error err =>
      rw [h] at hread
      cases hread
    | ok events =>
      rw [h] at hread
      rw [Option.some.inj hread]
  have haccepted := accepted_rewrite_iff spendRun mark hmark (by rw [hlength]; decide)
    StateEvent.decodeLine _ _ hread' (by rw [hlength]; decide) ?_
  · refine fun s hopen => (haccepted.mpr ?_ s hopen).imp_right And.left
    rintro ⟨_, hdiffers, _⟩
    rw [hone] at hdiffers
    exact hdiffers (hhash.trans (by rw [hmark, Option.map_some]))
  · -- there is one message only
    intro a ha b hb _
    rw [hwritten] at ha hb
    simp only [cons_append, nil_append, map_cons, map_nil, mem_cons,
      not_mem_nil, or_false, or_self] at ha hb
    rw [ha, hb]

end Regalia.Policy
