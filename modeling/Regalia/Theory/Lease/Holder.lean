import Regalia.Core.Lease.Holder
import Regalia.Data.Runs
import Regalia.Theory.Heartbeat.StateSize

/-!
# Leases Are Taken in the Order They Were Asked For

A request puts its nonce behind those that are out and an install takes a nonce
and all in front of it, so the nonces that are out are always the end of the
list of all requests, and what was installed lies before them. Nothing the
holder is offered has a part in this: the list is the holder's own.

## Main definitions

* `Calls`: What a method can do to the file.
* `Orderly`: The nonces of the file against the record of the run.
* `Keeps`: A lease is kept, or gives way to one that is as good.

## Theorems

* `request_calls`, `install_calls`, `check_calls`: The three methods.
* `Orderly.step`: One call keeps the nonces in order.
* `installs_in_order`: What holds of every run.
-/

namespace Regalia.Lease

open List

variable {raw : Heartbeat.Raw}

open Traced
open Regalia.Membership
open Regalia.Heartbeat (Reading authenticatedNow floorOf floorValue floorOf_floorValue)

/-! ### The file -/

theorem written_eq_ok {state : HolderState} (h : written state = .ok raw) :
    raw.parsed = some state.document := by
  simp only [written, steps_eq_ok] at h
  rw [← h.2]

theorem map_textOf_str (nonces : List String) : (nonces.map Json.str).map textOf = nonces := by
  rw [map_map]
  exact map_id nonces

/-- What was written is read back, or refused. -/
theorem readState_written {state state' : HolderState} (hwritten : written state = .ok raw)
    (hread : readState (some raw) = .ok state') : state' = state := by
  simp only [readState, Heartbeat.load, steps_eq_ok] at hread
  obtain ⟨-, document, ⟨parsed, hparsed, -, rfl⟩, -, floor, hfloor, nonces, hnonces, -,
    rfl⟩ := hread
  obtain rfl : state.document = parsed :=
    Option.some.inj ((written_eq_ok hwritten).symm.trans hparsed)
  have hfloor : floorOf (floorValue state.floor) = .ok floor := hfloor
  rw [floorOf_floorValue] at hfloor
  obtain rfl := Except.ok.inj hfloor
  obtain ⟨hlist, -⟩ := Option.filter_eq_some_iff.mp hnonces
  obtain rfl : state.nonces.map Json.str = nonces := Option.some.inj hlist
  rw [map_textOf_str]
  rfl

/-! ### The methods -/

/-- A method makes no change and has no answer, or reads a state and writes
    another, with some answer. -/
def Calls {α : Type} (x : Program α) (file : StateFile)
    (P : HolderState → HolderState → Check α → Prop) : Prop :=
  (x.final file = file ∧ ∃ e, x.result file = .error e) ∨
  ∃ before later raw, readState file.raw = .ok before ∧ written later = .ok raw ∧
    x.final file = ⟨some raw⟩ ∧ P before later (x.result file)

variable {file : StateFile}

/-- What the rules for programs show of a method. -/
theorem Calls.of_spec {α : Type} {x : Program α} {P : HolderState → HolderState → Check α → Prop}
    (h : x.Spec file (fun effects answer => (effects = [] ∧ ∃ e, answer = .error e) ∨
      ∃ before later raw, readState file.raw = .ok before ∧ written later = .ok raw ∧
        effects = [.replace raw] ∧ P before later answer)) : Calls x file P := by
  rcases h with ⟨heffects, herror⟩ | ⟨before, later, raw, hread, hwritten, heffects, hp⟩
  · refine .inl ⟨?_, herror⟩
    rw [final, heffects]
    rfl
  · refine .inr ⟨before, later, raw, hread, hwritten, ?_, hp⟩
    rw [final, heffects]
    rfl

theorem write_spec {α : Type} {disk : Bool} {state : HolderState} {f : Unit → Program α}
    {Q : List Effect → Check α → Prop} (herror : ∀ e, Q [] (.error e))
    (hok : ∀ raw, written state = .ok raw →
      (f ()).Spec ⟨some raw⟩ (fun later answer => Q (.replace raw :: later) answer)) :
    (write disk state >>= f).Spec file Q := by
  refine Spec.assoc (Spec.lift (fun e _ => herror e) (fun raw hraw => ?_))
  exact Spec.assoc (Spec.lift (fun e _ => herror e) (fun _ _ => Spec.effect (hok raw hraw)))

theorem request_calls (holder : Holder) (asking : Asking) (disk : Bool) (file : StateFile) :
    Calls (request holder asking disk) file (fun before later answer => ∃ r, answer = .ok r ∧
      later = { before with nonces := lastOf maxOutstanding (before.nonces ++ [r.nonce]) }) := by
  refine Calls.of_spec ?_
  refine Spec.lift (fun e _ => .inl ⟨rfl, e, rfl⟩) (fun applied _ => ?_)
  obtain ⟨clusterId, stateEpoch, revision⟩ := applied
  refine Spec.lift (fun e _ => .inl ⟨rfl, e, rfl⟩) (fun sessionKey _ => ?_)
  refine Spec.look ?_
  refine Spec.lift (fun e _ => .inl ⟨rfl, e, rfl⟩) (fun before hread => ?_)
  refine write_spec (fun e => .inl ⟨rfl, e, rfl⟩) (fun raw hwritten => ?_)
  exact Spec.pure (.inr ⟨before, _, raw, hread, hwritten, rfl, _, rfl, rfl⟩)

/-- What an install that is accepted has checked, and what it leaves. -/
structure Installs (holder : Holder) (envelope manifest : Document) (prefer : Bool)
    (reading : Reading) (before later : HolderState) : Prop where
  owned : mine holder (field envelope "lease") = .ok ()
  outstanding : nonceOf envelope ∈ before.nonces
  nonces : later.nonces = behind (nonceOf envelope) before.nonces
  lease : ∃ now left, authenticatedNow holder.setup reading before.floor = .ok now ∧
    verify holder.signs envelope manifest now.1 = .ok left ∧
    later.envelope = if (kept holder before.envelope manifest now.1 left prefer).isSome
      then before.envelope else envelope

theorem install_calls (holder : Holder) (envelope manifest : Document) (prefer : Bool)
    (reading : Reading) (disk : Bool) (file : StateFile) :
    Calls (install holder envelope manifest prefer reading disk) file
      (fun before later answer => (∃ left, answer = .ok left) ∧
        Installs holder envelope manifest prefer reading before later) := by
  refine Calls.of_spec (Spec.look ?_)
  refine Spec.lift (fun e _ => .inl ⟨rfl, e, rfl⟩) (fun before hread => ?_)
  refine Spec.lift (fun e _ => .inl ⟨rfl, e, rfl⟩) (fun now hnow => ?_)
  refine Spec.lift (fun e _ => .inl ⟨rfl, e, rfl⟩) (fun left hleft => ?_)
  refine Spec.lift (fun e _ => .inl ⟨rfl, e, rfl⟩) (fun _ howned => ?_)
  refine Spec.lift (fun e _ => .inl ⟨rfl, e, rfl⟩) (fun _ hmember => ?_)
  refine write_spec (fun e => .inl ⟨rfl, e, rfl⟩) (fun raw hwritten => ?_)
  exact Spec.pure (.inr ⟨before, _, raw, hread, hwritten, rfl, ⟨_, rfl⟩,
    howned, require_eq_ok.mp hmember, rfl, now, left, hnow, hleft, rfl⟩)

theorem check_calls (holder : Holder) (manifest : Document) (reading : Reading) (disk : Bool)
    (file : StateFile) :
    Calls (check holder manifest reading disk) file (fun before later _ =>
      later.envelope = before.envelope ∧ later.nonces = before.nonces) := by
  refine Calls.of_spec (Spec.look ?_)
  refine Spec.lift (fun e _ => .inl ⟨rfl, e, rfl⟩) (fun before hread => ?_)
  refine Spec.lift (fun e _ => .inl ⟨rfl, e, rfl⟩) (fun now _ => ?_)
  refine write_spec (fun e => .inl ⟨rfl, e, rfl⟩) (fun raw hwritten => ?_)
  refine Spec.lift (fun e _ => ?_) (fun _ _ => ?_)
  · exact .inr ⟨before, _, raw, hread, hwritten, rfl, rfl, rfl⟩
  · exact .inr ⟨before, _, raw, hread, hwritten, rfl, rfl, rfl⟩

/-! ### The nonces -/

variable {holder : Holder} {held : Held}

/-- The nonces that are out end the list of the requests, and what was
    installed lies before them; a lease that is held is this node's. -/
structure Orderly (holder : Holder) (held : Held) : Prop where
  sublist : held.installed.Sublist held.requested
  out : ∀ state, readState held.file.raw = .ok state →
    (∃ answered, held.requested = answered ++ state.nonces ∧ held.installed.Sublist answered) ∧
    (state.envelope.1 = .null ∨ mine holder (field state.envelope "lease") = .ok ())

theorem Orderly.new (holder : Holder) : Orderly holder {} := by
  refine ⟨List.Sublist.refl _, fun state hread => ?_⟩
  obtain rfl := Except.ok.inj hread
  exact ⟨⟨[], rfl, List.Sublist.refl _⟩, .inl rfl⟩

/-- A file that was written, by what was written. -/
theorem Orderly.of_written {later : HolderState} (hwritten : written later = .ok raw)
    (hfile : held.file = ⟨some raw⟩) (hout : ∃ answered, held.requested = answered ++ later.nonces ∧
      held.installed.Sublist answered)
    (howned : later.envelope.1 = .null ∨ mine holder (field later.envelope "lease") = .ok ()) :
    Orderly holder held := by
  refine ⟨?_, fun state hread => ?_⟩
  · obtain ⟨answered, hrequested, hsub⟩ := hout
    rw [hrequested]
    exact hsub.trans (sublist_append_left _ _)
  · rw [hfile] at hread
    obtain rfl := readState_written hwritten hread
    exact ⟨hout, howned⟩

/-- The last few of a list end it. -/
theorem lastOf_suffix {α : Type} (n : Nat) (l : List α) : ∃ front, l = front ++ lastOf n l :=
  ⟨l.take (l.length - n), (take_append_drop _ l).symm⟩

/-- A list up to a nonce that is in it, the nonce, and what follows. -/
theorem split_behind {nonce : String} {nonces : List String} (h : nonce ∈ nonces) :
    ∃ front, nonces = front ++ nonce :: behind nonce nonces := by
  have hlt := idxOf_lt_length_of_mem h
  refine ⟨nonces.take (nonces.idxOf nonce), ?_⟩
  have hsplit := (take_append_drop (nonces.idxOf nonce) nonces).symm
  rw [drop_eq_getElem_cons hlt, getElem_idxOf hlt] at hsplit
  exact hsplit

theorem Orderly.request (h : Orderly holder held) (asking : Asking) (disk : Bool) :
    Orderly holder (held.step holder (.request asking disk)) := by
  rcases request_calls holder asking disk held.file with
    ⟨hfinal, e, hresult⟩ | ⟨before, later, raw, hread, hwritten, hfinal, r, hresult, rfl⟩
  · simp only [Held.step, hfinal, hresult, answered]
    exact h
  · obtain ⟨⟨past, hrequested, hsub⟩, howned⟩ := h.out before hread
    obtain ⟨front, hfront⟩ := lastOf_suffix maxOutstanding (before.nonces ++ [r.nonce])
    refine Orderly.of_written hwritten hfinal ⟨past ++ front, ?_, ?_⟩ howned
    · show answered _ _ _ = _
      rw [hresult, answered, hrequested, append_assoc, append_assoc]
      exact congrArg (past ++ ·) hfront
    · exact hsub.trans (sublist_append_left _ _)

theorem Orderly.install (h : Orderly holder held) (envelope manifest : Document) (prefer : Bool)
    (reading : Reading) (disk : Bool) :
    Orderly holder (held.step holder (.install envelope manifest prefer reading disk)) := by
  rcases install_calls holder envelope manifest prefer reading disk held.file with
    ⟨hfinal, e, hresult⟩ |
    ⟨before, later, raw, hread, hwritten, hfinal, ⟨left, hresult⟩, hinstalls⟩
  · simp only [Held.step, hfinal, hresult, answered]
    exact h
  · obtain ⟨⟨past, hrequested, hsub⟩, howned⟩ := h.out before hread
    obtain ⟨front, hfront⟩ := split_behind hinstalls.outstanding
    refine Orderly.of_written hwritten hfinal ⟨past ++ (front ++ [nonceOf envelope]), ?_, ?_⟩ ?_
    · show held.requested = _
      rw [hrequested, hinstalls.nonces]
      conv_lhs => rw [hfront]
      simp only [append_assoc, singleton_append]
    · show (answered _ _ _).Sublist _
      rw [hresult, answered]
      exact hsub.append (sublist_append_right _ _)
    · obtain ⟨now, seconds, -, -, henvelope⟩ := hinstalls.lease
      rw [henvelope]
      split
      · exact howned
      · exact .inr hinstalls.owned

theorem Orderly.check (h : Orderly holder held) (manifest : Document) (reading : Reading)
    (disk : Bool) : Orderly holder (held.step holder (.check manifest reading disk)) := by
  rcases check_calls holder manifest reading disk held.file with
    ⟨hfinal, -⟩ | ⟨before, later, raw, hread, hwritten, hfinal, henvelope, hnonces⟩
  · simp only [Held.step, hfinal]
    exact h
  · obtain ⟨hout, howned⟩ := h.out before hread
    refine Orderly.of_written hwritten hfinal ?_ ?_
    · rw [hnonces]
      exact hout
    · rw [henvelope]
      exact howned

theorem Orderly.step (held : Held) (move : HolderMove) (h : Orderly holder held) :
    Orderly holder (held.step holder move) := by
  cases move with
  | request asking disk => exact h.request asking disk
  | install envelope manifest prefer reading disk =>
    exact h.install envelope manifest prefer reading disk
  | check manifest reading disk => exact h.check manifest reading disk

theorem orderly (holder : Holder) (moves : List HolderMove) :
    Orderly holder (Held.run holder moves) :=
  run_invariant Orderly.step moves (Orderly.new holder)

/-! ### The lease that is held -/

/-- A lease is kept, or gives way to one that is installed and, where the old
    one still verifies, lives as long or is preferred. -/
def Keeps (holder : Holder) (before later : HolderState) (move : HolderMove) : Prop :=
  later.envelope = before.envelope ∨
  ∃ envelope manifest prefer reading disk now left,
    move = .install envelope manifest prefer reading disk ∧ later.envelope = envelope ∧
    authenticatedNow holder.setup reading before.floor = .ok now ∧
    verify holder.signs envelope manifest now.1 = .ok left ∧
    ∀ old, verify holder.signs before.envelope manifest now.1 = .ok old →
      old ≤ left ∨ prefer = true

theorem verify_null {signs : Attest.Bytes → Attest.Bytes → Attest.Bytes → Bool} {manifest : Value}
    {now left : Int} : verify signs .null manifest now ≠ .ok left := by
  intro h
  simp only [verify, bind_eq_ok] at h
  obtain ⟨u, hexact, -⟩ := h
  exact Bool.false_ne_true (Python.exact_eq_ok.mp hexact).1

/-- A lease of this node that verifies and is not kept was no better. -/
theorem kept_none {lease manifest : Value} {now left old : Int} {prefer : Bool}
    (hnone : kept holder lease manifest now left prefer = none)
    (howned : lease = .null ∨ mine holder (field lease "lease") = .ok ())
    (hold : verify holder.signs lease manifest now = .ok old) : old ≤ left ∨ prefer = true := by
  have hnull : lease ≠ .null := by
    rintro rfl
    exact verify_null hold
  have hleft : heldLeft holder lease manifest now = .ok old := by
    rw [heldLeft, hold, howned.resolve_left hnull]
    rfl
  rw [kept, if_neg hnull, hleft] at hnone
  simp only [Except.toOption, Option.filter, Bool.and_eq_true, decide_eq_true_eq,
    Bool.not_eq_eq_eq_not, Bool.not_true, ite_eq_right_iff, reduceCtorEq, imp_false,
    not_and_or, not_lt, Bool.not_eq_false] at hnone
  exact hnone

theorem Installs.keeps {envelope manifest : Document} {prefer : Bool} {reading : Reading}
    {before later : HolderState}
    (h : Installs holder envelope manifest prefer reading before later) (disk : Bool)
    (howned : before.envelope.1 = .null ∨ mine holder (field before.envelope "lease") = .ok ()) :
    Keeps holder before later (.install envelope manifest prefer reading disk) := by
  obtain ⟨now, left, hnow, hleft, henvelope⟩ := h.lease
  cases hkept : kept holder before.envelope manifest now.1 left prefer with
  | some seconds => exact .inl (by rw [henvelope, hkept]; rfl)
  | none =>
    rw [hkept] at henvelope
    exact .inr ⟨envelope, manifest, prefer, reading, disk, now, left, rfl, henvelope, hnow,
      hleft, fun old hold => kept_none hkept howned hold⟩

/-- The file after a method reads as before, or as what the method wrote. -/
theorem Calls.later {α : Type} {x : Program α} {P : HolderState → HolderState → Check α → Prop}
    (h : Calls x file P) {before later : HolderState} (hread : readState file.raw = .ok before)
    (hafter : readState (x.final file).raw = .ok later) :
    later = before ∨ P before later (x.result file) := by
  rcases h with ⟨hfinal, -⟩ | ⟨first, second, raw, hfirst, hwritten, hfinal, hcall⟩
  · rw [hfinal, hread] at hafter
    exact .inl (Except.ok.inj hafter).symm
  · obtain rfl := Except.ok.inj (hread.symm.trans hfirst)
    rw [hfinal] at hafter
    obtain rfl := readState_written hwritten hafter
    exact .inr hcall

theorem Orderly.keeps (h : Orderly holder held) (move : HolderMove) {before later : HolderState}
    (hread : readState held.file.raw = .ok before)
    (hafter : readState (held.step holder move).file.raw = .ok later) :
    Keeps holder before later move := by
  cases move with
  | request asking disk =>
    rcases (request_calls holder asking disk held.file).later hread hafter with
      rfl | ⟨r, -, rfl⟩
    · exact .inl rfl
    · exact .inl rfl
  | install envelope manifest prefer reading disk =>
    rcases (install_calls holder envelope manifest prefer reading disk held.file).later hread
      hafter with rfl | ⟨-, hinstalls⟩
    · exact .inl rfl
    · exact hinstalls.keeps disk (h.out before hread).2
  | check manifest reading disk =>
    rcases (check_calls holder manifest reading disk held.file).later hread hafter with
      rfl | ⟨henvelope, -⟩
    · exact .inl rfl
    · exact .inl henvelope

/-! ### Every run -/

/-- Positions in a list of distinct entries rise along what is drawn from it in
    order. -/
theorem pairwise_idxOf_of_sublist {l l' : List String} (hsub : l.Sublist l') (hnodup : l'.Nodup) :
    l.Pairwise (fun a b => l'.idxOf a < l'.idxOf b) := by
  refine List.Pairwise.sublist hsub (pairwise_iff_getElem.mpr ?_)
  intro i j hi hj hij
  rw [hnodup.idxOf_getElem i hi, hnodup.idxOf_getElem j hj]
  exact hij

theorem install_error {envelope manifest : Document} {prefer : Bool} {reading : Reading}
    {disk : Bool} {e : Refused}
    (h : (install holder envelope manifest prefer reading disk).result file = .error e) :
    (install holder envelope manifest prefer reading disk).final file = file := by
  rcases install_calls holder envelope manifest prefer reading disk file with
    ⟨hfinal, -⟩ | ⟨before, later, raw, -, -, -, ⟨left, hresult⟩, -⟩
  · exact hfinal
  · rw [hresult] at h
    cases h

/-- In every run the leases that were installed answer requests in the order
    these were made, each at most once; an install that is refused changes
    nothing; and a lease that is held and verifies is replaced only by one that
    lives as long, or is preferred. -/
theorem installs_in_order (holder : Holder) (moves : List HolderMove) :
    (Held.run holder moves).installed.Sublist (Held.run holder moves).requested ∧
    ((Held.run holder moves).requested.Nodup →
      (Held.run holder moves).installed.Nodup ∧
      (Held.run holder moves).installed.Pairwise (fun a b =>
        (Held.run holder moves).requested.idxOf a < (Held.run holder moves).requested.idxOf b)) ∧
    (∀ envelope manifest prefer reading disk e,
      (install holder envelope manifest prefer reading disk).result (Held.run holder moves).file =
        .error e →
      (install holder envelope manifest prefer reading disk).final (Held.run holder moves).file =
        (Held.run holder moves).file) ∧
    ∀ move before later, readState (Held.run holder moves).file.raw = .ok before →
      readState ((Held.run holder moves).step holder move).file.raw = .ok later →
      Keeps holder before later move := by
  have horderly := orderly holder moves
  refine ⟨horderly.sublist, fun hnodup => ?_, ?_, ?_⟩
  · exact ⟨hnodup.sublist horderly.sublist, pairwise_idxOf_of_sublist horderly.sublist hnodup⟩
  · intro envelope manifest prefer reading disk e
    exact install_error
  · intro move before later hread hafter
    exact horderly.keeps move hread hafter

end Regalia.Lease
