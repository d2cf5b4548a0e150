import Mathlib.Data.List.Pairwise
import Regalia.Core.Fencing.Gate
import Regalia.Data.Runs

/-!
# Never Two Signers

The authority remembers its last grant and nothing before it, while every
lease it ever published may still lie in some site's lease file. Safety needs
more than that one memory: the windows of all grants, not only of the last
two, have to keep apart.

They do as long as renewals go forward. A grant to another site waits out the
last grant, and if no renewal ever gave back time that had been granted, the
last grant is also the one that ends last (`Orderly`). A renewal that ends
earlier than the grant it renews breaks this, and the next site is let in
while the longer lease is still good; so does one that is dated back into
another site's window.

## Main definitions

* `Renews`: A renewal neither begins nor ends before the grant it renews.
* `Orderly`: The windows of a list of grants, newest first.
* `World.Inv`: What every such step preserves.

## Theorems

* `orderly_cons`: A signed grant that renews keeps the windows in order.
* `step_inv`: Every step keeps the invariant.
* `one_signer`: At no instant do two sites act.
* `two_signers`: A shortened renewal lets two sites act at one instant.
-/

namespace Regalia.Fencing

open List

variable {ι : Type} [DecidableEq ι] {sign : Lease → GoString}

/-! ### Orderly grants -/

/-- A grant does not give back time: if the last grant was to its site, it
    neither begins nor ends before that one. -/
def Renews (w : World ι) : Event ι → Prop
  | .run grant _ =>
    match w.authority.granted with
    | [] => True
    | last :: _ => last.site.asJson = grant.site →
      last.notBefore ≤ grant.notBefore ∧ last.expiresAt ≤ grant.expiresAt
  | _ => True

instance decideRenews (w : World ι) (e : Event ι) : Decidable (Renews w e) := by
  unfold Renews
  split
  · split <;> infer_instance
  · infer_instance

/-- A later grant ends last, and waits out the grants to other sites. -/
def After (new old : Grant) : Prop :=
  old.expiresAt ≤ new.expiresAt ∧
    (old.site.asJson ≠ new.site.asJson → old.expiresAt ≤ new.notBefore)

/-- The grants of an authority, newest first. -/
def Orderly (granted : List Grant) : Prop := granted.Pairwise After

-- what `SignGrant` has checked of a grant it signs
theorem signGrant_ok {grant : Grant} {previous : PreviousGrant} {lease : Lease}
    (h : signGrant sign grant previous = .ok lease) :
    grant.notBefore < grant.expiresAt ∧
      (previous.site ≠ [] → previous.site ≠ grant.site → previous.expiresAt ≤ grant.notBefore) ∧
      lease = { grant.lease with signature := sign grant.lease } := by
  unfold signGrant at h
  dsimp only at h
  split_ifs at h with _ hwindow _ _ hhandover
  refine ⟨hwindow, ?_, (Except.ok.inj h).symm⟩
  intro hsite hother
  by_contra hlate
  exact hhandover ⟨hsite, hother, not_le.mp hlate⟩

theorem loadIssuerState_some {p previous : PreviousGrant}
    (h : loadIssuerState (some p) = .ok previous) : previous = p ∧ p.site ≠ [] := by
  simp only [loadIssuerState] at h
  split at h
  · cases h
  rename_i hcomplete
  exact ⟨(Except.ok.inj h).symm, fun hnil => hcomplete (.inl hnil)⟩

/-- The last grant is the record, so what was checked against the record holds
    against every grant before it. -/
theorem orderly_cons {last grant : Grant} {rest : List Grant} {previous : PreviousGrant}
    {lease : Lease} (hload : loadIssuerState (some last.record) = .ok previous)
    (hsign : signGrant sign grant previous = .ok lease)
    (hrenew : last.site.asJson = grant.site →
      last.notBefore ≤ grant.notBefore ∧ last.expiresAt ≤ grant.expiresAt)
    (h : Orderly (last :: rest)) : Orderly (grant :: last :: rest) := by
  obtain ⟨rfl, hsite⟩ := loadIssuerState_some hload
  obtain ⟨hwindow, hhandover, -⟩ := signGrant_ok hsign
  have hrest := pairwise_cons.mp h
  refine pairwise_cons.mpr ⟨?_, h⟩
  by_cases hsame : last.site.asJson = grant.site
  · obtain ⟨hbegin, hend⟩ := hrenew hsame
    -- the site as the lease spells it is the last grant's
    have hspelled : grant.site.asJson = last.site.asJson := by
      rw [← hsame, GoString.asJson_asJson]
    intro old hold
    rcases mem_cons.mp hold with rfl | hold
    · exact ⟨hend, fun hne => absurd hspelled.symm hne⟩
    · obtain ⟨hlast, hother⟩ := hrest.1 old hold
      refine ⟨hlast.trans hend, fun hne => (hother ?_).trans hbegin⟩
      rwa [← hspelled]
  · have hwaits : last.expiresAt ≤ grant.notBefore := hhandover hsite hsame
    intro old hold
    have hlast : old.expiresAt ≤ last.expiresAt := by
      rcases mem_cons.mp hold with rfl | hold
      · exact le_refl _
      · exact (hrest.1 old hold).1
    exact ⟨by omega, fun _ => by omega⟩

/-! ### The invariant -/

/-- A lease has the window and the site of a grant. -/
def Lease.of (lease : Lease) (grant : Grant) : Prop :=
  lease.site = grant.site.asJson ∧ lease.notBefore = grant.notBefore ∧
    lease.expiresAt = grant.expiresAt

structure Authority.Inv (a : Authority) : Prop where
  record : a.record = a.granted.head?.map Grant.record
  orderly : Orderly a.granted
  published : ∀ lease ∈ a.published, ∃ grant ∈ a.granted, lease.of grant

structure World.Inv (w : World ι) : Prop where
  authority : w.authority.Inv
  files : ∀ i lease, (w.gates i).leaseFile = some lease → lease ∈ w.authority.published
  acted : ∀ site t, (site, t) ∈ w.acted → ∃ lease ∈ w.authority.published,
    lease.site = site ∧ lease.notBefore ≤ t ∧ t < lease.expiresAt

/-- What a run of the authority can do to its decisions: nothing, or record a
    grant it signed, and then publish the lease or not. -/
theorem run_cases (sign : Lease → GoString) (a : Authority) (grant : Grant) (stop : Option Stop) :
    ((a.run sign grant stop).record = a.record ∧ (a.run sign grant stop).granted = a.granted ∧
      (a.run sign grant stop).published = a.published) ∨
    ∃ previous lease, loadIssuerState a.record = .ok previous ∧
      signGrant sign grant previous = .ok lease ∧
      (a.run sign grant stop).record = some grant.record ∧
      (a.run sign grant stop).granted = grant :: a.granted ∧
      ((a.run sign grant stop).published = a.published ∨
        (a.run sign grant stop).published = lease :: a.published) := by
  unfold Authority.run
  by_cases hlock : a.locked = true
  · exact .inl (by simp [hlock])
  simp only [hlock, Bool.false_eq_true, if_false]
  cases hload : loadIssuerState a.record with
  | error e => exact .inl ⟨rfl, rfl, rfl⟩
  | ok previous =>
    cases hsign : signGrant sign grant previous with
    | error e => exact .inl (by simp [Except.bind, hsign])
    | ok lease =>
      simp only [Except.bind, hsign]
      by_cases hsave : reaches stop .save = true
      · cases hrecord : saveIssuerState grant with
        | none => exact .inl (by simp [hsave])
        | some record =>
          have heq : record = grant.record := by
            unfold saveIssuerState at hrecord
            simp only at hrecord
            split at hrecord
            · cases hrecord
            · exact (Option.some.inj hrecord).symm
          refine .inr ⟨previous, lease, rfl, hsign, ?_⟩
          by_cases hpublish : reaches stop .publish = true
          · simp [hsave, hpublish, heq]
          · simp [hsave, hpublish, heq]
      · exact .inl (by simp [hsave])

theorem run_inv (sign : Lease → GoString) {a : Authority} {grant : Grant} (stop : Option Stop) (h : a.Inv)
    (hrenew : ∀ last rest, a.granted = last :: rest → last.site.asJson = grant.site →
      last.notBefore ≤ grant.notBefore ∧ last.expiresAt ≤ grant.expiresAt) :
    (a.run sign grant stop).Inv ∧
      ∀ lease ∈ a.published, lease ∈ (a.run sign grant stop).published := by
  rcases run_cases sign a grant stop with
    ⟨hrec, hgranted, hpub⟩ | ⟨previous, lease, hload, hsign, hrec, hgranted, hpub⟩
  · refine ⟨⟨?_, ?_, ?_⟩, fun lease hl => hpub ▸ hl⟩
    · rw [hrec, hgranted]
      exact h.record
    · rw [hgranted]
      exact h.orderly
    · rw [hgranted, hpub]
      exact h.published
  · have horderly : Orderly (grant :: a.granted) := by
      cases hcases : a.granted with
      | nil => exact pairwise_singleton _ _
      | cons last rest =>
        have hrecord : a.record = some last.record := by
          rw [h.record, hcases]
          rfl
        rw [hrecord] at hload
        exact orderly_cons hload hsign (hrenew last rest hcases) (hcases ▸ h.orderly)
    have hof : lease.of grant := by
      obtain ⟨-, -, rfl⟩ := signGrant_ok hsign
      exact ⟨rfl, rfl, rfl⟩
    have hold : ∀ l ∈ a.published, ∃ g ∈ grant :: a.granted, l.of g := by
      intro l hl
      obtain ⟨g, hg, hlg⟩ := h.published l hl
      exact ⟨g, mem_cons_of_mem _ hg, hlg⟩
    refine ⟨⟨?_, hgranted ▸ horderly, ?_⟩, ?_⟩
    · rw [hrec, hgranted]
      rfl
    · rw [hgranted]
      rcases hpub with hpub | hpub
      · rw [hpub]
        exact hold
      · rw [hpub]
        intro l hl
        rcases mem_cons.mp hl with rfl | hl
        · exact ⟨grant, mem_cons_self, hof⟩
        · exact hold l hl
    · intro l hl
      rcases hpub with hpub | hpub
      · exact hpub ▸ hl
      · exact hpub ▸ mem_cons_of_mem _ hl

/-! ### Gates -/

-- an evaluation lets the site act only inside the window of a lease for it
theorem evaluate_true {g : Gate} {now : Int} {canceled : Bool} {append : Append}
    (h : (g.evaluate now canceled append).2 = true) :
    ∃ lease, g.leaseFile = some lease ∧ lease.site = g.site ∧ lease.notBefore ≤ now ∧
      now < lease.expiresAt := by
  unfold Gate.evaluate at h
  split at h
  · cases h
  split at h
  · cases h
  rename_i lease hread
  split at h
  · cases h
  rename_i hsite
  split at h
  · cases h
  rename_i hwindow
  refine ⟨lease, (Option.filter_eq_some_iff.mp hread).1,
    not_not.mp (fun hne => hsite (.inl hne)), ?_⟩
  have hin := not_not.mp hwindow
  unfold inWindow parseInstant at hin
  split at hin
  · rename_i notBefore expiresAt hbefore hafter
    split at hbefore
    · cases hbefore
      split at hafter
      · cases hafter
        simp only [Bool.not_eq_true', Bool.or_eq_false_iff, decide_eq_false_iff_not,
          Bool.not_eq_false', decide_eq_true_eq, not_lt] at hin
        exact ⟨hin.1.1.1, hin.1.1.2⟩
      · cases hafter
    · cases hbefore
  · cases hin

theorem evaluate_fields (g : Gate) (now : Int) (canceled : Bool) (append : Append) :
    (g.evaluate now canceled append).1.leaseFile = g.leaseFile ∧
      (g.evaluate now canceled append).1.site = g.site := by
  unfold Gate.evaluate
  split
  · exact ⟨rfl, rfl⟩
  split
  · exact ⟨rfl, rfl⟩
  split
  · exact ⟨rfl, rfl⟩
  split
  · exact ⟨rfl, rfl⟩
  split
  · exact ⟨rfl, rfl⟩
  split
  · cases append with
    | synced => exact ⟨rfl, rfl⟩
    | lost => exact ⟨rfl, rfl⟩
    | unsynced => exact ⟨rfl, rfl⟩
  · exact ⟨rfl, rfl⟩

/-- Asking a gate, open or not: it acts only inside the window of the lease in
    its file, and the file stays. -/
theorem ready_spec (g : Gate) (now : Int) (canceled : Bool) (append : Append) :
    (g.ready now canceled append).1.leaseFile = g.leaseFile ∧
      ((g.ready now canceled append).2 = true → ∃ lease, g.leaseFile = some lease ∧
        lease.site = g.site ∧ lease.notBefore ≤ now ∧ now < lease.expiresAt) := by
  unfold Gate.ready
  by_cases hopen : g.opened = true
  · rw [if_pos hopen]
    exact ⟨(evaluate_fields g now canceled append).1, evaluate_true⟩
  · rw [if_neg hopen]
    unfold Gate.acquire
    split
    · exact ⟨rfl, fun h => nomatch h⟩
    · rename_i epoch hash _
      exact ⟨(evaluate_fields _ now canceled append).1,
        fun h => evaluate_true (g := { g with maxEpoch := epoch, lastHash := hash }) h⟩

/-! ### Runs -/

/-- One gate is given another file, of a lease that was published. -/
theorem World.Inv.update {w : World ι} (h : w.Inv) (i : ι) {g : Gate}
    (hfile : ∀ lease, g.leaseFile = some lease → lease ∈ w.authority.published) :
    ({ w with gates := Function.update w.gates i g } : World ι).Inv := by
  refine ⟨h.authority, fun j l hl => ?_, h.acted⟩
  by_cases hj : j = i
  · subst hj
    simp only [Function.update_self] at hl
    exact hfile l hl
  · simp only [Function.update_of_ne hj] at hl
    exact h.files j l hl

theorem step_inv (w : World ι) (e : Event ι) (h : w.Inv) (hrenew : Renews w e) :
    (w.step sign e).Inv := by
  cases e with
  | run grant stop =>
    obtain ⟨hauthority, hkept⟩ := run_inv sign stop h.authority (by
      intro last rest hgranted
      simpa only [Renews, hgranted] using hrenew)
    refine ⟨hauthority, fun i lease hl => hkept lease (h.files i lease hl), ?_⟩
    intro site t hacted
    obtain ⟨lease, hl, hspec⟩ := h.acted site t hacted
    exact ⟨lease, hkept lease hl, hspec⟩
  | unlock => exact ⟨⟨h.authority.record, h.authority.orderly, h.authority.published⟩, h.files, h.acted⟩
  | deliver i lease =>
    unfold World.step
    simp only
    split
    · rename_i hpublished
      refine h.update i (fun l hl => ?_)
      cases hl
      exact hpublished
    · exact h
  | withdraw i => exact h.update i (fun l hl => nomatch hl)
  | ready i now canceled append =>
    obtain ⟨hfile, hacts⟩ := ready_spec (w.gates i) now canceled append
    refine ⟨h.authority, (h.update i fun l hl => h.files i l (hfile ▸ hl)).files, ?_⟩
    intro site t hacted
    simp only [World.step] at hacted
    split at hacted
    · rename_i hready
      rcases mem_cons.mp hacted with heq | hold
      · cases heq
        obtain ⟨lease, hl, hspec⟩ := hacts hready
        exact ⟨lease, h.files i lease hl, hspec⟩
      · exact h.acted site t hold
    · exact h.acted site t hacted
  | restart i => exact h.update i (fun l hl => h.files i l hl)

/-- Nothing was granted, no lease lies anywhere and no site has acted. -/
def World.Fresh (w : World ι) : Prop :=
  w.authority = {} ∧ (∀ i, (w.gates i).leaseFile = none) ∧ w.acted = []

omit [DecidableEq ι] in
theorem World.Fresh.inv {w : World ι} (h : w.Fresh) : w.Inv := by
  obtain ⟨hauthority, hfiles, hacted⟩ := h
  refine ⟨?_, ?_, ?_⟩
  · rw [hauthority]
    exact ⟨rfl, List.Pairwise.nil, fun _ hl => nomatch hl⟩
  · intro i lease hl
    rw [hfiles i] at hl
    cases hl
  · intro site t ht
    rw [hacted] at ht
    cases ht

/-- The windows of two grants do not overlap, unless they are to one site. -/
def Apart (a b : Grant) : Prop :=
  a.site.asJson ≠ b.site.asJson → a.expiresAt ≤ b.notBefore ∨ b.expiresAt ≤ a.notBefore

instance : Std.Symm Apart := ⟨fun _ _ h hne => (h hne.symm).symm⟩

theorem Orderly.apart {granted : List Grant} (h : Orderly granted) {a b : Grant}
    (ha : a ∈ granted) (hb : b ∈ granted) : Apart a b := by
  have hpair : granted.Pairwise Apart := h.imp (fun hab hne => .inr (hab.2 hne.symm))
  exact hpair.forall_of_forall (fun x _ hne => absurd rfl hne) ha hb

/-- The windows of two published leases for different sites keep apart. -/
theorem Authority.Inv.windows {a : Authority} (h : a.Inv) {l l' : Lease} (hl : l ∈ a.published)
    (hl' : l' ∈ a.published) (hsite : l.site ≠ l'.site) :
    l.expiresAt ≤ l'.notBefore ∨ l'.expiresAt ≤ l.notBefore := by
  obtain ⟨g, hg, hls, hlb, hle⟩ := h.published l hl
  obtain ⟨g', hg', hls', hlb', hle'⟩ := h.published l' hl'
  have hne : g.site.asJson ≠ g'.site.asJson := by rwa [← hls, ← hls']
  rw [hlb, hle, hlb', hle']
  exact h.orderly.apart hg hg' hne

theorem one_signer (w : World ι) (hw : w.Fresh) (events : List (Event ι))
    (h : Throughout Renews (World.step sign) w events) :
    (∀ site site' t, (site, t) ∈ (w.run sign events).acted →
      (site', t) ∈ (w.run sign events).acted → site = site') ∧
    (∀ l ∈ (w.run sign events).authority.published,
      ∀ l' ∈ (w.run sign events).authority.published, l.site ≠ l'.site →
        l.expiresAt ≤ l'.notBefore ∨ l'.expiresAt ≤ l.notBefore) := by
  have hinv : (w.run sign events).Inv := h.invariant step_inv hw.inv
  refine ⟨?_, fun l hl l' hl' hsite => hinv.authority.windows hl hl' hsite⟩
  intro site site' t ht ht'
  obtain ⟨l, hl, rfl, hbegin, hend⟩ := hinv.acted site t ht
  obtain ⟨l', hl', rfl, hbegin', hend'⟩ := hinv.acted site' t ht'
  by_contra hne
  rcases hinv.authority.windows hl hl' hne with hwindow | hwindow
  · omega
  · omega

/-! ### A shortened renewal -/

/-- Two sites with a gate each, before anything was granted. -/
def twoSites : World Bool where
  gates := fun b => {
    site := GoString.ofText (if b then "alpha" else "beta")
    registryDigest := GoString.ofText "d"
    verifies := fun _ => true }

def exampleGrant (site : String) (epoch : UInt64) (notBefore expiresAt : Int) : Grant :=
  ⟨GoString.ofText site, epoch, notBefore * 10 ^ 9, expiresAt * 10 ^ 9, GoString.ofText "d"⟩

def exampleSign (_ : Lease) : GoString := List.replicate 88 65

def Grant.signed (grant : Grant) : Lease := { grant.lease with signature := exampleSign grant.lease }

/-- Alpha is granted ten minutes, then one minute, and beta what is left. -/
def shortened : List (Event Bool) :=
  [.run (exampleGrant "alpha" 1 0 600) none,
   .deliver true (exampleGrant "alpha" 1 0 600).signed,
   .run (exampleGrant "alpha" 2 0 60) none,
   .run (exampleGrant "beta" 3 60 600) none,
   .deliver false (exampleGrant "beta" 3 60 600).signed,
   .ready true (90 * 10 ^ 9) false .synced,
   .ready false (90 * 10 ^ 9) false .synced]

theorem two_signers : (twoSites.run exampleSign shortened).acted =
    [(GoString.ofText "beta", 90 * 10 ^ 9), (GoString.ofText "alpha", 90 * 10 ^ 9)] := by
  decide +kernel

/-- The same hand-over after a renewal that keeps the first window. -/
def renewed : List (Event Bool) :=
  [.run (exampleGrant "alpha" 1 0 600) none,
   .deliver true (exampleGrant "alpha" 1 0 600).signed,
   .run (exampleGrant "alpha" 2 0 600) none,
   .run (exampleGrant "beta" 3 600 900) none,
   .deliver false (exampleGrant "beta" 3 600 900).signed,
   .ready true (90 * 10 ^ 9) false .synced,
   .ready false (700 * 10 ^ 9) false .synced]

theorem one_signer_renewed :
    (twoSites.run exampleSign renewed).acted.length = 2 ∧
    ∀ site site' t, (site, t) ∈ (twoSites.run exampleSign renewed).acted →
      (site', t) ∈ (twoSites.run exampleSign renewed).acted → site = site' :=
  ⟨by decide +kernel,
   (one_signer twoSites ⟨rfl, fun _ => rfl, rfl⟩ renewed (by decide +kernel)).1⟩

end Regalia.Fencing
