import Mathlib.Data.List.Dedup
import Mathlib.Data.List.Perm.Subperm

/-!
# Checkers

A checker is a program of `Except ε`: a sequence of conditions that ends with
a value, or stops at the first one that fails. The rules here say when one
succeeds, construct by construct, so that what a checker accepts can be
written down as a proposition: a bind succeeds when both parts do, a loop
when every pass does.

A loop that carries what it has met so far, and refuses what it meets again,
succeeds when what it meets is new throughout (`foldlM_collect_eq_ok`); for
keys kept in a list this is freshness of all keys together
(`freshThrough_iff`).

## Main definitions

* `MarksOnce`: A loop marks the keys that may come once.
* `FreshThrough`: Every item of a list is fresh where a loop meets it.
* `Fresh`: Keys new to a list, once each.

## Theorems

* `bind_eq_ok`: A bind.
* `forM_eq_ok`: A loop without a state.
* `mapM_eq_ok`: A loop that collects one result for each item.
* `filterM_eq_ok`: A loop that keeps the items that pass.
* `foldlM_invariant`: What every pass keeps, the loop keeps.
* `MarksOnce.countP_le`: A key that is marked comes once.
* `foldlM_collect_eq_ok`: A loop with a state.
* `freshThrough_iff`: Freshness throughout is freshness of all keys.
* `foldlM_register_eq_ok`: A loop that registers items under keys.
* `forM_zipIdx_eq_ok`, `mapM_zipIdx_eq_ok`: Loops that number their items.
* `find?_key_eq_some`: A search by a key.
-/

namespace Regalia

open List

variable {ε α β γ σ κ : Type} {x : Except ε α}

theorem bind_eq_ok {f : α → Except ε β} {r : β} :
    x >>= f = .ok r ↔ ∃ a, x = .ok a ∧ f a = .ok r := by
  cases x with
  | error e =>
    constructor
    · intro h
      cases h
    · rintro ⟨a, h, _⟩
      cases h
  | ok a =>
    constructor
    · intro h
      exact ⟨a, rfl, h⟩
    · rintro ⟨a', h, hf⟩
      cases h
      exact hf

theorem pure_eq_ok {a r : α} : (pure a : Except ε α) = .ok r ↔ a = r := Except.ok.injEq a r ▸ Iff.rfl

theorem ite_eq_ok {p : Prop} [Decidable p] {y : Except ε α} {r : α} :
    (if p then x else y) = .ok r ↔ p ∧ x = .ok r ∨ ¬ p ∧ y = .ok r := by
  by_cases h : p <;> simp [h]

theorem map_eq_ok {f : α → β} {r : β} : x.map f = .ok r ↔ ∃ a, x = .ok a ∧ f a = r := by
  cases x <;> simp [Except.map]

theorem isOk_eq_true_iff : x.isOk = true ↔ ∃ a, x = .ok a := by
  cases x with
  | error e => simp [Except.isOk, Except.toBool]
  | ok a => simp [Except.isOk, Except.toBool]

theorem toOption_eq_some_iff {a : α} : x.toOption = some a ↔ x = .ok a := by
  cases x with
  | error e => simp [Except.toOption]
  | ok b => simp [Except.toOption]

theorem forM_eq_ok {f : γ → Except ε Unit} {u : Unit} (P : γ → Prop) (l : List γ)
    (hf : ∀ x ∈ l, f x = .ok () ↔ P x) : l.forM f = .ok u ↔ ∀ x ∈ l, P x := by
  induction l with
  | nil => simp [pure_eq_ok]
  | cons x rest ih =>
    have hrest := ih (fun y hy => hf y (mem_cons_of_mem _ hy))
    have hcons : (x :: rest).forM f = (f x >>= fun _ => rest.forM f) := rfl
    rw [hcons, bind_eq_ok, forall_mem_cons, ← hrest, ← hf x mem_cons_self]
    constructor
    · rintro ⟨⟨⟩, hx, hl⟩
      exact ⟨hx, hl⟩
    · rintro ⟨hx, hl⟩
      exact ⟨(), hx, hl⟩

/-- A loop over what a list is mapped to. -/
theorem forM_map_eq_ok {δ : Type} {g : δ → γ} {f : γ → Except ε Unit} {u : Unit} {P : δ → Prop}
    {l : List δ} (hf : ∀ x ∈ l, f (g x) = .ok () ↔ P x) :
    (l.map g).forM f = .ok u ↔ ∀ x ∈ l, P x := by
  rw [forM_eq_ok (fun y => f y = .ok ()) _ (fun _ _ => Iff.rfl), forall_mem_map]
  exact forall₂_congr hf

theorem mapM_eq_ok {f : γ → Except ε β} (R : γ → β → Prop) (l : List γ)
    (hf : ∀ x ∈ l, ∀ y, f x = .ok y ↔ R x y) (ys : List β) :
    l.mapM f = .ok ys ↔ List.Forall₂ R l ys := by
  induction l generalizing ys with
  | nil =>
    rw [mapM_nil, pure_eq_ok, forall₂_nil_left_iff, eq_comm]
  | cons x rest ih =>
    rw [mapM_cons, bind_eq_ok, forall₂_cons_left_iff]
    have hrest := ih (fun z hz => hf z (mem_cons_of_mem _ hz))
    constructor
    · rintro ⟨y, hy, h⟩
      rcases bind_eq_ok.mp h with ⟨ys', hys, h⟩
      exact ⟨y, ys', (hf x mem_cons_self y).mp hy, (hrest ys').mp hys, (pure_eq_ok.mp h).symm⟩
    · rintro ⟨y, ys', hy, hys, rfl⟩
      exact ⟨y, (hf x mem_cons_self y).mpr hy, bind_eq_ok.mpr ⟨ys', (hrest ys').mpr hys, rfl⟩⟩

variable {l : List γ}

/-- A loop that collects has a result for every item. -/
theorem exists_of_mapM {f : γ → Except ε β} :
    ∀ {results : List β}, l.mapM f = .ok results → ∀ x ∈ l, ∃ y, f x = .ok y := by
  induction l with
  | nil => exact fun _ x hx => nomatch hx
  | cons x rest ih =>
    intro results h
    rw [mapM_cons, bind_eq_ok] at h
    rcases h with ⟨y, hy, h⟩
    rcases bind_eq_ok.mp h with ⟨ys, hys, -⟩
    exact forall_mem_cons.mpr ⟨⟨y, hy⟩, ih hys⟩

theorem forall_of_mapM {f : γ → Except ε β} {P : β → Prop} {ys : List β}
    (h : l.mapM f = .ok ys) (hf : ∀ x ∈ l, ∀ y, f x = .ok y → P y) : ∀ y ∈ ys, P y := by
  have hall := (mapM_eq_ok _ _ (fun _ _ _ => Iff.rfl) ys).mp h
  clear h
  induction hall with
  | nil => exact nofun
  | cons hxy _ ih =>
    rw [forall_mem_cons] at hf
    exact forall_mem_cons.mpr ⟨hf.1 _ hxy, ih hf.2⟩

variable {R : γ → β → Prop}

theorem exists_forall₂ (h : ∀ x ∈ l, ∃ y, R x y) : ∃ ys, List.Forall₂ R l ys := by
  induction l with
  | nil => exact ⟨[], .nil⟩
  | cons x rest ih =>
    rcases h x mem_cons_self with ⟨y, hy⟩
    rcases ih (fun z hz => h z (mem_cons_of_mem _ hz)) with ⟨ys, hys⟩
    exact ⟨y :: ys, .cons hy hys⟩

/-- Where a relation is a function, what it relates a list's items to. -/
theorem forall₂_iff_map {f : γ → β} (hR : ∀ x y, R x y → y = f x)
    {ys : List β} : List.Forall₂ R l ys ↔ (∀ x ∈ l, R x (f x)) ∧ ys = l.map f := by
  induction l generalizing ys with
  | nil => simp
  | cons x rest ih =>
    rw [forall₂_cons_left_iff, forall_mem_cons, map_cons]
    constructor
    · rintro ⟨y, ys', hy, hys, rfl⟩
      rcases ih.mp hys with ⟨hall, rfl⟩
      rw [← hR x y hy]
      exact ⟨⟨hy, hall⟩, rfl⟩
    · rintro ⟨⟨hx, hall⟩, rfl⟩
      exact ⟨f x, rest.map f, hx, ih.mpr ⟨hall, rfl⟩, rfl⟩

/-! ### Loops with a state -/

theorem filterAuxM_eq_ok {p : α → Except ε Bool} (items : List α) : ∀ {kept r : List α},
    items.filterAuxM p kept = .ok r ↔ (∀ a ∈ items, ∃ b, p a = .ok b) ∧
      r = (items.filter (fun a => (p a).toOption.getD false)).reverse ++ kept := by
  induction items with
  | nil =>
    intro kept r
    simp [List.filterAuxM, pure, Except.pure, eq_comm]
  | cons a items ih =>
    intro kept r
    cases hp : p a with
    | error e => simp [List.filterAuxM, hp, bind, Except.bind]
    | ok b => cases b <;> simp [List.filterAuxM, hp, bind, Except.bind, Except.toOption, ih]

/-- A loop that keeps the items that pass: every test has to be decided. -/
theorem filterM_eq_ok {p : α → Except ε Bool} {items r : List α} :
    items.filterM p = .ok r ↔ (∀ a ∈ items, ∃ b, p a = .ok b) ∧
      r = items.filter (fun a => (p a).toOption.getD false) := by
  rw [List.filterM, bind_eq_ok]
  constructor
  · rintro ⟨kept, hkept, hr⟩
    rcases (filterAuxM_eq_ok items).mp hkept with ⟨hall, rfl⟩
    cases hr
    exact ⟨hall, by rw [append_nil, reverse_reverse]⟩
  · rintro ⟨hall, rfl⟩
    refine ⟨_, (filterAuxM_eq_ok items).mpr ⟨hall, rfl⟩, ?_⟩
    rw [append_nil, reverse_reverse]
    rfl

variable {f : σ → γ → Except ε σ}

/-- What every pass keeps, the loop keeps. -/
theorem foldlM_invariant (P : σ → Prop)
    (hf : ∀ s s', ∀ x ∈ l, P s → f s x = .ok s' → P s') {s s' : σ} (hs : P s)
    (h : l.foldlM f s = .ok s') : P s' := by
  induction l generalizing s with
  | nil =>
    rw [foldlM_nil, pure_eq_ok] at h
    exact h ▸ hs
  | cons x rest ih =>
    rw [foldlM_cons, bind_eq_ok] at h
    rcases h with ⟨t, hx, hrest⟩
    exact ih (fun s s' y hy => hf s s' y (mem_cons_of_mem _ hy))
      (hf s t x mem_cons_self hs hx) hrest

/-! ### Items taken once -/

/-- A loop marks the keys that may come once: an item with a mark of its own is
    refused, and no mark is taken back. -/
structure MarksOnce (f : σ → γ → Except ε σ) (key : γ → κ) (once : κ → Prop)
    (marked : σ → κ → Prop) : Prop where
  step : ∀ {s x s'}, f s x = .ok s' →
    (once (key x) → ¬ marked s (key x) ∧ marked s' (key x)) ∧ ∀ k, marked s k → marked s' k

/-- There is one item at most with a key that may come once. -/
theorem MarksOnce.countP_le [DecidableEq κ] {key : γ → κ}
    {once : κ → Prop} {marked : σ → κ → Prop} (h : MarksOnce f key once marked) :
    ∀ {s s' : σ}, l.foldlM f s = .ok s' → ∀ {k}, once k →
      l.countP (fun x => key x = k) ≤ 1 ∧
        (marked s k → l.countP (fun x => key x = k) = 0) := by
  induction l with
  | nil => exact fun _ _ _ => ⟨Nat.zero_le _, fun _ => rfl⟩
  | cons x rest ih =>
    intro s s' hfold k hk
    rw [foldlM_cons, bind_eq_ok] at hfold
    rcases hfold with ⟨s₁, hx, hrest⟩
    rcases ih hrest hk with ⟨hle, hnone⟩
    by_cases hkey : key x = k
    · subst hkey
      rcases (h.step hx).1 hk with ⟨hfree, hmarked⟩
      rw [countP_cons_of_pos (by simp), hnone hmarked]
      exact ⟨Nat.le_refl _, fun hheld => absurd hheld hfree⟩
    · rw [countP_cons_of_neg (by simpa using hkey)]
      exact ⟨hle, fun hheld => hnone ((h.step hx).2 k hheld)⟩

/-- What a pass establishes of its item, and no later one takes back, holds of
    all in the end. -/
theorem kept_of_foldlM (Q : γ → σ → Prop)
    (h : ∀ {s x s'}, f s x = .ok s' → Q x s' ∧ ∀ y, Q y s → Q y s') :
    ∀ {s s' : σ}, l.foldlM f s = .ok s' → ∀ x ∈ l, Q x s' := by
  induction l with
  | nil => exact fun _ x hx => nomatch hx
  | cons x rest ih =>
    intro s s' hfold
    rw [foldlM_cons, bind_eq_ok] at hfold
    rcases hfold with ⟨s₁, hx, hrest⟩
    refine forall_mem_cons.mpr ⟨?_, ih hrest⟩
    exact foldlM_invariant (Q x) (fun _ _ _ _ hkept hstep => (h hstep).2 x hkept) (h hx).1 hrest

/-- What every pass asks of its item holds of all. -/
theorem forall_of_foldlM {P : γ → Prop}
    (h : ∀ {s x s'}, f s x = .ok s' → P x) {s s' : σ} (hfold : l.foldlM f s = .ok s') :
    ∀ x ∈ l, P x :=
  kept_of_foldlM (fun x _ => P x) (fun hs => ⟨h hs, fun _ hy => hy⟩) hfold

/-! ### Fresh items -/

/-- Every item is fresh for the state in which a loop meets it. -/
def FreshThrough (fresh : σ → γ → Prop) (add : σ → γ → σ) : σ → List γ → Prop
  | _, [] => True
  | s, x :: rest => fresh s x ∧ FreshThrough fresh add (add s x) rest

/-- A loop whose pass succeeds on a good, fresh item, and then adds it. -/
theorem foldlM_collect_eq_ok (P : γ → Prop) (fresh : σ → γ → Prop) (add : σ → γ → σ) (l : List γ)
    (hf : ∀ s, ∀ x ∈ l, ∀ s', f s x = .ok s' ↔ P x ∧ fresh s x ∧ s' = add s x) (s s' : σ) :
    l.foldlM f s = .ok s' ↔ (∀ x ∈ l, P x) ∧ FreshThrough fresh add s l ∧ s' = l.foldl add s := by
  induction l generalizing s with
  | nil =>
    rw [foldlM_nil, pure_eq_ok, foldl_nil, eq_comm]
    simp [FreshThrough]
  | cons x rest ih =>
    have hrest := ih (fun s y hy => hf s y (mem_cons_of_mem _ hy))
    rw [foldlM_cons, bind_eq_ok, forall_mem_cons, foldl_cons, FreshThrough]
    constructor
    · rintro ⟨a, ha, h⟩
      rcases (hf s x mem_cons_self a).mp ha with ⟨hP, hfresh, rfl⟩
      rcases (hrest _).mp h with ⟨hall, hthrough, hend⟩
      exact ⟨⟨hP, hall⟩, ⟨hfresh, hthrough⟩, hend⟩
    · rintro ⟨⟨hP, hall⟩, ⟨hfresh, hthrough⟩, hend⟩
      exact ⟨add s x, (hf s x mem_cons_self _).mpr ⟨hP, hfresh, rfl⟩,
        (hrest _).mpr ⟨hall, hthrough, hend⟩⟩

/-- Keys that are new to a list and stand once each. -/
def Fresh (old new : List κ) : Prop := new.Nodup ∧ ∀ k ∈ new, k ∉ old

theorem fresh_nil (old : List κ) : Fresh old [] := ⟨nodup_nil, fun _ hk => nomatch hk⟩

theorem fresh_singleton (old : List κ) (k : κ) : Fresh old [k] ↔ k ∉ old := by
  simp [Fresh]

theorem fresh_of_nil (new : List κ) : Fresh [] new ↔ new.Nodup := by
  simp [Fresh]

/-- New keys in two parts: the second part is new to the first as well. -/
theorem fresh_append (old a b : List κ) :
    Fresh old (a ++ b) ↔ Fresh old a ∧ Fresh (old ++ a) b := by
  unfold Fresh
  constructor
  · rintro ⟨hnodup, hnew⟩
    rcases nodup_append.mp hnodup with ⟨ha, hb, hab⟩
    refine ⟨⟨ha, fun k hk => hnew k (mem_append_left _ hk)⟩, hb, ?_⟩
    intro k hk hold
    rcases mem_append.mp hold with hold | hka
    · exact hnew k (mem_append_right _ hk) hold
    · exact hab k hka k hk rfl
  · rintro ⟨⟨ha, hnewa⟩, hb, hnewb⟩
    refine ⟨nodup_append.mpr ⟨ha, hb, ?_⟩, ?_⟩
    · rintro k hka _ hkb rfl
      exact hnewb k hkb (mem_append_right _ hka)
    · intro k hk
      rcases mem_append.mp hk with hka | hkb
      · exact hnewa k hka
      · exact fun hold => hnewb k hkb (mem_append_left _ hold)

/-- Where each pass adds its keys to those met before, freshness throughout is
    freshness of all of them together. -/
theorem freshThrough_iff (keys : σ → List κ) (new : γ → List κ) (add : σ → γ → σ)
    (hadd : ∀ s x, keys (add s x) = keys s ++ new x) (l : List γ) (s : σ) :
    FreshThrough (fun s x => Fresh (keys s) (new x)) add s l ↔ Fresh (keys s) (l.flatMap new) := by
  induction l generalizing s with
  | nil => exact ⟨fun _ => fresh_nil _, fun _ => trivial⟩
  | cons x rest ih => rw [FreshThrough, ih, hadd, flatMap_cons, fresh_append]

theorem freshThrough_and (p q : σ → γ → Prop) (add : σ → γ → σ) (l : List γ) (s : σ) :
    FreshThrough (fun s x => p s x ∧ q s x) add s l ↔
      FreshThrough p add s l ∧ FreshThrough q add s l := by
  induction l generalizing s with
  | nil => exact ⟨fun _ => ⟨trivial, trivial⟩, fun _ => trivial⟩
  | cons x rest ih =>
    rw [FreshThrough, FreshThrough, FreshThrough, ih]
    exact ⟨fun ⟨⟨hp, hq⟩, hps, hqs⟩ => ⟨⟨hp, hps⟩, hq, hqs⟩,
      fun ⟨⟨hp, hps⟩, hq, hqs⟩ => ⟨⟨hp, hq⟩, hps, hqs⟩⟩

/-- A loop that registers each item under a key that is not taken. -/
theorem foldlM_register_eq_ok {ν : Type} {f : List (κ × ν) → γ → Except ε (List (κ × ν))}
    (P : γ → Prop) (entry : γ → κ × ν) (l : List γ)
    (hf : ∀ s, ∀ x ∈ l, ∀ s', f s x = .ok s' ↔
      P x ∧ (entry x).1 ∉ s.map Prod.fst ∧ s' = s ++ [entry x]) (s s' : List (κ × ν)) :
    l.foldlM f s = .ok s' ↔ (∀ x ∈ l, P x) ∧
      Fresh (s.map Prod.fst) (l.map (fun x => (entry x).1)) ∧ s' = s ++ l.map entry := by
  have hstep : ∀ s, ∀ x ∈ l, ∀ s', f s x = .ok s' ↔
      P x ∧ Fresh (s.map Prod.fst) [(entry x).1] ∧ s' = s ++ [entry x] := by
    intro s x hx s'
    rw [hf s x hx, fresh_singleton]
  have hend : ∀ (l : List γ) (s : List (κ × ν)),
      l.foldl (fun s x => s ++ [entry x]) s = s ++ l.map entry := by
    intro l
    induction l with
    | nil => intro s; rw [foldl_nil, map_nil, append_nil]
    | cons x rest ih =>
      intro s
      rw [foldl_cons, ih, map_cons, append_assoc, singleton_append]
  rw [foldlM_collect_eq_ok P (fun s x => Fresh (s.map Prod.fst) [(entry x).1])
    (fun s x => s ++ [entry x]) l hstep, hend,
    freshThrough_iff (fun s => s.map Prod.fst) (fun x => [(entry x).1]) (fun s x => s ++ [entry x])
      (fun s x => by rw [map_append, map_singleton])]
  rw [← map_eq_flatMap]

/-- Two loops that register, one after the other. -/
theorem foldlM_register_append {γ' ν : Type} {f : List (κ × ν) → γ → Except ε (List (κ × ν))}
    {g : List (κ × ν) → γ' → Except ε (List (κ × ν))} (entry : γ → κ × ν) (entry' : γ' → κ × ν)
    (hf : ∀ s x s', f s x = .ok s' ↔ (entry x).1 ∉ s.map Prod.fst ∧ s' = s ++ [entry x])
    (hg : ∀ s x s', g s x = .ok s' ↔ (entry' x).1 ∉ s.map Prod.fst ∧ s' = s ++ [entry' x])
    (l : List γ) (l' : List γ') (s s' : List (κ × ν)) :
    (∃ mid, l.foldlM f s = .ok mid ∧ l'.foldlM g mid = .ok s') ↔
      Fresh (s.map Prod.fst) ((l.map entry ++ l'.map entry').map Prod.fst) ∧
        s' = s ++ (l.map entry ++ l'.map entry') := by
  have hfirst := foldlM_register_eq_ok (fun _ => True) entry l
    (fun s x _ s' => by rw [hf, true_and]) s
  have hsecond := fun mid => foldlM_register_eq_ok (fun _ => True) entry' l'
    (fun s x _ s' => by rw [hg, true_and]) mid s'
  simp only [hfirst, hsecond, implies_true, true_and]
  rw [map_append, fresh_append, map_map, map_map]
  constructor
  · rintro ⟨mid, ⟨hfresh, rfl⟩, hfresh', rfl⟩
    rw [map_append, map_map] at hfresh'
    exact ⟨⟨hfresh, hfresh'⟩, append_assoc _ _ _⟩
  · rintro ⟨⟨hfresh, hfresh'⟩, rfl⟩
    refine ⟨_, ⟨hfresh, rfl⟩, ?_, (append_assoc _ _ _).symm⟩
    rw [map_append, map_map]
    exact hfresh'

/-! ### Loops with an index -/

theorem forall_mem_zipIdx {P : γ → Prop} (l : List γ) : (∀ x ∈ l.zipIdx, P x.1) ↔ ∀ x ∈ l, P x := by
  have hfst : l.zipIdx.map Prod.fst = l := zipIdx_map_fst 0 l
  constructor
  · intro h x hx
    rw [← hfst] at hx
    rcases mem_map.mp hx with ⟨p, hp, rfl⟩
    exact h p hp
  · intro h p hp
    exact h p.1 (hfst ▸ mem_map_of_mem hp)

theorem map_zipIdx {β : Type} (f : γ → β) (l : List γ) :
    l.zipIdx.map (fun x => f x.1) = l.map f := by
  have hfst : l.zipIdx.map Prod.fst = l := zipIdx_map_fst 0 l
  conv => rhs; rw [← hfst]
  rw [map_map]
  rfl

theorem flatMap_zipIdx {β : Type} (f : γ → List β) (l : List γ) :
    l.zipIdx.flatMap (fun x => f x.1) = l.flatMap f := by
  rw [flatMap_def, flatMap_def, map_zipIdx]

theorem forM_zipIdx_eq_ok {f : γ × Nat → Except ε Unit} {u : Unit} {P : γ → Prop}
    (hf : ∀ x, f x = .ok () ↔ P x.1) (l : List γ) :
    l.zipIdx.forM f = .ok u ↔ ∀ x ∈ l, P x :=
  (forM_eq_ok (fun x => P x.1) _ (fun x _ => hf x)).trans (forall_mem_zipIdx l)

theorem mapM_zipIdx_eq_ok {f : γ × Nat → Except ε β}
    (hf : ∀ x y, f x = .ok y ↔ R x.1 y) (l : List γ) (ys : List β) :
    l.zipIdx.mapM f = .ok ys ↔ List.Forall₂ R l ys := by
  rw [mapM_eq_ok (fun x y => R x.1 y) _ (fun x _ => hf x)]
  conv => rhs; rw [← zipIdx_map_fst 0 l]
  rw [forall₂_map_left_iff]

/-! ### Keys -/

/-- A search by a key that no two items of a list share. -/
theorem find?_key_eq_some {key : γ → κ} [DecidableEq κ] (h : (l.map key).Nodup)
    (k : κ) (x : γ) : l.find? (fun y => decide (key y = k)) = some x ↔ x ∈ l ∧ key x = k := by
  constructor
  · intro hfind
    exact ⟨mem_of_find?_eq_some hfind, by simpa using find?_some hfind⟩
  · rintro ⟨hmem, rfl⟩
    have hsome : (l.find? (fun y => decide (key y = key x))).isSome = true := by
      rw [find?_isSome]
      exact ⟨x, hmem, by simp⟩
    rcases Option.isSome_iff_exists.mp hsome with ⟨y, hy⟩
    have hkey : key y = key x := by simpa using find?_some hy
    rw [hy, inj_on_of_nodup_map h (mem_of_find?_eq_some hy) hmem hkey]

/-- What two lists without repetition have in common, counted in either. -/
theorem length_filter_mem_comm [DecidableEq κ] {a b : List κ} (ha : a.Nodup) (hb : b.Nodup) :
    (a.filter (· ∈ b)).length = (b.filter (· ∈ a)).length := by
  apply List.Perm.length_eq
  rw [perm_ext_iff_of_nodup (ha.filter _) (hb.filter _)]
  intro k
  rw [mem_filter, mem_filter, decide_eq_true_eq, decide_eq_true_eq]
  exact and_comm

/-- A list has exactly the keys of another without repetition when it has all
    of them and as many. -/
theorem subset_and_dedup_length_iff [DecidableEq κ] {keys l : List κ} (hkeys : keys.Nodup) :
    ((∀ k ∈ keys, k ∈ l) ∧ l.dedup.length = keys.length) ↔ ∀ k, k ∈ l ↔ k ∈ keys := by
  constructor
  · rintro ⟨hsub, hlength⟩ k
    have hsubperm : keys.Subperm l.dedup :=
      subperm_of_subset hkeys (fun k hk => mem_dedup.mpr (hsub k hk))
    have hperm := hsubperm.perm_of_length_le (Nat.le_of_eq hlength)
    rw [hperm.mem_iff, mem_dedup]
  · intro h
    refine ⟨fun k hk => (h k).mpr hk, ?_⟩
    apply List.Perm.length_eq
    rw [perm_ext_iff_of_nodup (nodup_dedup l) hkeys]
    intro k
    rw [mem_dedup, h]

theorem dedup_length_eq_iff [DecidableEq κ] (l : List κ) : l.dedup.length = l.length ↔ l.Nodup := by
  constructor
  · intro h
    rw [← (dedup_sublist l).eq_of_length h]
    exact nodup_dedup l
  · intro h
    rw [dedup_eq_self.mpr h]

theorem exists_of_mem_right {R : α → β → Prop} {l : List α} {l' : List β}
    (h : List.Forall₂ R l l') {b : β} (hb : b ∈ l') : ∃ a ∈ l, R a b := by
  induction h with
  | nil => cases hb
  | @cons a b' rest rest' hab _ ih =>
    rcases mem_cons.mp hb with rfl | hb
    · exact ⟨a, mem_cons_self, hab⟩
    · rcases ih hb with ⟨a', ha', hab'⟩
      exact ⟨a', mem_cons_of_mem _ ha', hab'⟩

theorem exists_ne_of_two_le {l : List α} (hnodup : l.Nodup) (h : 2 ≤ l.length) :
    ∃ a ∈ l, ∃ b ∈ l, a ≠ b := by
  match l, hnodup, h with
  | a :: b :: rest, hnodup, _ =>
    refine ⟨a, mem_cons_self, b, mem_cons_of_mem _ mem_cons_self, ?_⟩
    rintro rfl
    exact (nodup_cons.mp hnodup).1 mem_cons_self

end Regalia
