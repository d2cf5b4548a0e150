import Mathlib.Data.List.Basic

/-!
# Runs

A system takes one step for each event of a list, and its state after the
list is a fold. A run may be asked to meet a condition at every step, a
condition on the event and on the state the event finds: what is then
preserved by the steps that meet it holds wherever the run ends.

## Main definitions

* `Throughout`: Every step of a run meets a condition.

## Theorems

* `Throughout.invariant`: What the steps of a run preserve, the run preserves.
* `Throughout.append`, `Throughout.split`: One run after another.
* `run_invariant`: The same for a run without a condition.
* `throughout_forall`: Many conditions at every step.
* `forall_mem_snoc`, `pairwise_snoc`: A log that grows by an entry.
-/

namespace Regalia

variable {σ α : Type*} {ok : σ → α → Prop} {step : σ → α → σ}

/-- Every event meets a condition in the state it finds. -/
def Throughout (ok : σ → α → Prop) (step : σ → α → σ) : σ → List α → Prop
  | _, [] => True
  | s, a :: rest => ok s a ∧ Throughout ok step (step s a) rest

variable {s : σ} {events : List α}

theorem Throughout.invariant {P : σ → Prop} (hstep : ∀ s a, P s → ok s a → P (step s a)) (hs : P s)
    (h : Throughout ok step s events) : P (events.foldl step s) := by
  induction events generalizing s with
  | nil => exact hs
  | cons a rest ih => exact ih (hstep s a hs h.1) h.2

theorem Throughout.append {l m : List α}
    (hl : Throughout ok step s l) (hm : Throughout ok step (l.foldl step s) m) :
    Throughout ok step s (l ++ m) := by
  induction l generalizing s with
  | nil => exact hm
  | cons a rest ih => exact ⟨hl.1, ih hl.2 hm⟩

theorem Throughout.split {l m : List α} (h : Throughout ok step s (l ++ m)) :
    Throughout ok step s l ∧ Throughout ok step (l.foldl step s) m := by
  induction l generalizing s with
  | nil => exact ⟨trivial, h⟩
  | cons a rest ih =>
    rcases ih h.2 with ⟨hl, hm⟩
    exact ⟨⟨h.1, hl⟩, hm⟩

/-- The events of a run are among its events. -/
theorem Throughout.mem {all : List α}
    (hall : ∀ a ∈ events, a ∈ all) (h : Throughout ok step s events) :
    Throughout (fun s a => ok s a ∧ a ∈ all) step s events := by
  induction events generalizing s with
  | nil => trivial
  | cons a rest ih =>
    exact ⟨⟨h.1, hall a List.mem_cons_self⟩,
      ih (fun b hb => hall b (List.mem_cons_of_mem a hb)) h.2⟩

theorem run_invariant {P : σ → Prop} (hstep : ∀ s a, P s → P (step s a)) (events : List α) (hs : P s) : P (events.foldl step s) := by
  induction events generalizing s with
  | nil => exact hs
  | cons a rest ih => exact ih (hstep s a hs)

/-- A condition for each of many at every step is one condition at every step. -/
theorem throughout_forall {ι : Type*} {ok : ι → σ → α → Prop} :
    (∀ i, Throughout (ok i) step s events) ↔
      Throughout (fun s a => ∀ i, ok i s a) step s events := by
  induction events generalizing s with
  | nil => exact ⟨fun _ => trivial, fun _ _ => trivial⟩
  | cons a rest ih =>
    constructor
    · intro h
      exact ⟨fun i => (h i).1, ih.mp (fun i => (h i).2)⟩
    · intro h i
      exact ⟨h.1 i, ih.mpr h.2 i⟩

theorem throughout_congr {ok' : σ → α → Prop} (h : ∀ s a, ok s a ↔ ok' s a) :
    Throughout ok step s events ↔ Throughout ok' step s events := by
  have hsame : ok = ok' := funext (fun s => funext (fun a => propext (h s a)))
  rw [hsame]

/-! ### Logs -/

variable {log : List α} {a : α}

theorem forall_mem_snoc {P : α → Prop} (h : ∀ x ∈ log, P x) (ha : P a) : ∀ x ∈ log ++ [a], P x :=
  List.forall_mem_append.mpr ⟨h, List.forall_mem_singleton.mpr ha⟩

theorem pairwise_snoc {R : α → α → Prop} (h : log.Pairwise R) (ha : ∀ x ∈ log, R x a) :
    (log ++ [a]).Pairwise R :=
  List.pairwise_append.mpr ⟨h, List.pairwise_singleton R a,
    fun x hx _ hy => List.mem_singleton.mp hy ▸ ha x hx⟩

instance decideThroughout [∀ s a, Decidable (ok s a)] :
    ∀ (s : σ) (events : List α), Decidable (Throughout ok step s events)
  | _, [] => isTrue trivial
  | s, a :: rest => @instDecidableAnd _ _ inferInstance (decideThroughout (step s a) rest)

end Regalia
