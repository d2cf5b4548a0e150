import Mathlib.Data.List.Basic

/-!
# Programs With a Trace

A program that reads a state and changes it by one effect at a time, each of
which is on the disk, or wherever the state is kept, before the next begins. It
returns a value or stops with an error, and the trace of its effects is a
function of the state it starts from.

A power cut can come after any effect. What it leaves is the state after the
effects made so far, a prefix of the trace: the cut is a number, and nothing
has to be said about where in the program it fell.

## Main definitions

* `Acts`, `after`: What an effect, and a list of them, does to a state.
* `Traced`: A program, a monad.
* `Traced.effect`, `Traced.look`: Making one effect, and reading the state.
* `Traced.cut`: What a power cut leaves.
* `Traced.Spec`: A statement about a program's effects and its answer.

## Theorems

* `Traced.bind_ok`, `Traced.bind_error`: A sequence, by what its first part
  returns.
* `Traced.Spec.bind` and the rules after it: What holds of the effects and the
  answer, one statement at a time.
-/

namespace Regalia

/-- States that effects change. -/
class Acts (σ : Type) (ε : outParam Type) where
  act : σ → ε → σ

/-- The state after some effects. -/
def after {σ ε : Type} [Acts σ ε] (s : σ) (effects : List ε) : σ := effects.foldl Acts.act s

section

variable {σ ε : Type} [Acts σ ε] (s : σ)

@[simp] theorem after_cons (e : ε) (effects : List ε) :
    after s (e :: effects) = after (Acts.act s e) effects := rfl

@[simp] theorem after_append (effects later : List ε) :
    after s (effects ++ later) = after (after s effects) later := List.foldl_append

end

/-- A program: from a state, its effects and what it returns. -/
def Traced (σ ε δ α : Type) : Type := σ → List ε × Except δ α

namespace Traced

variable {σ ε δ α β : Type} [Acts σ ε]

def trace (x : Traced σ ε δ α) (s : σ) : List ε := (x s).1

def result (x : Traced σ ε δ α) (s : σ) : Except δ α := (x s).2

/-- The state a program ends in. -/
def final (x : Traced σ ε δ α) (s : σ) : σ := after s (x.trace s)

/-- What is left when the power is cut after some of the effects. -/
def cut (x : Traced σ ε δ α) (n : Nat) (s : σ) : σ := after s ((x.trace s).take n)

/-- One program and then another, from the state the first ends in. -/
def andThen (x : Traced σ ε δ α) (f : α → Traced σ ε δ β) : Traced σ ε δ β := fun s =>
  match x.result s with
  | .ok a => (x.trace s ++ (f a).trace (x.final s), (f a).result (x.final s))
  | .error e => (x.trace s, .error e)

instance : Monad (Traced σ ε δ) where
  pure a := fun _ => ([], .ok a)
  bind := andThen

/-- A check reads nothing and changes nothing. -/
instance : MonadLift (Except δ) (Traced σ ε δ) where
  monadLift c := fun _ => ([], c)

/-- Making one effect. -/
def effect (e : ε) : Traced σ ε δ Unit := fun _ => ([e], .ok ())

/-- The state as it is now. -/
def look : Traced σ ε δ σ := fun s => ([], .ok s)

/-! ### Sequences -/

variable {x : Traced σ ε δ α} {f : α → Traced σ ε δ β} {s : σ}

theorem bind_ok {a : α} (h : x.result s = .ok a) :
    (x >>= f).trace s = x.trace s ++ (f a).trace (x.final s) ∧
      (x >>= f).result s = (f a).result (x.final s) := by
  have hbind : (x >>= f) s = (x.trace s ++ (f a).trace (x.final s), (f a).result (x.final s)) := by
    show andThen x f s = _
    unfold andThen
    rw [h]
  constructor
  · rw [trace, hbind]
  · rw [result, hbind]

theorem bind_error {e : δ} (h : x.result s = .error e) :
    (x >>= f).trace s = x.trace s ∧ (x >>= f).result s = .error e := by
  have hbind : (x >>= f) s = (x.trace s, .error e) := by
    show andThen x f s = _
    unfold andThen
    rw [h]
  constructor
  · rw [trace, hbind]
  · rw [result, hbind]

/-! ### What holds of a run

A statement about the effects and the answer together; each rule takes one
statement of the program off. -/

/-- `Q` holds of the effects a program has from a state and of its answer. -/
def Spec (x : Traced σ ε δ α) (s : σ) (Q : List ε → Except δ α → Prop) : Prop :=
  Q (x.trace s) (x.result s)

theorem Spec.pure {Q : List ε → Except δ α → Prop} {a : α} (h : Q [] (.ok a)) :
    Spec (pure a : Traced σ ε δ α) s Q := h

variable {Q : List ε → Except δ β → Prop}

theorem Spec.bind {R : List ε → Except δ α → Prop}
    (h : Spec x s R) (herror : ∀ effects e, R effects (.error e) → Q effects (.error e))
    (hok : ∀ effects a, R effects (.ok a) →
      Spec (f a) (after s effects) (fun later answer => Q (effects ++ later) answer)) :
    Spec (x >>= f) s Q := by
  unfold Spec at h ⊢
  cases hresult : x.result s with
  | error e =>
    obtain ⟨htrace, hanswer⟩ := bind_error (f := f) hresult
    rw [htrace, hanswer]
    exact herror _ e (hresult ▸ h)
  | ok a =>
    obtain ⟨htrace, hanswer⟩ := bind_ok (f := f) hresult
    rw [htrace, hanswer]
    exact hok _ a (hresult ▸ h)

/-- A sequence whose first part is one. -/
theorem Spec.assoc {γ : Type} {g : β → Traced σ ε δ γ} {Q : List ε → Except δ γ → Prop}
    (h : Spec (x >>= fun a => f a >>= g) s Q) : Spec (x >>= f >>= g) s Q := by
  have hsame : (x >>= f >>= g) s = (x >>= fun a => f a >>= g) s := by
    show andThen (andThen x f) g s = andThen x (fun a => andThen (f a) g) s
    simp only [andThen, result, trace, final]
    cases hx : (x s).2 with
    | error e => rfl
    | ok a => cases hf : (f a (after s (x s).1)).2 <;> simp [hf]
  unfold Spec trace result at h ⊢
  rwa [hsame]

theorem Spec.lift {c : Except δ α}
    (herror : ∀ e, c = .error e → Q [] (.error e)) (hok : ∀ a, c = .ok a → Spec (f a) s Q) :
    Spec ((liftM c : Traced σ ε δ α) >>= f) s Q :=
  Spec.bind (R := fun effects answer => effects = [] ∧ c = answer) ⟨rfl, rfl⟩
    (fun _ e ⟨heffects, hc⟩ => heffects ▸ herror e hc)
    (fun effects a ⟨heffects, hc⟩ => by
      subst heffects
      exact hok a hc)

/-- A check that passes is passed over. -/
theorem Spec.lift_ok {c : Except δ α} {a : α} (hc : c = .ok a)
    (h : Spec (f a) s Q) : Spec ((liftM c : Traced σ ε δ α) >>= f) s Q := by
  subst hc
  exact Spec.lift (fun e he => nomatch he) (fun b hb => Except.ok.inj hb ▸ h)

/-- A first part whose effects are known. -/
theorem Spec.bind_ok {effects : List ε} {a : α}
    (h : Spec x s (fun made answer => made = effects ∧ answer = .ok a))
    (hf : Spec (f a) (after s effects) (fun later answer => Q (effects ++ later) answer)) :
    Spec (x >>= f) s Q := by
  refine Spec.bind h ?_ ?_
  · rintro made e ⟨-, herror⟩
    cases herror
  · rintro made b ⟨rfl, hb⟩
    cases hb
    exact hf

theorem Spec.look {f : σ → Traced σ ε δ β}
    (h : Spec (f s) s Q) : Spec ((Traced.look : Traced σ ε δ σ) >>= f) s Q :=
  Spec.bind (R := fun effects answer => effects = [] ∧ answer = .ok s) ⟨rfl, rfl⟩
    (fun _ e ⟨_, he⟩ => nomatch he)
    (fun effects a ⟨heffects, ha⟩ => by
      cases ha
      subst heffects
      exact h)

theorem Spec.effect {e : ε} {f : Unit → Traced σ ε δ β}
    (h : Spec (f ()) (Acts.act s e) (fun later answer => Q (e :: later) answer)) :
    Spec ((Traced.effect e : Traced σ ε δ Unit) >>= f) s Q :=
  Spec.bind (R := fun effects answer => effects = [e] ∧ answer = .ok ()) ⟨rfl, rfl⟩
    (fun _ e ⟨_, he⟩ => nomatch he)
    (fun effects a ⟨heffects, _⟩ => by
      subst heffects
      exact h)

end Traced

end Regalia
