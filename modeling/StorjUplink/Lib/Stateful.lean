import Mathlib.Tactic.Common

/-!
# Computations that may stop and keep their state

A `Stateful` computation changes a state and returns a value or stops; where it stops, the changes
up to there stay.  `Keeps R m` says that the state after `m` is related to the state before it,
however `m` ends.  For a reflexive and transitive `R` it passes through sequences.

This is the shape of a function with `&mut self` that returns a `Result`.  Where it returns early,
the fields that it has changed stay changed, so an error says nothing about the state; what it does
not touch has to be shown on every way out.  `Keeps` is that statement, and its rule for a sequence
needs neither a case split nor the value of the first half.
-/

/-- A computation on a state that may stop. -/
def Stateful (σ ε α : Type) := σ → Except ε α × σ

namespace Stateful

variable {σ ε α β : Type}

instance : Monad (Stateful σ ε) where
  pure a s := (.ok a, s)
  bind m f s :=
    match m s with
    | (.ok a, t) => f a t
    | (.error e, t) => (.error e, t)

/-- The state. -/
def get : Stateful σ ε σ := fun s => (.ok s, s)

/-- Change the state. -/
def modify (f : σ → σ) : Stateful σ ε Unit := fun s => (.ok (), f s)

/-- Stop. -/
def fail (e : ε) : Stateful σ ε α := fun s => (.error e, s)

@[simp] lemma pure_apply (a : α) (s : σ) : (pure a : Stateful σ ε α) s = (.ok a, s) := rfl

@[simp] lemma modify_apply (f : σ → σ) (s : σ) :
    (modify f : Stateful σ ε Unit) s = (.ok (), f s) := rfl

lemma bind_of_ok {m : Stateful σ ε α} {f : α → Stateful σ ε β} {s t : σ} {a : α}
    (h : m s = (.ok a, t)) : (m >>= f) s = f a t := by
  change (match m s with | (.ok a, t) => f a t | (.error e, t) => (.error e, t)) = f a t
  rw [h]

lemma bind_of_error {m : Stateful σ ε α} {f : α → Stateful σ ε β} {s t : σ} {e : ε}
    (h : m s = (.error e, t)) : (m >>= f) s = (.error e, t) := by
  change (match m s with | (.ok a, t) => f a t | (.error e, t) => (.error e, t)) = (.error e, t)
  rw [h]

@[simp] lemma get_bind (f : σ → Stateful σ ε β) (s : σ) : (get >>= f) s = f s s := rfl

/-- Whatever the outcome, the state after is related to the state before. -/
def Keeps (R : σ → σ → Prop) (m : Stateful σ ε α) : Prop := ∀ s, R s (m s).2

section Keeps

variable {R : σ → σ → Prop}

lemma Keeps.pure (hrefl : ∀ s, R s s) (a : α) : Keeps R (Pure.pure a : Stateful σ ε α) := hrefl

lemma Keeps.get (hrefl : ∀ s, R s s) : Keeps R (Stateful.get : Stateful σ ε σ) := hrefl

lemma Keeps.fail (hrefl : ∀ s, R s s) (e : ε) : Keeps R (Stateful.fail e : Stateful σ ε α) := hrefl

/-- **Sequence.** -/
lemma Keeps.bind (htrans : ∀ s t u, R s t → R t u → R s u) {m : Stateful σ ε α}
    {f : α → Stateful σ ε β} (hm : Keeps R m) (hf : ∀ a, Keeps R (f a)) : Keeps R (m >>= f) := by
  intro s
  rcases h : m s with ⟨r, t⟩
  have hst : R s t := by simpa [h] using hm s
  cases r with
  | ok a =>
      rw [bind_of_ok h]
      exact htrans s t _ hst (hf a t)
  | error e =>
      rw [bind_of_error h]
      exact hst

end Keeps

end Stateful
