import Mathlib.Tactic.Common

/-!
# Machines that may stop

A machine takes one step for each input and may stop for good in the middle of a step, which
`none` says.  What every step preserves holds after every run that did not stop.

A step returns `none` where the program it models would panic, where a call that nobody answers
would wait for ever, or where an input cannot come at that point.  A run is a list of inputs, and
every statement about "every run" quantifies over all such lists, so the environment may choose any
interleaving.  The inputs carry what the program does not decide itself: the bytes that arrive, the
outcome of a call, the order of a map.
-/

namespace Machine

variable {σ α : Type*}

/-- The state after a list of inputs, if the machine got that far. -/
def run (f : σ → α → Option σ) : σ → List α → Option σ
  | s, [] => some s
  | s, a :: l => (f s a).bind fun t => run f t l

lemma run_cons (f : σ → α → Option σ) (s : σ) (a : α) (l : List α) :
    run f s (a :: l) = (f s a).bind fun t => run f t l := rfl

/-- **Invariance.**  A property of the start that every step preserves holds at the end. -/
theorem run_induction {f : σ → α → Option σ} {P : σ → Prop}
    (hf : ∀ s a t, P s → f s a = some t → P t) {s t : σ} {l : List α} (h0 : P s)
    (h : run f s l = some t) : P t := by
  induction l generalizing s with
  | nil =>
      cases h
      exact h0
  | cons a l ih =>
      rw [run_cons, Option.bind_eq_some_iff] at h
      obtain ⟨u, hu, h⟩ := h
      exact ih (hf s a u h0 hu) h

end Machine
