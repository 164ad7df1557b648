import Mathlib.Data.Option.Basic
import Mathlib.Logic.Function.Basic

/-!
# Stores behind addresses

A map from keys to values, kept in a store whose places are found by an address.  The address may
be missing, and a place may hold anything that stands for the value of its key: `Represents` says
that the store shows the map at every key with an address.  Writing one key on both sides keeps
this as long as different keys have different addresses (`Represents.write`), so that a run of such
writes is a run of the map (`Runs.simulates`).

The store is what another party keeps, the map is what the user of it means.  The two are not in
bijection: a key may have no address, a place of the store may belong to no key, and what lies at a
place is only related to the value, since it may be sealed with a key drawn at random.  So the
store is compared with the map by a relation on single places, and a run of one with a run of the
other by a simulation.

The labels of a run are what the user did.  That a step of the store exists is not part of the
relation; the development that uses it says which requests have which effect, and shows for its own
sample that runs exist.
-/

namespace KeyedStore

variable {K A C V : Type*}

/-- Different keys have different addresses. -/
def Distinct (addr : K → Option A) : Prop :=
  ∀ k l a, addr k = some a → addr l = some a → k = l

/-- **The store shows the map**: at the address of every key there is what stands for its value, and
nothing if it has none. -/
def Represents (rel : K → C → V → Prop) (addr : K → Option A) (abs : K → Option V)
    (store : A → Option C) : Prop :=
  ∀ k a, addr k = some a → Option.Rel (rel k) (store a) (abs k)

variable {rel : K → C → V → Prop} {addr : K → Option A} {abs : K → Option V} {store : A → Option C}

lemma represents_empty : Represents rel addr (fun _ => none) fun _ => none :=
  fun _ _ _ => Option.Rel.none

lemma Represents.some (h : Represents rel addr abs store) {k : K} {a : A} (ha : addr k = .some a)
    {v : V} (hv : abs k = .some v) : ∃ c, store a = .some c ∧ rel k c v := by
  have hrel := h k a ha
  rw [hv] at hrel
  cases hc : store a with
  | none =>
      rw [hc] at hrel
      cases hrel
  | some c =>
      rw [hc] at hrel
      cases hrel with
      | some hcv => exact ⟨c, rfl, hcv⟩

lemma Represents.none (h : Represents rel addr abs store) {k : K} {a : A} (ha : addr k = .some a)
    (hv : abs k = .none) : store a = .none := by
  have hrel := h k a ha
  rw [hv] at hrel
  cases hc : store a with
  | none => rfl
  | some c =>
      rw [hc] at hrel
      cases hrel

/-- What is in the store stands for a value. -/
lemma Represents.value (h : Represents rel addr abs store) {k : K} {a : A} (ha : addr k = .some a)
    {c : C} (hc : store a = .some c) : ∃ v, abs k = .some v ∧ rel k c v := by
  have hrel := h k a ha
  rw [hc] at hrel
  cases hv : abs k with
  | none =>
      rw [hv] at hrel
      cases hrel
  | some v =>
      rw [hv] at hrel
      cases hrel with
      | some hcv => exact ⟨v, rfl, hcv⟩

/-- **Writing one key.** -/
lemma Represents.write [DecidableEq K] [DecidableEq A] (h : Represents rel addr abs store)
    (hd : Distinct addr) {k : K} {a : A} (ha : addr k = .some a) {c : Option C} {v : Option V}
    (hcv : Option.Rel (rel k) c v) :
    Represents rel addr (Function.update abs k v) (Function.update store a c) := by
  intro l b hb
  by_cases hl : l = k
  · subst hl
    obtain rfl : a = b := Option.some.inj (ha.symm.trans hb)
    rw [Function.update_self, Function.update_self]
    exact hcv
  · have hab : b ≠ a := by
      rintro rfl
      exact hl (hd l k b hb ha)
    rw [Function.update_of_ne hl, Function.update_of_ne hab]
    exact h l b hb

end KeyedStore

/-! ## Runs of labelled steps

A run is built at its end, one step behind the others, so that a statement about all runs is proved
by looking at the last step.
-/

/-- Steps one after the other, each under its label. -/
inductive Runs {σ ι : Type*} (step : σ → ι → σ → Prop) : σ → List ι → σ → Prop
  | nil (s : σ) : Runs step s [] s
  | snoc {s s' s'' : σ} {labels : List ι} {label : ι} (run : Runs step s labels s')
      (last : step s' label s'') : Runs step s (labels ++ [label]) s''

/-- **Simulation.**  A relation that every step keeps, with what its label does on the other side,
holds after every run. -/
theorem Runs.simulates {σ τ ι : Type*} {step : σ → ι → σ → Prop} {R : σ → τ → Prop}
    {f : τ → ι → τ} (hstep : ∀ s t label s', R s t → step s label s' → R s' (f t label)) {s s' : σ}
    {t : τ} {labels : List ι} (h : R s t) (hrun : Runs step s labels s') :
    R s' (labels.foldl f t) := by
  induction hrun with
  | nil => exact h
  | snoc run last ih =>
      rw [List.foldl_append]
      exact hstep _ _ _ _ ih last
