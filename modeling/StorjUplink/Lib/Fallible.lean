import Mathlib.Tactic.Common

/-!
# Fallible computations

A function that may fail returns `Except ε α`.  A successful sequence of such calls is taken apart
one call at a time by `bind_eq_ok`, and put together by `ok_bind`.

The early returns of a program (`?`) are binds here.  A theorem about a call that succeeded starts
by taking its `do` block apart: `bind_eq_ok` gives the result of the first call and says that the
rest succeeded with it.  A theorem that a call succeeds goes the other way, and rewrites with
`ok_bind` from the first call to the last.

Loops over lists that may fail are `mapM` and `foldlM`.  Of a `mapM` it is enough to know which
call belongs to which result, so there is one lemma in each direction and one for the list as a
whole; of a `foldlM` one needs an invariant, which `foldlM_induction` carries to the end of a loop
that came through.
-/

namespace Fallible

universe u v

variable {ε : Type u} {α β : Type v}

@[simp] lemma ok_bind (a : α) (f : α → Except ε β) : (Except.ok a >>= f) = f a := rfl

@[simp] lemma error_bind (e : ε) (f : α → Except ε β) : (Except.error e >>= f) = .error e := rfl

@[simp] lemma pure_eq_ok (a : α) : (pure a : Except ε α) = .ok a := rfl

/-- **Inversion.**  A sequence succeeds when both halves do. -/
lemma bind_eq_ok {x : Except ε α} {f : α → Except ε β} {b : β} :
    x >>= f = .ok b ↔ ∃ a, x = .ok a ∧ f a = .ok b := by
  cases x with
  | error e => simp
  | ok a => simp

/-- **Invariants of a loop that may fail.** -/
lemma foldlM_induction {f : β → α → Except ε β} {P : β → Prop} {l : List α} {b c : β}
    (hstep : ∀ a ∈ l, ∀ b c, P b → f b a = .ok c → P c) (hb : P b) (h : l.foldlM f b = .ok c) :
    P c := by
  induction l generalizing b with
  | nil =>
      cases h
      exact hb
  | cons a l ih =>
      rw [List.foldlM_cons, bind_eq_ok] at h
      obtain ⟨b', hb', h⟩ := h
      exact ih (fun a ha => hstep a (List.mem_cons_of_mem _ ha))
        (hstep a List.mem_cons_self b b' hb hb') h

/-- A traversal in which every call succeeds. -/
lemma mapM_eq_ok {f : α → Except ε β} {g : α → β} {l : List α} (h : ∀ a ∈ l, f a = .ok (g a)) :
    l.mapM f = .ok (l.map g) := by
  induction l with
  | nil => rfl
  | cons a l ih =>
      rw [List.mapM_cons, h a List.mem_cons_self, ok_bind,
        ih fun a ha => h a (List.mem_cons_of_mem _ ha), ok_bind, List.map_cons, pure_eq_ok]

/-- A traversal succeeds if every call does. -/
lemma exists_mapM {f : α → Except ε β} {l : List α} (h : ∀ a ∈ l, ∃ b, f a = .ok b) :
    ∃ m, l.mapM f = .ok m := by
  induction l with
  | nil => exact ⟨[], rfl⟩
  | cons a l ih =>
      obtain ⟨b, hb⟩ := h a List.mem_cons_self
      obtain ⟨m, hm⟩ := ih fun a ha => h a (List.mem_cons_of_mem _ ha)
      exact ⟨b :: m, by rw [List.mapM_cons, hb, ok_bind, hm, ok_bind, pure_eq_ok]⟩

/-- A successful traversal has the result of every call. -/
lemma mem_of_mapM {f : α → Except ε β} {l : List α} {m : List β} {a : α} {b : β}
    (h : l.mapM f = .ok m) (ha : a ∈ l) (hb : f a = .ok b) : b ∈ m := by
  induction l generalizing m with
  | nil => cases ha
  | cons c l ih =>
      rw [List.mapM_cons, bind_eq_ok] at h
      obtain ⟨d, hd, h⟩ := h
      obtain ⟨m', hm', h⟩ := bind_eq_ok.mp h
      cases h
      rcases List.mem_cons.mp ha with rfl | ha
      · rw [hd] at hb
        cases hb
        exact List.mem_cons_self
      · exact List.mem_cons_of_mem _ (ih hm' ha)

/-- In a successful traversal every call succeeds. -/
lemma isOk_of_mapM {f : α → Except ε β} {l : List α} {m : List β} {a : α}
    (h : l.mapM f = .ok m) (ha : a ∈ l) : ∃ b, f a = .ok b := by
  induction l generalizing m with
  | nil => cases ha
  | cons c l ih =>
      rw [List.mapM_cons, bind_eq_ok] at h
      obtain ⟨d, hd, h⟩ := h
      obtain ⟨m', hm', _⟩ := bind_eq_ok.mp h
      rcases List.mem_cons.mp ha with rfl | ha
      · exact ⟨d, hd⟩
      · exact ih hm' ha

/-- Every result of a successful traversal is the result of a call. -/
lemma exists_of_mem_mapM {f : α → Except ε β} {l : List α} {m : List β} {b : β}
    (h : l.mapM f = .ok m) (hb : b ∈ m) : ∃ a ∈ l, f a = .ok b := by
  induction l generalizing m with
  | nil =>
      cases h
      cases hb
  | cons c l ih =>
      rw [List.mapM_cons, bind_eq_ok] at h
      obtain ⟨d, hd, h⟩ := h
      obtain ⟨m', hm', h⟩ := bind_eq_ok.mp h
      cases h
      rcases List.mem_cons.mp hb with rfl | hb
      · exact ⟨c, List.mem_cons_self, hd⟩
      · obtain ⟨a, ha, hab⟩ := ih hm' hb
        exact ⟨a, List.mem_cons_of_mem _ ha, hab⟩

end Fallible
