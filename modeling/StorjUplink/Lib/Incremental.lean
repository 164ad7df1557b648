import Mathlib.Data.List.Infix

/-!
# Incremental parsers

An incremental parser looks at the front of a buffer.  It finds a value and says how many items it
took, or says that the buffer ends too early, or fails.  `Reads p w a` is its contract with an
encoder that writes `a` as `w`: behind `w` it does not look, and in front of its end it waits.

Parsers with a contract compose (`Reads.andThen`).  For a whole stream of encoded values, however
it is cut, a buffer that holds a beginning of the stream holds the next value or the parser waits
(`Reads.next`).

The parsers of a stream protocol are called again with more bytes until they find something.  Such
a parser is right if its answer does not depend on how the bytes came: on a whole value it says the
same with or without what follows, and on a proper beginning it neither fails nor invents a value.
`Reads` states both for one value and its encoding, and both are needed: a parser that only gets
complete values right may still take a beginning for an error.

The result that the callers use is about streams.  If every value is written by an encoder whose
contract holds, the reader that drops what the parser took is, after each value, in front of the
next one, and a buffer that ends inside a value leaves it waiting.
-/

namespace Incremental

universe u

variable {β ε α γ : Type u}

/-- A parser: a value with the number of items it takes, `none` to wait for more. -/
abbrev Parser (β ε α : Type u) := List β → Except ε (Option (α × ℕ))

/-- One parser, then another on what is left. -/
def andThen (p : Parser β ε α) (q : α → Parser β ε γ) : Parser β ε γ := fun buf =>
  match p buf with
  | .error e => .error e
  | .ok none => .ok none
  | .ok (some (a, n)) =>
      match q a (buf.drop n) with
      | .error e => .error e
      | .ok none => .ok none
      | .ok (some (c, m)) => .ok (some (c, n + m))

/-- **The contract** of a parser with a value written as `w`. -/
structure Reads (p : Parser β ε α) (w : List β) (a : α) : Prop where
  found : ∀ tail, p (w ++ tail) = .ok (some (a, w.length))
  waits : ∀ u, u <+: w → u ≠ w → p u = .ok none

/-- Values written one after the other. -/
lemma Reads.andThen {p : Parser β ε α} {q : α → Parser β ε γ} {w v : List β} {a : α} {c : γ}
    (hp : Reads p w a) (hq : Reads (q a) v c) : Reads (Incremental.andThen p q) (w ++ v) c where
  found tail := by
    simp only [Incremental.andThen, List.append_assoc, hp.found, List.drop_left, hq.found,
      List.length_append]
  waits u hu hne := by
    by_cases hlen : u.length ≤ w.length
    · have hw : u <+: w := List.prefix_of_prefix_length_le hu (List.prefix_append w v) hlen
      by_cases heq : u = w
      · -- the first value is there, nothing of the second
        subst heq
        have hfound := hp.found []
        rw [List.append_nil] at hfound
        have hv : v ≠ [] := by
          rintro rfl
          exact hne (List.append_nil u).symm
        simp only [Incremental.andThen, hfound, List.drop_length,
          hq.waits [] List.nil_prefix hv.symm]
      · simp only [Incremental.andThen, hp.waits u hw heq]
    · obtain ⟨t, rfl⟩ : w <+: u :=
        List.prefix_of_prefix_length_le (List.prefix_append w v) hu (by omega)
      have ht : t <+: v := (List.prefix_append_right_inj w).mp hu
      have htv : t ≠ v := by
        rintro rfl
        exact hne rfl
      simp only [Incremental.andThen, hp.found, List.drop_left, hq.waits t ht htv]

/-- **The next value of a stream.**  A buffer `u` that holds a beginning of encoded values holds the
first of them, or the parser waits and `u` ends inside it. -/
theorem Reads.next {p : Parser β ε α} {f : α → List β} {l : List α}
    (h : ∀ a ∈ l, Reads p (f a) a) (h0 : p [] = .ok none) {u rest : List β}
    (hu : u ++ rest = l.flatMap f) :
    (∃ a t, l = a :: t ∧ p u = .ok (some (a, (f a).length)) ∧ f a <+: u ∧
      u.drop (f a).length ++ rest = t.flatMap f) ∨
    (p u = .ok none ∧ ((l = [] ∧ u = []) ∨ ∃ a t, l = a :: t ∧ u.length < (f a).length)) := by
  cases l with
  | nil =>
      rw [List.flatMap_nil, List.append_eq_nil_iff] at hu
      rw [hu.1]
      exact Or.inr ⟨h0, Or.inl ⟨rfl, rfl⟩⟩
  | cons a t =>
      have ha := h a List.mem_cons_self
      rw [List.flatMap_cons] at hu
      by_cases hlen : (f a).length ≤ u.length
      · -- the first value has arrived whole
        have hpre : f a <+: u :=
          List.prefix_of_prefix_length_le ⟨t.flatMap f, rfl⟩ ⟨rest, hu⟩ hlen
        obtain ⟨s, rfl⟩ := hpre
        refine Or.inl ⟨a, t, rfl, ha.found s, ⟨s, rfl⟩, ?_⟩
        rw [List.drop_left]
        rw [List.append_assoc] at hu
        exact List.append_cancel_left hu
      · have hpre : u <+: f a :=
          List.prefix_of_prefix_length_le ⟨rest, hu⟩ ⟨t.flatMap f, rfl⟩ (by omega)
        refine Or.inr ⟨ha.waits u hpre ?_, Or.inr ⟨a, t, rfl, by omega⟩⟩
        rintro rfl
        omega

end Incremental
