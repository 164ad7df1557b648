import Mathlib.Data.List.Nodup
import Mathlib.Data.List.Lookmap

/-!
# Maps as lists of pairs

A map is the list of its keys with their values, in the order in which the keys came.  `put` keeps
the place of a key that is there.  Where no key is there twice, membership and `List.lookup` say the
same (`mem_iff_lookup`), and a map is, up to order, any of its entries beside the rest of it
(`perm_erase`).  An iteration over a hash map visits its entries in some order (`IterOrder`).

The maps that are meant are hash maps, so nothing may depend on where an entry stands.  That is why
every result here is either about one key, where `lookup` of what was `put` decides everything
(`lookup_put`), or up to a permutation.  A list was taken over a function because an iteration has
to go through the entries one by one, and over a tree because the order of a hash map is not an
order of its keys.

`IterOrder` is a function of the whole map, so that two walks over the same map in one call see the
same order while two maps with the same entries may be walked differently; the second is what a
program meets that writes a map down and reads it again.
-/

namespace Assoc

variable {α β : Type*} [BEq α] [LawfulBEq α] {k a : α} {v : β} {l : List (α × β)}

/-- The keys of a map. -/
abbrev keys (l : List (α × β)) : List α := l.map Prod.fst

lemma lookup_cons_ne {x : α × β} (h : a ≠ x.1) : (x :: l).lookup a = l.lookup a := by
  rw [List.lookup_cons, beq_eq_false_iff_ne.mpr h]

lemma mem_keys_of_lookup (h : l.lookup k = some v) : k ∈ keys l := by
  obtain ⟨l₁, l₂, hl, _⟩ := List.lookup_eq_some_iff.mp h
  simp [keys, hl]

/-- In a map a key has the value it is listed with. -/
lemma mem_iff_lookup (h : (keys l).Nodup) : (k, v) ∈ l ↔ l.lookup k = some v := by
  induction l with
  | nil => simp
  | cons x l ih =>
      obtain ⟨a, w⟩ := x
      rw [keys, List.map_cons, List.nodup_cons] at h
      rw [List.mem_cons, ih h.2]
      by_cases hk : k = a
      · subst hk
        have hnot : l.lookup k ≠ some v := fun hv => h.1 (mem_keys_of_lookup hv)
        simp [hnot, eq_comm]
      · simp [lookup_cons_ne (x := (a, w)) hk, hk]

variable [DecidableEq α]

/-- Put a value under a key.  The new value stands in the place of the old one if the key is there,
as an insertion into a hash map leaves the slot of a key, and at the end if it is not. -/
def put (k : α) (v : β) : List (α × β) → List (α × β)
  | [] => [(k, v)]
  | (a, w) :: l => if a = k then (k, v) :: l else (a, w) :: put k v l

lemma lookup_put (k a : α) (v : β) (l : List (α × β)) :
    (put k v l).lookup a = if a = k then some v else l.lookup a := by
  induction l with
  | nil => by_cases h : a = k <;> simp [put, h]
  | cons x l ih =>
      rw [put]
      by_cases hx : x.1 = k
      · rw [if_pos hx]
        by_cases h : a = k
        · rw [if_pos h, h, List.lookup_cons_self]
        · rw [if_neg h, lookup_cons_ne h, lookup_cons_ne (by rwa [hx])]
      · rw [if_neg hx]
        by_cases h : a = x.1
        · rw [if_neg (h ▸ hx), h, List.lookup_cons_self]
          exact (List.lookup_cons_self).symm
        · rw [lookup_cons_ne h, lookup_cons_ne h, ih]

/-- To put what is there changes nothing. -/
lemma put_self (h : l.lookup k = some v) : put k v l = l := by
  induction l with
  | nil => cases h
  | cons x l ih =>
      obtain ⟨a, w⟩ := x
      rw [put]
      by_cases hx : a = k
      · subst hx
        rw [List.lookup_cons_self, Option.some.injEq] at h
        rw [if_pos rfl, h]
      · rw [lookup_cons_ne (Ne.symm hx)] at h
        rw [if_neg hx, ih h]

lemma keys_put (k : α) (v : β) (l : List (α × β)) :
    keys (put k v l) = if k ∈ keys l then keys l else keys l ++ [k] := by
  induction l with
  | nil => simp [put, keys]
  | cons x l ih =>
      rw [put]
      by_cases hx : x.1 = k
      · simp [keys, hx]
      · rw [if_neg hx, keys, List.map_cons, ← keys, ih]
        by_cases hk : k ∈ keys l
        · simp [keys, hk]
        · simp [keys, hk, Ne.symm hx]

lemma nodup_put (h : (keys l).Nodup) : (keys (put k v l)).Nodup := by
  rw [keys_put]
  split_ifs with hk
  · exact h
  · exact List.nodup_append.mpr ⟨h, List.nodup_singleton k, by
      intro a ha b hb hab
      rw [List.mem_singleton.mp hb] at hab
      exact hk (hab ▸ ha)⟩

/-- Take a key out. -/
def erase (k : α) (l : List (α × β)) : List (α × β) := l.filter fun x => x.1 ≠ k

omit [BEq α] [LawfulBEq α] in
lemma erase_of_not_mem (h : k ∉ keys l) : erase k l = l := by
  refine List.filter_eq_self.mpr fun x hx => ?_
  have hne : x.1 ≠ k := fun hk => h (hk ▸ List.mem_map_of_mem hx)
  simpa using hne

omit [BEq α] [LawfulBEq α] in
lemma erase_cons_self (x : β) (h : k ∉ keys l) : erase k ((k, x) :: l) = l := by
  rw [erase, List.filter_cons_of_neg (by simp), ← erase, erase_of_not_mem h]

omit [BEq α] [LawfulBEq α] in
lemma erase_cons_ne {x : α × β} (h : x.1 ≠ k) : erase k (x :: l) = x :: erase k l := by
  rw [erase, List.filter_cons_of_pos (by simpa using h), ← erase]

omit [BEq α] [LawfulBEq α] in
lemma nodup_erase (h : (keys l).Nodup) : (keys (erase k l)).Nodup :=
  (List.filter_sublist.map Prod.fst).nodup h

/-- A map is an entry of it beside the rest. -/
lemma perm_erase (h : (keys l).Nodup) (hk : l.lookup k = some v) :
    l.Perm ((k, v) :: erase k l) := by
  induction l with
  | nil => cases hk
  | cons x l ih =>
      obtain ⟨a, w⟩ := x
      rw [keys, List.map_cons, List.nodup_cons] at h
      by_cases hx : a = k
      · subst hx
        rw [List.lookup_cons_self, Option.some.injEq] at hk
        rw [erase_cons_self w h.1, hk]
      · rw [lookup_cons_ne (Ne.symm hx)] at hk
        rw [erase_cons_ne hx]
        exact ((ih h.2 hk).cons _).trans (List.Perm.swap _ _ _)

omit [BEq α] [LawfulBEq α] in
lemma perm_put (h : (keys l).Nodup) : (put k v l).Perm ((k, v) :: erase k l) := by
  induction l with
  | nil => exact List.Perm.refl _
  | cons x l ih =>
      obtain ⟨a, w⟩ := x
      rw [keys, List.map_cons, List.nodup_cons] at h
      rw [put]
      by_cases hx : a = k
      · subst hx
        rw [if_pos rfl, erase_cons_self w h.1]
      · rw [if_neg hx, erase_cons_ne hx]
        exact ((ih h.2).cons _).trans (List.Perm.swap _ _ _)

/-- The order in which an iteration over a hash map visits it: any order of what is there, fixed for
each map and otherwise unknown.  Whatever is proved for all orders holds of the code under every
hasher. -/
structure IterOrder (α : Type*) where
  visit : List α → List α
  perm : ∀ l, (visit l).Perm l

end Assoc
