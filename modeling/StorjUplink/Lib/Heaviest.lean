import Mathlib.Algebra.BigOperators.Group.Finset.Piecewise
import Mathlib.Algebra.Order.BigOperators.Group.Finset
import Mathlib.Data.List.Perm.Subperm

/-!
# The heaviest groups

A list of items, some of them with a label, falls into groups.  `IsTop f E n X` says that `X` are
`n` of the labels `E` that weigh most, or all of `E` if there are fewer; ties may be broken either
way.  Taking the heaviest `n` groups out of a list leaves as few items as taking any `n` groups out
(`IsTop.le_removed`), which does not depend on the ties and grows with the list (`removed_mono`).
Taking groups out twice is taking them out once (`IsTop.union`).

The setting is a set of items spread over groups of different sizes, some of which may fail
together: machines by region or by owner, of which a number of whole groups is lost.  The question
is how many items are left in the worst case.  A program answers it greedily, by taking the
heaviest groups out one after the other, and `IsTop.le_removed` says that this is right.

Two things make the answer delicate and are settled here once.  Ties leave the set of groups open,
but not the number of items that are left (`IsTop.length_removed_eq`).  And the labels of items may
be missing: an item without a label belongs to no group and is always left, so `removed` never
counts it.
-/

namespace Heaviest

variable {α V : Type*} [DecidableEq V] {f : V → ℕ} {E X Y Z : Finset V} {n m : ℕ}

/-! ## Weights

The weights are any function to the naturals; nothing here knows about items.  The selection is the
loop that keeps the `n` heaviest labels seen so far and lets a heavier one take the place of the
lightest.
-/

/-- `X` are `n` of the heaviest in `E`, or all of them. -/
structure IsTop (f : V → ℕ) (E : Finset V) (n : ℕ) (X : Finset V) : Prop where
  subset : X ⊆ E
  card_le : X.card ≤ n
  full : X.card = n ∨ X = E
  heavier : ∀ x ∈ X, ∀ y ∈ E, y ∉ X → f y ≤ f x

omit [DecidableEq V] in
lemma isTop_empty : IsTop f ∅ n ∅ :=
  ⟨Finset.Subset.refl _, by simp, Or.inr rfl, by simp⟩

/-- While there is room the next label goes in. -/
lemma IsTop.insert_of_lt (h : IsTop f E n X) (hn : X.card < n) (v : V) :
    IsTop f (insert v E) n (insert v X) := by
  have hX : X = E := h.full.resolve_left hn.ne
  subst hX
  exact ⟨Finset.Subset.refl _, (Finset.card_insert_le v X).trans hn, Or.inr rfl,
    fun _ _ y hy hnot => absurd hy hnot⟩

/-- A label that is not heavier than the lightest one stays out. -/
lemma IsTop.insert_of_le (h : IsTop f E n X) (hn : X.card = n) {v : V}
    (hv : ∀ x ∈ X, f v ≤ f x) : IsTop f (insert v E) n X := by
  refine ⟨h.subset.trans (Finset.subset_insert v E), h.card_le, Or.inl hn, fun x hx y hy hnot => ?_⟩
  rcases Finset.mem_insert.mp hy with rfl | hy
  · exact hv x hx
  · exact h.heavier x hx y hy hnot

/-- A heavier label takes the place of the lightest one. -/
lemma IsTop.replace (h : IsTop f E n X) (hn : X.card = n) {v old : V} (hv : v ∉ E)
    (hold : old ∈ X) (hmin : ∀ x ∈ X, f old ≤ f x) (hlt : f old < f v) :
    IsTop f (insert v E) n (insert v (X.erase old)) := by
  have hvX : v ∉ X.erase old := fun hmem => hv (h.subset (Finset.mem_of_mem_erase hmem))
  have hcard : (insert v (X.erase old)).card = n := by
    rw [Finset.card_insert_of_notMem hvX, Finset.card_erase_of_mem hold, hn]
    have := Finset.card_pos.mpr ⟨old, hold⟩
    omega
  refine ⟨Finset.insert_subset_insert v ((Finset.erase_subset old X).trans h.subset), hcard.le,
    Or.inl hcard, fun x hx y hy hnot => ?_⟩
  -- what stays out is no heavier than the one that went out
  have hyold : f y ≤ f old := by
    rw [Finset.mem_insert, not_or, Finset.mem_erase, not_and_or, not_not] at hnot
    rcases hnot.2 with rfl | hyX
    · exact le_refl _
    · exact h.heavier old hold y ((Finset.mem_insert.mp hy).resolve_left hnot.1) hyX
  rcases Finset.mem_insert.mp hx with rfl | hx
  · exact hyold.trans hlt.le
  · exact hyold.trans (hmin x (Finset.mem_of_mem_erase hx))

/-- **Exchange.**  No `n` labels weigh more. -/
lemma IsTop.sum_le (h : IsTop f E n X) (hZ : Z ⊆ E) (hcard : Z.card ≤ n) :
    Z.sum f ≤ X.sum f := by
  rcases h.full with hn | rfl
  · -- what `Z` has beyond `X` weighs at most `c` each, what `X` has beyond `Z` at least `c`
    let c := (Z \ X).sup f
    have hlow : ∀ x ∈ X \ Z, c ≤ f x := by
      intro x hx
      refine Finset.sup_le fun y hy => ?_
      rw [Finset.mem_sdiff] at hx hy
      exact h.heavier x hx.1 y (hZ hy.1) hy.2
    have hdiff : (Z \ X).card ≤ (X \ Z).card := by
      have h1 := Finset.card_sdiff_add_card_inter Z X
      have h2 := Finset.card_sdiff_add_card_inter X Z
      rw [Finset.inter_comm] at h2
      omega
    have hout : (Z \ X).sum f ≤ (X \ Z).sum f :=
      calc (Z \ X).sum f ≤ (Z \ X).card • c :=
            Finset.sum_le_card_nsmul _ _ _ fun y hy => Finset.le_sup hy
        _ ≤ (X \ Z).card • c := Nat.mul_le_mul_right c hdiff
        _ ≤ (X \ Z).sum f := Finset.card_nsmul_le_sum _ _ _ hlow
    calc Z.sum f = (Z ∩ X).sum f + (Z \ X).sum f := (Finset.sum_inter_add_sum_sdiff Z X f).symm
      _ ≤ (X ∩ Z).sum f + (X \ Z).sum f := by
          rw [Finset.inter_comm]
          exact Nat.add_le_add_left hout _
      _ = X.sum f := Finset.sum_inter_add_sum_sdiff X Z f
  · exact Finset.sum_le_sum_of_subset hZ

/-! ## Items

Now the weight of a label is the number of items that have it.  What is left after a removal is a
list again, and its weights are the old ones off the labels that went.
-/

variable {label : α → V} {elig : V → Prop} [DecidablePred elig] {S S' : List α}

/-- The items whose group is not taken out. -/
def removed (label : α → V) (X : Finset V) (S : List α) : List α :=
  S.filter fun t => label t ∉ X

/-- How many items have a label. -/
def weight (label : α → V) (S : List α) (v : V) : ℕ := S.countP fun t => label t = v

/-- The labels that are there and may be taken out. -/
def labels (label : α → V) (elig : V → Prop) [DecidablePred elig] (S : List α) : Finset V :=
  (S.map label).toFinset.filter elig

lemma mem_labels {v : V} : v ∈ labels label elig S ↔ v ∈ S.map label ∧ elig v := by
  rw [labels, Finset.mem_filter, List.mem_toFinset]

lemma removed_removed : removed label Y (removed label X S) = removed label (X ∪ Y) S := by
  rw [removed, removed, removed, List.filter_filter]
  refine List.filter_congr fun t _ => ?_
  simp [Finset.mem_union, not_or, Bool.and_comm]

lemma weight_removed (v : V) :
    weight label (removed label X S) v = if v ∈ X then 0 else weight label S v := by
  rw [weight, weight, removed, List.countP_filter]
  split_ifs with hv
  · rw [List.countP_eq_zero]
    rintro t -
    by_cases ht : label t = v
    · simp [ht, hv]
    · simp [ht]
  · refine List.countP_congr fun t _ => ?_
    by_cases ht : label t = v
    · simp [ht, hv]
    · simp [ht]

lemma labels_removed : labels label elig (removed label X S) = labels label elig S \ X := by
  ext v
  rw [Finset.mem_sdiff, mem_labels, mem_labels, List.mem_map, List.mem_map]
  constructor
  · rintro ⟨⟨t, ht, rfl⟩, hv⟩
    rw [removed, List.mem_filter, decide_eq_true_eq] at ht
    exact ⟨⟨⟨t, ht.1, rfl⟩, hv⟩, ht.2⟩
  · rintro ⟨⟨⟨t, ht, rfl⟩, hv⟩, hX⟩
    exact ⟨⟨t, List.mem_filter.mpr ⟨ht, decide_eq_true hX⟩, rfl⟩, hv⟩

/-- What is left and what was taken out are everything. -/
lemma length_removed (label : α → V) (X : Finset V) (S : List α) :
    (removed label X S).length + X.sum (weight label S) = S.length := by
  induction S with
  | nil => simp [removed, weight]
  | cons t S ih =>
      have hweight : ∀ v, weight label (t :: S) v
          = weight label S v + if v = label t then 1 else 0 := by
        intro v
        rw [weight, List.countP_cons, ← weight]
        simp only [decide_eq_true_eq]
        simp only [@eq_comm V v]
      have hsum : X.sum (weight label (t :: S))
          = X.sum (weight label S) + if label t ∈ X then 1 else 0 := by
        rw [Finset.sum_congr rfl fun v _ => hweight v, Finset.sum_add_distrib,
          Finset.sum_ite_eq']
      rw [hsum, List.length_cons, ← ih, removed, removed]
      by_cases ht : label t ∈ X
      · rw [List.filter_cons_of_neg (by simpa using ht), if_pos ht]
        omega
      · rw [List.filter_cons_of_pos (by simpa using ht), if_neg ht, List.length_cons]
        omega

/-- `k` items are left whichever `n` groups are taken out. -/
def Withstands (label : α → V) (elig : V → Prop) (S : List α) (n k : ℕ) : Prop :=
  ∀ Z : Finset V, Z.card ≤ n → (∀ z ∈ Z, elig z) → k ≤ (removed label Z S).length

omit [DecidablePred elig] in
/-- **Monotonicity.**  More items withstand as much. -/
lemma Withstands.mono {k : ℕ} (h : Withstands label elig S n k) (hS : S.Subperm S') :
    Withstands label elig S' n k := by
  intro Z hZ helig
  exact (h Z hZ helig).trans (hS.filter _).length_le

/-- The heaviest groups are the worst to take out. -/
lemma IsTop.le_removed (h : IsTop (weight label S) (labels label elig S) n X)
    (hcard : Z.card ≤ n) (helig : ∀ z ∈ Z, elig z) :
    (removed label X S).length ≤ (removed label Z S).length := by
  have hsum : Z.sum (weight label S) = (Z ∩ labels label elig S).sum (weight label S) := by
    refine (Finset.sum_subset Finset.inter_subset_left fun z hz hnot => ?_).symm
    have hlab : z ∉ labels label elig S := fun hl => hnot (Finset.mem_inter.mpr ⟨hz, hl⟩)
    rw [mem_labels, not_and_or] at hlab
    have hmap : z ∉ S.map label := hlab.resolve_right fun hne => hne (helig z hz)
    rw [weight, List.countP_eq_zero]
    intro t ht
    rw [decide_eq_true_eq]
    exact fun heq => hmap (heq ▸ List.mem_map_of_mem ht)
  have hle := h.sum_le Finset.inter_subset_right
    ((Finset.card_le_card Finset.inter_subset_left).trans hcard)
  have hX := length_removed label X S
  have hZ := length_removed label Z S
  omega

/-- How many items are left says what the list withstands, whatever the ties. -/
lemma IsTop.le_iff {k : ℕ} (h : IsTop (weight label S) (labels label elig S) n X) :
    k ≤ (removed label X S).length ↔ Withstands label elig S n k := by
  constructor
  · intro hk Z hcard helig
    exact hk.trans (h.le_removed hcard helig)
  · intro hk
    exact hk X h.card_le fun x hx => (mem_labels.mp (h.subset hx)).2

/-- Taking groups out of what is left takes them out of the whole. -/
lemma IsTop.union (h : IsTop (weight label S) (labels label elig S) n X)
    (hY : IsTop (weight label (removed label X S)) (labels label elig (removed label X S)) m Y) :
    IsTop (weight label S) (labels label elig S) (n + m) (X ∪ Y) := by
  have hsub : Y ⊆ labels label elig S \ X := by
    rw [← labels_removed]
    exact hY.subset
  have hdisj : Disjoint X Y := by
    rw [Finset.disjoint_right]
    exact fun y hy => (Finset.mem_sdiff.mp (hsub hy)).2
  have hcard : (X ∪ Y).card = X.card + Y.card := Finset.card_union_of_disjoint hdisj
  have hYsub : Y ⊆ labels label elig S := hsub.trans Finset.sdiff_subset
  have hle : (X ∪ Y).card ≤ n + m := hcard ▸ Nat.add_le_add h.card_le hY.card_le
  refine ⟨Finset.union_subset h.subset hYsub, hle, ?_, ?_⟩
  · rcases h.full with hn | hE
    · rcases hY.full with hm | hE
      · exact Or.inl (by rw [hcard, hn, hm])
      · refine Or.inr ?_
        rw [hE, labels_removed, Finset.union_sdiff_of_subset h.subset]
    · refine Or.inr ((Finset.union_subset h.subset hYsub).antisymm ?_)
      exact hE ▸ Finset.subset_union_left
  · intro x hx y hy hnot
    rw [Finset.mem_union, not_or] at hnot
    rcases Finset.mem_union.mp hx with hx | hx
    · exact h.heavier x hx y hy hnot.1
    · have hmem : y ∈ labels label elig (removed label X S) := by
        rw [labels_removed]
        exact Finset.mem_sdiff.mpr ⟨hy, hnot.1⟩
      have hle := hY.heavier x hx y hmem hnot.2
      rwa [weight_removed, weight_removed, if_neg hnot.1,
        if_neg (Finset.mem_sdiff.mp (hsub hx)).2] at hle

omit [DecidableEq V] in
/-- As many labels are taken out as were asked for, or all of them. -/
lemma IsTop.card_eq (h : IsTop f E n X) : X.card = min n E.card := by
  have hle := Finset.card_le_card h.subset
  rcases h.full with hn | rfl
  · omega
  · have hcard := h.card_le
    omega

lemma weight_perm (hS : S.Perm S') (v : V) : weight label S v = weight label S' v :=
  hS.countP_eq _

lemma labels_perm (hS : S.Perm S') : labels label elig S = labels label elig S' := by
  ext v
  rw [mem_labels, mem_labels, (hS.map label).mem_iff]

/-- The heaviest groups do not depend on the order of the items. -/
lemma IsTop.perm (h : IsTop (weight label S) (labels label elig S) n X) (hS : S.Perm S') :
    IsTop (weight label S') (labels label elig S') n X := by
  have hweight : weight label S' = weight label S := funext fun v => (weight_perm hS v).symm
  rw [hweight, ← labels_perm hS]
  exact h

/-- How many items are left depends neither on the ties nor on the order of the items. -/
lemma IsTop.length_removed_eq (h : IsTop (weight label S) (labels label elig S) n X)
    (hY : IsTop (weight label S') (labels label elig S') n Y) (hS : S.Perm S') :
    (removed label X S).length = (removed label Y S').length := by
  have hlength : (removed label X S).length = (removed label X S').length :=
    (hS.filter _).length_eq
  have helig : ∀ {S : List α} {X : Finset V}, IsTop (weight label S) (labels label elig S) n X →
      ∀ x ∈ X, elig x := fun h x hx => (mem_labels.mp (h.subset hx)).2
  rw [hlength]
  exact le_antisymm ((h.perm hS).le_removed hY.card_le (helig hY))
    (hY.le_removed h.card_le (helig h))

/-- Where the labels above a threshold are as many as are taken out, they are what is taken out. -/
lemma IsTop.eq_of_threshold (h : IsTop f E n X) {c : ℕ}
    (hc : (E.filter fun v => c ≤ f v).card = min n E.card) : X = E.filter fun v => c ≤ f v := by
  have hcard : (E.filter fun v => c ≤ f v).card = X.card := by rw [hc, h.card_eq]
  refine Finset.eq_of_subset_of_card_le (fun x hx => ?_) hcard.le
  by_contra hlight
  rw [Finset.mem_filter, not_and] at hlight
  have hx_lt : f x < c := not_le.mp (hlight (h.subset hx))
  -- then a label above the threshold was not taken out
  have hrest : ¬(E.filter fun v => c ≤ f v) ⊆ X.erase x := by
    intro hsub
    have hle := Finset.card_le_card hsub
    have hpos := Finset.card_pos.mpr ⟨x, hx⟩
    rw [Finset.card_erase_of_mem hx] at hle
    omega
  obtain ⟨y, hy, hnot⟩ := Finset.not_subset.mp hrest
  rw [Finset.mem_filter] at hy
  have hyX : y ∉ X := by
    intro hmem
    refine hnot (Finset.mem_erase.mpr ⟨?_, hmem⟩)
    rintro rfl
    omega
  have hheavy := h.heavier x hx y hy.1 hyX
  omega

end Heaviest
