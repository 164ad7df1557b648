import Mathlib.Data.List.MinMax
import StorjUplink.Lib.Assoc
import StorjUplink.Lib.Heaviest
import StorjUplink.Lib.MachineInt

/-!
# Cohort requirements

The satellite may ask more of the pieces of a segment than their number: a tree of
`CohortRequirements` over the placement tags of the pieces, which `cohort_valid` of `segment.rs`
evaluates.  A `Withhold` node drops the pieces whose tag value is among the most frequent ones and
asks its child about the rest.

`withhold_tags` counts the values in a hash map and keeps the most frequent ones in another, so that
where two values are equally frequent the hash order decides which goes.  Every evaluation makes new
maps with an order of their own: `Orders` gives each node of the tree the orders of its maps, and
nothing is assumed of them.

Whatever the orders, what is left after a `Withhold` is what is left without the heaviest groups
(`withholdTags_spec`).  Where the nodes that withhold one inside the other all look at one tag key
(`unmixed`), the answer does not depend on the orders and more pieces never turn it to false
(`cohortValid_mono`).
-/

namespace Storj.Segment

open MachineInt Heaviest

/-! ## The requirement tree

The message of the satellite as a tree, and its evaluation with a supply of orders.  The recursion
is over a list of children at `And`, so there are pairs of functions.
-/

/-- The placement tags of a piece, `HashMap<String, Vec<u8>>`. -/
abbrev Tags := List (String × List UInt8)

/-- `CohortRequirements` with its `Requirement`; a `Withhold` may lack its child, as the message
may. -/
inductive CohortRequirements where
  | unset
  | literal (value : ℤ)
  | and (requirements : List CohortRequirements)
  | withhold (tagKey : String) (amount : ℤ) (child : Option CohortRequirements)

/-- The iteration orders of the two maps of a call of `withhold_tags`. -/
structure TagOrder where
  counts : Assoc.IterOrder (List UInt8 × ℕ)
  topn : Assoc.IterOrder (List UInt8 × ℕ)

/-- The orders of an evaluation, for each node of the tree by the way to it. -/
def Orders := List ℕ → TagOrder

/-- The orders for the child with a number. -/
def Orders.child (orders : Orders) (i : ℕ) : Orders := fun way => orders (i :: way)

/-- `t.get(key).cloned().unwrap_or_default()`. -/
def tagValue (key : String) (t : Tags) : List UInt8 := (t.lookup key).getD []

/-- The first loop of `withhold_tags`: how often each value of the tag occurs, the missing value
included. -/
def countTags (key : String) (tags : List Tags) : List (List UInt8 × ℕ) :=
  tags.foldl (fun counts t =>
    Assoc.put (tagValue key t) ((counts.lookup (tagValue key t)).getD 0 + 1) counts) []

/-- The body of the second loop of `withhold_tags`: one tag value with its count.  The list holds at
most `amount` values, and a larger count displaces the smallest one in it, which of the smallest
ones being a matter of the order of the hash map. -/
def topStep (order : Assoc.IterOrder (List UInt8 × ℕ)) (amount : ℕ)
    (topn : List (List UInt8 × ℕ)) (x : List UInt8 × ℕ) : List (List UInt8 × ℕ) :=
  if x.1.isEmpty then topn
  else if topn.length < amount then Assoc.put x.1 x.2 topn
  else
    match (order.visit topn).argmin Prod.snd with
    | some (old, c) => if x.2 > c then Assoc.put x.1 x.2 (Assoc.erase old topn) else topn
    | none => topn

/-- `withhold_tags`: the pieces without those that carry one of the most frequent values of a tag.
-/
def withholdTags (order : TagOrder) (key : String) (amount : ℤ) (tags : List Tags) : List Tags :=
  if amount ≤ 0 then tags
  else
    let counts := order.counts.visit (countTags key tags)
    let topn := counts.foldl (topStep order.topn amount.toNat) []
    tags.filter fun t => !(Assoc.keys topn).contains (tagValue key t)

mutual

/-- `cohort_valid`: a tree of requirements over the tags of the pieces that are there.  A `Withhold`
evaluates its child on what `withhold_tags` leaves. -/
def cohortValid (orders : Orders) : CohortRequirements → List Tags → Bool
  | .unset, _ => true
  | .literal value, tags => asI32 tags.length ≥ value
  | .and requirements, tags => cohortsValid orders 0 requirements tags
  | .withhold _ _ none, _ => true
  | .withhold tagKey amount (some child), tags =>
      cohortValid (orders.child 0) child (withholdTags (orders []) tagKey amount tags)

/-- The `all` of an `And`, which stops at the first requirement that fails. -/
def cohortsValid (orders : Orders) (i : ℕ) : List CohortRequirements → List Tags → Bool
  | [], _ => true
  | r :: rs, tags => cohortValid (orders.child i) r tags && cohortsValid orders (i + 1) rs tags

end

/-! ## What is withheld

The selection of the source is a loop over the counts that keeps a small map and replaces its
lightest entry.  It ends with the heaviest groups, in the sense of `Heaviest`.
-/

/-- The counts are the sizes of the groups. -/
lemma countTags_spec (key : String) (tags : List Tags) :
    (Assoc.keys (countTags key tags)).Nodup ∧
    ∀ v, (countTags key tags).lookup v
      = if v ∈ tags.map (tagValue key) then some (weight (tagValue key) tags v) else none := by
  induction tags using List.reverseRecOn with
  | nil => simp [countTags, Assoc.keys]
  | append_singleton tags t ih =>
      obtain ⟨hnodup, hlookup⟩ := ih
      have hstep : countTags key (tags ++ [t]) = Assoc.put (tagValue key t)
          (((countTags key tags).lookup (tagValue key t)).getD 0 + 1) (countTags key tags) := by
        rw [countTags, List.foldl_concat, ← countTags]
      have hweight : ∀ v, weight (tagValue key) (tags ++ [t]) v
          = weight (tagValue key) tags v + if tagValue key t = v then 1 else 0 := by
        intro v
        rw [weight, List.countP_append, ← weight, List.countP_singleton]
        simp only [decide_eq_true_eq]
      have hzero : ∀ v, v ∉ tags.map (tagValue key) → weight (tagValue key) tags v = 0 := by
        intro v hv
        rw [weight, List.countP_eq_zero]
        intro u hu
        rw [decide_eq_true_eq]
        exact fun heq => hv (heq ▸ List.mem_map_of_mem hu)
      rw [hstep]
      refine ⟨Assoc.nodup_put hnodup, fun v => ?_⟩
      rw [Assoc.lookup_put, hlookup, hlookup, hweight]
      simp only [List.map_append, List.map_singleton, List.mem_append, List.mem_singleton]
      by_cases hv : v = tagValue key t
      · subst hv
        by_cases hmem : tagValue key t ∈ tags.map (tagValue key)
        · simp [hmem]
        · simp [hmem, hzero _ hmem]
      · simp [hv, Ne.symm hv]

/-- What the second loop keeps: the heaviest of the labels it has seen, with their weights. -/
structure KeepsTop (f : List UInt8 → ℕ) (n : ℕ) (E : Finset (List UInt8))
    (topn : List (List UInt8 × ℕ)) : Prop where
  nodup : (Assoc.keys topn).Nodup
  weights : ∀ x ∈ topn, x.2 = f x.1
  top : IsTop f E n (Assoc.keys topn).toFinset

lemma KeepsTop.card {f : List UInt8 → ℕ} {n : ℕ} {E : Finset (List UInt8)}
    {topn : List (List UInt8 × ℕ)} (h : KeepsTop f n E topn) :
    (Assoc.keys topn).toFinset.card = topn.length := by
  rw [List.toFinset_card_of_nodup h.nodup, List.length_map]

/-- One round of the second loop. -/
lemma KeepsTop.step {f : List UInt8 → ℕ} {n : ℕ} {E : Finset (List UInt8)}
    {topn : List (List UInt8 × ℕ)} (h : KeepsTop f n E topn) (hn : 0 < n)
    (order : Assoc.IterOrder (List UInt8 × ℕ)) {v : List UInt8} (hv : v ∉ E) (hne : v ≠ []) :
    KeepsTop f n (insert v E) (topStep order n topn (v, f v)) := by
  have hcard := h.card
  have hvtop : v ∉ Assoc.keys topn := fun hmem => hv (h.top.subset (List.mem_toFinset.mpr hmem))
  have hempty : v.isEmpty = false := List.isEmpty_eq_false_iff.mpr hne
  rw [topStep, hempty, if_neg (by simp)]
  by_cases hroom : topn.length < n
  · rw [if_pos hroom]
    have hkeys : (Assoc.keys (Assoc.put v (f v) topn)).toFinset
        = insert v (Assoc.keys topn).toFinset := by
      rw [Assoc.keys_put, if_neg hvtop]
      ext u
      simp
    refine ⟨Assoc.nodup_put h.nodup, fun x hx => ?_, ?_⟩
    · have hx := (Assoc.perm_put h.nodup).mem_iff.mp hx
      rw [Assoc.erase_of_not_mem hvtop] at hx
      rcases List.mem_cons.mp hx with rfl | hx
      · rfl
      · exact h.weights x hx
    · rw [hkeys]
      exact h.top.insert_of_lt (hcard ▸ hroom) v
  · rw [if_neg hroom]
    have hfull : (Assoc.keys topn).toFinset.card = n :=
      le_antisymm h.top.card_le (hcard ▸ Nat.le_of_not_lt hroom)
    have hperm := order.perm topn
    cases hmin : (order.visit topn).argmin Prod.snd with
    | none =>
        rw [List.argmin_eq_none] at hmin
        rw [hmin] at hperm
        have hlen : topn.length = 0 := hperm.length_eq.symm
        omega
    | some x =>
        obtain ⟨old, c⟩ := x
        have hold : (old, c) ∈ topn := hperm.mem_iff.mp (List.argmin_mem hmin)
        have hleast : ∀ u ∈ Assoc.keys topn, c ≤ f u := by
          intro u hu
          obtain ⟨y, hy, rfl⟩ := List.mem_map.mp hu
          have hle : (old, c).2 ≤ y.2 :=
            List.le_of_mem_argmin (hperm.mem_iff.mpr hy) hmin
          rw [h.weights y hy] at hle
          exact hle
        have hc : c = f old := h.weights _ hold
        simp only
        by_cases hgt : f v > c
        · rw [if_pos hgt]
          have hvrest : v ∉ Assoc.keys (Assoc.erase old topn) := fun hmem =>
            hvtop ((List.filter_sublist.map Prod.fst).subset hmem)
          have hkeys : (Assoc.keys (Assoc.put v (f v) (Assoc.erase old topn))).toFinset
              = insert v ((Assoc.keys topn).toFinset.erase old) := by
            rw [Assoc.keys_put, if_neg hvrest]
            ext u
            simp only [List.mem_toFinset, List.mem_append, List.mem_singleton, Finset.mem_insert,
              Finset.mem_erase, Assoc.erase, List.mem_map, List.mem_filter, decide_eq_true_eq]
            constructor
            · rintro (⟨x, ⟨hx, hne⟩, rfl⟩ | rfl)
              · exact Or.inr ⟨hne, x, hx, rfl⟩
              · exact Or.inl rfl
            · rintro (rfl | ⟨hne, x, hx, rfl⟩)
              · exact Or.inr rfl
              · exact Or.inl ⟨x, ⟨hx, hne⟩, rfl⟩
          refine ⟨Assoc.nodup_put (Assoc.nodup_erase h.nodup), fun x hx => ?_, ?_⟩
          · have hx := (Assoc.perm_put (Assoc.nodup_erase h.nodup)).mem_iff.mp hx
            rw [Assoc.erase_of_not_mem hvrest] at hx
            rcases List.mem_cons.mp hx with rfl | hx
            · rfl
            · exact h.weights x (List.mem_of_mem_filter hx)
          · rw [hkeys]
            refine h.top.replace hfull hv (List.mem_toFinset.mpr (List.mem_map_of_mem hold)) ?_
              (hc ▸ hgt)
            exact fun u hu => hc ▸ hleast u (List.mem_toFinset.mp hu)
        · rw [if_neg hgt]
          refine ⟨h.nodup, h.weights, h.top.insert_of_le hfull fun u hu => ?_⟩
          exact (Nat.le_of_not_lt hgt).trans (hleast u (List.mem_toFinset.mp hu))

/-- The whole second loop. -/
lemma KeepsTop.run {f : List UInt8 → ℕ} {n : ℕ} {E : Finset (List UInt8)}
    {topn : List (List UInt8 × ℕ)} (h : KeepsTop f n E topn) (hn : 0 < n)
    (order : Assoc.IterOrder (List UInt8 × ℕ)) (counts : List (List UInt8 × ℕ))
    (hnodup : (Assoc.keys counts).Nodup) (hf : ∀ x ∈ counts, x.2 = f x.1)
    (hE : ∀ x ∈ counts, x.1 ∉ E) :
    KeepsTop f n (E ∪ (Assoc.keys counts).toFinset.filter (· ≠ []))
      (counts.foldl (topStep order n) topn) := by
  induction counts generalizing E topn with
  | nil => simpa [Assoc.keys] using h
  | cons x counts ih =>
      obtain ⟨v, c⟩ := x
      rw [Assoc.keys, List.map_cons, List.nodup_cons] at hnodup
      have hc : c = f v := hf _ List.mem_cons_self
      have hf' : ∀ x ∈ counts, x.2 = f x.1 := fun x hx => hf x (List.mem_cons_of_mem _ hx)
      rw [List.foldl_cons, hc]
      by_cases hv : v = []
      · have hskip : topStep order n topn (v, f v) = topn := by simp [topStep, hv]
        have hkeys : (Assoc.keys ((v, f v) :: counts)).toFinset.filter (· ≠ [])
            = (Assoc.keys counts).toFinset.filter (· ≠ []) := by
          ext u
          simp only [List.map_cons, List.toFinset_cons, Finset.mem_filter, Finset.mem_insert, hv]
          constructor
          · rintro ⟨hu, hne⟩
            exact ⟨hu.resolve_left hne, hne⟩
          · rintro ⟨hu, hne⟩
            exact ⟨Or.inr hu, hne⟩
        rw [hskip, hkeys]
        exact ih h hnodup.2 hf' fun x hx => hE x (List.mem_cons_of_mem _ hx)
      · have hset : E ∪ (Assoc.keys ((v, f v) :: counts)).toFinset.filter (· ≠ [])
            = insert v E ∪ (Assoc.keys counts).toFinset.filter (· ≠ []) := by
          ext u
          simp only [List.map_cons, List.toFinset_cons, Finset.mem_union, Finset.mem_filter,
            Finset.mem_insert]
          constructor
          · rintro (hu | ⟨rfl | hu, hne⟩)
            · exact Or.inl (Or.inr hu)
            · exact Or.inl (Or.inl rfl)
            · exact Or.inr ⟨hu, hne⟩
          · rintro ((rfl | hu) | ⟨hu, hne⟩)
            · exact Or.inr ⟨Or.inl rfl, hv⟩
            · exact Or.inl hu
            · exact Or.inr ⟨Or.inr hu, hne⟩
        rw [hset]
        refine ih (h.step hn order (hE _ List.mem_cons_self) hv) hnodup.2 hf' fun x hx hmem => ?_
        rcases Finset.mem_insert.mp hmem with heq | hmem
        · exact hnodup.1 (List.mem_map.mpr ⟨x, hx, heq⟩)
        · exact hE x (List.mem_cons_of_mem _ hx) hmem

/-- **`withhold_tags`.**  It takes out the heaviest groups of pieces that have the tag. -/
lemma withholdTags_spec (order : TagOrder) (key : String) {amount : ℤ} (hpos : 0 < amount)
    (tags : List Tags) :
    ∃ X, IsTop (weight (tagValue key) tags) (labels (tagValue key) (· ≠ []) tags) amount.toNat X ∧
      withholdTags order key amount tags = removed (tagValue key) X tags := by
  obtain ⟨hnodup, hlookup⟩ := countTags_spec key tags
  have hperm := order.counts.perm (countTags key tags)
  have hn : 0 < amount.toNat := by omega
  have hstart : KeepsTop (weight (tagValue key) tags) amount.toNat ∅ [] :=
    ⟨List.nodup_nil, by simp, isTop_empty⟩
  have hentry : ∀ x, x ∈ countTags key tags ↔
      x.1 ∈ tags.map (tagValue key) ∧ x.2 = weight (tagValue key) tags x.1 := by
    rintro ⟨v, c⟩
    rw [Assoc.mem_iff_lookup hnodup, hlookup]
    split_ifs with hv
    · simp [hv, eq_comm]
    · simp [hv]
  have hrun := hstart.run hn order.topn (order.counts.visit (countTags key tags))
    ((hperm.map Prod.fst).nodup_iff.mpr hnodup)
    (fun x hx => ((hentry x).mp (hperm.mem_iff.mp hx)).2) (by simp)
  have hlabels : ∅ ∪ (Assoc.keys (order.counts.visit (countTags key tags))).toFinset.filter (· ≠ [])
      = labels (tagValue key) (· ≠ []) tags := by
    ext v
    rw [Finset.empty_union, Finset.mem_filter, List.mem_toFinset, mem_labels,
      (hperm.map Prod.fst).mem_iff]
    refine and_congr_left fun _ => ?_
    rw [List.mem_map]
    constructor
    · rintro ⟨x, hx, rfl⟩
      exact ((hentry x).mp hx).1
    · intro hv
      exact ⟨(v, weight (tagValue key) tags v), (hentry _).mpr ⟨hv, rfl⟩, rfl⟩
  rw [hlabels] at hrun
  refine ⟨_, hrun.top, ?_⟩
  rw [withholdTags, if_neg (by omega), removed]
  refine List.filter_congr fun t _ => ?_
  simp

/-! ## When more pieces never hurt

Below a `Withhold` a tree over one key asks for numbers of pieces that withstand the loss of so
many groups, and that is monotone.
-/

mutual

/-- Whether a tree asks for nothing: no literal in it is positive. -/
def asksNothing : CohortRequirements → Bool
  | .unset => true
  | .literal value => value ≤ 0
  | .and requirements => allAskNothing requirements
  | .withhold _ _ none => true
  | .withhold _ _ (some child) => asksNothing child

def allAskNothing : List CohortRequirements → Bool
  | [] => true
  | r :: rs => asksNothing r && allAskNothing rs

end

mutual

/-- Whether the nodes that withhold and whose child asks for something all look at `key`. -/
def onlyKey (key : String) : CohortRequirements → Bool
  | .unset => true
  | .literal _ => true
  | .and requirements => allOnlyKey key requirements
  | .withhold _ _ none => true
  | .withhold tagKey amount (some child) =>
      asksNothing child || ((amount ≤ 0 || tagKey == key) && onlyKey key child)

def allOnlyKey (key : String) : List CohortRequirements → Bool
  | [] => true
  | r :: rs => onlyKey key r && allOnlyKey key rs

end

mutual

/-- Whether no node withholds by one tag key what a node above it leaves by another. -/
def unmixed : CohortRequirements → Bool
  | .unset => true
  | .literal _ => true
  | .and requirements => allUnmixed requirements
  | .withhold _ _ none => true
  | .withhold tagKey amount (some child) =>
      if amount ≤ 0 then unmixed child else onlyKey tagKey child

def allUnmixed : List CohortRequirements → Bool
  | [] => true
  | r :: rs => unmixed r && allUnmixed rs

end

lemma length_withholdTags_le (order : TagOrder) (key : String) (amount : ℤ) (tags : List Tags) :
    (withholdTags order key amount tags).length ≤ tags.length := by
  rw [withholdTags]
  split_ifs
  · exact le_refl _
  · exact List.length_filter_le _ _

/-- The comparison of a `Literal`, below the range of the cast. -/
lemma literal_iff {n : ℕ} (hn : n < 2 ^ 31) (value : ℤ) :
    decide (asI32 n ≥ value) = true ↔ value.toNat ≤ n := by
  rw [decide_eq_true_eq, asI32_of_lt hn]
  omega

mutual

/-- What asks for nothing is met. -/
lemma cohortValid_of_asksNothing (orders : Orders) : ∀ (r : CohortRequirements) (tags : List Tags),
    tags.length < 2 ^ 31 → asksNothing r = true → cohortValid orders r tags = true
  | .unset, _, _, _ => by rw [cohortValid]
  | .literal value, tags, hlen, h => by
      rw [cohortValid, literal_iff hlen]
      rw [asksNothing, decide_eq_true_eq] at h
      omega
  | .and rs, tags, hlen, h => by
      rw [cohortValid]
      exact cohortsValid_of_asksNothing orders 0 rs tags hlen (by rwa [asksNothing] at h)
  | .withhold _ _ none, _, _, _ => by rw [cohortValid]
  | .withhold key amount (some child), tags, hlen, h => by
      rw [cohortValid]
      exact cohortValid_of_asksNothing _ child _
        ((length_withholdTags_le _ key amount tags).trans_lt hlen) (by rwa [asksNothing] at h)

lemma cohortsValid_of_asksNothing (orders : Orders) (i : ℕ) :
    ∀ (rs : List CohortRequirements) (tags : List Tags),
    tags.length < 2 ^ 31 → allAskNothing rs = true → cohortsValid orders i rs tags = true
  | [], _, _, _ => by rw [cohortsValid]
  | r :: rs, tags, hlen, h => by
      rw [allAskNothing, Bool.and_eq_true] at h
      rw [cohortsValid, cohortValid_of_asksNothing _ r tags hlen h.1,
        cohortsValid_of_asksNothing orders (i + 1) rs tags hlen h.2, Bool.and_self]

end

mutual

/-- What a tree asks of pieces when the heaviest `n` groups of `key` are withheld from it. -/
def Demands (key : String) (n : ℕ) : CohortRequirements → List Tags → Prop
  | .unset, _ => True
  | .literal value, tags => Withstands (tagValue key) (· ≠ []) tags n value.toNat
  | .and requirements, tags => AllDemand key n requirements tags
  | .withhold _ _ none, _ => True
  | .withhold _ amount (some child), tags => Demands key (n + amount.toNat) child tags

def AllDemand (key : String) (n : ℕ) : List CohortRequirements → List Tags → Prop
  | [], _ => True
  | r :: rs, tags => Demands key n r tags ∧ AllDemand key n rs tags

end

mutual

lemma demands_of_asksNothing (key : String) (n : ℕ) : ∀ (r : CohortRequirements) (tags : List Tags),
    asksNothing r = true → Demands key n r tags
  | .unset, _, _ => by rw [Demands]; trivial
  | .literal value, tags, h => by
      rw [asksNothing, decide_eq_true_eq] at h
      rw [Demands, Int.toNat_of_nonpos h]
      exact fun _ _ _ => Nat.zero_le _
  | .and rs, tags, h => by
      rw [Demands]
      exact allDemand_of_asksNothing key n rs tags (by rwa [asksNothing] at h)
  | .withhold _ _ none, _, _ => by rw [Demands]; trivial
  | .withhold _ amount (some child), tags, h => by
      rw [Demands]
      exact demands_of_asksNothing key _ child tags (by rwa [asksNothing] at h)

lemma allDemand_of_asksNothing (key : String) (n : ℕ) :
    ∀ (rs : List CohortRequirements) (tags : List Tags),
    allAskNothing rs = true → AllDemand key n rs tags
  | [], _, _ => by rw [AllDemand]; trivial
  | r :: rs, tags, h => by
      rw [allAskNothing, Bool.and_eq_true] at h
      rw [AllDemand]
      exact ⟨demands_of_asksNothing key n r tags h.1, allDemand_of_asksNothing key n rs tags h.2⟩

end

mutual

lemma Demands.mono (key : String) (n : ℕ) : ∀ (r : CohortRequirements) {S S' : List Tags},
    S.Subperm S' → Demands key n r S → Demands key n r S'
  | .unset, _, _, _, _ => by rw [Demands]; trivial
  | .literal value, S, S', hS, h => by
      rw [Demands] at h ⊢
      exact h.mono hS
  | .and rs, S, S', hS, h => by
      rw [Demands] at h ⊢
      exact AllDemand.mono key n rs hS h
  | .withhold _ _ none, _, _, _, _ => by rw [Demands]; trivial
  | .withhold _ amount (some child), S, S', hS, h => by
      rw [Demands] at h ⊢
      exact Demands.mono key _ child hS h

lemma AllDemand.mono (key : String) (n : ℕ) : ∀ (rs : List CohortRequirements) {S S' : List Tags},
    S.Subperm S' → AllDemand key n rs S → AllDemand key n rs S'
  | [], _, _, _, _ => by rw [AllDemand]; trivial
  | r :: rs, S, S', hS, h => by
      rw [AllDemand] at h ⊢
      exact ⟨Demands.mono key n r hS h.1, AllDemand.mono key n rs hS h.2⟩

end

mutual

/-- Below a node that withholds, a tree over the same key answers what its demands say, whatever
the orders: the groups taken out on the way down are the heaviest of the whole. -/
lemma cohortValid_iff_demands {key : String} {S : List Tags} (hlen : S.length < 2 ^ 31) :
    ∀ (r : CohortRequirements) (orders : Orders) (n : ℕ) (X : Finset (List UInt8)),
    onlyKey key r = true →
    IsTop (weight (tagValue key) S) (labels (tagValue key) (· ≠ []) S) n X →
    (cohortValid orders r (removed (tagValue key) X S) = true ↔ Demands key n r S)
  | .unset, _, _, _, _, _ => by simp only [cohortValid, Demands]
  | .literal value, _, n, X, _, hX => by
      have hlen' : (removed (tagValue key) X S).length < 2 ^ 31 :=
        (List.length_filter_le _ _).trans_lt hlen
      rw [cohortValid, Demands, literal_iff hlen']
      exact hX.le_iff
  | .and rs, orders, n, X, h, hX => by
      rw [cohortValid, Demands]
      exact cohortsValid_iff_demands hlen rs orders 0 n X (by rwa [onlyKey] at h) hX
  | .withhold _ _ none, _, _, _, _, _ => by simp only [cohortValid, Demands]
  | .withhold tagKey amount (some child), orders, n, X, h, hX => by
      have hlen' : (removed (tagValue key) X S).length < 2 ^ 31 :=
        (List.length_filter_le _ _).trans_lt hlen
      rw [onlyKey, Bool.or_eq_true, Bool.and_eq_true, Bool.or_eq_true, decide_eq_true_eq,
        beq_iff_eq] at h
      rw [cohortValid, Demands]
      rcases h with h | ⟨hkey, hchild⟩
      · refine iff_of_true ?_ (demands_of_asksNothing key _ child S h)
        exact cohortValid_of_asksNothing _ child _
          ((length_withholdTags_le _ tagKey amount _).trans_lt hlen') h
      · by_cases hpos : amount ≤ 0
        · rw [withholdTags, if_pos hpos, Int.toNat_of_nonpos hpos]
          exact cohortValid_iff_demands hlen child _ n X hchild hX
        · obtain rfl := hkey.resolve_left hpos
          obtain ⟨Y, hY, heq⟩ := withholdTags_spec (orders []) tagKey (by omega : 0 < amount)
            (removed (tagValue tagKey) X S)
          rw [heq, removed_removed]
          exact cohortValid_iff_demands hlen child _ _ _ hchild (hX.union hY)

lemma cohortsValid_iff_demands {key : String} {S : List Tags} (hlen : S.length < 2 ^ 31) :
    ∀ (rs : List CohortRequirements) (orders : Orders) (i n : ℕ) (X : Finset (List UInt8)),
    allOnlyKey key rs = true →
    IsTop (weight (tagValue key) S) (labels (tagValue key) (· ≠ []) S) n X →
    (cohortsValid orders i rs (removed (tagValue key) X S) = true ↔ AllDemand key n rs S)
  | [], _, _, _, _, _, _ => by simp only [cohortsValid, AllDemand]
  | r :: rs, orders, i, n, X, h, hX => by
      rw [allOnlyKey, Bool.and_eq_true] at h
      rw [cohortsValid, AllDemand, Bool.and_eq_true, cohortValid_iff_demands hlen r _ n X h.1 hX,
        cohortsValid_iff_demands hlen rs orders (i + 1) n X h.2 hX]

end

mutual

/-- **More pieces never hurt** a tree that does not mix keys, even if the second evaluation breaks
ties in another way than the first. -/
lemma cohortValid_mono {S S' : List Tags} (hS : S.Subperm S') (hlen : S'.length < 2 ^ 31) :
    ∀ (r : CohortRequirements) (orders orders' : Orders), unmixed r = true →
    cohortValid orders r S = true → cohortValid orders' r S' = true
  | .unset, _, _, _, _ => by rw [cohortValid]
  | .literal value, _, _, _, h => by
      rw [cohortValid, literal_iff (hS.length_le.trans_lt hlen)] at h
      rw [cohortValid, literal_iff hlen]
      exact h.trans hS.length_le
  | .and rs, orders, orders', hr, h => by
      rw [cohortValid] at h ⊢
      exact cohortsValid_mono hS hlen rs orders orders' 0 (by rwa [unmixed] at hr) h
  | .withhold _ _ none, _, _, _, _ => by rw [cohortValid]
  | .withhold key amount (some child), orders, orders', hr, h => by
      rw [unmixed] at hr
      rw [cohortValid] at h ⊢
      by_cases hpos : amount ≤ 0
      · rw [if_pos hpos] at hr
        rw [withholdTags, if_pos hpos] at h ⊢
        exact cohortValid_mono hS hlen child _ _ hr h
      · rw [if_neg hpos] at hr
        have hamount : 0 < amount := by omega
        obtain ⟨X, hX, heq⟩ := withholdTags_spec (orders []) key hamount S
        obtain ⟨X', hX', heq'⟩ := withholdTags_spec (orders' []) key hamount S'
        rw [heq, cohortValid_iff_demands (hS.length_le.trans_lt hlen) child _ _ X hr hX] at h
        rw [heq', cohortValid_iff_demands hlen child _ _ X' hr hX']
        exact Demands.mono key _ child hS h

lemma cohortsValid_mono {S S' : List Tags} (hS : S.Subperm S') (hlen : S'.length < 2 ^ 31) :
    ∀ (rs : List CohortRequirements) (orders orders' : Orders) (i : ℕ), allUnmixed rs = true →
    cohortsValid orders i rs S = true → cohortsValid orders' i rs S' = true
  | [], _, _, _, _, _ => by rw [cohortsValid]
  | r :: rs, orders, orders', i, hr, h => by
      rw [allUnmixed, Bool.and_eq_true] at hr
      rw [cohortsValid, Bool.and_eq_true] at h ⊢
      exact ⟨cohortValid_mono hS hlen r _ _ hr.1 h.1,
        cohortsValid_mono hS hlen rs orders orders' (i + 1) hr.2 h.2⟩

end

end Storj.Segment
