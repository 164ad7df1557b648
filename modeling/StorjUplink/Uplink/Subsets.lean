import StorjUplink.Lib.Buffer
import Mathlib.Data.Nat.Choose.Basic

/-!
# The iterator over `k`-subsets

`KSubsets` of `download.rs` walks through the increasing lists of `k` indexes below `n`: it looks
for the last entry that can still grow, increments it and resets everything after it.

The walk is compared with `combos`, which lists the increasing lists by recursion on their first
entry.  `advance` on a list `c :: cs` is `advance` on `cs` with `c` kept in front, or, when `cs`
is exhausted, the next start (`advance_cons`); so the walk through `c :: cs` is the walk through
`cs` with `c` in front, followed by the walk that starts from `c + 1` (`Walk.cons`).
-/

namespace Storj.Uplink

open Buffer

/-- `KSubsets`: the combination that comes next, and whether there is one. -/
structure KSubsets where
  n : ℕ
  k : ℕ
  cur : List ℕ
  done : Bool

/-- Increment entry `i` and let every later entry follow its predecessor. -/
def bumpAt (k : ℕ) (cur : List ℕ) (i : ℕ) : List ℕ :=
  (List.range' (i + 1) (k - (i + 1))).foldl (fun cur j => cur.set j (cur.getD (j - 1) 0 + 1))
    (cur.set i (cur.getD i 0 + 1))

/-- The `while i > 0` loop of `next`: the next subset, if an entry below `i` can grow. -/
def advance (n k : ℕ) (cur : List ℕ) : ℕ → Option (List ℕ)
  | 0 => none
  | i + 1 => if cur.getD i 0 < i + n - k then some (bumpAt k cur i) else advance n k cur i

namespace KSubsets

/-- `KSubsets::new`, which is done from the start where there is no combination. -/
def new (n k : ℕ) : KSubsets :=
  if k = 0 ∨ k > n then ⟨n, k, [], true⟩ else ⟨n, k, List.range k, false⟩

/-- `Iterator::next`: it returns the current combination and moves on to the one after it. -/
def next (s : KSubsets) : Option (List ℕ) × KSubsets :=
  if s.done then (none, s)
  else match advance s.n s.k s.cur s.k with
    | some cur => (some s.cur, { s with cur })
    | none => (some s.cur, { s with done := true })

/-- What `fuel` calls of `next` yield, up to the first `None`. -/
def collect : ℕ → KSubsets → List (List ℕ)
  | 0, _ => []
  | fuel + 1, s =>
      match s.next with
      | (none, _) => []
      | (some item, s') => item :: collect fuel s'

end KSubsets

/-- `k_subsets`, run to its end: one call for each subset and one that returns `None`
(`kSubsets_eq_combos`). -/
def kSubsets (n k : ℕ) : List (List ℕ) := (KSubsets.new n k).collect (n.choose k + 1)

/-! ## The increasing lists

Lists in lexical order, by their first entry.
-/

/-- The increasing lists of `k` entries from `lo` to `n`, by their first entry. -/
def combos (n : ℕ) : ℕ → ℕ → List (List ℕ)
  | 0, _ => [[]]
  | k + 1, lo => (List.range' lo (n - lo)).flatMap fun c => (combos n k (c + 1)).map (c :: ·)

/-- Membership. -/
lemma mem_combos {n : ℕ} : ∀ {k lo : ℕ} {t : List ℕ},
    t ∈ combos n k lo ↔ t.length = k ∧ t.Pairwise (· < ·) ∧ ∀ x ∈ t, lo ≤ x ∧ x < n
  | 0, lo, t => by
      simp only [combos, List.mem_singleton]
      constructor
      · rintro rfl
        simp
      · rintro ⟨hlen, -, -⟩
        exact List.eq_nil_of_length_eq_zero hlen
  | k + 1, lo, t => by
      simp only [combos, List.mem_flatMap, List.mem_map, List.mem_range'_1]
      constructor
      · rintro ⟨c, hc, cs, hcs, rfl⟩
        obtain ⟨hlen, hpair, hall⟩ := mem_combos.mp hcs
        refine ⟨by rw [List.length_cons, hlen], List.pairwise_cons.mpr ⟨?_, hpair⟩, ?_⟩
        · intro x hx
          have := hall x hx
          omega
        · intro x hx
          rcases List.mem_cons.mp hx with rfl | hx
          · omega
          · have := hall x hx
            omega
      · rintro ⟨hlen, hpair, hall⟩
        cases t with
        | nil => cases hlen
        | cons c cs =>
            have hc := hall c List.mem_cons_self
            obtain ⟨hlt, hpair'⟩ := List.pairwise_cons.mp hpair
            refine ⟨c, by omega, cs, mem_combos.mpr ⟨?_, hpair', ?_⟩, rfl⟩
            · simpa using hlen
            · intro x hx
              have h1 := hlt x hx
              have h2 := hall x (List.mem_cons_of_mem _ hx)
              omega

/-- The lists that start with `lo`, then those that start later. -/
lemma combos_succ {n k lo : ℕ} (h : lo < n) :
    combos n (k + 1) lo = (combos n k (lo + 1)).map (lo :: ·) ++ combos n (k + 1) (lo + 1) := by
  rw [combos, show n - lo = n - (lo + 1) + 1 by omega, List.range'_succ, List.flatMap_cons]
  rfl

lemma combos_eq_nil {n k lo : ℕ} (h : n < lo + (k + 1)) : combos n (k + 1) lo = [] := by
  refine List.eq_nil_iff_forall_not_mem.mpr ?_
  intro t ht
  obtain ⟨hlen, hpair, hall⟩ := mem_combos.mp ht
  have hle : ∀ (l : List ℕ) (a : ℕ), l.Pairwise (· < ·) → (∀ x ∈ l, a ≤ x ∧ x < n) →
      a ≤ n → a + l.length ≤ n := by
    intro l
    induction l with
    | nil => intro a _ _ ha; exact ha
    | cons c cs ih =>
        intro a hp hx _
        obtain ⟨hlt, hp'⟩ := List.pairwise_cons.mp hp
        have hc := hx c List.mem_cons_self
        have hrest := ih (c + 1) hp' (by
          intro x hxm
          have h1 := hlt x hxm
          have h2 := hx x (List.mem_cons_of_mem _ hxm)
          omega) (by omega)
        rw [List.length_cons]
        omega
  cases t with
  | nil => cases hlen
  | cons c cs =>
      have hc := hall c List.mem_cons_self
      have := hle (c :: cs) lo hpair hall (by omega)
      omega

/-- There are `n - lo` choose `k` of them. -/
lemma length_combos (n : ℕ) : ∀ k lo : ℕ, (combos n k lo).length = (n - lo).choose k
  | 0, lo => by simp [combos]
  | k + 1, lo => by
      induction hd : n - lo generalizing lo with
      | zero => simp [combos, hd]
      | succ d ih =>
          rw [combos_succ (by omega), List.length_append, List.length_map,
            length_combos n k (lo + 1), ih (lo + 1) (by omega), show n - (lo + 1) = d by omega,
            Nat.choose_succ_succ]

/-! ## The walk

A walk through the lists that begin with `c` is followed by one through those that begin later.
-/

/-- `l` is what the iterator yields from `cur` on. -/
inductive Walk (n k : ℕ) : List ℕ → List (List ℕ) → Prop
  | last {cur : List ℕ} : advance n k cur k = none → Walk n k cur [cur]
  | step {cur next : List ℕ} {l : List (List ℕ)} :
      advance n k cur k = some next → Walk n k next l → Walk n k cur (cur :: l)

/-- Bumping an entry of the tail keeps the head. -/
lemma bumpAt_cons (k c : ℕ) (cs : List ℕ) (i : ℕ) :
    bumpAt (k + 1) (c :: cs) (i + 1) = c :: bumpAt k cs i := by
  have hfold : ∀ (m a : ℕ) (l : List ℕ),
      (List.range' (a + 2) m).foldl (fun cur j => cur.set j (cur.getD (j - 1) 0 + 1)) (c :: l)
        = c :: (List.range' (a + 1) m).foldl (fun cur j => cur.set j (cur.getD (j - 1) 0 + 1)) l := by
    intro m
    induction m with
    | zero => intro a l; rfl
    | succ m ih =>
        intro a l
        rw [List.range'_succ, List.range'_succ, List.foldl_cons, List.foldl_cons]
        exact ih (a + 1) _
  rw [bumpAt, bumpAt, show k + 1 - (i + 1 + 1) = k - (i + 1) by omega]
  exact hfold (k - (i + 1)) i _

/-- Bumping the head restarts the tail right after it. -/
lemma bumpAt_zero {k c : ℕ} {cs : List ℕ} (h : cs.length = k) :
    bumpAt (k + 1) (c :: cs) 0 = List.range' (c + 1) (k + 1) := by
  have hinv := foldl_range_induction (n := k) (s := (c + 1) :: cs)
    (f := fun cur j => cur.set (1 + j) (cur.getD (1 + j - 1) 0 + 1))
    (P := fun d l => l.length = k + 1 ∧ ∀ j ≤ d, l.getD j 0 = c + 1 + j) ?_ ?_
  · have heq : bumpAt (k + 1) (c :: cs) 0 = (List.range k).foldl
        (fun cur j => cur.set (1 + j) (cur.getD (1 + j - 1) 0 + 1)) ((c + 1) :: cs) := by
      rw [bumpAt, List.range'_eq_map_range, List.foldl_map, Nat.add_sub_cancel]
      rfl
    rw [heq]
    refine ext_getD 0 (by rw [hinv.1, List.length_range']) ?_
    intro j hj
    rw [hinv.1] at hj
    rw [hinv.2 j (by omega), List.getD_eq_getElem _ _ (by rw [List.length_range']; exact hj),
      List.getElem_range', Nat.one_mul]
  · refine ⟨by rw [List.length_cons, h], ?_⟩
    intro j hj
    obtain rfl : j = 0 := by omega
    rfl
  · rintro d hd l ⟨hlen, hl⟩
    refine ⟨by rw [List.length_set, hlen], ?_⟩
    intro j hj
    rcases Nat.lt_succ_iff_lt_or_eq.mp (Nat.lt_succ_of_le hj) with hj | rfl
    · rw [getD_set_ne (by omega), hl j (by omega)]
    · rw [show d + 1 = 1 + d by omega, getD_set_self (by omega), show 1 + d - 1 = d by omega,
        hl d le_rfl]
      omega

/-- Advancing `c :: cs`: the tail first, then the head. -/
lemma advance_cons {n k c : ℕ} {cs : List ℕ} (hcs : cs.length = k) (hkn : k + 1 ≤ n) (i : ℕ) :
    advance n (k + 1) (c :: cs) (i + 1) = match advance n k cs i with
      | some cs' => some (c :: cs')
      | none => if c + k + 1 < n then some (List.range' (c + 1) (k + 1)) else none := by
  induction i with
  | zero =>
      rw [advance, advance, advance, bumpAt_zero hcs]
      have hiff : (c :: cs).getD 0 0 < 0 + n - (k + 1) ↔ c + k + 1 < n := by
        show c < _ ↔ _
        omega
      simp only [hiff]
  | succ i ih =>
      have hiff : (c :: cs).getD (i + 1) 0 < i + 1 + n - (k + 1) ↔ cs.getD i 0 < i + n - k := by
        rw [List.getD_cons_succ]
        omega
      have hl : advance n (k + 1) (c :: cs) (i + 1 + 1) = if cs.getD i 0 < i + n - k then
          some (c :: bumpAt k cs i) else advance n (k + 1) (c :: cs) (i + 1) := by
        rw [← bumpAt_cons]
        simp only [← hiff]
        rfl
      rw [hl, ih, advance]
      by_cases hlt : cs.getD i 0 < i + n - k
      · rw [if_pos hlt, if_pos hlt]
      · rw [if_neg hlt, if_neg hlt]

/-- The walk through `c :: cs` is the walk through `cs` behind `c`, then the walk from the next
start. -/
lemma Walk.cons {n k c : ℕ} (hkn : k + 1 ≤ n) {cs : List ℕ} {l rest : List (List ℕ)}
    (h : Walk n k cs l) (hl : ∀ t ∈ l, t.length = k)
    (hrest : if c + k + 1 < n then Walk n (k + 1) (List.range' (c + 1) (k + 1)) rest
      else rest = []) :
    Walk n (k + 1) (c :: cs) (l.map (c :: ·) ++ rest) := by
  induction h with
  | @last cs hnone =>
      have hadv := advance_cons (c := c) (hl cs List.mem_cons_self) hkn k
      rw [hnone] at hadv
      split_ifs at hrest with hlt
      · exact .step (hadv.trans (if_pos hlt)) hrest
      · subst hrest
        exact .last (hadv.trans (if_neg hlt))
  | @step cs next l hsome _ ih =>
      have hadv := advance_cons (c := c) (hl cs List.mem_cons_self) hkn k
      rw [hsome] at hadv
      exact .step hadv (ih fun t ht => hl t (List.mem_cons_of_mem _ ht))

/-- **The walk from the first subset visits them all.** -/
theorem walk_combos (n : ℕ) : ∀ k lo : ℕ, lo + k ≤ n →
    Walk n k (List.range' lo k) (combos n k lo)
  | 0, lo, _ => .last rfl
  | k + 1, lo, h => by
      induction hd : n - (lo + (k + 1)) generalizing lo with
      | zero =>
          rw [combos_succ (by omega), List.range'_succ]
          refine (walk_combos n k (lo + 1) (by omega)).cons (by omega) ?_ ?_
          · intro t ht
            exact (mem_combos.mp ht).1
          · rw [if_neg (by omega), combos_eq_nil (by omega)]
      | succ d ih =>
          rw [combos_succ (by omega), List.range'_succ]
          refine (walk_combos n k (lo + 1) (by omega)).cons (by omega) ?_ ?_
          · intro t ht
            exact (mem_combos.mp ht).1
          · rw [if_pos (by omega)]
            exact ih (lo + 1) (by omega) (by omega)

/-- Enough calls of `next` yield the whole walk. -/
lemma Walk.collect {n k : ℕ} {cur : List ℕ} {l : List (List ℕ)} (h : Walk n k cur l) :
    ∀ fuel, l.length < fuel → KSubsets.collect fuel ⟨n, k, cur, false⟩ = l := by
  induction h with
  | @last cur hnone =>
      intro fuel hf
      cases fuel with
      | zero => omega
      | succ fuel =>
          rw [KSubsets.collect, KSubsets.next]
          simp only [Bool.false_eq_true, if_false, hnone]
          cases fuel with
          | zero => rfl
          | succ fuel => rfl
  | @step cur next l hsome _ ih =>
      intro fuel hf
      cases fuel with
      | zero => omega
      | succ fuel =>
          rw [KSubsets.collect, KSubsets.next]
          simp only [Bool.false_eq_true, if_false, hsome]
          rw [ih fuel (by rw [List.length_cons] at hf; omega)]

/-- **`k_subsets` enumerates the increasing lists of `k` indexes below `n`.** -/
theorem kSubsets_eq_combos {n k : ℕ} (hk : 0 < k) (hkn : k ≤ n) :
    kSubsets n k = combos n k 0 := by
  rw [kSubsets, KSubsets.new, if_neg (by omega), List.range_eq_range']
  refine (walk_combos n k 0 (by omega)).collect _ ?_
  rw [length_combos, Nat.sub_zero]
  exact Nat.lt_succ_self _

/-- Its first subset is the first `k` indexes. -/
lemma kSubsets_cons {n k : ℕ} (hk : 0 < k) (hkn : k ≤ n) :
    ∃ rest, kSubsets n k = List.range k :: rest := by
  have hwalk := walk_combos n k 0 (by omega)
  rw [kSubsets_eq_combos hk hkn, List.range_eq_range']
  generalize combos n k 0 = l at hwalk
  cases hwalk with
  | last _ => exact ⟨_, rfl⟩
  | step _ _ => exact ⟨_, rfl⟩

/-- There are no subsets larger than the set. -/
lemma kSubsets_eq_nil {n k : ℕ} (h : n < k) : kSubsets n k = [] := by
  rw [kSubsets, KSubsets.new, if_pos (Or.inr h)]
  rfl

/-- If `k` of the indexes below `n` have a property, the walk meets a subset that has it. -/
lemma exists_kSubset {n k : ℕ} (hk : 0 < k) (P : ℕ → Bool)
    (h : k ≤ (List.range n).countP P) : ∃ c ∈ kSubsets n k, ∀ i ∈ c, P i = true := by
  have hkn : k ≤ n := h.trans (List.countP_le_length.trans_eq List.length_range)
  rw [List.countP_eq_length_filter] at h
  have hmem : ∀ i ∈ ((List.range n).filter P).take k, i < n ∧ P i = true := by
    intro i hi
    have hi' := List.mem_filter.mp (List.mem_of_mem_take hi)
    exact ⟨List.mem_range.mp hi'.1, hi'.2⟩
  refine ⟨((List.range n).filter P).take k, ?_, fun i hi => (hmem i hi).2⟩
  rw [kSubsets_eq_combos hk hkn, mem_combos]
  refine ⟨List.length_take_of_le h, ?_, fun i hi => ⟨Nat.zero_le i, (hmem i hi).1⟩⟩
  exact (List.pairwise_lt_range.sublist List.filter_sublist).sublist (List.take_sublist _ _)

/-! ## The iterator on machine words

`i + self.n - self.k` is a sum of words that may leave `usize`; every other sum of `next` is an
entry of the next subset, so below `n`. -/

/-- What a build does about a word that overflows: panic, or wrap around. -/
inductive Overflow where
  | checked
  | wrapping
deriving DecidableEq, Repr

/-- `i + self.n - self.k`; `none` is a panic. -/
def Overflow.limit (o : Overflow) (n k i : ℕ) : Option ℕ :=
  match o with
  | .checked => if i + n < 2 ^ 64 ∧ k ≤ i + n then some (i + n - k) else none
  | .wrapping => some (((i + n) % 2 ^ 64 + (2 ^ 64 - k % 2 ^ 64)) % 2 ^ 64)

/-- The `while i > 0` loop of `next`, from the last index down: the first index that is below its
limit is moved on.  `none` is a panic, `some none` the end of the enumeration. -/
def Overflow.advance (o : Overflow) (n k : ℕ) (cur : List ℕ) : ℕ → Option (Option (List ℕ))
  | 0 => some none
  | i + 1 =>
      match o.limit n k i with
      | none => none
      | some limit =>
          if cur.getD i 0 < limit then some (some (bumpAt k cur i)) else o.advance n k cur i

/-- `Iterator::next`: it returns the current combination and moves on to the one after it. -/
def Overflow.next (o : Overflow) (s : KSubsets) : Option (Option (List ℕ) × KSubsets) :=
  if s.done then some (none, s)
  else match o.advance s.n s.k s.cur s.k with
    | none => none
    | some (some cur) => some (some s.cur, { s with cur })
    | some none => some (some s.cur, { s with done := true })

/-- How an iteration ends without a last item: in a panic, or not within the calls made. -/
inductive Unfinished where
  | panicked
  | running
deriving DecidableEq, Repr

/-- Up to `calls` calls of `next`, until one returns `None`. -/
def Overflow.drain (o : Overflow) : ℕ → KSubsets → Except Unfinished (List (List ℕ))
  | 0, _ => .error .running
  | calls + 1, s =>
      match o.next s with
      | none => .error .panicked
      | some (none, _) => .ok []
      | some (some item, s') => do
          let items ← o.drain calls s'
          .ok (item :: items)

/-- The words in which the comparison of `next` is right: all, or with checks those whose sum is a
word. -/
def Overflow.Fits (o : Overflow) (n k : ℕ) : Prop := o = .checked → n + k ≤ 2 ^ 64

section Machine

variable {o : Overflow} {n k : ℕ}

lemma Overflow.limit_eq (hn : n < 2 ^ 64) (hk : k ≤ n) (hfits : o.Fits n k) {i : ℕ} (hi : i < k) :
    o.limit n k i = some (i + n - k) := by
  cases o with
  | checked =>
      have hsum := hfits rfl
      rw [limit, if_pos (by omega)]
  | wrapping =>
      -- the word wraps around twice, or not at all
      rw [limit, Option.some.injEq]
      omega

lemma Overflow.advance_eq (hn : n < 2 ^ 64) (hk : k ≤ n) (hfits : o.Fits n k) (cur : List ℕ)
    {i : ℕ} (hi : i ≤ k) : o.advance n k cur i = some (Uplink.advance n k cur i) := by
  induction i with
  | zero => rfl
  | succ i ih =>
      rw [advance, Uplink.advance, limit_eq hn hk hfits hi]
      dsimp only
      split_ifs
      · rfl
      · exact ih (by omega)

/-- Enough calls on machine words yield the whole walk, and then `None`. -/
lemma Walk.drain (hn : n < 2 ^ 64) (hk : k ≤ n) (hfits : o.Fits n k) {cur : List ℕ}
    {l : List (List ℕ)} (h : Walk n k cur l) :
    ∀ calls, l.length < calls → o.drain calls ⟨n, k, cur, false⟩ = .ok l := by
  induction h with
  | @last cur hnone =>
      intro calls hcalls
      rw [List.length_singleton] at hcalls
      obtain ⟨calls, rfl⟩ : ∃ m, calls = m + 2 := ⟨calls - 2, by omega⟩
      rw [Overflow.drain, Overflow.next]
      simp only [Bool.false_eq_true, if_false, Overflow.advance_eq hn hk hfits cur le_rfl, hnone]
      rw [Overflow.drain, Overflow.next]
      rfl
  | @step cur next l hsome _ ih =>
      intro calls hcalls
      rw [List.length_cons] at hcalls
      obtain ⟨calls, rfl⟩ : ∃ m, calls = m + 1 := ⟨calls - 1, by omega⟩
      rw [Overflow.drain, Overflow.next]
      simp only [Bool.false_eq_true, if_false, Overflow.advance_eq hn hk hfits cur le_rfl, hsome]
      rw [ih calls (by omega)]
      rfl

end Machine

/-- The increasing lists are in lexicographic order. -/
lemma pairwise_combos (n : ℕ) : ∀ k lo : ℕ, (combos n k lo).Pairwise (· < ·)
  | 0, lo => List.pairwise_singleton _ _
  | k + 1, lo => by
      induction hd : n - lo generalizing lo with
      | zero => simp [combos, hd]
      | succ d ih =>
          rw [combos_succ (by omega), List.pairwise_append, List.pairwise_map]
          refine ⟨?_, ih (lo + 1) (by omega), ?_⟩
          · refine (pairwise_combos n k (lo + 1)).imp ?_
            intro s t hst
            exact List.cons_lt_cons_iff.mpr (Or.inr ⟨rfl, hst⟩)
          · intro s hs t ht
            obtain ⟨s', -, rfl⟩ := List.mem_map.mp hs
            obtain ⟨hlen, -, hall⟩ := mem_combos.mp ht
            cases t with
            | nil => cases hlen
            | cons c t =>
                have hc := (hall c List.mem_cons_self).1
                exact List.cons_lt_cons_iff.mpr (Or.inl hc)

/-- **`k_subsets` is a complete enumeration**: it ends, after every increasing list of `k` indexes
below `n` has been yielded once, in lexicographic order.  Without overflow checks this holds for all
words, with them as long as `n + k` is one; the number of shares always is. -/
theorem kSubsets_enumerates {o : Overflow} {n k : ℕ} (hn : n < 2 ^ 64) (hfits : o.Fits n k) :
    (1 ≤ k → k ≤ n → ∃ l : List (List ℕ),
      (∀ calls, l.length < calls → o.drain calls (KSubsets.new n k) = .ok l) ∧
      (∀ t, t ∈ l ↔ t.length = k ∧ t.Pairwise (· < ·) ∧ ∀ x ∈ t, x < n) ∧
      l.Nodup ∧ l.Pairwise (· < ·) ∧ l.length = n.choose k) ∧
    (k = 0 ∨ n < k → o.next (KSubsets.new n k) = some (none, KSubsets.new n k)) := by
  constructor
  · intro hpos hk
    have hsorted := pairwise_combos n k 0
    refine ⟨combos n k 0, ?_, ?_, ?_, hsorted, ?_⟩
    · rw [KSubsets.new, if_neg (by omega), List.range_eq_range']
      exact (walk_combos n k 0 (by omega)).drain hn hk hfits
    · intro t
      rw [mem_combos]
      simp only [Nat.zero_le, true_and]
    · rw [List.nodup_iff_pairwise_ne]
      refine hsorted.imp ?_
      rintro s t hst rfl
      exact List.lt_irrefl _ hst
    · rw [length_combos, Nat.sub_zero]
  · intro h
    rw [KSubsets.new, if_pos h]
    rfl

/-- The two pairs of `{0, 1, 2}` that have the first index, and the one that does not. -/
theorem kSubsets_enumerates_pairs :
    (∃ l : List (List ℕ), (∀ calls, l.length < calls →
        Overflow.checked.drain calls (KSubsets.new 3 2) = .ok l) ∧ l.length = 3) ∧
      Overflow.checked.drain 4 (KSubsets.new 3 2) = .ok [[0, 1], [0, 2], [1, 2]] := by
  have hfits : Overflow.checked.Fits 3 2 := fun _ => by decide
  obtain ⟨l, hdrain, -, -, -, hlen⟩ := (kSubsets_enumerates (by decide) hfits).1 (by decide)
    (by decide)
  exact ⟨⟨l, hdrain, hlen⟩, by decide⟩

end Storj.Uplink
