import StorjUplink.Lib.Sweep
import Mathlib.LinearAlgebra.Matrix.ToLinearEquiv

/-!
# Which pivots an elimination finds

After the variables in `P` have been exchanged, what is left of a matrix are the rows and columns
outside of `P`.  Whether one of these entries is zero can be read off the matrix itself: it is zero
exactly if the minor on `P` with its row and its column is (`ExchangedOn.eq_zero_iff`).

So the run of a pivot search is determined by minors.  `PivotOrder` is the run of a search that
looks at the diagonal entry of each column first and goes through the rows where that one is of no
use, as long as what it finds lies on the diagonal; `OnDiagonal` says that it always does.  For an
invertible matrix that is the case exactly if its leading minors are not zero (`onDiagonal_iff`):
what a search finds in place of a zero on the diagonal is an entry of the same row.

Of `RowScaled`, a matrix with one row taken several times, only what comparing two eliminations
needs is here.
-/

namespace Sweep

open Finset

variable {F : Type*} [Field F] {k : ℕ} {P : Finset ℕ} {A M : ℕ → ℕ → F}

/-- The rows and columns below `k` as a matrix. -/
def block (k : ℕ) (A : ℕ → ℕ → F) : Matrix (Fin k) (Fin k) F := Matrix.of fun i j => A i j

/-- The minor on the rows `P` and `r` and the columns `P` and `i`. -/
def border (A : ℕ → ℕ → F) (P : Finset ℕ) (r i : ℕ) : F :=
  (Matrix.of fun a b : Option P => A (a.elim r (↑)) (b.elim i (↑))).det

/-! ## Vectors of a border

A minor is zero if its rows kill a nonzero vector on its columns, and the other way round.  Working
with vectors in place of determinants lets the exchange of variables, which is about solutions,
speak about minors.
-/

/-- A vector on `P` and `i`, and zero elsewhere. -/
def spread (P : Finset ℕ) (i : ℕ) (v : Option P → F) (j : ℕ) : F :=
  if h : j ∈ P then v (some ⟨j, h⟩) else if j = i then v none else 0

lemma spread_mem {i j : ℕ} (v : Option P → F) (h : j ∈ P) : spread P i v j = v (some ⟨j, h⟩) :=
  dif_pos h

lemma spread_self {i : ℕ} (v : Option P → F) (h : i ∉ P) : spread P i v i = v none := by
  rw [spread, dif_neg h, if_pos rfl]

lemma spread_of_ne {i j : ℕ} (v : Option P → F) (h : j ∉ P) (hne : j ≠ i) : spread P i v j = 0 := by
  rw [spread, dif_neg h, if_neg hne]

/-- A vector that is zero off `P` and `i` is one of these. -/
lemma eq_spread {i : ℕ} (hi : i ∉ P) {x : ℕ → F} (hx : ∀ j < k, j ∉ P → j ≠ i → x j = 0) :
    ∀ j < k, spread P i (fun b => x (b.elim i (↑))) j = x j := by
  intro j hj
  by_cases hjP : j ∈ P
  · rw [spread_mem _ hjP]
    rfl
  · rcases eq_or_ne j i with rfl | hne
    · rw [spread_self _ hjP]
      rfl
    · rw [spread_of_ne _ hjP hne, hx j hj hjP hne]

/-- Such a vector multiplies as it does in the border. -/
lemma mulVec_spread (hP : P ⊆ range k) {i : ℕ} (hi : i < k) (hiP : i ∉ P) (v : Option P → F)
    (r : ℕ) (a : Option P) :
    mulVec k A (spread P i v) (a.elim r (↑))
      = (Matrix.of fun a b : Option P => A (a.elim r (↑)) (b.elim i (↑))).mulVec v a := by
  set row := A (a.elim r (↑)) with hrow
  have hsub : insert i P ⊆ range k := insert_subset (mem_range.mpr hi) hP
  have hzero : ∀ j ∈ range k, j ∉ insert i P → row j * spread P i v j = 0 := by
    intro j _ hj
    rw [mem_insert, not_or] at hj
    rw [spread_of_ne v hj.2 hj.1, mul_zero]
  have hpart : ∑ j ∈ P, row j * spread P i v j = ∑ p : P, row p * v (some p) := by
    rw [← sum_coe_sort]
    refine sum_congr rfl fun p _ => ?_
    rw [spread_mem v p.2]
  rw [mulVec, ← hrow, ← sum_subset hsub hzero, sum_insert hiP, spread_self v hiP, hpart,
    Matrix.mulVec, dotProduct, Fintype.sum_option]
  rfl

section Border

variable (hP : P ⊆ range k) {i r : ℕ} (hi : i < k) (hiP : i ∉ P)

include hP hi hiP

/-- A minor that is zero has a vector on its columns that its rows kill. -/
lemma exists_of_border_eq_zero (h : border A P r i = 0) :
    ∃ x : ℕ → F, (∃ j, x j ≠ 0) ∧ (∀ j, j ∉ P → j ≠ i → x j = 0) ∧
      (∀ p ∈ P, mulVec k A x p = 0) ∧ mulVec k A x r = 0 := by
  obtain ⟨v, hv, hker⟩ := Matrix.exists_mulVec_eq_zero_iff.mpr h
  refine ⟨spread P i v, ?_, fun j hj hne => spread_of_ne v hj hne, fun p hp => ?_, ?_⟩
  · obtain ⟨b, hb⟩ := Function.ne_iff.mp hv
    cases b with
    | none => exact ⟨i, by rwa [spread_self v hiP]⟩
    | some p => exact ⟨p, by rwa [spread_mem v p.2]⟩
  · have hrow := congrFun hker (some ⟨p, hp⟩)
    rwa [← mulVec_spread hP hi hiP] at hrow
  · have hrow := congrFun hker none
    rwa [← mulVec_spread hP hi hiP] at hrow

/-- A minor is zero if its rows kill a vector on its columns. -/
lemma border_eq_zero {x : ℕ → F} (hx : ∃ j < k, x j ≠ 0)
    (hsupp : ∀ j < k, j ∉ P → j ≠ i → x j = 0) (hsolved : ∀ p ∈ P, mulVec k A x p = 0)
    (hrow : mulVec k A x r = 0) : border A P r i = 0 := by
  obtain ⟨j, hj, hne⟩ := hx
  refine Matrix.exists_mulVec_eq_zero_iff.mp
    ⟨fun b => x (b.elim i (↑)), fun hv => hne ?_, funext fun a => ?_⟩
  · rw [← eq_spread hiP hsupp j hj, hv]
    by_cases hjP : j ∈ P
    · rw [spread_mem _ hjP, Pi.zero_apply]
    · rcases eq_or_ne j i with rfl | hji
      · rw [spread_self _ hiP, Pi.zero_apply]
      · exact spread_of_ne _ hjP hji
  · rw [← mulVec_spread hP hi hiP, mulVec_congr (eq_spread hiP hsupp)]
    cases a with
    | none => exact hrow
    | some p => exact hsolved p p.2

end Border

/-! ## Entries and minors

The entry of an exchanged matrix in row `r` and column `i` is the last equation of a system that
has the variables in `P` and `x i`, evaluated at the one solution of the others.  It is zero
exactly if that solution is a kernel vector of the border.
-/

/-- A matrix on a vector with one entry. -/
lemma mulVec_single {i : ℕ} (hi : i < k) (M : ℕ → ℕ → F) {x : ℕ → F}
    (hx : ∀ j < k, j ≠ i → x j = 0) (r : ℕ) : mulVec k M x r = M r i * x i := by
  rw [mulVec_split hi, sum_eq_zero, add_zero]
  intro j hj
  rw [hx j (mem_range.mp (mem_of_mem_erase hj)) (ne_of_mem_erase hj), mul_zero]

section Entries

variable (h : ExchangedOn k P A M) {i : ℕ} (hi : i < k) (hiP : i ∉ P)

include h hi hiP

/-- The solution with one free variable: `x i = 1`, the equations in `P` hold, and those outside
have the entries of column `i` as values. -/
lemma ExchangedOn.exists_column : ∃ x : ℕ → F, x i = 1 ∧ (∀ j < k, j ∉ P → j ≠ i → x j = 0) ∧
    (∀ p < k, p ∈ P → mulVec k A x p = 0) ∧ ∀ r < k, r ∉ P → mulVec k A x r = M r i := by
  obtain ⟨x, hx⟩ := h.onto (fun j => if j = i then 1 else 0)
  have hxi : x i = 1 := by simpa [exchangeOn_of_notMem hiP] using hx i hi
  have hfree : ∀ j < k, j ∉ P → j ≠ i → x j = 0 := fun j hj hjP hne => by
    simpa [exchangeOn_of_notMem hjP, hne] using hx j hj
  refine ⟨x, hxi, hfree, ?_, ?_⟩
  · intro p hp hpP
    have hne : p ≠ i := fun heq => hiP (heq ▸ hpP)
    simpa [exchangeOn_of_mem hpP, hne] using hx p hp
  · intro r hr hrP
    have hf := h.forward x r hr
    rw [mulVec_congr hx, exchangeOn_of_notMem hrP, mulVec_single hi M (by simp +contextual)] at hf
    rw [← hf, if_pos rfl, mul_one]

/-- **An entry is zero exactly if its minor is.** -/
theorem ExchangedOn.eq_zero_iff (hP : P ⊆ range k) {r : ℕ} (hr : r < k) (hrP : r ∉ P) :
    M r i = 0 ↔ border A P r i = 0 := by
  constructor
  · intro hzero
    obtain ⟨x, hxi, hfree, hsolved, hrest⟩ := h.exists_column hi hiP
    refine border_eq_zero hP hi hiP ⟨i, hi, ?_⟩ hfree
      (fun p hp => hsolved p (mem_range.mp (hP hp)) hp) ((hrest r hr hrP).trans hzero)
    rw [hxi]
    exact one_ne_zero
  · intro hborder
    obtain ⟨x, ⟨j, hj⟩, hsupp, hsolved, hrow⟩ := exists_of_border_eq_zero hP hi hiP hborder
    -- the mixed argument has one entry, that of column `i`
    have hmixed : ∀ j < k, j ≠ i → exchangeOn P (mulVec k A x) x j = 0 := by
      intro j _ hne
      by_cases hjP : j ∈ P
      · rw [exchangeOn_of_mem hjP, hsolved j hjP, neg_zero]
      · rw [exchangeOn_of_notMem hjP, hsupp j hjP hne]
    have hf : ∀ a < k, M a i * x i = exchangeOn P x (mulVec k A x) a := fun a ha => by
      rw [← h.forward x a ha, mulVec_single hi M hmixed, exchangeOn_of_notMem hiP]
    by_contra hne
    have hxi : x i = 0 := by
      have hr' := hf r hr
      rw [exchangeOn_of_notMem hrP, hrow] at hr'
      exact (mul_eq_zero.mp hr').resolve_left hne
    refine hj ?_
    by_cases hjP : j ∈ P
    · have hp := hf j (mem_range.mp (hP hjP))
      rwa [hxi, mul_zero, exchangeOn_of_mem hjP, zero_eq_neg] at hp
    · rcases eq_or_ne j i with rfl | hji
      · exact hxi
      · exact hsupp j hjP hji

end Entries

/-- **If nothing is left, the matrix is singular**: some vector other than zero is killed. -/
lemma ExchangedOn.exists_kernel (h : ExchangedOn k P A M) {i : ℕ} (hi : i < k) (hiP : i ∉ P)
    (hzero : ∀ r < k, r ∉ P → M r i = 0) :
    ∃ x : ℕ → F, x i = 1 ∧ ∀ r < k, mulVec k A x r = 0 := by
  obtain ⟨x, hxi, -, hsolved, hrest⟩ := h.exists_column hi hiP
  refine ⟨x, hxi, fun r hr => ?_⟩
  by_cases hrP : r ∈ P
  · exact hsolved r hr hrP
  · rw [hrest r hr hrP, hzero r hr hrP]

/-! ## Matrices

Up to here a matrix was a function of two indices; the results about minors are those of the
library, on the rows and columns below `k`.
-/

lemma block_mulVec (A : ℕ → ℕ → F) (x : ℕ → F) (i : Fin k) :
    (block k A).mulVec (fun j => x j) i = mulVec k A x i :=
  Fin.sum_univ_eq_sum_range (fun j => A i j * x j) k

/-- What undoes a matrix on every vector is its inverse. -/
lemma block_mul_block (h : ∀ x : ℕ → F, ∀ i < k, mulVec k M (mulVec k A x) i = x i) :
    block k M * block k A = 1 := by
  ext i j
  have hcol : ∀ l < k, A l j = mulVec k A (fun b => if b = j.val then 1 else 0) l := fun l _ => by
    rw [mulVec_single j.isLt A (by simp +contextual), if_pos rfl, mul_one]
  have hij := h (fun b => if b = j.val then 1 else 0) i i.isLt
  rw [← mulVec_congr hcol] at hij
  rw [Matrix.mul_apply, Matrix.one_apply]
  refine (Fin.sum_univ_eq_sum_range (fun l => M i l * A l j) k).trans (hij.trans ?_)
  simp only [Fin.val_inj]

/-- A matrix that kills a vector other than zero has no inverse. -/
lemma not_isUnit_block {x : ℕ → F} {i : ℕ} (hi : i < k) (hx : x i ≠ 0)
    (hker : ∀ r < k, mulVec k A x r = 0) : ¬IsUnit (block k A) := by
  have hdet : (block k A).det = 0 := by
    refine Matrix.exists_mulVec_eq_zero_iff.mp ⟨fun j => x j, fun hzero => ?_, funext fun r => ?_⟩
    · exact hx (congrFun hzero ⟨i, hi⟩)
    · exact (block_mulVec A x r).trans (hker r r.isLt)
  rw [Matrix.isUnit_iff_isUnit_det, hdet]
  exact not_isUnit_zero

/-! ## The search

The order is fixed: the diagonal entry of the column first, then the rows from the top, and in each
row the columns from the left.  What it finds is described without the loop, as the first usable
entry.
-/

/-- The entry that a search through the rows and columns outside of `P` finds, row by row. -/
structure First (k : ℕ) (A : ℕ → ℕ → F) (P : Finset ℕ) (r i : ℕ) : Prop where
  row : r < k ∧ r ∉ P
  column : i < k ∧ i ∉ P
  ne_zero : border A P r i ≠ 0
  above : ∀ r' < r, r' ∉ P → ∀ i' < k, i' ∉ P → border A P r' i' = 0
  left : ∀ i' < i, i' ∉ P → border A P r i' = 0

/-- The search finds one entry. -/
lemma First.unique {r i r' i' : ℕ} (h : First k A P r i) (h' : First k A P r' i') :
    r = r' ∧ i = i' := by
  have hrow : r = r' := by
    rcases lt_trichotomy r r' with hlt | heq | hgt
    · exact absurd (h'.above r hlt h.row.2 i h.column.1 h.column.2) h.ne_zero
    · exact heq
    · exact absurd (h.above r' hgt h'.row.2 i' h'.column.1 h'.column.2) h'.ne_zero
  subst hrow
  refine ⟨rfl, ?_⟩
  rcases lt_trichotomy i i' with hlt | heq | hgt
  · exact absurd (h'.left i hlt h.column.2) h.ne_zero
  · exact heq
  · exact absurd (h.left i' hgt h'.column.2) h'.ne_zero

/-- **The pivot of column `c`**: its diagonal entry if that can be taken, else what the search
finds. -/
inductive Picks (k : ℕ) (A : ℕ → ℕ → F) (c : ℕ) (P : Finset ℕ) : ℕ → ℕ → Prop
  | diagonal : c ∉ P → border A P c c ≠ 0 → Picks k A c P c c
  | found {r i : ℕ} : (c ∈ P ∨ border A P c c = 0) → First k A P r i → Picks k A c P r i

/-- The pivots of the columns below `c`, where all of them are on the diagonal. -/
inductive PivotOrder (k : ℕ) (A : ℕ → ℕ → F) : ℕ → Finset ℕ → Prop
  | start : PivotOrder k A 0 ∅
  | turn {c r : ℕ} {P : Finset ℕ} : PivotOrder k A c P → Picks k A c P r r →
      PivotOrder k A (c + 1) (insert r P)

/-- **Every pivot is on the diagonal**, up to the column where the search finds none. -/
def OnDiagonal (k : ℕ) (A : ℕ → ℕ → F) : Prop :=
  ∀ c < k, ∀ P, PivotOrder k A c P → ∀ r i, Picks k A c P r i → r = i

/-- What is picked is left, and not zero. -/
lemma Picks.usable {c r i : ℕ} (h : Picks k A c P r i) (hc : c < k) :
    (r < k ∧ r ∉ P) ∧ (i < k ∧ i ∉ P) ∧ border A P r i ≠ 0 := by
  cases h with
  | diagonal hcP hne => exact ⟨⟨hc, hcP⟩, ⟨hc, hcP⟩, hne⟩
  | found _ hfirst => exact ⟨hfirst.row, hfirst.column, hfirst.ne_zero⟩

/-- There is one pivot to a column. -/
lemma Picks.unique {c r i r' i' : ℕ} (h : Picks k A c P r i) (h' : Picks k A c P r' i') :
    r = r' ∧ i = i' := by
  cases h with
  | diagonal hcP hne =>
      cases h' with
      | diagonal => exact ⟨rfl, rfl⟩
      | found hfall => exact absurd hfall (not_or.mpr ⟨hcP, hne⟩)
  | found hfall hfirst =>
      cases h' with
      | diagonal hcP hne => exact absurd hfall (not_or.mpr ⟨hcP, hne⟩)
      | found _ hfirst' => exact hfirst.unique hfirst'

/-! ## Invertible matrices

Here both directions come together.  If the leading minors are not zero the search never looks past
the diagonal, and if one of them is zero it has to, because a row of an invertible matrix is not
all zero.
-/

/-- **The leading blocks are injective exactly if the leading minors are not zero.** -/
theorem leadingRegular_iff : LeadingRegular k A ↔ ∀ c < k, border A (range c) c c ≠ 0 := by
  constructor
  · intro hreg c hc hzero
    obtain ⟨x, ⟨j, hj⟩, hsupp, hsolved, hrow⟩ := exists_of_border_eq_zero
      (range_subset_range.mpr hc.le) hc notMem_range_self hzero
    refine hj (hreg (c + 1) hc x (fun j hj => hsupp j ?_ (by omega)) (fun i hi => ?_) j)
    · rw [mem_range]
      omega
    · rcases Nat.lt_succ_iff_lt_or_eq.mp hi with hlt | rfl
      · exact hsolved i (mem_range.mpr hlt)
      · exact hrow
  · intro hminors m hm x hsupp hker j
    cases m with
    | zero => exact hsupp j (Nat.zero_le j)
    | succ c =>
        by_contra hne
        have hj : j < c + 1 := not_le.mp fun hle => hne (hsupp j hle)
        refine hminors c hm (border_eq_zero (range_subset_range.mpr (Nat.le_of_succ_le hm)) hm
          notMem_range_self ⟨j, by omega, hne⟩ (fun l _ hl hlc => hsupp l ?_) (fun p hp => ?_) ?_)
        · rw [mem_range] at hl
          omega
        · exact hker p (Nat.lt_succ_of_lt (mem_range.mp hp))
        · exact hker c (Nat.lt_succ_self c)

/-- Taking the pivots leaves an exchanged matrix. -/
lemma PivotOrder.exchanged {c : ℕ} (h : PivotOrder k A c P) (hc : c ≤ k) :
    P ⊆ range k ∧ ∃ M, ExchangedOn k P A M := by
  induction h with
  | start => exact ⟨empty_subset _, A, ExchangedOn.empty k A⟩
  | @turn c r P _ hpick ih =>
      obtain ⟨hP, M, hM⟩ := ih (by omega)
      obtain ⟨⟨hr, hrP⟩, -, hne⟩ := hpick.usable hc
      have hpivot : M r r ≠ 0 := fun h0 => hne ((hM.eq_zero_iff hr hrP hP hr hrP).mp h0)
      exact ⟨insert_subset (mem_range.mpr hr) hP, _, hM.sweep hr hrP hpivot⟩

/-- A row that is left of an invertible matrix is not zero. -/
lemma ExchangedOn.exists_border (h : ExchangedOn k P A M) (hP : P ⊆ range k)
    (hunit : IsUnit (block k A)) {r : ℕ} (hr : r < k) (hrP : r ∉ P) :
    ∃ i, (i < k ∧ i ∉ P) ∧ border A P r i ≠ 0 := by
  by_contra hnone
  push Not at hnone
  have hrow : ∀ i < k, i ∉ P → M r i = 0 := fun i hi hiP =>
    (h.eq_zero_iff hi hiP hP hr hrP).mpr (hnone i ⟨hi, hiP⟩)
  -- an argument whose image is the unit vector of the row
  obtain ⟨x, hx⟩ : ∃ x : ℕ → F, ∀ a < k, mulVec k A x a = if a = r then 1 else 0 := by
    have hsurj := Matrix.mulVec_surjective_iff_isUnit.mpr hunit
    obtain ⟨y, hy⟩ := hsurj fun a => if a.val = r then 1 else 0
    refine ⟨fun j => if hj : j < k then y ⟨j, hj⟩ else 0, fun a ha => ?_⟩
    have hya := congrFun hy ⟨a, ha⟩
    rw [← block_mulVec A _ ⟨a, ha⟩]
    simpa using hya
  have hf := h.forward x r hr
  rw [exchangeOn_of_notMem hrP, hx r hr, if_pos rfl, mulVec, sum_eq_zero] at hf
  · exact one_ne_zero hf.symm
  · intro j hj
    have hjk := mem_range.mp hj
    by_cases hjP : j ∈ P
    · have hjr : j ≠ r := fun heq => hrP (heq ▸ hjP)
      rw [exchangeOn_of_mem hjP, hx j hjk, if_neg hjr, neg_zero, mul_zero]
    · rw [hrow j hjk hjP, zero_mul]

/-- A zero leading minor of an invertible matrix sends the search off the diagonal. -/
lemma exists_offDiagonal (hunit : IsUnit (block k A)) (hreg : ¬LeadingRegular k A) :
    ∃ c < k, ∃ i, PivotOrder k A c (range c) ∧ Picks k A c (range c) c i ∧ c ≠ i := by
  have hstuck : ∃ c < k, PivotOrder k A c (range c) ∧ border A (range c) c c = 0 := by
    by_contra hnone
    push Not at hnone
    have horder : ∀ c ≤ k, PivotOrder k A c (range c) := by
      intro c
      induction c with
      | zero => exact fun _ => PivotOrder.start
      | succ c ih =>
          intro hc
          rw [range_add_one]
          exact (ih (by omega)).turn (.diagonal notMem_range_self (hnone c hc (ih (by omega))))
    exact hreg (leadingRegular_iff.mpr fun c hc => hnone c hc (horder c hc.le))
  obtain ⟨c, hc, horder, hzero⟩ := hstuck
  obtain ⟨hP, M, hM⟩ := horder.exchanged hc.le
  have hexists := hM.exists_border hP hunit hc notMem_range_self
  classical
  obtain ⟨hi, hne⟩ := Nat.find_spec hexists
  -- the row `c` is the first one left, so the search finds an entry of it
  have hfirst : First k A (range c) c (Nat.find hexists) := by
    refine ⟨⟨hc, notMem_range_self⟩, hi, hne, fun r' hr' hr'P => ?_, fun i' hi' hi'P => ?_⟩
    · exact absurd (mem_range.mpr hr') hr'P
    · by_contra hne'
      exact Nat.find_min hexists hi' ⟨⟨hi'.trans hi.1, hi'P⟩, hne'⟩
  refine ⟨c, hc, Nat.find hexists, horder, .found (.inr hzero) hfirst, fun heq => ?_⟩
  rw [← heq] at hne
  exact hne hzero

section LeadingRegular

variable (hreg : LeadingRegular k A)

include hreg

lemma LeadingRegular.picks {c r i : ℕ} (hc : c < k) (h : Picks k A c (range c) r i) :
    r = c ∧ i = c := by
  refine h.unique (.diagonal notMem_range_self ?_)
  exact leadingRegular_iff.mp hreg c hc

/-- With leading minors other than zero the columns are taken in order. -/
lemma PivotOrder.eq_range {c : ℕ} (h : PivotOrder k A c P) (hc : c ≤ k) : P = range c := by
  induction h with
  | start => rfl
  | @turn c r P _ hpick ih =>
      obtain rfl := ih (by omega)
      rw [(hreg.picks hc hpick).1, range_add_one]

lemma LeadingRegular.onDiagonal : OnDiagonal k A := by
  intro c hc P horder r i hpick
  obtain rfl := horder.eq_range hreg hc.le
  obtain ⟨rfl, rfl⟩ := hreg.picks hc hpick
  rfl

end LeadingRegular

/-- **For an invertible matrix, every pivot is on the diagonal exactly if the leading minors are not
zero.** -/
theorem onDiagonal_iff (hunit : IsUnit (block k A)) : OnDiagonal k A ↔ LeadingRegular k A := by
  constructor
  · intro hdiag
    by_contra hreg
    obtain ⟨c, hc, i, horder, hpick, hne⟩ := exists_offDiagonal hunit hreg
    exact hne (hdiag c hc _ horder c i hpick)
  · exact LeadingRegular.onDiagonal

/-! ## One row scaled

A search that goes wrong multiplies a row once too often or leaves it as it is.  Two runs that
differ in this only are compared by the factor.
-/

section Scaled

variable {N : ℕ → ℕ → F} {t : F} {ρ : ℕ}

/-- `N` is `M` with row `ρ` times `t`. -/
def RowScaled (k : ℕ) (t : F) (ρ : ℕ) (M N : ℕ → ℕ → F) : Prop :=
  ∀ a < k, ∀ b < k, N a b = (if a = ρ then t else 1) * M a b

lemma RowScaled.eq_zero_iff (h : RowScaled k t ρ M N) (ht : t ≠ 0) {a b : ℕ} (ha : a < k)
    (hb : b < k) : N a b = 0 ↔ M a b = 0 := by
  have hfactor : (if a = ρ then t else 1) ≠ 0 := by
    split_ifs
    · exact ht
    · exact one_ne_zero
  rw [h a ha b hb, mul_eq_zero, or_iff_right hfactor]

/-- A sweep of any other row keeps the factor. -/
lemma RowScaled.sweep (h : RowScaled k t ρ M N) {c : ℕ} (hc : c < k) (hne : c ≠ ρ) :
    RowScaled k t ρ (Sweep.sweep c M) (Sweep.sweep c N) := by
  intro a ha b hb
  have hrow : ∀ j < k, N c j = M c j := fun j hj => by
    rw [h c hc j hj, if_neg hne, one_mul]
  simp only [Sweep.sweep, hrow c hc, hrow b hb, h a ha b hb, h a ha c hc]
  rcases eq_or_ne a c with rfl | hac
  · simp only [if_true, if_neg hne, one_mul]
  · simp only [if_neg hac]
    split_ifs <;> ring

/-- Scaling a row changes no kernel. -/
lemma LeadingRegular.scale (hreg : LeadingRegular k A) (h : RowScaled k t ρ A N) (ht : t ≠ 0) :
    LeadingRegular k N := by
  intro m hm x hsupp hker
  refine hreg m hm x hsupp fun i hi => ?_
  have hrow : mulVec k N x i = (if i = ρ then t else 1) * mulVec k A x i := by
    rw [mulVec, mulVec, mul_sum]
    refine sum_congr rfl fun j hj => ?_
    rw [h i (hi.trans_le hm) j (mem_range.mp hj), mul_assoc]
  have hzero := hrow.symm.trans (hker i hi)
  split_ifs at hzero
  · exact (mul_eq_zero.mp hzero).resolve_left ht
  · rwa [one_mul] at hzero

/-- **Not both are inverses**: if a row of an inverse is taken `t` times, it is not a row of the
inverse of the matrix with one row taken `t` times. -/
lemma RowScaled.not_inverse {A' M M' : ℕ → ℕ → F} {i : ℕ} (hA : RowScaled k t ρ A A')
    (hM : RowScaled k t i M M') (hi : i < k) (ht : t * t ≠ 1)
    (hinv : block k M * block k A = 1) (hinv' : block k M' * block k A' = 1) : False := by
  have hunit : IsUnit (block k A) := IsUnit.of_mul_eq_one_right _ hinv
  have ht1 : t ≠ 1 := fun h => ht (by rw [h, one_mul])
  -- the two rows, on the columns of `A`
  have hdiff : Matrix.vecMul (fun j : Fin k => (t * (if j.val = ρ then t else 1) - 1) * M i j)
      (block k A) = 0 := by
    funext l
    have hrow := congrFun (congrFun (hinv'.trans hinv.symm) ⟨i, hi⟩) l
    rw [Matrix.mul_apply, Matrix.mul_apply, ← sub_eq_zero, ← sum_sub_distrib] at hrow
    rw [Matrix.vecMul, dotProduct, Pi.zero_apply, ← hrow]
    refine sum_congr rfl fun j _ => ?_
    show _ * A j l = M' i j * A' j l - M i j * A j l
    rw [hM i hi j j.isLt, hA j j.isLt l l.isLt, if_pos rfl]
    ring
  have hzero : ∀ j : Fin k, M i j = 0 := fun j => by
    have hj := congrFun (Matrix.vecMul_injective_iff_isUnit.mpr hunit
      (hdiff.trans (Matrix.zero_vecMul _).symm)) j
    refine (mul_eq_zero.mp hj).resolve_left (sub_ne_zero.mpr ?_)
    split_ifs
    · exact ht
    · rwa [mul_one]
  have hone := congrFun (congrFun hinv ⟨i, hi⟩) ⟨i, hi⟩
  rw [Matrix.mul_apply, Matrix.one_apply_eq, sum_eq_zero] at hone
  · exact zero_ne_one hone
  · intro j _
    show M i j * A j i = 0
    rw [hzero j, zero_mul]

end Scaled

end Sweep
