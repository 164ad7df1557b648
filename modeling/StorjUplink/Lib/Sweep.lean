import Mathlib.Algebra.BigOperators.Ring.Finset
import Mathlib.Algebra.Field.Basic
import Mathlib.Tactic.Ring
import Mathlib.Tactic.FieldSimp
import Mathlib.Tactic.LinearCombination

/-!
# In-place Gauss–Jordan elimination as an exchange of variables

Inverting a matrix in place, one column at a time, never holds a triangular factor: after `c`
columns the buffer holds a matrix that is neither `A` nor a partial inverse.  What it *is* has a
clean description.  Read `A` as the linear system `y = A x`.  Sweeping column `c` solves row `c`
for `x c` and substitutes it everywhere, so after `c` sweeps the buffer computes

`(-x 0, …, -x (c-1), y c, …, y (k-1))` from `(-y 0, …, -y (c-1), x c, …, x (k-1))`.

`Exchanged` states exactly that, and at `c = k` the buffer maps `y` back to `x`.  The order of the
sweeps does not matter: `ExchangedOn` is the same for any set of variables, and
`ExchangedOn.sweep` is the step.  No pivoting is needed when every leading block of `A` is injective
(`LeadingRegular`), and `Exchanged.pivot_ne_zero` is that fact.

Matrices are functions of two indices of which only those below `k` matter.
-/

namespace Sweep

open Finset

variable {F : Type*} [Field F]

/-- The matrix–vector product over the first `k` indices. -/
def mulVec (k : ℕ) (A : ℕ → ℕ → F) (x : ℕ → F) (i : ℕ) : F :=
  ∑ j ∈ range k, A i j * x j

/-- `-u` on `P`, `v` elsewhere. -/
def exchangeOn (P : Finset ℕ) (u v : ℕ → F) (i : ℕ) : F :=
  if i ∈ P then -u i else v i

/-- `M` is `A` with the variables in `P` exchanged: it computes the mixed right-hand side from the
mixed argument, and every mixed argument arises. -/
structure ExchangedOn (k : ℕ) (P : Finset ℕ) (A M : ℕ → ℕ → F) : Prop where
  /-- `M` carries `(-y on P, x elsewhere)` to `(-x on P, y elsewhere)`. -/
  forward : ∀ x, ∀ i < k,
    mulVec k M (exchangeOn P (mulVec k A x) x) i = exchangeOn P x (mulVec k A x) i
  /-- Every argument is `(-y on P, x elsewhere)` for some `x`. -/
  onto : ∀ v : ℕ → F, ∃ x, ∀ i < k, exchangeOn P (mulVec k A x) x i = v i

/-- `-u` below `c`, `v` from `c` on. -/
def exchange (c : ℕ) (u v : ℕ → F) (i : ℕ) : F :=
  if i < c then -u i else v i

/-- `M` is `A` with the first `c` variables exchanged: it computes the mixed right-hand side from
the mixed argument, and every mixed argument arises. -/
structure Exchanged (k c : ℕ) (A M : ℕ → ℕ → F) : Prop where
  /-- `M` carries `(-y <c, x ≥c)` to `(-x <c, y ≥c)`. -/
  forward : ∀ x, ∀ i < k,
    mulVec k M (exchange c (mulVec k A x) x) i = exchange c x (mulVec k A x) i
  /-- Every argument is `(-y <c, x ≥c)` for some `x`. -/
  onto : ∀ v : ℕ → F, ∃ x, ∀ i < k, exchange c (mulVec k A x) x i = v i

/-- Every leading block of `A` is injective. -/
def LeadingRegular (k : ℕ) (A : ℕ → ℕ → F) : Prop :=
  ∀ m ≤ k, ∀ x : ℕ → F, (∀ j, m ≤ j → x j = 0) → (∀ i < m, mulVec k A x i = 0) →
    ∀ j, x j = 0

/-- Regularity reads only the entries below `k`. -/
lemma LeadingRegular.congr {k : ℕ} {A A' : ℕ → ℕ → F} (h : LeadingRegular k A)
    (hA : ∀ i < k, ∀ j < k, A i j = A' i j) : LeadingRegular k A' := by
  intro m hm x hsupp hker
  refine h m hm x hsupp fun i hi => ?_
  rw [← hker i hi]
  exact sum_congr rfl fun j hj => by rw [hA i (hi.trans_le hm) j (mem_range.mp hj)]

/-- One sweep on column `c`: the pivot row is divided by the pivot, its own pivot entry replaced
by the inverse, and every other row is reduced by it with its pivot column cleared first. -/
def sweep (c : ℕ) (M : ℕ → ℕ → F) (i j : ℕ) : F :=
  let pivotRow := fun j => (M c c)⁻¹ * (if j = c then 1 else M c j)
  if i = c then pivotRow j else (if j = c then 0 else M i j) - M i c * pivotRow j

/-- Only the entries below `k` are read. -/
lemma sweep_congr {k c : ℕ} {M N : ℕ → ℕ → F} (hc : c < k)
    (h : ∀ i < k, ∀ j < k, M i j = N i j) {i j : ℕ} (hi : i < k) (hj : j < k) :
    sweep c M i j = sweep c N i j := by
  simp only [sweep, h c hc c hc, h c hc j hj, h i hi j hj, h i hi c hc]

/-- Only the entries below `k` of a vector are read. -/
lemma mulVec_congr {k : ℕ} {A : ℕ → ℕ → F} {x x' : ℕ → F} (h : ∀ j < k, x j = x' j) (i : ℕ) :
    mulVec k A x i = mulVec k A x' i :=
  sum_congr rfl fun j hj => by rw [h j (mem_range.mp hj)]

/-- Only the entries below `k` of a row are read. -/
lemma mulVec_congr_left {k : ℕ} {A B : ℕ → ℕ → F} {i : ℕ} (h : ∀ j < k, A i j = B i j)
    (x : ℕ → F) : mulVec k A x i = mulVec k B x i :=
  sum_congr rfl fun j hj => by rw [h j (mem_range.mp hj)]

/-- Splitting one column off a matrix–vector product. -/
lemma mulVec_split {k c : ℕ} (hc : c < k) (A : ℕ → ℕ → F) (x : ℕ → F) (i : ℕ) :
    mulVec k A x i = A i c * x c + ∑ j ∈ (range k).erase c, A i j * x j :=
  (add_sum_erase (range k) (fun j => A i j * x j) (mem_range.mpr hc)).symm

lemma mulVec_neg (k : ℕ) (A : ℕ → ℕ → F) (x : ℕ → F) (i : ℕ) :
    mulVec k A (fun j => -x j) i = -mulVec k A x i := by
  simp [mulVec]

/-- No exchange yet: the matrix itself. -/
lemma ExchangedOn.empty (k : ℕ) (A : ℕ → ℕ → F) : ExchangedOn k ∅ A A where
  forward x i _ := by
    have h : exchangeOn ∅ (mulVec k A x) x = x := funext fun i => by simp [exchangeOn]
    rw [h]
    simp [exchangeOn]
  onto v := ⟨v, fun i _ => by simp [exchangeOn]⟩

/-- Only the entries below `k` matter. -/
lemma ExchangedOn.congr {k : ℕ} {P : Finset ℕ} {A M M' : ℕ → ℕ → F} (h : ExchangedOn k P A M)
    (hM : ∀ i < k, ∀ j < k, M i j = M' i j) : ExchangedOn k P A M' where
  forward x i hi := by
    rw [← h.forward x i hi]
    exact (mulVec_congr_left (hM i hi) _).symm
  onto := h.onto

/-- All variables exchanged: `M` undoes `A`. -/
lemma ExchangedOn.inverse {k : ℕ} {P : Finset ℕ} {A M : ℕ → ℕ → F} (h : ExchangedOn k P A M)
    (hall : ∀ i < k, i ∈ P) (x : ℕ → F) {i : ℕ} (hi : i < k) :
    mulVec k M (mulVec k A x) i = x i := by
  have hf := h.forward x i hi
  have hmix : ∀ j < k, exchangeOn P (mulVec k A x) x j = -mulVec k A x j := fun j hj => by
    simp [exchangeOn, hall j hj]
  rw [mulVec_congr hmix, mulVec_neg] at hf
  simpa [exchangeOn, hall i hi] using hf

section Insert

variable {P : Finset ℕ} {c : ℕ}

/-- Off the pivot column the mixed argument does not change when `c` is exchanged. -/
lemma exchangeOn_insert_of_ne {i : ℕ} (hi : i ≠ c) (u v : ℕ → F) :
    exchangeOn (insert c P) u v i = exchangeOn P u v i := by
  simp [exchangeOn, hi]

lemma exchangeOn_insert_self (u v : ℕ → F) : exchangeOn (insert c P) u v c = -u c := by
  simp [exchangeOn]

lemma exchangeOn_of_notMem {i : ℕ} (hi : i ∉ P) (u v : ℕ → F) : exchangeOn P u v i = v i := by
  simp [exchangeOn, hi]

lemma exchangeOn_of_mem {i : ℕ} (hi : i ∈ P) (u v : ℕ → F) : exchangeOn P u v i = -u i := by
  simp [exchangeOn, hi]

/-- The sum over the columns other than `c` is the same before and after the exchange of `c`. -/
lemma sum_erase_exchangeOn_insert {k : ℕ} (M : ℕ → ℕ → F) (u v : ℕ → F) (i : ℕ) :
    ∑ j ∈ (range k).erase c, M i j * exchangeOn (insert c P) u v j
      = ∑ j ∈ (range k).erase c, M i j * exchangeOn P u v j :=
  sum_congr rfl fun j hj => by rw [exchangeOn_insert_of_ne (ne_of_mem_erase hj)]

end Insert

/-- The swept pivot row is the old one divided by the pivot, its pivot entry replaced by `1`. -/
lemma mulVec_sweep_self {k c : ℕ} (hc : c < k) (M : ℕ → ℕ → F) (z : ℕ → F) :
    mulVec k (sweep c M) z c
      = (M c c)⁻¹ * (z c + ∑ j ∈ (range k).erase c, M c j * z j) := by
  rw [mulVec_split hc, mul_add, mul_sum]
  congr 1
  · simp [sweep]
  · refine sum_congr rfl fun j hj => ?_
    simp [sweep, ne_of_mem_erase hj, mul_assoc]

/-- Any other swept row is the old one, pivot column cleared, reduced by the pivot row. -/
lemma mulVec_sweep_of_ne {k c i : ℕ} (hc : c < k) (hi : i ≠ c) (M : ℕ → ℕ → F) (z : ℕ → F) :
    mulVec k (sweep c M) z i
      = ∑ j ∈ (range k).erase c, M i j * z j - M i c * mulVec k (sweep c M) z c := by
  rw [mulVec_split hc, mulVec_split hc (sweep c M) z c, mul_add, mul_sum]
  have hcol : sweep c M i c * z c = -(M i c * (sweep c M c c * z c)) := by
    simp only [sweep, hi, if_false, if_true]
    ring
  have hrest : ∑ j ∈ (range k).erase c, sweep c M i j * z j
      = ∑ j ∈ (range k).erase c, M i j * z j
        - ∑ j ∈ (range k).erase c, M i c * (sweep c M c j * z j) := by
    rw [← sum_sub_distrib]
    refine sum_congr rfl fun j hj => ?_
    simp only [sweep, hi, ne_of_mem_erase hj, if_false, if_true]
    ring
  rw [hcol, hrest]
  ring

/-- **The sweep step.**  A nonzero pivot exchanges one more variable. -/
theorem ExchangedOn.sweep {k c : ℕ} {P : Finset ℕ} {A M : ℕ → ℕ → F} (h : ExchangedOn k P A M)
    (hc : c < k) (hcP : c ∉ P) (hp : M c c ≠ 0) :
    ExchangedOn k (insert c P) A (Sweep.sweep c M) where
  forward x i hi := by
    set y := mulVec k A x with hy
    have hold : ∀ i < k, M i c * x c + ∑ j ∈ (range k).erase c, M i j * exchangeOn P y x j
        = exchangeOn P x y i := by
      intro i hi
      have hf := h.forward x i hi
      rwa [mulVec_split hc, exchangeOn_of_notMem hcP, ← hy] at hf
    -- the old row `c`, solved for `x c`
    have hpivot : mulVec k (Sweep.sweep c M) (exchangeOn (insert c P) y x) c = -x c := by
      have hrow := hold c hc
      rw [exchangeOn_of_notMem hcP] at hrow
      rw [mulVec_sweep_self hc, sum_erase_exchangeOn_insert, exchangeOn_insert_self, ← hrow]
      field_simp
      ring
    rcases eq_or_ne i c with rfl | hic
    · rw [hpivot, exchangeOn_insert_self]
    · rw [mulVec_sweep_of_ne hc hic, hpivot, sum_erase_exchangeOn_insert,
        exchangeOn_insert_of_ne hic, ← hold i hi]
      ring
  onto v := by
    set rest := ∑ j ∈ (range k).erase c, M c j * v j with hrest
    -- choose the old argument at `c` so that row `c` evaluates to `-v c`
    obtain ⟨x, hx⟩ := h.onto (Function.update v c ((M c c)⁻¹ * (-v c - rest)))
    refine ⟨x, fun i hi => ?_⟩
    have hxc : x c = (M c c)⁻¹ * (-v c - rest) := by
      simpa [exchangeOn_of_notMem hcP] using hx c hc
    rcases eq_or_ne i c with rfl | hic
    · have hf := h.forward x i hi
      have hsum : ∑ j ∈ (range k).erase i, M i j * exchangeOn P (mulVec k A x) x j = rest := by
        refine sum_congr rfl fun j hj => ?_
        rw [hx j (mem_range.mp (mem_of_mem_erase hj)),
          Function.update_of_ne (ne_of_mem_erase hj)]
      rw [mulVec_split hi, exchangeOn_of_notMem hcP, exchangeOn_of_notMem hcP, hsum, hxc] at hf
      rw [exchangeOn_insert_self, ← hf]
      field_simp
      ring
    · rw [exchangeOn_insert_of_ne hic, hx i hi, Function.update_of_ne hic]

/-! ## Column by column

The elimination takes the columns in order.  Everything here is the general step at the set of the
first `c` variables, and the pivot of the next column is not zero because a leading block has no
kernel.
-/

lemma exchange_eq (c : ℕ) (u v : ℕ → F) : exchange c u v = exchangeOn (range c) u v := by
  funext i
  simp [exchange, exchangeOn]

lemma exchanged_iff {k c : ℕ} {A M : ℕ → ℕ → F} :
    Exchanged k c A M ↔ ExchangedOn k (range c) A M := by
  constructor
  · rintro ⟨hforward, honto⟩
    simp only [exchange_eq] at hforward honto
    exact ⟨hforward, honto⟩
  · rintro ⟨hforward, honto⟩
    simp only [← exchange_eq] at hforward honto
    exact ⟨hforward, honto⟩

/-- No exchange yet: the matrix itself. -/
lemma Exchanged.zero (k : ℕ) (A : ℕ → ℕ → F) : Exchanged k 0 A A :=
  exchanged_iff.mpr (ExchangedOn.empty k A)

/-- Only the entries below `k` matter. -/
lemma Exchanged.congr {k c : ℕ} {A M M' : ℕ → ℕ → F} (h : Exchanged k c A M)
    (hM : ∀ i < k, ∀ j < k, M i j = M' i j) : Exchanged k c A M' :=
  exchanged_iff.mpr ((exchanged_iff.mp h).congr hM)

/-- All variables exchanged: `M` undoes `A`. -/
lemma Exchanged.inverse {k : ℕ} {A M : ℕ → ℕ → F} (h : Exchanged k k A M) (x : ℕ → F) {i : ℕ}
    (hi : i < k) : mulVec k M (mulVec k A x) i = x i :=
  (exchanged_iff.mp h).inverse (fun _ hi => mem_range.mpr hi) x hi

lemma exchange_self (c : ℕ) (u v : ℕ → F) : exchange c u v c = v c := by
  simp [exchange]

/-- One column more. -/
theorem Exchanged.sweep {k c : ℕ} {A M : ℕ → ℕ → F} (h : Exchanged k c A M) (hc : c < k)
    (hp : M c c ≠ 0) : Exchanged k (c + 1) A (Sweep.sweep c M) := by
  rw [exchanged_iff, range_add_one]
  exact (exchanged_iff.mp h).sweep hc notMem_range_self hp

/-- **The pivot is never zero** when every leading block is injective: a zero pivot would be a
nonzero vector, supported on the first `c + 1` coordinates, that the leading block kills. -/
theorem Exchanged.pivot_ne_zero {k c : ℕ} {A M : ℕ → ℕ → F} (h : Exchanged k c A M) (hc : c < k)
    (hreg : LeadingRegular k A) : M c c ≠ 0 := by
  intro hzero
  obtain ⟨x, hx⟩ := h.onto (fun i => if i = c then 1 else 0)
  have hxc : x c = 1 := by simpa [exchange_self] using hx c hc
  have htail : ∀ j < k, c < j → x j = 0 := fun j hj hcj => by
    simpa [exchange, hcj.not_gt, hcj.ne'] using hx j hj
  have hhead : ∀ i < c, mulVec k A x i = 0 := fun i hi => by
    simpa [exchange, hi, hi.ne] using hx i (hi.trans hc)
  have hrow : mulVec k A x c = 0 := by
    have hf := h.forward x c hc
    rw [mulVec_congr hx, exchange_self] at hf
    rw [← hf, mulVec]
    refine sum_eq_zero fun j _ => ?_
    rcases eq_or_ne j c with rfl | hjc
    · simp [hzero]
    · simp [hjc]
  -- cut `x` off above `c`; nothing the first `k` coordinates read changes
  have hcut : ∀ j < k, (if j ≤ c then x j else 0) = x j := fun j hj => by
    split_ifs with hjc
    · rfl
    · exact (htail j hj (not_le.mp hjc)).symm
  have hker : ∀ i < c + 1, mulVec k A (fun j => if j ≤ c then x j else 0) i = 0 := fun i hi => by
    rw [mulVec_congr hcut]
    rcases Nat.lt_succ_iff_lt_or_eq.mp hi with hi | rfl
    · exact hhead i hi
    · exact hrow
  have hzero' := hreg (c + 1) hc _ (fun j hj => if_neg (by omega)) hker c
  simp [hxc] at hzero'

end Sweep
