import StorjUplink.Lib.Sweep
import Mathlib.LinearAlgebra.Lagrange

/-!
# Cardinal polynomials and the codes they generate

A systematic evaluation code stores a message `x 0, …, x (k-1)` as the values of the one
polynomial of degree below `k` that takes those values at the first `k` points.  Its generator
rows are the values of the *cardinal* polynomials, the ones that are `1` at their own point and
`0` at the other `k - 1`.  This file has the two facts an implementation needs:

* `cardinal_of_synthetic` — Horner-style synthetic division of the node polynomial yields the
  cardinal polynomials, so a coefficient table filled that way is what it should be;
* `leadingRegular_of_cardinal` — a matrix whose row `i` is either the unit row `i` or the row of
  a point beyond the first `k`, no point used twice, can be inverted without pivoting.
-/

namespace Interpolation

open Polynomial Finset

variable {F : Type*} [Field F]

/-- The polynomial with coefficients `b 0, …, b (k-1)`. -/
noncomputable def ofCoeffs (k : ℕ) (b : ℕ → F) : F[X] :=
  ∑ i ∈ range k, C (b i) * X ^ i

/-- `L j` has degree below `k`, is `1` at point `j` and `0` at the other points below `k`. -/
structure Cardinal (k : ℕ) (pts : ℕ → F) (L : ℕ → F[X]) : Prop where
  degree_lt : ∀ j < k, (L j).degree < k
  eval_node : ∀ i < k, ∀ j < k, (L j).eval (pts i) = if i = j then 1 else 0

lemma degree_ofCoeffs_lt (k : ℕ) (b : ℕ → F) : (ofCoeffs k b).degree < k := by
  refine lt_of_le_of_lt (degree_sum_le _ _) ?_
  refine (Finset.sup_lt_iff (by exact_mod_cast WithBot.bot_lt_coe k)).mpr fun i hi => ?_
  exact lt_of_le_of_lt (degree_C_mul_X_pow_le i (b i)) (by exact_mod_cast mem_range.mp hi)

lemma ofCoeffs_congr {k : ℕ} {b b' : ℕ → F} (h : ∀ i < k, b i = b' i) :
    ofCoeffs k b = ofCoeffs k b' :=
  sum_congr rfl fun i hi => by rw [h i (mem_range.mp hi)]

lemma eval_ofCoeffs (k : ℕ) (b : ℕ → F) (z : F) :
    (ofCoeffs k b).eval z = ∑ i ∈ range k, b i * z ^ i := by
  simp [ofCoeffs, eval_finsetSum]

/-- The node polynomial `(X - p 0) ⋯ (X - p (k-1))`.  It is monic of degree `k`, and its roots are
the nodes; leaving one factor out gives, up to a constant, the cardinal polynomial of that node.
-/
noncomputable def nodePoly (k : ℕ) (pts : ℕ → F) : F[X] :=
  ∏ i ∈ range k, (X - C (pts i))

lemma eval_nodePoly_node {k : ℕ} (pts : ℕ → F) {i : ℕ} (hi : i < k) :
    (nodePoly k pts).eval (pts i) = 0 := by
  rw [nodePoly, eval_prod]
  exact prod_eq_zero (mem_range.mpr hi) (by simp)

/-! ## Synthetic division

The implementation divides a polynomial whose leading coefficient it does not store, so the
coefficients are those below the leading one.  The recurrence runs from the top, and what it leaves
over at the end is the value of the polynomial at the node.
-/

/-- Dividing `X ^ (k+1) + Σ c i X ^ i` by `X - p`: the quotient's coefficients satisfy Horner's
recurrence, and the remainder is the constant term. -/
lemma synthetic_mul {k : ℕ} (c b : ℕ → F) (p : F) (htop : b k = 1)
    (hrec : ∀ i < k, b i = c (i + 1) + p * b (i + 1)) :
    (X - C p) * ofCoeffs (k + 1) b
      = X ^ (k + 1) + ofCoeffs (k + 1) c - C (c 0 + p * b 0) := by
  have hshift : X * ofCoeffs (k + 1) b = X ^ (k + 1) + ∑ i ∈ range k, C (b i) * X ^ (i + 1) := by
    rw [ofCoeffs, mul_sum, sum_range_succ, htop, add_comm, C_1, one_mul, ← pow_succ']
    refine congrArg _ (sum_congr rfl fun i _ => ?_)
    rw [pow_succ']
    ring
  have hc : ofCoeffs (k + 1) c = ∑ i ∈ range k, C (c (i + 1)) * X ^ (i + 1) + C (c 0) := by
    rw [ofCoeffs, sum_range_succ', pow_zero, mul_one]
  have hb : C p * ofCoeffs (k + 1) b
      = ∑ i ∈ range k, C (p * b (i + 1)) * X ^ (i + 1) + C (p * b 0) := by
    rw [ofCoeffs, mul_sum, sum_range_succ', pow_zero, mul_one, ← C_mul]
    refine congrArg (· + _) (sum_congr rfl fun i _ => ?_)
    rw [C_mul, mul_assoc]
  have hsum : ∑ i ∈ range k, C (b i) * X ^ (i + 1)
      = ∑ i ∈ range k, C (c (i + 1)) * X ^ (i + 1)
        + ∑ i ∈ range k, C (p * b (i + 1)) * X ^ (i + 1) := by
    rw [← sum_add_distrib]
    refine sum_congr rfl fun i hi => ?_
    rw [hrec i (mem_range.mp hi), C_add, add_mul]
  rw [sub_mul, hshift, hb, hc, hsum, C_add]
  abel

/-- Multiplying `X ^ (k+1) + Σ c i X ^ i`, a multiple of `X`, by `X - p` and dividing by `X`: the
step of the loop that builds a node polynomial aligned to its leading term. -/
lemma synthetic_step {k : ℕ} {c d : ℕ → F} {p : F} (h0 : c 0 = 0)
    (hrec : ∀ i < k, d i = c i - p * c (i + 1)) (htop : d k = c k - p) :
    (X - C p) * (X ^ (k + 1) + ofCoeffs (k + 1) c) = X * (X ^ (k + 1) + ofCoeffs (k + 1) d) := by
  set b : ℕ → F := fun i => if i = k + 1 then 1 else c i with hb
  set e : ℕ → F := fun i => if i = 0 then 0 else d (i - 1) with he
  have hsyn := synthetic_mul (k := k + 1) e b p (by simp [hb]) (by
    intro i hi
    rcases Nat.lt_succ_iff_lt_or_eq.mp hi with hi | rfl
    · simp only [hb, he, show i ≠ k + 1 by omega, show i + 1 ≠ k + 1 by omega, if_false,
        Nat.add_one_ne_zero, Nat.add_sub_cancel, hrec i hi]
      ring
    · simp [hb, he, htop])
  have hleft : ofCoeffs (k + 1 + 1) b = X ^ (k + 1) + ofCoeffs (k + 1) c := by
    rw [ofCoeffs, sum_range_succ, add_comm]
    congr 1
    · simp [hb]
    · refine sum_congr rfl fun i hi => ?_
      simp [hb, (mem_range.mp hi).ne]
  have hright : ofCoeffs (k + 1 + 1) e = X * ofCoeffs (k + 1) d := by
    rw [ofCoeffs, sum_range_succ', ofCoeffs, mul_sum]
    simp only [he, if_true, C_0, zero_mul, add_zero, Nat.add_one_ne_zero, if_false,
      Nat.add_sub_cancel]
    exact sum_congr rfl fun i _ => by ring
  have hrem : e 0 + p * b 0 = 0 := by simp [hb, he, h0]
  rw [← hleft, hsyn, hright, hrem, C_0, sub_zero, mul_add, ← pow_succ']

/-- The quotient of the node polynomial by one of its factors: it vanishes at the other nodes and
not at its own. -/
lemma eval_quotient {k : ℕ} {pts : ℕ → F} (hinj : Set.InjOn pts (Set.Iio k)) {r : ℕ} (hr : r < k)
    {B : F[X]} (hB : (X - C (pts r)) * B = nodePoly k pts) :
    (∀ i < k, i ≠ r → B.eval (pts i) = 0) ∧ B.eval (pts r) ≠ 0 := by
  have hB' : B = ∏ i ∈ (range k).erase r, (X - C (pts i)) := by
    apply mul_left_cancel₀ (X_sub_C_ne_zero (pts r))
    rw [hB, nodePoly, mul_prod_erase _ (fun i => X - C (pts i)) (mem_range.mpr hr)]
  constructor
  · intro i hi hir
    rw [hB', eval_prod]
    exact prod_eq_zero (mem_erase.mpr ⟨hir, mem_range.mpr hi⟩) (by simp)
  · rw [hB', eval_prod]
    refine prod_ne_zero_iff.mpr fun i hi => ?_
    simp only [eval_sub, eval_X, eval_C]
    refine sub_ne_zero.mpr fun h => ne_of_mem_erase hi ?_
    exact (hinj hr (mem_range.mp (mem_of_mem_erase hi)) h).symm

/-- **Synthetic division yields the cardinal polynomials.**  `c` holds the coefficients of the
node polynomial below its leading one; `b r` is Horner's recurrence for node `r`, and `t r` the
value of the quotient at its own node. -/
theorem cardinal_of_synthetic {k : ℕ} {pts : ℕ → F} (hinj : Set.InjOn pts (Set.Iio (k + 1)))
    {c : ℕ → F} (hc : X ^ (k + 1) + ofCoeffs (k + 1) c = nodePoly (k + 1) pts)
    {b : ℕ → ℕ → F} (htop : ∀ r, b r k = 1)
    (hrec : ∀ r < k + 1, ∀ i < k, b r i = c (i + 1) + pts r * b r (i + 1))
    {t : ℕ → F} (ht : ∀ r < k + 1, t r = (ofCoeffs (k + 1) (b r)).eval (pts r)) :
    Cardinal (k + 1) pts fun r => ofCoeffs (k + 1) fun i => (t r)⁻¹ * b r i := by
  have hscale : ∀ r z, (ofCoeffs (k + 1) fun i => (t r)⁻¹ * b r i).eval z
      = (t r)⁻¹ * (ofCoeffs (k + 1) (b r)).eval z := by
    intro r z
    rw [eval_ofCoeffs, eval_ofCoeffs, mul_sum]
    exact sum_congr rfl fun i _ => by ring
  have hquot : ∀ r < k + 1,
      (X - C (pts r)) * ofCoeffs (k + 1) (b r) = nodePoly (k + 1) pts := by
    intro r hr
    have hsyn := synthetic_mul c (b r) (pts r) (htop r) (hrec r hr)
    rw [hc] at hsyn
    -- the remainder is the node polynomial's value at its own root
    have hrem : c 0 + pts r * b r 0 = 0 := by
      have hval := congrArg (eval (pts r)) hsyn
      rw [eval_sub, eval_nodePoly_node pts hr, eval_mul, eval_sub, eval_X, eval_C, sub_self,
        zero_mul, eval_C, zero_sub] at hval
      exact neg_eq_zero.mp hval.symm
    rw [hsyn, hrem, C_0, sub_zero]
  refine ⟨fun j _ => degree_ofCoeffs_lt _ _, fun i hi j hj => ?_⟩
  obtain ⟨hother, hown⟩ := eval_quotient hinj hj (hquot j hj)
  rw [hscale]
  split_ifs with hij
  · subst hij
    rw [← ht i hi]
    exact inv_mul_cancel₀ (by rwa [ht i hi])
  · rw [hother i hi hij, mul_zero]

/-! ## Any `k` points determine the message

A polynomial of degree below `k` with `k` roots is zero.  For a decoder that means that a matrix
whose rows are the values at `k` distinct points has no kernel, and the same argument on the first
`m` slots gives the stronger fact that its leading blocks have none.
-/

/-- The interpolation polynomial of a message. -/
noncomputable def combine (k : ℕ) (L : ℕ → F[X]) (x : ℕ → F) : F[X] :=
  ∑ j ∈ range k, C (x j) * L j

lemma degree_combine_lt {k : ℕ} {pts : ℕ → F} {L : ℕ → F[X]}
    (hL : Cardinal k pts L) (x : ℕ → F) : (combine k L x).degree < k := by
  refine lt_of_le_of_lt (degree_sum_le _ _) ?_
  refine (Finset.sup_lt_iff (by exact_mod_cast WithBot.bot_lt_coe k)).mpr fun j hj => ?_
  rw [← smul_eq_C_mul]
  exact lt_of_le_of_lt (degree_smul_le _ _) (hL.degree_lt j (mem_range.mp hj))

lemma eval_combine (k : ℕ) (L : ℕ → F[X]) (x : ℕ → F) (z : F) :
    (combine k L x).eval z = ∑ j ∈ range k, (L j).eval z * x j := by
  simp [combine, eval_finsetSum, mul_comm]

/-- At a node the interpolation polynomial takes the message's value. -/
lemma eval_combine_node {k : ℕ} {pts : ℕ → F} {L : ℕ → F[X]} (hL : Cardinal k pts L)
    (x : ℕ → F) {i : ℕ} (hi : i < k) : (combine k L x).eval (pts i) = x i := by
  rw [eval_combine, sum_eq_single i]
  · rw [hL.eval_node i hi i hi]
    simp
  · intro j hj hji
    rw [hL.eval_node i hi j (mem_range.mp hj)]
    simp [hji.symm]
  · intro h
    exact absurd (mem_range.mpr hi) h

/-- **Decoding matrices need no pivoting.**  Slot `i` holds either its own node or a point beyond
the first `k`; the slots hold distinct points.  Then every leading block of the matrix of values
is injective: a vector it kills, supported on the first `m` slots, interpolates to a polynomial
with `k` roots. -/
theorem leadingRegular_of_cardinal {k n : ℕ} {pts : ℕ → F} (hinj : Set.InjOn pts (Set.Iio n))
    (hkn : k ≤ n) {L : ℕ → F[X]} (hL : Cardinal k pts L) {ids : ℕ → ℕ}
    (hids : ∀ i < k, ids i = i ∨ k ≤ ids i) (hlt : ∀ i < k, ids i < n)
    (hdist : Set.InjOn ids (Set.Iio k)) :
    Sweep.LeadingRegular k fun i j => (L j).eval (pts (ids i)) := by
  classical
  intro m hm x hsupp hker j
  rcases le_or_gt k j with hkj | hjk
  · exact hsupp j (hm.trans hkj)
  -- the first `m` slots' own points, then the remaining nodes
  set τ : ℕ → ℕ := fun i => if i < m then ids i else i with hτ
  have hτlt : ∀ i < k, τ i < n := fun i hi => by
    simp only [hτ]
    split_ifs
    · exact hlt i hi
    · omega
  have hτinj : Set.InjOn τ (Set.Iio k) := by
    intro a ha b hb hab
    have ha' : a < k := ha
    have hb' : b < k := hb
    simp only [hτ] at hab
    split_ifs at hab with h1 h2 h2
    · exact hdist ha hb hab
    · rcases hids a ha' with h | h <;> omega
    · rcases hids b hb' with h | h <;> omega
    · exact hab
  have hroot : ∀ i < k, (combine k L x).eval (pts (τ i)) = 0 := by
    intro i hi
    by_cases him : i < m
    · have hk' := hker i him
      rw [eval_combine]
      simpa [hτ, him, Sweep.mulVec] using hk'
    · simp only [hτ, him, if_false]
      rw [eval_combine_node hL x hi]
      exact hsupp i (not_lt.mp him)
  have hzero : combine k L x = 0 := by
    refine eq_zero_of_degree_lt_of_eval_finset_eq_zero ((range k).image (pts ∘ τ)) ?_ ?_
    · rw [card_image_of_injOn, card_range]
      · exact degree_combine_lt hL x
      · intro a ha b hb hab
        have ha' : a < k := mem_range.mp ha
        have hb' : b < k := mem_range.mp hb
        exact hτinj ha' hb' (hinj (hτlt a ha') (hτlt b hb') hab)
    · intro z hz
      obtain ⟨i, hi, rfl⟩ := mem_image.mp hz
      exact hroot i (mem_range.mp hi)
  rw [← eval_combine_node hL x hjk, hzero, eval_zero]

end Interpolation
