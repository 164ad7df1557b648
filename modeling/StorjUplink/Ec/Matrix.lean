import StorjUplink.Ec.Gf
import StorjUplink.Lib.Interpolation

/-!
# The two matrix routines of `gf.rs`

`create_inverted_vdm` fills a buffer with the coefficients of the cardinal polynomials of the
points `0, g, g², …`, and `invert_matrix` inverts a flat row-major matrix in place.  Both are
modelled as the loops over buffers they are, the pivot search with its fallback included.

What is proved of them is what the codec needs.  The first loop of `create_inverted_vdm` keeps
`X ^ k + Σ c[j] X ^ j = X ^ (k-1-i) · Π (X - p l)` (`VdmCoeffs`), so it ends with the node
polynomial, and the second is synthetic division by one node at a time.  For `invert_matrix`, on a
matrix with injective leading blocks, every pivot is found on the diagonal and one turn of the
loop is one `Sweep.sweep`.
-/

namespace Storj.Ec

open Buffer Polynomial

/-! ## `addmul`

The one inner loop of the codec: a multiple of one slice is added to another.  A factor of zero
returns early, with the same result.
-/

/-- `addmul_scalar`: `z[i] ^= y * x[i]` over the zip of the two slices. -/
def addmulScalar (z x : List UInt8) (y : UInt8) : List UInt8 :=
  List.zipWith (fun zi xi => zi ^^^ mulAt y xi) z x ++ z.drop x.length

/-- `addmul` on a host without vector instructions; `x` is at least as long as `z`. -/
def addmul (z x : List UInt8) (y : UInt8) : List UInt8 :=
  if y = 0 ∨ z = [] then z else addmulScalar z (x.take z.length) y

lemma length_addmulScalar (z x : List UInt8) (y : UInt8) :
    (addmulScalar z x y).length = z.length := by
  simp only [addmulScalar, List.length_append, List.length_zipWith, List.length_drop]
  omega

lemma getD_addmulScalar {z x : List UInt8} (y : UInt8) {p : ℕ} (hz : p < z.length)
    (hx : p < x.length) :
    (addmulScalar z x y).getD p 0 = z.getD p 0 ^^^ mulAt y (x.getD p 0) := by
  have hlen : p < (List.zipWith (fun zi xi => zi ^^^ mulAt y xi) z x).length := by
    simp only [List.length_zipWith]
    omega
  rw [addmulScalar, List.getD_append _ _ _ _ hlen, List.getD_eq_getElem _ _ hlen,
    List.getElem_zipWith, List.getD_eq_getElem _ _ hz, List.getD_eq_getElem _ _ hx]

@[simp] lemma length_addmul (z x : List UInt8) (y : UInt8) : (addmul z x y).length = z.length := by
  unfold addmul
  split_ifs
  · rfl
  · exact length_addmulScalar _ _ _

/-- What one `addmul` does to each byte. -/
lemma getD_addmul {z x : List UInt8} (y : UInt8) (hlen : z.length ≤ x.length) {p : ℕ}
    (hp : p < z.length) :
    (addmul z x y).getD p 0 = z.getD p 0 ^^^ mulAt y (x.getD p 0) := by
  unfold addmul
  split_ifs with h
  · rcases h with rfl | rfl
    · simp [mulAt_zero_left]
    · simp at hp
  · rw [getD_addmulScalar y hp (by rw [List.length_take]; omega)]
    simp [List.getD_eq_getElem?_getD, hp]

/-! ## `create_inverted_vdm`

Two loops.  The first multiplies the linear factors of all points into one polynomial, in place;
the second divides it by each factor in turn and scales the quotient.
-/

/-- One turn of its first loop: multiply the polynomial held in `c` by `X + exp[i]`. -/
def vdmCoeffStep (k : ℕ) (c : List UInt8) (i : ℕ) : List UInt8 :=
  let c := (List.range' (k - i) (i - 1)).foldl
    (fun c j => c.set j (c.getD j 0 ^^^ mulAt (expAt i) (c.getD (j + 1) 0))) c
  c.set (k - 1) (c.getD (k - 1) 0 ^^^ expAt i)

/-- The first loop, `for i in 1..k`. -/
def vdmCoeffs (k : ℕ) : List UInt8 :=
  (List.range (k - 1)).foldl (fun c i => vdmCoeffStep k c (i + 1)) (List.replicate k 0)

/-- The point that `row` stands for: `0`, then the powers of the generator. -/
def vdmPoint (row : ℕ) : UInt8 := if row = 0 then 0 else expAt row

/-- The division loop of one row, `for i in (0..k - 1).rev()`: the quotient `b` and its value `t`
at the row's point. -/
def vdmDivide (k : ℕ) (c b : List UInt8) (row : ℕ) : List UInt8 × UInt8 :=
  (List.range (k - 1)).reverse.foldl
    (fun s i =>
      let bi := c.getD (i + 1) 0 ^^^ mulAt (vdmPoint row) (s.1.getD (i + 1) 0)
      (s.1.set i bi, bi ^^^ mulAt (vdmPoint row) s.2))
    (b.set (k - 1) 1, 1)

/-- One turn of the second loop: divide, then store the scaled quotient as column `row`. -/
def vdmRowStep (k : ℕ) (c : List UInt8) (s : List UInt8 × List UInt8) (row : ℕ) :
    List UInt8 × List UInt8 :=
  let d := vdmDivide k c s.2 row
  let vdm := (List.range k).foldl
    (fun vdm col => vdm.set (col * k + row) (mulAt (inverseAt d.2) (d.1.getD col 0))) s.1
  (vdm, d.1)

/-- `create_inverted_vdm`. -/
def createInvertedVdm (vdm : List UInt8) (k : ℕ) : List UInt8 :=
  if k = 1 then vdm.set 0 1
  else ((List.range k).foldl (vdmRowStep k (vdmCoeffs k)) (vdm, List.replicate k 0)).1

/-! ### What `create_inverted_vdm` computes

The first loop is followed through its coefficients, the second by synthetic division.  A column of
the result is a cardinal polynomial, its coefficients from the constant one upwards.
-/

/-- Byte `j` of a buffer, as a field element. -/
def coeffAt (l : List UInt8) (j : ℕ) : Gf := ⟨l.getD j 0⟩

/-- Cell `(i, j)` of a row-major matrix with rows of length `k`, as a field element. -/
def entry (m : List UInt8) (k i j : ℕ) : Gf := ⟨m.getD (i * k + j) 0⟩

/-- The evaluation points of the code: `0, g, g², …, g²⁵⁵`. -/
def points (r : ℕ) : Gf := if r = 0 then 0 else Gf.gen ^ r

lemma points_eq {r : ℕ} (hr : r < 256) : (⟨vdmPoint r⟩ : Gf) = points r := by
  unfold vdmPoint points
  split_ifs
  · rfl
  · exact expAt_eq_gen_pow (by omega)

/-- The points of the code are distinct right up to the last. -/
lemma points_injOn : Set.InjOn points (Set.Iio 256) := by
  have hne : ∀ i : ℕ, Gf.gen ^ i ≠ 0 := fun i h =>
    antilog_ne_zero i (congrArg Gf.val ((Gf.gen_pow i).symm.trans h))
  intro i hi j hj hij
  simp only [Set.mem_Iio] at hi hj
  unfold points at hij
  split_ifs at hij with h1 h2 h2
  · omega
  · exact absurd hij.symm (hne j)
  · exact absurd hij (hne i)
  · exact gen_pow_injOn ⟨by omega, by omega⟩ ⟨by omega, by omega⟩ hij

/-- The inner loop reads each neighbour before it is overwritten. -/
lemma getD_shiftLoop (p : UInt8) (c : List UInt8) {a m : ℕ} (h : a + m < c.length) :
    let c' := (List.range' a m).foldl
      (fun c j => c.set j (c.getD j 0 ^^^ mulAt p (c.getD (j + 1) 0))) c
    c'.length = c.length ∧ ∀ q, c'.getD q 0 =
      if a ≤ q ∧ q < a + m then c.getD q 0 ^^^ mulAt p (c.getD (q + 1) 0) else c.getD q 0 := by
  rw [List.range'_eq_map_range, List.foldl_map]
  refine foldl_range_induction (P := fun d (t : List UInt8) => t.length = c.length ∧ ∀ q, t.getD q 0 =
      if a ≤ q ∧ q < a + d then c.getD q 0 ^^^ mulAt p (c.getD (q + 1) 0) else c.getD q 0) ?_ ?_
  · refine ⟨rfl, fun q => ?_⟩
    rw [if_neg (by omega)]
  · rintro d hd t ⟨hlen, hget⟩
    refine ⟨by rw [List.length_set, hlen], fun q => ?_⟩
    rcases eq_or_ne (a + d) q with rfl | hq
    · rw [getD_set_self (by omega), hget, hget, if_neg (by omega), if_neg (by omega),
        if_pos (by omega)]
    · rw [getD_set_ne hq, hget]
      congr 1
      simp only [eq_iff_iff]
      omega

/-- The buffer `c` after the points `0, …, i`: the node polynomial, aligned to its leading term. -/
structure VdmCoeffs (k i : ℕ) (c : List UInt8) : Prop where
  length_eq : c.length = k + 1
  low : ∀ j < k + 1 - i, coeffAt c j = 0
  poly_eq : X ^ (k + 1) + Interpolation.ofCoeffs (k + 1) (coeffAt c)
    = X ^ (k - i) * Interpolation.nodePoly (i + 1) points

lemma VdmCoeffs.zero (k : ℕ) : VdmCoeffs k 0 (List.replicate (k + 1) 0) := by
  have h0 : coeffAt (List.replicate (k + 1) 0) = fun _ => 0 := by
    funext j
    refine Gf.ext ?_
    simp only [coeffAt, List.getD_eq_getElem?_getD, List.getElem?_replicate]
    split_ifs <;> rfl
  refine ⟨List.length_replicate, fun j _ => by rw [h0], ?_⟩
  rw [h0]
  simp [Interpolation.ofCoeffs, Interpolation.nodePoly, points, pow_succ]

/-- What one turn does to each coefficient. -/
lemma coeffAt_vdmCoeffStep {k i : ℕ} {c : List UInt8} (hlen : c.length = k + 1)
    (hlow : ∀ j < k + 1 - i, coeffAt c j = 0) (hi : i < k) (hk : k < 256) :
    (∀ j < k, coeffAt (vdmCoeffStep (k + 1) c (i + 1)) j
        = coeffAt c j + points (i + 1) * coeffAt c (j + 1)) ∧
      coeffAt (vdmCoeffStep (k + 1) c (i + 1)) k = coeffAt c k + points (i + 1) := by
  have hpt : points (i + 1) = ⟨expAt (i + 1)⟩ := by
    rw [← points_eq (by omega)]
    rfl
  obtain ⟨hlen', hget⟩ := getD_shiftLoop (expAt (i + 1)) c (a := k + 1 - (i + 1)) (m := i)
    (by omega)
  constructor
  · intro j hj
    rw [hpt]
    simp only [vdmCoeffStep, coeffAt, Nat.add_sub_cancel]
    rw [getD_set_ne hj.ne', hget]
    split_ifs with hin
    · rfl
    · -- below the window both coefficients are still zero
      have h1 := hlow j (by omega)
      have h2 := hlow (j + 1) (by omega)
      simp only [coeffAt] at h1 h2
      rw [h1, h2, mul_zero, add_zero]
  · rw [hpt]
    simp only [vdmCoeffStep, coeffAt, Nat.add_sub_cancel]
    rw [getD_set_self (by omega), hget, if_neg (by omega)]
    rfl

lemma length_vdmCoeffStep {k i : ℕ} {c : List UInt8} (hlen : c.length = k + 1) (hi : i < k) :
    (vdmCoeffStep (k + 1) c (i + 1)).length = k + 1 := by
  obtain ⟨hlen', -⟩ := getD_shiftLoop (expAt (i + 1)) c (a := k + 1 - (i + 1)) (m := i) (by omega)
  simp only [vdmCoeffStep, List.length_set, Nat.add_sub_cancel]
  omega

lemma VdmCoeffs.step {k i : ℕ} {c : List UInt8} (hi : i < k) (hk : k < 256)
    (h : VdmCoeffs k i c) : VdmCoeffs k (i + 1) (vdmCoeffStep (k + 1) c (i + 1)) := by
  obtain ⟨hrec, htop⟩ := coeffAt_vdmCoeffStep h.length_eq h.low hi hk
  refine ⟨length_vdmCoeffStep h.length_eq hi, fun j hj => ?_, ?_⟩
  · rw [hrec j (by omega), h.low j (by omega), h.low (j + 1) (by omega), mul_zero, add_zero]
  · have hstep := Interpolation.synthetic_step (k := k) (c := coeffAt c)
      (d := coeffAt (vdmCoeffStep (k + 1) c (i + 1))) (p := points (i + 1))
      (h.low 0 (by omega)) (fun j hj => by rw [hrec j hj, Gf.sub_eq_add'])
      (by rw [htop, Gf.sub_eq_add'])
    apply mul_left_cancel₀ (X_ne_zero (R := Gf))
    rw [← hstep, h.poly_eq, Interpolation.nodePoly, Interpolation.nodePoly,
      Finset.prod_range_succ _ (i + 1), show k - i = k - (i + 1) + 1 by omega, pow_succ]
    ring

/-- **The first loop ends with the node polynomial.** -/
lemma vdmCoeffs_poly {k : ℕ} (hk : k < 256) :
    X ^ (k + 1) + Interpolation.ofCoeffs (k + 1) (coeffAt (vdmCoeffs (k + 1)))
      = Interpolation.nodePoly (k + 1) points := by
  have h : VdmCoeffs k k (vdmCoeffs (k + 1)) :=
    foldl_range_induction (P := fun i c => VdmCoeffs k i c) (VdmCoeffs.zero k)
      fun i hi c hc => hc.step hi hk
  rw [h.poly_eq, Nat.sub_self, pow_zero, one_mul]

/-- The coefficients of the quotient by `X - p`, from the leading one down. -/
def quotientFromTop (k : ℕ) (c : ℕ → Gf) (p : Gf) : ℕ → Gf
  | 0 => 1
  | m + 1 => c (k - m) + p * quotientFromTop k c p m

/-- The coefficients of the quotient by `X - p`. -/
def quotient (k : ℕ) (c : ℕ → Gf) (p : Gf) (j : ℕ) : Gf := quotientFromTop k c p (k - j)

lemma quotient_rec (k : ℕ) (c : ℕ → Gf) (p : Gf) {j : ℕ} (hj : j < k) :
    quotient k c p j = c (j + 1) + p * quotient k c p (j + 1) := by
  unfold quotient
  rw [show k - j = k - (j + 1) + 1 by omega, quotientFromTop, show k - (k - (j + 1)) = j + 1 by omega]

/-- **The division loop** leaves the quotient in `b` and its value at the point in `t`. -/
lemma vdmDivide_spec {k row : ℕ} (c : List UInt8) {b : List UInt8} (hb : b.length = k + 1)
    (hrow : row < 256) :
    let d := vdmDivide (k + 1) c b row
    d.1.length = k + 1 ∧ (∀ j ≤ k, coeffAt d.1 j = quotient k (coeffAt c) (points row) j) ∧
      (⟨d.2⟩ : Gf) = (Interpolation.ofCoeffs (k + 1)
        (quotient k (coeffAt c) (points row))).eval (points row) := by
  set q := quotient k (coeffAt c) (points row) with hq
  have hinv := foldl_range_reverse_induction
    (f := fun (s : List UInt8 × UInt8) i =>
      let bi := c.getD (i + 1) 0 ^^^ mulAt (vdmPoint row) (s.1.getD (i + 1) 0)
      (s.1.set i bi, bi ^^^ mulAt (vdmPoint row) s.2))
    (P := fun m s => s.1.length = k + 1 ∧ (∀ j, m ≤ j → j ≤ k → coeffAt s.1 j = q j) ∧
      (⟨s.2⟩ : Gf) = ∑ i ∈ Finset.range (k + 1 - m), q (m + i) * points row ^ i)
    (s := (b.set k 1, 1)) (n := k) ?_ ?_
  · obtain ⟨hlen, hcoeff, hval⟩ := hinv
    refine ⟨hlen, fun j hj => hcoeff j (Nat.zero_le j) hj, ?_⟩
    rw [Interpolation.eval_ofCoeffs]
    simp only [Nat.sub_zero, Nat.zero_add] at hval
    exact hval
  · refine ⟨by simpa using hb, fun j hj hjk => ?_, ?_⟩
    · obtain rfl : j = k := le_antisymm hjk hj
      refine Gf.ext ((getD_set_self (by omega) _ _).trans ?_)
      simp [hq, quotient, quotientFromTop]
    · simp only [Nat.add_sub_cancel_left, Finset.range_one, Finset.sum_singleton, add_zero,
        pow_zero, mul_one]
      simp only [hq, quotient, Nat.sub_self, quotientFromTop]
      rfl
  · rintro m hm s ⟨hlen, hcoeff, hval⟩
    have hnew : (⟨c.getD (m + 1) 0 ^^^ mulAt (vdmPoint row) (s.1.getD (m + 1) 0)⟩ : Gf) = q m := by
      rw [hq, quotient_rec k _ _ hm, ← hq, ← hcoeff (m + 1) le_rfl (by omega),
        ← points_eq hrow]
      rfl
    refine ⟨by simpa using hlen, fun j hj hjk => ?_, ?_⟩
    · rcases eq_or_lt_of_le hj with rfl | hj
      · rw [← hnew]
        exact Gf.ext (getD_set_self (by omega) _ _)
      · rw [← hcoeff j hj hjk]
        exact Gf.ext (getD_set_ne hj.ne _ _)
    · -- Horner's step at the point
      have hhorner : (⟨c.getD (m + 1) 0 ^^^ mulAt (vdmPoint row) (s.1.getD (m + 1) 0)
          ^^^ mulAt (vdmPoint row) s.2⟩ : Gf) = q m + points row * ⟨s.2⟩ := by
        rw [← hnew, ← points_eq hrow]
        rfl
      refine hhorner.trans ?_
      rw [hval, show k + 1 - m = k + 1 - (m + 1) + 1 by omega, Finset.sum_range_succ',
        Finset.mul_sum, add_comm]
      congr 1
      · refine Finset.sum_congr rfl fun i _ => ?_
        rw [show m + 1 + i = m + (i + 1) by omega]
        ring
      · simp

/-- The entry that `create_inverted_vdm` stores for coefficient `col` of cardinal `row`. -/
noncomputable def cardinalCoeff (k row col : ℕ) : Gf :=
  let q := quotient k (coeffAt (vdmCoeffs (k + 1))) (points row)
  ((Interpolation.ofCoeffs (k + 1) q).eval (points row))⁻¹ * q col

/-- One row of the second loop fills its column and leaves the others. -/
lemma vdmRowStep_spec {k row : ℕ} {s : List UInt8 × List UInt8} (hb : s.2.length = k + 1)
    (hv : (k + 1) * (k + 1) ≤ s.1.length) (hk : k < 256) (hrow : row ≤ k) :
    let s' := vdmRowStep (k + 1) (vdmCoeffs (k + 1)) s row
    s'.2.length = k + 1 ∧ s'.1.length = s.1.length ∧
      (∀ col ≤ k, entry s'.1 (k + 1) col row = cardinalCoeff k row col) ∧
      ∀ col ≤ k, ∀ r ≤ k, r ≠ row → entry s'.1 (k + 1) col r = entry s.1 (k + 1) col r := by
  obtain ⟨hlen, hcoeff, hval⟩ := vdmDivide_spec (vdmCoeffs (k + 1)) hb (show row < 256 by omega)
  set d := vdmDivide (k + 1) (vdmCoeffs (k + 1)) s.2 row with hd
  have hinv := foldl_range_induction
    (f := fun (vdm : List UInt8) col =>
      vdm.set (col * (k + 1) + row) (mulAt (inverseAt d.2) (d.1.getD col 0)))
    (P := fun m v => v.length = s.1.length ∧
      (∀ col < m, entry v (k + 1) col row = (⟨d.2⟩ : Gf)⁻¹ * coeffAt d.1 col) ∧
      ∀ col ≤ k, ∀ r ≤ k, r ≠ row → entry v (k + 1) col r = entry s.1 (k + 1) col r)
    (s := s.1) (n := k + 1) ⟨rfl, by simp, by simp⟩ ?_
  · obtain ⟨hlen', hfill, hother⟩ := hinv
    refine ⟨hlen, hlen', fun col hcol => ?_, hother⟩
    rw [cardinalCoeff, ← hval, ← hcoeff col hcol]
    exact hfill col (by omega)
  · rintro m hm v ⟨hlen', hfill, hother⟩
    have hbound := rowMajor_le (k := k + 1) hm
    refine ⟨by simpa using hlen', fun col hcol => ?_, fun col hcol r hr hne => ?_⟩
    · rcases Nat.lt_succ_iff_lt_or_eq.mp hcol with hcol | rfl
      · rw [← hfill col hcol]
        refine Gf.ext (getD_set_ne (fun h => ?_) _ _)
        exact hcol.ne' (rowMajor_inj (by omega) (by omega) h).1
      · exact Gf.ext (getD_set_self (by omega) _ _)
    · rw [← hother col hcol r hr hne]
      refine Gf.ext (getD_set_ne (fun h => ?_) _ _)
      exact hne (rowMajor_inj (by omega) (by omega) h).2.symm

/-- Every column holds its cardinal polynomial. -/
lemma entry_createInvertedVdm {k : ℕ} (hk : k < 256) {vdm : List UInt8}
    (hv : (k + 1) * (k + 1) ≤ vdm.length) :
    (createInvertedVdm vdm (k + 1)).length = vdm.length ∧ ∀ row ≤ k, ∀ col ≤ k,
      entry (createInvertedVdm vdm (k + 1)) (k + 1) col row = cardinalCoeff k row col := by
  unfold createInvertedVdm
  split_ifs with hk1
  · -- a single point: the constant polynomial `1`
    obtain rfl : k = 0 := by omega
    refine ⟨List.length_set, fun row hrow col hcol => ?_⟩
    obtain rfl : row = 0 := by omega
    obtain rfl : col = 0 := by omega
    refine (Gf.ext (getD_set_self (by omega) _ _) : _ = (1 : Gf)).trans ?_
    simp [cardinalCoeff, quotient, quotientFromTop, Interpolation.eval_ofCoeffs]
  · have hinv := foldl_range_induction (f := vdmRowStep (k + 1) (vdmCoeffs (k + 1)))
      (P := fun r s => s.2.length = k + 1 ∧ s.1.length = vdm.length ∧
        ∀ row < r, row ≤ k → ∀ col ≤ k, entry s.1 (k + 1) col row = cardinalCoeff k row col)
      (s := (vdm, List.replicate (k + 1) 0)) (n := k + 1) ⟨List.length_replicate, rfl, by simp⟩ ?_
    · exact ⟨hinv.2.1, fun row hrow => hinv.2.2 row (by omega) hrow⟩
    · rintro r hr s ⟨hb, hlen, hfill⟩
      obtain ⟨hb', hlen', hnew, hold⟩ :=
        vdmRowStep_spec hb (by omega) hk (show r ≤ k by omega)
      refine ⟨hb', hlen'.trans hlen, fun row hrow hrow' col hcol => ?_⟩
      rcases Nat.lt_succ_iff_lt_or_eq.mp hrow with h | rfl
      · rw [hold col hcol row hrow' h.ne, hfill row h hrow' col hcol]
      · exact hnew col hcol

/-- **`create_inverted_vdm` stores the cardinal polynomials**, one to a column. -/
theorem createInvertedVdm_cardinal {k : ℕ} (hk0 : 0 < k) (hk : k ≤ 256) {vdm : List UInt8}
    (hv : k * k ≤ vdm.length) :
    Interpolation.Cardinal k points fun r =>
      Interpolation.ofCoeffs k fun i => entry (createInvertedVdm vdm k) k i r := by
  obtain ⟨k, rfl⟩ : ∃ m, k = m + 1 := ⟨k - 1, by omega⟩
  have hcard : Interpolation.Cardinal (k + 1) points fun r =>
      Interpolation.ofCoeffs (k + 1) fun i => cardinalCoeff k r i :=
    Interpolation.cardinal_of_synthetic
      (points_injOn.mono (Set.Iio_subset_Iio hk)) (vdmCoeffs_poly (by omega))
      (b := fun r => quotient k (coeffAt (vdmCoeffs (k + 1))) (points r))
      (fun r => by simp [quotient, quotientFromTop])
      (fun r _ i hi => quotient_rec k _ _ hi) (fun r _ => rfl)
  have hentry := (entry_createInvertedVdm (by omega) hv).2
  have heq : ∀ r < k + 1,
      (Interpolation.ofCoeffs (k + 1) fun i => entry (createInvertedVdm vdm (k + 1)) (k + 1) i r)
        = Interpolation.ofCoeffs (k + 1) fun i => cardinalCoeff k r i := fun r hr =>
    Interpolation.ofCoeffs_congr fun i hi => hentry r (by omega) i (by omega)
  refine ⟨fun j hj => ?_, fun i hi j hj => ?_⟩
  · rw [heq j hj]
    exact hcard.degree_lt j hj
  · rw [heq j hj]
    exact hcard.eval_node i hi j hj

/-! ## `invert_matrix`

The function of the source with its bookkeeping: three arrays for the pivots, a search, a possible
exchange of rows, the scaling of the pivot row, the reduction of the others, and the exchange of
columns at the end.
-/

/-- `search_pivot`: the diagonal entry if it is free and nonzero, else the first free nonzero entry
in row order, returned as `(icol, irow) = (row, i)`. -/
def searchPivot (ipiv : List Bool) (col : ℕ) (matrix : List UInt8) (k : ℕ) :
    Except String (List Bool × ℕ × ℕ) :=
  if !ipiv.getD col false && matrix.getD (col * k + col) 0 != 0 then
    .ok (ipiv.set col true, col, col)
  else
    let found := (List.range k).findSome? fun row =>
      if ipiv.getD row false then none
      else ((List.range k).find? fun i =>
        !ipiv.getD i false && matrix.getD (row * k + i) 0 != 0).map fun i => (row, i)
    match found with
    | some (row, i) => .ok (ipiv.set i true, row, i)
    | none => .error "pivot not found"

/-- The mutable state of `invert_matrix`: the matrix, the columns that had a pivot, and the column
and row of each pivot for the last pass. -/
structure InvertLoop where
  matrix : List UInt8
  ipiv : List Bool
  indxc : List ℕ
  indxr : List ℕ

/-- `slice.swap(a, b)`. -/
def swap (m : List UInt8) (a b : ℕ) : List UInt8 :=
  (m.set a (m.getD b 0)).set b (m.getD a 0)

/-- Scaling the pivot row: `1` in the pivot's place, then everything times the inverse pivot; a
row whose pivot is `1` is left alone. -/
def scalePivotRow (pivotRow : List UInt8) (icol : ℕ) : List UInt8 :=
  let c := pivotRow.getD icol 0
  if c ≠ 1 then (pivotRow.set icol 1).map (mulAt (inverseAt c)) else pivotRow

/-- Clearing column `icol` of every other row; skipped when the pivot row is the identity's. -/
def reduceRows (k icol : ℕ) (pivotRow matrix : List UInt8) : List UInt8 :=
  if pivotRow ≠ (List.replicate k 0).set icol 1 then
    (List.range k).foldl (fun m i =>
      if i ≠ icol then
        let coeff := m.getD (i * k + icol) 0
        let m := m.set (i * k + icol) 0
        splice m (i * k) (addmul (slice m (i * k) k) pivotRow coeff)
      else m) matrix
  else matrix

/-- One turn of the elimination loop: the search for a pivot, the exchange of two rows where it asks
for one, the scaling of the pivot row and the reduction of the others. -/
def eliminateColumn (k : ℕ) (s : InvertLoop) (col : ℕ) : Except String InvertLoop := do
  let (ipiv, icol, irow) ← searchPivot s.ipiv col s.matrix k
  let matrix := if irow ≠ icol then
      (List.range k).foldl (fun m i => swap m (irow * k + i) (icol * k + i)) s.matrix
    else s.matrix
  let pivotRow := slice matrix (icol * k) k
  if pivotRow.getD icol 0 = 0 then .error "singular matrix"
  else
    let pivotRow := scalePivotRow pivotRow icol
    .ok {
      matrix := reduceRows k icol pivotRow (splice matrix (icol * k) pivotRow)
      ipiv
      indxc := s.indxc.set col icol
      indxr := s.indxr.set col irow }

/-- The columns exchanged by the pivot search, put back. -/
def unscramble (k : ℕ) (s : InvertLoop) : List UInt8 :=
  (List.range k).foldl (fun m i =>
    if s.indxr.getD i 0 ≠ s.indxc.getD i 0 then
      (List.range k).foldl
        (fun m row => swap m (row * k + s.indxr.getD i 0) (row * k + s.indxc.getD i 0)) m
    else m) s.matrix

/-- `invert_matrix`: the elimination column by column in place, and the pass that puts the columns
back in order. -/
def invertMatrix (matrix : List UInt8) (k : ℕ) : Except String (List UInt8) := do
  let s ← (List.range k).foldlM (eliminateColumn k)
    ⟨matrix, List.replicate k false, List.replicate k 0, List.replicate k 0⟩
  .ok (unscramble k s)

/-! ### What `invert_matrix` computes

The buffer is read as a matrix cell by cell.  Scaling and reducing together are one sweep of the
exchange calculus, for whatever pivot the search returned.
-/

lemma entry_splice_self {m r : List UInt8} {k n i j : ℕ} (hm : m.length = n * k)
    (hr : r.length = k) (hi : i < n) (hj : j < k) :
    entry (splice m (i * k) r) k i j = coeffAt r j := by
  have := rowMajor_le (k := k) hi
  exact Gf.ext (getD_splice_of_mem (by omega) (by omega) _)

lemma entry_splice_of_ne {m r : List UInt8} {k n i i' j : ℕ} (hm : m.length = n * k)
    (hr : r.length = k) (hi : i < n) (hne : i' ≠ i) (hj : j < k) :
    entry (splice m (i * k) r) k i' j = entry m k i' j := by
  have := rowMajor_le (k := k) hi
  have hout := rowMajor_outside hj hne
  exact Gf.ext (getD_splice_of_notMem (by omega) (by omega) _)

lemma coeffAt_slice_row (m : List UInt8) {k i j : ℕ} (hj : j < k) :
    coeffAt (slice m (i * k) k) j = entry m k i j :=
  Gf.ext (getD_slice m (i * k) hj _)

/-- The scaled pivot row is the pivot row of a sweep. -/
lemma coeffAt_scalePivotRow {row : List UInt8} {c j : ℕ} (hc : c < row.length)
    (hj : j < row.length) :
    coeffAt (scalePivotRow row c) j
      = (coeffAt row c)⁻¹ * (if j = c then 1 else coeffAt row j) := by
  unfold scalePivotRow
  by_cases hone : row.getD c 0 = 1
  · have hc1 : coeffAt row c = 1 := Gf.ext hone
    simp only [hone, ne_eq, not_true, if_false, hc1, inv_one, one_mul]
    split_ifs with hjc
    · rw [hjc, hc1]
    · rfl
  · simp only [ne_eq, hone, not_false_eq_true, if_true]
    have hmap : coeffAt ((row.set c 1).map (mulAt (inverseAt (row.getD c 0)))) j
        = (coeffAt row c)⁻¹ * coeffAt (row.set c 1) j :=
      Gf.ext (getD_map_of_lt _ (by simpa using hj) 0 0)
    rw [hmap]
    congr 1
    split_ifs with hjc
    · subst hjc
      exact Gf.ext (getD_set_self hj _ _)
    · exact Gf.ext (getD_set_ne (Ne.symm hjc) _ _)

lemma length_scalePivotRow (row : List UInt8) (c : ℕ) :
    (scalePivotRow row c).length = row.length := by
  unfold scalePivotRow
  dsimp only
  split_ifs <;> simp

/-- Reducing one row: its pivot column is cleared, then a multiple of the pivot row added. -/
lemma entry_reduceRow {m pr : List UInt8} {k c i : ℕ} (hm : m.length = k * k)
    (hpr : pr.length = k) (hc : c < k) (hi : i < k) :
    let m' := m.set (i * k + c) 0
    let m'' := splice m' (i * k) (addmul (slice m' (i * k) k) pr (m.getD (i * k + c) 0))
    m''.length = k * k ∧
      (∀ j < k, entry m'' k i j = (if j = c then 0 else entry m k i j)
        + entry m k i c * coeffAt pr j) ∧
      ∀ i' < k, i' ≠ i → ∀ j < k, entry m'' k i' j = entry m k i' j := by
  intro m' m''
  have hrow := rowMajor_le (k := k) hi
  have hm' : m'.length = k * k := by rw [List.length_set, hm]
  have hslice : (slice m' (i * k) k).length = k := length_slice (by omega)
  have hlen : (addmul (slice m' (i * k) k) pr (m.getD (i * k + c) 0)).length = k := by
    rw [length_addmul, hslice]
  refine ⟨?_, fun j hj => ?_, fun i' hi' hne j hj => ?_⟩
  · exact (length_splice (by omega)).trans hm'
  · rw [entry_splice_self hm' hlen hi hj]
    have hadd : coeffAt (addmul (slice m' (i * k) k) pr (m.getD (i * k + c) 0)) j
        = coeffAt (slice m' (i * k) k) j + entry m k i c * coeffAt pr j :=
      Gf.ext (getD_addmul _ (by omega) (by omega))
    rw [hadd, coeffAt_slice_row m' hj]
    congr 1
    split_ifs with hjc
    · subst hjc
      exact Gf.ext (getD_set_self (by omega) _ _)
    · refine Gf.ext (getD_set_ne (fun h => hjc ?_) _ _)
      exact (rowMajor_inj hc hj h).2.symm
  · rw [entry_splice_of_ne hm' hlen hi hne hj]
    refine Gf.ext (getD_set_ne (fun h => hne ?_) _ _)
    exact (rowMajor_inj hc hj h).1.symm

/-- The reduction of all rows but the pivot's; the skipped case changes nothing either. -/
lemma entry_reduceRows {m pr : List UInt8} {k c : ℕ} (hm : m.length = k * k)
    (hpr : pr.length = k) (hc : c < k) :
    (reduceRows k c pr m).length = k * k ∧
      (∀ j < k, entry (reduceRows k c pr m) k c j = entry m k c j) ∧
      ∀ i < k, i ≠ c → ∀ j < k, entry (reduceRows k c pr m) k i j
        = (if j = c then 0 else entry m k i j) + entry m k i c * coeffAt pr j := by
  unfold reduceRows
  split_ifs with hid
  · have hinv := foldl_range_induction
      (f := fun m i =>
        if i ≠ c then
          splice (m.set (i * k + c) 0) (i * k)
            (addmul (slice (m.set (i * k + c) 0) (i * k) k) pr (m.getD (i * k + c) 0))
        else m)
      (P := fun r t => t.length = k * k ∧
        (∀ i < k, i = c ∨ r ≤ i → ∀ j < k, entry t k i j = entry m k i j) ∧
        ∀ i < r, i < k → i ≠ c → ∀ j < k,
          entry t k i j = (if j = c then 0 else entry m k i j) + entry m k i c * coeffAt pr j)
      (s := m) (n := k) ⟨hm, fun _ _ _ _ _ => rfl, by simp⟩ ?_
    · exact ⟨hinv.1, fun j hj => hinv.2.1 c hc (.inl rfl) j hj,
        fun i hi hne j hj => hinv.2.2 i hi hi hne j hj⟩
    · rintro r hr t ⟨hlen, hkeep, hdone⟩
      split_ifs with hrc
      · obtain ⟨hlen', hself, hother⟩ := entry_reduceRow hlen hpr hc hr
        refine ⟨hlen', fun i hi hir j hj => ?_, fun i hir hi hne j hj => ?_⟩
        · rw [hother i hi (by omega) j hj]
          exact hkeep i hi (by omega) j hj
        · rcases Nat.lt_succ_iff_lt_or_eq.mp hir with h | rfl
          · rw [hother i hi h.ne j hj]
            exact hdone i h hi hne j hj
          · rw [hself j hj, hkeep i hi (.inr le_rfl) j hj, hkeep i hi (.inr le_rfl) c hc]
      · obtain rfl : r = c := not_not.mp hrc
        refine ⟨hlen, fun i hi hir => hkeep i hi (by omega), fun i hir hi hne => ?_⟩
        exact hdone i (by omega) hi hne
  · -- the pivot row is the unit row: adding `m i c` back at `c` restores the row
    have hpr' := not_not.mp hid
    refine ⟨hm, fun _ _ => rfl, fun i hi hne j hj => ?_⟩
    rw [hpr']
    split_ifs with hjc
    · subst hjc
      have h1 : coeffAt ((List.replicate k 0).set j 1) j = 1 :=
        Gf.ext (getD_set_self (by simpa using hj) _ _)
      rw [h1, mul_one, zero_add]
    · have h0 : coeffAt ((List.replicate k 0).set c 1) j = 0 := by
        refine Gf.ext ((getD_set_ne (Ne.symm hjc) _ _).trans ?_)
        exact List.getD_replicate _ hj
      rw [h0, mul_zero, add_zero]

/-- **The work of one turn on the matrix is one sweep.** -/
lemma entry_sweepRows {m : List UInt8} {k c : ℕ} (hm : m.length = k * k) (hc : c < k) :
    let pr := scalePivotRow (slice m (c * k) k) c
    let m' := reduceRows k c pr (splice m (c * k) pr)
    m'.length = k * k ∧
      ∀ i < k, ∀ j < k, entry m' k i j = Sweep.sweep c (entry m k) i j := by
  intro pr m'
  have hrow := rowMajor_le (k := k) hc
  have hslice : (slice m (c * k) k).length = k := length_slice (by rw [hm]; exact hrow)
  have hpr : pr.length = k := by rw [length_scalePivotRow, hslice]
  have hscaled : ∀ j < k, coeffAt pr j
      = (entry m k c c)⁻¹ * (if j = c then 1 else entry m k c j) := fun j hj => by
    rw [coeffAt_scalePivotRow (by omega) (by omega), coeffAt_slice_row m hc, coeffAt_slice_row m hj]
  have hm1 : (splice m (c * k) pr).length = k * k :=
    (length_splice (by rw [hpr, hm]; exact hrow)).trans hm
  obtain ⟨hlen, hself, hother⟩ := entry_reduceRows hm1 hpr hc
  refine ⟨hlen, fun i hi j hj => ?_⟩
  by_cases hic : i = c
  · subst hic
    rw [hself j hj, entry_splice_self hm hpr hc hj, hscaled j hj]
    simp only [Sweep.sweep, if_true]
  · rw [hother i hi hic j hj, entry_splice_of_ne hm hpr hc hic hj,
      entry_splice_of_ne hm hpr hc hic hc, hscaled j hj]
    simp only [Sweep.sweep, hic, if_false, Gf.sub_eq_add']

/-! ### Exchanging rows

A turn whose pivot is off the diagonal exchanges two rows first.  With all pivots on the diagonal
that step does nothing, and neither does the loop at the end.
-/

@[simp] lemma length_swap (m : List UInt8) (a b : ℕ) : (swap m a b).length = m.length := by
  simp [swap]

lemma getD_swap {m : List UInt8} {a b : ℕ} (ha : a < m.length) (hb : b < m.length) (p : ℕ) :
    (swap m a b).getD p 0 = m.getD (Equiv.swap a b p) 0 := by
  unfold swap
  rcases eq_or_ne p b with rfl | hpb
  · rw [getD_set_self (by simpa using hb), Equiv.swap_apply_right]
  · rw [getD_set_ne hpb.symm]
    rcases eq_or_ne p a with rfl | hpa
    · rw [getD_set_self ha, Equiv.swap_apply_left]
    · rw [getD_set_ne hpa.symm, Equiv.swap_apply_of_ne_of_ne hpa hpb]

lemma swap_lt {k i r a : ℕ} (hi : i < k) (hr : r < k) (ha : a < k) : Equiv.swap i r a < k := by
  rw [Equiv.swap_apply_def]
  split_ifs
  · exact hr
  · exact hi
  · exact ha

/-- The exchange of two rows, column by column. -/
lemma entry_swapRows {m : List UInt8} {k r i : ℕ} (hm : m.length = k * k) (hr : r < k)
    (hi : i < k) :
    let m' := (List.range k).foldl (fun m j => swap m (i * k + j) (r * k + j)) m
    m'.length = k * k ∧
      ∀ a < k, ∀ b < k, entry m' k a b = entry m k (Equiv.swap i r a) b := by
  have hrowr := rowMajor_le (k := k) hr
  have hrowi := rowMajor_le (k := k) hi
  have hinv := foldl_range_induction (f := fun m j => swap m (i * k + j) (r * k + j))
    (P := fun c t => t.length = k * k ∧ ∀ a < k, ∀ b < k,
      entry t k a b = entry m k (if b < c then Equiv.swap i r a else a) b)
    (s := m) (n := k) ⟨hm, fun a _ b _ => by rw [if_neg (by omega)]⟩ ?_
  · exact ⟨hinv.1, fun a ha b hb => by rw [hinv.2 a ha b hb, if_pos hb]⟩
  · rintro c hc t ⟨hlen, ht⟩
    refine ⟨by rw [length_swap, hlen], fun a ha b hb => ?_⟩
    have hget : entry (swap t (i * k + c) (r * k + c)) k a b
        = ⟨t.getD (Equiv.swap (i * k + c) (r * k + c) (a * k + b)) 0⟩ :=
      Gf.ext (getD_swap (by omega) (by omega) _)
    by_cases hbc : b = c
    · subst hbc
      -- the column of this turn: position and row move together
      have hcell : Equiv.swap (i * k + b) (r * k + b) (a * k + b) = Equiv.swap i r a * k + b := by
        refine (Function.Injective.swap_apply (f := fun a => a * k + b) (fun x y h => ?_) i r a)
        exact (rowMajor_inj hb hb h).1
      rw [hget, hcell, if_pos (by omega)]
      refine (ht _ (swap_lt hi hr ha) b hb).trans ?_
      rw [if_neg (by omega)]
    · have hi' : a * k + b ≠ i * k + c := fun h => hbc (rowMajor_inj hb hc h).2
      have hr' : a * k + b ≠ r * k + c := fun h => hbc (rowMajor_inj hb hc h).2
      have hiff : b < c + 1 ↔ b < c := by omega
      rw [hget, Equiv.swap_apply_of_ne_of_ne hi' hr']
      simp only [hiff]
      exact ht a ha b hb

/-- **One turn of `invert_matrix`**, for whatever entry the search returns: the two rows are
exchanged and the pivot's is swept. -/
lemma eliminateColumn_of_search {k c r i : ℕ} {s : InvertLoop} {ipiv : List Bool}
    (hm : s.matrix.length = k * k) (hr : r < k) (hi : i < k)
    (hsearch : searchPivot s.ipiv c s.matrix k = .ok (ipiv, r, i)) :
    (entry s.matrix k i r = 0 → eliminateColumn k s c = .error "singular matrix") ∧
    (entry s.matrix k i r ≠ 0 → ∃ matrix, eliminateColumn k s c
        = .ok ⟨matrix, ipiv, s.indxc.set c r, s.indxr.set c i⟩ ∧ matrix.length = k * k ∧
      ∀ a < k, ∀ b < k, entry matrix k a b
        = Sweep.sweep r (fun a => entry s.matrix k (Equiv.swap i r a)) a b) := by
  set m := if i ≠ r then
      (List.range k).foldl (fun m j => swap m (i * k + j) (r * k + j)) s.matrix
    else s.matrix with hm'
  have hswapped : m.length = k * k ∧
      ∀ a < k, ∀ b < k, entry m k a b = entry s.matrix k (Equiv.swap i r a) b := by
    rw [hm']
    split_ifs with hir
    · exact entry_swapRows hm hr hi
    · rw [not_not.mp hir]
      exact ⟨hm, fun a _ b _ => by rw [Equiv.swap_self]; rfl⟩
  have hpivot : entry s.matrix k i r = ⟨(slice m (r * k) k).getD r 0⟩ := by
    have hrr := hswapped.2 r hr r hr
    rw [Equiv.swap_apply_right] at hrr
    rw [← hrr]
    exact (coeffAt_slice_row m hr).symm
  have hturn : eliminateColumn k s c = if (slice m (r * k) k).getD r 0 = 0 then
        .error "singular matrix"
      else .ok ⟨reduceRows k r (scalePivotRow (slice m (r * k) k) r)
          (splice m (r * k) (scalePivotRow (slice m (r * k) k) r)),
        ipiv, s.indxc.set c r, s.indxr.set c i⟩ := by
    unfold eliminateColumn
    rw [hsearch, Fallible.ok_bind]
  constructor
  · intro hzero
    have h0 : (slice m (r * k) k).getD r 0 = 0 := congrArg Gf.val (hpivot.symm.trans hzero)
    rw [hturn, if_pos h0]
  · intro hne
    have hsweep := entry_sweepRows hswapped.1 hr
    refine ⟨_, hturn.trans (if_neg fun h0 => hne ?_), hsweep.1, fun a ha b hb => ?_⟩
    · rw [hpivot, h0]
      rfl
    · exact (hsweep.2 a ha b hb).trans (Sweep.sweep_congr hr hswapped.2 ha hb)

/-- The state of the elimination after `c` columns when every pivot is on the diagonal. -/
structure Diagonal (k : ℕ) (A : ℕ → ℕ → Gf) (c : ℕ) (s : InvertLoop) : Prop where
  length_eq : s.matrix.length = k * k
  ipiv_length : s.ipiv.length = k
  ipiv_free : ∀ j, c ≤ j → s.ipiv.getD j false = false
  indx_eq : s.indxc = s.indxr
  exchanged : Sweep.Exchanged k c A (entry s.matrix k)

/-- **One turn of `invert_matrix` is one sweep.** -/
lemma Diagonal.step {k c : ℕ} {A : ℕ → ℕ → Gf} {s : InvertLoop} (h : Diagonal k A c s)
    (hreg : Sweep.LeadingRegular k A) (hc : c < k) :
    ∃ s', eliminateColumn k s c = .ok s' ∧ Diagonal k A (c + 1) s' := by
  have hpivot : entry s.matrix k c c ≠ 0 := h.exchanged.pivot_ne_zero hc hreg
  have hpivot' : s.matrix.getD (c * k + c) 0 ≠ 0 := fun h0 => hpivot (Gf.ext h0)
  have hsearch : searchPivot s.ipiv c s.matrix k = .ok (s.ipiv.set c true, c, c) := by
    have hfree := h.ipiv_free c le_rfl
    unfold searchPivot
    rw [if_pos (by rw [hfree]; simpa only [Bool.not_false, Bool.true_and, bne_iff_ne])]
  obtain ⟨matrix, hstep, hlen, hsweep⟩ :=
    (eliminateColumn_of_search h.length_eq hc hc hsearch).2 hpivot
  refine ⟨_, hstep, hlen, by simpa using h.ipiv_length, fun j hj => ?_, ?_, ?_⟩
  · exact (getD_set_ne (by omega) _ _).trans (h.ipiv_free j (by omega))
  · show s.indxc.set c c = s.indxr.set c c
    rw [h.indx_eq]
  · refine (h.exchanged.sweep hc hpivot).congr fun i hi j hj => ?_
    rw [hsweep i hi j hj, Equiv.swap_self]
    rfl

/-- Nothing was exchanged, so nothing is put back. -/
lemma unscramble_of_eq {s : InvertLoop} (h : s.indxc = s.indxr) (k : ℕ) :
    unscramble k s = s.matrix := by
  unfold unscramble
  refine foldl_range_induction (P := fun _ m => m = s.matrix) rfl fun i _ m hm => ?_
  rw [if_neg (by rw [h]; exact not_not.mpr rfl), hm]

/-- **`invert_matrix` inverts** every matrix whose leading blocks are injective, and reports no
error on one. -/
theorem invertMatrix_spec {k : ℕ} {m : List UInt8} (hm : m.length = k * k)
    (hreg : Sweep.LeadingRegular k (entry m k)) :
    ∃ m', invertMatrix m k = .ok m' ∧ ∀ x : ℕ → Gf, ∀ i < k,
      Sweep.mulVec k (entry m' k) (Sweep.mulVec k (entry m k) x) i = x i := by
  have h0 : Diagonal k (entry m k) 0
      ⟨m, List.replicate k false, List.replicate k 0, List.replicate k 0⟩ := by
    refine ⟨hm, List.length_replicate, fun j _ => ?_, rfl, Sweep.Exchanged.zero k _⟩
    simp only [List.getD_eq_getElem?_getD, List.getElem?_replicate]
    split_ifs <;> rfl
  obtain ⟨s, hs, hd⟩ := foldlM_range_induction (P := fun c s => Diagonal k (entry m k) c s) h0
    fun c hc t ht => ht.step hreg hc
  refine ⟨s.matrix, ?_, fun x i hi => hd.exchanged.inverse x hi⟩
  unfold invertMatrix
  rw [hs, Fallible.ok_bind, unscramble_of_eq hd.indx_eq]

end Storj.Ec
