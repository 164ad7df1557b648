import Mathlib.RingTheory.AdjoinRoot
import Mathlib.Algebra.Field.ZMod
import Mathlib.Data.Nat.Bitwise

/-!
# Numbers as polynomials over two elements

The bits of a number are the coefficients of a polynomial: `xor` adds them, doubling multiplies by
`X`, and a number with its top bit at `w` stands for a monic polynomial of degree `w`.  A number
below `2 ^ w` is then the remainder of everything in its class (`ofNat_eq_modByMonic`).

A byte-wise implementation of a finite field multiplies by shifting and folds the bit that falls
out back in with one `xor`.  The two lemmas that turn such a step into algebra are `residue_xor`
and `residue_two_mul`: the class of a number modulo the polynomial of `m` is additive under `xor`,
and doubling multiplies it by the class of `X`, whether or not the top bit was folded.  A table or
a loop built from the two operations therefore computes in the quotient ring, and the
representative that it ends with is the right one because it is below `2 ^ w`.

Nothing here says that the modulus is irreducible; that the quotient is a field is a fact about one
polynomial, and the field's own module shows it from its multiplication table.
-/

namespace BitPoly

open Polynomial

/-- The polynomial with the bits of a number as coefficients. -/
noncomputable def ofNat (n : ℕ) : (ZMod 2)[X] :=
  ∑ i ∈ Finset.range n, if n.testBit i then X ^ i else 0

@[simp] lemma coeff_ofNat (n i : ℕ) : (ofNat n).coeff i = if n.testBit i then 1 else 0 := by
  have hterm : ∀ j, (if n.testBit j then (X : (ZMod 2)[X]) ^ j else 0).coeff i
      = if j = i then (if n.testBit i then 1 else 0) else 0 := by
    intro j
    by_cases hj : j = i
    · subst hj
      by_cases hbit : n.testBit j
      · simp [hbit]
      · simp [hbit]
    · by_cases hbit : n.testBit j
      · simp [hbit, hj, coeff_X_pow, Ne.symm hj]
      · simp [hbit, hj]
  rw [ofNat, finsetSum_coeff, Finset.sum_congr rfl fun j _ => hterm j, Finset.sum_ite_eq']
  split_ifs with hmem hbit
  · rfl
  · rfl
  · -- bit `i` of `n` is only set for `i` below `n`
    rename_i hbit
    exfalso
    rw [Finset.mem_range, not_lt] at hmem
    have hlt : n < 2 ^ i := n.lt_two_pow_self.trans_le (Nat.pow_le_pow_right (by decide) hmem)
    rw [Nat.testBit_lt_two_pow hlt] at hbit
    cases hbit
  · rfl

lemma ofNat_xor (a b : ℕ) : ofNat (a ^^^ b) = ofNat a + ofNat b := by
  ext i
  rw [coeff_add, coeff_ofNat, coeff_ofNat, coeff_ofNat, Nat.testBit_xor]
  cases a.testBit i <;> cases b.testBit i <;> decide

lemma ofNat_two_mul (a : ℕ) : ofNat (2 * a) = X * ofNat a := by
  ext i
  cases i with
  | zero => simp [Nat.testBit_zero]
  | succ i => simp [coeff_X_mul, Nat.testBit_succ]

lemma degree_ofNat_lt {n w : ℕ} (h : n < 2 ^ w) : (ofNat n).degree < w := by
  rw [degree_lt_iff_coeff_zero]
  intro i hi
  have hlt : n < 2 ^ i := h.trans_le (Nat.pow_le_pow_right (by decide) hi)
  rw [coeff_ofNat, Nat.testBit_lt_two_pow hlt]
  rfl

section Modulus

variable {m w : ℕ}

lemma coeff_top (hlo : 2 ^ w ≤ m) (hhi : m < 2 ^ (w + 1)) : (ofNat m).coeff w = 1 := by
  have hbit : m.testBit w = true := by
    have hdiv : m / 2 ^ w = 1 := by
      rw [Nat.div_eq_of_lt_le]
      · omega
      · rw [pow_succ] at hhi
        omega
    rw [Nat.testBit_eq_decide_div_mod_eq, hdiv]
    rfl
  rw [coeff_ofNat, if_pos hbit]

lemma degree_ofNat (hlo : 2 ^ w ≤ m) (hhi : m < 2 ^ (w + 1)) : (ofNat m).degree = w := by
  refine le_antisymm ?_ (le_degree_of_ne_zero ?_)
  · rw [degree_le_iff_coeff_zero]
    intro i hi
    exact (degree_lt_iff_coeff_zero _ _).mp (degree_ofNat_lt hhi) i (by exact_mod_cast hi)
  · rw [coeff_top hlo hhi]
    decide

lemma monic_ofNat (hlo : 2 ^ w ≤ m) (hhi : m < 2 ^ (w + 1)) : (ofNat m).Monic := by
  rw [Monic, leadingCoeff, natDegree_eq_of_degree_eq_some (degree_ofNat hlo hhi)]
  exact coeff_top hlo hhi

/-- The class of a number modulo the polynomial of `m`, in the quotient ring of the polynomials over
two elements.  Equal classes are what two ways to compute a field element have in common. -/
noncomputable def residue (m a : ℕ) : AdjoinRoot (ofNat m) := AdjoinRoot.mk (ofNat m) (ofNat a)

lemma residue_xor (m a b : ℕ) : residue m (a ^^^ b) = residue m a + residue m b := by
  rw [residue, ofNat_xor, map_add]
  rfl

lemma residue_zero (m : ℕ) : residue m 0 = 0 := map_zero _

lemma residue_one (m : ℕ) : residue m 1 = 1 := by
  have hone : ofNat 1 = 1 := by simp [ofNat]
  rw [residue, hone, map_one]

lemma residue_self (m : ℕ) : residue m m = 0 := AdjoinRoot.mk_self

lemma residue_two_mul (m a : ℕ) :
    residue m (2 * a) = AdjoinRoot.root (ofNat m) * residue m a := by
  rw [residue, ofNat_two_mul, map_mul, AdjoinRoot.mk_X]
  rfl

/-- **A number below the modulus is the remainder** of every polynomial of its class. -/
theorem ofNat_eq_modByMonic (hlo : 2 ^ w ≤ m) (hhi : m < 2 ^ (w + 1)) {r : ℕ} (hr : r < 2 ^ w)
    {p : (ZMod 2)[X]} (h : residue m r = AdjoinRoot.mk (ofNat m) p) : ofNat r = p %ₘ ofNat m := by
  have hmonic := monic_ofNat hlo hhi
  have hself : ofNat r %ₘ ofNat m = ofNat r := by
    rw [modByMonic_eq_self_iff hmonic, degree_ofNat hlo hhi]
    exact degree_ofNat_lt hr
  have hsub := (modByMonic_eq_zero_iff_dvd hmonic).mpr (AdjoinRoot.mk_eq_mk.mp h)
  rw [sub_modByMonic, hself, sub_eq_zero] at hsub
  exact hsub

end Modulus

end BitPoly
