import Mathlib.Algebra.Order.Ring.Int
import Mathlib.Data.Int.Order.Basic
import Mathlib.Tactic.Ring
import Mathlib.Tactic.NormNum

/-!
# Machine integers

Signed 64-bit values are integers and unsigned ones naturals; what a machine does at the ends of
the range is written out.  A saturating operation is the exact one followed by `satI64` or
`satUsize`, a cast is `asI64` or `asI32`, and inside the range each of them is the identity.

The arithmetic of a program is checked, saturating or wrapping, and the three are kept apart.  A
checked operation is the exact one with a comparison and a stop behind it, which each model writes
where its program does.  A saturating one cannot fail, but a proof that uses its result has to show
first that the exact value was in range.  Wrapping occurs in casts only.

The lemmas that remove the operations ask for the bound in the form in which a program has checked
it before.  Lengths of buffers come with one for free: an allocation is never larger than
`isizeMax`, which is also the largest `i64`.
-/

namespace MachineInt

/-- The largest `i64`. -/
def i64Max : ℤ := 2 ^ 63 - 1

/-- The smallest `i64`. -/
def i64Min : ℤ := -2 ^ 63

/-- The largest `usize`. -/
def usizeMax : ℕ := 2 ^ 64 - 1

/-- The largest number of bytes that one allocation may have. -/
def isizeMax : ℕ := 2 ^ 63 - 1

/-- The result of a saturating `i64` operation, from its exact value. -/
def satI64 (x : ℤ) : ℤ := max i64Min (min x i64Max)

/-- The result of a saturating `usize` operation, from its exact value. -/
def satUsize (n : ℕ) : ℕ := min n usizeMax

/-- `n as i64`, two's complement. -/
def asI64 (n : ℕ) : ℤ :=
  if n % 2 ^ 64 < 2 ^ 63 then (n % 2 ^ 64 : ℕ) else (n % 2 ^ 64 : ℕ) - 2 ^ 64

/-- `n as i32`, two's complement. -/
def asI32 (n : ℕ) : ℤ :=
  if n % 2 ^ 32 < 2 ^ 31 then (n % 2 ^ 32 : ℕ) else (n % 2 ^ 32 : ℕ) - 2 ^ 32

lemma asI32_of_lt {n : ℕ} (h : n < 2 ^ 31) : asI32 n = n := by
  have hmod : n % 2 ^ 32 = n := Nat.mod_eq_of_lt (h.trans (by norm_num))
  rw [asI32, hmod, if_pos h]

lemma satI64_of_mem {x : ℤ} (h0 : i64Min ≤ x) (h1 : x ≤ i64Max) : satI64 x = x := by
  rw [satI64, min_eq_left h1, max_eq_right h0]

lemma satI64_of_nonneg {x : ℤ} (h0 : 0 ≤ x) (h1 : x ≤ i64Max) : satI64 x = x :=
  satI64_of_mem (le_trans (by norm_num [i64Min]) h0) h1

lemma satI64_nonneg {x : ℤ} (h0 : 0 ≤ x) : satI64 x = min x i64Max := by
  have hmax : (0 : ℤ) ≤ i64Max := by norm_num [i64Max]
  have hmin : i64Min ≤ 0 := by norm_num [i64Min]
  rw [satI64, max_eq_right]
  exact hmin.trans (le_min h0 hmax)

lemma natCast_isizeMax : (isizeMax : ℤ) = i64Max := by
  norm_num [isizeMax, i64Max]

lemma satI64_natCast {n : ℕ} (h : n ≤ isizeMax) : satI64 n = n :=
  satI64_of_nonneg (Int.natCast_nonneg n) (by rw [← natCast_isizeMax]; exact_mod_cast h)

lemma satI64_natCast_min (n : ℕ) : satI64 n = (min n isizeMax : ℕ) := by
  rw [satI64_nonneg (Int.natCast_nonneg n), ← natCast_isizeMax, Nat.cast_min]

lemma satUsize_of_le {n : ℕ} (h : n ≤ usizeMax) : satUsize n = n :=
  Nat.min_eq_left h

lemma satUsize_of_le_isizeMax {n : ℕ} (h : n ≤ isizeMax) : satUsize n = n :=
  satUsize_of_le (h.trans (by decide))

lemma asI64_of_le {n : ℕ} (h : n ≤ isizeMax) : asI64 n = n := by
  have h' : n < 2 ^ 63 := Nat.lt_of_le_of_lt h (by decide)
  have hmod : n % 2 ^ 64 = n := Nat.mod_eq_of_lt (h'.trans (by norm_num))
  rw [asI64, hmod, if_pos h']

end MachineInt
