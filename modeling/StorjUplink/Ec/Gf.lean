import StorjUplink.Lib.Buffer
import Mathlib.Algebra.Field.Basic
import Mathlib.Data.UInt
import Mathlib.Data.Fintype.EquivFin
import Mathlib.Logic.Function.Iterate
import Mathlib.Data.ZMod.Basic
import Mathlib.Tactic.IntervalCases

/-!
# The field of the erasure code

`gf.rs` builds its arithmetic from tables: a log/antilog pair filled by one loop that doubles a
16-bit accumulator and reduces it by `0x11d`, and a 64 KiB product table filled from them.  The
first half of this file is that construction, word for word.  The second half shows that what the
tables compute is a field, which nothing in the source checks beyond a few entries.

The route is to say once what the loop leaves behind (`exp_getD`, `log_antilog`): entry `i` of
`exp` is the `i`-th iterate of `double`, the map `a ↦ 2a`, and `log` inverts it.  `double` is
linear over xor and its orbit of `1` has length exactly 255, so every nonzero byte is a power of
two, multiplication by `antilog i` is the `i`-th iterate of `double`, and the field laws follow
from those of addition in the exponent.
-/

namespace Storj.Ec

/-! ## The tables

The loop runs 255 times and writes the logarithms in the order in which the powers appear; the
upper half of the power table repeats the lower, so that a sum of two logarithms is an index.
-/

/-- Primitive polynomial `x^8 + x^4 + x^3 + x^2 + 1`. -/
def poly : UInt16 := 0x11d

/-- `Tables` of `gf.rs`: powers, logarithms, inverses, and the rows of products. -/
structure Tables where
  exp : List UInt8
  log : List UInt8
  inverse : List UInt8
  mul : List (List UInt8)

/-- The mutable state of the first loop of `build_tables`. -/
structure ExpLoop where
  exp : List UInt8
  log : List UInt8
  x : UInt16

/-- One turn of that loop: record `x` at `i` and `i` at `x`, then double `x`. -/
def ExpLoop.step (s : ExpLoop) (i : ℕ) : ExpLoop :=
  let x := s.x <<< 1
  { exp := s.exp.set i s.x.toUInt8
    log := s.log.set s.x.toNat (UInt8.ofNat i)
    x := if x &&& 0x100 ≠ 0 then x ^^^ poly else x }

/-- The loop run to its end. -/
def expLoop : ExpLoop :=
  (List.range 255).foldl ExpLoop.step ⟨List.replicate 510 0, List.replicate 256 0, 1⟩

/-- `build_tables`: powers and logarithms from the loop, inverses and products from these two, and
then the row and the column of zero by hand. -/
def buildTables : Tables :=
  let s := expLoop
  -- `hi.copy_from_slice(lo)`
  let exp := s.exp.take 255 ++ s.exp.take 255
  let log := s.log.set 0 0xff
  let inverse := (List.range 256).map fun i =>
    if i = 0 then 0 else exp.getD (255 - (log.getD i 0).toNat) 0
  let mul := (List.range 256).map fun i => (List.range 256).map fun j =>
    exp.getD (((log.getD i 0).toNat + (log.getD j 0).toNat) % 255) 0
  let mul := mul.map fun row => row.set 0 0
  { exp, log, inverse, mul := mul.set 0 (List.replicate 256 0) }

/-- The static `TABLES`. -/
def gf : Tables := buildTables

/-- `gf.exp[i]`. -/
def expAt (i : ℕ) : UInt8 := gf.exp.getD i 0

/-- `gf.inverse[a]`. -/
def inverseAt (a : UInt8) : UInt8 := gf.inverse.getD a.toNat 0

/-- `gf.mul[a][b]`. -/
def mulAt (a b : UInt8) : UInt8 := (gf.mul.getD a.toNat []).getD b.toNat 0

/-! ## Doubling

In bytes, doubling is a shift with a conditional xor.  It has an inverse and is linear, and that is
all that is used of the polynomial, besides the length of one orbit.
-/

/-- Multiplication by the generator on bytes. -/
def double (a : UInt8) : UInt8 :=
  (a <<< 1) ^^^ (if a &&& 0x80 ≠ 0 then 0x1d else 0)

/-- The inverse of `double`. -/
def halve (a : UInt8) : UInt8 :=
  (a >>> 1) ^^^ (if a &&& 1 ≠ 0 then 0x8e else 0)

/-- The powers of the generator. -/
def antilog (i : ℕ) : UInt8 := double^[i] 1

/-- A statement about all bytes is a statement about 256 numbers. -/
lemma forall_byte {P : UInt8 → Prop} (h : ∀ n < 256, P (UInt8.ofNat n)) (a : UInt8) : P a := by
  have := h a.toNat a.toNat_lt
  rwa [UInt8.ofNat_toNat] at this

lemma halve_double : ∀ a, halve (double a) = a :=
  forall_byte (by decide +kernel)

/-- The 16-bit step of `build_tables` is `double`. -/
lemma step_word : ∀ a : UInt8,
    (if (a.toUInt16 <<< 1) &&& 0x100 ≠ 0 then (a.toUInt16 <<< 1) ^^^ poly else a.toUInt16 <<< 1)
      = (double a).toUInt16 :=
  forall_byte (by decide +kernel)

lemma double_injective : Function.Injective double := fun a b h => by
  rw [← halve_double a, h, halve_double b]

/-- Masking distributes over a sum. -/
lemma and_xor_distrib (a b c : UInt8) : (a ^^^ b) &&& c = (a &&& c) ^^^ (b &&& c) := by
  apply UInt8.toBitVec_inj.mp
  ext i hi
  simp [Bool.and_xor_distrib_right]

/-- `double` is linear: the shift is, and the reduction is taken once for each top bit set. -/
lemma double_xor (a b : UInt8) : double (a ^^^ b) = double a ^^^ double b := by
  have hbit : ∀ a : UInt8, a &&& 0x80 = 0 ∨ a &&& 0x80 = 0x80 := forall_byte (by decide +kernel)
  have hred : (if (a ^^^ b) &&& 0x80 ≠ 0 then (0x1d : UInt8) else 0)
      = (if a &&& 0x80 ≠ 0 then 0x1d else 0) ^^^ (if b &&& 0x80 ≠ 0 then 0x1d else 0) := by
    rw [and_xor_distrib]
    rcases hbit a with ha | ha <;> rcases hbit b with hb | hb <;> rw [ha, hb] <;> decide
  rw [double, double, double, hred, UInt8.shiftLeft_xor]
  ac_rfl

/-! ### The orbit of one

That the generator has order 255 is the one computation: 255 doublings lead back to one, and
neither 85 nor 51 nor 15 do.
-/

lemma antilog_succ (i : ℕ) : antilog (i + 1) = double (antilog i) :=
  Function.iterate_succ_apply' _ _ _

lemma antilog_add (i j : ℕ) : antilog (i + j) = double^[i] (antilog j) :=
  Function.iterate_add_apply _ _ _ _

lemma isPeriodicPt_255 : Function.IsPeriodicPt double 255 1 := by
  show double^[255] 1 = 1
  decide +kernel

/-- The orbit has length exactly 255: it is a divisor of 255, and none of the maximal proper
divisors is a period. -/
lemma minimalPeriod_double : Function.minimalPeriod double 1 = 255 := by
  have hdvd := isPeriodicPt_255.minimalPeriod_dvd
  have hper := Function.isPeriodicPt_minimalPeriod double 1
  generalize Function.minimalPeriod double 1 = p at hdvd hper
  have hmem : p ∈ Nat.divisors 255 := Nat.mem_divisors.mpr ⟨hdvd, by norm_num⟩
  have hdiv : Nat.divisors 255 = {1, 3, 5, 15, 17, 51, 85, 255} := by decide +kernel
  have hno : ∀ q ∈ ({1, 3, 5, 15, 17, 51, 85} : Finset ℕ), double^[q] 1 ≠ 1 := by decide +kernel
  by_contra hne
  refine hno p ?_ hper
  rw [hdiv] at hmem
  simp only [Finset.mem_insert, Finset.mem_singleton] at hmem ⊢
  omega

lemma antilog_injOn : Set.InjOn antilog (Set.Iio 255) := by
  have h := Function.iterate_injOn_Iio_minimalPeriod (f := double) (x := 1)
  rwa [minimalPeriod_double] at h

lemma antilog_mod (i : ℕ) : antilog (i % 255) = antilog i :=
  Function.IsPeriodicPt.iterate_mod_apply isPeriodicPt_255 i

lemma antilog_ne_zero (i : ℕ) : antilog i ≠ 0 := by
  induction i with
  | zero => decide
  | succ i ih =>
      rw [antilog_succ]
      intro h
      exact ih (double_injective (h.trans (by decide)))

/-- Every nonzero byte is a power of the generator: 255 distinct ones fill the 255 places. -/
lemma exists_antilog {a : UInt8} (ha : a ≠ 0) : ∃ i < 255, antilog i = a := by
  have hinj : Set.InjOn (fun i => (antilog i).toNat) (Finset.range 255 : Set ℕ) := by
    intro i hi j hj hij
    exact antilog_injOn (by simpa using hi) (by simpa using hj) (UInt8.toNat_inj.mp hij)
  have hsub : (Finset.range 255).image (fun i => (antilog i).toNat) ⊆ Finset.Ico 1 256 := by
    intro n hn
    obtain ⟨i, -, rfl⟩ := Finset.mem_image.mp hn
    have h0 : (antilog i).toNat ≠ 0 := fun h => antilog_ne_zero i (UInt8.toNat_inj.mp h)
    exact Finset.mem_Ico.mpr ⟨Nat.one_le_iff_ne_zero.mpr h0, (antilog i).toNat_lt⟩
  have heq := Finset.eq_of_subset_of_card_le hsub (by
    rw [Finset.card_image_of_injOn hinj]
    simp)
  have hmem : a.toNat ∈ Finset.Ico 1 256 := by
    have h0 : a.toNat ≠ 0 := fun h => ha (UInt8.toNat_inj.mp h)
    exact Finset.mem_Ico.mpr ⟨Nat.one_le_iff_ne_zero.mpr h0, a.toNat_lt⟩
  rw [← heq] at hmem
  obtain ⟨i, hi, hia⟩ := Finset.mem_image.mp hmem
  exact ⟨i, Finset.mem_range.mp hi, UInt8.toNat_inj.mp hia⟩

/-! ## What the loop leaves behind

The invariant has the entries of both tables below the turn.  It holds to the end because the
powers are distinct, so that no logarithm is overwritten.
-/

/-- The loop of `build_tables` after `i` turns. -/
structure ExpLoop.Filled (s : ExpLoop) (i : ℕ) : Prop where
  exp_length : s.exp.length = 510
  log_length : s.log.length = 256
  exp_eq : ∀ j < i, s.exp.getD j 0 = antilog j
  log_eq : ∀ j < i, s.log.getD (antilog j).toNat 0 = UInt8.ofNat j
  x_eq : s.x = (antilog i).toUInt16

lemma ExpLoop.Filled.step {s : ExpLoop} {i : ℕ} (hi : i < 255) (h : s.Filled i) :
    (s.step i).Filled (i + 1) where
  exp_length := by simp [ExpLoop.step, h.exp_length]
  log_length := by simp [ExpLoop.step, h.log_length]
  exp_eq j hj := by
    rcases Nat.lt_succ_iff_lt_or_eq.mp hj with hj | rfl
    · rw [← h.exp_eq j hj]
      exact Buffer.getD_set_ne hj.ne' _ _
    · refine (Buffer.getD_set_self (by rw [h.exp_length]; omega) _ _).trans ?_
      rw [h.x_eq, UInt8.toUInt8_toUInt16]
  log_eq j hj := by
    have hx : s.x.toNat = (antilog i).toNat := by rw [h.x_eq, UInt8.toNat_toUInt16]
    rcases Nat.lt_succ_iff_lt_or_eq.mp hj with hj | rfl
    · -- an earlier power sits elsewhere
      have hne : s.x.toNat ≠ (antilog j).toNat := fun hEq =>
        hj.ne' (antilog_injOn hi (hj.trans hi) (UInt8.toNat_inj.mp (hx ▸ hEq)))
      rw [← h.log_eq j hj]
      exact Buffer.getD_set_ne hne _ _
    · rw [← hx]
      refine Buffer.getD_set_self ?_ _ _
      rw [h.log_length, hx]
      exact (antilog j).toNat_lt
  x_eq := by
    rw [antilog_succ, ← step_word]
    simp only [ExpLoop.step, h.x_eq]

lemma expLoop_filled : expLoop.Filled 255 :=
  Buffer.foldl_range_induction (P := fun i s => ExpLoop.Filled s i)
    ⟨List.length_replicate, List.length_replicate, fun _ h => absurd h (Nat.not_lt_zero _),
      fun _ h => absurd h (Nat.not_lt_zero _), rfl⟩
    fun _ hi _ h => h.step hi

lemma gf_exp : gf.exp = expLoop.exp.take 255 ++ expLoop.exp.take 255 := by
  simp only [gf, buildTables]

lemma gf_log : gf.log = expLoop.log.set 0 0xff := by
  simp only [gf, buildTables]

/-- `exp` holds the powers of the generator, twice over. -/
lemma expAt_eq {i : ℕ} (hi : i < 510) : expAt i = antilog i := by
  have hlow : ∀ j < 255, (expLoop.exp.take 255).getD j 0 = antilog j := fun j hj => by
    rw [← expLoop_filled.exp_eq j hj]
    simp [List.getD_eq_getElem?_getD, hj]
  have hlen : (expLoop.exp.take 255).length = 255 := by
    simp [expLoop_filled.exp_length]
  rw [expAt, gf_exp]
  rcases lt_or_ge i 255 with h | h
  · rw [List.getD_append _ _ _ _ (by omega), hlow i h]
  · rw [List.getD_append_right _ _ _ _ (by omega), hlen, hlow _ (by omega),
      ← antilog_mod i, Nat.mod_eq_sub_mod h, Nat.mod_eq_of_lt (by omega)]

/-- `log` inverts the powers. -/
lemma log_antilog {i : ℕ} (hi : i < 255) : (gf.log.getD (antilog i).toNat 0).toNat = i := by
  have hne : 0 ≠ (antilog i).toNat := fun h =>
    antilog_ne_zero i (UInt8.toNat_inj.mp (h.symm.trans (by decide)))
  rw [gf_log, Buffer.getD_set_ne hne, expLoop_filled.log_eq i hi, UInt8.toNat_ofNat']
  omega

/-- One cell of the product table, off the row and column of zero. -/
lemma mulAt_of_ne {a b : UInt8} (ha : a ≠ 0) (hb : b ≠ 0) :
    mulAt a b = expAt (((gf.log.getD a.toNat 0).toNat + (gf.log.getD b.toNat 0).toNat) % 255) := by
  have ha' : 0 ≠ a.toNat := fun h => ha (UInt8.toNat_inj.mp (h.symm.trans (by decide)))
  have hb' : 0 ≠ b.toNat := fun h => hb (UInt8.toNat_inj.mp (h.symm.trans (by decide)))
  simp only [mulAt, expAt, gf, buildTables]
  rw [Buffer.getD_set_ne ha', List.map_map, Buffer.getD_map_range _ a.toNat_lt]
  simp only [Function.comp_apply]
  rw [Buffer.getD_set_ne hb', Buffer.getD_map_range _ b.toNat_lt]

lemma mulAt_zero_left (b : UInt8) : mulAt 0 b = 0 := by
  simp only [mulAt, gf, buildTables, UInt8.toNat_zero]
  rw [Buffer.getD_set_self (by simp only [List.length_map, List.length_range]; omega),
    List.getD_replicate _ b.toNat_lt]

lemma mulAt_zero_right (a : UInt8) : mulAt a 0 = 0 := by
  by_cases ha : a = 0
  · rw [ha, mulAt_zero_left]
  have ha' : 0 ≠ a.toNat := fun h => ha (UInt8.toNat_inj.mp (h.symm.trans (by decide)))
  simp only [mulAt, gf, buildTables, UInt8.toNat_zero]
  rw [Buffer.getD_set_ne ha', List.map_map, Buffer.getD_map_range _ a.toNat_lt]
  simp only [Function.comp_apply]
  exact Buffer.getD_set_self (by simp only [List.length_map, List.length_range]; omega) _ _

/-- The product table on powers adds exponents. -/
lemma mulAt_antilog (i j : ℕ) : mulAt (antilog i) (antilog j) = antilog (i + j) := by
  have hi := Nat.mod_lt i (show 0 < 255 by omega)
  have hj := Nat.mod_lt j (show 0 < 255 by omega)
  rw [← antilog_mod i, ← antilog_mod j, mulAt_of_ne (antilog_ne_zero _) (antilog_ne_zero _),
    log_antilog hi, log_antilog hj, expAt_eq (by omega), ← Nat.add_mod, antilog_mod]

lemma inverseAt_antilog {i : ℕ} (hi : i < 255) : inverseAt (antilog i) = antilog (255 - i) := by
  have hne : (antilog i).toNat ≠ 0 := fun h => antilog_ne_zero i (UInt8.toNat_inj.mp h)
  have hlog := log_antilog hi
  have hexp := expAt_eq (show 255 - i < 510 by omega)
  simp only [expAt, inverseAt, gf, buildTables] at hlog hexp ⊢
  rw [Buffer.getD_map_range _ (antilog i).toNat_lt, if_neg hne, hlog, hexp]

lemma inverseAt_zero : inverseAt 0 = 0 := by
  simp only [inverseAt, gf, buildTables, UInt8.toNat_zero]
  rw [Buffer.getD_map_range _ (by omega), if_pos rfl]

/-! ## The field

With every nonzero byte a power, the laws of multiplication are those of addition modulo 255, and
the distributive law is the linearity of doubling, iterated.
-/

/-- A byte read as an element of the field: sums are xors, products and inverses table lookups. -/
structure Gf where
  val : UInt8
deriving DecidableEq

namespace Gf

protected lemma ext {a b : Gf} (h : a.val = b.val) : a = b :=
  congrArg Gf.mk h

instance : Zero Gf := ⟨⟨0⟩⟩
instance : One Gf := ⟨⟨1⟩⟩
instance : Add Gf := ⟨fun a b => ⟨a.val ^^^ b.val⟩⟩
instance : Neg Gf := ⟨fun a => a⟩
instance : Mul Gf := ⟨fun a b => ⟨mulAt a.val b.val⟩⟩
instance : Inv Gf := ⟨fun a => ⟨inverseAt a.val⟩⟩

@[simp] lemma zero_val : (0 : Gf).val = 0 := rfl
@[simp] lemma one_val : (1 : Gf).val = 1 := rfl
@[simp] lemma add_val (a b : Gf) : (a + b).val = a.val ^^^ b.val := rfl
@[simp] lemma neg_val (a : Gf) : (-a).val = a.val := rfl
@[simp] lemma mul_val (a b : Gf) : (a * b).val = mulAt a.val b.val := rfl
@[simp] lemma inv_val (a : Gf) : (a⁻¹).val = inverseAt a.val := rfl

/-- Every element is zero or a power of the generator. -/
lemma eq_zero_or_antilog (a : Gf) : a = 0 ∨ ∃ i < 255, a = ⟨antilog i⟩ := by
  by_cases h : a.val = 0
  · exact .inl (Gf.ext h)
  · obtain ⟨i, hi, hia⟩ := exists_antilog h
    exact .inr ⟨i, hi, Gf.ext hia.symm⟩

/-- Multiplying by a power is doubling that many times. -/
lemma mulAt_antilog_left (i : ℕ) (b : UInt8) : mulAt (antilog i) b = double^[i] b := by
  by_cases hb : b = 0
  · rw [hb, mulAt_zero_right, Function.iterate_fixed (by decide)]
  · obtain ⟨j, -, rfl⟩ := exists_antilog hb
    rw [mulAt_antilog, antilog_add]

lemma iterate_double_xor (i : ℕ) (a b : UInt8) :
    double^[i] (a ^^^ b) = double^[i] a ^^^ double^[i] b := by
  induction i generalizing a b with
  | zero => rfl
  | succ i ih => rw [Function.iterate_succ_apply, Function.iterate_succ_apply,
      Function.iterate_succ_apply, double_xor, ih]

protected lemma mul_comm (a b : Gf) : a * b = b * a := by
  rcases a.eq_zero_or_antilog with rfl | ⟨i, -, rfl⟩
  · exact Gf.ext (by simp [mulAt_zero_left, mulAt_zero_right])
  rcases b.eq_zero_or_antilog with rfl | ⟨j, -, rfl⟩
  · exact Gf.ext (by simp [mulAt_zero_left, mulAt_zero_right])
  apply Gf.ext
  simp only [mul_val, mulAt_antilog, Nat.add_comm]

protected lemma mul_assoc (a b c : Gf) : a * b * c = a * (b * c) := by
  rcases a.eq_zero_or_antilog with rfl | ⟨i, -, rfl⟩
  · exact Gf.ext (by simp [mulAt_zero_left])
  rcases b.eq_zero_or_antilog with rfl | ⟨j, -, rfl⟩
  · exact Gf.ext (by simp [mulAt_zero_left, mulAt_zero_right])
  rcases c.eq_zero_or_antilog with rfl | ⟨l, -, rfl⟩
  · exact Gf.ext (by simp [mulAt_zero_right])
  apply Gf.ext
  simp only [mul_val, mulAt_antilog, Nat.add_assoc]

protected lemma one_mul (a : Gf) : 1 * a = a :=
  Gf.ext (mulAt_antilog_left 0 a.val)

protected lemma left_distrib (a b c : Gf) : a * (b + c) = a * b + a * c := by
  rcases a.eq_zero_or_antilog with rfl | ⟨i, -, rfl⟩
  · exact Gf.ext (by simp [mulAt_zero_left])
  · apply Gf.ext
    simp only [mul_val, add_val, mulAt_antilog_left, iterate_double_xor]

protected lemma mul_inv_cancel (a : Gf) (ha : a ≠ 0) : a * a⁻¹ = 1 := by
  rcases a.eq_zero_or_antilog with rfl | ⟨i, hi, rfl⟩
  · exact absurd rfl ha
  · apply Gf.ext
    simp only [mul_val, inv_val, one_val, inverseAt_antilog hi, mulAt_antilog]
    rw [show i + (255 - i) = 255 by omega, ← antilog_mod]
    rfl

/-- **The tables compute a field.** -/
instance : Field Gf where
  add_assoc a b c := Gf.ext (UInt8.xor_assoc _ _ _)
  zero_add a := Gf.ext UInt8.zero_xor
  add_zero a := Gf.ext UInt8.xor_zero
  add_comm a b := Gf.ext (UInt8.xor_comm _ _)
  neg_add_cancel a := Gf.ext UInt8.xor_self
  mul_assoc := Gf.mul_assoc
  mul_comm := Gf.mul_comm
  one_mul := Gf.one_mul
  mul_one a := by rw [Gf.mul_comm, Gf.one_mul]
  left_distrib := Gf.left_distrib
  right_distrib a b c := by rw [Gf.mul_comm, Gf.left_distrib, Gf.mul_comm c a, Gf.mul_comm c b]
  zero_mul a := Gf.ext (mulAt_zero_left _)
  mul_zero a := Gf.ext (mulAt_zero_right _)
  exists_pair_ne := ⟨0, 1, fun h => absurd (congrArg Gf.val h) (by decide)⟩
  mul_inv_cancel := Gf.mul_inv_cancel
  inv_zero := Gf.ext inverseAt_zero
  nsmul := nsmulRec
  zsmul := zsmulRec
  nnqsmul := _
  nnqsmul_def _ _ := rfl
  qsmul := _
  qsmul_def _ _ := rfl

/-- In characteristic two subtraction is addition. -/
lemma sub_eq_add' (a b : Gf) : a - b = a + b := by
  rw [sub_eq_add_neg]
  rfl

/-- The generator. -/
def gen : Gf := ⟨2⟩

lemma gen_pow (i : ℕ) : gen ^ i = ⟨antilog i⟩ := by
  induction i with
  | zero => rfl
  | succ i ih =>
      rw [pow_succ, ih]
      exact Gf.ext (mulAt_antilog i 1)

end Gf

/-- `exp` holds the powers of the generator. -/
lemma expAt_eq_gen_pow {i : ℕ} (hi : i < 510) : (⟨expAt i⟩ : Gf) = Gf.gen ^ i := by
  rw [expAt_eq hi, Gf.gen_pow]

/-- The powers `g^1, …, g^255` are distinct. -/
lemma gen_pow_injOn : Set.InjOn (fun i : ℕ => Gf.gen ^ i) (Set.Icc 1 255) := by
  intro i hi j hj hij
  simp only [Gf.gen_pow, Gf.mk.injEq] at hij
  rw [← antilog_mod i, ← antilog_mod j] at hij
  have hmod := antilog_injOn (Nat.mod_lt i (by omega)) (Nat.mod_lt j (by omega)) hij
  simp only [Set.mem_Icc] at hi hj
  omega

-- from here on the tables are known by what they hold, never unfolded
attribute [irreducible] expAt inverseAt mulAt

end Storj.Ec
