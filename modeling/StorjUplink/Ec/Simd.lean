import StorjUplink.Ec.Matrix
import StorjUplink.Lib.BitPoly

/-!
# Vectorised `addmul`

`gf_simd.rs`: `addmul` in chunks of 16 bytes, with the products looked up in two tables of 16
entries, and the scalar loop for what is left.  NEON shifts bytes; SSSE3 only shifts 16-bit lanes,
so that four bits of each odd byte arrive in the even byte before it, where a mask removes them.

Registers are functions on 16 byte positions and the instructions what their documentation says
(`vqtbl1q`, `mmShuffleEpi8`, `mmSrliEpi16`).  A load or store outside of its buffer is an error, so
that the results also say that there is none.  The tables are right because multiplication by a
constant is linear over the two nibbles (`mulAt_nibbles`), and the product that they stand for is
that of polynomials modulo `0x11d` (`ofNat_mulAt`).
-/

namespace Storj.Ec

open Buffer BitPoly Polynomial

/-! ## The product of the tables

The table is filled from logarithms, and that its entries are products of polynomials modulo
`0x11d` is a fact about it.  Both factors are powers of the generator, and the class of a power is
a power of `X`.
-/

/-- Doubling in the field: a shift, and the polynomial where a bit falls out. -/
lemma toNat_double : ∀ a : UInt8,
    (double a).toNat = (2 * a.toNat) ^^^ (if a.toNat.testBit 7 then 0x11d else 0) :=
  forall_byte (by decide +kernel)

lemma residue_double (a : UInt8) :
    residue 0x11d (double a).toNat = AdjoinRoot.root (ofNat 0x11d) * residue 0x11d a.toNat := by
  rw [toNat_double, residue_xor, residue_two_mul]
  split_ifs
  · rw [residue_self, add_zero]
  · rw [residue_zero, add_zero]

lemma residue_iterate_double (i : ℕ) (a : UInt8) :
    residue 0x11d (double^[i] a).toNat
      = AdjoinRoot.root (ofNat 0x11d) ^ i * residue 0x11d a.toNat := by
  induction i with
  | zero => rw [pow_zero, one_mul, Function.iterate_zero_apply]
  | succ i ih => rw [Function.iterate_succ_apply', residue_double, ih, pow_succ', mul_assoc]

/-- The table has the products of the classes: both factors are powers of the generator. -/
lemma residue_mulAt (a b : UInt8) :
    residue 0x11d (mulAt a b).toNat = residue 0x11d a.toNat * residue 0x11d b.toNat := by
  by_cases ha : a = 0
  · rw [ha, mulAt_zero_left, UInt8.toNat_zero, residue_zero, zero_mul]
  · obtain ⟨i, -, rfl⟩ := exists_antilog ha
    rw [Gf.mulAt_antilog_left, residue_iterate_double, antilog, residue_iterate_double,
      UInt8.toNat_one, residue_one, mul_one]

/-- **The table multiplies polynomials modulo `0x11d`.** -/
theorem ofNat_mulAt (a b : UInt8) :
    ofNat (mulAt a b).toNat = (ofNat a.toNat * ofNat b.toNat) %ₘ ofNat 0x11d := by
  refine ofNat_eq_modByMonic (w := 8) (by decide) (by decide) (mulAt a b).toNat_lt ?_
  rw [residue_mulAt, map_mul]
  rfl

/-! ## Registers

The instructions are modelled from their documentation, each on its own.  Where the two
architectures differ, in a shift and in how a table treats a large index, the model differs too.
-/

/-- A register of 128 bits by its bytes, the lowest first. -/
abbrev Reg := Fin 16 → UInt8

namespace Reg

/-- `vdupq_n_u8` and `_mm_set1_epi8`. -/
def splat (b : UInt8) : Reg := fun _ => b

/-- `vandq_u8` and `_mm_and_si128`. -/
def and (a b : Reg) : Reg := fun i => a i &&& b i

/-- `veorq_u8` and `_mm_xor_si128`. -/
def xor (a b : Reg) : Reg := fun i => a i ^^^ b i

/-- `vshrq_n_u8::<4>`. -/
def vshrqN4 (a : Reg) : Reg := fun i => a i >>> 4

/-- `vqtbl1q_u8`: an index out of range gives zero. -/
def vqtbl1q (t idx : Reg) : Reg := fun i =>
  if h : (idx i).toNat < 16 then t ⟨(idx i).toNat, h⟩ else 0

/-- `_mm_shuffle_epi8`: the low four bits are the index, a top bit that is set gives zero. -/
def mmShuffleEpi8 (t idx : Reg) : Reg := fun i =>
  if idx i &&& 0x80 ≠ 0 then 0 else t ⟨(idx i).toNat % 16, Nat.mod_lt _ (by decide)⟩

/-- The 16-bit lane with byte `i`, the low byte first. -/
def lane (a : Reg) (i : Fin 16) : UInt16 :=
  (a ⟨2 * (i.val / 2), by omega⟩).toUInt16 ||| (a ⟨2 * (i.val / 2) + 1, by omega⟩).toUInt16 <<< 8

/-- `_mm_srli_epi16::<4>`. -/
def mmSrliEpi16 (a : Reg) : Reg := fun i =>
  if i.val % 2 = 0 then (a.lane i >>> 4).toUInt8 else ((a.lane i >>> 4) >>> 8).toUInt8

end Reg

/-- The loads and stores of 16 bytes that are undefined. -/
inductive Undefined where
  | outside
deriving DecidableEq, Repr

/-- `vld1q_u8` and `_mm_loadu_si128`: sixteen bytes from an offset, undefined where they are not all
there. -/
def loadu (buf : List UInt8) (off : ℕ) : Except Undefined Reg :=
  if off + 16 ≤ buf.length then .ok fun i => buf.getD (off + i) 0 else .error .outside

/-- `vst1q_u8` and `_mm_storeu_si128`: sixteen bytes at an offset, undefined where they do not fit.
-/
def storeu (buf : List UInt8) (off : ℕ) (r : Reg) : Except Undefined (List UInt8) :=
  if off + 16 ≤ buf.length then .ok (splice buf off (List.ofFn r)) else .error .outside

/-! ## The code

Two tables of sixteen products, one for each nibble of the factor, and a loop over chunks.  The
rest that is shorter than a chunk is left to the scalar loop.
-/

/-- `nibble_tables`: the products of a coefficient with the sixteen low and the sixteen high halves
of a byte. -/
def nibbleTables (y : UInt8) : Reg × Reg :=
  (fun i => mulAt y (UInt8.ofNat i), fun i => mulAt y (UInt8.ofNat (i.val <<< 4)))

/-- The products of a chunk on aarch64: each byte is masked to its low nibble and shifted to its
high one, and both index a table. -/
def neonProduct (y : UInt8) (xv : Reg) : Reg :=
  let (lo, hi) := nibbleTables y
  let mask := Reg.splat 0x0f
  let l := Reg.vqtbl1q lo (xv.and mask)
  let h := Reg.vqtbl1q hi xv.vshrqN4
  l.xor h

/-- The products of a chunk on x86-64.  The shift is one of 16-bit lanes, so its result is masked
once more. -/
def ssse3Product (y : UInt8) (xv : Reg) : Reg :=
  let (lo, hi) := nibbleTables y
  let mask := Reg.splat 0x0f
  let l := Reg.mmShuffleEpi8 lo (xv.and mask)
  let h := Reg.mmShuffleEpi8 hi (xv.mmSrliEpi16.and mask)
  l.xor h

/-- One chunk: load, multiply, add and store. -/
def addmulChunk (product : Reg → Reg) (x z : List UInt8) (c : ℕ) :
    Except Undefined (List UInt8) := do
  let off := c * 16
  let xv ← loadu x off
  let zv ← loadu z off
  storeu z off (zv.xor (product xv))

/-- The two vectorised functions, but for the product: chunks, then the scalar tail. -/
def addmulVector (product : UInt8 → Reg → Reg) (z x : List UInt8) (y : UInt8) :
    Except Undefined (List UInt8) := do
  let chunks := z.length / 16
  let z ← (List.range chunks).foldlM (addmulChunk (product y) x) z
  let done := chunks * 16
  .ok (z.take done ++ addmulScalar (z.drop done) (x.drop done) y)

/-- `addmul_neon`. -/
def addmulNeon : List UInt8 → List UInt8 → UInt8 → Except Undefined (List UInt8) :=
  addmulVector neonProduct

/-- `addmul_ssse3`. -/
def addmulSsse3 : List UInt8 → List UInt8 → UInt8 → Except Undefined (List UInt8) :=
  addmulVector ssse3Product

/-- The host, and whether it has SSSE3. -/
inductive Host where
  | aarch64
  | x86 (ssse3 : Bool)
  | other
deriving DecidableEq, Repr

/-- `addmul` on a host: nothing for a factor of zero, the vectorised function where the host has it,
else the scalar loop. -/
def addmulOn (host : Host) (z x : List UInt8) (y : UInt8) : Except Undefined (List UInt8) :=
  if y = 0 ∨ z = [] then .ok z
  else
    let x := x.take z.length
    match host with
    | .aarch64 => addmulNeon z x y
    | .x86 true => addmulSsse3 z x y
    | _ => .ok (addmulScalar z x y)

/-! ## The products of a chunk

Both ways to split a byte into nibbles give the same two indices, and the sum of the two products
is the product.
-/

lemma toNat_and_15 (a : UInt8) : (a &&& 0x0f).toNat = a.toNat % 16 := by
  rw [UInt8.toNat_and]
  exact Nat.and_two_pow_sub_one_eq_mod _ 4

lemma toNat_shiftRight_4 (a : UInt8) : (a >>> 4).toNat = a.toNat / 16 := by
  rw [UInt8.toNat_shiftRight]
  exact Nat.shiftRight_eq_div_pow _ 4

/-- A byte is the sum of its nibbles. -/
lemma nibbles : ∀ a : UInt8, a = UInt8.ofNat (a.toNat % 16) ^^^ UInt8.ofNat ((a.toNat / 16) <<< 4) :=
  forall_byte (by decide +kernel)

/-- **Multiplication by a constant is linear over the nibbles.** -/
lemma mulAt_nibbles (y a : UInt8) : mulAt y a
    = mulAt y (UInt8.ofNat (a.toNat % 16)) ^^^ mulAt y (UInt8.ofNat ((a.toNat / 16) <<< 4)) := by
  have hdistrib := congrArg Gf.val (Gf.left_distrib ⟨y⟩ ⟨UInt8.ofNat (a.toNat % 16)⟩
    ⟨UInt8.ofNat ((a.toNat / 16) <<< 4)⟩)
  simp only [Gf.mul_val, Gf.add_val] at hdistrib
  rw [← hdistrib, ← nibbles]

/-- A table by an index in range. -/
lemma vqtbl1q_of_lt {t idx : Reg} {i : Fin 16} (h : (idx i).toNat < 16) :
    Reg.vqtbl1q t idx i = t ⟨(idx i).toNat, h⟩ := by
  rw [Reg.vqtbl1q, dif_pos h]

lemma mmShuffleEpi8_of_lt {t idx : Reg} {i : Fin 16} (h : (idx i).toNat < 16) :
    Reg.mmShuffleEpi8 t idx i = t ⟨(idx i).toNat, h⟩ := by
  have htop : ∀ a : UInt8, a.toNat < 16 → a &&& 0x80 = 0 := forall_byte (by decide +kernel)
  rw [Reg.mmShuffleEpi8, if_neg (not_not.mpr (htop _ h))]
  congr 1
  exact Fin.ext (Nat.mod_eq_of_lt h)

lemma neonProduct_apply (y : UInt8) (xv : Reg) (i : Fin 16) :
    neonProduct y xv i = mulAt y (xv i) := by
  have hlow : (xv.and (Reg.splat 0x0f) i).toNat = (xv i).toNat % 16 := toNat_and_15 _
  have hhigh : (xv.vshrqN4 i).toNat = (xv i).toNat / 16 := toNat_shiftRight_4 _
  have hlt := (xv i).toNat_lt
  rw [mulAt_nibbles]
  simp only [neonProduct, nibbleTables, Reg.xor]
  rw [vqtbl1q_of_lt (by omega), vqtbl1q_of_lt (by omega)]
  simp only [hlow, hhigh]

/-- A lane as a number. -/
lemma toNat_lane (lo hi : UInt8) :
    (lo.toUInt16 ||| hi.toUInt16 <<< 8).toNat = lo.toNat + 256 * hi.toNat := by
  have hlo := lo.toNat_lt
  have hhi := hi.toNat_lt
  have h8 : (8 : UInt16).toNat % 16 = 8 := rfl
  rw [UInt16.toNat_or, UInt16.toNat_shiftLeft, UInt8.toNat_toUInt16, UInt8.toNat_toUInt16, h8,
    Nat.shiftLeft_eq, Nat.mod_eq_of_lt (by omega), Nat.or_comm, Nat.mul_comm hi.toNat,
    ← Nat.two_pow_add_eq_or_of_lt (i := 8) hlo]
  omega

/-- **The mask removes what the shift brought in from the neighbour.** -/
lemma mmSrliEpi16_and (xv : Reg) (i : Fin 16) :
    xv.mmSrliEpi16.and (Reg.splat 0x0f) i = xv i >>> 4 := by
  have hlt := (xv i).toNat_lt
  apply UInt8.toNat_inj.mp
  show (xv.mmSrliEpi16 i &&& 0x0f).toNat = _
  rw [toNat_and_15, toNat_shiftRight_4, Reg.mmSrliEpi16]
  split_ifs with heven
  · -- the low byte of its lane
    have hself : (⟨2 * (i.val / 2), by omega⟩ : Fin 16) = i := Fin.ext (by simp; omega)
    rw [UInt16.toNat_toUInt8, UInt16.toNat_shiftRight, Reg.lane, toNat_lane, hself]
    show (_ >>> 4) % 2 ^ 8 % 16 = _
    rw [Nat.shiftRight_eq_div_pow]
    omega
  · have hself : (⟨2 * (i.val / 2) + 1, by omega⟩ : Fin 16) = i := Fin.ext (by simp; omega)
    have hlow := (xv ⟨2 * (i.val / 2), by omega⟩).toNat_lt
    rw [UInt16.toNat_toUInt8, UInt16.toNat_shiftRight, UInt16.toNat_shiftRight, Reg.lane,
      toNat_lane, hself]
    show ((_ >>> 4) >>> 8) % 2 ^ 8 % 16 = _
    rw [Nat.shiftRight_eq_div_pow, Nat.shiftRight_eq_div_pow]
    omega

lemma ssse3Product_apply (y : UInt8) (xv : Reg) (i : Fin 16) :
    ssse3Product y xv i = mulAt y (xv i) := by
  have hlow : (xv.and (Reg.splat 0x0f) i).toNat = (xv i).toNat % 16 := toNat_and_15 _
  have hhigh : (xv.mmSrliEpi16.and (Reg.splat 0x0f) i).toNat = (xv i).toNat / 16 := by
    rw [mmSrliEpi16_and, toNat_shiftRight_4]
  have hlt := (xv i).toNat_lt
  rw [mulAt_nibbles]
  simp only [ssse3Product, nibbleTables, Reg.xor]
  rw [mmShuffleEpi8_of_lt (by omega), mmShuffleEpi8_of_lt (by omega)]
  simp only [hlow, hhigh]

/-! ## Chunks and tail

After `c` chunks the first `16 c` bytes are done and the others untouched; no load or store is past
the end.
-/

/-- The buffer after `c` chunks. -/
structure Chunked (z x : List UInt8) (y : UInt8) (c : ℕ) (t : List UInt8) : Prop where
  length_eq : t.length = z.length
  getD_eq : ∀ p < z.length, t.getD p 0
    = if p < c * 16 then z.getD p 0 ^^^ mulAt y (x.getD p 0) else z.getD p 0

section Loop

variable {product : UInt8 → Reg → Reg} {z x t : List UInt8} {y : UInt8} {c : ℕ}

/-- **One chunk**, with its loads and stores in range. -/
lemma Chunked.step (h : Chunked z x y c t)
    (hproduct : ∀ y xv i, product y xv i = mulAt y (xv i)) (hlen : z.length ≤ x.length)
    (hc : c < z.length / 16) :
    ∃ t', addmulChunk (product y) x t c = .ok t' ∧ Chunked z x y (c + 1) t' := by
  have hroom : c * 16 + 16 ≤ z.length := by omega
  have hload : ∀ buf : List UInt8, z.length ≤ buf.length →
      loadu buf (c * 16) = .ok fun i => buf.getD (c * 16 + i) 0 := by
    intro buf hbuf
    rw [loadu, if_pos (by omega)]
  set r : Reg := Reg.xor (fun i => t.getD (c * 16 + i) 0)
    (product y fun i => x.getD (c * 16 + i) 0) with hr
  have hr_len : (List.ofFn r).length = 16 := List.length_ofFn
  have hsize := h.length_eq
  refine ⟨splice t (c * 16) (List.ofFn r), ?_, ?_, ?_⟩
  · rw [addmulChunk, hload x hlen, Fallible.ok_bind, hload t h.length_eq.ge, Fallible.ok_bind,
      storeu, if_pos (by omega)]
  · rw [length_splice (by omega), h.length_eq]
  · intro p hp
    by_cases hin : c * 16 ≤ p ∧ p < c * 16 + 16
    · obtain ⟨q, rfl⟩ : ∃ q, p = c * 16 + q := ⟨p - c * 16, by omega⟩
      have hq : q < (List.ofFn r).length := by omega
      rw [getD_splice_of_mem (by omega) hq, if_pos (by omega), List.getD_eq_getElem _ _ hq,
        List.getElem_ofFn, hr, Reg.xor, hproduct]
      dsimp only
      rw [h.getD_eq _ hp, if_neg (by omega)]
    · rw [getD_splice_of_notMem (by omega) (by omega), h.getD_eq p hp]
      congr 1
      simp only [eq_iff_iff]
      omega

/-- **The vectorised functions compute the scalar one.** -/
theorem addmulVector_eq (hproduct : ∀ y xv i, product y xv i = mulAt y (xv i))
    (hlen : z.length ≤ x.length) :
    addmulVector product z x y = .ok (addmulScalar z x y) := by
  obtain ⟨t, ht, hchunked⟩ := foldlM_range_induction (P := fun c t => Chunked z x y c t)
    (f := addmulChunk (product y) x) (s := z) (n := z.length / 16)
    ⟨rfl, by simp⟩ fun c hc t h => h.step hproduct hlen hc
  rw [addmulVector]
  dsimp only
  rw [ht, Fallible.ok_bind, Except.ok.injEq]
  have hsize := hchunked.length_eq
  have hhead : (t.take (z.length / 16 * 16)).length = z.length / 16 * 16 := by
    rw [List.length_take]
    omega
  refine ext_getD 0 ?_ ?_
  · rw [List.length_append, length_addmulScalar, length_addmulScalar, List.length_drop, hhead]
    omega
  · intro p hp
    rw [List.length_append, length_addmulScalar, List.length_drop, hhead] at hp
    rw [getD_addmulScalar y (by omega) (by omega)]
    by_cases hdone : p < z.length / 16 * 16
    · -- written by a chunk
      have htake : (t.take (z.length / 16 * 16)).getD p 0 = t.getD p 0 := by
        simp [List.getD_eq_getElem?_getD, hdone]
      rw [List.getD_append _ _ _ _ (by omega), htake, hchunked.getD_eq p (by omega),
        if_pos hdone]
    · -- left to the scalar loop
      obtain ⟨q, rfl⟩ : ∃ q, p = z.length / 16 * 16 + q := ⟨p - z.length / 16 * 16, by omega⟩
      have hdrop : ∀ buf : List UInt8, (buf.drop (z.length / 16 * 16)).getD q 0
          = buf.getD (z.length / 16 * 16 + q) 0 := by
        intro buf
        simp [List.getD_eq_getElem?_getD]
      rw [List.getD_append_right _ _ _ _ (by omega), hhead, Nat.add_sub_cancel_left,
        getD_addmulScalar y (by rw [List.length_drop]; omega) (by rw [List.length_drop]; omega),
        hdrop, hdrop, hchunked.getD_eq _ (by omega), if_neg hdone]

end Loop

/-- What the early return skips is nothing. -/
lemma addmul_eq_addmulScalar {z x : List UInt8} (y : UInt8) (hlen : z.length ≤ x.length) :
    addmul z x y = addmulScalar z (x.take z.length) y := by
  refine ext_getD 0 (by rw [length_addmul, length_addmulScalar]) ?_
  intro p hp
  rw [length_addmul] at hp
  have htake : (x.take z.length).getD p 0 = x.getD p 0 := by
    simp [List.getD_eq_getElem?_getD, hp]
  rw [getD_addmul y hlen hp, getD_addmulScalar y hp (by rw [List.length_take]; omega), htake]

/-- **Every host computes the `addmul` of the codec.** -/
theorem addmulOn_eq_addmul (host : Host) {z x : List UInt8} (y : UInt8)
    (hlen : z.length ≤ x.length) : addmulOn host z x y = .ok (addmul z x y) := by
  have hcut : z.length ≤ (x.take z.length).length := by
    rw [List.length_take]
    omega
  rw [addmulOn, addmul]
  split_ifs
  · rfl
  · cases host with
    | aarch64 => exact addmulVector_eq neonProduct_apply hcut
    | x86 ssse3 =>
        cases ssse3 with
        | true => exact addmulVector_eq ssse3Product_apply hcut
        | false => rfl
    | other => rfl

/-- **Vectorised `addmul` equals the scalar one**, on every host, and both add the product of
polynomials modulo `0x11d` to each byte. -/
theorem addmul_vectorised (y : UInt8) (z x : List UInt8) (hlen : z.length ≤ x.length) :
    addmulSsse3 z (x.take z.length) y = .ok (addmulScalar z (x.take z.length) y) ∧
      addmulNeon z (x.take z.length) y = .ok (addmulScalar z (x.take z.length) y) ∧
      (∀ host, addmulOn host z x y = .ok (addmulScalar z (x.take z.length) y)) ∧
      (addmulScalar z (x.take z.length) y).length = z.length ∧
      ∀ p < z.length, ofNat ((addmulScalar z (x.take z.length) y).getD p 0).toNat
        = ofNat (z.getD p 0).toNat
          + (ofNat y.toNat * ofNat (x.getD p 0).toNat) %ₘ ofNat 0x11d := by
  have hcut : z.length ≤ (x.take z.length).length := by
    rw [List.length_take]
    omega
  refine ⟨addmulVector_eq ssse3Product_apply hcut, addmulVector_eq neonProduct_apply hcut, ?_,
    length_addmulScalar _ _ _, ?_⟩
  · intro host
    rw [addmulOn_eq_addmul host y hlen, addmul_eq_addmulScalar y hlen]
  · intro p hp
    rw [← addmul_eq_addmulScalar y hlen, getD_addmul y hlen hp, UInt8.toNat_xor, ofNat_xor,
      ofNat_mulAt]

/-- A chunk and a byte of tail: `1 + 3 * 2 = 7` in each place. -/
theorem addmul_vectorised_seventeen :
    addmulSsse3 (List.replicate 17 1) (List.replicate 17 2) 3 = .ok (List.replicate 17 7) ∧
      addmulNeon (List.replicate 17 1) (List.replicate 17 2) 3 = .ok (List.replicate 17 7) := by
  obtain ⟨hssse3, hneon, -⟩ :=
    addmul_vectorised 3 (List.replicate 17 1) (List.replicate 18 2) (by decide)
  have hproduct : mulAt 3 2 = 6 := by
    have hcomm : mulAt 3 2 = mulAt (antilog 1) 3 := congrArg Gf.val (Gf.mul_comm ⟨3⟩ ⟨2⟩)
    rw [hcomm, Gf.mulAt_antilog_left]
    rfl
  have hscalar : addmulScalar (List.replicate 17 1) (List.replicate 17 2) 3
      = List.replicate 17 7 := by
    have hsum : (1 : UInt8) ^^^ 6 = 7 := by decide
    simp [addmulScalar, hproduct, hsum]
  have htake : (List.replicate 18 (2 : UInt8)).take (List.replicate 17 (1 : UInt8)).length
      = List.replicate 17 2 := by decide
  rw [htake, hscalar] at hssse3 hneon
  exact ⟨hssse3, hneon⟩

end Storj.Ec
