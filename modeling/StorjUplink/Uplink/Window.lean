import StorjUplink.Uplink.Decode

/-!
# The window of a requested range

A range of plaintext is served by whole blocks, and blocks by whole stripes.  `Window` holds the
four numbers that this takes, `b0 ≤ b1` for the blocks and `s0 ≤ s1` for the stripes, with the
inequalities that say each covers the one inside it.  The integer arithmetic of
`calc_encompassing_blocks`, `piece_byte_range` and `decrypt_remote`, saturation included, computes
exactly these numbers for a range inside a segment that was encrypted and encoded.

Downloading a range means three roundings: the range out to blocks, the blocks out to stripes, and
the stripes to bytes of each piece.  After decoding and opening, what was rounded up is cut off
again, at the front by the offset inside the first block and at the back by the size of the
plaintext.

The functions of the source compute each step with saturating or plain arithmetic on `i64`.
Instead of carrying their expressions through every proof, the four numbers are named once,
together with the inequalities between them, and the functions are shown to return these numbers.
-/

namespace Storj.Uplink

open Buffer MachineInt Enc Ec

/-! ## Rounding

Division with a remainder, on naturals and for the quotients that the source computes.
-/

/-- Division rounded up. -/
def ceilDiv (a b : ℕ) : ℕ := (a + b - 1) / b

lemma ceilDiv_eq {a b : ℕ} (hb : 0 < b) :
    ceilDiv a b = if a % b = 0 then a / b else a / b + 1 := by
  have hdm := Nat.div_add_mod a b
  have hlt := Nat.mod_lt a hb
  rw [ceilDiv]
  split_ifs with h
  · rw [show a + b - 1 = b * (a / b) + (b - 1) by omega, Nat.mul_add_div hb,
      Nat.div_eq_of_lt (show b - 1 < b by omega), Nat.add_zero]
  · rw [show a + b - 1 = b * (a / b + 1) + (a % b - 1) by rw [Nat.mul_add]; omega,
      Nat.mul_add_div hb, Nat.div_eq_of_lt (show a % b - 1 < b by omega), Nat.add_zero]

/-- Rounding up covers. -/
lemma le_ceilDiv_mul (a : ℕ) {b : ℕ} (hb : 0 < b) : a ≤ ceilDiv a b * b := by
  have hdm := Nat.div_add_mod a b
  rw [ceilDiv_eq hb]
  split_ifs with h
  · rw [Nat.mul_comm]
    omega
  · have hlt := Nat.mod_lt a hb
    rw [Nat.add_mul, Nat.mul_comm]
    omega

/-- Rounding up stays below the next multiple. -/
lemma ceilDiv_le {a b c : ℕ} (hb : 0 < b) (h : a ≤ c * b) : ceilDiv a b ≤ c := by
  rw [ceilDiv]
  refine Nat.lt_succ_iff.mp ((Nat.div_lt_iff_lt_mul hb).mpr ?_)
  rw [Nat.succ_mul]
  omega

/-- A sum that saturates still rounds up right, if the rounded value itself fits. -/
lemma min_div_eq_ceilDiv {a b m : ℕ} (hb : 0 < b) (h : ceilDiv a b * b ≤ m) :
    min (a + b - 1) m / b = ceilDiv a b := by
  refine le_antisymm (Nat.div_le_div_right (Nat.min_le_left _ _)) ?_
  rw [Nat.le_div_iff_mul_le hb]
  exact Nat.le_min.mpr ⟨Nat.div_mul_le_self _ _, h⟩

/-- What `calc_encompassing_blocks` computes for a range that is not empty. -/
lemma calcEncompassingBlocks_eq {start len pb : ℕ} (hlen : 0 < len) (hpb : 0 < pb) :
    calcEncompassingBlocks start len pb
      = (((start / pb : ℕ) : ℤ), ((ceilDiv (start + len) pb : ℕ) : ℤ) - (start / pb : ℕ)) := by
  have hstop : (start : ℤ) + len = ((start + len : ℕ) : ℤ) := (Nat.cast_add _ _).symm
  rw [calcEncompassingBlocks]
  dsimp only
  rw [hstop, ← Int.ofNat_tdiv, ← Int.ofNat_tdiv, ← Int.ofNat_tmod, if_neg (by omega),
    ceilDiv_eq hpb]
  have hiff : (((start + len) % pb : ℕ) : ℤ) = 0 ↔ (start + len) % pb = 0 := by omega
  simp only [hiff]
  split_ifs
  · rfl
  · rw [Nat.cast_add, Nat.cast_one]
    congr 1
    ring

/-! ## The window

The first and the last block are those of the first and the last byte, and the stripes are those of
the blocks.
-/

/-- The blocks `b0 .. b1` and stripes `s0 .. s1` that serve a range. -/
structure Window where
  b0 : ℕ
  b1 : ℕ
  s0 : ℕ
  s1 : ℕ

/-- The window of the range `start .. start + len`, for plaintext blocks of `pb` bytes, encrypted
blocks of `eb` and stripes of `stripe`. -/
def windowOf (start len pb eb stripe : ℕ) : Window :=
  let b0 := start / pb
  let b1 := ceilDiv (start + len) pb
  { b0, b1, s0 := b0 * eb / stripe, s1 := ceilDiv (b1 * eb) stripe }

/-- An encoded segment and a range inside it: what every function below is given. -/
structure Request (dec : Transformer) (plain enc padding : List UInt8) (rs : Redundancy)
    (nStripes start len : ℕ) where
  seg : Segment dec plain enc
  k_pos : 0 < rs.k
  shareSize_pos : 0 < rs.shareSize
  stripe_le : rs.stripeSize ≤ isizeMax
  padded_le : (enc ++ padding).length ≤ isizeMax
  length_padded : (enc ++ padding).length = nStripes * rs.stripeSize
  len_pos : 0 < len
  range_le : start + len ≤ plain.length

namespace Request

variable {dec : Transformer} {plain enc padding : List UInt8} {rs : Redundancy}
  {nStripes start len : ℕ} (r : Request dec plain enc padding rs nStripes start len)

include r

lemma stripe_pos : 0 < rs.stripeSize := Nat.mul_pos r.k_pos r.shareSize_pos

/-- The window of the range. -/
def window (_ : Request dec plain enc padding rs nStripes start len) : Window :=
  windowOf start len dec.outBlockSize dec.inBlockSize rs.stripeSize

lemma b0_mul_le : r.window.b0 * dec.outBlockSize ≤ start :=
  Nat.div_mul_le_self _ _

lemma le_b1_mul : start + len ≤ r.window.b1 * dec.outBlockSize :=
  le_ceilDiv_mul _ r.seg.out_pos

lemma b0_lt_b1 : r.window.b0 < r.window.b1 := by
  have h1 := r.b0_mul_le
  have h2 := r.le_b1_mul
  have h3 := r.len_pos
  exact Nat.lt_of_mul_lt_mul_right (a := dec.outBlockSize) (by omega)

lemma b1_le_count : r.window.b1 ≤ r.seg.count :=
  ceilDiv_le r.seg.out_pos (r.range_le.trans r.seg.length_plain_le)

lemma b1_mul_le : r.window.b1 * dec.inBlockSize ≤ enc.length := by
  rw [r.seg.length_enc]
  exact Nat.mul_le_mul_right _ r.b1_le_count

lemma s0_mul_le : r.window.s0 * rs.stripeSize ≤ r.window.b0 * dec.inBlockSize :=
  Nat.div_mul_le_self _ _

lemma le_s1_mul : r.window.b1 * dec.inBlockSize ≤ r.window.s1 * rs.stripeSize :=
  le_ceilDiv_mul _ r.stripe_pos

lemma s1_le : r.window.s1 ≤ nStripes := by
  refine ceilDiv_le r.stripe_pos ?_
  have h1 := r.b1_mul_le
  have h2 := r.length_padded
  rw [List.length_append] at h2
  show r.window.b1 * dec.inBlockSize ≤ _
  omega

lemma s0_le_s1 : r.window.s0 ≤ r.window.s1 := by
  have h1 := r.s0_mul_le
  have h2 := r.le_s1_mul
  have h3 := Nat.mul_le_mul_right dec.inBlockSize r.b0_lt_b1.le
  exact Nat.le_of_mul_le_mul_right (h1.trans (h3.trans h2)) r.stripe_pos

lemma s1_mul_le : r.window.s1 * rs.stripeSize ≤ isizeMax := by
  refine (Nat.mul_le_mul_right _ r.s1_le).trans ?_
  rw [← r.length_padded]
  exact r.padded_le

lemma enc_le : enc.length ≤ isizeMax := by
  have h := r.padded_le
  rw [List.length_append] at h
  omega

lemma in_le : dec.inBlockSize ≤ isizeMax := by
  have h1 := r.b1_mul_le.trans r.enc_le
  have h2 : 1 * dec.inBlockSize ≤ r.window.b1 * dec.inBlockSize :=
    Nat.mul_le_mul_right _ (by have := r.b0_lt_b1; omega)
  omega

/-- The range ends in the segment, so that `calc_encompassing_blocks` does not panic. -/
lemma not_encompassingBlocksPanics : ¬EncompassingBlocksPanics start len dec.outBlockSize := by
  have hrange := r.range_le
  have hpadded := r.seg.padded_le
  have hpos := r.seg.out_pos
  have hout := r.seg.out_le
  have hsize := natCast_isizeMax
  rw [List.length_append] at hpadded
  rintro (hzero | hlarge | ⟨-, hstop⟩) <;> omega

lemma calcBlocks : calcEncompassingBlocks start len dec.outBlockSize
    = ((r.window.b0 : ℤ), (r.window.b1 : ℤ) - r.window.b0) :=
  calcEncompassingBlocks_eq r.len_pos r.seg.out_pos

/-- **`piece_byte_range` is the window in bytes of a piece**: saturation never changes it. -/
theorem pieceByteRange_eq :
    pieceByteRange start len dec.outBlockSize dec.inBlockSize rs
      = (((r.window.s0 * rs.shareSize : ℕ) : ℤ),
          (((r.window.s1 - r.window.s0) * rs.shareSize : ℕ) : ℤ)) := by
  have hb := r.b0_lt_b1
  have hs := r.s0_le_s1
  have hstripe := r.stripe_pos
  have hss := r.shareSize_pos
  have hin := r.seg.in_pos
  -- everything that is multiplied fits
  have hshare : rs.shareSize ≤ rs.stripeSize := Nat.le_mul_of_pos_left _ r.k_pos
  have hb1 : r.window.b1 * dec.inBlockSize ≤ isizeMax := r.b1_mul_le.trans r.enc_le
  have hb0 : r.window.b0 * dec.inBlockSize ≤ isizeMax :=
    (Nat.mul_le_mul_right _ hb.le).trans hb1
  have hb1' : r.window.b1 ≤ isizeMax := (Nat.le_mul_of_pos_right _ hin).trans hb1
  have hs1 : r.window.s1 * rs.shareSize ≤ isizeMax :=
    (Nat.mul_le_mul_left _ hshare).trans r.s1_mul_le
  have hs0 : r.window.s0 * rs.shareSize ≤ isizeMax := (Nat.mul_le_mul_right _ hs).trans hs1
  have hsub : (r.window.s1 - r.window.s0) * rs.shareSize ≤ isizeMax :=
    (Nat.mul_le_mul_right _ (Nat.sub_le _ _)).trans hs1
  have hend : (r.window.b0 : ℤ) + (r.window.b1 - r.window.b0) = r.window.b1 := by ring
  have hstart' : (r.window.b0 : ℤ) * dec.inBlockSize = (r.window.b0 * dec.inBlockSize : ℕ) :=
    (Nat.cast_mul _ _).symm
  have hend' : (r.window.b1 : ℤ) * dec.inBlockSize = (r.window.b1 * dec.inBlockSize : ℕ) :=
    (Nat.cast_mul _ _).symm
  have hround : ((r.window.b1 * dec.inBlockSize : ℕ) : ℤ) + ((rs.stripeSize : ℤ) - 1)
      = (r.window.b1 * dec.inBlockSize + rs.stripeSize - 1 : ℕ) := by omega
  have hlast : min (r.window.b1 * dec.inBlockSize + rs.stripeSize - 1) isizeMax / rs.stripeSize
      = r.window.s1 := min_div_eq_ceilDiv hstripe r.s1_mul_le
  have hfirst : r.window.b0 * dec.inBlockSize / rs.stripeSize = r.window.s0 := rfl
  have hdiff : ((r.window.s1 : ℤ) - r.window.s0) * rs.shareSize
      = ((r.window.s1 - r.window.s0) * rs.shareSize : ℕ) := by
    rw [Nat.cast_mul, Nat.cast_sub hs]
  have hfirst' : (r.window.s0 : ℤ) * rs.shareSize = (r.window.s0 * rs.shareSize : ℕ) :=
    (Nat.cast_mul _ _).symm
  rw [pieceByteRange, r.calcBlocks]
  dsimp only
  rw [if_neg (by omega), asI64_of_le r.in_le, asI64_of_le r.stripe_le,
    asI64_of_le (hshare.trans r.stripe_le), hend, satI64_natCast hb1', hstart', hend',
    satI64_natCast hb0, satI64_natCast hb1, hround, satI64_natCast_min, if_neg (by omega),
    ← Int.ofNat_tdiv, ← Int.ofNat_tdiv, hlast, hfirst, hdiff, hfirst', satI64_natCast hs0,
    satI64_natCast hsub]

/-- The parameters that a download passes for this range. -/
structure Params (prim : Primitives) (p : DecryptParams) : Prop where
  decrypter : newDecrypter prim p.cipher p.key p.nonce p.encryptedBlockSize = .ok dec
  decodedOffset_eq : p.decodedOffset = r.window.s0 * rs.stripeSize
  encryptedSize_eq : p.encryptedSize = enc.length
  plainStart_eq : p.plainStart = start
  plainLen_eq : p.plainLen = len
  plainSize_eq : p.plainSize = plain.length

/-- Block `b` of the window, in the decoded bytes. -/
def chunkAt (decoded : List UInt8) (b : ℕ) : List UInt8 :=
  slice decoded (b * dec.inBlockSize - r.window.s0 * rs.stripeSize) dec.inBlockSize

lemma plain_le : plain.length ≤ isizeMax := by
  have h := r.seg.padded_le
  rw [List.length_append] at h
  omega

/-- Trimming whole blocks to the range. -/
lemma trimPlain_eq {prim : Primitives} {p : DecryptParams} (h : r.Params prim p)
    {decrypted : List UInt8}
    (hlen : decrypted.length = (r.window.b1 - r.window.b0) * dec.outBlockSize) :
    trimPlain p dec.outBlockSize r.window.b0 decrypted
      = slice decrypted (start - r.window.b0 * dec.outBlockSize) len := by
  have hstart := r.b0_mul_le
  have hend := r.le_b1_mul
  have hrange := r.range_le
  have hplain := r.plain_le
  have hb0 : satI64 ((r.window.b0 : ℤ) * asI64 dec.outBlockSize)
      = (r.window.b0 * dec.outBlockSize : ℕ) := by
    rw [asI64_of_le r.seg.out_le, ← Nat.cast_mul, satI64_natCast (by omega)]
  have hskip : (satI64 ((start : ℤ) - (r.window.b0 * dec.outBlockSize : ℕ))).toNat
      = start - r.window.b0 * dec.outBlockSize := by
    rw [← Nat.cast_sub hstart, satI64_natCast (by omega), Int.toNat_natCast]
  have hvalid : len ≤ decrypted.length - (start - r.window.b0 * dec.outBlockSize) := by
    rw [hlen, Nat.sub_mul]
    omega
  have habs : min ((start : ℤ) + (len : ℤ)) (plain.length : ℤ) = (start : ℤ) + len := by
    rw [min_eq_left]
    exact_mod_cast hrange
  have htake : (satI64 ((start : ℤ) + len - start)).toNat = len := by
    rw [add_sub_cancel_left, satI64_natCast (by omega), Int.toNat_natCast]
  rw [trimPlain, h.plainStart_eq, h.plainLen_eq, h.plainSize_eq, hb0, hskip, Int.toNat_natCast,
    Nat.min_eq_left hvalid, asI64_of_le (by omega), habs, htake]

/-- **`decrypt_remote` decrypts the blocks of the window** and trims them to the range; it always
finds them in the decoded bytes. -/
lemma decryptRemote_eq {prim : Primitives} {p : DecryptParams} (h : r.Params prim p)
    {decoded : List UInt8}
    (hlen : decoded.length = (r.window.s1 - r.window.s0) * rs.stripeSize) :
    decryptRemote prim p decoded
      = concatM (r.window.b1 - r.window.b0) (fun i =>
          decryptTracked dec (r.chunkAt decoded (r.window.b0 + i)) ((r.window.b0 + i : ℕ) : ℤ))
        >>= fun decrypted => .ok (trimPlain p dec.outBlockSize r.window.b0 decrypted) := by
  have hb := r.b0_lt_b1
  have hin := r.seg.in_pos
  have hout := r.seg.out_pos
  have hlen_pos := r.len_pos
  have hrange := r.range_le
  have hs0 := r.s0_mul_le
  have hs1 := r.le_s1_mul
  have hmax := r.s1_mul_le
  have hss := r.s0_le_s1
  have henc := r.b1_mul_le
  have henc' := r.enc_le
  have hmul : r.window.b0 * dec.inBlockSize ≤ r.window.b1 * dec.inBlockSize :=
    Nat.mul_le_mul_right _ hb.le
  have hcount : ((r.window.b1 : ℤ) - r.window.b0).toNat = r.window.b1 - r.window.b0 := by omega
  have hstart : satUsize (r.window.b0 * dec.inBlockSize) = r.window.b0 * dec.inBlockSize :=
    satUsize_of_le_isizeMax (by omega)
  have hwant : satUsize ((r.window.b1 - r.window.b0) * dec.inBlockSize)
      = r.window.b1 * dec.inBlockSize - r.window.b0 * dec.inBlockSize := by
    rw [Nat.sub_mul]
    exact satUsize_of_le_isizeMax (by omega)
  have hstripes : decoded.length
      = r.window.s1 * rs.stripeSize - r.window.s0 * rs.stripeSize := by rw [hlen, Nat.sub_mul]
  have hs01 : r.window.s0 * rs.stripeSize ≤ r.window.s1 * rs.stripeSize :=
    Nat.mul_le_mul_right _ hss
  have havail : satUsize (r.window.s0 * rs.stripeSize + decoded.length)
      = r.window.s1 * rs.stripeSize := by
    rw [satUsize_of_le_isizeMax (by omega)]
    omega
  set start' := r.window.b0 * dec.inBlockSize - r.window.s0 * rs.stripeSize with hstart'
  set width := r.window.b1 * dec.inBlockSize - r.window.b0 * dec.inBlockSize with hwidth
  have hwidth' : width = (r.window.b1 - r.window.b0) * dec.inBlockSize := by
    rw [hwidth, Nat.sub_mul]
  have hslice : (slice decoded start' width).length = width := length_slice (by omega)
  -- the bytes of the window are whole blocks
  have hchunks : (width + dec.inBlockSize - 1) / dec.inBlockSize
      = r.window.b1 - r.window.b0 := by
    have hceil := ceilDiv_eq (a := width) hin
    rw [hwidth', Nat.mul_mod_left, if_pos rfl, Nat.mul_div_cancel _ hin] at hceil
    rw [hwidth']
    exact hceil
  have hchunk : ∀ i < r.window.b1 - r.window.b0,
      slice (slice decoded start' width) (i * dec.inBlockSize) dec.inBlockSize
        = r.chunkAt decoded (r.window.b0 + i) := by
    intro i hi
    have hfit := rowMajor_le (k := dec.inBlockSize) hi
    rw [slice_slice _ _ (by omega), chunkAt]
    congr 1
    rw [Nat.add_mul]
    omega
  rw [decryptRemote, h.plainStart_eq, h.plainLen_eq, h.plainSize_eq, h.decrypter,
    h.decodedOffset_eq, h.encryptedSize_eq, if_neg (by omega)]
  dsimp only
  rw [if_neg (by omega), r.calcBlocks]
  dsimp only
  rw [if_neg (by omega), Int.toNat_natCast, hcount, hstart, hwant, havail,
    if_neg (by omega), hslice, hchunks]
  congr 1
  refine concatM_congr ?_
  intro i hi
  rw [hchunk i hi, Nat.cast_add]

end Request

end Storj.Uplink
