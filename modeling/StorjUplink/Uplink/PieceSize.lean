import StorjUplink.Enc.Padded
import StorjUplink.Uplink.Pipeline

/-!
# The size of the pieces

The satellite checks the pieces of a segment against `calc_piece_size` of `pipeline.rs`, which
counts stripes with a ceiling division.  `encode_pieces` pads the segment to whole stripes, so the
number of stripes is the same (`Enc.blocks_eq`) and a piece has one share of each.

The first `k` shares of a stripe are the stripe itself.  Read share by share, the first `k` pieces
are the padded segment (`Pieces.interleave`).

Two computations of one number, made in two places and in two ways, have to agree, or the satellite
rejects every segment of some sizes.  The encoder pads: up to whole blocks for the cipher, then
once more up to whole stripes.  The formula counts: blocks, bytes, stripes, and shares.  The
formula uses signed arithmetic and overflows for segments whose encrypted size is near the end of
the range, while the encoder does not.

Reading the pieces back together needs no decoder if the first `k` are there: the bytes of a stripe
are its first `k` shares, one after the other.
-/

namespace Storj.Uplink

open Buffer MachineInt Enc Ec

/-- `calc_piece_size`, in the checked arithmetic of an `i64`: each of its steps panics where it
would overflow. -/
def calcPieceSize (encryptedSize : ℤ) (rs : Redundancy) : Except Enc.Error ℤ := do
  let stripe := asI64 rs.stripeSize
  if stripe = 0 ∨ rs.k = 0 then .ok 0
  else
    let x ← checkedI64 (encryptedSize + uint32Size) "attempt to add with overflow"
    let x ← checkedI64 (x + stripe) "attempt to add with overflow"
    let x ← checkedI64 (x - 1) "attempt to subtract with overflow"
    let stripes ← checkedI64 (x.tdiv stripe) "attempt to divide with overflow"
    let size ← checkedI64 (stripes * stripe) "attempt to multiply with overflow"
    checkedI64 (size.tdiv (asI64 rs.k)) "attempt to divide with overflow"

/-- The first `k` pieces, share by share. -/
def interleave (rs : Redundancy) (pieces : List (List UInt8)) : List UInt8 :=
  concat ((pieces.getD 0 []).length / rs.shareSize) fun s =>
    concat rs.k fun j => slice (pieces.getD j []) (s * rs.shareSize) rs.shareSize

section PieceSize

variable {enc padded : List UInt8} {rs : Redundancy} {pieces : List (List UInt8)}
  {codec : ReedSolomon} {nStripes : ℕ}

/-! ## The formula

The steps of the source, with the additions that panic at an overflow.
-/

/-- **The formula**, where none of its sums overflows. -/
lemma calcPieceSize_eq {n size : ℕ} (hk : 0 < rs.k) (hss : 0 < rs.shareSize)
    (hsum : (n : ℤ) + uint32Size + rs.stripeSize ≤ i64Max)
    (hpadded : n + paddingLength n rs.stripeSize = size * rs.stripeSize)
    (hrange : size * rs.stripeSize ≤ isizeMax) :
    calcPieceSize n rs = .ok (size * rs.shareSize : ℕ) := by
  have hfour : (uint32Size : ℤ) = 4 := rfl
  have hstripe : 0 < rs.stripeSize := Nat.mul_pos hk hss
  rw [hfour] at hsum
  have hstripe64 : asI64 rs.stripeSize = rs.stripeSize := by
    refine asI64_of_le ?_
    rw [isizeMax]
    rw [i64Max] at hsum
    omega
  have hk64 : asI64 rs.k = rs.k := by
    have hle : rs.k ≤ rs.stripeSize := Nat.le_mul_of_pos_right _ hss
    refine asI64_of_le ?_
    rw [isizeMax]
    rw [i64Max] at hsum
    omega
  have hsize : (size * rs.shareSize : ℕ) ≤ isizeMax := by
    refine le_trans ?_ hrange
    exact Nat.mul_le_mul_left _ (Nat.le_mul_of_pos_left _ hk)
  have hstripes : ((n : ℤ) + 4 + rs.stripeSize - 1).tdiv rs.stripeSize = (size : ℕ) := by
    have hcast : (n : ℤ) + 4 + rs.stripeSize - 1 = ((n + 4 + rs.stripeSize - 1 : ℕ) : ℤ) := by
      omega
    rw [hcast, ← Int.ofNat_tdiv, blocks_eq hstripe rfl, hpadded, Nat.mul_div_cancel _ hstripe]
  have hpiece : ((size * rs.stripeSize : ℕ) : ℤ).tdiv rs.k = (size * rs.shareSize : ℕ) := by
    rw [← Int.ofNat_tdiv, Redundancy.stripeSize, Nat.mul_left_comm, Nat.mul_div_cancel_left _ hk]
  have hsize64 : (size : ℤ) ≤ i64Max := by
    have hle : size ≤ size * rs.stripeSize := Nat.le_mul_of_pos_right _ hstripe
    rw [← natCast_isizeMax]
    omega
  rw [← Int.ofNat_le, natCast_isizeMax] at hsize hrange
  rw [calcPieceSize]
  simp only [hstripe64, hk64, hfour]
  rw [if_neg (by omega), checkedI64_of_le (by omega) (by omega), Fallible.ok_bind,
    checkedI64_of_le (by omega) hsum, Fallible.ok_bind, checkedI64_of_le (by omega) (by omega),
    Fallible.ok_bind, hstripes, checkedI64_of_le (by omega) hsize64, Fallible.ok_bind,
    ← Nat.cast_mul, checkedI64_of_le (by omega) hrange, Fallible.ok_bind, hpiece,
    checkedI64_of_le (by omega) hsize]

/-! ## The pieces

A piece is a list of shares, one for each stripe.
-/

/-- The first shares of a stripe are the stripe. -/
lemma share_data (codec : ReedSolomon) (stripe : List UInt8) {j : ℕ} (hj : j < codec.k) :
    codec.share stripe j = slice stripe (j * codec.shareSize) codec.shareSize := by
  rw [ReedSolomon.share, ReedSolomon.encodeShareUnchecked, if_pos hj]

lemma length_stripe (hlen : padded.length = nStripes * codec.stripeSize) {s : ℕ}
    (hs : s < nStripes) :
    (slice padded (s * codec.stripeSize) codec.stripeSize).length = codec.stripeSize := by
  refine length_slice ?_
  rw [hlen]
  exact rowMajor_le hs

lemma Pieces.length_piece (h : Pieces codec padded nStripes pieces)
    (hlen : padded.length = nStripes * codec.stripeSize) {j : ℕ} (hj : j < codec.n) :
    (pieces.getD j []).length = nStripes * codec.shareSize := by
  rw [h.piece_eq j hj]
  exact length_concat fun s hs => codec.length_share (length_stripe hlen hs) hj

/-- **Share by share, the first pieces are the padded bytes.** -/
lemma Pieces.interleave (h : Pieces codec padded nStripes pieces)
    (hlen : padded.length = nStripes * codec.stripeSize) (hk : codec.k = rs.k)
    (hss : codec.shareSize = rs.shareSize) : interleave rs pieces = padded := by
  have hcount : (pieces.getD 0 []).length / rs.shareSize = nStripes := by
    rw [h.length_piece hlen (codec.k_pos.trans_le codec.k_le_n), ← hss,
      Nat.mul_div_cancel _ codec.shareSize_pos]
  have hstripe : ∀ s < nStripes, (concat rs.k fun j =>
      slice (pieces.getD j []) (s * rs.shareSize) rs.shareSize)
        = slice padded (s * codec.stripeSize) codec.stripeSize := by
    intro s hs
    have hshare : ∀ j < codec.k, slice (pieces.getD j []) (s * codec.shareSize) codec.shareSize
        = slice (slice padded (s * codec.stripeSize) codec.stripeSize) (j * codec.shareSize)
          codec.shareSize := by
      intro j hj
      rw [h.piece_eq j (hj.trans_le codec.k_le_n), slice_concat (fun i hi =>
        codec.length_share (length_stripe hlen hi) (hj.trans_le codec.k_le_n)) hs, share_data codec _ hj]
    rw [← hk, ← hss, concat_congr hshare]
    exact concat_slice (length_stripe hlen hs)
  rw [Uplink.interleave, hcount, concat_congr hstripe]
  exact concat_slice hlen

/-- **Piece sizes match what the satellite verifies.**  `encode_pieces` makes `n` pieces, all of the
size that `calc_piece_size` gives if the sum of the segment, the trailer and one stripe is an `i64`;
and the first `k` of them, share by share, are the segment and its padding. -/
theorem encodePieces_calcPieceSize (h : encodePieces enc rs = .ok pieces) :
    pieces.length = rs.n ∧
      ((enc.length : ℤ) + uint32Size + rs.stripeSize ≤ i64Max →
        ∃ size : ℕ, calcPieceSize enc.length rs = .ok size ∧ ∀ p ∈ pieces, p.length = size) ∧
      ∃ padding, pad enc rs.stripeSize = .ok (enc ++ padding) ∧
        interleave rs pieces = enc ++ padding := by
  obtain ⟨codec, padding, hcodec, hpad, hmul, hpieces⟩ := encodePieces_eq_ok h
  obtain ⟨hk, hn, hss⟩ := ReedSolomon.new_fields hcodec
  have hstripe : codec.stripeSize = rs.stripeSize := by
    rw [ReedSolomon.stripeSize, hk, hss, Redundancy.stripeSize]
  refine ⟨hpieces.length_eq.trans hn, fun hsum => ?_, padding, hpad, ?_⟩
  · refine ⟨(enc ++ padding).length / rs.stripeSize * rs.shareSize, ?_, ?_⟩
    · obtain ⟨-, -, hle, -⟩ := pad_spec hpad
      rw [hstripe] at hmul
      refine calcPieceSize_eq (hk ▸ codec.k_pos) (hss ▸ codec.shareSize_pos) hsum ?_ (hmul ▸ hle)
      rw [← hmul, length_of_pad hpad]
    · intro p hp
      obtain ⟨j, hj, rfl⟩ := List.getElem_of_mem hp
      have hget : pieces[j] = pieces.getD j [] := (List.getD_eq_getElem _ _ hj).symm
      rw [hget, hpieces.length_piece hmul (hpieces.length_eq ▸ hj), hss]
  · exact hpieces.interleave hmul hk hss

/-- **The formula overflows** where its second sum does. -/
lemma calcPieceSize_ne_ok {n : ℕ} {size : ℤ} (hk : rs.k ≠ 0) (hstripe : 0 < rs.stripeSize)
    (hrange : rs.stripeSize ≤ isizeMax) (hsum : i64Max < (n : ℤ) + uint32Size + rs.stripeSize) :
    calcPieceSize n rs ≠ .ok size := by
  intro h
  rw [calcPieceSize, asI64_of_le hrange] at h
  rw [if_neg (by omega)] at h
  obtain ⟨x, hx, h⟩ := Fallible.bind_eq_ok.mp h
  obtain ⟨y, hy, -⟩ := Fallible.bind_eq_ok.mp h
  rw [checkedI64] at hx hy
  split_ifs at hx hy with h₁ h₂
  cases hx
  exact absurd h₂.2 (not_le.mpr hsum)

end PieceSize

/-- Three bytes, in stripes that are smaller than the trailer. -/
theorem encodePieces_calcPieceSize_sample :
    ∃ pieces, encodePieces [1, 2, 3] ⟨2, 2, 3, 3, 1⟩ = .ok pieces ∧ pieces.length = 3 ∧
      (∃ size : ℕ, calcPieceSize 3 ⟨2, 2, 3, 3, 1⟩ = .ok size ∧ ∀ p ∈ pieces, p.length = size) ∧
      ∃ padding, pad [1, 2, 3] 2 = .ok ([1, 2, 3] ++ padding) ∧
        interleave ⟨2, 2, 3, 3, 1⟩ pieces = [1, 2, 3] ++ padding := by
  obtain ⟨codec, hcodec⟩ := (ReedSolomon.new_isOk_iff 2 3 1).mpr (by decide)
  have hpad : pad [1, 2, 3] 2 = .ok ([1, 2, 3] ++ [0, 0, 0, 0, 5]) := by decide
  obtain ⟨pieces, hpieces, -⟩ := exists_encodePieces ⟨2, 2, 3, 3, 1⟩ hpad hcodec
  obtain ⟨hcount, hsize, hdata⟩ := encodePieces_calcPieceSize hpieces
  exact ⟨pieces, hpieces, hcount, hsize (by decide), hdata⟩

/-- **Where the size overflows**: a buffer that fills the address space with its trailer.  It is
encoded, and the sum of it, the trailer and a stripe of one byte is no `i64`. -/
theorem calcPieceSize_overflow :
    ∃ pieces, encodePieces (List.replicate (2 ^ 63 - 5) 0) ⟨1, 1, 1, 1, 1⟩ = .ok pieces ∧
      ∀ size, calcPieceSize (2 ^ 63 - 5 : ℕ) ⟨1, 1, 1, 1, 1⟩ ≠ .ok size := by
  have hpadding : paddingLength ((2 ^ 63 - 5 : ℕ) : ℤ) 1 = uint32Size := by decide
  have hpad : pad (List.replicate (2 ^ 63 - 5) 0) 1 =
      .ok (List.replicate (2 ^ 63 - 5) 0 ++ toBeBytes 4) := by
    rw [pad, List.length_replicate, if_neg (by decide), makePadding, hpadding]
    rw [if_neg (by decide), if_neg (by decide), if_neg (by decide), if_neg (by decide)]
    dsimp only
    rw [if_neg (by decide), if_neg (by decide), Fallible.ok_bind, if_neg (by decide)]
    rfl
  obtain ⟨codec, hcodec⟩ := (ReedSolomon.new_isOk_iff 1 1 1).mpr (by decide)
  obtain ⟨pieces, hpieces, -⟩ := exists_encodePieces ⟨1, 1, 1, 1, 1⟩ hpad hcodec
  refine ⟨pieces, hpieces, fun size => calcPieceSize_ne_ok ?_ ?_ ?_ ?_⟩
  · decide
  · decide
  · decide
  · decide

end Storj.Uplink
