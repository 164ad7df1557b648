import StorjUplink.Uplink.Window
import StorjUplink.Uplink.Subsets

/-!
# Reconstruction from more shares than needed

`reconstruct_remote` of `download.rs` tries the `k`-subsets of the shares one after another until
one of them authenticates.  Two filters spare it full decodes: the first block of the range, and
every block at which an earlier subset failed, are decoded and opened on their own
(`probe_share_set`).

A set of shares decodes to the same bytes in whichever window of stripes (`Request.Decodes`), so a
probe opens exactly the bytes that the full decode would open there (`Request.probe_eq`).  Hence a
probe never contradicts the full decode, and the loop over subsets is a search whose filters only
skip subsets that would fail.
-/

namespace Storj.Uplink

open Buffer MachineInt Enc Ec

/-- `content_auth_error`. -/
def contentAuthError : Error :=
  .encryption ⟨.decryptionFailed, "piece set failed content authentication"⟩

/-- `probe_share_set`: whether one block of the range opens, the first if none is named. -/
def probeShareSet (prim : Primitives) (subset : List (ℤ × List UInt8)) (rs : Redundancy)
    (p : DecryptParams) (block : Option ℤ) : Bool :=
  if p.plainLen ≤ 0 ∨ p.plainSize ≤ 0 then true
  else match newDecrypter prim p.cipher p.key p.nonce p.encryptedBlockSize with
    | .error _ => false
    | .ok dec =>
        let encBlock := dec.inBlockSize
        let plainBlock := dec.outBlockSize
        if encBlock = 0 ∨ plainBlock = 0 then false
        else
          let blocks := calcEncompassingBlocks p.plainStart p.plainLen plainBlock
          if blocks.2 ≤ 0 then true
          else
            let firstBlock := block.getD blocks.1
            let wantStart := satUsize (firstBlock.toNat * encBlock)
            if wantStart < p.decodedOffset then false
            else
              let start := wantStart - p.decodedOffset
              let stripe := rs.stripeSize
              if stripe = 0 then false
              else
                let stripe0 := start / stripe
                let within := start % stripe
                let nStripes := max (ceilDiv (satUsize (within + encBlock)) stripe) 1
                match decodeEncryptedSlices subset rs stripe0 (some nStripes) with
                | .error _ => false
                | .ok decoded =>
                    if decoded.length < satUsize (within + encBlock) then false
                    else (transformBlocks dec (slice decoded within encBlock) firstBlock).isOk

/-- The shares that a combination of indexes selects. -/
def selectShares (shares : List (ℤ × List UInt8)) (combo : List ℕ) : List (ℤ × List UInt8) :=
  combo.map fun i => shares.getD i (0, [])

/-- Whether the filters of `reconstruct_remote` let a subset through. -/
def passesProbes (prim : Primitives) (subset : List (ℤ × List UInt8)) (rs : Redundancy)
    (p : DecryptParams) (failedBlocks : List ℤ) : Bool :=
  probeShareSet prim subset rs p none &&
    !failedBlocks.any fun block => !probeShareSet prim subset rs p (some block)

/-- The loop of `reconstruct_remote` over the remaining combinations.  Blocks that failed to
authenticate are remembered, and a later combination must pass on them before it is decoded in
full. -/
def reconstructLoop (prim : Primitives) (shares : List (ℤ × List UInt8)) (rs : Redundancy)
    (p : DecryptParams) (probeFirst : Bool) :
    List (List ℕ) → List ℤ → Option Error → Except Error (List UInt8)
  | [], _, lastErr => .error (lastErr.getD contentAuthError)
  | combo :: rest, failedBlocks, _ =>
      let subset := selectShares shares combo
      if probeFirst && !passesProbes prim subset rs p failedBlocks then
        reconstructLoop prim shares rs p probeFirst rest failedBlocks (some contentAuthError)
      else match decodeEncryptedSlices subset rs 0 none with
        | .error e => reconstructLoop prim shares rs p probeFirst rest failedBlocks (some e)
        | .ok decoded =>
            match decryptRemote prim p decoded with
            | .ok plain => .ok plain
            | .error (e, some block) =>
                reconstructLoop prim shares rs p probeFirst rest (failedBlocks ++ [block]) (some e)
            | .error (e, none) => .error e

/-- `reconstruct_remote`: every combination of `k` of the pieces in turn, with the probes when there
are more pieces than needed. -/
def reconstructRemote (prim : Primitives) (shares : List (ℤ × List UInt8)) (rs : Redundancy)
    (p : DecryptParams) : Except Error (List UInt8) :=
  let avail := shares.length
  let need := rs.k
  if avail < need then .error (.protocol s!"need {need} pieces to decode, have {avail}")
  else reconstructLoop prim shares rs p (shares.length > rs.k) (kSubsets shares.length rs.k) [] none

namespace Request

variable {dec : Transformer} {plain enc padding : List UInt8} {rs : Redundancy}
  {nStripes start len : ℕ} (r : Request dec plain enc padding rs nStripes start len)

/-! ## One set of shares

Shares, their decoder, and what they decode to as a function of the stripe.
-/

/-- The bytes that a set of shares decodes to, in every window of stripes. -/
structure Decodes (subset : List (ℤ × List UInt8)) (decoded : List UInt8) : Prop where
  length_eq : decoded.length = (r.window.s1 - r.window.s0) * rs.stripeSize
  decode_eq : decodeEncryptedSlices subset rs 0 none = .ok decoded
  window_eq : ∀ stripe0 m, stripe0 + m ≤ r.window.s1 - r.window.s0 →
    decodeEncryptedSlices subset rs stripe0 (some m)
      = .ok (slice decoded (stripe0 * rs.stripeSize) (m * rs.stripeSize))

/-- The bytes of the window. -/
def windowBytes : List UInt8 :=
  slice (enc ++ padding) (r.window.s0 * rs.stripeSize)
    ((r.window.s1 - r.window.s0) * rs.stripeSize)

/-- The part of piece `i` that a download of the range transfers. -/
def pieceSlice (pieces : List (List UInt8)) (i : ℕ) : List UInt8 :=
  slice (pieces.getD i []) (r.window.s0 * rs.shareSize)
    ((r.window.s1 - r.window.s0) * rs.shareSize)

/-- A stripe of a transferred slice is the share of the stripe it was made from. -/
lemma slice_pieceSlice {codec : ReedSolomon} {pieces : List (List UInt8)}
    (hcodec : ReedSolomon.new rs.k rs.n rs.shareSize = .ok codec)
    (hpieces : Pieces codec (enc ++ padding) nStripes pieces) {i s : ℕ} (hi : i < rs.n)
    (hs : s < r.window.s1 - r.window.s0) :
    slice (r.pieceSlice pieces i) (s * rs.shareSize) rs.shareSize
      = codec.share (slice (enc ++ padding) ((r.window.s0 + s) * rs.stripeSize) rs.stripeSize)
          i := by
  obtain ⟨-, hcn, hcss⟩ := ReedSolomon.new_fields hcodec
  have hstripe := codec_stripeSize hcodec
  have hs1 := r.s1_le
  rw [pieceSlice, slice_slice _ _ (rowMajor_le hs), ← Nat.add_mul,
    hpieces.piece_eq i (by rw [hcn]; exact hi), ← hcss, slice_concat ?_ (by omega), hstripe]
  intro t ht
  rw [codec.length_share ?_ (by rw [hcn]; exact hi)]
  rw [hstripe]
  refine length_slice ?_
  rw [r.length_padded]
  exact rowMajor_le ht

/-- **Distinct shares of the right length decode**, and genuine ones to the bytes of the window. -/
lemma exists_decodes {codec : ReedSolomon} {pieces : List (List UInt8)}
    (hcodec : ReedSolomon.new rs.k rs.n rs.shareSize = .ok codec)
    (hpieces : Pieces codec (enc ++ padding) nStripes pieces) {idxs : List ℕ} (hd : idxs.Nodup)
    (hn : ∀ i ∈ idxs, i < rs.n) (hk : rs.k ≤ idxs.length) (data : ℕ → List UInt8)
    (hlen : ∀ i ∈ idxs, (data i).length = (r.window.s1 - r.window.s0) * rs.shareSize) :
    ∃ decoded, r.Decodes (numbered idxs data) decoded ∧
      ((∀ i ∈ idxs, data i = r.pieceSlice pieces i) → decoded = r.windowBytes) := by
  obtain ⟨f, hflen, hfeq, hdec⟩ := decodeEncryptedSlices_spec hcodec hd hn hk hlen
  set total := r.window.s1 - r.window.s0 with htotal
  refine ⟨concat total f, ⟨length_concat hflen, ?_, ?_⟩, ?_⟩
  · rw [hdec 0 (Nat.zero_le _) none]
    simp
  · intro stripe0 m hm
    rw [hdec stripe0 (by omega) (some m), Option.getD_some, Nat.min_eq_left (by omega),
      slice_concat_run hflen hm]
  · intro hgen
    rw [windowBytes, ← flatMap_slice]
    refine concat_congr ?_
    intro s hs
    have hs1 := r.s1_le
    have hfit : (r.window.s0 + s) * rs.stripeSize + rs.stripeSize ≤ (enc ++ padding).length := by
      rw [r.length_padded]
      exact rowMajor_le (by omega)
    rw [← Nat.add_mul]
    refine hfeq s hs _ (length_slice hfit) ?_
    intro i hi
    rw [hgen i hi, r.slice_pieceSlice hcodec hpieces (hn i hi) hs]

/-- A block of the window lies inside the decoded bytes. -/
lemma chunk_fits {b : ℕ} (hb0 : r.window.b0 ≤ b) (hb1 : b < r.window.b1) :
    r.window.s0 * rs.stripeSize ≤ b * dec.inBlockSize ∧
      b * dec.inBlockSize - r.window.s0 * rs.stripeSize + dec.inBlockSize
        ≤ (r.window.s1 - r.window.s0) * rs.stripeSize := by
  have h0 := r.s0_mul_le
  have h1 := r.le_s1_mul
  have h2 := Nat.mul_le_mul_right dec.inBlockSize hb0
  have h3 := rowMajor_le (k := dec.inBlockSize) hb1
  rw [Nat.sub_mul]
  omega

/-- The blocks of the genuine window are those of the segment. -/
lemma chunkAt_windowBytes {b : ℕ} (hb0 : r.window.b0 ≤ b) (hb1 : b < r.window.b1) :
    r.chunkAt r.windowBytes b = r.seg.block b := by
  obtain ⟨hle, hfit⟩ := r.chunk_fits hb0 hb1
  have hcount := r.b1_le_count
  rw [chunkAt, windowBytes, slice_slice _ _ hfit, Nat.add_sub_cancel' hle, slice_append_left,
    r.seg.slice_enc (by omega)]
  rw [r.seg.length_enc]
  exact rowMajor_le (by omega)

/-! ## Probes

A probe decodes the stripes of one block and opens that block.  Its verdict is that of the full
decode at that block.
-/

/-- One block on its own. -/
lemma transformBlocks_one {t : Transformer} {chunk : List UInt8} (hpos : 0 < t.inBlockSize)
    (hlen : chunk.length = t.inBlockSize) (b : ℤ) :
    (transformBlocks t chunk b).isOk = (t.transformInto chunk b).isOk := by
  have hone : concatM 1 (fun i : ℕ => t.transformInto
      (slice chunk (i * t.inBlockSize) t.inBlockSize) (b + i))
      = t.transformInto chunk b >>= fun block => .ok block := by
    rw [concatM_succ]
    show t.transformInto (slice chunk (0 * t.inBlockSize) t.inBlockSize) (b + ((0 : ℕ) : ℤ))
      >>= (fun block => .ok ([] ++ block)) = _
    rw [Nat.zero_mul, ← hlen, slice_zero_length, Nat.cast_zero, add_zero]
    rfl
  rw [transformBlocks, hlen, Nat.mod_self, if_neg (by omega), Nat.div_self hpos, hone]
  cases t.transformInto chunk b with
  | ok x => rfl
  | error e => rfl

/-- **A probe opens the block that the full decode would open**, whatever the alignment of blocks
to stripes. -/
theorem probe_eq {prim : Primitives} {p : DecryptParams} (h : r.Params prim p)
    {subset : List (ℤ × List UInt8)} {decoded : List UInt8} (hdec : r.Decodes subset decoded)
    {b : ℕ} (hb0 : r.window.b0 ≤ b) (hb1 : b < r.window.b1) :
    probeShareSet prim subset rs p (some (b : ℤ))
      = (dec.transformInto (r.chunkAt decoded b) b).isOk := by
  have hin := r.seg.in_pos
  have hout := r.seg.out_pos
  have hlen_pos := r.len_pos
  have hrange := r.range_le
  have hstripe := r.stripe_pos
  have hblocks := r.b0_lt_b1
  obtain ⟨hle, hfit⟩ := r.chunk_fits hb0 hb1
  have hmax := r.s1_mul_le
  have hsub : (r.window.s1 - r.window.s0) * rs.stripeSize ≤ r.window.s1 * rs.stripeSize :=
    Nat.mul_le_mul_right _ (Nat.sub_le _ _)
  have hbmax : b * dec.inBlockSize ≤ isizeMax := by
    have h1 := Nat.mul_le_mul_right dec.inBlockSize hb1.le
    have h2 := r.b1_mul_le.trans r.enc_le
    omega
  have hwant : satUsize ((b : ℤ).toNat * dec.inBlockSize) = b * dec.inBlockSize := by
    rw [Int.toNat_natCast]
    exact satUsize_of_le_isizeMax hbmax
  set pos := b * dec.inBlockSize - r.window.s0 * rs.stripeSize with hpos
  have hdm : pos / rs.stripeSize * rs.stripeSize + pos % rs.stripeSize = pos := by
    rw [Nat.mul_comm]
    exact Nat.div_add_mod pos rs.stripeSize
  have hwithin : satUsize (pos % rs.stripeSize + dec.inBlockSize)
      = pos % rs.stripeSize + dec.inBlockSize := satUsize_of_le_isizeMax (by omega)
  -- the stripes of the block
  set m := ceilDiv (pos % rs.stripeSize + dec.inBlockSize) rs.stripeSize with hm
  have hcover : pos % rs.stripeSize + dec.inBlockSize ≤ m * rs.stripeSize :=
    le_ceilDiv_mul _ hstripe
  have hmpos : 1 ≤ m := by
    by_contra hzero
    have hz : m = 0 := by omega
    rw [hz, Nat.zero_mul] at hcover
    omega
  have hwindow : pos / rs.stripeSize + m ≤ r.window.s1 - r.window.s0 := by
    have hstart : pos / rs.stripeSize * rs.stripeSize
        ≤ (r.window.s1 - r.window.s0) * rs.stripeSize := by omega
    have hstart' := Nat.le_of_mul_le_mul_right hstart hstripe
    have hcount : m ≤ r.window.s1 - r.window.s0 - pos / rs.stripeSize := by
      refine ceilDiv_le hstripe ?_
      rw [Nat.sub_mul]
      omega
    omega
  have hfits : pos / rs.stripeSize * rs.stripeSize + m * rs.stripeSize ≤ decoded.length := by
    rw [← Nat.add_mul, hdec.length_eq]
    exact Nat.mul_le_mul_right _ hwindow
  have hlen : (slice decoded (pos / rs.stripeSize * rs.stripeSize) (m * rs.stripeSize)).length
      = m * rs.stripeSize := length_slice hfits
  have hchunk : slice (slice decoded (pos / rs.stripeSize * rs.stripeSize) (m * rs.stripeSize))
      (pos % rs.stripeSize) dec.inBlockSize = r.chunkAt decoded b := by
    rw [slice_slice _ _ hcover, hdm, chunkAt]
  have hchunklen : (r.chunkAt decoded b).length = dec.inBlockSize := by
    rw [chunkAt]
    exact length_slice (by rw [hdec.length_eq]; exact hfit)
  rw [probeShareSet, h.plainStart_eq, h.plainLen_eq, h.plainSize_eq, h.decrypter,
    h.decodedOffset_eq, if_neg (by omega)]
  dsimp only
  rw [if_neg (by omega), r.calcBlocks]
  dsimp only
  rw [if_neg (by omega), Option.getD_some, hwant, if_neg (by omega), if_neg (by omega), ← hpos,
    hwithin, ← hm, Nat.max_eq_left hmpos, hdec.window_eq _ _ hwindow]
  dsimp only
  rw [hlen, if_neg (by omega), hchunk]
  exact transformBlocks_one hin hchunklen _

/-- The probe of the first block. -/
lemma probe_none {prim : Primitives} {p : DecryptParams} (h : r.Params prim p)
    (subset : List (ℤ × List UInt8)) :
    probeShareSet prim subset rs p none = probeShareSet prim subset rs p (some r.window.b0) := by
  rw [probeShareSet, probeShareSet, h.plainStart_eq, h.plainLen_eq, h.decrypter]
  dsimp only
  rw [r.calcBlocks]
  rfl

/-- **Genuine shares pass every probe** of a block of the range. -/
lemma probe_genuine {prim : Primitives} {p : DecryptParams} (h : r.Params prim p)
    {subset : List (ℤ × List UInt8)} (hdec : r.Decodes subset r.windowBytes) {b : ℕ}
    (hb0 : r.window.b0 ≤ b) (hb1 : b < r.window.b1) :
    probeShareSet prim subset rs p (some (b : ℤ)) = true := by
  have hcount := r.b1_le_count
  rw [r.probe_eq h hdec hb0 hb1, r.chunkAt_windowBytes hb0 hb1, r.seg.opens b (by omega)]
  rfl

/-! ## The full decode

All blocks of the range, up to the first that does not open.
-/

/-- The blocks of the padded plaintext, trimmed, are the requested range. -/
lemma trimPlain_blocks {prim : Primitives} {p : DecryptParams} (h : r.Params prim p) :
    trimPlain p dec.outBlockSize r.window.b0 (concat (r.window.b1 - r.window.b0) fun i =>
      slice (plain ++ r.seg.padding) ((r.window.b0 + i) * dec.outBlockSize) dec.outBlockSize)
      = slice plain start len := by
  have hb := r.b0_lt_b1
  have hcount := r.b1_le_count
  have h0 := r.b0_mul_le
  have h1 := r.le_b1_mul
  have hlen := r.seg.length_padded
  have hmul : r.window.b0 * dec.outBlockSize ≤ r.window.b1 * dec.outBlockSize :=
    Nat.mul_le_mul_right _ hb.le
  have hend : r.window.b1 * dec.outBlockSize ≤ (plain ++ r.seg.padding).length := by
    rw [hlen]
    exact Nat.mul_le_mul_right _ hcount
  have hrun : (concat (r.window.b1 - r.window.b0) fun i =>
      slice (plain ++ r.seg.padding) ((r.window.b0 + i) * dec.outBlockSize) dec.outBlockSize)
      = slice (plain ++ r.seg.padding) (r.window.b0 * dec.outBlockSize)
          ((r.window.b1 - r.window.b0) * dec.outBlockSize) := by
    rw [← flatMap_slice]
    refine concat_congr fun i _ => ?_
    rw [Nat.add_mul]
  rw [hrun, r.trimPlain_eq h, slice_slice _ _ ?_, Nat.add_sub_cancel' h0,
    slice_append_left r.range_le]
  · rw [Nat.sub_mul]
    omega
  · refine length_slice ?_
    rw [Nat.sub_mul]
    omega

/-- **The genuine window decrypts to the range.** -/
lemma decryptRemote_windowBytes {prim : Primitives} {p : DecryptParams} (h : r.Params prim p)
    {subset : List (ℤ × List UInt8)} (hdec : r.Decodes subset r.windowBytes) :
    decryptRemote prim p r.windowBytes = .ok (slice plain start len) := by
  have hcount := r.b1_le_count
  rw [r.decryptRemote_eq h hdec.length_eq, concatM_eq_ok_of (g := fun i =>
    slice (plain ++ r.seg.padding) ((r.window.b0 + i) * dec.outBlockSize) dec.outBlockSize),
    Fallible.ok_bind, r.trimPlain_blocks h]
  intro i hi
  rw [r.chunkAt_windowBytes (by omega) (by omega), decryptTracked, r.seg.opens _ (by omega)]

/-- **What authenticates is the range**, and a failure names a block of it. -/
lemma decryptRemote_authentic {prim : Primitives} {p : DecryptParams} (h : r.Params prim p)
    (hauth : dec.Authentic r.seg.count) {subset : List (ℤ × List UInt8)} {decoded : List UInt8}
    (hdec : r.Decodes subset decoded) :
    decryptRemote prim p decoded = .ok (slice plain start len) ∨
      ∃ e, ∃ b : ℕ, r.window.b0 ≤ b ∧ b < r.window.b1 ∧
        decryptRemote prim p decoded = .error (e, some (b : ℤ)) := by
  have hcount := r.b1_le_count
  rw [r.decryptRemote_eq h hdec.length_eq]
  cases hrun : concatM (r.window.b1 - r.window.b0) (fun i =>
      decryptTracked dec (r.chunkAt decoded (r.window.b0 + i)) ((r.window.b0 + i : ℕ) : ℤ)) with
  | ok out =>
      left
      obtain ⟨g, hg, rfl⟩ := exists_of_concatM_eq_ok hrun
      rw [Fallible.ok_bind, ← r.trimPlain_blocks h]
      congr 2
      refine concat_congr fun i hi => ?_
      have hopen := r.seg.opens (r.window.b0 + i) (by omega)
      have hgi := hg i hi
      rw [decryptTracked] at hgi
      cases htr : dec.transformInto (r.chunkAt decoded (r.window.b0 + i))
          ((r.window.b0 + i : ℕ) : ℤ) with
      | error e =>
          rw [htr] at hgi
          cases hgi
      | ok x =>
          -- only the block of the segment opens here
          have hsame := hauth.unique _ (by omega) _ _ _ _ htr hopen
          rw [hsame, hopen] at hgi
          exact (Except.ok.inj hgi).symm
  | error e =>
      right
      obtain ⟨i, hi, hfail⟩ := exists_of_concatM_eq_error hrun
      rw [decryptTracked] at hfail
      cases htr : dec.transformInto (r.chunkAt decoded (r.window.b0 + i))
          ((r.window.b0 + i : ℕ) : ℤ) with
      | ok x =>
          rw [htr] at hfail
          cases hfail
      | error e' =>
          rw [htr] at hfail
          cases hfail
          refine ⟨.encryption e', r.window.b0 + i, by omega, by omega, ?_⟩
          rw [Fallible.error_bind, if_pos]
          rw [isContentAuthFailure, hauth.kind _ _ _ htr]
          rfl

/-! ## The search

The subsets come in the order of the iterator.  A subset that a filter skips would have failed, so
the loop ends with the first one that succeeds.
-/

/-- Every entry is a block of the range. -/
def InWindow (blocks : List ℤ) : Prop :=
  ∀ x ∈ blocks, ∃ b : ℕ, r.window.b0 ≤ b ∧ b < r.window.b1 ∧ x = b

/-- Genuine shares get past the filters. -/
lemma passesProbes_genuine {prim : Primitives} {p : DecryptParams} (h : r.Params prim p)
    {subset : List (ℤ × List UInt8)} (hdec : r.Decodes subset r.windowBytes) {failed : List ℤ}
    (hfailed : r.InWindow failed) : passesProbes prim subset rs p failed = true := by
  have hb := r.b0_lt_b1
  have hany : (failed.any fun block => !probeShareSet prim subset rs p (some block)) = false := by
    rw [List.any_eq_false]
    intro x hx
    obtain ⟨b, hb0, hb1, rfl⟩ := hfailed x hx
    rw [r.probe_genuine h hdec hb0 hb1]
    decide
  rw [passesProbes, r.probe_none h, r.probe_genuine h hdec le_rfl hb, hany]
  rfl

/-- **The search over subsets.**  Whatever it returns is the range, and it returns the range if one
of the subsets is genuine. -/
theorem reconstructLoop_spec {prim : Primitives} {p : DecryptParams} (h : r.Params prim p)
    (hauth : dec.Authentic r.seg.count) (shares : List (ℤ × List UInt8)) (probeFirst : Bool)
    (combos : List (List ℕ)) (hall : ∀ c ∈ combos, ∃ decoded,
      r.Decodes (selectShares shares c) decoded) :
    ∀ (failed : List ℤ) (lastErr : Option Error), r.InWindow failed →
      (∀ x, reconstructLoop prim shares rs p probeFirst combos failed lastErr = .ok x →
        x = slice plain start len) ∧
      ((∃ c ∈ combos, r.Decodes (selectShares shares c) r.windowBytes) →
        reconstructLoop prim shares rs p probeFirst combos failed lastErr
          = .ok (slice plain start len)) := by
  induction combos with
  | nil =>
      intro failed lastErr _
      constructor
      · intro x hx
        cases hx
      · rintro ⟨c, hc, -⟩
        cases hc
  | cons c rest ih =>
      intro failed lastErr hfailed
      have hrest : ∀ c ∈ rest, ∃ decoded, r.Decodes (selectShares shares c) decoded :=
        fun c hc => hall c (List.mem_cons_of_mem _ hc)
      rw [reconstructLoop]
      split_ifs with hskip
      · -- a skipped subset is not the genuine one
        refine ⟨(ih hrest _ _ hfailed).1, ?_⟩
        rintro ⟨c', hc', hgen⟩
        refine (ih hrest _ _ hfailed).2 ⟨c', ?_, hgen⟩
        refine (List.mem_cons.mp hc').resolve_left ?_
        rintro rfl
        rw [r.passesProbes_genuine h hgen hfailed] at hskip
        simp at hskip
      · obtain ⟨decoded, hdec⟩ := hall c List.mem_cons_self
        rw [hdec.decode_eq]
        dsimp only
        rcases r.decryptRemote_authentic h hauth hdec with hok | ⟨e, b, hb0, hb1, herr⟩
        · rw [hok]
          exact ⟨fun x hx => (Except.ok.inj hx).symm, fun _ => rfl⟩
        · rw [herr]
          have hfailed' : r.InWindow (failed ++ [(b : ℤ)]) := by
            intro x hx
            rcases List.mem_append.mp hx with hx | hx
            · exact hfailed x hx
            · exact ⟨b, hb0, hb1, List.mem_singleton.mp hx⟩
          refine ⟨(ih hrest _ _ hfailed').1, ?_⟩
          rintro ⟨c', hc', hgen⟩
          refine (ih hrest _ _ hfailed').2 ⟨c', ?_, hgen⟩
          -- the genuine subset would have decrypted
          refine (List.mem_cons.mp hc').resolve_left ?_
          rintro rfl
          have hsame := hgen.decode_eq.symm.trans hdec.decode_eq
          cases hsame
          rw [r.decryptRemote_windowBytes h hgen] at herr
          cases herr

/-! ## Selecting shares

Which shares a subset picks, and that it has `k` distinct ones.
-/

/-- A combination of numbered shares is numbered by the selected numbers. -/
lemma selectShares_numbered {idxs combo : List ℕ} {data : ℕ → List UInt8}
    (hlt : ∀ i ∈ combo, i < idxs.length) :
    selectShares (numbered idxs data) combo
      = numbered (combo.map fun i => idxs.getD i 0) data := by
  rw [selectShares, numbered, numbered, List.map_map]
  refine List.map_congr_left fun i hi => ?_
  rw [getD_map_of_lt _ (hlt i hi) 0]
  rfl

/-- The numbers that a combination selects are distinct and among the given ones. -/
lemma nodup_select {idxs combo : List ℕ} (hd : idxs.Nodup) (hlt : ∀ i ∈ combo, i < idxs.length)
    (hc : combo.Pairwise (· < ·)) : (combo.map fun i => idxs.getD i 0).Nodup := by
  refine List.Nodup.map_on ?_ (hc.imp Nat.ne_of_lt)
  intro i hi j hj hij
  rw [List.getD_eq_getElem _ _ (hlt i hi), List.getD_eq_getElem _ _ (hlt j hj)] at hij
  exact (List.Nodup.getElem_inj_iff hd).mp hij

lemma mem_select {idxs combo : List ℕ} (hlt : ∀ i ∈ combo, i < idxs.length) {x : ℕ}
    (hx : x ∈ combo.map fun i => idxs.getD i 0) : x ∈ idxs := by
  obtain ⟨i, hi, rfl⟩ := List.mem_map.mp hx
  rw [List.getD_eq_getElem _ _ (hlt i hi)]
  exact List.getElem_mem _

/-- Every combination of distinct shares of the right length decodes, and one of genuine shares to
the bytes of the window. -/
lemma combo_decodes {codec : ReedSolomon} {pieces : List (List UInt8)}
    (hcodec : ReedSolomon.new rs.k rs.n rs.shareSize = .ok codec)
    (hpieces : Pieces codec (enc ++ padding) nStripes pieces) {idxs : List ℕ} (hd : idxs.Nodup)
    (hn : ∀ i ∈ idxs, i < rs.n) (hk : rs.k ≤ idxs.length) {data : ℕ → List UInt8}
    (hlen : ∀ i ∈ idxs, (data i).length = (r.window.s1 - r.window.s0) * rs.shareSize)
    {combo : List ℕ} (hc : combo ∈ kSubsets idxs.length rs.k) :
    ∃ decoded, r.Decodes (selectShares (numbered idxs data) combo) decoded ∧
      ((∀ i ∈ combo, data (idxs.getD i 0) = r.pieceSlice pieces (idxs.getD i 0)) →
        decoded = r.windowBytes) := by
  rw [kSubsets_eq_combos r.k_pos hk] at hc
  obtain ⟨hclen, hpair, hall⟩ := mem_combos.mp hc
  have hlt : ∀ i ∈ combo, i < idxs.length := fun i hi => (hall i hi).2
  rw [selectShares_numbered hlt]
  obtain ⟨decoded, hdec, hgen⟩ := r.exists_decodes hcodec hpieces (nodup_select hd hlt hpair)
    (fun x hx => hn x (mem_select hlt hx)) (by rw [List.length_map, hclen])
    data (fun x hx => hlen x (mem_select hlt hx))
  refine ⟨decoded, hdec, fun h => hgen fun x hx => ?_⟩
  obtain ⟨i, hi, rfl⟩ := List.mem_map.mp hx
  exact h i hi

/-- The transferred slice lies inside its piece. -/
lemma pieceSlice_fits {codec : ReedSolomon} {pieces : List (List UInt8)}
    (hcodec : ReedSolomon.new rs.k rs.n rs.shareSize = .ok codec)
    (hpieces : Pieces codec (enc ++ padding) nStripes pieces) {i : ℕ} (hi : i < rs.n) :
    r.window.s0 * rs.shareSize + (r.window.s1 - r.window.s0) * rs.shareSize
      ≤ (pieces.getD i []).length := by
  obtain ⟨-, hcn, hcss⟩ := ReedSolomon.new_fields hcodec
  have hstripe := codec_stripeSize hcodec
  have hs := r.s0_le_s1
  have hlen : (pieces.getD i []).length = nStripes * rs.shareSize := by
    rw [hpieces.piece_eq i (by rw [hcn]; exact hi), ← hcss]
    refine length_concat fun s hs => codec.length_share ?_ (by rw [hcn]; exact hi)
    rw [hstripe]
    refine length_slice ?_
    rw [r.length_padded]
    exact rowMajor_le hs
  rw [hlen, ← Nat.add_mul, Nat.add_sub_cancel' hs]
  exact Nat.mul_le_mul_right _ r.s1_le

/-- A segment that was encoded, and a range inside its plaintext, make a request. -/
lemma exists_of_encodePieces (seg : Segment dec plain enc) {pieces : List (List UInt8)}
    (h : encodePieces enc rs = .ok pieces) (hlen : 0 < len) (hrange : start + len ≤ plain.length) :
    ∃ codec padding nStripes, ReedSolomon.new rs.k rs.n rs.shareSize = .ok codec ∧
      Pieces codec (enc ++ padding) nStripes pieces ∧
      ∃ r : Request dec plain enc padding rs nStripes start len, r.seg = seg := by
  obtain ⟨codec, padding, nStripes, hcodec, hstripe, hpadded, -, hlength, hpieces⟩ :=
    encodePieces_spec h
  obtain ⟨hck, -, hcss⟩ := ReedSolomon.new_fields hcodec
  refine ⟨codec, padding, nStripes, hcodec, hpieces, {
    seg
    k_pos := by
      rw [← hck]
      exact codec.k_pos
    shareSize_pos := by
      rw [← hcss]
      exact codec.shareSize_pos
    stripe_le := hstripe
    padded_le := hpadded
    length_padded := by rw [hlength, codec_stripeSize hcodec]
    len_pos := hlen
    range_le := hrange }, rfl⟩

end Request

/-- The parameters of the download of a range: the transferred slices start at byte `off` of every
piece. -/
def rangeParams (rs : Redundancy) (plain enc : List UInt8) (cipher : CipherSuite) (key : Key)
    (nonce : Nonce) (encryptedBlockSize off start len : ℕ) : DecryptParams where
  decodedOffset := off * rs.k
  encryptedSize := enc.length
  cipher
  key
  nonce
  encryptedBlockSize
  plainStart := start
  plainLen := len
  plainSize := plain.length

lemma Request.params_rangeParams {dec : Transformer} {plain enc padding : List UInt8}
    {rs : Redundancy} {nStripes start len : ℕ}
    (r : Request dec plain enc padding rs nStripes start len) {prim : Primitives}
    {cipher : CipherSuite} {key : Key} {nonce : Nonce} {size : ℕ}
    (hdec : newDecrypter prim cipher key nonce size = .ok dec) :
    r.Params prim (rangeParams rs plain enc cipher key nonce size
      (r.window.s0 * rs.shareSize) start len) where
  decrypter := hdec
  decodedOffset_eq := by
    show r.window.s0 * rs.shareSize * rs.k = r.window.s0 * (rs.k * rs.shareSize)
    rw [Nat.mul_assoc, Nat.mul_comm rs.shareSize]
  encryptedSize_eq := rfl
  plainStart_eq := rfl
  plainLen_eq := rfl
  plainSize_eq := rfl

/-- A cipher for small examples: it leaves the plaintext as it is, and opens a block that carries
its tag and satisfies `accept`. -/
def taggingAead (accept : List UInt8 → Bool) : Aead :=
  textAead (fun _ => List.replicate tagSize 7) fun _ => accept

lemma taggingAead_lawful : (taggingAead fun _ => true).Lawful :=
  textAead_lawful fun _ => List.length_replicate

/-- **A segment end to end.**  Any `k` pieces of an encrypted and encoded segment, each cut down to
the bytes that `piece_byte_range` names for a range, give that range of the plaintext back. -/
theorem reconstructRemote_range {prim : Primitives} (hprim : PrimitivesLawful prim)
    {plain enc : List UInt8} {cipher : CipherSuite} {key : Key} {nonce : Nonce} {size : ℕ}
    (hsize : cipher = .null ∨ (cipher = .aesGcm ∨ cipher = .secretBox) ∧ 16 < size)
    {rs : Redundancy} {pieces : List (List UInt8)}
    (henc : encryptRemote prim plain cipher key nonce size = .ok enc)
    (hpieces : encodePieces enc rs = .ok pieces) (start len : ℕ) (hlen : 1 ≤ len)
    (hrange : start + len ≤ plain.length) (idxs : List ℕ) (hd : idxs.Nodup)
    (hn : ∀ i ∈ idxs, i < rs.n) (hk : idxs.length = rs.k) :
    ∃ dec, newDecrypter prim cipher key nonce size = .ok dec ∧ ∃ off sz : ℕ,
      pieceByteRange start len dec.outBlockSize dec.inBlockSize rs = ((off : ℤ), (sz : ℤ)) ∧
      (∀ i < rs.n, off + sz ≤ (pieces.getD i []).length) ∧
      reconstructRemote prim (numbered idxs fun i => slice (pieces.getD i []) off sz) rs
        (rangeParams rs plain enc cipher key nonce size off start len)
          = .ok (slice plain start len) := by
  obtain ⟨dec, hdec, ⟨seg⟩⟩ := encryptRemote_spec hprim
    (hsize.imp_right fun h h0 => by omega) henc
  obtain ⟨codec, padding, nStripes, hcodec, hpieces, r, -⟩ :=
    Request.exists_of_encodePieces seg hpieces hlen hrange
  refine ⟨dec, hdec, _, _, r.pieceByteRange_eq, fun i hi => r.pieceSlice_fits hcodec hpieces hi, ?_⟩
  have hparams := r.params_rangeParams hdec
  have hfits : ∀ i ∈ idxs, (r.pieceSlice pieces i).length
      = (r.window.s1 - r.window.s0) * rs.shareSize :=
    fun i hi => length_slice (r.pieceSlice_fits hcodec hpieces (hn i hi))
  -- the one subset that is tried is genuine
  have hcount : (numbered idxs (r.pieceSlice pieces)).length = rs.k := by
    rw [numbered, List.length_map, hk]
  obtain ⟨rest, hsubsets⟩ := kSubsets_cons (n := rs.k) r.k_pos le_rfl
  have hfirst : List.range rs.k ∈ kSubsets idxs.length rs.k := by
    rw [hk, hsubsets]
    exact List.mem_cons_self
  obtain ⟨decoded, hdecodes, hgen⟩ := r.combo_decodes hcodec hpieces hd hn hk.ge hfits hfirst
  obtain rfl := hgen fun _ _ => rfl
  show reconstructRemote prim (numbered idxs (r.pieceSlice pieces)) rs _ = _
  rw [reconstructRemote, hcount, if_neg (lt_irrefl _), hsubsets, reconstructLoop]
  simp only [gt_iff_lt, lt_irrefl, decide_false, Bool.false_and, Bool.false_eq_true, if_false]
  rw [hdecodes.decode_eq]
  simp only [r.decryptRemote_windowBytes hparams hdecodes]

/-- Two bytes of three, across blocks of two bytes and stripes of ten, from two pieces of three. -/
theorem reconstructRemote_two_of_three : ∃ enc pieces, ∃ off sz : ℕ,
    encryptRemote ⟨taggingAead fun _ => true, taggingAead fun _ => true⟩ [1, 2, 3] .aesGcm
      (Vector.replicate 32 3) (Vector.replicate 24 5) 18 = .ok enc ∧
    encodePieces enc ⟨2, 2, 3, 3, 5⟩ = .ok pieces ∧
    reconstructRemote ⟨taggingAead fun _ => true, taggingAead fun _ => true⟩
      (numbered [2, 0] fun i => slice (pieces.getD i []) off sz) ⟨2, 2, 3, 3, 5⟩
      (rangeParams ⟨2, 2, 3, 3, 5⟩ [1, 2, 3] enc .aesGcm (Vector.replicate 32 3)
        (Vector.replicate 24 5) 18 off 1 2) = .ok [2, 3] := by
  obtain ⟨codec, hcodec⟩ := (ReedSolomon.new_isOk_iff 2 3 5).mpr (by decide)
  obtain ⟨enc, padding, henc, hpad⟩ : ∃ enc padding,
      encryptRemote ⟨taggingAead fun _ => true, taggingAead fun _ => true⟩ [1, 2, 3] .aesGcm
        (Vector.replicate 32 3) (Vector.replicate 24 5) 18 = .ok enc ∧
      pad enc (2 * 5) = .ok (enc ++ padding) := ⟨_, _, rfl, rfl⟩
  obtain ⟨pieces, hpieces, -⟩ := exists_encodePieces ⟨2, 2, 3, 3, 5⟩ hpad hcodec
  obtain ⟨dec, -, off, sz, -, -, hrange⟩ := reconstructRemote_range
    ⟨taggingAead_lawful, taggingAead_lawful⟩ (Or.inr ⟨Or.inl rfl, by decide⟩) henc hpieces
    1 2 (by decide) (by decide) [2, 0] (by decide) (by decide) rfl
  exact ⟨enc, pieces, off, sz, henc, hpieces, hrange⟩

/-! ## Corrupted shares

With `k` genuine shares among those that came, some subset is all genuine, and it succeeds.
-/

/-- A share that holds the transferred slice of its piece. -/
def genuine (pieces : List (List UInt8)) (off sz : ℕ) (share : ℤ × List UInt8) : Bool :=
  share.2 = slice (pieces.getD share.1.toNat []) off sz

/-- Shares with distinct numbers are a function of the number. -/
lemma exists_numbered {shares : List (ℤ × List UInt8)} (hd : (shares.map Prod.fst).Nodup)
    (h0 : ∀ s ∈ shares, 0 ≤ s.1) :
    ∃ data, shares = numbered (shares.map fun s => s.1.toNat) data := by
  classical
  have hone : ∀ i : ℕ, ∃ d : List UInt8, ∀ s ∈ shares, s.1 = i → s.2 = d := by
    intro i
    by_cases h : ∃ s ∈ shares, s.1 = i
    · obtain ⟨s, hs, hsi⟩ := h
      refine ⟨s.2, fun s' hs' hsi' => ?_⟩
      rw [List.inj_on_of_nodup_map hd hs' hs (hsi'.trans hsi.symm)]
    · exact ⟨[], fun s hs hsi => absurd ⟨s, hs, hsi⟩ h⟩
  choose data hdata using hone
  refine ⟨data, ?_⟩
  rw [numbered, List.map_map]
  refine (List.map_id shares).symm.trans (List.map_congr_left fun s hs => ?_)
  have hnum : ((s.1.toNat : ℕ) : ℤ) = s.1 := Int.toNat_of_nonneg (h0 s hs)
  exact Prod.ext hnum.symm (hdata _ s hs hnum.symm)

/-- Counting shares is counting their positions. -/
lemma countP_positions (shares : List (ℤ × List UInt8)) (P : ℤ × List UInt8 → Bool) :
    (List.range shares.length).countP (fun i => P (shares.getD i (0, []))) = shares.countP P := by
  have hmap : (List.range shares.length).map (fun i => shares.getD i (0, [])) = shares := by
    refine ext_getD (0, []) (by simp) fun i hi => ?_
    rw [List.length_map, List.length_range] at hi
    rw [getD_map_range _ hi]
  conv_rhs => rw [← hmap, List.countP_map]
  rfl

/-- Shares with distinct numbers, of the right length: every combination of them decodes, and one of
genuine shares to the bytes of the window. -/
lemma Request.shares_decode {dec : Transformer} {plain enc padding : List UInt8} {rs : Redundancy}
    {nStripes start len : ℕ} (r : Request dec plain enc padding rs nStripes start len)
    {codec : ReedSolomon} {pieces : List (List UInt8)}
    (hcodec : ReedSolomon.new rs.k rs.n rs.shareSize = .ok codec)
    (hpieces : Pieces codec (enc ++ padding) nStripes pieces) {shares : List (ℤ × List UInt8)}
    (hd : (shares.map Prod.fst).Nodup)
    (hshares : ∀ s ∈ shares, 0 ≤ s.1 ∧ s.1 < rs.n ∧
      s.2.length = (r.window.s1 - r.window.s0) * rs.shareSize)
    (hk : rs.k ≤ shares.length) {combo : List ℕ} (hc : combo ∈ kSubsets shares.length rs.k) :
    ∃ decoded, r.Decodes (selectShares shares combo) decoded ∧
      ((∀ s ∈ selectShares shares combo, genuine pieces (r.window.s0 * rs.shareSize)
        ((r.window.s1 - r.window.s0) * rs.shareSize) s = true) → decoded = r.windowBytes) := by
  obtain ⟨data, hdata⟩ := exists_numbered hd fun s hs => (hshares s hs).1
  set idxs := shares.map fun s => s.1.toNat with hidxs
  have hmem : ∀ i ∈ idxs, ∃ s ∈ shares, s = ((i : ℤ), data i) := by
    intro i hi
    refine ⟨((i : ℤ), data i), ?_, rfl⟩
    rw [hdata]
    exact List.mem_map.mpr ⟨i, hi, rfl⟩
  have hnodup : idxs.Nodup := by
    rw [hdata, numbered, List.map_map] at hd
    exact hd.of_map _
  have hn : ∀ i ∈ idxs, i < rs.n := by
    intro i hi
    obtain ⟨s, hs, rfl⟩ := hmem i hi
    have := (hshares _ hs).2.1
    dsimp only at this
    omega
  have hsz : ∀ i ∈ idxs, (data i).length = (r.window.s1 - r.window.s0) * rs.shareSize := by
    intro i hi
    obtain ⟨s, hs, rfl⟩ := hmem i hi
    exact (hshares _ hs).2.2
  have hcount : idxs.length = shares.length := by rw [hidxs, List.length_map]
  have hlt : ∀ i ∈ combo, i < idxs.length := by
    rw [kSubsets_eq_combos r.k_pos hk] at hc
    rw [hcount]
    exact fun i hi => ((mem_combos.mp hc).2.2 i hi).2
  rw [← hcount] at hk hc
  obtain ⟨decoded, hdecodes, hgen⟩ := r.combo_decodes hcodec hpieces hnodup hn hk hsz hc
  rw [← hdata] at hdecodes
  refine ⟨decoded, hdecodes, fun h => hgen fun i hi => ?_⟩
  have hi' := h ((idxs.getD i 0 : ℕ), data (idxs.getD i 0)) (by
    rw [hdata, Request.selectShares_numbered hlt]
    exact List.mem_map.mpr ⟨_, List.mem_map.mpr ⟨i, hi, rfl⟩, rfl⟩)
  simpa [genuine, Request.pieceSlice] using hi'

/-- **Corruption is tolerated and never returned.**  Under an ideal content cipher, with shares
that are genuine or arbitrary bytes: `k` genuine ones among them are enough, nothing but the range
is ever returned, and the filters let every genuine `k`-subset through whatever blocks earlier
subsets failed at. -/
theorem reconstructRemote_authentic {prim : Primitives} {plain enc : List UInt8}
    {cipher : CipherSuite} (hcipher : cipher = .aesGcm ∨ cipher = .secretBox) {key : Key}
    {nonce : Nonce} {size : ℕ}
    (hideal : prim.IdealOn cipher key nonce plain
      (if size = 0 then defaultEncryptedBlockSize else size))
    {rs : Redundancy} {pieces : List (List UInt8)}
    (henc : encryptRemote prim plain cipher key nonce size = .ok enc)
    (hpieces : encodePieces enc rs = .ok pieces) (start len : ℕ) (hlen : 1 ≤ len)
    (hrange : start + len ≤ plain.length) :
    ∃ dec, newDecrypter prim cipher key nonce
        (if size = 0 then defaultEncryptedBlockSize else size) = .ok dec ∧
      ∃ off sz : ℕ,
        pieceByteRange start len dec.outBlockSize dec.inBlockSize rs = ((off : ℤ), (sz : ℤ)) ∧
        (∀ i < rs.n, off + sz ≤ (pieces.getD i []).length) ∧
        ∀ p, p = rangeParams rs plain enc cipher key nonce
            (if size = 0 then defaultEncryptedBlockSize else size) off start len →
        ∀ shares : List (ℤ × List UInt8), (shares.map Prod.fst).Nodup →
          (∀ s ∈ shares, 0 ≤ s.1 ∧ s.1 < rs.n ∧ s.2.length = sz) →
          (rs.k ≤ shares.countP (genuine pieces off sz) →
            reconstructRemote prim shares rs p = .ok (slice plain start len)) ∧
          (∀ x, reconstructRemote prim shares rs p = .ok x → x = slice plain start len) ∧
          ∀ combo ∈ kSubsets shares.length rs.k,
            (∀ s ∈ selectShares shares combo, genuine pieces off sz s = true) →
            ∀ failed : List ℤ, (∀ b ∈ failed, ∃ other ∈ kSubsets shares.length rs.k,
              ∃ decoded e, decodeEncryptedSlices (selectShares shares other) rs 0 none
                = .ok decoded ∧ decryptRemote prim p decoded = .error (e, some b)) →
            passesProbes prim (selectShares shares combo) rs p failed = true := by
  obtain ⟨dec, hdec, seg, hauth⟩ := encryptRemote_authentic hcipher hideal henc
  obtain ⟨codec, padding, nStripes, hcodec, hpieces, r, rfl⟩ :=
    Request.exists_of_encodePieces seg hpieces hlen hrange
  refine ⟨dec, hdec, _, _, r.pieceByteRange_eq, fun i hi => r.pieceSlice_fits hcodec hpieces hi, ?_⟩
  rintro p rfl shares hd hshares
  have hparams := r.params_rangeParams hdec
  by_cases hk : rs.k ≤ shares.length
  · have hsome := fun c (hc : c ∈ kSubsets shares.length rs.k) =>
      r.shares_decode hcodec hpieces hd hshares hk hc
    have hsearch := r.reconstructLoop_spec hparams hauth shares (shares.length > rs.k)
      (kSubsets shares.length rs.k) (fun c hc => (hsome c hc).imp fun _ h => h.1) [] none
      (fun x hx => by cases hx)
    rw [reconstructRemote, if_neg (not_lt.mpr hk)]
    refine ⟨fun hgen => hsearch.2 ?_, hsearch.1, ?_⟩
    · rw [← countP_positions] at hgen
      obtain ⟨c, hc, hall⟩ := exists_kSubset r.k_pos _ hgen
      obtain ⟨decoded, hdecodes, heq⟩ := hsome c hc
      obtain rfl := heq fun s hs => by
        obtain ⟨i, hi, rfl⟩ := List.mem_map.mp hs
        exact hall i hi
      exact ⟨c, hc, hdecodes⟩
    · intro combo hc hgen failed hfailed
      obtain ⟨decoded, hdecodes, heq⟩ := hsome combo hc
      obtain rfl := heq hgen
      refine r.passesProbes_genuine hparams hdecodes ?_
      intro b hb
      obtain ⟨other, hother, decoded, e, hdecode, hfail⟩ := hfailed b hb
      obtain ⟨decoded', hdecodes', -⟩ := hsome other hother
      cases hdecode.symm.trans hdecodes'.decode_eq
      rcases r.decryptRemote_authentic hparams hauth hdecodes' with hok | ⟨e', b', h0, h1, herr⟩
      · rw [hok] at hfail
        cases hfail
      · rw [herr] at hfail
        cases hfail
        exact ⟨b', h0, h1, rfl⟩
  · rw [reconstructRemote, if_pos (not_le.mp hk), kSubsets_eq_nil (not_le.mp hk)]
    refine ⟨fun hgen => ?_, ?_, ?_⟩
    · exact absurd (hgen.trans List.countP_le_length) hk
    · intro x hx
      cases hx
    · intro combo hc
      cases hc

/-- The block of four bytes of plaintext, as the example below pads it. -/
def fourBytesPadded : List UInt8 := [1, 2, 3, 4, 0, 0, 0, 4]

/-- The example cipher that opens one block only is ideal on its plaintext. -/
lemma taggingAead_idealOn (key : Key) (nonce : List UInt8) :
    (taggingAead (· = fourBytesPadded)).IdealOn key nonce [1, 2, 3, 4] 8 :=
  textAead_idealOn List.length_replicate rfl rfl (by decide) fun _ => decide_eq_true_iff

/-- One genuine share behind a corrupted one. -/
theorem reconstructRemote_one_corrupted : ∃ enc pieces, ∃ off sz : ℕ,
    encryptRemote ⟨taggingAead (· = fourBytesPadded), taggingAead (· = fourBytesPadded)⟩
      [1, 2, 3, 4] .aesGcm (Vector.replicate 32 3) (Vector.replicate 24 5) 24 = .ok enc ∧
    encodePieces enc ⟨1, 1, 2, 2, 5⟩ = .ok pieces ∧
    reconstructRemote ⟨taggingAead (· = fourBytesPadded), taggingAead (· = fourBytesPadded)⟩
      [(0, List.replicate sz 9), (1, slice (pieces.getD 1 []) off sz)] ⟨1, 1, 2, 2, 5⟩
      (rangeParams ⟨1, 1, 2, 2, 5⟩ [1, 2, 3, 4] enc .aesGcm (Vector.replicate 32 3)
        (Vector.replicate 24 5) 24 off 1 2) = .ok [2, 3] := by
  obtain ⟨codec, hcodec⟩ := (ReedSolomon.new_isOk_iff 1 2 5).mpr (by decide)
  obtain ⟨enc, padding, henc, hpad⟩ : ∃ enc padding,
      encryptRemote ⟨taggingAead (· = fourBytesPadded), taggingAead (· = fourBytesPadded)⟩
        [1, 2, 3, 4] .aesGcm (Vector.replicate 32 3) (Vector.replicate 24 5) 24 = .ok enc ∧
      pad enc (1 * 5) = .ok (enc ++ padding) := ⟨_, _, rfl, rfl⟩
  obtain ⟨pieces, hpieces, -⟩ := exists_encodePieces ⟨1, 1, 2, 2, 5⟩ hpad hcodec
  have hideal : Primitives.IdealOn
      ⟨taggingAead (· = fourBytesPadded), taggingAead (· = fourBytesPadded)⟩ .aesGcm
      (Vector.replicate 32 3) (Vector.replicate 24 5) [1, 2, 3, 4] 24 := by
    intro a lay n hsuite
    cases hsuite
    exact taggingAead_idealOn _ _
  obtain ⟨dec, -, off, sz, -, hfits, hall⟩ := reconstructRemote_authentic (Or.inl rfl) hideal henc
    hpieces 1 2 (by decide) (by decide)
  have hshares := (hall _ rfl [(0, List.replicate sz 9), (1, slice (pieces.getD 1 []) off sz)]
    (by simp) (by
      intro s hs
      have hlen := length_slice (hfits 1 (by decide))
      simp only [List.mem_cons, List.not_mem_nil, or_false] at hs
      rcases hs with rfl | rfl
      · simp
      · simpa using hlen)).1
  refine ⟨enc, pieces, off, sz, henc, hpieces, hshares ?_⟩
  simp [genuine, List.countP_cons]

end Storj.Uplink
