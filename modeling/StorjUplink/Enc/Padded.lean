import StorjUplink.Enc.Transform

/-!
# Padded segments, back and forth

The way back of `transform_padded`: `unpad` reads the length of the padding from its trailer, and
`transform_unpad` opens the blocks and takes the padding off.  The size of what `transform_padded`
makes is computed beforehand by `calc_encrypted_size`, with the arithmetic of `i64`.

The blocks of a segment open to the blocks of the padded plaintext, so a run of them opens to the
same run (`Segment.transformBlocks_run`); the whole of it and the trailer give the data back.

Padding is read back from the end: the last four bytes say how many bytes to take off, themselves
included, and `unpad` checks that this many are there.  Nothing else about the padding is checked,
which is all right for a segment that was authenticated and is said of no other.

The size formula is computed by the caller before anything is encrypted, and in signed arithmetic.
It agrees with the bytes that are made wherever its intermediate sum is representable
(`encryptedSizeFromBlocks_eq`), and overflows exactly elsewhere.  Since the sum has one block more
than the result, there are sizes whose blocks could be made and whose size cannot be computed;
`calcEncryptedSize_overflow` has one.
-/

namespace Storj.Enc

open Buffer MachineInt

/-! ## Taking the padding off

The trailer is a big-endian number at the end of the last block.  Where a block is shorter than the
trailer it reaches back into the blocks before.
-/

/-- `u32::from_be_bytes`. -/
def fromBeBytes (bytes : List UInt8) : ℕ := bytes.foldl (fun n b => n * 256 + b.toNat) 0

/-- `unpad_len`: so many bytes off the end, unless there are fewer. -/
def unpadLen (data : List UInt8) (padding : ℕ) : Except Error (List UInt8) :=
  if padding > data.length then .error ⟨.invalidConfig, "padding longer than data"⟩
  else .ok (data.take (data.length - padding))

/-- `unpad`: the last four bytes say how much was padded, themselves included. -/
def unpad (data : List UInt8) : Except Error (List UInt8) :=
  if data.length < uint32Size then .error ⟨.invalidConfig, "padded data too short"⟩
  else unpadLen data (fromBeBytes (data.drop (data.length - uint32Size)))

/-- `transform_unpad`: all blocks from the first one on, then the padding off. -/
def transformUnpad (t : Transformer) (data : List UInt8) : Except Error (List UInt8) := do
  let plain ← transformBlocks t data 0
  unpad plain

lemma fromBeBytes_toBeBytes {n : ℕ} (h : n < 2 ^ 32) : fromBeBytes (toBeBytes n) = n := by
  simp only [fromBeBytes, toBeBytes, List.foldl_cons, List.foldl_nil, UInt8.toNat_ofNat']
  omega

lemma length_toBeBytes (n : ℕ) : (toBeBytes n).length = uint32Size := rfl

/-- **The bytes that `pad` appends**: zeros, and their number with the trailer's. -/
lemma pad_eq_ok {data out : List UInt8} {blockSize : ℕ} (h : pad data blockSize = .ok out) :
    uint32Size ≤ paddingLength data.length blockSize ∧
      paddingLength data.length blockSize < 2 ^ 32 ∧
      out = data ++ (List.replicate (paddingLength data.length blockSize - uint32Size) 0 ++
        toBeBytes (paddingLength data.length blockSize)) := by
  rw [pad] at h
  split_ifs at h with hdata
  obtain ⟨padding, hpad, hout⟩ := Fallible.bind_eq_ok.mp h
  split_ifs at hout with hcap
  cases hout
  rw [makePadding] at hpad
  dsimp only at hpad
  split_ifs at hpad with h0 h1 h2 h3 h4 h5
  cases hpad
  exact ⟨(paddingLength_spec data.length (Nat.pos_of_ne_zero h0)).1, not_le.mp h5, rfl⟩

lemma length_of_pad {data out : List UInt8} {blockSize : ℕ} (h : pad data blockSize = .ok out) :
    out.length = data.length + paddingLength data.length blockSize := by
  obtain ⟨hmin, _, rfl⟩ := pad_eq_ok h
  rw [List.length_append, List.length_append, List.length_replicate, length_toBeBytes]
  omega

/-- **What was padded is unpadded**, whatever the block size is. -/
lemma unpad_pad {data out : List UInt8} {blockSize : ℕ} (h : pad data blockSize = .ok out) :
    unpad out = .ok data := by
  have hlen := length_of_pad h
  obtain ⟨hmin, hmax, hout⟩ := pad_eq_ok h
  have hdrop : out.drop (out.length - uint32Size) =
      toBeBytes (paddingLength data.length blockSize) := by
    rw [hlen, hout, ← List.append_assoc]
    refine List.drop_left' ?_
    rw [List.length_append, List.length_replicate]
    omega
  rw [unpad, if_neg (by omega), hdrop, fromBeBytes_toBeBytes hmax, unpadLen, if_neg (by omega),
    hlen, Nat.add_sub_cancel, hout, List.take_left]

/-! ## Runs of blocks

A download of a range opens the blocks that the range meets, starting at a block number other than
zero.  Each block has its own nonce, so the run opens to the same run of the padded plaintext.
-/

/-- **A run of whole blocks opens to the same run of the padded plaintext.** -/
lemma Segment.transformBlocks_run {dec : Transformer} {plain enc : List UInt8}
    (seg : Segment dec plain enc) {i k : ℕ} (hik : i + k ≤ seg.count) :
    transformBlocks dec (slice enc (i * dec.inBlockSize) (k * dec.inBlockSize)) i =
      .ok (slice (plain ++ seg.padding) (i * dec.outBlockSize) (k * dec.outBlockSize)) := by
  have hpos := seg.in_pos
  have hrun : slice enc (i * dec.inBlockSize) (k * dec.inBlockSize) =
      concat k fun j => seg.block (i + j) := by
    have h := slice_concat_run seg.length_block hik
    rwa [← seg.enc_eq] at h
  have hblock : ∀ j < k, (seg.block (i + j)).length = dec.inBlockSize :=
    fun j hj => seg.length_block _ (by omega)
  rw [hrun, transformBlocks, length_concat hblock, Nat.mul_mod_left,
    Nat.mul_div_cancel _ hpos, if_neg (by omega)]
  rw [concatM_eq_ok_of (g := fun j =>
    slice (plain ++ seg.padding) (i * dec.outBlockSize + j * dec.outBlockSize) dec.outBlockSize)]
  · rw [concat, flatMap_slice]
  · intro j hj
    rw [slice_concat hblock hj, ← Nat.cast_add, seg.opens _ (by omega), Nat.add_mul]

/-- **A segment is opened and unpadded to its data.** -/
lemma Segment.transformUnpad {dec t : Transformer} {plain enc : List UInt8}
    (seg : Segment dec plain enc) (hseal : seg.SealedBy t) :
    transformUnpad dec enc = .ok plain := by
  have hrun := seg.transformBlocks_run (i := 0) (k := seg.count) (by omega)
  rw [Nat.zero_mul, Nat.zero_mul, ← seg.length_enc, ← seg.length_padded, slice_zero_length,
    slice_zero_length] at hrun
  rw [Enc.transformUnpad, Nat.cast_zero.symm, hrun, Fallible.ok_bind]
  exact unpad_pad hseal.pad_eq

/-! ## The size beforehand

The formula rounds the data and its trailer up to a whole number of plaintext blocks and converts
that to encrypted blocks.  The rounding adds a block first and takes one byte off later, which is
where the overflow is.
-/

/-- `EncryptionParameters`. -/
structure EncryptionParameters where
  cipherSuite : CipherSuite
  blockSize : ℤ
deriving DecidableEq, Repr

/-- The result of an `i64` operation, which panics at an overflow. -/
def checkedI64 (x : ℤ) (message : String) : Except Error ℤ :=
  if i64Min ≤ x ∧ x ≤ i64Max then .ok x else .error ⟨.panicked, message⟩

/-- `encrypter_io_blocks`: the sizes of a block before and after, which differ by the tag, and by
nothing for the null suite. -/
def encrypterIoBlocks (cipher : CipherSuite) (encryptedBlockSize : ℕ) : Except Error (ℕ × ℕ) :=
  if cipher = .null then .ok (1, 1)
  else if cipher = .aesGcm ∨ cipher = .secretBox then
    if encryptedBlockSize ≤ tagSize then
      .error ⟨.invalidConfig, s!"encrypted block size {encryptedBlockSize} too small"⟩
    else .ok (encryptedBlockSize - tagSize, encryptedBlockSize)
  else .error (unsupported cipher)

/-- `encrypted_size_from_blocks`: the data and its trailer rounded up to whole blocks, and those in
their encrypted size, every operation checked for overflow. -/
def encryptedSizeFromBlocks (dataSize : ℤ) (inBlock outBlock : ℕ) : Except Error ℤ := do
  if (inBlock : ℤ) > i64Max ∨ (outBlock : ℤ) > i64Max then
    .error ⟨.panicked, "block size fits i64"⟩
  else
    let x ← checkedI64 (dataSize + uint32Size) "attempt to add with overflow"
    let x ← checkedI64 (x + inBlock) "attempt to add with overflow"
    let x ← checkedI64 (x - 1) "attempt to subtract with overflow"
    checkedI64 (x.tdiv inBlock * outBlock) "attempt to multiply with overflow"

/-- `calc_encrypted_size`: the size of the padded and encrypted data, from its length and the
parameters alone. -/
def calcEncryptedSize (dataSize : ℤ) (parameters : EncryptionParameters) : Except Error ℤ := do
  let blockSize ←
    if parameters.cipherSuite = .null then .ok 1
    else if parameters.blockSize < 0 then
      let size := parameters.blockSize
      .error ⟨.invalidConfig, s!"encrypted block size {size} too small"⟩
    else .ok parameters.blockSize.toNat
  let (inBlock, outBlock) ← encrypterIoBlocks parameters.cipherSuite blockSize
  encryptedSizeFromBlocks dataSize inBlock outBlock

lemma checkedI64_of_le {x : ℤ} {message : String} (h0 : 0 ≤ x) (h : x ≤ i64Max) :
    checkedI64 x message = .ok x := by
  rw [checkedI64, if_pos ⟨h0.trans' (by decide), h⟩]

/-- The blocks of the padded data, by its length. -/
lemma blocks_eq {n b p : ℕ} (hb : 0 < b) (hp : p = paddingLength n b) :
    (n + 4 + b - 1) / b = (n + p) / b := by
  obtain ⟨_, k, hk⟩ := paddingLength_spec n hb
  rw [← hp] at hk
  -- the padding is the shortest one
  have hlow : n + 4 ≤ b * k := by
    have := (paddingLength_spec n hb).1
    rw [uint32Size] at this
    omega
  have hhigh : b * k < n + 4 + b := by
    have hr := Nat.mod_lt (n + 4) hb
    rw [paddingLength, uint32Size] at hp
    have htmod : ((n : ℤ) + (4 : ℕ)).tmod b = ((n + 4) % b : ℕ) := by
      rw [← Nat.cast_add, ← Int.ofNat_tmod]
    rw [htmod] at hp
    split_ifs at hp with hpos
    · omega
    · omega
  rw [hk, Nat.mul_div_cancel_left _ hb]
  refine (Nat.div_eq_iff hb).mpr ⟨?_, ?_⟩
  · rw [Nat.mul_comm]
    omega
  · rw [Nat.mul_comm]
    omega

/-- **The size formula**, where none of its sums overflows. -/
lemma encryptedSizeFromBlocks_eq {n inBlock outBlock : ℕ} (hin : 0 < inBlock)
    (hsum : (n : ℤ) + uint32Size + inBlock ≤ i64Max) (hout : (outBlock : ℤ) ≤ i64Max)
    (hsize : (((n + paddingLength n inBlock) / inBlock * outBlock : ℕ) : ℤ) ≤ i64Max) :
    encryptedSizeFromBlocks n inBlock outBlock =
      .ok ((n + paddingLength n inBlock) / inBlock * outBlock : ℕ) := by
  have hfour : (uint32Size : ℤ) = 4 := rfl
  rw [hfour] at hsum
  have hdiv : ((n : ℤ) + 4 + inBlock - 1).tdiv inBlock =
      ((n + paddingLength n inBlock) / inBlock : ℕ) := by
    rw [← blocks_eq hin rfl]
    have hcast : (n : ℤ) + 4 + inBlock - 1 = ((n + 4 + inBlock - 1 : ℕ) : ℤ) := by omega
    rw [hcast, ← Int.ofNat_tdiv]
  rw [encryptedSizeFromBlocks, if_neg (by omega), hfour, checkedI64_of_le (by omega) (by omega),
    Fallible.ok_bind, checkedI64_of_le (by omega) (by omega), Fallible.ok_bind,
    checkedI64_of_le (by omega) (by omega), Fallible.ok_bind, hdiv, ← Nat.cast_mul,
    checkedI64_of_le (by omega) hsize]

/-- **The size formula overflows** where its second sum does. -/
lemma encryptedSizeFromBlocks_overflow {n inBlock outBlock : ℕ} {x : ℤ}
    (hsum : i64Max < (n : ℤ) + uint32Size + inBlock) :
    encryptedSizeFromBlocks n inBlock outBlock ≠ .ok x := by
  intro h
  rw [encryptedSizeFromBlocks] at h
  split_ifs at h
  obtain ⟨y, hy, h⟩ := Fallible.bind_eq_ok.mp h
  obtain ⟨z, hz, h⟩ := Fallible.bind_eq_ok.mp h
  rw [checkedI64] at hy hz
  split_ifs at hy hz with h₁ h₂
  cases hy
  exact absurd h₂.2 (not_le.mpr hsum)

/-- **What the constructors agree on**: the encrypter, the decrypter and the size formula have the
same blocks, and what the encrypter makes is a segment of the decrypter's. -/
lemma exists_segment_suite {prim : Primitives} (haes : prim.aesGcm.Lawful)
    (hbox : prim.secretBox.Lawful) {cipher : CipherSuite} {key : Key} {nonce : Nonce} {size : ℕ}
    {t : Transformer} {data out : List UInt8} (ht : newEncrypter prim cipher key nonce size = .ok t)
    (h : transformPadded t data = .ok out) :
    (cipher ≠ .null → t.outBlockSize = size) ∧
    encrypterIoBlocks cipher (if cipher = .null then 1 else size) =
      .ok (t.inBlockSize, t.outBlockSize) ∧
    ∃ dec, newDecrypter prim cipher key nonce size = .ok dec ∧
      dec.inBlockSize = t.outBlockSize ∧ dec.outBlockSize = t.inBlockSize ∧
      ∃ seg : Segment dec data out, seg.SealedBy t := by
  by_cases hnull : cipher = .null
  · rw [newEncrypter, if_pos hnull] at ht
    cases ht
    refine ⟨fun hne => absurd hnull hne, ?_, noopTransformer, ?_, rfl, rfl,
      exists_segment (paired_noop data) h⟩
    · rw [encrypterIoBlocks, if_pos hnull]
      rfl
    · rw [newDecrypter, if_pos hnull]
  · obtain ⟨a, lay, n, hsuite, henc, hdec⟩ := newEncrypter_eq_ok hnull ht
    have hlawful : a.Lawful ∧ (cipher = .aesGcm ∨ cipher = .secretBox) := by
      rw [Primitives.suite] at hsuite
      split_ifs at hsuite with h₁ h₂
      · cases hsuite
        exact ⟨haes, Or.inl h₁⟩
      · cases hsuite
        exact ⟨hbox, Or.inr h₂⟩
    obtain ⟨hsize, ht', _⟩ := aead_blockSizes henc
    rw [Nat.sub_add_cancel hsize.le] at ht'
    obtain ⟨hdec', seg, hseal⟩ := exists_segment_aead
      (fun _ _ i _ n _ => hlawful.1.opensAt key n _) henc h
    subst ht'
    refine ⟨fun _ => rfl, ?_, _, hdec.trans hdec', rfl, rfl, seg, hseal⟩
    rw [encrypterIoBlocks, if_neg hnull, if_pos hlawful.2, if_neg hnull,
      if_neg (not_le.mpr hsize)]

/-- **Padded encryption, back and forth.**  What `transform_padded` makes is a whole number of
encrypted blocks; the matching decrypter takes it back to the data, and any run of its blocks to the
same run of the padded data; and its size is the one that `calc_encrypted_size` computes, if the sum
of the data, the trailer and one block is an `i64`. -/
theorem transformPadded_round_trip (prim : Primitives) (haes : prim.aesGcm.Lawful)
    (hbox : prim.secretBox.Lawful) (parameters : EncryptionParameters) {key : Key} {nonce : Nonce}
    {t : Transformer} {data out : List UInt8} (hsize : parameters.blockSize ≤ i64Max)
    (ht : newEncrypter prim parameters.cipherSuite key nonce parameters.blockSize.toNat = .ok t)
    (h : transformPadded t data = .ok out) :
    ((data.length : ℤ) + uint32Size + t.inBlockSize ≤ i64Max → out.length ≤ isizeMax →
      calcEncryptedSize data.length parameters = .ok out.length) ∧
    (parameters.cipherSuite ≠ .null → t.outBlockSize = parameters.blockSize) ∧
    t.outBlockSize ∣ out.length ∧
    ∃ dec padded,
      newDecrypter prim parameters.cipherSuite key nonce parameters.blockSize.toNat = .ok dec ∧
      pad data t.inBlockSize = .ok padded ∧ transformUnpad dec out = .ok data ∧
      ∀ i k, i + k ≤ padded.length / t.inBlockSize →
        transformBlocks dec (slice out (i * t.outBlockSize) (k * t.outBlockSize)) i =
          .ok (slice padded (i * t.inBlockSize) (k * t.inBlockSize)) := by
  obtain ⟨hout, hio, dec, hdec, hdin, hdout, seg, hseal⟩ := exists_segment_suite haes hbox ht h
  have hpad := hseal.pad_eq
  have hcount := hseal.count_eq
  have hlen := seg.length_enc
  rw [hdin] at hlen
  have hpos : 0 < t.inBlockSize := hdout ▸ seg.out_pos
  have hblock : parameters.cipherSuite ≠ .null → 0 ≤ parameters.blockSize := by
    intro hnull
    by_contra hneg
    have := hdin ▸ seg.in_pos
    rw [hout hnull] at this
    omega
  refine ⟨fun hsum hvec => ?_, fun hnull => ?_, hlen ▸ Nat.dvd_mul_left _ _, dec, _, hdec, hpad,
    seg.transformUnpad hseal, fun i k hik => ?_⟩
  · -- the formula counts the blocks of the padded data
    have hcalc : calcEncryptedSize data.length parameters =
        encryptedSizeFromBlocks data.length t.inBlockSize t.outBlockSize := by
      rw [calcEncryptedSize]
      by_cases hnull : parameters.cipherSuite = .null
      · rw [if_pos hnull] at hio ⊢
        rw [Fallible.ok_bind]
        dsimp only
        rw [hio, Fallible.ok_bind]
      · rw [if_neg hnull] at hio ⊢
        rw [if_neg (not_lt.mpr (hblock hnull)), Fallible.ok_bind]
        dsimp only
        rw [hio, Fallible.ok_bind]
    have hcount' : seg.count =
        (data.length + paddingLength data.length t.inBlockSize) / t.inBlockSize := by
      rw [hcount, length_of_pad hpad]
    rw [hcount'] at hlen
    rw [isizeMax, hlen] at hvec
    have hout64 : (t.outBlockSize : ℤ) ≤ i64Max := by
      by_cases hnull : parameters.cipherSuite = .null
      · rw [newEncrypter, if_pos hnull] at ht
        cases ht
        decide
      · rw [hout hnull]
        have := hblock hnull
        omega
    rw [hcalc, hlen]
    refine encryptedSizeFromBlocks_eq hpos hsum hout64 ?_
    rw [i64Max]
    omega
  · rw [hout hnull]
    exact Int.toNat_of_nonneg (hblock hnull)
  · rw [← hcount] at hik
    have hrun := seg.transformBlocks_run hik
    rwa [hdin, hdout] at hrun

/-! ### Inputs


-/

/-- A cipher for small examples, which leaves the plaintext as it is under a tag of zeros. -/
def zeroTagAead : Aead := textAead (fun _ => List.replicate tagSize 0) fun _ _ => true

lemma zeroTagAead_lawful : zeroTagAead.Lawful := textAead_lawful fun _ => List.length_replicate

/-- Three bytes in blocks of two: the trailer is spread over two blocks. -/
theorem transformPadded_round_trip_small_blocks :
    ∃ t out dec, newEncrypter ⟨zeroTagAead, zeroTagAead⟩ .secretBox (Vector.replicate 32 0)
        (Vector.replicate 24 0) 18 = .ok t ∧
      transformPadded t [1, 2, 3] = .ok out ∧
      calcEncryptedSize 3 ⟨.secretBox, 18⟩ = .ok out.length ∧
      newDecrypter ⟨zeroTagAead, zeroTagAead⟩ .secretBox (Vector.replicate 32 0)
        (Vector.replicate 24 0) 18 = .ok dec ∧
      transformUnpad dec out = .ok [1, 2, 3] := by
  have hout : ∃ out, transformPadded ⟨2, 18, encryptBlock zeroTagAead secretBoxLayout
      (Vector.replicate 32 0) (Vector.replicate 24 0).toList⟩ [1, 2, 3] = .ok out ∧
      out.length ≤ isizeMax := by
    refine ⟨_, rfl, ?_⟩
    decide
  obtain ⟨out, hout, hlen⟩ := hout
  obtain ⟨hcalc, _, _, dec, _, hdec, _, hunpad, _⟩ := transformPadded_round_trip
    ⟨zeroTagAead, zeroTagAead⟩ zeroTagAead_lawful zeroTagAead_lawful ⟨.secretBox, 18⟩ (by decide) rfl hout
  exact ⟨_, out, dec, rfl, hout, hcalc (by decide) hlen, hdec, hunpad⟩

/-- The sample cipher refuses nothing. -/
lemma transformPadded_zeroTagAead (key : Key) (nonce : List UInt8) {data padded : List UInt8}
    {size : ℕ} (hpad : pad data size = .ok padded) : ∃ out,
      transformPadded ⟨size, size + tagSize, encryptBlock zeroTagAead secretBoxLayout key nonce⟩ data =
        .ok out := by
  obtain ⟨hpos, _, _, hdvd, _⟩ := pad_spec hpad
  have hblock : ∀ i : ℕ, ∃ block, encryptBlock zeroTagAead secretBoxLayout key nonce
      (slice padded (i * size) size) (0 + i) = .ok block := by
    intro i
    obtain ⟨n, hn⟩ := calcNonce_isOk nonce (by omega : (0 : ℤ) ≤ 0 + i)
    rw [encryptBlock, hn, Fallible.ok_bind]
    exact ⟨_, rfl⟩
  choose block hblock using hblock
  refine ⟨concat (padded.length / size) block, ?_⟩
  have hwhole : ¬(size = 0 ∨ padded.length % size ≠ 0) := by
    rw [Nat.mod_eq_zero_of_dvd hdvd]
    omega
  rw [transformPadded, hpad, Fallible.ok_bind, transformBlocks, if_neg hwhole]
  exact concatM_eq_ok_of fun i _ => hblock i

/-- **Where the size overflows**: a block of `2 ^ 62 + 16` bytes, filled by the data and its
trailer.  The blocks are made, and the sum of the data and one block is no `i64`. -/
theorem calcEncryptedSize_overflow :
    zeroTagAead.Lawful ∧ ∃ t out, newEncrypter ⟨zeroTagAead, zeroTagAead⟩ .secretBox (Vector.replicate 32 0)
        (Vector.replicate 24 0) (2 ^ 62 + 32) = .ok t ∧
      transformPadded t (List.replicate (2 ^ 62 + 12) 0) = .ok out ∧ out.length ≤ isizeMax ∧
      calcEncryptedSize (2 ^ 62 + 12) ⟨.secretBox, 2 ^ 62 + 32⟩ ≠ .ok out.length := by
  have hpadding : paddingLength ((2 ^ 62 + 12 : ℕ) : ℤ) (2 ^ 62 + 16) = uint32Size := by decide
  have hpad : pad (List.replicate (2 ^ 62 + 12) 0) (2 ^ 62 + 16) =
      .ok (List.replicate (2 ^ 62 + 12) 0 ++ toBeBytes 4) := by
    rw [pad, List.length_replicate, if_neg (by decide), makePadding, hpadding]
    rw [if_neg (by decide), if_neg (by decide), if_neg (by decide), if_neg (by decide)]
    dsimp only
    rw [if_neg (by decide), if_neg (by decide), Fallible.ok_bind, if_neg (by decide)]
    rfl
  obtain ⟨out, hout⟩ := transformPadded_zeroTagAead (Vector.replicate 32 0)
    (Vector.replicate 24 0 : Nonce).toList hpad
  have ht : newEncrypter ⟨zeroTagAead, zeroTagAead⟩ .secretBox (Vector.replicate 32 0)
      (Vector.replicate 24 0) (2 ^ 62 + 32) = .ok ⟨2 ^ 62 + 16, 2 ^ 62 + 16 + tagSize,
        encryptBlock zeroTagAead secretBoxLayout (Vector.replicate 32 0)
          (Vector.replicate 24 0 : Nonce).toList⟩ := rfl
  obtain ⟨_, _, dec, _, hdin, _, seg, hseal⟩ :=
    exists_segment_suite zeroTagAead_lawful zeroTagAead_lawful ht hout
  refine ⟨zeroTagAead_lawful, _, out, ht, hout, ?_, ?_⟩
  · rw [seg.length_enc, hseal.count_eq, ← Except.ok.inj (hpad.symm.trans hseal.pad_eq), hdin,
      List.length_append, List.length_replicate]
    decide
  · have hcalc : calcEncryptedSize (2 ^ 62 + 12) ⟨.secretBox, 2 ^ 62 + 32⟩ =
        encryptedSizeFromBlocks ((2 ^ 62 + 12 : ℕ) : ℤ) (2 ^ 62 + 16) (2 ^ 62 + 32) := rfl
    rw [hcalc]
    exact encryptedSizeFromBlocks_overflow (by decide)

end Storj.Enc
