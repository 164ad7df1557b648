import StorjUplink.Enc.Cipher
import StorjUplink.Lib.Buffer

/-!
# Padding and the block transformers

`pad.rs` and `transform.rs` of the encryption crate, with the two cipher transformers of
`aesgcm.rs` and `secretbox.rs`.  A segment is padded with zeros and a four-byte length trailer to a
whole number of plaintext blocks, and each block is sealed on its own under a nonce that counts
with the block number.

Two facts carry everything above: what a successful `pad` returns (`pad_spec`), and what a
successful `transform_padded` returns, a row of blocks each of which the matching decrypter takes
back (`Segment`).

A transformer is modelled by its two block sizes and by what it appends for one block; that the
source writes into a growing vector shows in the error path only, where the vector is dropped.  The
loop of `transform_blocks` hands out block numbers from a starting number, so that a range in the
middle of a segment can be transformed by itself.

`Segment` is the interface to everything above.  It has the ciphertext, the plaintext and the
decrypter, and says of each block what it opens to; what made the ciphertext is no longer
mentioned.  For the results about tampering the cipher is assumed to be ideal on one plaintext:
under the nonce of a block it opens the one ciphertext that it sealed there.
-/

namespace Storj.Enc

open Buffer MachineInt

/-! ## Padding

The trailer is counted in the padding: it is the four bytes of the trailer, and zeros in front of
them up to the end of a block.
-/

/-- Size of the padding-length trailer. -/
def uint32Size : ℕ := 4

/-- `u32::to_be_bytes`. -/
def toBeBytes (n : ℕ) : List UInt8 :=
  [UInt8.ofNat (n / 2 ^ 24), UInt8.ofNat (n / 2 ^ 16), UInt8.ofNat (n / 2 ^ 8), UInt8.ofNat n]

/-- How many bytes of padding `data_len` takes. -/
def paddingLength (dataLen : ℤ) (blockSize : ℕ) : ℕ :=
  let r := (dataLen + uint32Size).tmod blockSize
  if r > 0 then uint32Size + (blockSize - r).toNat else uint32Size

/-- `make_padding`: zeros and, in the last four bytes, how many bytes it has.  Several of its checks
are for numbers that do not fit their types. -/
def makePadding (dataLen : ℤ) (blockSize : ℕ) : Except Error (List UInt8) :=
  if blockSize = 0 then .error ⟨.invalidConfig, "block size must be positive"⟩
  else if dataLen < 0 then .error ⟨.invalidConfig, "data length was negative"⟩
  else if (blockSize : ℤ) > i64Max then .error ⟨.invalidConfig, "block size too large"⟩
  else if dataLen + uint32Size > i64Max then .error ⟨.panicked, "attempt to add with overflow"⟩
  else
    let padding := paddingLength dataLen blockSize
    if padding > isizeMax then .error ⟨.panicked, "capacity overflow"⟩
    else if padding ≥ 2 ^ 32 then .error ⟨.invalidConfig, "padding too large"⟩
    else .ok (List.replicate (padding - uint32Size) 0 ++ toBeBytes padding)

/-- `pad`: the data with its padding.  Where the sum of the two would be more than one allocation
can have, the source stops. -/
def pad (data : List UInt8) (blockSize : ℕ) : Except Error (List UInt8) := do
  if (data.length : ℤ) > i64Max then .error ⟨.invalidConfig, "data too large"⟩
  else
    let padding ← makePadding data.length blockSize
    if data.length + padding.length > isizeMax then .error ⟨.panicked, "capacity overflow"⟩
    else .ok (data ++ padding)

/-- Padding completes a block, and is never shorter than its trailer. -/
lemma paddingLength_spec (n : ℕ) {blockSize : ℕ} (h : 0 < blockSize) :
    uint32Size ≤ paddingLength n blockSize ∧ blockSize ∣ n + paddingLength n blockSize := by
  rw [paddingLength, uint32Size]
  have htmod : ((n : ℤ) + (4 : ℕ)).tmod blockSize = ((n + 4) % blockSize : ℕ) := by
    rw [← Nat.cast_add, ← Int.ofNat_tmod]
  rw [htmod]
  have hlt := Nat.mod_lt (n + 4) h
  split_ifs with hr
  · refine ⟨by omega, ?_⟩
    have hsub : ((blockSize : ℤ) - ((n + 4) % blockSize : ℕ)).toNat
        = blockSize - (n + 4) % blockSize := by omega
    rw [hsub]
    have hdm := Nat.div_add_mod (n + 4) blockSize
    have heq : n + (4 + (blockSize - (n + 4) % blockSize))
        = blockSize * ((n + 4) / blockSize) + blockSize := by omega
    rw [heq]
    exact Nat.dvd_add (Nat.dvd_mul_right _ _) (Nat.dvd_refl _)
  · refine ⟨le_rfl, Nat.dvd_of_mod_eq_zero ?_⟩
    omega

/-- **What a successful `pad` returns**: the data and a trailer, a whole number of blocks, within
the address space. -/
lemma pad_spec {data out : List UInt8} {blockSize : ℕ} (h : pad data blockSize = .ok out) :
    0 < blockSize ∧ blockSize ≤ isizeMax ∧ out.length ≤ isizeMax ∧ blockSize ∣ out.length ∧
      ∃ padding : List UInt8, uint32Size ≤ padding.length ∧ out = data ++ padding := by
  rw [pad] at h
  split_ifs at h with hdata
  obtain ⟨padding, hpad, hout⟩ := Fallible.bind_eq_ok.mp h
  split_ifs at hout with hcap
  cases hout
  rw [makePadding] at hpad
  dsimp only at hpad
  split_ifs at hpad with h0 h1 h2 h3 h4 h5
  cases hpad
  have hpos : 0 < blockSize := Nat.pos_of_ne_zero h0
  obtain ⟨hmin, hdvd⟩ := paddingLength_spec data.length hpos
  have hlen : (List.replicate (paddingLength data.length blockSize - uint32Size) (0 : UInt8)
      ++ toBeBytes (paddingLength data.length blockSize)).length
      = paddingLength data.length blockSize := by
    rw [List.length_append, List.length_replicate]
    show _ - uint32Size + 4 = _
    rw [uint32Size] at hmin ⊢
    omega
  refine ⟨hpos, ?_, ?_, ?_, _, ?_, rfl⟩
  · rw [i64Max] at h2
    rw [isizeMax]
    omega
  · rw [List.length_append]
    omega
  · rw [List.length_append, hlen]
    exact hdvd
  · rw [hlen]
    exact hmin

/-! ## Transformers

The two ciphers are one definition with a layout: which half comes first in a block, the ciphertext
or the tag, and the name that the errors print.
-/

/-- `Transformer`: the block sizes on both sides, and the bytes that `transform_into` appends for
one block. -/
structure Transformer where
  inBlockSize : ℕ
  outBlockSize : ℕ
  transformInto : List UInt8 → ℤ → Except Error (List UInt8)

/-- `NoopTransformer`: blocks of one byte, which stay as they are. -/
def noopTransformer : Transformer where
  inBlockSize := 1
  outBlockSize := 1
  transformInto input _ := .ok input

/-- `check_block_size`, the same in both cipher modules. -/
def checkBlockSize (encryptedBlockSize : ℕ) : Except Error ℕ :=
  if encryptedBlockSize ≤ tagSize then
    .error ⟨.invalidConfig, s!"encrypted block size {encryptedBlockSize} too small"⟩
  else .ok (encryptedBlockSize - tagSize)

/-- Where a cipher module puts the tag, and what it calls itself in its errors. -/
structure Layout where
  tagFirst : Bool
  encryptError : String
  decryptError : String

/-- Wire layout of `aesgcm.rs`: ciphertext, then tag. -/
def aesGcmLayout : Layout := ⟨false, "aes-gcm encrypt: aead::Error", "aes-gcm decrypt"⟩

/-- Wire layout of `secretbox.rs`: tag, then ciphertext. -/
def secretBoxLayout : Layout := ⟨true, "secretbox encrypt: aead::Error", "secretbox decrypt"⟩

/-- `transform_into` of `AesGcmEncrypter` and `SecretboxEncrypter`: the block is sealed under the
nonce of its number, and the tag put where the layout has it. -/
def encryptBlock (a : Aead) (lay : Layout) (key : Key) (startingNonce input : List UInt8)
    (blockNum : ℤ) : Except Error (List UInt8) := do
  let nonce ← calcNonce startingNonce blockNum
  match a.encryptDetached key nonce input with
  | none => .error ⟨.protocol, lay.encryptError⟩
  | some (c, t) => .ok (if lay.tagFirst then t ++ c else c ++ t)

/-- `transform_into` of `AesGcmDecrypter` and `SecretboxDecrypter`: the tag is split off and the
rest opened under the nonce of the block.  Every refusal of the cipher is one error. -/
def decryptBlock (a : Aead) (lay : Layout) (key : Key) (startingNonce input : List UInt8)
    (blockNum : ℤ) : Except Error (List UInt8) := do
  let nonce ← calcNonce startingNonce blockNum
  if input.length < tagSize then .error ⟨.decryptionFailed, lay.decryptError⟩
  else
    let split := if lay.tagFirst then tagSize else input.length - tagSize
    let (c, t) := if lay.tagFirst then (input.drop split, input.take split)
      else (input.take split, input.drop split)
    match a.decryptDetached key nonce c t with
    | none => .error ⟨.decryptionFailed, lay.decryptError⟩
    | some plain => .ok plain

/-- `AesGcmEncrypter::new` and `SecretboxEncrypter::new`. -/
def aeadEncrypter (a : Aead) (lay : Layout) (key : Key) (startingNonce : List UInt8)
    (encryptedBlockSize : ℕ) : Except Error Transformer := do
  let blockSize ← checkBlockSize encryptedBlockSize
  .ok ⟨blockSize, blockSize + tagSize, encryptBlock a lay key startingNonce⟩

/-- `AesGcmDecrypter::new` and `SecretboxDecrypter::new`. -/
def aeadDecrypter (a : Aead) (lay : Layout) (key : Key) (startingNonce : List UInt8)
    (encryptedBlockSize : ℕ) : Except Error Transformer := do
  let blockSize ← checkBlockSize encryptedBlockSize
  .ok ⟨blockSize + tagSize, blockSize, decryptBlock a lay key startingNonce⟩

/-- `to_aes_gcm_nonce`: the first twelve bytes. -/
def toAesGcmNonce (nonce : Nonce) : List UInt8 := nonce.toList.take 12

/-- The refusal both constructors share for the other suites. -/
def unsupported (cipher : CipherSuite) : Error :=
  if cipher = .nullBase64Url then
    ⟨.invalidConfig, "base64 encoding not supported for this operation"⟩
  else
    let code := cipher.code
    ⟨.invalidConfig, s!"encryption type {code} is not supported"⟩

/-- `new_encrypter`: the transformer of a suite, with the starting nonce cut to what the cipher
takes. The suites without blocks are refused, but for the null one. -/
def newEncrypter (prim : Primitives) (cipher : CipherSuite) (key : Key) (startingNonce : Nonce)
    (encryptedBlockSize : ℕ) : Except Error Transformer :=
  if cipher = .null then .ok noopTransformer
  else if cipher = .aesGcm then
    aeadEncrypter prim.aesGcm aesGcmLayout key (toAesGcmNonce startingNonce) encryptedBlockSize
  else if cipher = .secretBox then
    aeadEncrypter prim.secretBox secretBoxLayout key startingNonce.toList encryptedBlockSize
  else .error (unsupported cipher)

/-- `new_decrypter`: the same for the way back, with the block sizes exchanged. -/
def newDecrypter (prim : Primitives) (cipher : CipherSuite) (key : Key) (startingNonce : Nonce)
    (encryptedBlockSize : ℕ) : Except Error Transformer :=
  if cipher = .null then .ok noopTransformer
  else if cipher = .aesGcm then
    aeadDecrypter prim.aesGcm aesGcmLayout key (toAesGcmNonce startingNonce) encryptedBlockSize
  else if cipher = .secretBox then
    aeadDecrypter prim.secretBox secretBoxLayout key startingNonce.toList encryptedBlockSize
  else .error (unsupported cipher)

/-- `transform_blocks`: whole blocks, numbered from the starting block on, each transformed by
itself and appended to what is there. -/
def transformBlocks (t : Transformer) (data : List UInt8) (startingBlock : ℤ) :
    Except Error (List UInt8) :=
  if t.inBlockSize = 0 ∨ data.length % t.inBlockSize ≠ 0 then
    .error ⟨.invalidConfig, "invalid transformer and range reader combination." ++
      "the range reader size is not a multiple of the block size"⟩
  else concatM (data.length / t.inBlockSize) fun i =>
    t.transformInto (slice data (i * t.inBlockSize) t.inBlockSize) (startingBlock + i)

/-- `transform_padded`: the padding up to whole blocks, then all blocks from the first one on. -/
def transformPadded (t : Transformer) (data : List UInt8) : Except Error (List UInt8) := do
  let padded ← pad data t.inBlockSize
  transformBlocks t padded 0

/-- `calc_encompassing_blocks`: first block and number of blocks, where it does not panic
(`EncompassingBlocksPanics`). -/
def calcEncompassingBlocks (offset length : ℤ) (blockSize : ℕ) : ℤ × ℤ :=
  let firstBlock := offset.tdiv blockSize
  if length ≤ 0 then (firstBlock, 0)
  else
    let stop := offset + length
    let lastBlock := stop.tdiv blockSize
    if stop.tmod blockSize = 0 then (firstBlock, lastBlock - firstBlock)
    else (firstBlock, 1 + lastBlock - firstBlock)

/-- Where `calc_encompassing_blocks` panics: the block size is zero or no `i64`, or the end of the
range is no `i64`. -/
def EncompassingBlocksPanics (offset length : ℤ) (blockSize : ℕ) : Prop :=
  blockSize = 0 ∨ (blockSize : ℤ) > i64Max ∨ 0 < length ∧ offset + length > i64Max

/-! ## What one block goes through

Sealing writes the two halves in the order of the layout, opening splits them at the length of the
tag.  The lengths are the contract's, so the split is where the halves met.
-/

/-- The contract of a cipher at one plaintext: what it seals it opens, and the lengths are right. -/
def Aead.OpensAt (a : Aead) (key : Key) (nonce plain : List UInt8) : Prop :=
  ∀ c t, a.encryptDetached key nonce plain = some (c, t) →
    a.decryptDetached key nonce c t = some plain ∧ c.length = plain.length ∧ t.length = tagSize

lemma Aead.Lawful.opensAt {a : Aead} (h : a.Lawful) (key : Key) (nonce plain : List UInt8) :
    a.OpensAt key nonce plain := by
  intro c t hct
  exact ⟨h.decrypt_encrypt hct, h.length_ciphertext hct, h.length_tag hct⟩

/-- Splitting a block at the tag undoes the layout. -/
lemma split_layout (lay : Layout) {c t : List UInt8} (ht : t.length = tagSize) :
    let block := if lay.tagFirst then t ++ c else c ++ t
    let split := if lay.tagFirst then tagSize else block.length - tagSize
    ¬block.length < tagSize ∧ (if lay.tagFirst then (block.drop split, block.take split)
      else (block.take split, block.drop split)) = (c, t) := by
  cases lay.tagFirst with
  | true =>
      refine ⟨by simp [ht], ?_⟩
      simp [← ht]
  | false =>
      refine ⟨by simp [ht], ?_⟩
      simp [← ht]

/-- A block that `encrypt_block` made, `decrypt_block` takes back. -/
lemma decryptBlock_encryptBlock {a : Aead} {lay : Layout} {key : Key}
    {startingNonce input out : List UInt8} {blockNum : ℤ}
    (hopen : ∀ nonce, calcNonce startingNonce blockNum = .ok nonce → a.OpensAt key nonce input)
    (h : encryptBlock a lay key startingNonce input blockNum = .ok out) :
    decryptBlock a lay key startingNonce out blockNum = .ok input ∧
      out.length = input.length + tagSize := by
  rw [encryptBlock] at h
  obtain ⟨nonce, hnonce, h⟩ := Fallible.bind_eq_ok.mp h
  cases hsealed : a.encryptDetached key nonce input with
  | none =>
      rw [hsealed] at h
      cases h
  | some ct =>
      obtain ⟨c, t⟩ := ct
      rw [hsealed] at h
      cases h
      obtain ⟨hdec, hc, ht⟩ := hopen nonce hnonce c t hsealed
      obtain ⟨hlong, hsplit⟩ := split_layout lay (c := c) ht
      constructor
      · rw [decryptBlock, hnonce, Fallible.ok_bind, if_neg hlong]
        dsimp only at hsplit ⊢
        rw [hsplit, hdec]
      · cases lay.tagFirst with
        | true => simp [hc, ht, Nat.add_comm]
        | false => simp [hc, ht]

/-! ## Segments

A successful `transform_padded` makes a whole number of blocks, each of which its decrypter takes
back.  The null suite is included, with the transformer that copies.
-/

/-- The pair of transformers of one cipher, on a plaintext: each block of the padded plaintext that
`enc` transforms, `dec` takes back. -/
structure Paired (enc dec : Transformer) (plain : List UInt8) : Prop where
  in_eq : enc.inBlockSize = dec.outBlockSize
  in_pos : 0 < dec.inBlockSize
  opens : ∀ padded, pad plain enc.inBlockSize = .ok padded →
    ∀ i < padded.length / enc.inBlockSize, ∀ out,
      enc.transformInto (slice padded (i * enc.inBlockSize) enc.inBlockSize) i = .ok out →
        dec.transformInto out i = .ok (slice padded (i * enc.inBlockSize) enc.inBlockSize) ∧
          out.length = dec.inBlockSize

/-- An encrypted segment, as its decrypter sees it: a row of blocks, each opening to its block of
the padded plaintext. -/
structure Segment (dec : Transformer) (plain enc : List UInt8) where
  count : ℕ
  padding : List UInt8
  block : ℕ → List UInt8
  in_pos : 0 < dec.inBlockSize
  out_pos : 0 < dec.outBlockSize
  out_le : dec.outBlockSize ≤ isizeMax
  padded_le : (plain ++ padding).length ≤ isizeMax
  length_padded : (plain ++ padding).length = count * dec.outBlockSize
  length_block : ∀ i < count, (block i).length = dec.inBlockSize
  enc_eq : enc = concat count block
  opens : ∀ i < count, dec.transformInto (block i) i
    = .ok (slice (plain ++ padding) (i * dec.outBlockSize) dec.outBlockSize)

/-- The blocks of a segment are what `t` makes of the blocks of the padded plaintext. -/
structure Segment.SealedBy {dec : Transformer} {plain enc : List UInt8}
    (seg : Segment dec plain enc) (t : Transformer) : Prop where
  pad_eq : pad plain t.inBlockSize = .ok (plain ++ seg.padding)
  count_eq : seg.count = (plain ++ seg.padding).length / t.inBlockSize
  block_eq : ∀ i < seg.count, t.transformInto
    (slice (plain ++ seg.padding) (i * t.inBlockSize) t.inBlockSize) i = .ok (seg.block i)

/-- **`transform_padded` makes a segment.** -/
theorem exists_segment {t dec : Transformer} {plain enc : List UInt8} (hpair : Paired t dec plain)
    (h : transformPadded t plain = .ok enc) : ∃ seg : Segment dec plain enc, seg.SealedBy t := by
  rw [transformPadded] at h
  obtain ⟨padded, hpad, h⟩ := Fallible.bind_eq_ok.mp h
  obtain ⟨hpos, hle, hlen, hdvd, padding, -, rfl⟩ := pad_spec hpad
  rw [transformBlocks] at h
  split_ifs at h with hbad
  obtain ⟨block, hblock, rfl⟩ := exists_of_concatM_eq_ok h
  have hblock' : ∀ i < (plain ++ padding).length / t.inBlockSize, t.transformInto
      (slice (plain ++ padding) (i * t.inBlockSize) t.inBlockSize) i = .ok (block i) := by
    intro i hi
    have hi' := hblock i hi
    rwa [zero_add] at hi'
  have hround : ∀ i < (plain ++ padding).length / t.inBlockSize,
      dec.transformInto (block i) i
          = .ok (slice (plain ++ padding) (i * t.inBlockSize) t.inBlockSize) ∧
        (block i).length = dec.inBlockSize :=
    fun i hi => hpair.opens _ hpad i hi _ (hblock' i hi)
  refine ⟨{
    count := (plain ++ padding).length / t.inBlockSize
    padding, block
    in_pos := hpair.in_pos
    out_pos := by rwa [← hpair.in_eq]
    out_le := by rwa [← hpair.in_eq]
    padded_le := hlen
    length_padded := by rw [← hpair.in_eq, Nat.div_mul_cancel hdvd]
    length_block := fun i hi => (hround i hi).2
    enc_eq := rfl
    opens := by
      rw [← hpair.in_eq]
      exact fun i hi => (hround i hi).1 }, hpad, rfl, hblock'⟩

namespace Segment

variable {dec : Transformer} {plain enc : List UInt8} (seg : Segment dec plain enc)

lemma length_enc : enc.length = seg.count * dec.inBlockSize := by
  have h := length_concat seg.length_block
  rwa [← seg.enc_eq] at h

/-- Block `i` on the wire. -/
lemma slice_enc {i : ℕ} (hi : i < seg.count) :
    slice enc (i * dec.inBlockSize) dec.inBlockSize = seg.block i := by
  have h := slice_concat seg.length_block hi
  rwa [← seg.enc_eq] at h

/-- The plaintext fits in the blocks. -/
lemma length_plain_le : plain.length ≤ seg.count * dec.outBlockSize := by
  rw [← seg.length_padded, List.length_append]
  omega

end Segment

/-- The pass-through transformer is paired with itself. -/
lemma paired_noop (plain : List UInt8) : Paired noopTransformer noopTransformer plain where
  in_eq := rfl
  in_pos := Nat.one_pos
  opens := by
    intro padded _ i hi out hout
    cases hout
    refine ⟨rfl, ?_⟩
    show (slice padded (i * 1) 1).length = 1
    have hi' : i < padded.length := by simpa [noopTransformer] using hi
    exact length_slice (by omega)

/-- The constructors check the block size and agree on it. -/
lemma aead_blockSizes {a : Aead} {lay : Layout} {key : Key} {nonce : List UInt8} {size : ℕ}
    {t : Transformer} (h : aeadEncrypter a lay key nonce size = .ok t) :
    tagSize < size ∧
      t = ⟨size - tagSize, size - tagSize + tagSize, encryptBlock a lay key nonce⟩ ∧
      aeadDecrypter a lay key nonce size
        = .ok ⟨size - tagSize + tagSize, size - tagSize, decryptBlock a lay key nonce⟩ := by
  rw [aeadEncrypter] at h
  obtain ⟨b, hb, h⟩ := Fallible.bind_eq_ok.mp h
  rw [aeadDecrypter, hb]
  rw [checkBlockSize] at hb
  split_ifs at hb with hsize
  cases hb
  cases h
  exact ⟨not_le.mp hsize, rfl, rfl⟩

/-- The encrypter and decrypter of one cipher are paired on a plaintext that the cipher opens block
by block. -/
lemma paired_aead {a : Aead} {lay : Layout} {key : Key} {nonce : List UInt8} {size : ℕ}
    {plain : List UInt8}
    (hopen : ∀ padded, pad plain (size - tagSize) = .ok padded →
      ∀ i < padded.length / (size - tagSize), ∀ n, calcNonce nonce i = .ok n →
        a.OpensAt key n (slice padded (i * (size - tagSize)) (size - tagSize))) :
    Paired ⟨size - tagSize, size - tagSize + tagSize, encryptBlock a lay key nonce⟩
      ⟨size - tagSize + tagSize, size - tagSize, decryptBlock a lay key nonce⟩ plain where
  in_eq := rfl
  in_pos := by
    show 0 < size - tagSize + tagSize
    rw [tagSize]
    omega
  opens := by
    intro padded hpad i hi out hout
    obtain ⟨hdec, hlen⟩ := decryptBlock_encryptBlock (hopen padded hpad i hi) hout
    refine ⟨hdec, hlen.trans ?_⟩
    have hi' := Nat.mul_le_of_le_div _ _ _ (Nat.succ_le_of_lt hi)
    show (slice padded (i * (size - tagSize)) (size - tagSize)).length + tagSize = _
    rw [length_slice]
    rwa [Nat.succ_mul] at hi'

/-- A cipher that opens every block it sealed makes a segment. -/
lemma exists_segment_aead {a : Aead} {lay : Layout} {key : Key} {nonce : List UInt8} {size : ℕ}
    {plain enc : List UInt8} {t : Transformer}
    (hopen : ∀ padded, pad plain (size - tagSize) = .ok padded →
      ∀ i < padded.length / (size - tagSize), ∀ n, calcNonce nonce i = .ok n →
        a.OpensAt key n (slice padded (i * (size - tagSize)) (size - tagSize)))
    (ht : aeadEncrypter a lay key nonce size = .ok t) (h : transformPadded t plain = .ok enc) :
    aeadDecrypter a lay key nonce size = .ok ⟨size, size - tagSize, decryptBlock a lay key nonce⟩ ∧
      ∃ seg : Segment ⟨size, size - tagSize, decryptBlock a lay key nonce⟩ plain enc,
        seg.SealedBy ⟨size - tagSize, size, encryptBlock a lay key nonce⟩ := by
  obtain ⟨hsize, rfl, hdec⟩ := aead_blockSizes ht
  have hseg := exists_segment (paired_aead hopen) h
  rw [Nat.sub_add_cancel hsize.le] at hdec hseg
  exact ⟨hdec, hseg⟩

/-! ## Ideal ciphers

What is below is used for shares that may be forged.  A decrypter either gives the block that was
sealed or reports that the authentication failed, and no third thing.
-/

/-- A cipher that is ideal on a plaintext: under the nonce of block `i` it opens what it sealed
there, and nothing else. -/
def Aead.IdealOn (a : Aead) (key : Key) (startingNonce plain : List UInt8) (size : ℕ) : Prop :=
  ∀ padded, pad plain size = .ok padded → ∀ i < padded.length / size, ∀ n c t,
    calcNonce startingNonce i = .ok n →
    a.encryptDetached key n (slice padded (i * size) size) = some (c, t) →
      c.length = (slice padded (i * size) size).length ∧ t.length = tagSize ∧
        ∀ c' t' p, a.decryptDetached key n c' t' = some p ↔
          c' = c ∧ t' = t ∧ p = slice padded (i * size) size

/-- A text cipher that accepts one block only is ideal on it. -/
lemma textAead_idealOn {tag : Key → List UInt8} {accepts : Key → List UInt8 → Bool} {key : Key}
    {startingNonce plain block : List UInt8} {size : ℕ} (htag : (tag key).length = tagSize)
    (hpad : pad plain size = .ok block) (hblock : block.length = size) (hsize : 0 < size)
    (haccepts : ∀ c, accepts key c = true ↔ c = block) :
    (textAead tag accepts).IdealOn key startingNonce plain size := by
  intro padded hpad' i hi n c t _ hct
  obtain rfl : block = padded := Except.ok.inj (hpad.symm.trans hpad')
  rw [hblock, Nat.div_self hsize] at hi
  obtain rfl := Nat.lt_one_iff.mp hi
  have hone : slice block (0 * size) size = block := by
    rw [Nat.zero_mul, ← hblock, slice_zero_length]
  rw [hone] at hct ⊢
  cases hct
  refine ⟨rfl, htag, fun c' t' p => ?_⟩
  show (if t' = tag key ∧ accepts key c' = true then some c' else none) = some p ↔ _
  split_ifs with h
  · obtain ⟨rfl, hc⟩ := h
    obtain rfl := (haccepts c').mp hc
    simp [eq_comm]
  · constructor
    · intro hnone
      cases hnone
    · rintro ⟨hc, ht, -⟩
      exact absurd ⟨ht, (haccepts c').mpr hc⟩ h

lemma Aead.IdealOn.opensAt {a : Aead} {key : Key} {startingNonce plain : List UInt8} {size : ℕ}
    (h : a.IdealOn key startingNonce plain size) {padded : List UInt8}
    (hpad : pad plain size = .ok padded) {i : ℕ} (hi : i < padded.length / size) {n : List UInt8}
    (hn : calcNonce startingNonce i = .ok n) : a.OpensAt key n (slice padded (i * size) size) := by
  intro c t hct
  obtain ⟨hc, ht, hiff⟩ := h padded hpad i hi n c t hn hct
  exact ⟨(hiff c t _).mpr ⟨rfl, rfl, rfl⟩, hc, ht⟩

/-- What a decrypter of an authenticated cipher does on the blocks below `count`: at most one input
opens at each, and every refusal is an authentication failure. -/
structure Transformer.Authentic (dec : Transformer) (count : ℕ) : Prop where
  unique : ∀ i < count, ∀ a b x y, dec.transformInto a i = .ok x →
    dec.transformInto b i = .ok y → a = b
  kind : ∀ (i : ℕ) (a : List UInt8) (e : Error), dec.transformInto a i = .error e →
    e.kind = .decryptionFailed

/-- An opened block, taken apart: its two halves were opened, and the layout puts them together
again. -/
lemma decryptBlock_eq_ok {a : Aead} {lay : Layout} {key : Key} {startingNonce input x : List UInt8}
    {blockNum : ℤ} (h : decryptBlock a lay key startingNonce input blockNum = .ok x) :
    ∃ n c t, calcNonce startingNonce blockNum = .ok n ∧ a.decryptDetached key n c t = some x ∧
      input = if lay.tagFirst then t ++ c else c ++ t := by
  rw [decryptBlock] at h
  obtain ⟨n, hn, h⟩ := Fallible.bind_eq_ok.mp h
  split_ifs at h with hshort htag
  · dsimp only at h
    cases hopen : a.decryptDetached key n (input.drop tagSize) (input.take tagSize) with
    | none =>
        rw [hopen] at h
        cases h
    | some p =>
        rw [hopen] at h
        cases h
        refine ⟨n, _, _, hn, hopen, ?_⟩
        rw [if_pos htag, List.take_append_drop]
  · dsimp only at h
    cases hopen : a.decryptDetached key n (input.take (input.length - tagSize))
        (input.drop (input.length - tagSize)) with
    | none =>
        rw [hopen] at h
        cases h
    | some p =>
        rw [hopen] at h
        cases h
        refine ⟨n, _, _, hn, hopen, ?_⟩
        rw [if_neg htag, List.take_append_drop]

/-- A block is refused only by the cipher. -/
lemma decryptBlock_eq_error {a : Aead} {lay : Layout} {key : Key}
    {startingNonce input : List UInt8} {i : ℕ} {e : Error}
    (h : decryptBlock a lay key startingNonce input i = .error e) :
    e.kind = .decryptionFailed := by
  obtain ⟨n, hn⟩ := calcNonce_isOk startingNonce (Int.natCast_nonneg i)
  rw [decryptBlock, hn, Fallible.ok_bind] at h
  dsimp only at h
  split_ifs at h with hshort htag
  · cases h
    rfl
  · dsimp only at h
    split at h
    · cases h
      rfl
    · cases h
  · dsimp only at h
    split at h
    · cases h
      rfl
    · cases h

/-- **An ideal cipher authenticates the segments it made.** -/
lemma Segment.authentic {a : Aead} {lay : Layout} {key : Key} {nonce : List UInt8} {size : ℕ}
    {plain enc : List UInt8} (hideal : a.IdealOn key nonce plain (size - tagSize))
    {seg : Segment ⟨size, size - tagSize, decryptBlock a lay key nonce⟩ plain enc}
    (hseal : seg.SealedBy ⟨size - tagSize, size, encryptBlock a lay key nonce⟩) :
    Transformer.Authentic ⟨size, size - tagSize, decryptBlock a lay key nonce⟩ seg.count where
  unique := by
    intro i hi u v x y hx hy
    have hmade := hseal.block_eq i hi
    rw [hseal.count_eq] at hi
    obtain ⟨n, hn, hmade⟩ := Fallible.bind_eq_ok.mp hmade
    cases hsealed : a.encryptDetached key n
        (slice (plain ++ seg.padding) (i * (size - tagSize)) (size - tagSize)) with
    | none =>
        dsimp only at hmade
        rw [hsealed] at hmade
        cases hmade
    | some ct =>
        obtain ⟨c, t⟩ := ct
        obtain ⟨-, -, hiff⟩ := hideal _ hseal.pad_eq i hi n c t hn hsealed
        obtain ⟨n₁, c₁, t₁, hn₁, hopen₁, rfl⟩ := decryptBlock_eq_ok hx
        obtain ⟨n₂, c₂, t₂, hn₂, hopen₂, rfl⟩ := decryptBlock_eq_ok hy
        rw [hn] at hn₁ hn₂
        cases hn₁
        cases hn₂
        obtain ⟨rfl, rfl, -⟩ := (hiff _ _ _).mp hopen₁
        obtain ⟨rfl, rfl, -⟩ := (hiff _ _ _).mp hopen₂
        rfl
  kind _ _ _ h := decryptBlock_eq_error h

/-- The authenticated cipher behind a suite, with its layout and its starting nonce. -/
def Primitives.suite (prim : Primitives) (cipher : CipherSuite) (nonce : Nonce) :
    Option (Aead × Layout × List UInt8) :=
  if cipher = .aesGcm then some (prim.aesGcm, aesGcmLayout, toAesGcmNonce nonce)
  else if cipher = .secretBox then some (prim.secretBox, secretBoxLayout, nonce.toList)
  else none

/-- The content cipher is ideal on a plaintext. -/
def Primitives.IdealOn (prim : Primitives) (cipher : CipherSuite) (key : Key) (nonce : Nonce)
    (plain : List UInt8) (size : ℕ) : Prop :=
  ∀ a lay n, prim.suite cipher nonce = some (a, lay, n) → a.IdealOn key n plain (size - tagSize)

/-- Encrypter and decrypter of a suite other than the null one are those of its cipher. -/
lemma newEncrypter_eq_ok {prim : Primitives} {cipher : CipherSuite} {key : Key} {nonce : Nonce}
    {size : ℕ} {t : Transformer} (hnull : cipher ≠ .null)
    (h : newEncrypter prim cipher key nonce size = .ok t) :
    ∃ a lay n, prim.suite cipher nonce = some (a, lay, n) ∧
      aeadEncrypter a lay key n size = .ok t ∧
      newDecrypter prim cipher key nonce size = aeadDecrypter a lay key n size := by
  rw [newEncrypter, if_neg hnull] at h
  rw [newDecrypter, if_neg hnull, Primitives.suite]
  split_ifs at h ⊢ with haes hbox
  · exact ⟨_, _, _, rfl, h, rfl⟩
  · exact ⟨_, _, _, rfl, h, rfl⟩

end Storj.Enc
