import StorjUplink.Enc.Padded
import StorjUplink.Enc.Path
import StorjUplink.Uplink.Pipeline
import Mathlib.Data.Nat.Digits.Lemmas

/-!
# Content nonces

A block of a segment is sealed under the nonce of its segment plus its own number, and the nonce of
a segment is its position in the object plus one.  No nonce is used twice because nothing is lost on
the way: `increment_bytes` is addition of little-endian numbers (`incrementLoop_spec`), a position
fits into the low 63 bits, and a nonce has more bits than a block number.

There are two sources of nonces.  The position of a segment in its object, a part number and an
index, gives the starting nonce, and the number of a block is added to it.  Positions are encoded
into one number, the part in the upper half and the index in the lower, plus one so that the first
position is not zero.

A collision of nonces under one key would have to come from an addition that wraps or from two
positions with one number.  The loop that adds is shown to be addition modulo the size of the
buffer, the numbers stay far below that, and the encoding of positions is injective.
-/

namespace Storj.Enc

open MachineInt

/-! ## Little-endian numbers

Buffers of one length are numbers below a power of 256, in both directions.
-/

/-- The number that bytes stand for, the lowest byte first. -/
def littleEndian (bytes : List UInt8) : ℕ := Nat.ofDigits 256 (bytes.map UInt8.toNat)

lemma littleEndian_cons (b : UInt8) (bytes : List UInt8) :
    littleEndian (b :: bytes) = b.toNat + 256 * littleEndian bytes := by
  rw [littleEndian, List.map_cons, Nat.ofDigits_cons]
  rfl

lemma digits_lt {bytes : List UInt8} : ∀ d ∈ bytes.map UInt8.toNat, d < 256 := by
  intro d hd
  obtain ⟨b, -, rfl⟩ := List.mem_map.mp hd
  exact b.toNat_lt

lemma littleEndian_lt (bytes : List UInt8) : littleEndian bytes < 256 ^ bytes.length := by
  have hlt := Nat.ofDigits_lt_base_pow_length (by decide : 1 < 256) (@digits_lt bytes)
  rwa [List.length_map] at hlt

lemma littleEndian_replicate_zero (n : ℕ) : littleEndian (List.replicate n 0) = 0 := by
  induction n with
  | zero => rfl
  | succ n ih => rw [List.replicate_succ, littleEndian_cons, ih]; rfl

/-! ## Addition

The loop stops when nothing is left to carry.  What is left at the end of the buffer is the
overflow.
-/

/-- One byte of the sum, and its carry. -/
lemma toNat_add_carry (b : UInt8) (amount : ℕ) :
    (b + UInt8.ofNat amount).toNat + 256 * (if b + UInt8.ofNat amount < b then 1 else 0)
      = b.toNat + amount % 256 := by
  have hb := b.toNat_lt
  have hsum : (b + UInt8.ofNat amount).toNat = (b.toNat + amount % 256) % 256 := by
    rw [UInt8.toNat_add, UInt8.toNat_ofNat']
  have hlt : b + UInt8.ofNat amount < b ↔ (b.toNat + amount % 256) % 256 < b.toNat := by
    rw [UInt8.lt_iff_toNat_lt, hsum]
  rw [hsum]
  split_ifs with hcarry
  · rw [hlt] at hcarry
    omega
  · rw [hlt] at hcarry
    omega

/-- **The loop adds.**  What did not fit is returned. -/
theorem incrementLoop_spec (buf : List UInt8) (amount : ℕ) :
    (incrementLoop buf amount).1.length = buf.length ∧
      littleEndian (incrementLoop buf amount).1 + 256 ^ buf.length * (incrementLoop buf amount).2
        = littleEndian buf + amount := by
  induction buf generalizing amount with
  | nil => exact ⟨rfl, by rw [incrementLoop]; simp [littleEndian]⟩
  | cons b rest ih =>
      rw [incrementLoop]
      split_ifs with hamount
      · exact ⟨rfl, by rw [hamount]; rfl⟩
      · obtain ⟨hlen, hsum⟩ := ih (amount / 256 + if b + UInt8.ofNat amount < b then 1 else 0)
        have hbyte := toNat_add_carry b amount
        have hdiv := Nat.div_add_mod amount 256
        dsimp only
        refine ⟨by rw [List.length_cons, List.length_cons, hlen], ?_⟩
        rw [littleEndian_cons, littleEndian_cons, List.length_cons, Nat.pow_succ]
        generalize incrementLoop rest (amount / 256 + if b + UInt8.ofNat amount < b then 1 else 0)
          = r at hsum ⊢
        generalize (b + UInt8.ofNat amount).toNat = s at hbyte ⊢
        generalize (if b + UInt8.ofNat amount < b then 1 else 0) = c at hbyte hsum
        linear_combination 256 * hsum + hbyte + hdiv

/-- **`increment_bytes` is addition** modulo the size of the buffer, and tells when the sum did not
fit. -/
theorem incrementBytes_spec (buf : List UInt8) {amount : ℤ} (h : 0 ≤ amount) :
    ∃ out truncated, incrementBytes buf amount = .ok (out, truncated) ∧
      out.length = buf.length ∧
      littleEndian out = (littleEndian buf + amount.toNat) % 256 ^ buf.length ∧
      (truncated = true ↔ 256 ^ buf.length ≤ littleEndian buf + amount.toNat) := by
  obtain ⟨hlen, hsum⟩ := incrementLoop_spec buf amount.toNat
  have hlt := littleEndian_lt (incrementLoop buf amount.toNat).1
  rw [hlen] at hlt
  rw [incrementBytes, if_neg (not_lt.mpr h)]
  refine ⟨_, _, rfl, hlen, ?_, ?_⟩
  · rw [← hsum, Nat.add_mul_mod_self_left, Nat.mod_eq_of_lt hlt]
  · rw [← hsum, decide_eq_true_eq]
    constructor
    · intro hne
      have hone : 256 ^ buf.length * 1 ≤ 256 ^ buf.length * (incrementLoop buf amount.toNat).2 :=
        Nat.mul_le_mul_left _ (Nat.one_le_iff_ne_zero.mpr hne)
      omega
    · intro hle hzero
      rw [hzero] at hle
      omega

/-! ## The nonces of one segment

AES-GCM has twelve bytes of nonce, secretbox twenty-four, and both hold every block number that an
`i64` can be.
-/

/-- Two block numbers of one segment have different nonces. -/
lemma calcNonce_inj {start nonce : List UInt8} (hstart : 8 ≤ start.length) {i j : ℕ}
    (hi : i < 2 ^ 63) (hj : j < 2 ^ 63) (hni : calcNonce start i = .ok nonce)
    (hnj : calcNonce start j = .ok nonce) : i = j := by
  obtain ⟨x, tx, hx, -, hvx, -⟩ := incrementBytes_spec start (Int.natCast_nonneg i)
  obtain ⟨y, ty, hy, -, hvy, -⟩ := incrementBytes_spec start (Int.natCast_nonneg j)
  rw [calcNonce, hx, Fallible.ok_bind] at hni
  rw [calcNonce, hy, Fallible.ok_bind] at hnj
  cases hni
  cases hnj
  rw [Int.toNat_natCast] at hvx hvy
  have hpow : 2 ^ 63 ≤ 256 ^ start.length :=
    le_trans (by decide : 2 ^ 63 ≤ 256 ^ 8) (Nat.pow_le_pow_right (by decide) hstart)
  have hmod : (littleEndian start + i) ≡ (littleEndian start + j) [MOD 256 ^ start.length] := by
    rw [Nat.ModEq, ← hvx, ← hvy]
  exact (hmod.add_left_cancel' _).eq_of_lt_of_lt (hi.trans_le hpow) (hj.trans_le hpow)

lemma length_calcNonce {start nonce : List UInt8} {i : ℕ} (h : calcNonce start i = .ok nonce) :
    nonce.length = start.length := by
  obtain ⟨x, t, hx, hlen, -⟩ := incrementBytes_spec start (Int.natCast_nonneg i)
  rw [calcNonce, hx, Fallible.ok_bind] at h
  cases h
  exact hlen

/-- A block is sealed and opened under its nonce. -/
lemma encryptBlock_of_calcNonce {a : Aead} {lay : Layout} {key : Key} {start nonce : List UInt8}
    {blockNum : ℤ} (h : calcNonce start blockNum = .ok nonce) (input : List UInt8) :
    encryptBlock a lay key start input blockNum = sealOnce a lay key nonce input ∧
      decryptBlock a lay key start input blockNum = openOnce a lay key nonce input := by
  constructor
  · rw [encryptBlock, h, Fallible.ok_bind]
    rfl
  · rw [decryptBlock, h, Fallible.ok_bind]
    rfl

/-- The length of the starting nonce of either cipher. -/
lemma length_suite {prim : Primitives} {cipher : CipherSuite} {nonce : Nonce} {a : Aead}
    {lay : Layout} {start : List UInt8} (h : prim.suite cipher nonce = some (a, lay, start)) :
    start.length = if cipher = .aesGcm then 12 else 24 := by
  rw [Primitives.suite] at h
  split_ifs at h ⊢ with haes hbox
  · cases h
    simp [toAesGcmNonce]
  · cases h
    simp

/-- `increment`: a nonce and whether the addition was truncated. -/
def increment (nonce : Nonce) (amount : ℤ) : Except Error (Nonce × Bool) := do
  let r ← incrementBytes nonce.toList amount
  .ok (Vector.ofFn fun i => r.1.getD i 0, r.2)

/-- `ZERO_NONCE`. -/
def zeroNonce : Nonce := Vector.replicate 24 0

end Storj.Enc

namespace Storj.Uplink

open Enc

/-- `content_nonce`: what cannot be added leaves the nonce zero. -/
def contentNonce (partNumber index : ℤ) : Nonce :=
  let amount := (BitVec.ofInt 64 partNumber <<< 32) ||| BitVec.ofInt 64 (index + 1)
  match increment zeroNonce amount.toInt with
  | .ok (nonce, _) => nonce
  | .error _ => zeroNonce

/-- A part number or an index of a segment. -/
def Position (x : ℤ) : Prop := 0 ≤ x ∧ x ≤ 2 ^ 31 - 1

/-- The number of a position: parts and indices do not overlap. -/
def positionNumber (partNumber index : ℤ) : ℕ := partNumber.toNat * 2 ^ 32 + (index.toNat + 1)

/-- The amount of a position. -/
lemma amount_eq {partNumber index : ℤ} (hp : Position partNumber) (hi : Position index) :
    ((BitVec.ofInt 64 partNumber <<< 32) ||| BitVec.ofInt 64 (index + 1)).toInt
      = positionNumber partNumber index := by
  obtain ⟨part, rfl⟩ := Int.eq_ofNat_of_zero_le hp.1
  obtain ⟨i, rfl⟩ := Int.eq_ofNat_of_zero_le hi.1
  have hpart : part < 2 ^ 31 := by have := hp.2; omega
  have hindex : i + 1 < 2 ^ 32 := by have := hi.2; omega
  have hlow : BitVec.ofInt 64 ((i : ℤ) + 1) = BitVec.ofNat 64 (i + 1) := by
    rw [← Nat.cast_succ, BitVec.ofInt_natCast]
  have hnat : ((BitVec.ofInt 64 (part : ℤ) <<< 32) ||| BitVec.ofInt 64 ((i : ℤ) + 1)).toNat
      = part * 2 ^ 32 + (i + 1) := by
    rw [hlow, BitVec.ofInt_natCast, BitVec.toNat_or, BitVec.toNat_shiftLeft, BitVec.toNat_ofNat,
      BitVec.toNat_ofNat, Nat.mod_eq_of_lt (by omega), Nat.mod_eq_of_lt (by omega),
      Nat.shiftLeft_eq, Nat.mod_eq_of_lt (by omega), ← Nat.shiftLeft_eq,
      ← Nat.shiftLeft_add_eq_or_of_lt hindex, Nat.shiftLeft_eq]
  rw [BitVec.toInt_eq_toNat_of_lt (by rw [hnat]; omega), hnat, positionNumber]
  simp

/-- **The nonce of a position is its number.** -/
lemma littleEndian_contentNonce {partNumber index : ℤ} (hp : Position partNumber)
    (hi : Position index) :
    littleEndian (contentNonce partNumber index).toList = positionNumber partNumber index := by
  have hbound : positionNumber partNumber index < 256 ^ 24 := by
    have hpart := hp.2
    have hindex := hi.2
    rw [positionNumber]
    omega
  obtain ⟨out, truncated, hout, hlen, hvalue, -⟩ := incrementBytes_spec zeroNonce.toList
    (Int.natCast_nonneg (positionNumber partNumber index))
  have hzero : zeroNonce.toList = List.replicate 24 0 := rfl
  rw [hzero, littleEndian_replicate_zero, List.length_replicate, Nat.zero_add, Int.toNat_natCast,
    Nat.mod_eq_of_lt hbound] at hvalue
  rw [hzero, List.length_replicate] at hlen
  have hbytes : (contentNonce partNumber index).toList = out := by
    rw [contentNonce, amount_eq hp hi, increment, hout]
    refine List.ext_getElem (by simp [hlen]) fun n h₁ h₂ => ?_
    simp [h₂]
  rw [hbytes, hvalue]

/-- Positions with one number are one position. -/
lemma positionNumber_inj {part index part' index' : ℤ} (hp : Position part) (hi : Position index)
    (hp' : Position part') (hi' : Position index')
    (h : positionNumber part index = positionNumber part' index') :
    part = part' ∧ index = index' := by
  obtain ⟨h₁, h₂⟩ := hp
  obtain ⟨h₃, h₄⟩ := hi
  obtain ⟨h₅, h₆⟩ := hp'
  obtain ⟨h₇, h₈⟩ := hi'
  rw [positionNumber, positionNumber] at h
  omega

/-- **Content nonces never collide.**  `increment_bytes` adds and tells an overflow; so positions
have different nonces, none of them zero, and the blocks of one segment are sealed under nonces of
the cipher's length that are different for different block numbers, the decrypter using the same
ones. -/
theorem content_nonces_never_collide :
    (∀ (buf : List UInt8) (amount : ℤ), 0 ≤ amount → ∃ out truncated,
      incrementBytes buf amount = .ok (out, truncated) ∧ out.length = buf.length ∧
      littleEndian out = (littleEndian buf + amount.toNat) % 256 ^ buf.length ∧
      (truncated = true ↔ 256 ^ buf.length ≤ littleEndian buf + amount.toNat)) ∧
    (∀ part index part' index', Position part → Position index → Position part' →
      Position index' → contentNonce part index = contentNonce part' index' →
        part = part' ∧ index = index') ∧
    (∀ part index, Position part → Position index → contentNonce part index ≠ zeroNonce) ∧
    ∀ (prim : Primitives) (cipher : CipherSuite) (key : Key) (part index : ℤ) (size : ℕ)
      (enc : Transformer), Position part → Position index →
      cipher = .aesGcm ∨ cipher = .secretBox →
      newEncrypter prim cipher key (contentNonce part index) size = .ok enc →
      ∃ dec a lay start, newDecrypter prim cipher key (contentNonce part index) size = .ok dec ∧
        prim.suite cipher (contentNonce part index) = some (a, lay, start) ∧
        ∃ nonce : ℕ → List UInt8,
          (∀ i j, i < 2 ^ 63 → j < 2 ^ 63 → nonce i = nonce j → i = j) ∧
          ∀ i, (nonce i).length = (if cipher = .aesGcm then 12 else 24) ∧ ∀ input,
            enc.transformInto input i = sealOnce a lay key (nonce i) input ∧
            dec.transformInto input i = openOnce a lay key (nonce i) input := by
  refine ⟨fun buf amount h => incrementBytes_spec buf h, ?_, ?_, ?_⟩
  · intro part index part' index' hp hi hp' hi' heq
    refine positionNumber_inj hp hi hp' hi' ?_
    rw [← littleEndian_contentNonce hp hi, ← littleEndian_contentNonce hp' hi', heq]
  · intro part index hp hi hzero
    have hvalue := littleEndian_contentNonce hp hi
    rw [hzero, positionNumber] at hvalue
    have hnull : littleEndian zeroNonce.toList = 0 := littleEndian_replicate_zero 24
    omega
  · intro prim cipher key part index size enc hp hi hcipher henc
    have hnull : cipher ≠ .null := by
      rcases hcipher with rfl | rfl
      · decide
      · decide
    obtain ⟨a, lay, start, hsuite, hnew, hdec⟩ := newEncrypter_eq_ok hnull henc
    have hlen := length_suite hsuite
    rw [aeadEncrypter] at hnew
    obtain ⟨blockSize, hsize, hnew⟩ := Fallible.bind_eq_ok.mp hnew
    cases hnew
    rw [aeadDecrypter, hsize, Fallible.ok_bind] at hdec
    choose nonce hnonce using fun i : ℕ => calcNonce_isOk start (Int.natCast_nonneg i)
    refine ⟨_, a, lay, start, hdec, hsuite, nonce, ?_, ?_⟩
    · intro i j hi hj heq
      refine calcNonce_inj (by rw [hlen]; split_ifs <;> decide) hi hj (hnonce i) ?_
      rw [heq]
      exact hnonce j
    · intro i
      exact ⟨(length_calcNonce (hnonce i)).trans hlen, fun input => encryptBlock_of_calcNonce (hnonce i) input⟩

theorem content_nonces_never_collide_sample :
    (∃ out, incrementBytes [255, 255, 0] 1 = .ok (out, false) ∧ littleEndian out = 2 ^ 16) ∧
      contentNonce 0 0 ≠ zeroNonce ∧ (contentNonce 1 0 = contentNonce 0 1 → (1 : ℤ) = 0) ∧
      ∃ nonce : ℕ → List UInt8, nonce 0 ≠ nonce 1 ∧ (nonce 0).length = 12 := by
  have hposition : Position 0 ∧ Position 1 := ⟨by simp [Position], by simp [Position]⟩
  obtain ⟨hadd, hinj, hzero, hblocks⟩ := content_nonces_never_collide
  obtain ⟨out, truncated, hout, -, hvalue, htruncated⟩ := hadd [255, 255, 0] 1 (by decide)
  refine ⟨⟨out, ?_, hvalue⟩, hzero 0 0 hposition.1 hposition.1, ?_, ?_⟩
  · have hfits : truncated = false := by
      rw [← Bool.not_eq_true, htruncated]
      decide
    rw [hout, hfits]
  · intro heq
    exact (hinj 1 0 0 1 hposition.2 hposition.1 hposition.1 hposition.2 heq).1
  · obtain ⟨dec, a, lay, start, -, -, nonce, hne, hlen⟩ := hblocks ⟨zeroTagAead, zeroTagAead⟩
      .aesGcm (Vector.replicate 32 0) 0 0 17 _ hposition.1 hposition.1 (Or.inl rfl) rfl
    refine ⟨nonce, fun heq => ?_, (hlen 0).1⟩
    have hsame := hne 0 1 (by decide) (by decide) heq
    omega

end Storj.Uplink
