import StorjUplink.Ec.Fec
import StorjUplink.Enc.Transform

/-!
# From plaintext to pieces

`pipeline.rs`: a remote segment is padded and encrypted block by block, padded again to a whole
number of stripes, and each stripe's shares are written to their place in the `n` pieces.

`encryptRemote_spec` and `encodePieces_spec` say what success means: a `Segment`, and pieces that
are the shares of the stripes laid end to end.

The upload of a remote segment goes through this pipeline in memory.  Blocks of the cipher and
stripes of the code need not divide one another, which is why the ciphertext is padded a second
time, with a trailer of its own that the download never looks at.  Each stripe is encoded by
itself, and its shares go to the same offset in their pieces.

The results are stated as structures.  `Pieces` has the padded ciphertext and the shares of its
stripes, and it is all that the download side knows of how pieces came about.
-/

namespace Storj.Uplink

open Buffer MachineInt Enc Ec

/-- The errors of the uplink crate that the functions below return. -/
inductive Error where
  | protocol (msg : String)
  | encryption (e : Enc.Error)
  | ec (e : EcError)
deriving DecidableEq, Repr

/-- `From<storj_encryption::Error>`. -/
def liftEnc {α : Type} : Except Enc.Error α → Except Error α
  | .ok a => .ok a
  | .error e => .error (.encryption e)

/-- `From<storj_ec::Error>`. -/
def liftEc {α : Type} : Except EcError α → Except Error α
  | .ok a => .ok a
  | .error e => .error (.ec e)

lemma liftEnc_eq_ok {α : Type} {x : Except Enc.Error α} {a : α} :
    liftEnc x = .ok a ↔ x = .ok a := by
  cases x with
  | ok b => simp [liftEnc]
  | error e => simp [liftEnc]

lemma liftEc_eq_ok {α : Type} {x : Except EcError α} {a : α} :
    liftEc x = .ok a ↔ x = .ok a := by
  cases x with
  | ok b => simp [liftEc]
  | error e => simp [liftEc]

/-- `Redundancy`: required, repair, success and total number of pieces, and the size of a share. -/
structure Redundancy where
  k : ℕ
  m : ℕ
  o : ℕ
  n : ℕ
  shareSize : ℕ
deriving DecidableEq, Repr

/-- `Redundancy::stripe_size`. -/
def Redundancy.stripeSize (rs : Redundancy) : ℕ := rs.k * rs.shareSize

/-- `DEFAULT_ENCRYPTED_BLOCK_SIZE`. -/
def defaultEncryptedBlockSize : ℕ := 29 * 256

/-- `encrypt_remote`: the plaintext padded to blocks and encrypted; a block size of zero stands for
the default. -/
def encryptRemote (prim : Primitives) (plain : List UInt8) (cipher : CipherSuite) (key : Key)
    (nonce : Nonce) (encryptedBlockSize : ℕ) : Except Error (List UInt8) := do
  let block := if encryptedBlockSize = 0 then defaultEncryptedBlockSize else encryptedBlockSize
  let encrypter ← liftEnc (newEncrypter prim cipher key nonce block)
  liftEnc (transformPadded encrypter plain)

/-- One turn of the loop of `encode_pieces`: stripe `s` into its slot of every piece. -/
def encodePiecesStep (codec : ReedSolomon) (stripeSize : ℕ) (padded : List UInt8)
    (pieces : List (List UInt8)) (s : ℕ) : Except Error (List (List UInt8)) := do
  let ss := codec.shareSize
  let slots := pieces.map fun p => slice p (s * ss) ss
  let shares ← liftEc (codec.encodeStripeInto (slice padded (s * stripeSize) stripeSize) slots)
  .ok (List.zipWith (fun p share => splice p (s * ss) share) pieces shares)

/-- `encode_pieces`: the encrypted segment is padded to whole stripes, and each stripe is written to
its place in every piece. -/
def encodePieces (encrypted : List UInt8) (rs : Redundancy) :
    Except Error (List (List UInt8)) := do
  let padded ← liftEnc (pad encrypted rs.stripeSize)
  let codec ← liftEc (ReedSolomon.new rs.k rs.n rs.shareSize)
  if padded = [] then .ok (List.replicate rs.n [])
  else
    let nStripes := padded.length / rs.stripeSize
    (List.range nStripes).foldlM (encodePiecesStep codec rs.stripeSize padded)
      (List.replicate rs.n (List.replicate (nStripes * rs.shareSize) 0))

/-! ## Encryption

Padding and sealing, as in the encryption crate, with the parameters of the segment.
-/

/-- The ciphers are correct. -/
structure PrimitivesLawful (prim : Primitives) : Prop where
  aesGcm : prim.aesGcm.Lawful
  secretBox : prim.secretBox.Lawful

lemma PrimitivesLawful.suite {prim : Primitives} (h : PrimitivesLawful prim)
    {cipher : CipherSuite} {nonce : Nonce} {a : Aead} {lay : Layout} {n : List UInt8}
    (hs : prim.suite cipher nonce = some (a, lay, n)) : a.Lawful := by
  rw [Primitives.suite] at hs
  split_ifs at hs with haes hbox
  · cases hs
    exact h.aesGcm
  · cases hs
    exact h.secretBox

section

variable {prim : Primitives} {plain enc : List UInt8} {cipher : CipherSuite} {key : Key}
  {nonce : Nonce} {size : ℕ}

/-- What a successful `encrypt_remote` under an authenticated cipher ran. -/
lemma encryptRemote_aead (hnull : cipher ≠ .null)
    (h : encryptRemote prim plain cipher key nonce size = .ok enc) :
    ∃ a lay n t, prim.suite cipher nonce = some (a, lay, n) ∧
      aeadEncrypter a lay key n (if size = 0 then defaultEncryptedBlockSize else size) = .ok t ∧
      transformPadded t plain = .ok enc ∧
      newDecrypter prim cipher key nonce (if size = 0 then defaultEncryptedBlockSize else size)
        = aeadDecrypter a lay key n (if size = 0 then defaultEncryptedBlockSize else size) := by
  rw [encryptRemote] at h
  obtain ⟨t, ht, h⟩ := Fallible.bind_eq_ok.mp h
  rw [liftEnc_eq_ok] at ht h
  obtain ⟨a, lay, n, hsuite, henc, hdec⟩ := newEncrypter_eq_ok hnull ht
  exact ⟨a, lay, n, t, hsuite, henc, h, hdec⟩

/-- **`encrypt_remote` makes a segment** for the decrypter of the same cipher, key, nonce and
block size. -/
theorem encryptRemote_spec (hprim : PrimitivesLawful prim) (hsize : cipher = .null ∨ size ≠ 0)
    (h : encryptRemote prim plain cipher key nonce size = .ok enc) :
    ∃ dec, newDecrypter prim cipher key nonce size = .ok dec ∧
      Nonempty (Segment dec plain enc) := by
  by_cases hnull : cipher = .null
  · rw [encryptRemote, newEncrypter, if_pos hnull, liftEnc, Fallible.ok_bind, liftEnc_eq_ok] at h
    obtain ⟨seg, -⟩ := exists_segment (paired_noop plain) h
    exact ⟨noopTransformer, by rw [newDecrypter, if_pos hnull], ⟨seg⟩⟩
  · obtain ⟨a, lay, n, t, hsuite, ht, h, hdec⟩ := encryptRemote_aead hnull h
    rw [if_neg (hsize.resolve_left hnull)] at ht hdec
    obtain ⟨hnew, seg, -⟩ := exists_segment_aead
      (fun _ _ _ _ n _ => (hprim.suite hsuite).opensAt key n _) ht h
    exact ⟨_, hdec.trans hnew, ⟨seg⟩⟩

/-- **Under an ideal cipher the segment is authenticated**: its decrypter opens nothing but its own
blocks. -/
theorem encryptRemote_authentic (hcipher : cipher = .aesGcm ∨ cipher = .secretBox)
    (hideal : prim.IdealOn cipher key nonce plain
      (if size = 0 then defaultEncryptedBlockSize else size))
    (h : encryptRemote prim plain cipher key nonce size = .ok enc) :
    ∃ dec, newDecrypter prim cipher key nonce
        (if size = 0 then defaultEncryptedBlockSize else size) = .ok dec ∧
      ∃ seg : Segment dec plain enc, dec.Authentic seg.count := by
  have hnull : cipher ≠ .null := by
    rcases hcipher with rfl | rfl
    · decide
    · decide
  obtain ⟨a, lay, n, t, hsuite, ht, h, hdec⟩ := encryptRemote_aead hnull h
  have hon := hideal a lay n hsuite
  obtain ⟨hnew, seg, hseal⟩ := exists_segment_aead
    (fun _ hpad _ hi _ hn => hon.opensAt hpad hi hn) ht h
  exact ⟨_, hdec.trans hnew, seg, seg.authentic hon hseal⟩

end

/-! ## Pieces

The second padding goes up to whole stripes.
-/

/-- The pieces of a padded segment: `n` of them, each the shares of the stripes laid end to end. -/
structure Pieces (codec : ReedSolomon) (padded : List UInt8) (nStripes : ℕ)
    (pieces : List (List UInt8)) : Prop where
  length_eq : pieces.length = codec.n
  piece_eq : ∀ j < codec.n, pieces.getD j [] = concat nStripes fun s =>
    codec.share (slice padded (s * codec.stripeSize) codec.stripeSize) j

/-- The loop of `encode_pieces` after `s` stripes. -/
structure Filled (codec : ReedSolomon) (padded : List UInt8) (nStripes s : ℕ)
    (pieces : List (List UInt8)) : Prop where
  length_eq : pieces.length = codec.n
  piece_length : ∀ j < codec.n, (pieces.getD j []).length = nStripes * codec.shareSize
  done : ∀ j < codec.n, ∀ i < s, slice (pieces.getD j []) (i * codec.shareSize) codec.shareSize
    = codec.share (slice padded (i * codec.stripeSize) codec.stripeSize) j

/-- One stripe. -/
lemma Filled.step {codec : ReedSolomon} {padded : List UInt8} {nStripes s : ℕ}
    {pieces : List (List UInt8)} (hpad : padded.length = nStripes * codec.stripeSize)
    (hs : s < nStripes) (h : Filled codec padded nStripes s pieces) :
    ∃ pieces', encodePiecesStep codec codec.stripeSize padded pieces s = .ok pieces' ∧
      Filled codec padded nStripes (s + 1) pieces' := by
  have hrow := rowMajor_le (k := codec.stripeSize) hs
  have hoff := rowMajor_le (k := codec.shareSize) hs
  set stripe := slice padded (s * codec.stripeSize) codec.stripeSize with hstripe
  have hslen : stripe.length = codec.stripeSize := length_slice (by omega)
  have hpiece : ∀ p ∈ pieces, p.length = nStripes * codec.shareSize := by
    intro p hp
    obtain ⟨j, hj, rfl⟩ := List.getElem_of_mem hp
    rw [← List.getD_eq_getElem _ [] hj]
    exact h.piece_length j (by rw [← h.length_eq]; exact hj)
  have hslots : ∀ slot ∈ pieces.map fun p => slice p (s * codec.shareSize) codec.shareSize,
      slot.length = codec.shareSize := by
    intro slot hslot
    obtain ⟨p, hp, rfl⟩ := List.mem_map.mp hslot
    exact length_slice (by rw [hpiece p hp]; exact hoff)
  have henc := codec.encodeStripeInto_eq hslen (by rw [List.length_map, h.length_eq]) hslots
  refine ⟨List.zipWith (fun p share => splice p (s * codec.shareSize) share) pieces
    ((List.range codec.n).map (codec.share stripe)), ?_, ?_⟩
  · rw [encodePiecesStep, ← hstripe, henc, liftEc, Fallible.ok_bind]
  · have hget : ∀ j < codec.n, (List.zipWith (fun p share => splice p (s * codec.shareSize) share)
        pieces ((List.range codec.n).map (codec.share stripe))).getD j []
        = splice (pieces.getD j []) (s * codec.shareSize) (codec.share stripe j) := by
      intro j hj
      have hj' : j < pieces.length := by rw [h.length_eq]; exact hj
      simp [List.getD_eq_getElem?_getD, hj, hj']
    have hfit : ∀ j < codec.n, s * codec.shareSize + (codec.share stripe j).length
        ≤ (pieces.getD j []).length := by
      intro j hj
      rw [codec.length_share hslen hj, h.piece_length j hj]
      exact hoff
    refine ⟨by simp [h.length_eq], ?_, ?_⟩
    · intro j hj
      rw [hget j hj, length_splice (hfit j hj), h.piece_length j hj]
    · intro j hj i hi
      rw [hget j hj]
      rcases Nat.lt_succ_iff_lt_or_eq.mp hi with hi | rfl
      · rw [slice_splice_left (hfit j hj) (rowMajor_le hi), h.done j hj i hi]
      · have hself := slice_splice_self (hfit j hj)
        rwa [codec.length_share hslen hj] at hself

/-- Padded bytes and a code are all that `encode_pieces` needs: its loop never fails. -/
lemma exists_encodePieces {enc padding : List UInt8} (rs : Redundancy) {codec : ReedSolomon}
    (hpad : pad enc rs.stripeSize = .ok (enc ++ padding))
    (hcodec : ReedSolomon.new rs.k rs.n rs.shareSize = .ok codec) :
    ∃ pieces, encodePieces enc rs = .ok pieces ∧
      (enc ++ padding).length = (enc ++ padding).length / rs.stripeSize * codec.stripeSize ∧
      Pieces codec (enc ++ padding) ((enc ++ padding).length / rs.stripeSize) pieces := by
  obtain ⟨-, -, -, hdvd, padding', hpos, hsame⟩ := pad_spec hpad
  obtain rfl := List.append_cancel_left hsame
  obtain ⟨hk, hn, hss⟩ := ReedSolomon.new_fields hcodec
  have hstripe : codec.stripeSize = rs.stripeSize := by
    rw [ReedSolomon.stripeSize, hk, hss, Redundancy.stripeSize]
  have hne : enc ++ padding ≠ [] := by
    intro hnil
    rw [List.append_eq_nil_iff] at hnil
    rw [hnil.2, uint32Size] at hpos
    exact absurd hpos (by decide)
  set nStripes := (enc ++ padding).length / rs.stripeSize with hnS
  have hmul : (enc ++ padding).length = nStripes * codec.stripeSize := by
    rw [hstripe, hnS, Nat.div_mul_cancel hdvd]
  have hzero : Filled codec (enc ++ padding) nStripes 0
      (List.replicate codec.n (List.replicate (nStripes * codec.shareSize) 0)) := by
    refine ⟨List.length_replicate, ?_, ?_⟩
    · intro j hj
      rw [List.getD_replicate _ hj, List.length_replicate]
    · intro j _ i hi
      exact absurd hi (Nat.not_lt_zero i)
  obtain ⟨pieces, hrun, hfilled⟩ := foldlM_range_induction
    (P := fun s p => Filled codec (enc ++ padding) nStripes s p) hzero
    fun s hs p hp => hp.step hmul hs
  refine ⟨pieces, ?_, hmul, hfilled.length_eq, ?_⟩
  · rw [encodePieces, hpad, hcodec, liftEnc, liftEc, Fallible.ok_bind, Fallible.ok_bind,
      if_neg hne]
    rw [hstripe, hn, hss] at hrun
    exact hrun
  · intro j hj
    rw [← concat_slice (hfilled.piece_length j hj)]
    exact concat_congr fun i hi => hfilled.done j hj i hi

/-- What `encode_pieces` returns is the padded bytes, encoded. -/
lemma encodePieces_eq_ok {enc : List UInt8} {rs : Redundancy} {pieces : List (List UInt8)}
    (h : encodePieces enc rs = .ok pieces) :
    ∃ codec padding, ReedSolomon.new rs.k rs.n rs.shareSize = .ok codec ∧
      pad enc rs.stripeSize = .ok (enc ++ padding) ∧
      (enc ++ padding).length = (enc ++ padding).length / rs.stripeSize * codec.stripeSize ∧
      Pieces codec (enc ++ padding) ((enc ++ padding).length / rs.stripeSize) pieces := by
  have hrun := h
  rw [encodePieces] at hrun
  obtain ⟨padded, hpad, hrun⟩ := Fallible.bind_eq_ok.mp hrun
  obtain ⟨codec, hcodec, -⟩ := Fallible.bind_eq_ok.mp hrun
  rw [liftEnc_eq_ok] at hpad
  rw [liftEc_eq_ok] at hcodec
  obtain ⟨-, -, -, -, padding, -, rfl⟩ := pad_spec hpad
  obtain ⟨pieces', hpieces, hmul, hspec⟩ := exists_encodePieces rs hpad hcodec
  cases h.symm.trans hpieces
  exact ⟨codec, padding, hcodec, hpad, hmul, hspec⟩

/-- **`encode_pieces` lays the shares end to end.** -/
theorem encodePieces_spec {enc : List UInt8} {rs : Redundancy} {pieces : List (List UInt8)}
    (h : encodePieces enc rs = .ok pieces) :
    ∃ codec padding nStripes, ReedSolomon.new rs.k rs.n rs.shareSize = .ok codec ∧
      rs.stripeSize ≤ isizeMax ∧ (enc ++ padding).length ≤ isizeMax ∧
      uint32Size ≤ padding.length ∧ (enc ++ padding).length = nStripes * codec.stripeSize ∧
      Pieces codec (enc ++ padding) nStripes pieces := by
  obtain ⟨codec, padding, hcodec, hpad, hmul, hspec⟩ := encodePieces_eq_ok h
  obtain ⟨-, hle, hlen, -, padding', hpos, hsame⟩ := pad_spec hpad
  obtain rfl := List.append_cancel_left hsame
  exact ⟨codec, padding, _, hcodec, hle, hlen, hpos, hmul, hspec⟩

end Storj.Uplink
