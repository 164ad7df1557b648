import StorjUplink.Lib.Fallible
import StorjUplink.Lib.MachineInt

/-!
# Ciphers, keys and nonces

The cipher suites, the error values and the nonce arithmetic of the encryption crate.

The two authenticated ciphers themselves are outside the repository.  `Aead` is what the crate
calls of one: the detached in-place operations, which work on a buffer of the plaintext's length
and keep the tag apart.  A development that needs them correct assumes `Aead.Lawful`, the contract
their documentation gives; one that needs them ideal says so for the blocks of one segment.

The nonce arithmetic is the crate's own and is modelled loop by loop.  Block `i` of a segment is
sealed under the starting nonce plus `i`, as a little-endian number of the nonce's width; what does
not fit is dropped, and the only block numbers that are refused are negative ones.  So a nonce may
wrap around; that two blocks of an object nevertheless never share one is a fact about the numbers
that are counted up, and is shown where these are made.

`textAead` is the one cipher that the examples compute with.  It leaves the text readable and is
still lawful, so that the whole path from a plaintext to the pieces and back can be evaluated.
-/

namespace Storj.Enc

/-- `ErrorKind`.  `panicked` is not a value of the source: it stands for the places where the code
stops instead of returning, an overflowing addition or an allocation past the address space. -/
inductive ErrorKind where
  | missingEncryptionBase
  | missingDecryptionBase
  | decryptionFailed
  | invalidConfig
  | conflict
  | protocol
  | panicked
deriving DecidableEq, Repr

/-- `Error` of the encryption crate. -/
structure Error where
  kind : ErrorKind
  message : String
deriving DecidableEq, Repr

/-- `CipherSuite`: unknown values are preserved. -/
structure CipherSuite where
  code : ℤ
deriving DecidableEq, Repr

namespace CipherSuite

def unspecified : CipherSuite := ⟨0⟩
def null : CipherSuite := ⟨1⟩
def aesGcm : CipherSuite := ⟨2⟩
def secretBox : CipherSuite := ⟨3⟩
def nullBase64Url : CipherSuite := ⟨4⟩

end CipherSuite

/-- A 32-byte `Key`. -/
abbrev Key := Vector UInt8 32

/-- A 24-byte Storj nonce. -/
abbrev Nonce := Vector UInt8 24

/-! ## Authenticated ciphers

The crate uses the detached interface of both libraries: the text is transformed in place and the
tag is returned beside it.  Where the tag goes in the block is the crate's decision and belongs to
`Transform`.
-/

/-- An authenticated cipher, by its detached operations: `encryptDetached key nonce plain` gives
ciphertext and tag, `decryptDetached key nonce ciphertext tag` the plaintext. -/
structure Aead where
  encryptDetached : Key → List UInt8 → List UInt8 → Option (List UInt8 × List UInt8)
  decryptDetached : Key → List UInt8 → List UInt8 → List UInt8 → Option (List UInt8)

/-- Size of the tag of either cipher (`AES_GCM_TAG_SIZE`, `SECRETBOX_OVERHEAD`). -/
def tagSize : ℕ := 16

/-- The documented contract of an authenticated cipher: opening what was sealed under the same key
and nonce gives the plaintext back, the ciphertext has the plaintext's length and the tag its own.
-/
structure Aead.Lawful (a : Aead) : Prop where
  decrypt_encrypt : ∀ {key nonce plain c t}, a.encryptDetached key nonce plain = some (c, t) →
    a.decryptDetached key nonce c t = some plain
  length_ciphertext : ∀ {key nonce plain c t}, a.encryptDetached key nonce plain = some (c, t) →
    c.length = plain.length
  length_tag : ∀ {key nonce plain c t}, a.encryptDetached key nonce plain = some (c, t) →
    t.length = tagSize

/-- A cipher to compute with: it leaves the text as it is under a tag that depends on the key only,
and of the texts with that tag it opens those that are accepted. -/
def textAead (tag : Key → List UInt8) (accepts : Key → List UInt8 → Bool) : Aead where
  encryptDetached key _ plain := some (plain, tag key)
  decryptDetached key _ c t := if t = tag key ∧ accepts key c then some c else none

/-- It is lawful if it accepts everything. -/
lemma textAead_lawful {tag : Key → List UInt8} (htag : ∀ key, (tag key).length = tagSize) :
    (textAead tag fun _ _ => true).Lawful where
  decrypt_encrypt h := by
    cases h
    exact if_pos ⟨rfl, rfl⟩
  length_ciphertext h := by
    cases h
    rfl
  length_tag h := by
    cases h
    exact htag _

/-- The two ciphers the crate uses. -/
structure Primitives where
  aesGcm : Aead
  secretBox : Aead

/-! ## Nonces

A nonce is a buffer of bytes that is counted up in place.  The result says whether the sum was
truncated, which `calc_nonce` does not look at.
-/

/-- The loop of `increment_bytes`: add `amount` to a little-endian number, and return what did not
fit. -/
def incrementLoop : List UInt8 → ℕ → List UInt8 × ℕ
  | [], amount => ([], amount)
  | b :: rest, amount =>
      if amount = 0 then (b :: rest, 0)
      else
        let sum := b + UInt8.ofNat amount
        let carry := if sum < b then 1 else 0
        let r := incrementLoop rest (amount / 256 + carry)
        (sum :: r.1, r.2)

/-- `increment_bytes`: the new bytes, and whether the addition was truncated. -/
def incrementBytes (buf : List UInt8) (amount : ℤ) : Except Error (List UInt8 × Bool) :=
  if amount < 0 then .error ⟨.invalidConfig, "amount was negative"⟩
  else
    let r := incrementLoop buf amount.toNat
    .ok (r.1, r.2 ≠ 0)

/-- `calc_gcm_nonce` and `calc_nonce`: the nonce of block `blockNum`. -/
def calcNonce (startingNonce : List UInt8) (blockNum : ℤ) : Except Error (List UInt8) := do
  let r ← incrementBytes startingNonce blockNum
  .ok r.1

/-- A block number that is not negative has a nonce. -/
lemma calcNonce_isOk (startingNonce : List UInt8) {blockNum : ℤ} (h : 0 ≤ blockNum) :
    ∃ nonce, calcNonce startingNonce blockNum = .ok nonce := by
  rw [calcNonce, incrementBytes, if_neg (not_lt.mpr h)]
  exact ⟨_, rfl⟩

end Storj.Enc
