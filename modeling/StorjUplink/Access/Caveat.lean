import StorjUplink.Access.Macaroon

/-!
# Caveats and API keys

The upper half of `macaroon.rs`: the caveat that a permission and a list of paths make, its protobuf
form, and the API key that carries the encoded caveats.  Times are nanoseconds from the Unix epoch.

The wire format of protobuf and the hash functions are outside the repository, and stand as fields
of `AccessPrimitives`.

A caveat says what is forbidden, a permission what is allowed, and `from_permission` turns one into
the other.  The conversion is where a share gets its limits, so every flag, the times and the paths
are kept, and the message has them in the order of its fields.

What the messages carry are machine integers, and the contract of the protobuf codec
(`AccessPrimitives.Lawful`) is about messages whose numbers are in range.  `inRange_toProto` shows
that a caveat is always encoded with such numbers: times that do not fit are cut off before they
are written.  The other half of the contract, that Base58 has at least a character for every byte,
is only used to know that no key is written as the empty text.
-/

namespace Storj.Access

open Storj.Enc (Bytes PathPrimitives CipherSuite)
open MachineInt

/-! ## Protobuf messages

The structs of the generated module, with the fields that are read somewhere.  Optional fields stay
optional, since a missing one and a default are told apart by the code.
-/

namespace Pb

/-- `pb::Timestamp`. -/
structure Timestamp where
  seconds : ℤ
  nanos : ℤ
deriving DecidableEq, Repr

/-- `pb::Duration`. -/
structure Duration where
  seconds : ℤ
  nanos : ℤ
deriving DecidableEq, Repr

end Pb

/-- The action flags of a caveat.  They disallow, so that a message without any of them, which is
what an older writer would send, forbids nothing. -/
structure Disallow where
  reads : Bool
  writes : Bool
  lists : Bool
  deletes : Bool
  locks : Bool
  putRetention : Bool
  getRetention : Bool
  putLegalHold : Bool
  getLegalHold : Bool
  bypassGovernanceRetention : Bool
  putBucketObjectLockConfiguration : Bool
  getBucketObjectLockConfiguration : Bool
  putBucketNotificationConfiguration : Bool
  getBucketNotificationConfiguration : Bool
deriving DecidableEq, Repr

/-- `CaveatPath` and `pb::CaveatPath`. -/
structure CaveatPath where
  bucket : Bytes
  encryptedPathPrefix : Bytes
deriving DecidableEq, Repr

/-- `pb::Caveat`, the message that is packed into a macaroon; its three times are optional messages.
-/
structure Pb.Caveat where
  disallow : Disallow
  allowedPaths : List CaveatPath
  notAfter : Option Pb.Timestamp
  notBefore : Option Pb.Timestamp
  maxObjectTtl : Option Pb.Duration
  nonce : Bytes
deriving DecidableEq, Repr

namespace Pb

/-- `pb::EncryptionParameters`. -/
structure EncryptionParameters where
  cipherSuite : ℤ
  blockSize : ℤ
deriving DecidableEq, Repr

/-- `pb::StoreEntry`: a prefix in both of its forms, with the key of everything under it. -/
structure StoreEntry where
  bucket : Bytes
  unencryptedPath : Bytes
  encryptedPath : Bytes
  key : Bytes
  pathCipher : ℤ
  encryptionParameters : Option EncryptionParameters
deriving DecidableEq, Repr

/-- `pb::EncryptionAccess`: the default key and cipher of a grant, and its store entries. -/
structure EncryptionAccess where
  defaultKey : Bytes
  storeEntries : List StoreEntry
  defaultPathCipher : ℤ
  defaultEncryptionParameters : Option EncryptionParameters
deriving DecidableEq, Repr

/-- `pb::Scope`, what a serialized grant holds: the address, the API key and the encryption access.
-/
structure Scope where
  satelliteAddr : String
  apiKey : Bytes
  encryptionAccess : Option EncryptionAccess
deriving DecidableEq, Repr

end Pb

/-! ### Ranges

The source has machine integers in these messages. -/

def InI64 (x : ℤ) : Prop := i64Min ≤ x ∧ x ≤ i64Max

def InI32 (x : ℤ) : Prop := -2 ^ 31 ≤ x ∧ x < 2 ^ 31

/-- The numbers of a caveat are those of its types. -/
structure Pb.Caveat.InRange (c : Pb.Caveat) : Prop where
  notAfter : ∀ t, c.notAfter = some t → InI64 t.seconds ∧ InI32 t.nanos
  notBefore : ∀ t, c.notBefore = some t → InI64 t.seconds ∧ InI32 t.nanos
  maxObjectTtl : ∀ d, c.maxObjectTtl = some d → InI64 d.seconds ∧ InI32 d.nanos

/-- The numbers of an encryption access are those of its types. -/
structure Pb.EncryptionAccess.InRange (p : Pb.EncryptionAccess) : Prop where
  defaultPathCipher : InI32 p.defaultPathCipher
  defaultParameters : ∀ e, p.defaultEncryptionParameters = some e →
    InI32 e.cipherSuite ∧ InI64 e.blockSize
  pathCipher : ∀ e ∈ p.storeEntries, InI32 e.pathCipher
  parameters : ∀ e ∈ p.storeEntries, ∀ ep, e.encryptionParameters = some ep →
    InI32 ep.cipherSuite ∧ InI64 ep.blockSize

/-- What the access crate calls of others: the hash functions, Base58 without its checksum, and the
protobuf codec, whose decoder may refuse with a text. -/
structure AccessPrimitives extends PathPrimitives where
  hmacSha256 : Bytes → Bytes → Vector UInt8 32
  sha256 : Bytes → Vector UInt8 32
  base58Encode : Bytes → String
  base58Decode : String → Option Bytes
  encodeCaveat : Pb.Caveat → Bytes
  decodeCaveat : Bytes → Except String Pb.Caveat
  encodeScope : Pb.Scope → Bytes
  decodeScope : Bytes → Except String Pb.Scope

/-- **The documented contract of the codecs**: what they encode they decode, and Base58 has a
character at least for every byte. -/
structure AccessPrimitives.Lawful (prim : AccessPrimitives) : Prop where
  base58 : ∀ data, prim.base58Decode (prim.base58Encode data) = some data
  base58_ne : ∀ data, data ≠ [] → prim.base58Encode data ≠ ""
  caveat : ∀ c : Pb.Caveat, c.InRange → prim.decodeCaveat (prim.encodeCaveat c) = .ok c
  scope : ∀ s : Pb.Scope, (∀ p, s.encryptionAccess = some p → p.InRange) →
    prim.decodeScope (prim.encodeScope s) = .ok s

/-! ## Times

Seconds are signed and nanoseconds count upwards, so a time before the epoch is written with the
second below it.  `Times` has the same functions call by call.
-/

/-- Nanoseconds in a second. -/
def nanosPerSec : ℕ := 1000000000

/-- `timestamp_from_system`: seconds and nanoseconds from the epoch.  Before it the nanoseconds
still count upwards, from the second below, and seconds that do not fit are cut off. -/
def timestampFromSystem (t : ℤ) : Pb.Timestamp :=
  if 0 ≤ t then ⟨min (t / nanosPerSec) i64Max, t % nanosPerSec⟩
  else
    let secs := min ((-t) / nanosPerSec) i64Max
    let nanos := (-t) % nanosPerSec
    if nanos = 0 then ⟨-secs, 0⟩ else ⟨-secs - 1, nanosPerSec - nanos⟩

/-- `system_from_timestamp`: nanoseconds from the Unix epoch, or none where no `SystemTime` can hold
them. -/
def systemFromTimestamp (ts : Pb.Timestamp) : Option ℤ :=
  let t := ts.seconds * nanosPerSec + max ts.nanos 0
  if t / nanosPerSec ≤ i64Max then some t else none

/-- `duration_from_std`: seconds and nanoseconds, the seconds held at the largest `i64`. -/
def durationFromStd (d : ℕ) : Pb.Duration :=
  ⟨min ((d / nanosPerSec : ℕ) : ℤ) i64Max, (d % nanosPerSec : ℕ)⟩

/-- `std_from_duration`: none for a negative number of seconds, which no `Duration` can hold. -/
def stdFromDuration (d : Pb.Duration) : Option ℕ :=
  if d.seconds < 0 then none else some (d.seconds.toNat * nanosPerSec + d.nanos.toNat)

lemma timestamp_inRange (t : ℤ) :
    InI64 (timestampFromSystem t).seconds ∧ InI32 (timestampFromSystem t).nanos := by
  rw [timestampFromSystem]
  dsimp only
  split_ifs with h hnanos
  all_goals
    simp only [InI64, InI32, i64Min, i64Max, nanosPerSec] at *
    omega

lemma duration_inRange (d : ℕ) :
    InI64 (durationFromStd d).seconds ∧ InI32 (durationFromStd d).nanos := by
  simp only [durationFromStd, InI64, InI32, i64Min, i64Max, nanosPerSec]
  omega

/-! ## Caveats

A caveat without paths allows every path.  Where there are several caveats a path has to be allowed
by each of them, which is what the groups of the later modules are.
-/

/-- `Permission`. -/
structure Permission where
  allowDownload : Bool := false
  allowUpload : Bool := false
  allowList : Bool := false
  allowDelete : Bool := false
  allowLock : Bool := false
  allowPutObjectRetention : Bool := false
  allowGetObjectRetention : Bool := false
  allowPutObjectLegalHold : Bool := false
  allowGetObjectLegalHold : Bool := false
  allowBypassGovernanceRetention : Bool := false
  allowPutBucketObjectLockConfiguration : Bool := false
  allowGetBucketObjectLockConfiguration : Bool := false
  notBefore : Option ℤ := none
  notAfter : Option ℤ := none
  maxObjectTtl : Option ℕ := none
deriving DecidableEq, Repr

/-- `Permission::is_empty`. -/
def Permission.isEmpty (p : Permission) : Bool := p == {}

/-- `Caveat`, with its times as nanoseconds from the Unix epoch. -/
structure Caveat where
  disallow : Disallow
  allowedPaths : List CaveatPath
  notAfter : Option ℤ
  notBefore : Option ℤ
  maxObjectTtl : Option ℕ
  nonce : Bytes
deriving DecidableEq, Repr

namespace Caveat

/-- `Caveat::from_permission`: every action that is not allowed is disallowed, and the two about
bucket notifications always are.  Paths and nonce are filled in by the caller. -/
def fromPermission (p : Permission) : Caveat where
  disallow :=
    { reads := !p.allowDownload
      writes := !p.allowUpload
      lists := !p.allowList
      deletes := !p.allowDelete
      locks := !p.allowLock
      putRetention := !p.allowPutObjectRetention
      getRetention := !p.allowGetObjectRetention
      putLegalHold := !p.allowPutObjectLegalHold
      getLegalHold := !p.allowGetObjectLegalHold
      bypassGovernanceRetention := !p.allowBypassGovernanceRetention
      putBucketObjectLockConfiguration := !p.allowPutBucketObjectLockConfiguration
      getBucketObjectLockConfiguration := !p.allowGetBucketObjectLockConfiguration
      putBucketNotificationConfiguration := true
      getBucketNotificationConfiguration := true }
  allowedPaths := []
  notAfter := p.notAfter
  notBefore := p.notBefore
  maxObjectTtl := p.maxObjectTtl
  nonce := []

/-- `Caveat::to_proto`: field by field, with the times as seconds and nanoseconds. -/
def toProto (c : Caveat) : Pb.Caveat where
  disallow :=
    { reads := c.disallow.reads
      writes := c.disallow.writes
      lists := c.disallow.lists
      deletes := c.disallow.deletes
      locks := c.disallow.locks
      putRetention := c.disallow.putRetention
      getRetention := c.disallow.getRetention
      putLegalHold := c.disallow.putLegalHold
      getLegalHold := c.disallow.getLegalHold
      bypassGovernanceRetention := c.disallow.bypassGovernanceRetention
      putBucketObjectLockConfiguration := c.disallow.putBucketObjectLockConfiguration
      getBucketObjectLockConfiguration := c.disallow.getBucketObjectLockConfiguration
      putBucketNotificationConfiguration := c.disallow.putBucketNotificationConfiguration
      getBucketNotificationConfiguration := c.disallow.getBucketNotificationConfiguration }
  allowedPaths := c.allowedPaths
  notAfter := c.notAfter.map timestampFromSystem
  notBefore := c.notBefore.map timestampFromSystem
  maxObjectTtl := c.maxObjectTtl.map durationFromStd
  nonce := c.nonce

/-- `Caveat::from_proto`: the way back, where a time that cannot be represented is dropped and not
an error. -/
def fromProto (p : Pb.Caveat) : Caveat where
  disallow :=
    { reads := p.disallow.reads
      writes := p.disallow.writes
      lists := p.disallow.lists
      deletes := p.disallow.deletes
      locks := p.disallow.locks
      putRetention := p.disallow.putRetention
      getRetention := p.disallow.getRetention
      putLegalHold := p.disallow.putLegalHold
      getLegalHold := p.disallow.getLegalHold
      bypassGovernanceRetention := p.disallow.bypassGovernanceRetention
      putBucketObjectLockConfiguration := p.disallow.putBucketObjectLockConfiguration
      getBucketObjectLockConfiguration := p.disallow.getBucketObjectLockConfiguration
      putBucketNotificationConfiguration := p.disallow.putBucketNotificationConfiguration
      getBucketNotificationConfiguration := p.disallow.getBucketNotificationConfiguration }
  allowedPaths := p.allowedPaths
  notAfter := p.notAfter.bind systemFromTimestamp
  notBefore := p.notBefore.bind systemFromTimestamp
  maxObjectTtl := p.maxObjectTtl.bind stdFromDuration
  nonce := p.nonce

variable (prim : AccessPrimitives)

/-- `Caveat::encode`. -/
def encode (c : Caveat) : Bytes := prim.encodeCaveat c.toProto

/-- `Caveat::decode`: a message that does not decode is reported with the text of the decoder. -/
def decode (data : Bytes) : Except Error Caveat :=
  match prim.decodeCaveat data with
  | .error e => .error ⟨s!"invalid caveat format: {e}"⟩
  | .ok p => .ok (fromProto p)

/-- A caveat is encoded with numbers in range, whatever its times are. -/
lemma inRange_toProto (c : Caveat) : c.toProto.InRange where
  notAfter t ht := by
    obtain ⟨x, _, rfl⟩ := Option.map_eq_some_iff.mp ht
    exact timestamp_inRange x
  notBefore t ht := by
    obtain ⟨x, _, rfl⟩ := Option.map_eq_some_iff.mp ht
    exact timestamp_inRange x
  maxObjectTtl t ht := by
    obtain ⟨x, _, rfl⟩ := Option.map_eq_some_iff.mp ht
    exact duration_inRange x

/-- An encoded caveat is decoded with the same paths. -/
lemma decode_encode {prim : AccessPrimitives} (h : prim.Lawful) (c : Caveat) :
    ∃ c', decode prim (encode prim c) = .ok c' ∧ c'.allowedPaths = c.allowedPaths := by
  refine ⟨fromProto c.toProto, ?_, rfl⟩
  rw [decode, encode, h.caveat _ c.inRange_toProto]

end Caveat

/-! ## API keys

An API key is a macaroon with its caveats decoded nowhere; restricting adds an encoded one to the
end of the chain.
-/

/-- `ApiKey`, a macaroon and nothing else. -/
structure ApiKey where
  mac : Macaroon
deriving DecidableEq

variable (prim : AccessPrimitives)

/-- `sign`. -/
def sign (secret data : Bytes) : Vector UInt8 32 := prim.hmacSha256 secret data

/-- `Macaroon::from_parts`. -/
def Macaroon.fromParts (head secret : Bytes) : Macaroon := ⟨head, [], sign prim secret head⟩

/-- `Macaroon::add_first_party_caveat`: the caveat goes to the end, and the tail is signed over with
it. -/
def Macaroon.addFirstPartyCaveat (m : Macaroon) (caveat : Bytes) : Macaroon :=
  ⟨m.head, m.caveats ++ [caveat], sign prim m.tail.toList caveat⟩

namespace ApiKey

/-- `ApiKey::parse_raw`: the bytes of a macaroon, without the text encoding around them. -/
def parseRaw (data : Bytes) : Except Error ApiKey := do
  let mac ← Macaroon.parse data
  .ok ⟨mac⟩

/-- `ApiKey::serialize_raw`. -/
def serializeRaw (k : ApiKey) : Bytes := k.mac.serialize

/-- `ApiKey::restrict`: one more caveat, which can only take rights away. -/
def restrict (k : ApiKey) (caveat : Caveat) : ApiKey :=
  ⟨k.mac.addFirstPartyCaveat prim (caveat.encode prim)⟩

lemma parseRaw_eq_ok {data : Bytes} {k : ApiKey} :
    parseRaw data = .ok k ↔ Macaroon.parse data = .ok k.mac := by
  rw [parseRaw, Fallible.bind_eq_ok]
  constructor
  · rintro ⟨mac, hmac, h⟩
    cases h
    exact hmac
  · intro h
    exact ⟨k.mac, h, rfl⟩

/-- **A key that was written out is read as itself or not at all.** -/
lemma eq_of_parseRaw_serializeRaw {k k' : ApiKey} (h : parseRaw k.serializeRaw = .ok k') :
    k' = k := by
  have hmac := (Macaroon.eq_of_parse_serialize (parseRaw_eq_ok.mp h)).1
  cases k
  cases k'
  exact congrArg ApiKey.mk hmac

end ApiKey

end Storj.Access
