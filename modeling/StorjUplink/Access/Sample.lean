import StorjUplink.Lib.Wire
import StorjUplink.Access.Grant

/-!
# Primitives to compute with

A lawful instance of what the access crate takes from others, in which every function can be run:
the copying ciphers and the keyed hash of the path examples, hashes that are cut out of their
input, the text whose characters are the bytes, and a field-by-field code in place of protobuf.

The hash is a function that keeps its input, the ciphers copy, and the messages are written with
the codes of `Wire`.  They satisfy the laws because nothing is lost anywhere.  For runs of several
calls the hash of one byte keeps keys small, so that a whole run from a default key to a parsed
share can be evaluated in the kernel.
-/

namespace Storj.Access

open Storj.Enc Wire

namespace Sample

/-- A text as its bytes. -/
def text : Code String := Code.bytes.via utf8 fromUtf8 fromUtf8_utf8

def timestamp : Code Pb.Timestamp :=
  (Code.int.pair Code.int).via (fun t => (t.seconds, t.nanos)) (fun x => some ⟨x.1, x.2⟩)
    fun _ => rfl

def duration : Code Pb.Duration :=
  (Code.int.pair Code.int).via (fun t => (t.seconds, t.nanos)) (fun x => some ⟨x.1, x.2⟩)
    fun _ => rfl

def caveatPath : Code CaveatPath :=
  (Code.bytes.pair Code.bytes).via (fun p => (p.bucket, p.encryptedPathPrefix))
    (fun x => some ⟨x.1, x.2⟩) fun _ => rfl

/-- The flags in the order of the message. -/
def disallow : Code Disallow :=
  (Code.list Code.bool).via
    (fun d => [d.reads, d.writes, d.lists, d.deletes, d.locks, d.putRetention, d.getRetention,
      d.putLegalHold, d.getLegalHold, d.bypassGovernanceRetention,
      d.putBucketObjectLockConfiguration, d.getBucketObjectLockConfiguration,
      d.putBucketNotificationConfiguration, d.getBucketNotificationConfiguration])
    (fun
      | [a, b, c, d, e, f, g, h, i, j, k, l, m, n] => some ⟨a, b, c, d, e, f, g, h, i, j, k, l, m, n⟩
      | _ => none)
    fun _ => rfl

def caveat : Code Pb.Caveat :=
  (disallow.pair ((Code.list caveatPath).pair ((Code.option timestamp).pair
    ((Code.option timestamp).pair ((Code.option duration).pair Code.bytes))))).via
    (fun c => (c.disallow, c.allowedPaths, c.notAfter, c.notBefore, c.maxObjectTtl, c.nonce))
    (fun x => some ⟨x.1, x.2.1, x.2.2.1, x.2.2.2.1, x.2.2.2.2.1, x.2.2.2.2.2⟩) fun _ => rfl

def parameters : Code Pb.EncryptionParameters :=
  (Code.int.pair Code.int).via (fun p => (p.cipherSuite, p.blockSize)) (fun x => some ⟨x.1, x.2⟩)
    fun _ => rfl

def storeEntry : Code Pb.StoreEntry :=
  (Code.bytes.pair (Code.bytes.pair (Code.bytes.pair (Code.bytes.pair
    (Code.int.pair (Code.option parameters)))))).via
    (fun e => (e.bucket, e.unencryptedPath, e.encryptedPath, e.key, e.pathCipher,
      e.encryptionParameters))
    (fun x => some ⟨x.1, x.2.1, x.2.2.1, x.2.2.2.1, x.2.2.2.2.1, x.2.2.2.2.2⟩) fun _ => rfl

def encryptionAccess : Code Pb.EncryptionAccess :=
  (Code.bytes.pair ((Code.list storeEntry).pair (Code.int.pair (Code.option parameters)))).via
    (fun e => (e.defaultKey, e.storeEntries, e.defaultPathCipher, e.defaultEncryptionParameters))
    (fun x => some ⟨x.1, x.2.1, x.2.2.1, x.2.2.2⟩) fun _ => rfl

def scope : Code Pb.Scope :=
  (text.pair (Code.bytes.pair (Code.option encryptionAccess))).via
    (fun s => (s.satelliteAddr, s.apiKey, s.encryptionAccess))
    (fun x => some ⟨x.1, x.2.1, x.2.2⟩) fun _ => rfl

/-- Read a whole message. -/
def readAll {α : Type} (c : Code α) (data : Bytes) : Except String α :=
  match c.read data with
  | some (a, []) => .ok a
  | _ => .error "malformed"

lemma readAll_write {α : Type} (c : Code α) (a : α) : readAll c (c.write a) = .ok a := by
  have h := c.read_write a []
  rw [List.append_nil] at h
  rw [readAll, h]

/-- The text whose characters are the bytes. -/
def byteText (data : Bytes) : String := String.ofList (data.map fun b => Char.ofNat b.toNat)

def textByte (s : String) : Option Bytes := some (s.toList.map fun c => UInt8.ofNat c.toNat)

lemma textByte_byteText (data : Bytes) : textByte (byteText data) = some data := by
  rw [textByte, byteText, String.toList_ofList, List.map_map]
  congr 1
  conv_rhs => rw [← List.map_id data]
  refine List.map_congr_left fun b _ => ?_
  have hb := b.toNat_lt
  have hvalid : b.toNat.isValidChar := Or.inl (by omega)
  rw [Function.comp_apply, id_eq, Char.toNat, Char.ofNat, dif_pos hvalid]
  exact UInt8.ofNat_toNat

end Sample

/-- **The sample primitives.** -/
def samplePrimitives : AccessPrimitives where
  toPathPrimitives := copyPrimitives
  hmacSha256 key data := Vector.ofFn fun i => (data ++ key).getD i.val 0
  sha256 data := Vector.ofFn fun i => data.getD i.val 0
  base58Encode := Sample.byteText
  base58Decode := Sample.textByte
  encodeCaveat := Sample.caveat.write
  decodeCaveat := Sample.readAll Sample.caveat
  encodeScope := Sample.scope.write
  decodeScope := Sample.readAll Sample.scope

lemma samplePrimitives_lawful : samplePrimitives.Lawful where
  base58 := Sample.textByte_byteText
  base58_ne data hne h := by
    have hback := Sample.textByte_byteText data
    have h : Sample.byteText data = "" := h
    rw [h, Sample.textByte, Option.some.injEq] at hback
    exact hne hback.symm
  caveat c _ := Sample.readAll_write Sample.caveat c
  scope s _ := Sample.readAll_write Sample.scope s

/-! ## A hash of one byte

Keys derived with it are one byte, repeated, and can be written down in an example.
-/

/-- A keyed hash that is one byte, repeated. -/
def byteHash (key : Key) (data : Bytes) : Vector UInt8 64 :=
  Vector.replicate 64 (data.foldl (fun acc b => 3 * acc + b) key.toList.headI)

/-- The sample primitives with the hash of one byte, for runs of several calls. -/
def bytePrimitives : AccessPrimitives :=
  { samplePrimitives with toPathPrimitives := { copyPrimitives with hmacSha512 := byteHash } }

lemma bytePrimitives_lawful : bytePrimitives.Lawful :=
  ⟨samplePrimitives_lawful.base58, samplePrimitives_lawful.base58_ne, samplePrimitives_lawful.caveat,
    samplePrimitives_lawful.scope⟩

/-- A key that is one byte, repeated. -/
def byteKey (b : UInt8) : Key := Vector.replicate 32 b

/-- A component of one byte as the copying cipher seals it. -/
def sealedByte (nonce text key : UInt8) : Bytes :=
  2 :: (List.replicate 12 nonce ++ text :: List.replicate 16 key)

/-! ## A grant

The start of the sample runs: an address, a macaroon without caveats and a default key for AES-GCM.
-/

/-- The order in which the maps are listed. -/
def listedOrder : HashOrder where
  roots := id
  children _ _ := id
  roots_perm _ := .rfl
  children_perm _ _ _ := .rfl

/-- A macaroon without caveats. -/
def plainMacaroon : Macaroon := ⟨[1], [], Vector.replicate 32 0⟩

/-- A grant with a default key. -/
def defaultGrant : Grant :=
  .fromParts "satellite" plainMacaroon.serialize ⟨some (Vector.replicate 32 1), .aesGcm, [], none⟩

end Storj.Access
