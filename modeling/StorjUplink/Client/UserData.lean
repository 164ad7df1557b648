import StorjUplink.Access.Sample
import StorjUplink.Client.Parts
import StorjUplink.Client.Upload
import Std.Data.ExtTreeMap.Lemmas
import StorjUplink.Uplink.Nonce

/-!
# The metadata of an object

What `pipeline.rs` seals for `CommitObject` besides the segments: the custom metadata and the sizes,
under a fresh metadata key, that key under the content key of the object, and the checksum under the
metadata key.  `update_object_metadata` of `project.rs` reads all of it back and seals it anew with
other custom metadata.

A reader is told a cipher by the satellite, but the sealed metadata names its own.  So what matters
is that a record can be read whatever cipher the reader starts from (`Reads`): that is so of what
`encrypt_user_data` made (`encryptUserData_reads`), and one update keeps all but the custom metadata
(`Reads.update`).  A chain of updates is an induction over it.

The protobuf codec of the three messages is outside the repository, and a field of
`MetaPrimitives`.
-/

namespace Storj.Client

open Storj.Enc Storj.Access MachineInt

/-! ## Messages

The three messages, one inside the other in sealed form, with their numbers in the range of their
types.
-/

/-- `CustomMetadata`, and the hash map of the message of it: the order of a map's entries is not
part of its value. -/
abbrev CustomMetadata := Std.ExtTreeMap String String

/-- `SerializableMeta`. -/
structure SerializableMeta where
  userDefined : CustomMetadata

/-- `StreamInfo`, the message that is encrypted with the metadata key. -/
structure StreamInfo where
  deprecatedNumberOfSegments : ℤ
  segmentsSize : ℤ
  lastSegmentSize : ℤ
  metadata : Bytes
deriving DecidableEq

/-- `StreamMeta`, the message around the encrypted `StreamInfo`. -/
structure StreamMeta where
  encryptedStreamInfo : Bytes
  encryptionType : ℤ
  encryptionBlockSize : ℤ
  numberOfSegments : ℤ
deriving DecidableEq

/-- The numbers of the message are those of its types. -/
structure StreamInfo.InRange (i : StreamInfo) : Prop where
  deprecatedNumberOfSegments : InI64 i.deprecatedNumberOfSegments
  segmentsSize : InI64 i.segmentsSize
  lastSegmentSize : InI64 i.lastSegmentSize

/-- The numbers of the message are those of its types. -/
structure StreamMeta.InRange (m : StreamMeta) : Prop where
  encryptionType : InI32 m.encryptionType
  encryptionBlockSize : InI32 m.encryptionBlockSize
  numberOfSegments : InI64 m.numberOfSegments

/-- What the metadata of objects takes from others: the ciphers, and the protobuf codec of its three
messages, whose decoder may refuse with a text. -/
structure MetaPrimitives extends PathPrimitives where
  encodeMeta : SerializableMeta → Bytes
  decodeMeta : Bytes → Except String SerializableMeta
  encodeStreamInfo : StreamInfo → Bytes
  decodeStreamInfo : Bytes → Except String StreamInfo
  encodeStreamMeta : StreamMeta → Bytes
  decodeStreamMeta : Bytes → Except String StreamMeta

/-- The documented contract: ciphers and codec undo themselves, and no bytes are the message whose
fields have their defaults. -/
structure MetaPrimitives.Lawful (prim : MetaPrimitives) : Prop where
  aesGcm : prim.aesGcm.Lawful
  secretBox : prim.secretBox.Lawful
  decodeMeta : ∀ m, prim.decodeMeta (prim.encodeMeta m) = .ok m
  decodeMeta_nil : prim.decodeMeta [] = .ok ⟨∅⟩
  decodeStreamInfo : ∀ i : StreamInfo, i.InRange → prim.decodeStreamInfo (prim.encodeStreamInfo i) = .ok i
  decodeStreamMeta : ∀ m : StreamMeta, m.InRange → prim.decodeStreamMeta (prim.encodeStreamMeta m) = .ok m
  decodeStreamMeta_nil : prim.decodeStreamMeta [] = .ok ⟨[], 0, 0, 0⟩

/-! ## Sealing

Which key seals what, and under which nonce.  The nonces of the tag and of the checksum are
constants that differ in their first byte.
-/

/-- `user_data_nonce`. -/
def userDataNonce (first : UInt8) : Nonce := zeroNonce.set 0 first

/-- `ETAG_NONCE`. -/
def etagNonce : Nonce := userDataNonce 1

/-- `CHECKSUM_NONCE`. -/
def checksumNonce : Nonce := userDataNonce 2

/-- `EncryptedUserData`, the encrypted fields of a commit or an update. -/
structure EncryptedUserData where
  encryptedMetadata : Bytes
  encryptedMetadataEncryptedKey : Bytes
  encryptedMetadataNonce : Nonce
  encryptedEtag : Bytes
  encryptedChecksum : Bytes
deriving DecidableEq

/-- `encryption_from_params`, the block size. -/
def blockSizeFromParams (params : Option Pb.EncryptionParameters) : ℕ :=
  match (params.map fun p => p.blockSize).filter fun b => 0 < b with
  | some b => b.toNat
  | none => Uplink.defaultEncryptedBlockSize

variable (prim : MetaPrimitives)

/-- `encrypt`, with the error as the public crate shows it. -/
def sealed (prim : PathPrimitives) (data : Bytes) (cipher : CipherSuite) (key : Key) (nonce : Nonce) :
    Except Error Bytes :=
  (encrypt prim data cipher key nonce).mapError mapEnc

/-- `decrypt`, with the error as the public crate shows it. -/
def opened (prim : PathPrimitives) (data : Bytes) (cipher : CipherSuite) (key : Key) (nonce : Nonce) :
    Except Error Bytes :=
  (decrypt prim data cipher key nonce).mapError mapEnc

/-- `encrypt_key`: a key sealed under its parent. -/
def encryptKey (prim : PathPrimitives) (key : Key) (cipher : CipherSuite) (parent : Key)
    (nonce : Nonce) : Except Error Bytes :=
  sealed prim key.toList cipher parent nonce

/-- What `encrypt_user_data` puts into its map. -/
def customOf (custom : List (String × String)) : CustomMetadata :=
  custom.foldl (fun userDefined p => userDefined.insert p.1 p.2) ∅

/-- The size of the blocks that a segment is encrypted in, 0 standing for the default. -/
def blockOrDefault (encryptionBlockSize : ℕ) : ℕ :=
  if encryptionBlockSize = 0 then Uplink.defaultEncryptedBlockSize else encryptionBlockSize

/-- The checksum of `encrypt_user_data`. -/
def sealedChecksum (prim : PathPrimitives) (cipher : CipherSuite) (metadataKey : Key) :
    Option Bytes → Except Error Bytes
  | some plain => sealed prim plain cipher metadataKey checksumNonce
  | none => .ok []

/-- `encrypt_user_data`, with the metadata key and the nonce that it draws. -/
def encryptUserData (custom : List (String × String))
    (segmentSize lastSegmentSize numberOfSegments : ℤ) (cipher : CipherSuite)
    (derivedContentKey : Key) (encryptionBlockSize : ℕ) (checksum : Option Bytes)
    (metadataKey : Key) (nonce : Nonce) : Except Error EncryptedUserData := do
  let metadataBytes := prim.encodeMeta ⟨customOf custom⟩
  let streamInfo := prim.encodeStreamInfo ⟨0, segmentSize, lastSegmentSize, metadataBytes⟩
  let encryptedKey ← encryptKey prim.toPathPrimitives metadataKey cipher derivedContentKey nonce
  let encryptedStreamInfo ← sealed prim.toPathPrimitives streamInfo cipher metadataKey zeroNonce
  let encryptedMetadata := prim.encodeStreamMeta
    ⟨encryptedStreamInfo, cipher.code, min (blockOrDefault encryptionBlockSize) i32Max,
      numberOfSegments⟩
  let encryptedEtag ← sealed prim.toPathPrimitives [] cipher metadataKey etagNonce
  let encryptedChecksum ← sealedChecksum prim.toPathPrimitives cipher metadataKey checksum
  .ok ⟨encryptedMetadata, encryptedKey, nonce, encryptedEtag, encryptedChecksum⟩

/-- `From<prost::DecodeError>`, as the public crate shows it. -/
def decoded {α : Type} (x : Except String α) : Except Error α :=
  x.mapError fun text => ⟨.protocol, "protocol: " ++ text⟩

/-- `decrypt_object_checksum`: the checksum is under the metadata key, with a nonce of its own. -/
def decryptObjectChecksum (encryptedChecksum encryptedKey encryptedNonce : Bytes)
    (cipher : CipherSuite) (derivedContentKey : Key) : Except Error Bytes := do
  let nonce ← nonceFromSlice encryptedNonce
  let metadataKey ← decryptKey prim.toPathPrimitives encryptedKey cipher derivedContentKey nonce
  opened prim.toPathPrimitives encryptedChecksum cipher metadataKey checksumNonce

/-- The custom metadata of a `StreamInfo`. -/
def customMeta (metadata : Bytes) : Except Error SerializableMeta :=
  if metadata = [] then .ok ⟨∅⟩ else decoded (prim.decodeMeta metadata)

/-- `decrypt_user_data_full`: the key of the metadata is opened with the content key, the stream
info with that key and the zero nonce.  The stored cipher is used where there is one. -/
def decryptUserDataFull (encryptedMetadata encryptedKey encryptedNonce : Bytes)
    (cipher : CipherSuite) (derivedContentKey : Key) :
    Except Error (StreamMeta × StreamInfo × SerializableMeta) := do
  let streamMeta ← decoded (prim.decodeStreamMeta encryptedMetadata)
  let cipher := if streamMeta.encryptionType ≠ 0 then ⟨streamMeta.encryptionType⟩ else cipher
  let nonce ← nonceFromSlice encryptedNonce
  let metadataKey ← decryptKey prim.toPathPrimitives encryptedKey cipher derivedContentKey nonce
  let streamInfo ← opened prim.toPathPrimitives streamMeta.encryptedStreamInfo cipher metadataKey
    zeroNonce
  let info ← decoded (prim.decodeStreamInfo streamInfo)
  let custom ← customMeta prim info.metadata
  .ok (streamMeta, info, custom)

/-- `decrypt_user_data`: `decrypt_user_data_full` without the stream info. -/
def decryptUserData (encryptedMetadata encryptedKey encryptedNonce : Bytes) (cipher : CipherSuite)
    (derivedContentKey : Key) : Except Error (StreamMeta × SerializableMeta) := do
  let r ← decryptUserDataFull prim encryptedMetadata encryptedKey encryptedNonce cipher
    derivedContentKey
  .ok (r.1, r.2.2)

/-! ## Updates

The record is read under the old metadata key, and everything is sealed again under a fresh one.
-/

/-- `require_bucket_name`. -/
def requireBucketName (name : String) : Except Error Unit :=
  if name = "" then .error ⟨.bucketNameInvalid, "bucket name invalid (\"\")"⟩ else .ok ()

/-- `require_object_key`. -/
def requireObjectKey (key : String) : Except Error Unit :=
  if key = "" then .error ⟨.objectKeyInvalid, "object key invalid (\"\")"⟩ else .ok ()

/-- `metainfo::Object`, with what is read of it for the metadata. -/
structure ObjectRecord where
  streamId : Bytes
  encryptionParameters : Option Pb.EncryptionParameters
  encryptedMetadata : Bytes
  encryptedMetadataEncryptedKey : Bytes
  encryptedMetadataNonce : Bytes
  encryptedChecksum : Bytes
  checksumAlgorithm : ℤ
  isChecksumComposite : Bool
deriving DecidableEq

/-- `ObjectMetadataIncludes`. -/
structure ObjectMetadataIncludes where
  custom : Bool
  checksum : Bool
  etag : Bool
deriving DecidableEq

/-- `UpdateObjectMetadataRequest`, with the flags that say which of its fields are meant. -/
structure UpdateObjectMetadataRequest where
  bucket : Bytes
  encryptedObjectKey : Bytes
  streamId : Bytes
  encryptedMetadata : Bytes
  encryptedMetadataNonce : Bytes
  encryptedMetadataEncryptedKey : Bytes
  encryptedEtag : Bytes
  setEncryptedEtag : Bool
  includes : ObjectMetadataIncludes
  checksumAlgorithm : ℤ
  isChecksumComposite : Bool
  encryptedChecksum : Bytes
deriving DecidableEq

/-- The request of `update_object_metadata` of `metainfo.rs`. -/
def updateRequest (bucket : String) (encryptedObjectKey streamId : Bytes) (user : EncryptedUserData)
    (checksum : ℤ × Bool) : UpdateObjectMetadataRequest where
  bucket := utf8 bucket
  encryptedObjectKey := encryptedObjectKey
  streamId := streamId
  encryptedMetadata := user.encryptedMetadata
  encryptedMetadataNonce := user.encryptedMetadataNonce.toList
  encryptedMetadataEncryptedKey := user.encryptedMetadataEncryptedKey
  encryptedEtag := user.encryptedEtag
  setEncryptedEtag := false
  includes := ⟨true, true, false⟩
  checksumAlgorithm := checksum.1
  isChecksumComposite := checksum.2
  encryptedChecksum := user.encryptedChecksum

/-- What `update_object_metadata` keeps of an object: the three sizes, the cipher and the block
size. -/
def keptSizes (o : ObjectRecord) (contentKey : Key) :
    Except Error (ℤ × ℤ × ℤ × CipherSuite × ℕ) := do
  let cipher := cipherFromParams o.encryptionParameters
  let blockSize := blockSizeFromParams o.encryptionParameters
  if o.encryptedMetadata = [] then .ok (0, 0, 0, cipher, blockSize)
  else
    let (streamMeta, info, _) ← decryptUserDataFull prim o.encryptedMetadata
      o.encryptedMetadataEncryptedKey o.encryptedMetadataNonce cipher contentKey
    .ok (info.segmentsSize, info.lastSegmentSize, streamMeta.numberOfSegments,
      if streamMeta.encryptionType ≠ 0 then ⟨streamMeta.encryptionType⟩ else cipher,
      if 0 < streamMeta.encryptionBlockSize then streamMeta.encryptionBlockSize.toNat else blockSize)

/-- The checksum of an object, decrypted under the old metadata key. -/
def keptChecksum (o : ObjectRecord) (cipher : CipherSuite) (contentKey : Key) :
    Except Error (Option Bytes) :=
  if o.encryptedChecksum = [] then .ok none
  else
    (decryptObjectChecksum prim o.encryptedChecksum o.encryptedMetadataEncryptedKey
      o.encryptedMetadataNonce cipher contentKey).map some

/-- `update_object_metadata`: the request that it sends, for the object that the satellite returns,
and with the metadata key and the nonce that `encrypt_user_data` draws. -/
def updateObjectMetadata (store : Store) (bucket key : String) (metadata : CustomMetadata)
    (getObject : Bytes → Except Error (Option ObjectRecord)) (metadataKey : Key) (nonce : Nonce) :
    Except Error UpdateObjectMetadataRequest := do
  requireBucketName bucket
  requireObjectKey key
  verifyCustomMetadata metadata.toList
  let encPath ← (encryptPath prim.toPathPrimitives bucket key store).mapError mapEnc
  match ← getObject encPath with
  | none => .error ⟨.objectNotFound, s!"object not found ({prim.debugText (utf8 key)})"⟩
  | some o =>
      let contentKey ← (deriveContentKey prim.toPathPrimitives bucket (utf8 key) store).mapError mapEnc
      let (segmentsSize, lastSegmentSize, numberOfSegments, cipher, blockSize) ←
        keptSizes prim o contentKey
      let checksum ← keptChecksum prim o cipher contentKey
      let user ← encryptUserData prim metadata.toList segmentsSize lastSegmentSize numberOfSegments
        cipher contentKey blockSize checksum metadataKey nonce
      .ok (updateRequest bucket encPath o.streamId user (o.checksumAlgorithm, o.isChecksumComposite))

/-! ## What a record says

A record is read by somebody who was told some cipher.  What it says must not depend on that.
-/

variable {prim : MetaPrimitives}

lemma mapError_eq_ok {α : Type} {x : Except Enc.Error α} {a : α} :
    x.mapError mapEnc = .ok a ↔ x = .ok a := by
  cases x with
  | ok b => simp [Except.mapError]
  | error e => simp [Except.mapError]

/-- A list of the entries of a map makes the map. -/
lemma customOf_toList (m : CustomMetadata) : customOf m.toList = m := by
  have hfold : ∀ (l : List (String × String)) (acc : CustomMetadata),
      l.foldl (fun userDefined p => userDefined.insert p.1 p.2) acc = acc.insertMany l := by
    intro l
    induction l with
    | nil =>
        intro acc
        rw [List.foldl_nil, Std.ExtTreeMap.insertMany_nil]
    | cons p l ih =>
        intro acc
        rw [List.foldl_cons, ih, Std.ExtTreeMap.insertMany_cons]
  refine Std.ExtTreeMap.ext_getElem? fun k => ?_
  rw [customOf, hfold]
  cases hk : m[k]? with
  | some v =>
      exact Std.ExtTreeMap.getElem?_insertMany_list_of_mem Std.ReflCmp.compare_self
        Std.ExtTreeMap.distinct_keys_toList
        (Std.ExtTreeMap.mem_toList_iff_getElem?_eq_some.mpr hk)
  | none =>
      have hnot : (m.toList.map Prod.fst).contains k = false := by
        rw [Std.ExtTreeMap.map_fst_toList_eq_keys, Bool.eq_false_iff]
        intro hmem
        rw [List.contains_iff_mem, Std.ExtTreeMap.mem_keys, Std.ExtTreeMap.mem_iff_isSome_getElem?,
          hk] at hmem
        cases hmem
      rw [Std.ExtTreeMap.getElem?_insertMany_list_of_contains_eq_false hnot]
      exact Std.ExtTreeMap.getElem?_empty

lemma nonceFromSlice_toList (nonce : Nonce) : nonceFromSlice nonce.toList = .ok nonce := by
  have hlen : (nonce.toList.take 24).length = 24 := by simp
  rw [nonceFromSlice, dif_pos hlen]
  congr 1
  refine Vector.ext fun i hi => ?_
  simp

lemma sameNonce_refl (cipher : CipherSuite) (nonce : Nonce) : SameNonce cipher nonce nonce := by
  rw [SameNonce]
  split_ifs
  · rfl
  · rfl

/-- What was sealed opens under the same key and nonce. -/
lemma opened_of_sealed {prim : PathPrimitives} (haes : prim.aesGcm.Lawful)
    (hbox : prim.secretBox.Lawful) {data out : Bytes} {cipher : CipherSuite} {key : Key}
    {nonce : Nonce} (h : sealed prim data cipher key nonce = .ok out) :
    opened prim out cipher key nonce = .ok data := by
  rw [opened, mapError_eq_ok]
  exact decrypt_encrypt haes hbox (sameNonce_refl cipher nonce) (mapError_eq_ok.mp h)

/-- Only nothing is sealed as nothing. -/
lemma eq_nil_of_sealed {prim : PathPrimitives} (haes : prim.aesGcm.Lawful)
    (hbox : prim.secretBox.Lawful) {data : Bytes} {cipher : CipherSuite} {key : Key} {nonce : Nonce}
    (h : sealed prim data cipher key nonce = .ok []) : data = [] := by
  have hopen := opened_of_sealed haes hbox h
  rw [opened, mapError_eq_ok, decrypt, if_pos rfl, Except.ok.injEq] at hopen
  exact hopen.symm

/-- A key opens to the key that was sealed. -/
lemma decryptKey_encryptKey {prim : PathPrimitives} (haes : prim.aesGcm.Lawful)
    (hbox : prim.secretBox.Lawful) {key : Key} {cipher : CipherSuite} {parent : Key} {nonce : Nonce}
    {out : Bytes} (h : encryptKey prim key cipher parent nonce = .ok out) :
    decryptKey prim out cipher parent nonce = .ok key := by
  have hopen := mapError_eq_ok.mp (opened_of_sealed haes hbox h)
  rw [decryptKey, hopen]
  dsimp only
  rw [dif_pos (by simp)]
  rfl

/-- No key is sealed under a cipher that is not specified. -/
lemma code_ne_zero_of_encryptKey {prim : PathPrimitives} {key : Key} {cipher : CipherSuite}
    {parent : Key} {nonce : Nonce} {out : Bytes}
    (h : encryptKey prim key cipher parent nonce = .ok out) : cipher.code ≠ 0 := by
  intro hzero
  obtain rfl : cipher = .unspecified := by
    obtain ⟨code⟩ := cipher
    exact congrArg CipherSuite.mk hzero
  have hne : key.toList ≠ [] := by
    rw [← List.length_pos_iff, Vector.length_toList]
    decide
  rw [encryptKey, sealed, mapError_eq_ok, encrypt, if_neg hne, if_neg (by decide), if_neg (by decide),
    if_neg (by decide)] at h
  cases h

/-- What is sealed in the metadata of an object. -/
structure UserData where
  custom : CustomMetadata
  segmentsSize : ℤ
  lastSegmentSize : ℤ
  numberOfSegments : ℤ
  cipher : CipherSuite
  blockSize : ℤ
  checksum : Bytes

/-- The numbers fit into the messages, and neither the cipher nor the block size is a default. -/
structure UserData.Valid (d : UserData) : Prop where
  segmentsSize : InI64 d.segmentsSize
  lastSegmentSize : InI64 d.lastSegmentSize
  numberOfSegments : InI64 d.numberOfSegments
  cipher : InI32 d.cipher.code
  cipher_ne : d.cipher.code ≠ 0
  blockSize_pos : 0 < d.blockSize
  blockSize_le : d.blockSize ≤ i32Max

/-- **A record that can be read**: whatever cipher the reader was told, the metadata opens to the
data, and the checksum opens under the cipher that the metadata names. -/
structure Reads (prim : MetaPrimitives) (contentKey : Key) (o : ObjectRecord) (d : UserData) :
    Prop where
  ne_nil : o.encryptedMetadata ≠ []
  metadata : ∀ cipher, ∃ streamInfo deprecated inner,
    decryptUserDataFull prim o.encryptedMetadata o.encryptedMetadataEncryptedKey
        o.encryptedMetadataNonce cipher contentKey
      = .ok (⟨streamInfo, d.cipher.code, d.blockSize, d.numberOfSegments⟩,
          ⟨deprecated, d.segmentsSize, d.lastSegmentSize, inner⟩, ⟨d.custom⟩)
  checksum : keptChecksum prim o d.cipher contentKey
    = .ok (if d.checksum = [] then none else some d.checksum)
  valid : d.Valid

/-- A record that holds what `encrypt_user_data` made. -/
structure ObjectRecord.Holds (o : ObjectRecord) (u : EncryptedUserData) : Prop where
  metadata : o.encryptedMetadata = u.encryptedMetadata
  key : o.encryptedMetadataEncryptedKey = u.encryptedMetadataEncryptedKey
  nonce : o.encryptedMetadataNonce = u.encryptedMetadataNonce.toList
  checksum : o.encryptedChecksum = u.encryptedChecksum

/-- **The steps of `encrypt_user_data`.** -/
lemma encryptUserData_eq_ok {custom : List (String × String)}
    {segmentSize lastSegmentSize numberOfSegments : ℤ} {cipher : CipherSuite} {contentKey : Key}
    {block : ℕ} {checksum : Option Bytes} {metadataKey : Key} {nonce : Nonce}
    {u : EncryptedUserData}
    (hu : encryptUserData prim custom segmentSize lastSegmentSize numberOfSegments cipher
      contentKey block checksum metadataKey nonce = .ok u) :
    ∃ streamInfo,
      sealed prim.toPathPrimitives (prim.encodeStreamInfo
        ⟨0, segmentSize, lastSegmentSize, prim.encodeMeta ⟨customOf custom⟩⟩) cipher metadataKey
          zeroNonce = .ok streamInfo ∧
      encryptKey prim.toPathPrimitives metadataKey cipher contentKey nonce
        = .ok u.encryptedMetadataEncryptedKey ∧
      u.encryptedMetadata = prim.encodeStreamMeta
        ⟨streamInfo, cipher.code, min (blockOrDefault block) i32Max, numberOfSegments⟩ ∧
      u.encryptedMetadataNonce = nonce ∧
      sealedChecksum prim.toPathPrimitives cipher metadataKey checksum = .ok u.encryptedChecksum := by
  rw [encryptUserData] at hu
  obtain ⟨encKey, hkey, hu⟩ := Fallible.bind_eq_ok.mp hu
  obtain ⟨streamInfo, hinfo, hu⟩ := Fallible.bind_eq_ok.mp hu
  obtain ⟨etag, -, hu⟩ := Fallible.bind_eq_ok.mp hu
  obtain ⟨sum, hsum, hu⟩ := Fallible.bind_eq_ok.mp hu
  cases hu
  exact ⟨streamInfo, hinfo, hkey, rfl, rfl, hsum⟩

/-- Where the cipher seals everything, `encrypt_user_data` succeeds. -/
lemma exists_encryptUserData {cipher : CipherSuite}
    (hseal : ∀ data key nonce, ∃ out, sealed prim.toPathPrimitives data cipher key nonce = .ok out)
    (custom : List (String × String)) (segmentSize lastSegmentSize numberOfSegments : ℤ)
    (contentKey : Key) (block : ℕ) (checksum : Option Bytes) (metadataKey : Key) (nonce : Nonce) :
    ∃ u, encryptUserData prim custom segmentSize lastSegmentSize numberOfSegments cipher contentKey
      block checksum metadataKey nonce = .ok u := by
  obtain ⟨k, hk⟩ := hseal metadataKey.toList contentKey nonce
  obtain ⟨i, hi⟩ := hseal (prim.encodeStreamInfo
    ⟨0, segmentSize, lastSegmentSize, prim.encodeMeta ⟨customOf custom⟩⟩) metadataKey zeroNonce
  obtain ⟨e, he⟩ := hseal [] metadataKey etagNonce
  obtain ⟨c, hc⟩ : ∃ c, sealedChecksum prim.toPathPrimitives cipher metadataKey checksum = .ok c := by
    cases checksum with
    | none => exact ⟨[], rfl⟩
    | some plain => exact hseal plain metadataKey checksumNonce
  exact ⟨_, by
    rw [encryptUserData, encryptKey, hk, Fallible.ok_bind, hi, Fallible.ok_bind, he,
      Fallible.ok_bind, hc, Fallible.ok_bind]⟩

lemma blockOrDefault_pos (block : ℕ) : 0 < blockOrDefault block := by
  rw [blockOrDefault]
  split_ifs with h
  · decide
  · exact Nat.pos_of_ne_zero h

lemma inI64_zero : InI64 0 := ⟨by decide, by decide⟩

lemma customMeta_encodeMeta (h : prim.Lawful) (m : SerializableMeta) :
    customMeta prim (prim.encodeMeta m) = .ok m := by
  rw [customMeta]
  split_ifs with hnil
  · have hback := h.decodeMeta m
    rw [hnil, h.decodeMeta_nil] at hback
    injection hback with hback
    rw [hback]
  · rw [h.decodeMeta]
    rfl

/-- **What `encrypt_user_data` makes can be read.** -/
lemma encryptUserData_reads (h : prim.Lawful) {custom : CustomMetadata}
    {segmentSize lastSegmentSize numberOfSegments : ℤ} (hseg : InI64 segmentSize)
    (hlast : InI64 lastSegmentSize) (hnumber : InI64 numberOfSegments) {cipher : CipherSuite}
    (hcipher : InI32 cipher.code) {contentKey : Key} {block : ℕ} {checksum : Option Bytes}
    {metadataKey : Key} {nonce : Nonce} {u : EncryptedUserData}
    (hu : encryptUserData prim custom.toList segmentSize lastSegmentSize numberOfSegments cipher
      contentKey block checksum metadataKey nonce = .ok u)
    {o : ObjectRecord} (ho : o.Holds u) :
    Reads prim contentKey o ⟨custom, segmentSize, lastSegmentSize, numberOfSegments, cipher,
      min (blockOrDefault block) i32Max, checksum.getD []⟩ := by
  obtain ⟨streamInfo, hinfo, hkey, hmeta, hnonce, hsum⟩ := encryptUserData_eq_ok hu
  have hcode := code_ne_zero_of_encryptKey hkey
  have hblock := blockOrDefault_pos block
  have hmax : i32Max = 2 ^ 31 - 1 := rfl
  have hopen := decryptKey_encryptKey h.aesGcm h.secretBox hkey
  have hdecode := h.decodeStreamMeta
    ⟨streamInfo, cipher.code, min (blockOrDefault block) i32Max, numberOfSegments⟩
    ⟨hcipher, by show -2 ^ 31 ≤ min _ _ ∧ min _ _ < (2 ^ 31 : ℤ); omega, hnumber⟩
  have hdecodeInfo := h.decodeStreamInfo
    ⟨0, segmentSize, lastSegmentSize, prim.encodeMeta ⟨custom⟩⟩ ⟨inI64_zero, hseg, hlast⟩
  rw [customOf_toList] at hinfo
  refine ⟨?_, fun told => ?_, ?_, ⟨hseg, hlast, hnumber, hcipher, hcode, ?_, min_le_right _ _⟩⟩
  · -- no bytes would be the default message, whose cipher is not specified
    rw [ho.metadata, hmeta]
    intro hnil
    rw [hnil, h.decodeStreamMeta_nil] at hdecode
    injection hdecode with hdefault
    exact hcode (congrArg StreamMeta.encryptionType hdefault).symm
  · refine ⟨streamInfo, 0, prim.encodeMeta ⟨custom⟩, ?_⟩
    rw [ho.metadata, ho.key, ho.nonce, hmeta, hnonce, decryptUserDataFull, hdecode]
    dsimp only [decoded, Except.mapError, Fallible.ok_bind]
    rw [if_pos hcode, nonceFromSlice_toList, Fallible.ok_bind, hopen, Fallible.ok_bind,
      opened_of_sealed h.aesGcm h.secretBox hinfo, Fallible.ok_bind, hdecodeInfo]
    dsimp only [Except.mapError, Fallible.ok_bind]
    rw [customMeta_encodeMeta h, Fallible.ok_bind]
  · rw [keptChecksum, ho.checksum]
    cases checksum with
    | none =>
        have hnil : u.encryptedChecksum = [] := (Except.ok.inj hsum).symm
        rw [hnil]
        rfl
    | some plain =>
        have hsum : sealed prim.toPathPrimitives plain cipher metadataKey checksumNonce
          = .ok u.encryptedChecksum := hsum
        rw [Option.getD_some]
        split_ifs with hnil hplain hplain
        · rfl
        · rw [hnil] at hsum
          exact absurd (eq_nil_of_sealed h.aesGcm h.secretBox hsum) hplain
        · rw [sealed, mapError_eq_ok, encrypt, if_pos hplain, Except.ok.injEq] at hsum
          exact absurd hsum.symm hnil
        · rw [decryptObjectChecksum, ho.key, ho.nonce, hnonce, nonceFromSlice_toList,
            Fallible.ok_bind, hopen, Fallible.ok_bind, opened_of_sealed h.aesGcm h.secretBox hsum]
          rfl
  · show 0 < min ((blockOrDefault block : ℕ) : ℤ) i32Max
    omega

/-! ## One update, and any number of them

An update reads what is there, so what the first commit sealed is carried from one to the next.
-/

/-- What the satellite makes of a record: it stores what the request includes. -/
structure Updated (o o' : ObjectRecord) (r : UpdateObjectMetadataRequest) : Prop where
  streamId : o'.streamId = o.streamId
  encryptionParameters : o'.encryptionParameters = o.encryptionParameters
  custom : r.includes.custom = true → o'.encryptedMetadata = r.encryptedMetadata ∧
    o'.encryptedMetadataEncryptedKey = r.encryptedMetadataEncryptedKey ∧
    o'.encryptedMetadataNonce = r.encryptedMetadataNonce
  checksum : r.includes.checksum = true → o'.encryptedChecksum = r.encryptedChecksum ∧
    o'.checksumAlgorithm = r.checksumAlgorithm ∧ o'.isChecksumComposite = r.isChecksumComposite

section

variable {contentKey : Key} {o o' : ObjectRecord} {d : UserData}

/-- What an update keeps of a record that can be read. -/
lemma Reads.keptSizes_eq (h : Reads prim contentKey o d) : keptSizes prim o contentKey
    = .ok (d.segmentsSize, d.lastSegmentSize, d.numberOfSegments, d.cipher, d.blockSize.toNat) := by
  obtain ⟨streamInfo, deprecated, inner, hdec⟩ := h.metadata (cipherFromParams o.encryptionParameters)
  rw [keptSizes, if_neg h.ne_nil, hdec, Fallible.ok_bind]
  dsimp only
  rw [if_pos h.valid.cipher_ne, if_pos h.valid.blockSize_pos]

/-- The checksum that an update keeps. -/
lemma UserData.getD_checksum (d : UserData) :
    (if d.checksum = [] then none else some d.checksum).getD [] = d.checksum := by
  split_ifs with h
  · exact h.symm
  · rfl

/-- The checksum of a record that can be read. -/
lemma Reads.checksum_cases (h : Reads prim contentKey o d) :
    o.encryptedChecksum = [] ∧ d.checksum = [] ∨
      decryptObjectChecksum prim o.encryptedChecksum o.encryptedMetadataEncryptedKey
        o.encryptedMetadataNonce d.cipher contentKey = .ok d.checksum := by
  have hsum := h.checksum
  rw [keptChecksum] at hsum
  by_cases hnil : o.encryptedChecksum = []
  · rw [if_pos hnil, Except.ok.injEq] at hsum
    have hget := d.getD_checksum
    rw [← hsum] at hget
    exact Or.inl ⟨hnil, hget.symm⟩
  · rw [if_neg hnil] at hsum
    cases hdec : decryptObjectChecksum prim o.encryptedChecksum o.encryptedMetadataEncryptedKey
        o.encryptedMetadataNonce d.cipher contentKey with
    | error e =>
        rw [hdec] at hsum
        cases hsum
    | ok x =>
        rw [hdec] at hsum
        have hx : some x = if d.checksum = [] then none else some d.checksum := Except.ok.inj hsum
        have hget := d.getD_checksum
        rw [← hx] at hget
        exact Or.inr (congrArg _ hget)

/-- **One update** replaces the custom metadata and nothing else. -/
lemma Reads.update (hprim : prim.Lawful) (h : Reads prim contentKey o d) {store : Store}
    {bucket key : String}
    (hkey : deriveContentKey prim.toPathPrimitives bucket (utf8 key) store = .ok contentKey)
    {metadata : CustomMetadata} {getObject : Bytes → Except Error (Option ObjectRecord)}
    (hget : ∀ encPath, getObject encPath = .ok (some o)) {metadataKey : Key} {nonce : Nonce}
    {r : UpdateObjectMetadataRequest}
    (hr : updateObjectMetadata prim store bucket key metadata getObject metadataKey nonce = .ok r)
    (ho : Updated o o' r) :
    Reads prim contentKey o' { d with custom := metadata } ∧
      o'.checksumAlgorithm = o.checksumAlgorithm ∧
      o'.isChecksumComposite = o.isChecksumComposite := by
  rw [updateObjectMetadata] at hr
  obtain ⟨-, -, hr⟩ := Fallible.bind_eq_ok.mp hr
  obtain ⟨-, -, hr⟩ := Fallible.bind_eq_ok.mp hr
  obtain ⟨-, -, hr⟩ := Fallible.bind_eq_ok.mp hr
  obtain ⟨encPath, -, hr⟩ := Fallible.bind_eq_ok.mp hr
  rw [hget, Fallible.ok_bind, hkey] at hr
  dsimp only [Except.mapError, Fallible.ok_bind] at hr
  rw [h.keptSizes_eq, Fallible.ok_bind] at hr
  dsimp only at hr
  rw [h.checksum, Fallible.ok_bind] at hr
  obtain ⟨u, hu, hr⟩ := Fallible.bind_eq_ok.mp hr
  cases hr
  obtain ⟨hmeta, hkey', hnonce⟩ := ho.custom rfl
  obtain ⟨hsum, halgorithm, hcomposite⟩ := ho.checksum rfl
  have hreads := encryptUserData_reads hprim h.valid.segmentsSize h.valid.lastSegmentSize
    h.valid.numberOfSegments h.valid.cipher hu ⟨hmeta, hkey', hnonce, hsum⟩
  have hpos := h.valid.blockSize_pos
  have hblock : min ((blockOrDefault d.blockSize.toNat : ℕ) : ℤ) i32Max = d.blockSize := by
    have hle := h.valid.blockSize_le
    rw [blockOrDefault, if_neg (by omega)]
    omega
  rw [hblock, d.getD_checksum] at hreads
  exact ⟨hreads, halgorithm, hcomposite⟩

end

/-- Where the cipher seals everything, metadata that passes the checks is sent. -/
lemma Reads.exists_request {contentKey : Key} {o : ObjectRecord} {d : UserData}
    (h : Reads prim contentKey o d)
    (hseal : ∀ data key nonce, ∃ out,
      sealed prim.toPathPrimitives data d.cipher key nonce = .ok out)
    {store : Store} {bucket key : String} (hbucket : bucket ≠ "") (hne : key ≠ "") {encPath : Bytes}
    (hpath : encryptPath prim.toPathPrimitives bucket key store = .ok encPath)
    (hkey : deriveContentKey prim.toPathPrimitives bucket (utf8 key) store = .ok contentKey)
    {metadata : CustomMetadata} (hverify : verifyCustomMetadata metadata.toList = .ok ())
    (metadataKey : Key) (nonce : Nonce) :
    ∃ r, updateObjectMetadata prim store bucket key metadata (fun _ => .ok (some o)) metadataKey
      nonce = .ok r := by
  obtain ⟨u, hu⟩ := exists_encryptUserData hseal metadata.toList d.segmentsSize d.lastSegmentSize
    d.numberOfSegments contentKey d.blockSize.toNat
    (if d.checksum = [] then none else some d.checksum) metadataKey nonce
  refine ⟨updateRequest bucket encPath o.streamId u (o.checksumAlgorithm, o.isChecksumComposite), ?_⟩
  rw [updateObjectMetadata, requireBucketName, if_neg hbucket, Fallible.ok_bind, requireObjectKey,
    if_neg hne, Fallible.ok_bind, hverify, Fallible.ok_bind, hpath]
  dsimp only [Except.mapError, Fallible.ok_bind]
  rw [hkey]
  dsimp only [Except.mapError, Fallible.ok_bind]
  rw [h.keptSizes_eq, Fallible.ok_bind]
  dsimp only
  rw [h.checksum, Fallible.ok_bind, hu, Fallible.ok_bind]

/-- Updates, one after the other: each reads the record that is there, and the satellite stores what
it sends. -/
inductive Updates (prim : MetaPrimitives) (store : Store) (bucket key : String) :
    ObjectRecord → List CustomMetadata → ObjectRecord → Prop
  | nil (o : ObjectRecord) : Updates prim store bucket key o [] o
  | snoc {o o' o'' : ObjectRecord} {metadatas : List CustomMetadata} {metadata : CustomMetadata}
      {metadataKey : Key} {nonce : Nonce} {r : UpdateObjectMetadataRequest}
      (run : Updates prim store bucket key o metadatas o')
      (hr : updateObjectMetadata prim store bucket key metadata (fun _ => .ok (some o')) metadataKey
        nonce = .ok r)
      (ho : Updated o' o'' r) : Updates prim store bucket key o (metadatas ++ [metadata]) o''

/-- **Any number of updates** leaves the last custom metadata and everything else. -/
lemma Reads.updates (hprim : prim.Lawful) {contentKey : Key} {o o' : ObjectRecord} {d : UserData}
    (h : Reads prim contentKey o d) {store : Store} {bucket key : String}
    (hkey : deriveContentKey prim.toPathPrimitives bucket (utf8 key) store = .ok contentKey)
    {metadatas : List CustomMetadata} (hrun : Updates prim store bucket key o metadatas o') :
    Reads prim contentKey o' { d with custom := metadatas.getLast?.getD d.custom } ∧
      o'.checksumAlgorithm = o.checksumAlgorithm ∧
      o'.isChecksumComposite = o.isChecksumComposite := by
  induction hrun with
  | nil => exact ⟨h, rfl, rfl⟩
  | snoc run hr ho ih =>
      obtain ⟨hreads, halgorithm, hcomposite⟩ := ih
      obtain ⟨hreads', halgorithm', hcomposite'⟩ := hreads.update hprim hkey (fun _ => rfl) hr ho
      rw [List.getLast?_concat]
      exact ⟨hreads', halgorithm'.trans halgorithm, hcomposite'.trans hcomposite⟩

/-- **Metadata updates keep what they do not replace.**  Of an object that was committed with some
custom metadata, sizes and checksum, and then updated any number of times, every reader gets the
last custom metadata that was set, the sizes and the number of segments of the commit, and its
checksum, whatever cipher it was told by the satellite. -/
theorem updateObjectMetadata_keeps (hprim : prim.Lawful) {store : Store} {bucket key : String}
    {contentKey : Key}
    (hkey : deriveContentKey prim.toPathPrimitives bucket (utf8 key) store = .ok contentKey)
    {custom : CustomMetadata} {segmentSize lastSegmentSize numberOfSegments : ℤ}
    (hseg : InI64 segmentSize) (hlast : InI64 lastSegmentSize) (hnumber : InI64 numberOfSegments)
    {cipher : CipherSuite} (hcipher : InI32 cipher.code) {block : ℕ} {checksum : Option Bytes}
    {metadataKey : Key} {nonce : Nonce} {u : EncryptedUserData}
    (hu : encryptUserData prim custom.toList segmentSize lastSegmentSize numberOfSegments cipher
      contentKey block checksum metadataKey nonce = .ok u)
    {o o' : ObjectRecord} (ho : o.Holds u) {metadatas : List CustomMetadata}
    (hrun : Updates prim store bucket key o metadatas o') :
    (∀ told, ∃ streamMeta info,
      decryptUserDataFull prim o'.encryptedMetadata o'.encryptedMetadataEncryptedKey
          o'.encryptedMetadataNonce told contentKey
        = .ok (streamMeta, info, ⟨metadatas.getLast?.getD custom⟩) ∧
      streamMeta.numberOfSegments = numberOfSegments ∧ streamMeta.encryptionType = cipher.code ∧
      info.segmentsSize = segmentSize ∧ info.lastSegmentSize = lastSegmentSize) ∧
    (o'.encryptedChecksum = [] ∧ checksum.getD [] = [] ∨
      decryptObjectChecksum prim o'.encryptedChecksum o'.encryptedMetadataEncryptedKey
        o'.encryptedMetadataNonce cipher contentKey = .ok (checksum.getD [])) ∧
    o'.checksumAlgorithm = o.checksumAlgorithm ∧ o'.isChecksumComposite = o.isChecksumComposite := by
  obtain ⟨hreads, halgorithm, hcomposite⟩ :=
    (encryptUserData_reads hprim hseg hlast hnumber hcipher hu ho).updates hprim hkey hrun
  refine ⟨fun told => ?_, ?_, halgorithm, hcomposite⟩
  · obtain ⟨streamInfo, deprecated, inner, hdec⟩ := hreads.metadata told
    exact ⟨_, _, hdec, rfl, rfl, rfl, rfl⟩
  · exact hreads.checksum_cases

/-! ## A sample

An object with a checksum, an update of its custom metadata, and a reader who is told another
cipher.
-/

namespace Sample

open Wire Access.Sample

lemma pair_write_ne_nil {α β : Type} {c : Code α} {d : Code β} (h : ∀ a, c.write a ≠ [])
    (x : α × β) : (c.pair d).write x ≠ [] := by
  intro hnil
  exact h x.1 (List.append_eq_nil_iff.mp hnil).1

lemma list_write_ne_nil {α : Type} {c : Code α} (l : List α) : (Code.list c).write l ≠ [] := by
  intro hnil
  have hnat := (List.append_eq_nil_iff.mp hnil).1
  exact absurd (List.append_eq_nil_iff.mp hnat).2 (by decide)

/-- A map as the list of its entries. -/
def serializableMeta : Code SerializableMeta :=
  (Code.list (text.pair text)).via (fun m => m.userDefined.toList) (fun l => some ⟨customOf l⟩)
    fun m => by rw [customOf_toList]

def streamInfo : Code StreamInfo :=
  (Code.int.pair (Code.int.pair (Code.int.pair Code.bytes))).via
    (fun i => (i.deprecatedNumberOfSegments, i.segmentsSize, i.lastSegmentSize, i.metadata))
    (fun x => some ⟨x.1, x.2.1, x.2.2.1, x.2.2.2⟩) fun _ => rfl

def streamMeta : Code StreamMeta :=
  (Code.bytes.pair (Code.int.pair (Code.int.pair Code.int))).via
    (fun m => (m.encryptedStreamInfo, m.encryptionType, m.encryptionBlockSize, m.numberOfSegments))
    (fun x => some ⟨x.1, x.2.1, x.2.2.1, x.2.2.2⟩) fun _ => rfl

/-- Read a message, no bytes being the default one. -/
def orDefault {α : Type} (c : Code α) (default : α) (data : Bytes) : Except String α :=
  if data = [] then .ok default else readAll c data

lemma orDefault_write {α : Type} {c : Code α} {default a : α} (h : c.write a ≠ []) :
    orDefault c default (c.write a) = .ok a := by
  rw [orDefault, if_neg h, readAll_write]

end Sample

/-- Lawful primitives of the metadata, with a field-by-field code in place of protobuf. -/
def sampleMeta : MetaPrimitives where
  toPathPrimitives := copyPrimitives
  encodeMeta := Sample.serializableMeta.write
  decodeMeta := Sample.orDefault Sample.serializableMeta ⟨∅⟩
  encodeStreamInfo := Sample.streamInfo.write
  decodeStreamInfo := Access.Sample.readAll Sample.streamInfo
  encodeStreamMeta := Sample.streamMeta.write
  decodeStreamMeta := Sample.orDefault Sample.streamMeta ⟨[], 0, 0, 0⟩

lemma sampleMeta_lawful : sampleMeta.Lawful where
  aesGcm := copyAead_lawful
  secretBox := copyAead_lawful
  decodeMeta _ := Sample.orDefault_write (c := Sample.serializableMeta) (Sample.list_write_ne_nil _)
  decodeMeta_nil := rfl
  decodeStreamInfo i _ := Access.Sample.readAll_write Sample.streamInfo i
  decodeStreamMeta _ _ :=
    Sample.orDefault_write (c := Sample.streamMeta)
      (Sample.pair_write_ne_nil (fun _ => Sample.list_write_ne_nil _) _)
  decodeStreamMeta_nil := rfl

/-- The copying cipher always seals. -/
lemma exists_sealed_copy (data : Bytes) (key : Key) (nonce : Nonce) :
    ∃ out, sealed copyPrimitives data .aesGcm key nonce = .ok out := by
  rw [sealed, encrypt]
  by_cases h : data = []
  · exact ⟨_, by rw [if_pos h]; rfl⟩
  · exact ⟨_, by rw [if_neg h, if_neg (by decide), if_pos rfl]; rfl⟩

lemma exists_encryptUserData_sample (custom : List (String × String))
    (segmentSize lastSegmentSize numberOfSegments : ℤ) (contentKey : Key) (block : ℕ)
    (checksum : Option Bytes) (metadataKey : Key) (nonce : Nonce) :
    ∃ u, encryptUserData sampleMeta custom segmentSize lastSegmentSize numberOfSegments .aesGcm
      contentKey block checksum metadataKey nonce = .ok u :=
  exists_encryptUserData (fun data key nonce => exists_sealed_copy data key nonce) ..

/-- A store with one key for everything. -/
def aesStore : Store :=
  Store.new.run [.setDefaultKey (Vector.replicate 32 7), .setDefaultPathCipher .aesGcm]

/-- The record of what `encrypt_user_data` made. -/
def EncryptedUserData.record (u : EncryptedUserData) : ObjectRecord :=
  ⟨[1], none, u.encryptedMetadata, u.encryptedMetadataEncryptedKey, u.encryptedMetadataNonce.toList,
    u.encryptedChecksum, 0, false⟩

/-- The record that a satellite makes of a request. -/
def ObjectRecord.afterUpdate (o : ObjectRecord) (r : UpdateObjectMetadataRequest) : ObjectRecord :=
  { o with
    encryptedMetadata := r.encryptedMetadata
    encryptedMetadataEncryptedKey := r.encryptedMetadataEncryptedKey
    encryptedMetadataNonce := r.encryptedMetadataNonce
    encryptedChecksum := r.encryptedChecksum
    checksumAlgorithm := r.checksumAlgorithm
    isChecksumComposite := r.isChecksumComposite }

lemma ObjectRecord.updated_afterUpdate (o : ObjectRecord) (r : UpdateObjectMetadataRequest) :
    Updated o (o.afterUpdate r) r where
  streamId := rfl
  encryptionParameters := rfl
  custom _ := ⟨rfl, rfl, rfl⟩
  checksum _ := ⟨rfl, rfl, rfl⟩

/-- One update of an object with a checksum, read by somebody who was told another cipher. -/
theorem updateObjectMetadata_keeps_sample : ∃ (o : ObjectRecord) (contentKey : Key) (m : StreamMeta)
    (info : StreamInfo),
    decryptUserDataFull sampleMeta o.encryptedMetadata o.encryptedMetadataEncryptedKey
      o.encryptedMetadataNonce .secretBox contentKey = .ok (m, info, ⟨customOf [("a", "1")]⟩) ∧
    info.lastSegmentSize = 3 ∧
    decryptObjectChecksum sampleMeta o.encryptedChecksum o.encryptedMetadataEncryptedKey
      o.encryptedMetadataNonce .aesGcm contentKey = .ok [5, 6] := by
  obtain ⟨contentKey, hkey⟩ : ∃ k, deriveContentKey copyPrimitives "b" (utf8 "k") aesStore = .ok k :=
    ⟨_, rfl⟩
  obtain ⟨encPath, hpath⟩ : ∃ p, encryptPath copyPrimitives "b" "k" aesStore = .ok p := by
    have hsome : (encryptPath copyPrimitives "b" "k" aesStore).toOption.isSome := by decide +kernel
    obtain ⟨p, hp⟩ := Option.isSome_iff_exists.mp hsome
    exact ⟨p, toOption_eq_some.mp hp⟩
  obtain ⟨u, hu⟩ := exists_encryptUserData_sample (customOf [("z", "")]).toList 64 3 1 contentKey 18
    (some [5, 6]) (Vector.replicate 32 1) (Vector.replicate 24 2)
  have hholds : u.record.Holds u := ⟨rfl, rfl, rfl, rfl⟩
  have hreads := encryptUserData_reads sampleMeta_lawful (by decide) (by decide) (by decide)
    ⟨by decide, by decide⟩ hu hholds
  obtain ⟨r, hr⟩ := hreads.exists_request (fun data key nonce => exists_sealed_copy data key nonce)
    (by decide) (by decide) hpath hkey
    (show verifyCustomMetadata (customOf [("a", "1")]).toList = .ok () by decide +kernel)
    (Vector.replicate 32 3) (Vector.replicate 24 4)
  have hrun := (Updates.nil u.record).snoc hr (u.record.updated_afterUpdate r)
  obtain ⟨hdata, hsum, -, -⟩ := updateObjectMetadata_keeps sampleMeta_lawful hkey (by decide)
    (by decide) (by decide) ⟨by decide, by decide⟩ hu hholds hrun
  obtain ⟨m, info, hdec, -, -, -, hlast⟩ := hdata .secretBox
  refine ⟨_, contentKey, m, info, hdec, hlast, hsum.resolve_left ?_⟩
  rintro ⟨-, hnil⟩
  exact absurd hnil (by decide)

end Storj.Client
