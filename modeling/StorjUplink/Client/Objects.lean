import StorjUplink.Client.SegmentRead

/-!
# Objects

`stat_object`, `copy_object` and `move_object` of `objects.rs`.  A copy is made by the
satellite without the data: the client opens the metadata key and the key of every segment under the
content key of the old path, and seals them again under that of the new one.

`Says` is what an object says to who has its content key: its metadata opens to the data of the
commit, and its segments are those of some bytes.  It does not mention the path, so that what the
client does with an object is one lemma about it: an update changes the custom metadata in it
(`Says.update`), and a copy or a move says the same under the new key (`Says.rekey`).

The keys of an object form a small hierarchy.  The content key, derived from the path, seals the
metadata key and the key of every segment; the metadata key seals the metadata and the checksum;
and the key of a segment seals its bytes.  So moving an object to another path takes the metadata
key and the segment keys, and nothing else, and the two requests of a copy carry just these.

What the satellite answers to the first request and does with the second one is stated as
relations, `Begins` and `Finishes`.  They leave open the order in which it hands out the segments;
positions are what connects a key that was sent with the segment that it is for.
-/

namespace Storj.Client

open Storj.Enc Storj.Access MachineInt Buffer Uplink
open Segment (PieceResult)

/-! ## Reading the record

The satellite's record of an object becomes what the caller sees.  A listing reads it the same way.
-/

/-- `metainfo::Object`, with what is read of it. -/
structure ObjectInfo extends ObjectRecord where
  plainSize : ℤ

/-- `Object`, without version and times. -/
structure Object where
  key : String
  isPrefix : Bool
  contentLength : ℤ
  custom : CustomMetadata

section

variable (prim : MetaPrimitives)

/-- `decrypt_custom`: the metadata of an object under the content key of its own path. -/
def decryptCustom (pb : ObjectRecord) (bucket key : String) (store : Store) :
    Except Error CustomMetadata := do
  let contentKey ← (deriveContentKey prim.toPathPrimitives bucket (utf8 key) store).mapError mapEnc
  let r ← decryptUserData prim pb.encryptedMetadata pb.encryptedMetadataEncryptedKey
    pb.encryptedMetadataNonce (cipherFromParams pb.encryptionParameters) contentKey
  .ok r.2.userDefined

/-- `object_from_info`: size and metadata are read where they are asked for, and a prefix or an
object without metadata has none. -/
def objectFromInfo (pb : ObjectInfo) (bucket key : String)
    (isPrefix includeSystem includeCustom : Bool) (store : Store) : Except Error Object := do
  let contentLength := if includeSystem then pb.plainSize else 0
  if includeCustom ∧ ¬isPrefix ∧ pb.encryptedMetadata ≠ [] then
    let custom ← decryptCustom prim pb.toObjectRecord bucket key store
    .ok ⟨key, isPrefix, contentLength, custom⟩
  else .ok ⟨key, isPrefix, contentLength, ∅⟩

/-- `stat_object`: the object at the encrypted path, with its size and its metadata. -/
def statObject (store : Store) (bucket key : String)
    (getObject : Bytes → Except Error (Option ObjectInfo)) : Except Error Object := do
  requireBucketName bucket
  requireObjectKey key
  let encPath ← (encryptPath prim.toPathPrimitives bucket key store).mapError mapEnc
  match ← getObject encPath with
  | none => .error ⟨.protocol, "GetObject returned no object"⟩
  | some pb => objectFromInfo prim pb bucket key false true true store

end

/-! ## Copying and moving

Opening and sealing again, key by key, under fresh nonces.
-/

section

variable (prim : PathPrimitives)

/-- `prepare_copy_move`: the checks, the two encrypted paths and the two content keys, source first.
-/
def prepareCopyMove (store : Store) (srcBucket srcKey dstBucket dstKey : String) :
    Except Error (Bytes × Bytes × Key × Key) := do
  requireBucketName srcBucket
  requireObjectKey srcKey
  requireBucketName dstBucket
  requireObjectKey dstKey
  let srcEnc ← (encryptPath prim srcBucket srcKey store).mapError mapEnc
  let dstEnc ← (encryptPath prim dstBucket dstKey store).mapError mapEnc
  let oldContent ← (deriveContentKey prim srcBucket (utf8 srcKey) store).mapError mapEnc
  let newContent ← (deriveContentKey prim dstBucket (utf8 dstKey) store).mapError mapEnc
  .ok (srcEnc, dstEnc, oldContent, newContent)

/-- `reencrypt_metadata_key`: the new key and its nonce.  The metadata itself stays, only the key
that opens it is encrypted again, under the same nonce. -/
def reencryptMetadataKey (encryptedKey encryptedNonce : Bytes) (cipher : CipherSuite)
    (oldContent newContent : Key) : Except Error (Bytes × Bytes) :=
  if encryptedKey = [] then .ok ([], [])
  else do
    let nonce ← nonceFromSlice encryptedNonce
    let metaKey ← decryptKey prim encryptedKey cipher oldContent nonce
    let newEnc ← encryptKey prim metaKey cipher newContent nonce
    .ok (newEnc, nonce.toList)

/-- `EncryptedKeyAndNonce`. -/
structure EncryptedKeyAndNonce where
  position : Option Position
  encryptedKeyNonce : Bytes
  encryptedKey : Bytes
deriving DecidableEq

/-- One turn of the loop of `reencrypt_segment_keys`, with the nonce that it draws. -/
def reencryptSegmentKey (cipher : CipherSuite) (oldContent newContent : Key)
    (old : EncryptedKeyAndNonce) (newNonce : Nonce) : Except Error EncryptedKeyAndNonce := do
  let nonce ← nonceFromSlice old.encryptedKeyNonce
  let content ← decryptKey prim old.encryptedKey cipher oldContent nonce
  let newEnc ← encryptKey prim content cipher newContent newNonce
  .ok ⟨old.position, newNonce.toList, newEnc⟩

/-- `reencrypt_segment_keys`: each key for the destination, under a nonce of its own. -/
def reencryptSegmentKeys (keys : List EncryptedKeyAndNonce) (cipher : CipherSuite)
    (oldContent newContent : Key) (fresh : ℕ → Nonce) : Except Error (List EncryptedKeyAndNonce) :=
  keys.zipIdx.mapM fun old =>
    reencryptSegmentKey prim cipher oldContent newContent old.1 (fresh old.2)

/-- `BeginCopyObjectResponse` and `BeginMoveObjectResponse`, which have the same fields under other
names. -/
structure BeginCopyMove where
  streamId : Bytes
  encryptionParameters : Option Pb.EncryptionParameters
  encryptedMetadataKey : Bytes
  encryptedMetadataKeyNonce : Bytes
  segmentKeys : List EncryptedKeyAndNonce

/-- `FinishCopyObjectRequest` and `FinishMoveObjectRequest`, which have the same fields under other
names. -/
structure FinishCopyMove where
  streamId : Bytes
  newBucket : Bytes
  newEncryptedObjectKey : Bytes
  newEncryptedMetadataKeyNonce : Bytes
  newEncryptedMetadataKey : Bytes
  newSegmentKeys : List EncryptedKeyAndNonce

/-- What `copy_object` and `move_object` do up to their last call, which is all but its name the
same: the request of that call. -/
def copyMove (store : Store) (srcBucket srcKey dstBucket dstKey : String)
    (beginCall : Bytes → Bytes → Except Error BeginCopyMove) (fresh : ℕ → Nonce) :
    Except Error FinishCopyMove := do
  let (srcEnc, dstEnc, oldContent, newContent) ←
    prepareCopyMove prim store srcBucket srcKey dstBucket dstKey
  let begun ← beginCall srcEnc dstEnc
  let cipher := cipherFromParams begun.encryptionParameters
  let (newMetaKey, newMetaNonce) ← reencryptMetadataKey prim begun.encryptedMetadataKey
    begun.encryptedMetadataKeyNonce cipher oldContent newContent
  let newSegmentKeys ← reencryptSegmentKeys prim begun.segmentKeys cipher oldContent newContent fresh
  .ok ⟨begun.streamId, utf8 dstBucket, dstEnc, newMetaNonce, newMetaKey, newSegmentKeys⟩

end

section

variable (prim : MetaPrimitives)

/-- `copy_object`: the keys are encrypted again for the destination, and the object that the
satellite returns is read there. -/
def copyObject (store : Store) (srcBucket srcKey dstBucket dstKey : String)
    (beginCall : Bytes → Bytes → Except Error BeginCopyMove) (fresh : ℕ → Nonce)
    (finishCall : FinishCopyMove → Except Error (Option ObjectInfo)) : Except Error Object := do
  let request ← copyMove prim.toPathPrimitives store srcBucket srcKey dstBucket dstKey beginCall fresh
  match ← finishCall request with
  | none => .error ⟨.protocol, "FinishCopyObject returned no object"⟩
  | some pb => objectFromInfo prim pb dstBucket dstKey false true true store

/-- `move_object`: the keys are encrypted again for the destination, and nothing is read back. -/
def moveObject (store : Store) (srcBucket srcKey dstBucket dstKey : String)
    (beginCall : Bytes → Bytes → Except Error BeginCopyMove) (fresh : ℕ → Nonce)
    (finishCall : FinishCopyMove → Except Error Unit) : Except Error Unit := do
  let request ← copyMove prim.toPathPrimitives store srcBucket srcKey dstBucket dstKey beginCall fresh
  finishCall request

/-- `BeginDeleteObjectRequest`, which deletes a committed object or, by its stream id and status, a
pending one. -/
structure BeginDeleteObjectRequest where
  bucket : Bytes
  encryptedObjectKey : Bytes
  streamId : Bytes
  status : ℤ
deriving DecidableEq

/-- `BeginDeleteObjectResponse`: the bucket of the object, and the object. -/
abbrev BeginDeleteObjectResponse := Option (Bytes × ObjectInfo)

/-- `delete_object`: the committed object at the key, without a stream id.  An answer without an
object, or with one that names no bucket, means that there was none. -/
def deleteObject (store : Store) (bucket key : String)
    (beginDelete : BeginDeleteObjectRequest → Except Error BeginDeleteObjectResponse) :
    Except Error (Option Object) := do
  requireBucketName bucket
  requireObjectKey key
  let encPath ← (encryptPath prim.toPathPrimitives bucket key store).mapError mapEnc
  match ← beginDelete ⟨utf8 bucket, encPath, [], 0⟩ with
  | none => .ok none
  | some (pbBucket, pb) =>
      if pbBucket = [] then .ok none
      else (objectFromInfo prim pb bucket key false true true store).map some

end

/-! ## What a call sends

A call prepares a request, sends it and makes something of the answer.  What the satellite does
depends on the request only, and it may do it for a call that fails afterwards. -/

section

variable {R A B : Type}

/-- **A call sends a request**: with whatever error that is answered, the call fails with it. -/
def Sends (call : (R → Except Error A) → Except Error B) (request : R) : Prop :=
  ∀ answer e, answer request = .error e → call answer = .error e

/-- A call that prepares a request and goes on with the answer sends what it prepares. -/
lemma sends_iff {prepare : Except Error R} {next : (R → Except Error A) → R → Except Error B}
    (hnext : ∀ answer r e, answer r = .error e → next answer r = .error e) {request : R} :
    Sends (fun answer => prepare >>= next answer) request ↔ prepare = .ok request := by
  constructor
  · intro h
    have hcall := fun e => h (fun _ => .error e) e rfl
    cases prepare with
    | error e₀ =>
        -- a call that does not come to its request fails with one error only
        have htext := (hcall ⟨.protocol, ""⟩).symm.trans (hcall ⟨.protocol, "x"⟩)
        simp at htext
    | ok r =>
        by_contra hne
        have hother : r ≠ request := fun heq => hne (by rw [heq])
        have hsecond := h (fun q => open Classical in
          if q = request then .error ⟨.protocol, ""⟩ else .error ⟨.protocol, "x"⟩) ⟨.protocol, ""⟩
          (if_pos rfl)
        have hfail := hnext (fun q => open Classical in
          if q = request then .error ⟨.protocol, ""⟩ else .error ⟨.protocol, "x"⟩) r
          ⟨.protocol, "x"⟩ (if_neg hother)
        have htext := hsecond.symm.trans hfail
        simp at htext
  · rintro rfl answer e he
    exact hnext answer request e he

end

section

variable {prim : MetaPrimitives} {store : Store} {srcBucket srcKey dstBucket dstKey bucket key : String}

lemma sends_copyObject {beginCall : Bytes → Bytes → Except Error BeginCopyMove} {fresh : ℕ → Nonce}
    {request : FinishCopyMove} :
    Sends (copyObject prim store srcBucket srcKey dstBucket dstKey beginCall fresh) request ↔
      copyMove prim.toPathPrimitives store srcBucket srcKey dstBucket dstKey beginCall fresh
        = .ok request :=
  sends_iff fun answer r e he => by rw [he]; rfl

lemma sends_moveObject {beginCall : Bytes → Bytes → Except Error BeginCopyMove} {fresh : ℕ → Nonce}
    {request : FinishCopyMove} :
    Sends (moveObject prim store srcBucket srcKey dstBucket dstKey beginCall fresh) request ↔
      copyMove prim.toPathPrimitives store srcBucket srcKey dstBucket dstKey beginCall fresh
        = .ok request :=
  sends_iff fun _ _ _ he => he

/-- A deletion sends the path of the key, with no stream and no status. -/
lemma sends_deleteObject {request : BeginDeleteObjectRequest} :
    Sends (deleteObject prim store bucket key) request ↔ bucket ≠ "" ∧ key ≠ "" ∧
      ∃ path, encryptPath prim.toPathPrimitives bucket key store = .ok path ∧
        request = ⟨utf8 bucket, path, [], 0⟩ := by
  have hcall : deleteObject prim store bucket key = fun answer =>
      (do
        requireBucketName bucket
        requireObjectKey key
        let path ← (encryptPath prim.toPathPrimitives bucket key store).mapError mapEnc
        .ok (⟨utf8 bucket, path, [], 0⟩ : BeginDeleteObjectRequest)) >>= fun request => (do
        match ← answer request with
        | none => .ok none
        | some (pbBucket, pb) =>
            if pbBucket = [] then .ok none
            else (objectFromInfo prim pb bucket key false true true store).map some) := by
    funext answer
    simp only [bind_assoc]
    rfl
  rw [hcall, sends_iff fun answer r e he => by rw [he]; rfl, requireBucketName, requireObjectKey]
  constructor
  · intro h
    obtain ⟨_, hbucket, h⟩ := Fallible.bind_eq_ok.mp h
    obtain ⟨_, hkey, h⟩ := Fallible.bind_eq_ok.mp h
    obtain ⟨path, hpath, h⟩ := Fallible.bind_eq_ok.mp h
    refine ⟨?_, ?_, path, mapError_eq_ok.mp hpath, (Except.ok.inj h).symm⟩
    · rintro rfl
      cases hbucket
    · rintro rfl
      cases hkey
  · rintro ⟨hbucket, hkey, path, hpath, rfl⟩
    rw [if_neg hbucket, if_neg hkey, hpath]
    rfl

end

/-! ## What the satellite keeps

An object is its record and a row of segments.  The bytes that it says are those of the segments in
the order of their positions.
-/

/-- An object in the satellite's database. -/
structure StoredObject (H : Type) where
  info : ObjectInfo
  segments : List (StoredSegment H)

variable {H : Type} {prim : MetaPrimitives}

/-- The key of a segment, as it is handed out for a copy. -/
def StoredSegment.keyAndNonce (s : StoredSegment H) : EncryptedKeyAndNonce :=
  ⟨some s.position, s.encryptedKeyNonce, s.encryptedKey⟩

/-- **What the satellite answers when a copy or a move begins.** -/
structure Begins (obj : StoredObject H) (begun : BeginCopyMove) : Prop where
  encryptionParameters : begun.encryptionParameters = obj.info.encryptionParameters
  metadataKey : begun.encryptedMetadataKey = obj.info.encryptedMetadataEncryptedKey
  metadataKeyNonce : begun.encryptedMetadataKeyNonce = obj.info.encryptedMetadataNonce
  segmentKeys : begun.segmentKeys.Perm (obj.segments.map StoredSegment.keyAndNonce)

/-- A segment with the key that was sent for its position. -/
structure Replaced (keys : List EncryptedKeyAndNonce) (s s' : StoredSegment H) : Prop where
  key : s'.keyAndNonce ∈ keys
  position : s'.position = s.position
  plainSize : s'.plainSize = s.plainSize
  encryptedETag : s'.encryptedETag = s.encryptedETag
  content : s'.content = s.content

/-- **What the satellite stores when a copy or a move is finished**: the same object, with the keys
that were sent. -/
structure Finishes (obj obj' : StoredObject H) (request : FinishCopyMove) : Prop where
  encryptionParameters : obj'.info.encryptionParameters = obj.info.encryptionParameters
  metadata : obj'.info.encryptedMetadata = obj.info.encryptedMetadata
  metadataKey : obj'.info.encryptedMetadataEncryptedKey = request.newEncryptedMetadataKey
  metadataKeyNonce : obj'.info.encryptedMetadataNonce = request.newEncryptedMetadataKeyNonce
  checksum : obj'.info.encryptedChecksum = obj.info.encryptedChecksum
  plainSize : obj'.info.plainSize = obj.info.plainSize
  segments : List.Forall₂ (Replaced request.newSegmentKeys) obj.segments obj'.segments

/-- **How bytes are cut into segments**: one after the other in the order of the positions. -/
structure Assembly (jobs : List SegmentCommit) (data : Bytes) : Prop where
  ordered : jobs.Pairwise fun s t => positionLe (s.partNumber, s.index) (t.partNumber, t.index) ∧
    (s.partNumber, s.index) ≠ (t.partNumber, t.index)
  data_eq : jobs.flatMap SegmentCommit.plain = data

/-- **What an object says** to who has its content key. -/
structure Says (prim : MetaPrimitives) (contentKey : Key) (obj : StoredObject H) (d : UserData)
    (data : Bytes) : Prop where
  reads : Reads prim contentKey obj.info.toObjectRecord d
  cipher : cipherFromParams obj.info.encryptionParameters = d.cipher
  segments : ∃ jobs, Assembly jobs data ∧ List.Forall₂ (fun job s => ∃ key,
    IsStored prim.toPathPrimitives d.cipher d.blockSize.toNat contentKey key job s) jobs obj.segments
  plainSize : obj.info.plainSize = data.length
  fits : (data.length : ℤ) ≤ i64Max

/-! ## Keys sealed again

What was sealed under the old content key opens, and what is sealed under the new one opens with
that.
-/

/-- A key that was sealed is not empty. -/
lemma ne_nil_of_decryptKey {prim : PathPrimitives} {encrypted : Bytes} {cipher : CipherSuite}
    {parent key : Key} {nonce : Nonce} (h : decryptKey prim encrypted cipher parent nonce = .ok key) :
    encrypted ≠ [] := by
  rintro rfl
  cases h

/-- A metadata key sealed again opens to the same key, under the same nonce. -/
lemma reencryptMetadataKey_opens {prim : PathPrimitives} (haes : prim.aesGcm.Lawful)
    (hbox : prim.secretBox.Lawful) {encryptedKey encryptedNonce newKey newNonce : Bytes}
    {cipher : CipherSuite} {oldContent newContent metaKey : Key} {nonce : Nonce}
    (hnonce : nonceFromSlice encryptedNonce = .ok nonce)
    (hkey : decryptKey prim encryptedKey cipher oldContent nonce = .ok metaKey)
    (h : reencryptMetadataKey prim encryptedKey encryptedNonce cipher oldContent newContent
      = .ok (newKey, newNonce)) :
    nonceFromSlice newNonce = .ok nonce ∧
      decryptKey prim newKey cipher newContent nonce = .ok metaKey := by
  rw [reencryptMetadataKey, if_neg (ne_nil_of_decryptKey hkey), hnonce, Fallible.ok_bind, hkey,
    Fallible.ok_bind] at h
  obtain ⟨newEnc, hnew, h⟩ := Fallible.bind_eq_ok.mp h
  cases h
  exact ⟨nonceFromSlice_toList nonce, decryptKey_encryptKey haes hbox hnew⟩

/-- The steps of `decrypt_user_data_full`, up to the metadata key. -/
lemma decryptUserDataFull_eq_ok {encryptedMetadata encryptedKey encryptedNonce : Bytes}
    {told : CipherSuite} {contentKey : Key} {r : StreamMeta × StreamInfo × SerializableMeta}
    (hcode : r.1.encryptionType ≠ 0)
    (h : decryptUserDataFull prim encryptedMetadata encryptedKey encryptedNonce told contentKey
      = .ok r) :
    ∃ nonce metaKey, nonceFromSlice encryptedNonce = .ok nonce ∧
      decryptKey prim.toPathPrimitives encryptedKey ⟨r.1.encryptionType⟩ contentKey nonce
        = .ok metaKey ∧
      ∀ {encryptedKey' encryptedNonce' : Bytes} {contentKey' : Key},
        nonceFromSlice encryptedNonce' = .ok nonce →
        decryptKey prim.toPathPrimitives encryptedKey' ⟨r.1.encryptionType⟩ contentKey' nonce
          = .ok metaKey →
        decryptUserDataFull prim encryptedMetadata encryptedKey' encryptedNonce' told contentKey'
          = .ok r := by
  rw [decryptUserDataFull] at h
  obtain ⟨streamMeta, hmeta, h⟩ := Fallible.bind_eq_ok.mp h
  obtain ⟨nonce, hnonce, h⟩ := Fallible.bind_eq_ok.mp h
  obtain ⟨metaKey, hkey, h⟩ := Fallible.bind_eq_ok.mp h
  have hfirst : r.1 = streamMeta := by
    obtain ⟨streamInfo, -, h⟩ := Fallible.bind_eq_ok.mp h
    obtain ⟨info, -, h⟩ := Fallible.bind_eq_ok.mp h
    obtain ⟨custom, -, h⟩ := Fallible.bind_eq_ok.mp h
    cases h
    rfl
  rw [hfirst] at hcode ⊢
  rw [if_pos hcode] at hkey
  refine ⟨nonce, metaKey, hnonce, hkey, fun hnonce' hkey' => ?_⟩
  rw [decryptUserDataFull, hmeta, Fallible.ok_bind, hnonce', Fallible.ok_bind, if_pos hcode, hkey',
    Fallible.ok_bind]
  rw [if_pos hcode] at h
  exact h

/-- **A record under another content key** says the same. -/
lemma Reads.rekey (hprim : prim.Lawful) {oldContent newContent : Key} {o o' : ObjectRecord}
    {d : UserData} (h : Reads prim oldContent o d) {newKey newNonce : Bytes}
    (hre : reencryptMetadataKey prim.toPathPrimitives o.encryptedMetadataEncryptedKey
      o.encryptedMetadataNonce d.cipher oldContent newContent = .ok (newKey, newNonce))
    (hmeta : o'.encryptedMetadata = o.encryptedMetadata)
    (hkey : o'.encryptedMetadataEncryptedKey = newKey) (hnonce : o'.encryptedMetadataNonce = newNonce)
    (hsum : o'.encryptedChecksum = o.encryptedChecksum) : Reads prim newContent o' d := by
  obtain ⟨streamInfo, deprecated, inner, hdec⟩ := h.metadata d.cipher
  obtain ⟨nonce, metaKey, hnonce₀, hkey₀, -⟩ := decryptUserDataFull_eq_ok h.valid.cipher_ne hdec
  obtain ⟨hnonce', hkey'⟩ := reencryptMetadataKey_opens hprim.aesGcm hprim.secretBox hnonce₀ hkey₀ hre
  rw [← hnonce] at hnonce'
  rw [← hkey] at hkey'
  refine ⟨by rw [hmeta]; exact h.ne_nil, fun told => ?_, ?_, h.valid⟩
  · obtain ⟨streamInfo, deprecated, inner, hdec⟩ := h.metadata told
    obtain ⟨nonce₁, metaKey₁, hnonce₁, hkey₁, hagain⟩ :=
      decryptUserDataFull_eq_ok h.valid.cipher_ne hdec
    -- the two reads opened the same key
    obtain rfl : nonce = nonce₁ := Except.ok.inj (hnonce₀.symm.trans hnonce₁)
    obtain rfl : metaKey = metaKey₁ := Except.ok.inj (hkey₀.symm.trans hkey₁)
    exact ⟨streamInfo, deprecated, inner, by rw [hmeta]; exact hagain hnonce' hkey'⟩
  · have hsum₀ := h.checksum
    rw [keptChecksum, decryptObjectChecksum, hnonce₀, Fallible.ok_bind, hkey₀, Fallible.ok_bind]
      at hsum₀
    rw [keptChecksum, decryptObjectChecksum, hnonce', Fallible.ok_bind, hkey', Fallible.ok_bind, hsum]
    exact hsum₀

/-- A segment under another content key is the same segment. -/
lemma IsStored.rekey {prim : PathPrimitives} (haes : prim.aesGcm.Lawful)
    (hbox : prim.secretBox.Lawful) {cipher : CipherSuite} {blockSize : ℕ}
    {oldContent newContent key : Key} {job : SegmentCommit} {s s' : StoredSegment H}
    (h : IsStored prim cipher blockSize oldContent key job s) {newNonce : Nonce}
    (hre : reencryptSegmentKey prim cipher oldContent newContent s.keyAndNonce newNonce
      = .ok s'.keyAndNonce)
    (hplain : s'.plainSize = s.plainSize) (hcontent : s'.content = s.content) :
    IsStored prim cipher blockSize newContent key job s' := by
  obtain ⟨nonce, hkey, hnonce⟩ := h.key_sealed
  rw [reencryptSegmentKey, StoredSegment.keyAndNonce, hnonce, nonceFromSlice_toList, Fallible.ok_bind,
    decryptKey_encryptKey haes hbox hkey, Fallible.ok_bind] at hre
  obtain ⟨newEnc, hnew, hre⟩ := Fallible.bind_eq_ok.mp hre
  rw [StoredSegment.keyAndNonce, Except.ok.injEq, EncryptedKeyAndNonce.mk.injEq, Option.some.injEq]
    at hre
  obtain ⟨hpos, hnonce', hkey'⟩ := hre
  exact ⟨hpos ▸ h.position, hplain.trans h.plainSize, ⟨newNonce, hkey' ▸ hnew, hnonce'.symm⟩,
    hcontent ▸ h.content⟩

/-- Every key that is sent was handed out, for the same position, and sealed again. -/
lemma mem_reencryptSegmentKeys {prim : PathPrimitives} {keys newKeys : List EncryptedKeyAndNonce}
    {cipher : CipherSuite} {oldContent newContent : Key} {fresh : ℕ → Nonce}
    (h : reencryptSegmentKeys prim keys cipher oldContent newContent fresh = .ok newKeys)
    {k' : EncryptedKeyAndNonce} (hk : k' ∈ newKeys) : ∃ k ∈ keys, ∃ newNonce,
      reencryptSegmentKey prim cipher oldContent newContent k newNonce = .ok k' := by
  rw [reencryptSegmentKeys] at h
  obtain ⟨⟨k, i⟩, hmem, hre⟩ := Fallible.exists_of_mem_mapM h hk
  exact ⟨k, (List.mem_zipIdx hmem).2.2 ▸ List.getElem_mem _, fresh i, hre⟩

/-- Two relations between lists, one after the other. -/
lemma forall₂_comp {α β γ : Type*} {R : α → β → Prop} {S : β → γ → Prop} {T : α → γ → Prop}
    {l : List α} {m : List β} {n : List γ} (hR : List.Forall₂ R l m) (hS : List.Forall₂ S m n)
    (h : ∀ a, ∀ b ∈ m, ∀ c, R a b → S b c → T a c) : List.Forall₂ T l n := by
  induction hR generalizing n with
  | nil =>
      cases hS
      exact .nil
  | cons hab _ ih =>
      cases hS with
      | cons hbc hS =>
          exact .cons (h _ _ List.mem_cons_self _ hab hbc)
            (ih hS fun a b hb => h a b (List.mem_cons_of_mem _ hb))

/-- Members that are each related to something make a related list. -/
lemma exists_forall₂ {α β : Type*} {R : α → β → Prop} {l : List α} (h : ∀ a ∈ l, ∃ b, R a b) :
    ∃ m, List.Forall₂ R l m := by
  induction l with
  | nil => exact ⟨[], .nil⟩
  | cons a l ih =>
      obtain ⟨b, hb⟩ := h a List.mem_cons_self
      obtain ⟨m, hm⟩ := ih fun a ha => h a (List.mem_cons_of_mem _ ha)
      exact ⟨b :: m, .cons hb hm⟩

section Says

variable {contentKey : Key} {obj obj' : StoredObject H} {d : UserData} {data : Bytes}

lemma positions_eq {prim : PathPrimitives} {cipher : CipherSuite} {blockSize : ℕ}
    {jobs : List SegmentCommit} {segments : List (StoredSegment H)}
    (h : List.Forall₂ (fun job s => ∃ key, IsStored prim cipher blockSize contentKey key job s) jobs
      segments) :
    segments.map StoredSegment.position = jobs.map fun job => (job.partNumber, job.index) := by
  induction h with
  | nil => rfl
  | cons hjob _ ih =>
      obtain ⟨key, hstored⟩ := hjob
      rw [List.map_cons, List.map_cons, ih, hstored.position]

/-- The segments of an object have different positions. -/
lemma Says.eq_of_position (h : Says prim contentKey obj d data) {s t : StoredSegment H}
    (hs : s ∈ obj.segments) (ht : t ∈ obj.segments) (hpos : s.position = t.position) : s = t := by
  obtain ⟨jobs, hjobs, hall⟩ := h.segments
  have hpositions := positions_eq hall
  have hnodup : (obj.segments.map StoredSegment.position).Nodup := by
    rw [hpositions]
    exact List.pairwise_map.mpr (hjobs.ordered.imp fun h => h.2)
  exact List.inj_on_of_nodup_map hnodup hs ht hpos

/-- **A copy and a move** say what the object says, to who has the new content key. -/
lemma Says.rekey (hprim : prim.Lawful) {oldContent newContent : Key}
    (h : Says prim oldContent obj d data) {begun : BeginCopyMove} (hbegun : Begins obj begun)
    {newMetaKey newMetaNonce : Bytes}
    (hmeta : reencryptMetadataKey prim.toPathPrimitives begun.encryptedMetadataKey
      begun.encryptedMetadataKeyNonce (cipherFromParams begun.encryptionParameters) oldContent
        newContent = .ok (newMetaKey, newMetaNonce))
    {newSegmentKeys : List EncryptedKeyAndNonce} {fresh : ℕ → Nonce}
    (hkeys : reencryptSegmentKeys prim.toPathPrimitives begun.segmentKeys
      (cipherFromParams begun.encryptionParameters) oldContent newContent fresh = .ok newSegmentKeys)
    {streamId newBucket newPath : Bytes}
    (hfin : Finishes obj obj' ⟨streamId, newBucket, newPath, newMetaNonce, newMetaKey, newSegmentKeys⟩) :
    Says prim newContent obj' d data := by
  rw [hbegun.encryptionParameters, h.cipher] at hmeta hkeys
  rw [hbegun.metadataKey, hbegun.metadataKeyNonce] at hmeta
  obtain ⟨jobs, hjobs, hall⟩ := h.segments
  refine ⟨h.reads.rekey hprim hmeta hfin.metadata hfin.metadataKey hfin.metadataKeyNonce hfin.checksum,
    by rw [hfin.encryptionParameters, h.cipher], ⟨jobs, hjobs, ?_⟩,
    hfin.plainSize.trans h.plainSize, h.fits⟩
  have hsegment : ∀ s ∈ obj.segments, ∀ s', Replaced newSegmentKeys s s' → ∃ newNonce,
      reencryptSegmentKey prim.toPathPrimitives d.cipher oldContent newContent s.keyAndNonce newNonce
        = .ok s'.keyAndNonce := by
    intro s hs s' hreplaced
    obtain ⟨k, hk, newNonce, hre⟩ := mem_reencryptSegmentKeys hkeys hreplaced.key
    obtain ⟨t, ht, rfl⟩ := List.mem_map.mp (hbegun.segmentKeys.mem_iff.mp hk)
    -- the key that was sent for this position is the one that was handed out for it
    have hpos : s'.position = t.position := by
      rw [reencryptSegmentKey] at hre
      obtain ⟨_, -, hre⟩ := Fallible.bind_eq_ok.mp hre
      obtain ⟨_, -, hre⟩ := Fallible.bind_eq_ok.mp hre
      obtain ⟨_, -, hre⟩ := Fallible.bind_eq_ok.mp hre
      rw [Except.ok.injEq, StoredSegment.keyAndNonce, EncryptedKeyAndNonce.mk.injEq] at hre
      exact (Option.some.inj hre.1).symm
    obtain rfl := h.eq_of_position hs ht (hreplaced.position.symm.trans hpos)
    exact ⟨newNonce, hre⟩
  refine forall₂_comp hall hfin.segments fun job s hs s' hjob hreplaced => ?_
  obtain ⟨key, hstored⟩ := hjob
  obtain ⟨newNonce, hre⟩ := hsegment s hs s' hreplaced
  exact ⟨key, hstored.rekey hprim.aesGcm hprim.secretBox hre hreplaced.plainSize hreplaced.content⟩

/-- **An update** changes the custom metadata, and nothing else of what the object says. -/
lemma Says.update (hprim : prim.Lawful) (h : Says prim contentKey obj d data) {store : Store}
    {bucket key : String}
    (hkey : deriveContentKey prim.toPathPrimitives bucket (utf8 key) store = .ok contentKey)
    {metadata : CustomMetadata} {getObject : Bytes → Except Error (Option ObjectRecord)}
    (hget : ∀ encPath, getObject encPath = .ok (some obj.info.toObjectRecord)) {metadataKey : Key}
    {nonce : Nonce} {request : UpdateObjectMetadataRequest}
    (hrequest : updateObjectMetadata prim store bucket key metadata getObject metadataKey nonce
      = .ok request)
    (hupdated : Updated obj.info.toObjectRecord obj'.info.toObjectRecord request)
    (hplain : obj'.info.plainSize = obj.info.plainSize) (hsegments : obj'.segments = obj.segments) :
    Says prim contentKey obj' { d with custom := metadata } data where
  reads := (h.reads.update hprim hkey hget hrequest hupdated).1
  cipher := by
    rw [hupdated.encryptionParameters]
    exact h.cipher
  segments := hsegments ▸ h.segments
  plainSize := hplain.trans h.plainSize
  fits := h.fits

/-- The keys of an object open. -/
lemma Says.exists_segmentKey (h : Says prim contentKey obj d data) {s : StoredSegment H}
    (hs : s ∈ obj.segments) : ∃ nonce key, s.encryptedKeyNonce = Vector.toList nonce ∧
      encryptKey prim.toPathPrimitives key d.cipher contentKey nonce = .ok s.encryptedKey := by
  obtain ⟨jobs, -, hall⟩ := h.segments
  clear h
  generalize obj.segments = segments at hall hs
  induction hall with
  | nil => cases hs
  | cons hjob _ ih =>
      rcases List.mem_cons.mp hs with rfl | hs
      · obtain ⟨key, hstored⟩ := hjob
        obtain ⟨nonce, hkey, hnonce⟩ := hstored.key_sealed
        exact ⟨nonce, key, hnonce, hkey⟩
      · exact ih hs

/-- **A copy can be finished** of what can be read, where the cipher seals everything. -/
lemma Says.exists_finishes (hprim : prim.Lawful) {oldContent : Key}
    (h : Says prim oldContent obj d data)
    (hseal : ∀ text key nonce, ∃ out, sealed prim.toPathPrimitives text d.cipher key nonce = .ok out)
    (newContent : Key) (fresh : ℕ → Nonce) : ∃ newMetaKey newMetaNonce newKeys,
      reencryptMetadataKey prim.toPathPrimitives obj.info.encryptedMetadataEncryptedKey
        obj.info.encryptedMetadataNonce d.cipher oldContent newContent
          = .ok (newMetaKey, newMetaNonce) ∧
      reencryptSegmentKeys prim.toPathPrimitives (obj.segments.map StoredSegment.keyAndNonce) d.cipher
        oldContent newContent fresh = .ok newKeys ∧
      ∀ streamId newBucket newPath, ∃ obj' : StoredObject H,
        Finishes obj obj' ⟨streamId, newBucket, newPath, newMetaNonce, newMetaKey, newKeys⟩ := by
  obtain ⟨streamInfo, deprecated, inner, hdec⟩ := h.reads.metadata d.cipher
  obtain ⟨nonce, metaKey, hnonce, hkey, -⟩ := decryptUserDataFull_eq_ok h.reads.valid.cipher_ne hdec
  obtain ⟨newMetaKey, hmeta⟩ := hseal metaKey.toList newContent nonce
  have hcall : ∀ s ∈ obj.segments, ∀ newNonce, ∃ newKey,
      reencryptSegmentKey prim.toPathPrimitives d.cipher oldContent newContent s.keyAndNonce newNonce
        = .ok ⟨some s.position, newNonce.toList, newKey⟩ := by
    intro s hs newNonce
    obtain ⟨nonce, key, hnonce, hsealed⟩ := h.exists_segmentKey hs
    obtain ⟨newKey, hnew⟩ := hseal key.toList newContent newNonce
    refine ⟨newKey, ?_⟩
    rw [reencryptSegmentKey, StoredSegment.keyAndNonce, hnonce, nonceFromSlice_toList,
      Fallible.ok_bind, decryptKey_encryptKey hprim.aesGcm hprim.secretBox hsealed, Fallible.ok_bind,
      encryptKey, hnew, Fallible.ok_bind]
  obtain ⟨newKeys, hkeys⟩ : ∃ newKeys, reencryptSegmentKeys prim.toPathPrimitives
      (obj.segments.map StoredSegment.keyAndNonce) d.cipher oldContent newContent fresh
        = .ok newKeys := by
    refine Fallible.exists_mapM fun old hold => ?_
    obtain ⟨s, hs, hkey⟩ := List.mem_map.mp
      (List.mem_of_getElem? (List.mem_zipIdx_iff_getElem?.mp hold))
    obtain ⟨newKey, hnew⟩ := hcall s hs (fresh old.2)
    exact ⟨_, by rw [← hkey, hnew]⟩
  refine ⟨newMetaKey, nonce.toList, newKeys, ?_, hkeys, fun streamId newBucket newPath => ?_⟩
  · rw [reencryptMetadataKey, if_neg (ne_nil_of_decryptKey hkey), hnonce, Fallible.ok_bind, hkey,
      Fallible.ok_bind, encryptKey, hmeta, Fallible.ok_bind]
  · obtain ⟨segments, hsegments⟩ : ∃ segments, List.Forall₂ (Replaced newKeys) obj.segments segments := by
      refine exists_forall₂ fun s hs => ?_
      obtain ⟨i, hi⟩ := List.mem_iff_getElem?.mp (List.mem_map_of_mem (f := StoredSegment.keyAndNonce) hs)
      obtain ⟨newKey, hnew⟩ := hcall s hs (fresh i)
      have hmem := Fallible.mem_of_mapM (a := (s.keyAndNonce, i)) hkeys
        (List.mem_zipIdx_iff_getElem?.mpr hi) hnew
      exact ⟨{ s with encryptedKeyNonce := (fresh i).toList, encryptedKey := newKey },
        hmem, rfl, rfl, rfl, rfl⟩
    exact ⟨⟨{ obj.info with
      encryptedMetadataEncryptedKey := newMetaKey
      encryptedMetadataNonce := nonce.toList }, segments⟩, rfl, rfl, rfl, rfl, rfl, rfl, hsegments⟩

end Says

end Storj.Client
