import StorjUplink.Client.Objects
import StorjUplink.Access.Grant

/-!
# Commits

`upload_object` and the multipart calls of `project.rs`, from `BeginObject` to `CommitObject`.
What is between them is a run of `World`, one for a whole object and one for every part of a
multipart upload; the parts may be written in any order, at any time, and beside each other, and
the object is their bytes in the order of their numbers.

Both ways end in the same statement (`says_of_commit`): the object says the bytes that were
accepted and the metadata of the commit.

The requests are what the client can be held to, so each call is modelled up to the request that it
sends, with the checks in front of it and in their order, and with the answer of the satellite as
an argument.  The upload ID of a multipart upload is the stream ID with a version byte, in Base58
with a checksum; it is decoded again by every later call, and that decoding gives the stream back
is what ties the calls of one upload together.

`StoredObject.Stores` is the satellite's half: an object is committed with the segments that came
for its stream, in the order of their positions.  Since a part number is the upper half of a
position, the bytes of the object are those of the parts in the order of their numbers, whichever
was written first.
-/

namespace Storj.Client

open Storj.Enc Storj.Access MachineInt Buffer Uplink

/-! ## Beginning

The checks of the bucket, the key and the checksum, the sealed path, and the content key.  The
block size is the one that the answer names.
-/

/-- `ObjectChecksum`; the algorithm is the number of the message, 0 for `None`. -/
structure ObjectChecksum where
  algorithm : ℤ
  composite : Bool
  value : Bytes
deriving DecidableEq

/-- `validate` of `ObjectChecksum`: without an algorithm neither the composite flag nor a value may
be set, and with one the value may be required. -/
def ObjectChecksum.validate (cs : ObjectChecksum) (requireValue : Bool) : Except Error Unit :=
  if cs.algorithm = 0 then
    if cs.composite then
      .error ⟨.metadataInvalid, "checksum composite flag requires a checksum algorithm"⟩
    else if cs.value ≠ [] then
      .error ⟨.metadataInvalid, "checksum value requires a checksum algorithm"⟩
    else .ok ()
  else if requireValue ∧ cs.value = [] then
    .error ⟨.metadataInvalid, "checksum value is required when a checksum algorithm is set"⟩
  else .ok ()

/-- The check of an optional checksum. -/
def validateChecksum (checksum : Option ObjectChecksum) (requireValue : Bool) : Except Error Unit :=
  match checksum with
  | some cs => cs.validate requireValue
  | none => .ok ()

/-- `checksum_plaintext`: the value of the checksum, where it has an algorithm. -/
def checksumPlaintext (checksum : Option ObjectChecksum) : Option Bytes :=
  (checksum.filter fun cs => cs.algorithm ≠ 0).map ObjectChecksum.value

/-- `checksum_header`: the algorithm and the composite flag, zero and false without a checksum. -/
def checksumHeader (checksum : Option ObjectChecksum) : ℤ × Bool :=
  match checksum with
  | some cs => (cs.algorithm, cs.composite)
  | none => (0, false)

/-- `BeginObjectRequest`, the fields that the client sets. -/
structure BeginObjectRequest where
  bucket : Bytes
  encryptedObjectKey : Bytes
  encryptionParameters : Pb.EncryptionParameters
  checksumAlgorithm : ℤ
  isChecksumComposite : Bool
deriving DecidableEq

/-- `BeginObjectResponse`: the stream that was begun, with the parameters of the bucket. -/
structure BeginObjectResponse where
  streamId : Bytes
  encryptionParameters : Option Pb.EncryptionParameters
deriving DecidableEq

/-- The encryption that every `BeginObject` asks for. -/
def uploadParameters : Pb.EncryptionParameters := ⟨2, Uplink.defaultEncryptedBlockSize⟩

/-- The request of `begin_object`, with the fixed parameters of an upload. -/
def beginObject (bucket : String) (encryptedObjectKey : Bytes) (checksum : Option ObjectChecksum) :
    BeginObjectRequest where
  bucket := utf8 bucket
  encryptedObjectKey := encryptedObjectKey
  encryptionParameters := uploadParameters
  checksumAlgorithm := (checksumHeader checksum).1
  isChecksumComposite := (checksumHeader checksum).2

/-- `UploadInner`: the fields that a run leaves as they are. -/
structure UploadTarget where
  encryptedObjectKey : Bytes
  streamId : Bytes
  contentKey : Key
  cipher : CipherSuite
  blockSize : ℕ
  partNumber : ℤ
  checksum : Option ObjectChecksum

/-- `start_upload_object`: names and checksum are checked, then the object is begun under its
encrypted path.  The target takes cipher and block size from the answer. -/
def startUploadObject (prim : PathPrimitives) (store : Store) (bucket key : String)
    (checksum : Option ObjectChecksum)
    (beginCall : BeginObjectRequest → Except Error BeginObjectResponse) :
    Except Error UploadTarget := do
  requireBucketName bucket
  requireObjectKey key
  validateChecksum checksum true
  let encPath ← (encryptPath prim bucket key store).mapError mapEnc
  let begun ← beginCall (beginObject bucket encPath checksum)
  let contentKey ← (deriveContentKey prim bucket (utf8 key) store).mapError mapEnc
  .ok ⟨encPath, begun.streamId, contentKey, cipherFromParams begun.encryptionParameters,
    blockSizeFromParams begun.encryptionParameters, 0, checksum⟩

/-- `STREAM_ID_VERSION`. -/
def streamIdVersion : UInt8 := 1

/-- `encode_upload_id`: the stream id with its version and its checksum. -/
def encodeUploadId (ids : AccessPrimitives) (streamId : Bytes) : String :=
  checkEncode ids streamId streamIdVersion

/-- `decode_upload_id`, with the error as the public crate shows it. -/
def decodeUploadId (ids : AccessPrimitives) (uploadId : String) : Except Error Bytes :=
  let invalid : Error := ⟨.uploadIdInvalid, "upload ID invalid"⟩
  if uploadId = "" then .error invalid
  else
    match checkDecode ids uploadId with
    | .error _ => .error invalid
    | .ok (payload, version) => if version ≠ streamIdVersion then .error invalid else .ok payload

/-- `begin_upload`: the upload ID that it returns.  A checksum may still be without its value here,
since it is known only at the commit. -/
def beginUpload (prim : PathPrimitives) (ids : AccessPrimitives) (store : Store) (bucket key : String)
    (checksum : Option ObjectChecksum)
    (beginCall : BeginObjectRequest → Except Error BeginObjectResponse) : Except Error String := do
  requireBucketName bucket
  requireObjectKey key
  validateChecksum checksum false
  let encPath ← (encryptPath prim bucket key store).mapError mapEnc
  let begun ← beginCall (beginObject bucket encPath checksum)
  .ok (encodeUploadId ids begun.streamId)

/-- The number of a part in the messages. -/
def partNumberI32 (partNumber : ℕ) : Except Error ℤ :=
  if i32Max < partNumber then .error ⟨.protocol, "partNumber should be less than max(int32)"⟩
  else .ok partNumber

/-- `start_upload_part`: the stream id is read off the upload ID, and the segments are encrypted
with the default cipher and block size. -/
def startUploadPart (prim : PathPrimitives) (ids : AccessPrimitives) (store : Store)
    (bucket key uploadId : String) (partNumber : ℕ) : Except Error UploadTarget := do
  requireBucketName bucket
  requireObjectKey key
  let streamId ← decodeUploadId ids uploadId
  let number ← partNumberI32 partNumber
  let encPath ← (encryptPath prim bucket key store).mapError mapEnc
  let contentKey ← (deriveContentKey prim bucket (utf8 key) store).mapError mapEnc
  .ok ⟨encPath, streamId, contentKey, .aesGcm, Uplink.defaultEncryptedBlockSize, number, none⟩

/-! ## Committing

The last request of either kind of upload.  It has the sealed metadata, and for a multipart upload
no sizes, which nobody knows at that point.
-/

/-- `CommitObjectRequest`: the stream, the encrypted metadata with its key and nonce, the ETag and
the checksum. -/
structure CommitObjectRequest where
  streamId : Bytes
  encryptedMetadata : Bytes
  encryptedMetadataNonce : Bytes
  encryptedMetadataEncryptedKey : Bytes
  encryptedEtag : Bytes
  checksumAlgorithm : ℤ
  isChecksumComposite : Bool
  encryptedChecksum : Bytes
deriving DecidableEq

/-- The request of `commit_object`. -/
def commitObject (streamId : Bytes) (user : EncryptedUserData) (checksum : Option ObjectChecksum) :
    CommitObjectRequest where
  streamId := streamId
  encryptedMetadata := user.encryptedMetadata
  encryptedMetadataNonce := user.encryptedMetadataNonce.toList
  encryptedMetadataEncryptedKey := user.encryptedMetadataEncryptedKey
  encryptedEtag := user.encryptedEtag
  checksumAlgorithm := (checksumHeader checksum).1
  isChecksumComposite := (checksumHeader checksum).2
  encryptedChecksum := user.encryptedChecksum

/-- `commit_upload` of a multipart upload: the request that it sends. -/
def commitMultipart (prim : MetaPrimitives) (ids : AccessPrimitives) (store : Store)
    (bucket key uploadId : String) (custom : CustomMetadata) (checksum : Option ObjectChecksum)
    (metadataKey : Key) (nonce : Nonce) : Except Error CommitObjectRequest := do
  requireBucketName bucket
  requireObjectKey key
  verifyCustomMetadata custom.toList
  validateChecksum checksum true
  let streamId ← decodeUploadId ids uploadId
  let contentKey ← (deriveContentKey prim.toPathPrimitives bucket (utf8 key) store).mapError mapEnc
  let user ← encryptUserData prim custom.toList 0 0 0 .aesGcm contentKey
    Uplink.defaultEncryptedBlockSize (checksumPlaintext checksum) metadataKey nonce
  .ok (commitObject streamId user checksum)

variable {H : Type} {prim : MetaPrimitives}

/-! ## What was committed

A row of parts with their segments and bytes, and the statement of what the satellite makes of it.
-/

/-- A row of increasing part numbers, each with its segments and the bytes that were written. -/
structure PartsOf (parts : List (ℤ × List SegmentCommit × Bytes)) : Prop where
  increasing : parts.Pairwise fun s t => s.1 < t.1
  partition : ∀ part ∈ parts, World.Partition part.1 part.2.1 part.2.2

/-- The segments of a part are in order. -/
lemma ordered_of_partition {p : ℤ} {segments : List SegmentCommit} {data : Bytes}
    (h : World.Partition p segments data) :
    segments.Pairwise fun s t => positionLe (s.partNumber, s.index) (t.partNumber, t.index) ∧
      (s.partNumber, s.index) ≠ (t.partNumber, t.index) := by
  have hindex : segments.Pairwise fun s t => s.index < t.index := by
    have hmap : (segments.map SegmentCommit.index).Pairwise (· < ·) := by
      rw [h.index_eq]
      exact List.pairwise_map.mpr (List.pairwise_lt_range.imp fun hlt => Int.ofNat_lt.mpr hlt)
    exact List.pairwise_map.mp hmap
  refine hindex.imp_of_mem fun hs ht hlt => ⟨?_, fun heq => ?_⟩
  · simp only [positionLe, decide_eq_true_eq]
    exact Or.inr ⟨(h.part _ hs).trans (h.part _ ht).symm, hlt.le⟩
  · rw [Prod.mk.injEq] at heq
    omega

/-- **Parts one after the other** make an object. -/
lemma PartsOf.assembly {parts : List (ℤ × List SegmentCommit × Bytes)} (h : PartsOf parts) :
    Assembly (parts.flatMap fun part => part.2.1) (parts.flatMap fun part => part.2.2) := by
  constructor
  · rw [List.pairwise_flatMap]
    refine ⟨fun part hpart => ordered_of_partition (h.partition part hpart), ?_⟩
    refine h.increasing.imp_of_mem fun {p q} hp hq hlt s hs t ht => ?_
    have hsp := (h.partition p hp).part s hs
    have htq := (h.partition q hq).part t ht
    refine ⟨?_, fun heq => ?_⟩
    · simp only [positionLe, decide_eq_true_eq]
      omega
    · rw [Prod.mk.injEq] at heq
      omega
  · rw [List.flatMap_assoc]
    have hpartition := h.partition
    clear h
    induction parts with
    | nil => rfl
    | cons part parts ih =>
        rw [List.flatMap_cons, List.flatMap_cons, (hpartition part List.mem_cons_self).plain_eq,
          ih fun q hq => hpartition q (List.mem_cons_of_mem _ hq)]

/-- **What the satellite stores when an object is committed**: the metadata of the request, and the
segments that were committed, in the order of their positions, whose sizes it adds up. -/
structure StoredObject.Stores (obj : StoredObject H) (parameters : Option Pb.EncryptionParameters)
    (segments : List (StoredSegment H)) (request : CommitObjectRequest) : Prop where
  encryptionParameters : obj.info.encryptionParameters = parameters
  metadata : obj.info.encryptedMetadata = request.encryptedMetadata
  metadataKey : obj.info.encryptedMetadataEncryptedKey = request.encryptedMetadataEncryptedKey
  metadataNonce : obj.info.encryptedMetadataNonce = request.encryptedMetadataNonce
  checksum : obj.info.encryptedChecksum = request.encryptedChecksum
  perm : obj.segments.Perm segments
  ordered : obj.segments.Pairwise fun s t => positionLe s.position t.position
  plainSize : obj.info.plainSize = (segments.map StoredSegment.plainSize).sum

lemma StoredObject.Stores.holds {obj : StoredObject H} {parameters : Option Pb.EncryptionParameters}
    {segments : List (StoredSegment H)} {streamId : Bytes} {user : EncryptedUserData}
    {checksum : Option ObjectChecksum}
    (h : obj.Stores parameters segments (commitObject streamId user checksum)) :
    obj.info.toObjectRecord.Holds user :=
  ⟨h.metadata, h.metadataKey, h.metadataNonce, h.checksum⟩

/-- `commit_one_segment` left `s` for the job. -/
def CommittedAs (prim : PathPrimitives) (cipher : CipherSuite) (blockSize : ℕ) (contentKey : Key)
    (job : SegmentCommit) (s : StoredSegment H) : Prop :=
  ∃ calls : CommitCalls H, commitOneSegment prim calls cipher blockSize contentKey job = .ok s

/-- The sizes of the segments add up to that of the bytes. -/
lemma sum_plainSize {prim : PathPrimitives} {cipher : CipherSuite} {block : ℕ} {contentKey : Key}
    {jobs : List SegmentCommit} {segments : List (StoredSegment H)}
    (h : List.Forall₂ (fun job s => ∃ key, IsStored prim cipher block contentKey key job s) jobs
      segments) (hfits : ((jobs.flatMap SegmentCommit.plain).length : ℤ) ≤ i64Max) :
    (segments.map StoredSegment.plainSize).sum = (jobs.flatMap SegmentCommit.plain).length := by
  induction h with
  | nil => rfl
  | cons hjob _ ih =>
      obtain ⟨key, hstored⟩ := hjob
      rw [List.flatMap_cons, List.length_append, Nat.cast_add] at hfits ⊢
      have hsize := natCast_isizeMax
      rw [List.map_cons, List.sum_cons, ih (by omega), hstored.plainSize, lastPlain,
        satI64_natCast (by omega)]

/-- The segments of the object are those that were committed, in their order. -/
lemma StoredObject.Stores.segments_eq {obj : StoredObject H}
    {parameters : Option Pb.EncryptionParameters} {segments segments' : List (StoredSegment H)}
    {request : CommitObjectRequest} (h : obj.Stores parameters segments request)
    {jobs : List SegmentCommit} {data : Bytes} (hjobs : Assembly jobs data)
    (hpositions : segments'.map StoredSegment.position
      = jobs.map fun job => (job.partNumber, job.index)) (hperm : segments'.Perm segments) :
    obj.segments = segments' := by
  have hordered : segments'.Pairwise fun s t =>
      positionLe s.position t.position ∧ s.position ≠ t.position := by
    have hmap : (segments'.map StoredSegment.position).Pairwise fun p q => positionLe p q ∧ p ≠ q := by
      rw [hpositions]
      exact List.pairwise_map.mpr hjobs.ordered
    exact List.pairwise_map.mp hmap
  have hnodup : (segments'.map StoredSegment.position).Nodup :=
    List.pairwise_map.mpr (hordered.imp fun h => h.2)
  have hsame := h.perm.trans hperm.symm
  refine hsame.eq_of_pairwise (fun s t hs ht hst hts => ?_) h.ordered (hordered.imp fun h => h.1)
  refine List.inj_on_of_nodup_map hnodup (hsame.mem_iff.mp hs) ht ?_
  simp only [positionLe, decide_eq_true_eq] at hst hts
  exact Prod.ext (by omega) (by omega)

/-- What a commit leaves: the record of what `encrypt_user_data` made, and every segment. -/
lemma says_of_commit (hprim : prim.Lawful) {contentKey : Key} {obj : StoredObject H}
    {custom : CustomMetadata} {segmentSize lastSegmentSize numberOfSegments : ℤ}
    (hseg : InI64 segmentSize) (hlast : InI64 lastSegmentSize) (hnumber : InI64 numberOfSegments)
    {parameters : Option Pb.EncryptionParameters} {cipher : CipherSuite} (hcode : InI32 cipher.code)
    (hcipher : cipherFromParams parameters = cipher) {block : ℕ} (hpos : block ≠ 0)
    (hblock : (block : ℤ) ≤ i32Max) {checksum : Option ObjectChecksum} {metadataKey : Key}
    {nonce : Nonce} {user : EncryptedUserData} {streamId : Bytes}
    (hu : encryptUserData prim custom.toList segmentSize lastSegmentSize numberOfSegments cipher
      contentKey block (checksumPlaintext checksum) metadataKey nonce = .ok user)
    {segments segments' : List (StoredSegment H)}
    (ho : obj.Stores parameters segments (commitObject streamId user checksum))
    {jobs : List SegmentCommit} {data : Bytes} (hjobs : Assembly jobs data)
    (hsegments : List.Forall₂ (CommittedAs prim.toPathPrimitives cipher block contentKey) jobs
      segments') (hperm : segments'.Perm segments) (hfits : (data.length : ℤ) ≤ i64Max) :
    Says prim contentKey obj ⟨custom, segmentSize, lastSegmentSize, numberOfSegments, cipher, block,
      (checksumPlaintext checksum).getD []⟩ data := by
  have hreads := encryptUserData_reads hprim hseg hlast hnumber hcode hu ho.holds
  rw [blockOrDefault, if_neg hpos, min_eq_left hblock] at hreads
  have hstored : List.Forall₂ (fun job s => ∃ key,
      IsStored prim.toPathPrimitives cipher block contentKey key job s) jobs segments' := by
    refine hsegments.imp fun job s => ?_
    rintro ⟨calls, hs⟩
    exact ⟨calls.segmentKey, isStored_of_commit hs⟩
  have heq := ho.segments_eq hjobs (positions_eq hstored) hperm
  refine ⟨hreads, by rw [ho.encryptionParameters, hcipher], ⟨jobs, hjobs, heq ▸ hstored⟩, ?_, hfits⟩
  rw [ho.plainSize, ← (hperm.map StoredSegment.plainSize).sum_eq,
    sum_plainSize hstored (by rw [hjobs.data_eq]; exact hfits), hjobs.data_eq]

namespace World

/-- What `commit_upload` has done when it sends its request. -/
lemma Inv.sent {w : World} {p : ℤ} (h : w.Inv p) {env : CommitEnv} {request : CommitObject}
    (hsent : (w.commitUpload env).sent = some request) :
    Partition p (w.commitUpload env).world.committed w.accepted ∧
      Totals (w.commitUpload env).world.inner (w.commitUpload env).world.committed w.accepted ∧
      request.segmentSize = maxSegmentSize ∧
      request.lastSegmentSize = (w.commitUpload env).world.inner.lastSegmentPlain ∧
      request.numberOfSegments = (w.commitUpload env).world.inner.nextSegment := by
  rw [commitUpload] at hsent ⊢
  split at hsent
  · cases hsent
  · next hfail =>
      split at hsent
      · cases hsent
      · split at hsent
        · cases hsent
        · next v hv =>
            obtain ⟨-, hpart, htotals⟩ := h.finishSegments (failed_eq_none_of_failedError hfail) hv
            split at hsent
            · cases hsent
            · cases hsent
              exact ⟨hpart, htotals, rfl, rfl, rfl⟩

/-- What `commit_part` has done when it reports success. -/
lemma Inv.commitPart {w : World} {p : ℤ} (h : w.Inv p) {env : CommitEnv}
    (hcommit : (w.commitPart env).1 = .ok ()) :
    Partition p (w.commitPart env).2.committed w.accepted := by
  rw [World.commitPart] at hcommit ⊢
  split at hcommit
  · cases hcommit
  · next hfail =>
      exact (h.finishSegments (failed_eq_none_of_failedError hfail) (Prod.ext hcommit rfl)).2.1

/-- The segments before the last one are full. -/
lemma Partition.length_le {p : ℤ} {segments : List SegmentCommit} {data : Bytes}
    (h : Partition p segments data) : (segments.length - 1) * maxSegmentSize ≤ data.length := by
  have hsum : ∀ l : List SegmentCommit, (∀ s ∈ l, s.plain.length = maxSegmentSize) →
      (l.flatMap SegmentCommit.plain).length = l.length * maxSegmentSize := by
    intro l hl
    induction l with
    | nil => simp
    | cons s l ih =>
        rw [List.flatMap_cons, List.length_append, hl s List.mem_cons_self,
          ih fun t ht => hl t (List.mem_cons_of_mem _ ht), List.length_cons]
        ring
  rw [← List.length_dropLast, ← hsum _ h.full, ← h.plain_eq]
  exact ((List.dropLast_sublist segments).flatMap SegmentCommit.plain).length_le

/-- The last segment is not longer than the bytes. -/
lemma Partition.last_le {p : ℤ} {segments : List SegmentCommit} {data : Bytes}
    (h : Partition p segments data) {s : SegmentCommit} (hs : segments.getLast? = some s) :
    s.plain.length ≤ data.length := by
  obtain ⟨before, after, hsplit⟩ := List.append_of_mem (List.mem_of_getLast? hs)
  rw [← h.plain_eq, hsplit, List.flatMap_append, List.flatMap_cons]
  simp only [List.length_append]
  omega

end World

/-! ## How an object comes to be

Both ways are constructors of one relation, so that everything later is said of objects, and not of
the calls that made them.
-/

/-- A part that was uploaded and committed: its number with the bytes that were accepted, and the
segments it left. -/
inductive PartCommitted (prim : PathPrimitives) (ids : AccessPrimitives) (store : Store)
    (bucket key uploadId : String) : ℕ × Bytes → List (StoredSegment H) → Prop
  | mk {number : ℕ} {target : UploadTarget} {ops : List Op} {w : World} {env : World.CommitEnv}
      {segments : List (StoredSegment H)}
      (start : startUploadPart prim ids store bucket key uploadId number = .ok target)
      (run : Machine.run World.step (World.init target.partNumber) ops = some w)
      (commit : (w.commitPart env).1 = .ok ())
      (committed : List.Forall₂
        (CommittedAs prim target.cipher target.blockSize target.contentKey)
        (w.commitPart env).2.committed segments) :
      PartCommitted prim ids store bucket key uploadId (number, w.accepted) segments

/-- The parts in the order of their numbers. -/
def sortParts (parts : List (ℕ × Bytes)) : List (ℕ × Bytes) :=
  parts.mergeSort fun p q => p.1 ≤ q.1

/-- The numbers of the message are those of its types; a block is not longer than the number in the
metadata can say. -/
def BeginObjectResponse.InRange (begun : BeginObjectResponse) : Prop :=
  ∀ p, begun.encryptionParameters = some p → InI32 p.cipherSuite ∧ p.blockSize ≤ i32Max

/-- **How an object comes to be**, with its bytes and its custom metadata: one upload that sends
`CommitObject`, or any parts of a multipart upload that were committed, one for a number. -/
inductive Commits (prim : MetaPrimitives) (store : Store) (bucket key : String) :
    Bytes → CustomMetadata → StoredObject H → Prop
  | upload {checksum : Option ObjectChecksum} {begun : BeginObjectResponse} {target : UploadTarget}
      {ops : List Op} {w : World} {env : World.CommitEnv} {request : World.CommitObject}
      {custom : CustomMetadata} {metadataKey : Key} {nonce : Nonce} {user : EncryptedUserData}
      {segments : List (StoredSegment H)} {obj : StoredObject H}
      (start : startUploadObject prim.toPathPrimitives store bucket key checksum
        (fun _ => .ok begun) = .ok target)
      (range : begun.InRange)
      (run : Machine.run World.step (World.init target.partNumber) ops = some w)
      (sent : (w.commitUpload env).sent = some request)
      (custom_eq : w.inner.custom = custom.toList)
      (user_eq : encryptUserData prim w.inner.custom request.segmentSize request.lastSegmentSize
        request.numberOfSegments target.cipher target.contentKey target.blockSize
        (checksumPlaintext target.checksum) metadataKey nonce = .ok user)
      (committed : List.Forall₂
        (CommittedAs prim.toPathPrimitives target.cipher target.blockSize target.contentKey)
        (w.commitUpload env).world.committed segments)
      (stored : obj.Stores begun.encryptionParameters segments
        (commitObject target.streamId user target.checksum))
      (fits : (w.accepted.length : ℤ) ≤ i64Max) :
      Commits prim store bucket key w.accepted custom obj
  | multipart {ids : AccessPrimitives} {uploadId : String} {parts : List (ℕ × Bytes)}
      {segments : List (List (StoredSegment H))} {custom : CustomMetadata}
      {checksum : Option ObjectChecksum} {metadataKey : Key} {nonce : Nonce}
      {request : CommitObjectRequest} {obj : StoredObject H}
      (distinct : (parts.map Prod.fst).Nodup)
      (committed : List.Forall₂
        (PartCommitted prim.toPathPrimitives ids store bucket key uploadId) parts segments)
      (sent : commitMultipart prim ids store bucket key uploadId custom checksum metadataKey nonce
        = .ok request)
      (stored : obj.Stores (some uploadParameters) segments.flatten request)
      (fits : (((sortParts parts).flatMap Prod.snd).length : ℤ) ≤ i64Max) :
      Commits prim store bucket key ((sortParts parts).flatMap Prod.snd) custom obj

/-- The key of an upload is the content key of its path. -/
lemma startUploadObject_eq_ok {prim : PathPrimitives} {store : Store} {bucket key : String}
    {checksum : Option ObjectChecksum}
    {beginCall : BeginObjectRequest → Except Error BeginObjectResponse} {target : UploadTarget}
    (h : startUploadObject prim store bucket key checksum beginCall = .ok target) :
    ∃ begun, beginCall (beginObject bucket target.encryptedObjectKey checksum) = .ok begun ∧
      encryptPath prim bucket key store = .ok target.encryptedObjectKey ∧
      deriveContentKey prim bucket (utf8 key) store = .ok target.contentKey ∧
      target.cipher = cipherFromParams begun.encryptionParameters ∧
      target.blockSize = blockSizeFromParams begun.encryptionParameters ∧
      target.partNumber = 0 ∧ target.checksum = checksum := by
  rw [startUploadObject] at h
  obtain ⟨_, -, h⟩ := Fallible.bind_eq_ok.mp h
  obtain ⟨_, -, h⟩ := Fallible.bind_eq_ok.mp h
  obtain ⟨_, -, h⟩ := Fallible.bind_eq_ok.mp h
  obtain ⟨encPath, henc, h⟩ := Fallible.bind_eq_ok.mp h
  obtain ⟨begun, hbegun, h⟩ := Fallible.bind_eq_ok.mp h
  obtain ⟨contentKey, hkey, h⟩ := Fallible.bind_eq_ok.mp h
  cases h
  exact ⟨begun, hbegun, mapError_eq_ok.mp henc, mapError_eq_ok.mp hkey, rfl, rfl, rfl, rfl⟩

/-- The key of a part is that of the object. -/
lemma startUploadPart_eq_ok {prim : PathPrimitives} {ids : AccessPrimitives} {store : Store}
    {bucket key uploadId : String} {number : ℕ} {target : UploadTarget}
    (h : startUploadPart prim ids store bucket key uploadId number = .ok target) :
    deriveContentKey prim bucket (utf8 key) store = .ok target.contentKey ∧
      target.cipher = .aesGcm ∧ target.blockSize = Uplink.defaultEncryptedBlockSize ∧
      target.partNumber = number := by
  rw [startUploadPart] at h
  obtain ⟨_, -, h⟩ := Fallible.bind_eq_ok.mp h
  obtain ⟨_, -, h⟩ := Fallible.bind_eq_ok.mp h
  obtain ⟨_, -, h⟩ := Fallible.bind_eq_ok.mp h
  obtain ⟨n, hn, h⟩ := Fallible.bind_eq_ok.mp h
  obtain ⟨_, -, h⟩ := Fallible.bind_eq_ok.mp h
  obtain ⟨contentKey, hkey, h⟩ := Fallible.bind_eq_ok.mp h
  cases h
  rw [partNumberI32] at hn
  split_ifs at hn
  cases hn
  exact ⟨mapError_eq_ok.mp hkey, rfl, rfl, rfl⟩

/-- The key of a commit is that of the object. -/
lemma commitMultipart_eq_ok {ids : AccessPrimitives} {store : Store} {bucket key uploadId : String}
    {custom : CustomMetadata} {checksum : Option ObjectChecksum} {metadataKey : Key} {nonce : Nonce}
    {request : CommitObjectRequest}
    (h : commitMultipart prim ids store bucket key uploadId custom checksum metadataKey nonce
      = .ok request) :
    ∃ contentKey streamId user,
      deriveContentKey prim.toPathPrimitives bucket (utf8 key) store = .ok contentKey ∧
      encryptUserData prim custom.toList 0 0 0 .aesGcm contentKey Uplink.defaultEncryptedBlockSize
        (checksumPlaintext checksum) metadataKey nonce = .ok user ∧
      request = commitObject streamId user checksum := by
  rw [commitMultipart] at h
  obtain ⟨_, -, h⟩ := Fallible.bind_eq_ok.mp h
  obtain ⟨_, -, h⟩ := Fallible.bind_eq_ok.mp h
  obtain ⟨_, -, h⟩ := Fallible.bind_eq_ok.mp h
  obtain ⟨_, -, h⟩ := Fallible.bind_eq_ok.mp h
  obtain ⟨streamId, -, h⟩ := Fallible.bind_eq_ok.mp h
  obtain ⟨contentKey, hkey, h⟩ := Fallible.bind_eq_ok.mp h
  obtain ⟨user, huser, h⟩ := Fallible.bind_eq_ok.mp h
  cases h
  exact ⟨contentKey, streamId, user, mapError_eq_ok.mp hkey, huser, rfl⟩

/-- A block is never empty. -/
lemma blockSizeFromParams_ne (parameters : Option Pb.EncryptionParameters) :
    blockSizeFromParams parameters ≠ 0 := by
  rw [blockSizeFromParams]
  split
  · next b hb =>
      rw [Option.filter_eq_some_iff, decide_eq_true_eq] at hb
      omega
  · decide

lemma inI32_cipherFromParams {parameters : Option Pb.EncryptionParameters}
    (h : ∀ p, parameters = some p → InI32 p.cipherSuite) :
    InI32 (cipherFromParams parameters).code := by
  cases parameters with
  | none => exact ⟨by decide, by decide⟩
  | some p =>
      show InI32 (if p.cipherSuite = 2 ∨ p.cipherSuite = 0 then CipherSuite.aesGcm
        else ⟨p.cipherSuite⟩).code
      split_ifs
      · exact ⟨by decide, by decide⟩
      · exact h p rfl

lemma blockSizeFromParams_le {parameters : Option Pb.EncryptionParameters}
    (h : ∀ p, parameters = some p → p.blockSize ≤ i32Max) :
    (blockSizeFromParams parameters : ℤ) ≤ i32Max := by
  rw [blockSizeFromParams]
  split
  · next b hb =>
      rw [Option.filter_eq_some_iff, decide_eq_true_eq] at hb
      obtain ⟨p, hp, rfl⟩ := Option.map_eq_some_iff.mp hb.1
      have hle := h p hp
      omega
  · decide

namespace World

/-- The sizes in the request are numbers of its type. -/
lemma Totals.inRange {p : ℤ} {u : UploadInner} {segments : List SegmentCommit} {data : Bytes}
    (h : Totals u segments data) (hpart : Partition p segments data)
    (hfits : (data.length : ℤ) ≤ i64Max) : InI64 u.lastSegmentPlain ∧ InI64 u.nextSegment := by
  constructor
  · obtain ⟨s, hs, hlast⟩ := Option.map_eq_some_iff.mp h.last_eq
    have hle := hpart.last_le hs
    rw [← hlast]
    exact ⟨by simp only [i64Min]; omega, by omega⟩
  · have hle := hpart.length_le
    rw [h.next_eq]
    simp only [InI64, i64Min, i64Max, maxSegmentSize] at hfits hle ⊢
    omega

end World

/-- An upload says the bytes that it accepted. -/
lemma says_of_upload (hprim : prim.Lawful) {store : Store} {bucket key : String}
    {checksum : Option ObjectChecksum} {begun : BeginObjectResponse} {target : UploadTarget}
    {ops : List Op} {w : World} {env : World.CommitEnv} {request : World.CommitObject}
    {custom : CustomMetadata} {metadataKey : Key} {nonce : Nonce} {user : EncryptedUserData}
    {segments : List (StoredSegment H)} {obj : StoredObject H}
    (start : startUploadObject prim.toPathPrimitives store bucket key checksum
      (fun _ => .ok begun) = .ok target)
    (range : begun.InRange)
    (run : Machine.run World.step (World.init target.partNumber) ops = some w)
    (sent : (w.commitUpload env).sent = some request)
    (user_eq : encryptUserData prim custom.toList request.segmentSize request.lastSegmentSize
      request.numberOfSegments target.cipher target.contentKey target.blockSize
      (checksumPlaintext target.checksum) metadataKey nonce = .ok user)
    (committed : List.Forall₂
      (CommittedAs prim.toPathPrimitives target.cipher target.blockSize target.contentKey)
      (w.commitUpload env).world.committed segments)
    (stored : obj.Stores begun.encryptionParameters segments
      (commitObject target.streamId user target.checksum))
    (fits : (w.accepted.length : ℤ) ≤ i64Max) :
    deriveContentKey prim.toPathPrimitives bucket (utf8 key) store = .ok target.contentKey ∧
      ∃ d : UserData, d.custom = custom ∧ Says prim target.contentKey obj d w.accepted := by
  obtain ⟨begun', hbegun, -, hkey, hcipher, hblock, -, -⟩ := startUploadObject_eq_ok start
  cases hbegun
  obtain ⟨hpart, htotals, hseg, hlast, hnumber⟩ := (World.inv_of_run run).sent sent
  obtain ⟨hlastRange, hnumberRange⟩ := htotals.inRange hpart fits
  have hjobs : Assembly (w.commitUpload env).world.committed w.accepted := by
    have hone : PartsOf
        [(target.partNumber, (w.commitUpload env).world.committed, w.accepted)] := by
      refine ⟨List.pairwise_singleton _ _, fun part hmem => ?_⟩
      obtain rfl := List.mem_singleton.mp hmem
      exact hpart
    simpa using hone.assembly
  refine ⟨hkey, _, rfl, says_of_commit hprim (by rw [hseg]; decide) (hlast ▸ hlastRange)
    (hnumber ▸ hnumberRange) ?_ hcipher.symm ?_ ?_ user_eq stored hjobs committed
    (List.Perm.refl _) fits⟩
  · rw [hcipher]
    exact inI32_cipherFromParams fun p hp => (range p hp).1
  · rw [hblock]
    exact blockSizeFromParams_ne _
  · rw [hblock]
    exact blockSizeFromParams_le fun p hp => (range p hp).2

/-- Rows of related lists, one after the other. -/
lemma forall₂_flatMap {ι α β : Type*} {R : α → β → Prop} {rows : List ι} {f : ι → List α}
    {g : ι → List β} (h : ∀ row ∈ rows, List.Forall₂ R (f row) (g row)) :
    List.Forall₂ R (rows.flatMap f) (rows.flatMap g) := by
  induction rows with
  | nil => exact .nil
  | cons row rows ih =>
      rw [List.flatMap_cons, List.flatMap_cons]
      exact List.rel_append (h row List.mem_cons_self)
        (ih fun r hr => h r (List.mem_cons_of_mem _ hr))

/-- A part that was committed, with what the proof needs of it. -/
structure PartRow (H : Type) where
  number : ℕ
  data : Bytes
  jobs : List SegmentCommit
  segments : List (StoredSegment H)

/-- The jobs of a part are its bytes, and its segments were committed for them. -/
structure PartRow.Holds (prim : PathPrimitives) (contentKey : Key) (row : PartRow H) : Prop where
  partition : World.Partition row.number row.jobs row.data
  committed : List.Forall₂ (CommittedAs prim .aesGcm Uplink.defaultEncryptedBlockSize contentKey)
    row.jobs row.segments

/-- What a part that was committed left behind. -/
lemma PartCommitted.exists_row {prim : PathPrimitives} {ids : AccessPrimitives} {store : Store}
    {bucket key uploadId : String} {contentKey : Key}
    (hkey : deriveContentKey prim bucket (utf8 key) store = .ok contentKey) {part : ℕ × Bytes}
    {segments : List (StoredSegment H)}
    (h : PartCommitted prim ids store bucket key uploadId part segments) :
    ∃ row : PartRow H, (row.number, row.data) = part ∧ row.segments = segments ∧
      row.Holds prim contentKey := by
  cases h with
  | @mk number target ops w env segments start run commit committed =>
      obtain ⟨hkey', hcipher, hblock, hnumber⟩ := startUploadPart_eq_ok start
      obtain rfl : contentKey = target.contentKey := Except.ok.inj (hkey.symm.trans hkey')
      have hpart := (World.inv_of_run run).commitPart commit
      rw [hcipher, hblock] at committed
      rw [hnumber] at hpart
      exact ⟨⟨number, w.accepted, _, segments⟩, rfl, rfl, hpart, committed⟩

/-- All parts of an upload. -/
lemma exists_rows {prim : PathPrimitives} {ids : AccessPrimitives} {store : Store}
    {bucket key uploadId : String} {contentKey : Key}
    (hkey : deriveContentKey prim bucket (utf8 key) store = .ok contentKey) {parts : List (ℕ × Bytes)}
    {segments : List (List (StoredSegment H))}
    (h : List.Forall₂ (PartCommitted prim ids store bucket key uploadId) parts segments) :
    ∃ rows : List (PartRow H), rows.map (fun row => (row.number, row.data)) = parts ∧
      rows.map PartRow.segments = segments ∧ ∀ row ∈ rows, row.Holds prim contentKey := by
  induction h with
  | nil => exact ⟨[], rfl, rfl, nofun⟩
  | cons hpart _ ih =>
      obtain ⟨row, hrow, hsegments, hholds⟩ := hpart.exists_row hkey
      obtain ⟨rows, hparts, hall, hrows⟩ := ih
      refine ⟨row :: rows, by rw [List.map_cons, hrow, hparts], by rw [List.map_cons, hsegments, hall],
        fun r hr => ?_⟩
      cases List.mem_cons.mp hr with
      | inl heq => exact heq ▸ hholds
      | inr hmem => exact hrows r hmem

/-- **A multipart upload says the bytes of its parts**, in the order of their numbers. -/
lemma says_of_multipart (hprim : prim.Lawful) {ids : AccessPrimitives} {store : Store}
    {bucket key uploadId : String} {parts : List (ℕ × Bytes)}
    {segments : List (List (StoredSegment H))} {custom : CustomMetadata}
    {checksum : Option ObjectChecksum} {metadataKey : Key} {nonce : Nonce}
    {request : CommitObjectRequest} {obj : StoredObject H} (distinct : (parts.map Prod.fst).Nodup)
    (committed : List.Forall₂
      (PartCommitted prim.toPathPrimitives ids store bucket key uploadId) parts segments)
    (sent : commitMultipart prim ids store bucket key uploadId custom checksum metadataKey nonce
      = .ok request)
    (stored : obj.Stores (some uploadParameters) segments.flatten request)
    (fits : (((sortParts parts).flatMap Prod.snd).length : ℤ) ≤ i64Max) :
    ∃ contentKey, deriveContentKey prim.toPathPrimitives bucket (utf8 key) store = .ok contentKey ∧
      ∃ d : UserData, d.custom = custom ∧
        Says prim contentKey obj d ((sortParts parts).flatMap Prod.snd) := by
  obtain ⟨contentKey, streamId, user, hkey, huser, rfl⟩ := commitMultipart_eq_ok sent
  obtain ⟨rows, rfl, rfl, hrows⟩ := exists_rows hkey committed
  let sorted := rows.mergeSort fun r s => r.number ≤ s.number
  have hperm : sorted.Perm rows := List.mergeSort_perm _ _
  have hsorted : sorted.map (fun row => (row.number, row.data))
      = sortParts (rows.map fun row => (row.number, row.data)) :=
    List.map_mergeSort fun r _ s _ => rfl
  have hincreasing : sorted.Pairwise fun r s => r.number < s.number := by
    have hle : sorted.Pairwise fun r s => r.number ≤ s.number :=
      (List.pairwise_mergeSort (by simp; omega) (by simp; omega) rows).imp (by simp)
    have hne : sorted.Pairwise fun r s => r.number ≠ s.number := by
      rw [List.map_map] at distinct
      exact List.pairwise_map.mp ((hperm.map PartRow.number).nodup_iff.mpr distinct)
    exact (hle.and hne).imp fun h => lt_of_le_of_ne h.1 h.2
  have hparts : PartsOf (sorted.map fun row => ((row.number : ℤ), row.jobs, row.data)) := by
    refine ⟨List.pairwise_map.mpr (hincreasing.imp Int.ofNat_lt.mpr), fun part hmem => ?_⟩
    obtain ⟨row, hrow, rfl⟩ := List.mem_map.mp hmem
    exact (hrows row (hperm.mem_iff.mp hrow)).partition
  have hjobs := hparts.assembly
  rw [List.flatMap_map, List.flatMap_map] at hjobs
  have hcommitted : List.Forall₂ (CommittedAs prim.toPathPrimitives .aesGcm
      Uplink.defaultEncryptedBlockSize contentKey) (sorted.flatMap PartRow.jobs)
      (sorted.flatMap PartRow.segments) :=
    forall₂_flatMap fun row hrow => (hrows row (hperm.mem_iff.mp hrow)).committed
  refine ⟨contentKey, hkey, _, rfl, says_of_commit hprim ⟨by decide, by decide⟩ ⟨by decide, by decide⟩
    ⟨by decide, by decide⟩ ⟨by decide, by decide⟩ rfl (by decide) (by decide) huser stored ?_
    hcommitted ?_ fits⟩
  · rw [← hsorted, List.flatMap_map]
    exact hjobs
  · rw [← List.flatMap_def]
    exact hperm.flatMap_right _

/-- **What the client commits**, the object says. -/
theorem Commits.content (hprim : prim.Lawful) {store : Store} {bucket key : String} {data : Bytes}
    {custom : CustomMetadata} {obj : StoredObject H} (h : Commits prim store bucket key data custom obj) :
    ∃ contentKey, deriveContentKey prim.toPathPrimitives bucket (utf8 key) store = .ok contentKey ∧
      ∃ d : UserData, d.custom = custom ∧ Says prim contentKey obj d data := by
  cases h with
  | upload start range run sent custom_eq user_eq committed stored fits =>
      rw [custom_eq] at user_eq
      exact ⟨_, says_of_upload hprim start range run sent user_eq committed stored fits⟩
  | multipart distinct committed sent stored fits =>
      exact says_of_multipart hprim distinct committed sent stored fits

end Storj.Client
