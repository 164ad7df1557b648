import StorjUplink.Client.ObjectRead
import StorjUplink.Access.Sample

/-!
# Multipart uploads beside each other

`begin_upload`, `upload_part`, `commit_upload` and `abort_upload` of `project.rs`, as they
interleave: any number of uploads, also of one key, every segment of every part by itself, and the
other calls on objects in between.  The satellite keeps the segments of an upload under its stream,
which is all that the messages name; the caller knows the stream by the upload ID that
`begin_upload` gave out.

`SatelliteState` is the table of objects with the uncommitted ones, and `UploadStep` a call that
went through.  `Project` is what the caller means: the objects, and for every upload its key and
the segments of its parts.  The satellite shows it after every run (`SatelliteState.Tracks.step`),
so that a commit makes the bytes of all parts in the order of their numbers, whatever ran beside
it.

An uncommitted object is named by its stream and by nothing else.  `commit_upload` and
`upload_part` take a bucket and a key from the caller beside the upload ID, and the satellite does
not compare them, so a step asks of the caller that they are the ones that the upload was begun
with.  That is the one thing a caller must get right here.

A segment may come twice, when a part is written again before the commit; the later one replaces
the one at its position, on both sides.  The commit takes whatever has come by then, in the order
of the positions, and nothing is said of parts that were begun and never came.
-/

namespace Storj.Client

open Storj.Enc Storj.Access MachineInt Buffer Uplink KeyedStore

/-! ## Aborting

The deletion of an object that is still being uploaded, by its stream.
-/

/-- `Status::Uploading`. -/
def uploadingStatus : ℤ := 1

/-- `abort_upload`: the request that it sends, which deletes the pending stream of the upload ID. -/
def abortUpload (prim : PathPrimitives) (ids : AccessPrimitives) (store : Store)
    (bucket key uploadId : String) : Except Error BeginDeleteObjectRequest := do
  requireBucketName bucket
  requireObjectKey key
  let streamId ← decodeUploadId ids uploadId
  let encPath ← (encryptPath prim bucket key store).mapError mapEnc
  .ok ⟨utf8 bucket, encPath, streamId, uploadingStatus⟩

/-! ## What the caller means

The objects of the project, and beside them the uploads: segments by position.
-/

/-- The place of a segment in its object. -/
def SegmentCommit.position (job : SegmentCommit) : Position := (job.partNumber, job.index)

/-- The segments in the order of their positions. -/
def sortJobs (jobs : List SegmentCommit) : List SegmentCommit :=
  jobs.mergeSort fun s t => positionLe s.position t.position

/-- An upload that is not committed: its key, and the segments of its parts. -/
structure PendingUpload where
  bucket : String
  key : String
  segments : List SegmentCommit

/-- A segment comes in, in place of one at its position. -/
def PendingUpload.put (u : PendingUpload) (job : SegmentCommit) : PendingUpload :=
  { u with segments := u.segments.filter (fun s => s.position ≠ job.position) ++ [job] }

/-- The bytes of an upload. -/
def PendingUpload.data (u : PendingUpload) : Bytes :=
  (sortJobs u.segments).flatMap SegmentCommit.plain

/-- The objects of a project, and its uncommitted uploads by their IDs. -/
structure Project where
  objects : Objects
  uploads : String → Option PendingUpload

/-- A project with nothing in it. -/
def Project.empty : Project := ⟨fun _ => none, fun _ => none⟩

/-- A call that goes through, as the caller makes it: on an object, or on a pending upload by its
ID. -/
inductive UploadEvent where
  | call (op : ObjectOp)
  | beginUpload (bucket key uploadId : String)
  | commitSegment (uploadId : String) (job : SegmentCommit)
  | commitUpload (uploadId : String) (custom : CustomMetadata)
  | abortUpload (uploadId : String)

/-- What a call does to the objects and to the uploads that are pending. -/
def UploadEvent.apply (project : Project) : UploadEvent → Project
  | .call op => { project with objects := op.apply project.objects }
  | .beginUpload bucket key uploadId =>
      { project with
        uploads := Function.update project.uploads uploadId (some ⟨bucket, key, []⟩) }
  | .commitSegment uploadId job =>
      { project with
        uploads := Function.update project.uploads uploadId
          ((project.uploads uploadId).map fun u => u.put job) }
  | .commitUpload uploadId custom =>
      { objects :=
          match project.uploads uploadId with
          | some u => Function.update project.objects (u.bucket, u.key) (some (u.data, custom))
          | none => project.objects
        uploads := Function.update project.uploads uploadId none }
  | .abortUpload uploadId =>
      { project with uploads := Function.update project.uploads uploadId none }

/-! ## What the satellite has

The table of the object store with a second one beside it, by streams.  Calls on objects leave the
second alone.
-/

variable {H : Type} {prim : MetaPrimitives} {ids : AccessPrimitives} {store : Store}

/-- An uncommitted object of the satellite. -/
structure PendingObject (H : Type) where
  bucket : String
  path : Bytes
  segments : List (StoredSegment H)

/-- A segment comes in, in place of one at its position. -/
def PendingObject.put (p : PendingObject H) (s : StoredSegment H) : PendingObject H :=
  { p with segments := p.segments.filter (fun t => t.position ≠ s.position) ++ [s] }

/-- The satellite: its objects, and the uncommitted ones by their streams. -/
structure SatelliteState (H : Type) where
  objects : Database H
  pending : Bytes → Option (PendingObject H)

/-- A satellite with nothing in it. -/
def SatelliteState.empty : SatelliteState H := ⟨fun _ => none, fun _ => none⟩

/-- **One call**, and what the satellite does for it.  What is sent for an upload names its stream
only, so that it is up to the caller to give the key that the upload was begun with. -/
inductive UploadStep (prim : MetaPrimitives) (ids : AccessPrimitives) (store : Store) :
    SatelliteState H → UploadEvent → SatelliteState H → Prop
  | call {sat : SatelliteState H} {op : ObjectOp} {objects : Database H}
      (step : Step prim store sat.objects op objects) :
      UploadStep prim ids store sat (.call op) { sat with objects := objects }
  | beginUpload {sat : SatelliteState H} {bucket key uploadId : String} {path : Bytes}
      {checksum : Option ObjectChecksum} {begun : BeginObjectResponse}
      (sent : beginUpload prim.toPathPrimitives ids store bucket key checksum (fun _ => .ok begun)
        = .ok uploadId)
      (addressed : address prim.toPathPrimitives store (bucket, key) = some (bucket, path)) :
      UploadStep prim ids store sat (.beginUpload bucket key uploadId)
        { sat with pending := Function.update sat.pending begun.streamId (some ⟨bucket, path, []⟩) }
  | commitSegment {sat : SatelliteState H} {bucket key : String} {streamId : Bytes} {number : ℕ}
      {target : UploadTarget} {job : SegmentCommit} {s : StoredSegment H} {p : PendingObject H}
      (start : startUploadPart prim.toPathPrimitives ids store bucket key
        (encodeUploadId ids streamId) number = .ok target)
      (part : job.partNumber = target.partNumber)
      (committed : CommittedAs prim.toPathPrimitives target.cipher target.blockSize target.contentKey
        job s)
      (found : sat.pending target.streamId = some p)
      (addressed : address prim.toPathPrimitives store (bucket, key) = some (p.bucket, p.path)) :
      UploadStep prim ids store sat (.commitSegment (encodeUploadId ids streamId) job)
        { sat with pending := Function.update sat.pending target.streamId (some (p.put s)) }
  | commitUpload {sat : SatelliteState H} {bucket key : String} {streamId : Bytes}
      {custom : CustomMetadata} {checksum : Option ObjectChecksum} {metadataKey : Key} {nonce : Nonce}
      {request : CommitObjectRequest} {p : PendingObject H} {obj : StoredObject H}
      (sent : commitMultipart prim ids store bucket key (encodeUploadId ids streamId) custom checksum
        metadataKey nonce = .ok request)
      (found : sat.pending request.streamId = some p)
      (addressed : address prim.toPathPrimitives store (bucket, key) = some (p.bucket, p.path))
      (stored : obj.Stores (some uploadParameters) p.segments request)
      (fits : obj.info.plainSize < i64Max) :
      UploadStep prim ids store sat (.commitUpload (encodeUploadId ids streamId) custom)
        { objects := Function.update sat.objects (p.bucket, p.path) (some obj)
          pending := Function.update sat.pending request.streamId none }
  | abortUpload {sat : SatelliteState H} {bucket key : String} {streamId : Bytes}
      {request : BeginDeleteObjectRequest} {p : PendingObject H}
      (sent : abortUpload prim.toPathPrimitives ids store bucket key (encodeUploadId ids streamId)
        = .ok request)
      (found : sat.pending request.streamId = some p)
      (same : utf8 p.bucket = request.bucket ∧ p.path = request.encryptedObjectKey) :
      UploadStep prim ids store sat (.abortUpload (encodeUploadId ids streamId))
        { sat with pending := Function.update sat.pending request.streamId none }

/-! ## Upload IDs

Different streams have different IDs, and an ID decodes to its stream.
-/

lemma encodeUploadId_ne (hids : ids.Lawful) (streamId : Bytes) : encodeUploadId ids streamId ≠ "" :=
  hids.base58_ne _ (by simp)

/-- An upload ID leads to the stream that it was made of. -/
lemma decodeUploadId_encodeUploadId (hids : ids.Lawful) (streamId : Bytes) :
    decodeUploadId ids (encodeUploadId ids streamId) = .ok streamId := by
  rw [decodeUploadId, if_neg (encodeUploadId_ne hids streamId), encodeUploadId,
    checkDecode_checkEncode hids]
  simp only [ne_eq, not_true_eq_false, if_false]

lemma eq_of_decodeUploadId (hids : ids.Lawful) {streamId streamId' : Bytes}
    (h : decodeUploadId ids (encodeUploadId ids streamId) = .ok streamId') : streamId' = streamId :=
  Except.ok.inj (h.symm.trans (decodeUploadId_encodeUploadId hids streamId))

/-- Different streams have different upload IDs. -/
lemma encodeUploadId_injective (hids : ids.Lawful) : Function.Injective (encodeUploadId ids) := by
  intro s t hst
  have hdecode := congrArg (checkDecode ids) hst
  rw [encodeUploadId, encodeUploadId, checkDecode_checkEncode hids, checkDecode_checkEncode hids,
    Except.ok.injEq, Prod.mk.injEq] at hdecode
  exact hdecode.1

/-- `begin_upload` gives out the ID of the stream that was begun. -/
lemma beginUpload_eq_ok {prim : PathPrimitives} {bucket key uploadId : String}
    {checksum : Option ObjectChecksum} {begun : BeginObjectResponse}
    (h : beginUpload prim ids store bucket key checksum (fun _ => .ok begun) = .ok uploadId) :
    uploadId = encodeUploadId ids begun.streamId := by
  rw [beginUpload] at h
  obtain ⟨_, -, h⟩ := Fallible.bind_eq_ok.mp h
  obtain ⟨_, -, h⟩ := Fallible.bind_eq_ok.mp h
  obtain ⟨_, -, h⟩ := Fallible.bind_eq_ok.mp h
  obtain ⟨_, -, h⟩ := Fallible.bind_eq_ok.mp h
  cases h
  rfl

/-- A part goes to the stream of its upload ID. -/
lemma startUploadPart_streamId {prim : PathPrimitives} {bucket key uploadId : String} {number : ℕ}
    {target : UploadTarget}
    (h : startUploadPart prim ids store bucket key uploadId number = .ok target) :
    decodeUploadId ids uploadId = .ok target.streamId := by
  rw [startUploadPart] at h
  obtain ⟨_, -, h⟩ := Fallible.bind_eq_ok.mp h
  obtain ⟨_, -, h⟩ := Fallible.bind_eq_ok.mp h
  obtain ⟨streamId, hstream, h⟩ := Fallible.bind_eq_ok.mp h
  obtain ⟨_, -, h⟩ := Fallible.bind_eq_ok.mp h
  obtain ⟨_, -, h⟩ := Fallible.bind_eq_ok.mp h
  obtain ⟨_, -, h⟩ := Fallible.bind_eq_ok.mp h
  cases h
  exact hstream

/-- A commit names the stream of its upload ID. -/
lemma commitMultipart_streamId {bucket key uploadId : String} {custom : CustomMetadata}
    {checksum : Option ObjectChecksum} {metadataKey : Key} {nonce : Nonce}
    {request : CommitObjectRequest}
    (h : commitMultipart prim ids store bucket key uploadId custom checksum metadataKey nonce
      = .ok request) : decodeUploadId ids uploadId = .ok request.streamId := by
  rw [commitMultipart] at h
  obtain ⟨_, -, h⟩ := Fallible.bind_eq_ok.mp h
  obtain ⟨_, -, h⟩ := Fallible.bind_eq_ok.mp h
  obtain ⟨_, -, h⟩ := Fallible.bind_eq_ok.mp h
  obtain ⟨_, -, h⟩ := Fallible.bind_eq_ok.mp h
  obtain ⟨streamId, hstream, h⟩ := Fallible.bind_eq_ok.mp h
  obtain ⟨_, -, h⟩ := Fallible.bind_eq_ok.mp h
  obtain ⟨_, -, h⟩ := Fallible.bind_eq_ok.mp h
  cases h
  exact hstream

/-- An abort names the stream of its upload ID. -/
lemma abortUpload_streamId {prim : PathPrimitives} {bucket key uploadId : String}
    {request : BeginDeleteObjectRequest}
    (h : abortUpload prim ids store bucket key uploadId = .ok request) :
    decodeUploadId ids uploadId = .ok request.streamId := by
  rw [abortUpload] at h
  obtain ⟨_, -, h⟩ := Fallible.bind_eq_ok.mp h
  obtain ⟨_, -, h⟩ := Fallible.bind_eq_ok.mp h
  obtain ⟨streamId, hstream, h⟩ := Fallible.bind_eq_ok.mp h
  obtain ⟨_, -, h⟩ := Fallible.bind_eq_ok.mp h
  cases h
  exact hstream

/-! ## The segments of an upload

Replacing by position commutes with sorting by position.
-/

lemma pairwise_sortJobs (jobs : List SegmentCommit) :
    (sortJobs jobs).Pairwise fun s t => positionLe s.position t.position = true :=
  List.pairwise_mergeSort (fun s t r => positionLe_trans s.position t.position r.position)
    (fun s t => positionLe_total s.position t.position) jobs

/-- Segments at different positions, sorted, make an object. -/
lemma assembly_sortJobs {jobs : List SegmentCommit}
    (h : (jobs.map SegmentCommit.position).Nodup) :
    Assembly (sortJobs jobs) ((sortJobs jobs).flatMap SegmentCommit.plain) := by
  refine ⟨?_, rfl⟩
  have hne : (sortJobs jobs).Pairwise fun s t => s.position ≠ t.position :=
    List.pairwise_map.mp (((List.mergeSort_perm _ _).map SegmentCommit.position).nodup_iff.mpr h)
  exact (pairwise_sortJobs jobs).and hne

/-- **The order of the positions is the only one**: segments that make an object are sorted. -/
lemma sortJobs_eq {jobs sorted : List SegmentCommit} {data : Bytes} (h : Assembly sorted data)
    (hperm : jobs.Perm sorted) : sortJobs jobs = sorted := by
  have hsame : (sortJobs jobs).Perm sorted := (List.mergeSort_perm _ _).trans hperm
  have hnodup : (sorted.map SegmentCommit.position).Nodup :=
    List.pairwise_map.mpr (h.ordered.imp fun hst => hst.2)
  have hanti : ∀ s t, s ∈ sortJobs jobs → t ∈ sorted → positionLe s.position t.position = true →
      positionLe t.position s.position = true → s = t := fun s t hs ht hst hts =>
    List.inj_on_of_nodup_map hnodup (hsame.mem_iff.mp hs) ht (positionLe_antisymm hst hts)
  exact hsame.eq_of_pairwise hanti (pairwise_sortJobs jobs) (h.ordered.imp fun hst => hst.1)

/-- A segment that was committed has the position of its job. -/
lemma CommittedAs.position {prim : PathPrimitives} {cipher : CipherSuite} {block : ℕ}
    {contentKey : Key} {job : SegmentCommit} {s : StoredSegment H}
    (h : CommittedAs prim cipher block contentKey job s) : s.position = job.position := by
  obtain ⟨calls, hs⟩ := h
  exact (isStored_of_commit hs).position

/-- The sizes of segments that are not too long in all add up to the length of the bytes. -/
lemma length_of_plainSize {prim : PathPrimitives} {cipher : CipherSuite} {block : ℕ}
    {contentKey : Key} {jobs : List SegmentCommit} {segments : List (StoredSegment H)}
    (h : List.Forall₂ (CommittedAs prim cipher block contentKey) jobs segments)
    (hfits : (segments.map StoredSegment.plainSize).sum < i64Max) :
    ((jobs.flatMap SegmentCommit.plain).length : ℤ) = (segments.map StoredSegment.plainSize).sum := by
  induction h with
  | nil => rfl
  | @cons job s jobs segments hjob _ ih =>
      obtain ⟨calls, hs⟩ := hjob
      have hsize : s.plainSize = min (job.plain.length : ℤ) i64Max := by
        rw [(isStored_of_commit hs).plainSize, lastPlain, satI64_nonneg (Int.natCast_nonneg _)]
      have hmax : (0 : ℤ) ≤ i64Max := by norm_num [i64Max]
      rw [List.map_cons, List.sum_cons] at hfits ⊢
      have hrest := ih (by omega)
      rw [List.flatMap_cons, List.length_append, Nat.cast_add, hrest, hsize]
      omega

/-! ## The invariant

For every upload its object under the stream, with segments that were committed under the content
key of the key, and for every key the object that the project says.  A call on one of the two
leaves the other alone.
-/

/-- **What an uncommitted object holds**: at the path of the key, the segments of the upload, each
committed under the content key of the key. -/
structure PendingObject.Holds (prim : MetaPrimitives) (store : Store) (p : PendingObject H)
    (u : PendingUpload) : Prop where
  addressed : address prim.toPathPrimitives store (u.bucket, u.key) = some (p.bucket, p.path)
  distinct : (u.segments.map SegmentCommit.position).Nodup
  committed : ∀ contentKey,
    deriveContentKey prim.toPathPrimitives u.bucket (utf8 u.key) store = .ok contentKey →
    List.Forall₂ (CommittedAs prim.toPathPrimitives .aesGcm Uplink.defaultEncryptedBlockSize
      contentKey) u.segments p.segments

/-- **The satellite shows the project.** -/
structure SatelliteState.Tracks (prim : MetaPrimitives) (ids : AccessPrimitives) (store : Store)
    (sat : SatelliteState H) (project : Project) : Prop where
  objects : Shows prim store project.objects sat.objects
  pending : Represents (fun _ p u => PendingObject.Holds prim store p u) some
    (project.uploads ∘ encodeUploadId ids) sat.pending

/-- Changing one upload. -/
lemma SatelliteState.Tracks.update (hids : ids.Lawful) {sat : SatelliteState H} {project : Project}
    (h : sat.Tracks prim ids store project) (streamId : Bytes) {p : Option (PendingObject H)}
    {u : Option PendingUpload} (hpu : Option.Rel (fun p u => PendingObject.Holds prim store p u) p u) :
    Represents (fun _ p u => PendingObject.Holds prim store p u) some
      (Function.update project.uploads (encodeUploadId ids streamId) u ∘ encodeUploadId ids)
      (Function.update sat.pending streamId p) := by
  rw [Function.update_comp_eq_of_injective _ (encodeUploadId_injective hids)]
  exact Represents.write h.pending (fun _ _ _ hk hl => (Option.some.inj hk).trans
    (Option.some.inj hl).symm) rfl hpu

/-- **A segment** that comes in is held with the others. -/
lemma PendingObject.Holds.put {p : PendingObject H} {u : PendingUpload} (h : p.Holds prim store u)
    {contentKey : Key}
    (hkey : deriveContentKey prim.toPathPrimitives u.bucket (utf8 u.key) store = .ok contentKey)
    {job : SegmentCommit} {s : StoredSegment H}
    (hs : CommittedAs prim.toPathPrimitives .aesGcm Uplink.defaultEncryptedBlockSize contentKey job s) :
    (p.put s).Holds prim store (u.put job) := by
  refine ⟨h.addressed, ?_, fun contentKey' hkey' => ?_⟩
  · rw [PendingUpload.put, List.map_append]
    refine List.Nodup.append (h.distinct.sublist (List.filter_sublist.map _)) (List.nodup_singleton _) ?_
    intro position hold hnew
    obtain ⟨t, ht, rfl⟩ := List.mem_map.mp hold
    rw [List.map_singleton, List.mem_singleton] at hnew
    exact of_decide_eq_true (List.mem_filter.mp ht).2 hnew
  · obtain rfl : contentKey = contentKey' := Except.ok.inj (hkey.symm.trans hkey')
    refine List.rel_append (List.rel_filter ?_ (h.committed _ hkey')) (.cons hs .nil)
    intro t t' ht
    simp only [ht.position, hs.position]

/-- **A commit** makes an object of the bytes of the upload. -/
lemma PendingObject.Holds.commit (hprim : prim.Lawful) {p : PendingObject H} {u : PendingUpload}
    (h : p.Holds prim store u) {uploadId : String} {custom : CustomMetadata}
    {checksum : Option ObjectChecksum} {metadataKey : Key} {nonce : Nonce}
    {request : CommitObjectRequest} {obj : StoredObject H}
    (sent : commitMultipart prim ids store u.bucket u.key uploadId custom checksum metadataKey nonce
      = .ok request)
    (stored : obj.Stores (some uploadParameters) p.segments request)
    (fits : obj.info.plainSize < i64Max) :
    Client.Holds prim store (u.bucket, u.key) obj (u.data, custom) := by
  obtain ⟨contentKey, streamId, user, hkey, huser, rfl⟩ := commitMultipart_eq_ok sent
  have hcommitted := h.committed contentKey hkey
  have hlength := hcommitted.length_eq
  -- the jobs with their segments, sorted together
  let rows := u.segments.zip p.segments
  let sorted := rows.mergeSort fun r s => positionLe r.1.position s.1.position
  have hperm : sorted.Perm rows := List.mergeSort_perm _ _
  have hjobs : sorted.map Prod.fst = sortJobs u.segments := by
    have hfst : rows.map Prod.fst = u.segments := List.map_fst_zip hlength.le
    rw [sortJobs, ← hfst]
    exact List.map_mergeSort fun r _ s _ => rfl
  have hsegments : (sorted.map Prod.snd).Perm p.segments := by
    have hsnd : rows.map Prod.snd = p.segments := List.map_snd_zip hlength.ge
    exact hsnd ▸ hperm.map Prod.snd
  have hall : List.Forall₂ (CommittedAs prim.toPathPrimitives .aesGcm
      Uplink.defaultEncryptedBlockSize contentKey) (sortJobs u.segments) (sorted.map Prod.snd) := by
    rw [← hjobs, List.forall₂_map_left_iff, List.forall₂_map_right_iff, List.forall₂_same]
    exact fun r hr => List.forall₂_zip hcommitted (hperm.mem_iff.mp hr)
  have hfits : (u.data.length : ℤ) ≤ i64Max := by
    rw [stored.plainSize] at fits
    have hsum := length_of_plainSize hcommitted fits
    have hsort : u.data.length = (u.segments.flatMap SegmentCommit.plain).length :=
      ((List.mergeSort_perm _ _).flatMap_right _).length_eq
    omega
  exact ⟨contentKey, hkey, _, rfl, says_of_commit hprim ⟨by decide, by decide⟩ ⟨by decide, by decide⟩
    ⟨by decide, by decide⟩ ⟨by decide, by decide⟩ rfl (by decide) (by decide) huser stored
    (assembly_sortJobs h.distinct) hall hsegments hfits⟩

/-- **Every step keeps the invariant**, with the change that the caller meant. -/
theorem SatelliteState.Tracks.step (hs : Sealed prim store) (hids : ids.Lawful)
    {sat sat' : SatelliteState H} {project : Project} (h : sat.Tracks prim ids store project)
    {event : UploadEvent} (hstep : UploadStep prim ids store sat event sat') :
    sat'.Tracks prim ids store (event.apply project) := by
  cases hstep with
  | call step => exact ⟨h.objects.step hs step, h.pending⟩
  | beginUpload sent addressed =>
      obtain rfl := beginUpload_eq_ok sent
      refine ⟨h.objects, h.update hids _ (.some ⟨addressed, List.nodup_nil, fun _ _ => .nil⟩)⟩
  | @commitSegment bucket key streamId number target job s p start part committed found addressed =>
      obtain rfl := eq_of_decodeUploadId hids (startUploadPart_streamId start)
      obtain ⟨hkey, hcipher, hblock, -⟩ := startUploadPart_eq_ok start
      obtain ⟨u, hu, hholds⟩ := Represents.value h.pending rfl found
      -- the key of the call is that of the upload
      obtain ⟨rfl, rfl⟩ := Prod.mk.inj (hs.distinct _ _ _ addressed hholds.addressed)
      rw [hcipher, hblock] at committed
      refine ⟨h.objects, ?_⟩
      have hmap : (project.uploads (encodeUploadId ids target.streamId)).map (fun u => u.put job)
          = some (u.put job) := by
        rw [show project.uploads (encodeUploadId ids target.streamId) = some u from hu]
        rfl
      rw [UploadEvent.apply, hmap]
      exact h.update hids _ (.some (hholds.put hkey committed))
  | @commitUpload bucket key streamId custom checksum metadataKey nonce request p obj sent found
      addressed stored fits =>
      obtain rfl := eq_of_decodeUploadId hids (commitMultipart_streamId sent)
      obtain ⟨u, hu, hholds⟩ := Represents.value h.pending rfl found
      obtain ⟨rfl, rfl⟩ := Prod.mk.inj (hs.distinct _ _ _ addressed hholds.addressed)
      have huploads : project.uploads (encodeUploadId ids request.streamId) = some u := hu
      refine ⟨?_, h.update hids _ .none⟩
      rw [UploadEvent.apply, huploads]
      exact Represents.write h.objects hs.distinct addressed
        (.some (hholds.commit hs.lawful sent stored fits))
  | abortUpload sent found same =>
      obtain rfl := eq_of_decodeUploadId hids (abortUpload_streamId sent)
      exact ⟨h.objects, h.update hids _ .none⟩

/-- **The invariant of every run.** -/
theorem tracks_of_run (hs : Sealed prim store) (hids : ids.Lawful) {events : List UploadEvent}
    {sat : SatelliteState H} (hrun : Runs (UploadStep prim ids store) .empty events sat) :
    sat.Tracks prim ids store (events.foldl UploadEvent.apply .empty) := by
  have hempty : (SatelliteState.empty : SatelliteState H).Tracks prim ids store .empty :=
    ⟨represents_empty, represents_empty⟩
  exact Runs.simulates (R := fun sat project => sat.Tracks prim ids store project)
    (f := UploadEvent.apply) (fun _ _ _ _ h hstep => h.step hs hids hstep) hempty hrun

/-! ## What is seen and read

A commit makes an object that says the bytes of the parts; everything else is known from the object
store.
-/

/-- **Uploads do not disturb each other.**  However any number of multipart uploads, also of one
key, and any other calls on objects interleave, segment by segment, `stat_object` gives the length
and the custom metadata of what is left at the key, where the commit of an upload leaves the bytes
of its segments in the order of their positions; what is not committed, or aborted, is not seen.
-/
theorem interleaved_uploads_agree (hs : Sealed prim store) (hids : ids.Lawful)
    {events : List UploadEvent} {sat : SatelliteState H}
    (hrun : Runs (UploadStep prim ids store) .empty events sat) (notFound : Error)
    {bucket key : String} {a : String × Bytes}
    (haddr : address prim.toPathPrimitives store (bucket, key) = some a) :
    statObject prim store bucket key (sat.objects.getObject notFound bucket)
      = match (events.foldl UploadEvent.apply .empty).objects (bucket, key) with
        | some (data, custom) => .ok ⟨key, false, data.length, custom⟩
        | none => .error notFound :=
  (tracks_of_run hs hids hrun).objects.statObject_eq notFound haddr

/-- A part that was written and committed: its number, its segments and its bytes. -/
inductive PartWritten (prim : PathPrimitives) (ids : AccessPrimitives) (store : Store)
    (bucket key uploadId : String) : ℕ × List SegmentCommit × Bytes → Prop
  | mk {number : ℕ} {target : UploadTarget} {ops : List Op} {w : World} {env : World.CommitEnv}
      (start : startUploadPart prim ids store bucket key uploadId number = .ok target)
      (run : Machine.run World.step (World.init target.partNumber) ops = some w)
      (commit : (w.commitPart env).1 = .ok ()) :
      PartWritten prim ids store bucket key uploadId
        (number, (w.commitPart env).2.committed, w.accepted)

/-- The segments of a part are its bytes. -/
lemma PartWritten.partition {prim : PathPrimitives} {bucket key uploadId : String}
    {part : ℕ × List SegmentCommit × Bytes}
    (h : PartWritten prim ids store bucket key uploadId part) :
    World.Partition part.1 part.2.1 part.2.2 := by
  cases h with
  | mk start run commit =>
      obtain ⟨-, -, -, hnumber⟩ := startUploadPart_eq_ok start
      rw [← hnumber]
      exact (World.inv_of_run run).commitPart commit

/-- The bytes of parts in the order of their numbers. -/
def partsData (parts : List (ℕ × List SegmentCommit × Bytes)) : Bytes :=
  (parts.mergeSort fun s t => s.1 ≤ t.1).flatMap fun part => part.2.2

/-- **An upload whose segments are those of parts** has the bytes of the parts, in whatever order
the segments came. -/
lemma PendingUpload.data_eq {u : PendingUpload} {parts : List (ℕ × List SegmentCommit × Bytes)}
    (hnumbers : (parts.map Prod.fst).Nodup)
    (hparts : ∀ part ∈ parts, World.Partition part.1 part.2.1 part.2.2)
    (hsegments : u.segments.Perm (parts.flatMap fun part => part.2.1)) : u.data = partsData parts := by
  let sorted := parts.mergeSort fun s t => s.1 ≤ t.1
  have hperm : sorted.Perm parts := List.mergeSort_perm _ _
  have hincreasing : sorted.Pairwise fun s t => s.1 < t.1 := by
    have hle : sorted.Pairwise fun s t => s.1 ≤ t.1 :=
      (List.pairwise_mergeSort (by simp; omega) (by simp; omega) parts).imp (by simp)
    have hne : sorted.Pairwise fun s t => s.1 ≠ t.1 :=
      List.pairwise_map.mp ((hperm.map Prod.fst).nodup_iff.mpr hnumbers)
    exact (hle.and hne).imp fun h => lt_of_le_of_ne h.1 h.2
  have hof : PartsOf (sorted.map fun part => ((part.1 : ℤ), part.2.1, part.2.2)) := by
    refine ⟨List.pairwise_map.mpr (hincreasing.imp Int.ofNat_lt.mpr), fun part hmem => ?_⟩
    obtain ⟨part, hpart, rfl⟩ := List.mem_map.mp hmem
    exact hparts part (hperm.mem_iff.mp hpart)
  have hjobs := hof.assembly
  rw [List.flatMap_map, List.flatMap_map] at hjobs
  rw [PendingUpload.data, sortJobs_eq hjobs (hsegments.trans (hperm.flatMap_right _).symm)]
  exact hjobs.data_eq

/-- **The parts of an upload come back as one object.**  After any interleaving of uploads and
other calls, the commit of an upload whose segments are those of committed parts, in whatever order
they came, makes an object of which a download of any range gives the custom metadata and exactly
that range of the bytes of the parts, in the order of their numbers and however it is read, as long
as the nodes send what was uploaded to them and enough of them are up. -/
theorem commitUpload_reads (hs : Sealed prim store) (hids : ids.Lawful) {events : List UploadEvent}
    {sat sat' : SatelliteState H} (hrun : Runs (UploadStep prim ids store) .empty events sat)
    {uploadId : String} {custom : CustomMetadata}
    (hcommit : UploadStep prim ids store sat (.commitUpload uploadId custom) sat') {u : PendingUpload}
    (hupload : (events.foldl UploadEvent.apply .empty).uploads uploadId = some u)
    {parts : List (ℕ × List SegmentCommit × Bytes)} (hnumbers : (parts.map Prod.fst).Nodup)
    (hparts : ∀ part ∈ parts, PartWritten prim.toPathPrimitives ids store u.bucket u.key uploadId part)
    (hsegments : u.segments.Perm (parts.flatMap fun part => part.2.1)) {path : Bytes}
    (haddr : address prim.toPathPrimitives store (u.bucket, u.key) = some (u.bucket, path))
    {offset length : ℤ} (hvalid : ¬(offset < 0 ∧ length ≥ 0)) {calls : DownloadCalls}
    {obj : StoredObject H} {resp : DownloadObjectResponse} {listed : List (ℤ × StoredSegment H)}
    (hobj : sat'.objects (u.bucket, path) = some obj)
    (hprovides : Provides calls path (protoRange offset length) obj resp listed)
    (honest : ∀ contentKey cipher blockSize plainStart plainLen,
      deriveContentKey prim.toPathPrimitives u.bucket (utf8 u.key) store = .ok contentKey →
      downloadParameters prim (some obj.info.toObjectRecord) contentKey
        = .ok (cipher, blockSize, custom) →
      resolveRange offset length (partsData parts).length = .ok (plainStart, plainLen) →
      ∀ p ∈ placed 0 obj.segments, ∀ seg, HandsOver calls p seg →
        (seg ∈ resp.segmentDownload ∨ calls.downloadSegment p.2.position = .ok seg) →
        HonestNodes prim.toPathPrimitives calls contentKey cipher blockSize plainStart plainLen p.2
          seg) {fuel : ℕ} (hfuel : listed.length < fuel) :
    ∃ plainStart plainLen download,
      resolveRange offset length (partsData parts).length = .ok (plainStart, plainLen) ∧
      startDownloadObject prim store u.bucket u.key offset length calls fuel
        = some (.ok (custom, download)) ∧
      download.read = .ok (slice (partsData parts) plainStart.toNat plainLen.toNat) ∧
      download.Drains (slice (partsData parts) plainStart.toNat plainLen.toNat) := by
  have htracks := (tracks_of_run hs hids hrun).step hs hids hcommit
  have hdata : u.data = partsData parts :=
    PendingUpload.data_eq hnumbers (fun part hpart => (hparts part hpart).partition) hsegments
  refine htracks.objects.startDownloadObject_eq hs haddr ?_ hvalid hobj hprovides honest hfuel
  rw [UploadEvent.apply, hupload]
  dsimp only
  rw [Function.update_self, hdata]

/-! ## A sample

Two uploads of one key beside each other, each with its own stream.  The parts of the first come in
the opposite order of their numbers, with a segment of the second between them; the second is
aborted. -/

/-- The segment of a short part. -/
def samplePartJob (number : ℕ) (plain : Bytes) : SegmentCommit := ⟨number, 0, plain, []⟩

/-- What is stored of it. -/
def sampleStored (number : ℕ) (plain key data : Bytes) : StoredSegment Unit :=
  ⟨(number, 0), lastPlain plain, List.replicate 24 2, key, [], .inline data⟩

/-- A part after one write. -/
def samplePart (number : ℕ) (plain : Bytes) : World :=
  { World.init number with
    inner := { (World.init number).inner with plaintext := plain }
    accepted := plain }

lemma run_samplePart {number : ℕ} {plain : Bytes} (hne : plain ≠ [])
    (hroom : plain.length ≤ maxSegmentSize) :
    Machine.run World.step (World.init number) [.pollWrite plain fun _ => none]
      = some (samplePart number plain) := by
  have hinit : (World.init number).inner.plaintext.length + plain.length ≤ maxSegmentSize := by
    show 0 + plain.length ≤ maxSegmentSize
    omega
  rw [Machine.run_cons, World.step, World.pollWrite_room rfl rfl hne hinit]
  rfl

/-- The upload IDs of the sample. -/
def sampleUploadId : String := encodeUploadId samplePrimitives [1]

def otherUploadId : String := encodeUploadId samplePrimitives [2]

lemma sampleUploadId_ne : sampleUploadId ≠ otherUploadId := by
  intro heq
  cases encodeUploadId_injective samplePrimitives_lawful heq

def sampleEvents : List UploadEvent :=
  [.beginUpload "b" "k" sampleUploadId, .beginUpload "b" "k" otherUploadId,
    .commitSegment sampleUploadId (samplePartJob 2 [4]),
    .commitSegment otherUploadId (samplePartJob 1 [9]),
    .commitSegment sampleUploadId (samplePartJob 1 [1, 2, 3]), .abortUpload otherUploadId]

lemma uploads_sampleEvents : (sampleEvents.foldl UploadEvent.apply .empty).uploads sampleUploadId
    = some ⟨"b", "k", [samplePartJob 2 [4], samplePartJob 1 [1, 2, 3]]⟩ := by
  simp [sampleEvents, UploadEvent.apply, PendingUpload.put, sampleUploadId_ne, sampleUploadId_ne.symm,
    samplePartJob, SegmentCommit.position]

/-- A satellite with the two uploads. -/
def sampleState (first second : Option (PendingObject Unit)) : SatelliteState Unit :=
  ⟨fun _ => none, Function.update (Function.update (fun _ => none) [1] first) [2] second⟩

section

variable (first second : Option (PendingObject Unit))

lemma pending_first : (sampleState first second).pending [1] = first := by simp [sampleState]

lemma pending_second : (sampleState first second).pending [2] = second := by simp [sampleState]

lemma update_first (p : Option (PendingObject Unit)) :
    { sampleState first second with
      pending := Function.update (sampleState first second).pending [1] p } = sampleState p second := by
  have hne : ([1] : Bytes) ≠ [2] := by decide
  simp only [sampleState, SatelliteState.mk.injEq, true_and]
  rw [Function.update_comm hne, Function.update_idem, Function.update_comm hne.symm]

lemma update_second (p : Option (PendingObject Unit)) :
    { sampleState first second with
      pending := Function.update (sampleState first second).pending [2] p } = sampleState first p := by
  simp only [sampleState, SatelliteState.mk.injEq, true_and]
  rw [Function.update_idem]

end

section

variable {path : Bytes} {contentKey : Key} {sat : SatelliteState Unit} {streamId : Bytes}
  (haddr : address copyPrimitives aesStore ("b", "k") = some ("b", path))

include haddr

lemma beginUpload_sample (streamId : Bytes) :
    UploadStep sampleMeta samplePrimitives aesStore sat
      (.beginUpload "b" "k" (encodeUploadId samplePrimitives streamId))
      { sat with pending := Function.update sat.pending streamId (some ⟨"b", path, []⟩) } := by
  obtain ⟨-, -, hpath, -⟩ := address_eq_some.mp haddr
  have hbegin : beginUpload copyPrimitives samplePrimitives aesStore "b" "k" none
      (fun _ => .ok ⟨streamId, none⟩) = .ok (encodeUploadId samplePrimitives streamId) := by
    rw [beginUpload, requireBucketName_ok (by decide), requireObjectKey_ok (by decide), hpath]
    rfl
  exact @UploadStep.beginUpload Unit sampleMeta samplePrimitives aesStore sat "b" "k" _ path none
    ⟨streamId, none⟩ hbegin haddr

lemma startUploadPart_sample (streamId : Bytes)
    (hkey : deriveContentKey copyPrimitives "b" (utf8 "k") aesStore = .ok contentKey) {number : ℕ}
    (hnumber : number ≤ i32Max) :
    startUploadPart copyPrimitives samplePrimitives aesStore "b" "k"
      (encodeUploadId samplePrimitives streamId) number
        = .ok ⟨path, streamId, contentKey, .aesGcm, 7424, number, none⟩ := by
  obtain ⟨-, -, hpath, -⟩ := address_eq_some.mp haddr
  rw [startUploadPart, requireBucketName_ok (by decide), requireObjectKey_ok (by decide),
    decodeUploadId_encodeUploadId samplePrimitives_lawful, partNumberI32, if_neg (by omega), hpath,
    hkey]
  rfl

/-- A segment of a short part comes in. -/
lemma exists_commitSegment_sample
    (hkey : deriveContentKey copyPrimitives "b" (utf8 "k") aesStore = .ok contentKey) (number : ℕ)
    (hnumber : number ≤ i32Max) (plain : Bytes) {segments : List (StoredSegment Unit)}
    (hinline : ∃ data, inlineData copyPrimitives plain .aesGcm sampleCalls.segmentKey
      (contentNonce number 0) = .ok (some data))
    (hfound : sat.pending streamId = some ⟨"b", path, segments⟩) : ∃ key data,
    UploadStep sampleMeta samplePrimitives aesStore sat
      (.commitSegment (encodeUploadId samplePrimitives streamId) (samplePartJob number plain))
      { sat with
        pending := Function.update sat.pending streamId (some (PendingObject.put ⟨"b", path, segments⟩
          (sampleStored number plain key data))) } := by
  obtain ⟨key, hsealed⟩ := exists_sealed_copy sampleCalls.segmentKey.toList contentKey
    sampleCalls.keyNonce
  obtain ⟨data, hinline⟩ := hinline
  have hcommit : CommittedAs copyPrimitives .aesGcm 7424 contentKey (samplePartJob number plain)
      (sampleStored number plain key data) :=
    ⟨sampleCalls, commitOneSegment_inline hsealed rfl hinline fun _ => rfl⟩
  exact ⟨key, data, @UploadStep.commitSegment Unit sampleMeta samplePrimitives aesStore sat "b" "k"
    streamId number ⟨path, streamId, contentKey, .aesGcm, 7424, number, none⟩ _ _ _
    (startUploadPart_sample haddr streamId hkey hnumber) rfl hcommit hfound haddr⟩

lemma abortUpload_sample {segments : List (StoredSegment Unit)}
    (hfound : sat.pending streamId = some ⟨"b", path, segments⟩) :
    UploadStep sampleMeta samplePrimitives aesStore sat
      (.abortUpload (encodeUploadId samplePrimitives streamId))
      { sat with pending := Function.update sat.pending streamId none } := by
  obtain ⟨-, -, hpath, -⟩ := address_eq_some.mp haddr
  have habort : abortUpload copyPrimitives samplePrimitives aesStore "b" "k"
      (encodeUploadId samplePrimitives streamId)
        = .ok ⟨utf8 "b", path, streamId, uploadingStatus⟩ := by
    rw [abortUpload, requireBucketName_ok (by decide), requireObjectKey_ok (by decide),
      decodeUploadId_encodeUploadId samplePrimitives_lawful, hpath]
    rfl
  exact @UploadStep.abortUpload Unit sampleMeta samplePrimitives aesStore sat "b" "k" streamId _ _ habort
    hfound ⟨rfl, rfl⟩

end

lemma commitMultipart_sample {contentKey : Key} {user : EncryptedUserData}
    (hkey : deriveContentKey copyPrimitives "b" (utf8 "k") aesStore = .ok contentKey)
    (huser : encryptUserData sampleMeta sampleCustom.toList 0 0 0 .aesGcm contentKey
      Uplink.defaultEncryptedBlockSize (checksumPlaintext none) (Vector.replicate 32 3)
      (Vector.replicate 24 4) = .ok user) :
    commitMultipart sampleMeta samplePrimitives aesStore "b" "k" sampleUploadId sampleCustom none
      (Vector.replicate 32 3) (Vector.replicate 24 4) = .ok (commitObject [1] user none) := by
  have hkey' : deriveContentKey sampleMeta.toPathPrimitives "b" (utf8 "k") aesStore
    = .ok contentKey := hkey
  have hchecksum : validateChecksum none true = .ok () := rfl
  have hmap : (Except.ok contentKey).mapError mapEnc = Except.ok contentKey := rfl
  rw [commitMultipart, requireBucketName_ok (by decide), requireObjectKey_ok (by decide),
    verify_sampleCustom, hchecksum, sampleUploadId,
    decodeUploadId_encodeUploadId samplePrimitives_lawful, hkey', hmap]
  simp only [Fallible.ok_bind, huser]

/-- The two uploads while both are open. -/
lemma exists_begun_sample {path : Bytes}
    (haddr : address copyPrimitives aesStore ("b", "k") = some ("b", path)) :
    Runs (UploadStep sampleMeta samplePrimitives aesStore) .empty (sampleEvents.take 2)
      (sampleState (some ⟨"b", path, []⟩) (some ⟨"b", path, []⟩)) := by
  have hempty : (SatelliteState.empty : SatelliteState Unit) = sampleState none none := by
    rw [sampleState, Function.update_eq_self_iff.mpr rfl, Function.update_eq_self_iff.mpr rfl]
    rfl
  have hfirst := @beginUpload_sample path (sampleState none none) haddr [1]
  rw [update_first] at hfirst
  have hsecond := @beginUpload_sample path (sampleState (some ⟨"b", path, []⟩) none) haddr [2]
  rw [update_second] at hsecond
  rw [hempty]
  exact .snoc (.snoc (.nil _) hfirst) hsecond

/-- The first of them is committed: its parts, and the object that they make. -/
lemma exists_uploads_sample : ∃ (path : Bytes) (obj : StoredObject Unit) (key₁ data₁ key₂ data₂ : Bytes)
    (sat sat' : SatelliteState Unit),
    address copyPrimitives aesStore ("b", "k") = some ("b", path) ∧
    (∀ part ∈ [(2, [samplePartJob 2 [4]], ([4] : Bytes)), (1, [samplePartJob 1 [1, 2, 3]], [1, 2, 3])],
      PartWritten copyPrimitives samplePrimitives aesStore "b" "k" sampleUploadId part) ∧
    Runs (UploadStep sampleMeta samplePrimitives aesStore) .empty sampleEvents sat ∧
    UploadStep sampleMeta samplePrimitives aesStore sat (.commitUpload sampleUploadId sampleCustom)
      sat' ∧
    sat'.objects ("b", path) = some obj ∧
    obj.segments = [sampleStored 1 [1, 2, 3] key₁ data₁, sampleStored 2 [4] key₂ data₂] := by
  obtain ⟨contentKey, hkey⟩ : ∃ k, deriveContentKey copyPrimitives "b" (utf8 "k") aesStore = .ok k :=
    ⟨_, rfl⟩
  obtain ⟨path, haddr⟩ := exists_path_sample (show "k" ≠ "" by decide) (isSome_path_sample _ (by simp))
  obtain ⟨user, huser⟩ := exists_encryptUserData_sample sampleCustom.toList 0 0 0 contentKey 7424 none
    (Vector.replicate 32 3) (Vector.replicate 24 4)
  have hsent := commitMultipart_sample hkey huser
  have hwritten : ∀ part ∈ [(2, [samplePartJob 2 [4]], ([4] : Bytes)),
      (1, [samplePartJob 1 [1, 2, 3]], [1, 2, 3])],
      PartWritten copyPrimitives samplePrimitives aesStore "b" "k" sampleUploadId part := by
    intro part hpart
    have hcommit₁ : ((samplePart 1 [1, 2, 3]).commitPart sampleEnv).1 = .ok () := rfl
    have hcommit₂ : ((samplePart 2 [4]).commitPart sampleEnv).1 = .ok () := rfl
    rcases List.mem_pair.mp hpart with rfl | rfl
    · exact .mk (startUploadPart_sample haddr [1] hkey (by decide))
        (run_samplePart (by decide) (by decide)) hcommit₂
    · exact .mk (startUploadPart_sample haddr [1] hkey (by decide))
        (run_samplePart (by decide) (by decide)) hcommit₁
  -- the three segments and the abort
  have hrun := exists_begun_sample haddr
  obtain ⟨key₂, data₂, hfirst⟩ := exists_commitSegment_sample haddr hkey 2 (by decide) [4] ⟨_, rfl⟩
    (pending_first (some ⟨"b", path, []⟩) (some ⟨"b", path, []⟩))
  rw [update_first] at hfirst
  obtain ⟨key, data, hsecond⟩ := exists_commitSegment_sample haddr hkey 1 (by decide) [9] ⟨_, rfl⟩
    (pending_second (some ⟨"b", path, [sampleStored 2 [4] key₂ data₂]⟩) (some ⟨"b", path, []⟩))
  rw [update_second] at hsecond
  obtain ⟨key₁, data₁, hthird⟩ := exists_commitSegment_sample haddr hkey 1 (by decide) [1, 2, 3]
    ⟨_, rfl⟩ (pending_first (some ⟨"b", path, [sampleStored 2 [4] key₂ data₂]⟩)
      (some ⟨"b", path, [sampleStored 1 [9] key data]⟩))
  rw [update_first] at hthird
  let held : PendingObject Unit :=
    ⟨"b", path, [sampleStored 2 [4] key₂ data₂, sampleStored 1 [1, 2, 3] key₁ data₁]⟩
  have hfourth := abortUpload_sample haddr
    (pending_second (some held) (some ⟨"b", path, [sampleStored 1 [9] key data]⟩))
  rw [update_second] at hfourth
  have hrun := (((hrun.snoc hfirst).snoc hsecond).snoc hthird).snoc hfourth
  -- the object has the segments in the order of their parts
  let obj : StoredObject Unit :=
    ⟨⟨{ user.record with encryptionParameters := some uploadParameters }, 4⟩,
      [sampleStored 1 [1, 2, 3] key₁ data₁, sampleStored 2 [4] key₂ data₂]⟩
  have hstored : obj.Stores (some uploadParameters) held.segments (commitObject [1] user none) :=
    ⟨rfl, rfl, rfl, rfl, rfl, List.Perm.swap _ _ _, by simp [obj, sampleStored, positionLe], rfl⟩
  have hcommit := @UploadStep.commitUpload Unit sampleMeta samplePrimitives aesStore
    (sampleState (some held) none) "b" "k" [1] sampleCustom none (Vector.replicate 32 3)
    (Vector.replicate 24 4) (commitObject [1] user none) held obj hsent (pending_first _ _) haddr hstored
    (show (4 : ℤ) < i64Max by decide)
  exact ⟨path, obj, key₁, data₁, key₂, data₂, _, _, haddr, hwritten, hrun, hcommit,
    Function.update_self .., rfl⟩

/-- The object of the upload is seen. -/
theorem interleaved_uploads_agree_sample : ∃ sat : SatelliteState Unit,
    statObject sampleMeta aesStore "b" "k" (sat.objects.getObject ⟨.objectNotFound, "none"⟩ "b")
      = .ok ⟨"k", false, 4, sampleCustom⟩ := by
  obtain ⟨path, obj, _, _, _, _, sat, sat', haddr, -, hrun, hcommit, -, -⟩ := exists_uploads_sample
  refine ⟨sat', (interleaved_uploads_agree sealed_aesStore samplePrimitives_lawful
    (hrun.snoc hcommit) ⟨.objectNotFound, "none"⟩ haddr).trans ?_⟩
  rw [List.foldl_append, List.foldl_cons, List.foldl_nil, UploadEvent.apply, uploads_sampleEvents]
  dsimp only
  rw [Function.update_self]
  have hdata : PendingUpload.data ⟨"b", "k", [samplePartJob 2 [4], samplePartJob 1 [1, 2, 3]]⟩
      = [1, 2, 3, 4] := by
    simp [PendingUpload.data, sortJobs, List.mergeSort, List.MergeSort.Internal.splitInTwo,
      samplePartJob, SegmentCommit.position, positionLe]
  rw [hdata]
  rfl

/-- Its last bytes come back, of both parts. -/
theorem commitUpload_reads_sample : ∃ calls download,
    startDownloadObject sampleMeta aesStore "b" "k" 2 2 calls 1
        = some (.ok (sampleCustom, download)) ∧ download.Drains [3, 4] := by
  obtain ⟨path, obj, _, data₁, _, data₂, sat, sat', haddr, hwritten, hrun, hcommit, hobj, hsegments⟩ :=
    exists_uploads_sample
  have hinline : ∀ s ∈ obj.segments, ∃ data, s.content = .inline data := by
    intro s hs
    rw [hsegments] at hs
    rcases List.mem_pair.mp hs with rfl | rfl
    · exact ⟨data₁, rfl⟩
    · exact ⟨data₂, rfl⟩
  have hnodup : (obj.segments.map StoredSegment.position).Nodup := by
    rw [hsegments]
    simp [sampleStored]
  let parts : List (ℕ × List SegmentCommit × Bytes) :=
    [(2, [samplePartJob 2 [4]], [4]), (1, [samplePartJob 1 [1, 2, 3]], [1, 2, 3])]
  have hdata : partsData parts = [1, 2, 3, 4] := by
    simp [parts, partsData, List.mergeSort, List.MergeSort.Internal.splitInTwo]
  have hnumbers : (parts.map Prod.fst).Nodup := by decide
  obtain ⟨plainStart, plainLen, download, hrange, hdownload, -, hdrains⟩ :=
    commitUpload_reads sealed_aesStore samplePrimitives_lawful hrun hcommit uploads_sampleEvents
      hnumbers hwritten (List.Perm.refl _) haddr (show ¬((2 : ℤ) < 0 ∧ (2 : ℤ) ≥ 0) by decide) hobj
      (provides_sample hinline hnodup path _)
      (fun _ _ _ _ _ _ _ _ p hp _ _ _ => honestNodes_sample hinline hp) Nat.zero_lt_one
  have hlast : resolveRange 2 2 (([1, 2, 3, 4] : Bytes).length : ℤ) = .ok (2, 2) := by decide
  rw [hdata] at hrange hdrains
  obtain ⟨hstart, hlen⟩ := Prod.mk.inj (Except.ok.inj (hrange.symm.trans hlast))
  rw [hstart, hlen] at hdrains
  exact ⟨_, download, hdownload, hdrains⟩

end Storj.Client
