import StorjUplink.Client.ListObjects
import StorjUplink.Client.Pending

/-!
# Listing the uploads

`list_uploads` of `project.rs`.  A prefix that ends with a slash, or none, lists the uncommitted
objects as `list_objects` lists objects, with the keys sealed below the prefix.  Any other prefix
is the key of one object: its streams are listed, in pages whose cursor is the last stream
(`list_uploads_by_key`).

After any interleaving of uploads the listing of a key gives the uploads of the key that are neither
committed nor aborted, each once by its upload ID, and takes up after any of them.

An upload is listed by its ID, which the client makes from the stream of the uncommitted object.  A
stream without an ID cannot be a cursor and is left out.  The order is that of the streams, and the
listing of a key goes from page to page with the last stream as its cursor.

Below a prefix the function lists keys, and one key may have several uploads; how often it is shown
then is the satellite's decision.  So the theorem is about the listing of one key, which the code
tells apart by the missing slash at the end of the prefix.
-/

namespace Storj.Client

open Storj.Enc Storj.Access KeyedStore Paging

/-! ## The requests

Two messages for the two ways.
-/

/-- `ListUploadsOptions`, the same five options as those of a listing of objects. -/
structure ListUploadsOptions where
  keyPrefix : String
  cursor : String
  recursive : Bool
  system : Bool
  custom : Bool

/-- `UploadInfo`, with the content length of its `SystemMetadata`. -/
structure UploadInfo where
  key : String
  uploadId : String
  contentLength : ℤ
deriving DecidableEq

/-- `ListPendingObjectStreamsRequest`. -/
structure ListPendingObjectStreamsRequest where
  bucket : Bytes
  encryptedObjectKey : Bytes
  streamIdCursor : Bytes
  limit : ℤ

/-- `ListObjectsRequest` as it asks for uncommitted objects. -/
structure ListPendingUploadsRequest extends ListObjectsRequest where
  status : ℤ

/-- `MetainfoClient::list_pending_object_streams`: the request, without a limit of its own. -/
def listPendingObjectStreams (bucket : String) (encKey cursor : Bytes) :
    ListPendingObjectStreamsRequest :=
  ⟨utf8 bucket, encKey, cursor, 0⟩

/-- `MetainfoClient::list_pending_uploads`: the request, which asks for streams in the state of an
upload. -/
def listPendingUploads (codec : ListKeyCodec) (bucket : String) (opts : ListUploadsOptions)
    (encryptedCursor : Bytes) : ListPendingUploadsRequest where
  bucket := utf8 bucket
  delimiter := if opts.recursive then [] else [slash]
  encryptedPrefix := codec.encryptedPrefix
  encryptedCursor := encryptedCursor
  recursive := opts.recursive
  limit := 0
  metadata := opts.custom
  excludeSystemMetadata := !opts.system
  arbitraryPrefix := codec.arbitraryPrefix
  status := uploadingStatus

/-! ## The streams

Items become uploads with their ID and their key.
-/

section

variable (prim : PathPrimitives) (ids : AccessPrimitives)

/-- What `list_uploads_by_key` makes of an item. -/
def uploadOfStream (opts : ListUploadsOptions) (item : ObjectListItem) : Option UploadInfo :=
  if item.streamId = [] then none
  else some ⟨opts.keyPrefix, encodeUploadId ids item.streamId,
    if opts.system then item.plainSize else 0⟩

/-- The stream after which `list_uploads_by_key` starts. -/
def streamCursor (cursor : String) : Except Error Bytes :=
  if cursor = "" then .ok [] else decodeUploadId ids cursor

/-- `list_uploads_by_key`, to the end of the stream: the prefix is the key of one object, and the
pages list its pending streams. -/
def listUploadsByKey (store : Store) (bucket : String) (opts : ListUploadsOptions)
    (call : ListPendingObjectStreamsRequest → Except Error (Page ObjectListItem)) (fuel : ℕ) :
    Option (List UploadInfo × Option Error) :=
  let prepared := do
    let encKey ← (encryptPath prim bucket opts.keyPrefix store).mapError mapEnc
    let cursor ← streamCursor ids opts.cursor
    .ok (encKey, cursor)
  match prepared with
  | .error e => some ([], some e)
  | .ok (encKey, cursor) =>
      drain (fetchPage (fun cursor => call (listPendingObjectStreams bucket encKey cursor))
        ObjectListItem.streamId (fun items => .ok (items.filterMap (uploadOfStream ids opts)))) fuel
        ⟨cursor, [], false⟩

/-- What `list_uploads` makes of a page below a prefix.  Here the content length is not asked
about. -/
def convertUploadPage (codec : ListKeyCodec) : List ObjectListItem → Except Error (List UploadInfo)
  | [] => .ok []
  | item :: items =>
      if item.isPrefix ∨ item.streamId = [] then convertUploadPage codec items
      else
        match codec.decodeKey prim item.encryptedObjectKey with
        | .ok key => do
            let out ← convertUploadPage codec items
            .ok (⟨key, encodeUploadId ids item.streamId, item.plainSize⟩ :: out)
        | .error e => if skippableListDecrypt e then convertUploadPage codec items else .error e

/-- `list_uploads`, to the end of the stream.  A prefix that is not empty and does not end in a
slash is a key, and takes the other way. -/
def listUploads (store : Store) (bucket : String) (opts : ListUploadsOptions)
    (streams : ListPendingObjectStreamsRequest → Except Error (Page ObjectListItem))
    (call : ListPendingUploadsRequest → Except Error (Page ObjectListItem)) (fuel : ℕ) :
    Option (List UploadInfo × Option Error) :=
  match requireBucketName bucket with
  | .error e => some ([], some e)
  | .ok () =>
      if opts.keyPrefix ≠ "" ∧ endsWithSlash opts.keyPrefix = false then
        listUploadsByKey prim ids store bucket opts streams fuel
      else
        let prepared := do
          let codec ← ListKeyCodec.new prim store bucket opts.keyPrefix
          let cursor ← codec.encodeCursor prim opts.cursor
          .ok (codec, cursor)
        match prepared with
        | .error e => some ([], some e)
        | .ok (codec, cursor) =>
            drain (fetchPage (fun cursor => call (listPendingUploads codec bucket opts cursor))
              ObjectListItem.encryptedObjectKey (convertUploadPage prim ids codec)) fuel
              ⟨cursor, [], false⟩

end

/-! ## What the satellite lists

The streams at the path of the key, in pages.
-/

variable {H : Type} {prim : MetaPrimitives} {ids : AccessPrimitives} {store : Store}

/-- **The streams that the satellite lists**: those of its uncommitted objects at a path, in pages.
-/
structure ListsStreams (sat : SatelliteState H) (bucket : String) (path : Bytes)
    (call : ListPendingObjectStreamsRequest → Except Error (Page ObjectListItem))
    (items : List ObjectListItem) : Prop where
  pages : Pages (fun cursor => call (listPendingObjectStreams bucket path cursor))
    ObjectListItem.streamId [] items
  nodup : (items.map ObjectListItem.streamId).Nodup
  mem : ∀ streamId, streamId ∈ items.map ObjectListItem.streamId ↔
    ∃ p, sat.pending streamId = some p ∧ p.bucket = bucket ∧ p.path = path

/-! ## What is listed

The uploads of the project at the key.  Their IDs are different, because their streams are.
-/

/-- Every upload has the ID of a stream. -/
def Project.Encoded (ids : AccessPrimitives) (project : Project) : Prop :=
  ∀ uploadId u, project.uploads uploadId = some u → ∃ streamId, encodeUploadId ids streamId = uploadId

/-- Changing the upload of a stream. -/
lemma Project.Encoded.update {project : Project} (h : project.Encoded ids) (objects : Objects)
    (streamId : Bytes) (v : Option PendingUpload) :
    Project.Encoded ids
      ⟨objects, Function.update project.uploads (encodeUploadId ids streamId) v⟩ := by
  intro uploadId u hu
  by_cases hid : uploadId = encodeUploadId ids streamId
  · exact ⟨streamId, hid.symm⟩
  · dsimp only at hu
    rw [Function.update_of_ne hid] at hu
    exact h uploadId u hu

/-- Every step keeps this: what is begun has the ID that `begin_upload` made. -/
lemma Project.Encoded.step {project : Project} (h : project.Encoded ids) {sat sat' : SatelliteState H}
    {event : UploadEvent} (hstep : UploadStep prim ids store sat event sat') :
    (event.apply project).Encoded ids := by
  cases hstep with
  | call step => exact h
  | beginUpload sent addressed =>
      obtain rfl := beginUpload_eq_ok sent
      exact h.update _ _ _
  | commitSegment start part committed found addressed => exact h.update _ _ _
  | commitUpload sent found addressed stored fits => exact h.update _ _ _
  | abortUpload sent found same => exact h.update _ _ _

lemma encoded_of_run {events : List UploadEvent} {sat : SatelliteState H}
    (hrun : Runs (UploadStep prim ids store) .empty events sat) :
    (events.foldl UploadEvent.apply .empty).Encoded ids := by
  have hempty : Project.Encoded ids .empty := by
    intro uploadId u hu
    cases hu
  exact Runs.simulates (R := fun _ project => Project.Encoded ids project) (f := UploadEvent.apply)
    (fun _ _ _ _ h hstep => h.step hstep) hempty hrun

/-- What is made of an item is the upload of its stream. -/
lemma uploadOfStream_eq_some {opts : ListUploadsOptions} {item : ObjectListItem} {info : UploadInfo} :
    uploadOfStream ids opts item = some info ↔ item.streamId ≠ [] ∧
      ⟨opts.keyPrefix, encodeUploadId ids item.streamId,
        if opts.system then item.plainSize else 0⟩ = info := by
  rw [uploadOfStream]
  by_cases hempty : item.streamId = []
  · simp [hempty]
  · rw [if_neg hempty, Option.some.injEq, and_iff_right hempty]

/-- The IDs that are given are those of the streams. -/
lemma map_uploadOfStream (opts : ListUploadsOptions) (items : List ObjectListItem) :
    (items.filterMap (uploadOfStream ids opts)).map UploadInfo.uploadId
      = ((items.map ObjectListItem.streamId).filter (· ≠ [])).map (encodeUploadId ids) := by
  induction items with
  | nil => rfl
  | cons item items ih =>
      by_cases hempty : item.streamId = []
      · simp [uploadOfStream, hempty, ih]
      · simp [uploadOfStream, hempty, ih]

/-- **A listing of a key from a cursor on**: it gives what comes after the items before the cursor.
-/
lemma listUploads_from {bucket : String} {opts : ListUploadsOptions} {path : Bytes}
    (hexact : endsWithSlash opts.keyPrefix = false)
    (haddr : address prim.toPathPrimitives store (bucket, opts.keyPrefix) = some (bucket, path))
    {streams : ListPendingObjectStreamsRequest → Except Error (Page ObjectListItem)}
    {call : ListPendingUploadsRequest → Except Error (Page ObjectListItem)}
    {before rest : List ObjectListItem}
    (hpages : Pages (fun cursor => streams (listPendingObjectStreams bucket path cursor))
      ObjectListItem.streamId [] (before ++ rest)) {cursor : String}
    (hcursor : streamCursor ids cursor = .ok (cursorAfter ObjectListItem.streamId [] before))
    {fuel : ℕ} (hfuel : 2 * rest.length + 2 ≤ fuel) :
    listUploads prim.toPathPrimitives ids store bucket { opts with cursor } streams call fuel
      = some (rest.filterMap (uploadOfStream ids opts), none) := by
  obtain ⟨hbucket, hkey, hpath, -⟩ := address_eq_some.mp haddr
  have hprepared : (do
      let encKey ← (encryptPath prim.toPathPrimitives bucket opts.keyPrefix store).mapError mapEnc
      let cursor ← streamCursor ids cursor
      .ok (encKey, cursor)) = Except.ok (path, cursorAfter ObjectListItem.streamId [] before) := by
    rw [hpath, hcursor]
    rfl
  rw [listUploads, requireBucketName_ok hbucket]
  dsimp only
  rw [if_pos ⟨hkey, hexact⟩, listUploadsByKey]
  dsimp only
  rw [hprepared]
  exact drain_pages hpages.after (fun _ _ => rfl) hfuel

/-- **What is uploaded is what is listed.**  After any interleaving of uploads and other calls,
`list_uploads` of a key gives the uploads that were begun at the key and neither committed nor
aborted, each once and by its upload ID, and from the ID of any of them on it gives what came after
it. -/
theorem listUploads_agrees (hs : Sealed prim store) (hids : ids.Lawful) {events : List UploadEvent}
    {sat : SatelliteState H} (hrun : Runs (UploadStep prim ids store) .empty events sat)
    {bucket : String} {opts : ListUploadsOptions} (hexact : endsWithSlash opts.keyPrefix = false)
    {path : Bytes}
    (haddr : address prim.toPathPrimitives store (bucket, opts.keyPrefix) = some (bucket, path))
    {streams : ListPendingObjectStreamsRequest → Except Error (Page ObjectListItem)}
    {items : List ObjectListItem} (hlists : ListsStreams sat bucket path streams items)
    (call : ListPendingUploadsRequest → Except Error (Page ObjectListItem)) :
    ∃ infos : List UploadInfo, (infos.map UploadInfo.uploadId).Nodup ∧
      (∀ info ∈ infos, info.key = opts.keyPrefix ∧ (opts.system = false → info.contentLength = 0)) ∧
      (∀ uploadId, uploadId ∈ infos.map UploadInfo.uploadId ↔ uploadId ≠ encodeUploadId ids [] ∧
        ∃ u, (events.foldl UploadEvent.apply .empty).uploads uploadId = some u ∧ u.bucket = bucket ∧
          u.key = opts.keyPrefix) ∧
      ∀ before rest cursor, infos = before ++ rest →
        (before = [] ∧ cursor = "" ∨ (before.getLast?.map UploadInfo.uploadId) = some cursor) →
        ∀ fuel, 2 * items.length + 2 ≤ fuel →
          listUploads prim.toPathPrimitives ids store bucket { opts with cursor } streams call fuel
            = some (rest, none) := by
  have htracks := tracks_of_run hs hids hrun
  have hencoded := encoded_of_run hrun
  generalize (events.foldl UploadEvent.apply .empty) = project at *
  refine ⟨items.filterMap (uploadOfStream ids opts), ?_, ?_, fun uploadId => ?_, ?_⟩
  · rw [map_uploadOfStream]
    exact (hlists.nodup.filter _).map (encodeUploadId_injective hids)
  · intro info hinfo
    obtain ⟨item, -, hitem⟩ := List.mem_filterMap.mp hinfo
    obtain ⟨-, rfl⟩ := uploadOfStream_eq_some.mp hitem
    exact ⟨rfl, fun hsystem => if_neg (Bool.eq_false_iff.mp hsystem)⟩
  · rw [map_uploadOfStream, List.mem_map]
    constructor
    · rintro ⟨streamId, hmem, rfl⟩
      obtain ⟨hin, hne⟩ := List.mem_filter.mp hmem
      obtain ⟨p, hp, hbucket, hpath⟩ := (hlists.mem streamId).mp hin
      obtain ⟨u, hu, hholds⟩ := Represents.value htracks.pending rfl hp
      have haddressed := hholds.addressed
      rw [hbucket, hpath] at haddressed
      obtain ⟨hb, hk⟩ := Prod.mk.inj (hs.distinct _ _ _ haddressed haddr)
      have hid : encodeUploadId ids streamId ≠ encodeUploadId ids [] := fun heq =>
        of_decide_eq_true hne (encodeUploadId_injective hids heq)
      exact ⟨hid, u, hu, hb, hk⟩
    · rintro ⟨hne, u, hu, hb, hk⟩
      obtain ⟨streamId, rfl⟩ := hencoded _ _ hu
      obtain ⟨p, hp, hholds⟩ := Represents.some htracks.pending (k := streamId) rfl hu
      have haddressed := hholds.addressed
      rw [hb, hk, haddr, Option.some.injEq, Prod.mk.injEq] at haddressed
      have hin : streamId ∈ items.map ObjectListItem.streamId :=
        (hlists.mem streamId).mpr ⟨p, hp, haddressed.1.symm, haddressed.2.symm⟩
      exact ⟨streamId, List.mem_filter.mpr ⟨hin, decide_eq_true fun hnil => hne (hnil ▸ rfl)⟩, rfl⟩
  · rintro before rest cursor hinfos hcursor fuel hfuel
    rcases hcursor with ⟨rfl, rfl⟩ | hlast
    · rw [List.nil_append] at hinfos
      rw [← hinfos]
      have hpages : Pages (fun cursor => streams (listPendingObjectStreams bucket path cursor))
          ObjectListItem.streamId [] ([] ++ items) := hlists.pages
      exact listUploads_from hexact haddr hpages rfl hfuel
    · -- the item of the last upload before the cursor
      obtain ⟨info, hinfo, rfl⟩ := Option.map_eq_some_iff.mp hlast
      obtain ⟨init, rfl⟩ := List.getLast?_eq_some_iff.mp hinfo
      rw [List.append_assoc, List.filterMap_eq_append_iff] at hinfos
      obtain ⟨first, second, rfl, _, hsecond⟩ := hinfos
      rw [List.singleton_append, List.filterMap_eq_cons_iff] at hsecond
      obtain ⟨skipped, item, after, rfl, _, hitem, hrest⟩ := hsecond
      obtain ⟨_, rfl⟩ := uploadOfStream_eq_some.mp hitem
      rw [← hrest]
      have hsplit : first ++ (skipped ++ item :: after) = (first ++ skipped ++ [item]) ++ after := by
        simp
      have hlength : after.length ≤ (first ++ (skipped ++ item :: after)).length := by
        simp only [List.length_append, List.length_cons]
        omega
      refine listUploads_from hexact haddr (hsplit ▸ hlists.pages) ?_ (by omega)
      rw [streamCursor, if_neg (encodeUploadId_ne hids _), decodeUploadId_encodeUploadId hids,
        cursorAfter, List.getLast?_concat]
      rfl

/-! ## A sample

The two uploads of the run in `Pending`, while both are open.
-/

/-- What is listed of a stream. -/
def sampleStream (path streamId : Bytes) : ObjectListItem :=
  ⟨path, uploadingStatus, [], [], [], 0, streamId⟩

/-- Two uploads of one key, listed on a page each. -/
theorem listUploads_agrees_sample : ∃ streams call infos,
    listUploads copyPrimitives samplePrimitives aesStore "b" ⟨"k", "", false, false, false⟩ streams call 6
      = some (infos, none) ∧
    (infos.map UploadInfo.uploadId).Perm [sampleUploadId, otherUploadId] ∧
    ∀ info ∈ infos, info.key = "k" := by
  obtain ⟨path, haddr⟩ := exists_path_sample (show "k" ≠ "" by decide) (isSome_path_sample _ (by simp))
  let opts : ListUploadsOptions := ⟨"k", "", false, false, false⟩
  let sat : SatelliteState Unit := sampleState (some ⟨"b", path, []⟩) (some ⟨"b", path, []⟩)
  have hrun := exists_begun_sample haddr
  let page : Bytes → Page ObjectListItem := fun cursor =>
    if cursor = [] then ⟨[sampleStream path [1]], true⟩
    else ⟨if cursor = [1] then [sampleStream path [2]] else [], false⟩
  let streams : ListPendingObjectStreamsRequest → Except Error (Page ObjectListItem) := fun request =>
    .ok (page request.streamIdCursor)
  have hlists : ListsStreams sat "b" path streams [sampleStream path [1], sampleStream path [2]] :=
    { pages := pages_pair rfl rfl rfl
      nodup := by
        show ([[1], [2]] : List Bytes).Nodup
        decide
      mem := by
        intro streamId
        show streamId ∈ ([[1], [2]] : List Bytes) ↔ _
        rw [List.mem_pair]
        constructor
        · rintro (rfl | rfl)
          · exact ⟨_, pending_first _ _, rfl, rfl⟩
          · exact ⟨_, pending_second _ _, rfl, rfl⟩
        · rintro ⟨p, hp, -, -⟩
          by_contra hother
          rw [not_or] at hother
          have hnone : sat.pending streamId = none := by
            simp [sat, sampleState, Function.update_of_ne hother.1, Function.update_of_ne hother.2]
          rw [hnone] at hp
          cases hp }
  let call : ListPendingUploadsRequest → Except Error (Page ObjectListItem) := fun _ => .ok ⟨[], false⟩
  have hexact : endsWithSlash opts.keyPrefix = false := by decide
  obtain ⟨infos, hnodup, hkeys, hmem, hlist⟩ :=
    listUploads_agrees sealed_aesStore samplePrimitives_lawful hrun hexact haddr hlists call
  have huploads : ((sampleEvents.take 2).foldl UploadEvent.apply .empty).uploads
      = Function.update (Function.update (fun _ => none) sampleUploadId (some ⟨"b", "k", []⟩))
        otherUploadId (some ⟨"b", "k", []⟩) := rfl
  have hids : (infos.map UploadInfo.uploadId).Perm [sampleUploadId, otherUploadId] := by
    refine (List.perm_ext_iff_of_nodup hnodup (by simpa using sampleUploadId_ne)).mpr fun uploadId => ?_
    rw [hmem, List.mem_pair, huploads]
    constructor
    · rintro ⟨-, u, hu, -, -⟩
      by_contra hother
      rw [not_or] at hother
      rw [Function.update_of_ne hother.2, Function.update_of_ne hother.1] at hu
      cases hu
    · rintro (rfl | rfl)
      · refine ⟨fun heq => ?_, ⟨"b", "k", []⟩, ?_, rfl, rfl⟩
        · cases encodeUploadId_injective samplePrimitives_lawful heq
        · rw [Function.update_of_ne sampleUploadId_ne, Function.update_self]
      · refine ⟨fun heq => ?_, ⟨"b", "k", []⟩, Function.update_self .., rfl, rfl⟩
        cases encodeUploadId_injective samplePrimitives_lawful heq
  exact ⟨streams, call, infos, hlist [] _ "" rfl (.inl ⟨rfl, rfl⟩) 6 le_rfl, hids,
    fun info hinfo => (hkeys info hinfo).1⟩

end Storj.Client
