import StorjUplink.Client.ObjectStore
import StorjUplink.Client.Drain

/-!
# Reading objects back

`download_object` of `project.rs`: it takes the cipher, the block size and the custom metadata out
of the metadata of the object, and reads every segment of the range with them.

An ideal satellite has the plaintext of every segment, and its downloads are assembled as in
`Download.lean` (`Serves.read`).  A download from a real one is the same as long as every segment
that is read is read right (`downloadSegments_congr`), which is what `decryptSegment` does for a
segment that was committed.  So the bytes that the object says are the bytes that come back
(`Says.download`).

Three things have to come together.  The satellite must answer for the object that is at the path,
which is `Provides`: it may send any segments along, list the others in any pages, and name the
pieces in any order.  The nodes that are asked must be honest enough, which is `HonestNodes`,
segment by segment.  And the reader has to read to the end: `Drains` is about every way to read, so
that the bytes are right however the producer and the reader take turns.

The content key is derived from the path and from nothing that the satellite says; what the
satellite adds are the sealed keys of the segments, their sizes and where they are.
-/

namespace Storj.Client

open Storj.Enc Storj.Access MachineInt Buffer Uplink KeyedStore

/-! ## The function

The range is checked, the path sealed, and the answer turned into the parameters with which all
segments are read.
-/

/-- `DownloadObjectResponse`. -/
structure DownloadObjectResponse where
  object : Option ObjectInfo
  segmentList : Option SegmentPage
  segmentDownload : List (SegmentDownload SegmentBody)

/-- What a download meets outside: the satellite, the nodes of every segment, and what stands for a
segment whose download from them does not end. -/
structure DownloadCalls where
  downloadObject : Bytes → Option Uplink.Range → Except Error DownloadObjectResponse
  listSegments : Option Uplink.Range → Option Position → Except Error SegmentPage
  downloadSegment : Position → Except Error (SegmentDownload SegmentBody)
  nodes : Position → Nodes
  unfinished : Error

/-- `validate` of `DownloadOptions`: a suffix has no length of its own. -/
def validateDownload (offset length : ℤ) : Except Error Unit :=
  if offset < 0 ∧ length ≥ 0 then
    .error ⟨.objectKeyInvalid, "suffix requires length to be negative"⟩
  else .ok ()

/-- The cipher, the block size and the custom metadata that `download_segments` goes by. -/
def downloadParameters (prim : MetaPrimitives) (object : Option ObjectRecord) (contentKey : Key) :
    Except Error (CipherSuite × ℕ × CustomMetadata) :=
  let parameters := object.bind fun o => o.encryptionParameters
  let cipher := cipherFromParams parameters
  let blockSize := blockSizeFromParams parameters
  match object with
  | none => .ok (cipher, blockSize, ∅)
  | some o =>
      if o.encryptedMetadata = [] then .ok (cipher, blockSize, ∅)
      else do
        let (streamMeta, custom) ← decryptUserData prim o.encryptedMetadata
          o.encryptedMetadataEncryptedKey o.encryptedMetadataNonce cipher contentKey
        .ok (if streamMeta.encryptionType ≠ 0 then ⟨streamMeta.encryptionType⟩ else cipher,
          if 0 < streamMeta.encryptionBlockSize then streamMeta.encryptionBlockSize.toNat
            else blockSize, custom.userDefined)

/-- What `download_segments` calls for the segments of a range, with a way to decrypt them. -/
def DownloadCalls.satellite (calls : DownloadCalls) (range : Option Uplink.Range)
    (decrypt : SegmentDownload SegmentBody → ℤ → ℤ → Except Error Bytes) : Satellite SegmentBody where
  userData := .ok ()
  listSegments := calls.listSegments range
  downloadSegment := calls.downloadSegment
  decrypt := decrypt

/-- `decrypt_one_segment`, with the nodes of the segment. -/
def DownloadCalls.decrypt (prim : PathPrimitives) (calls : DownloadCalls) (contentKey : Key)
    (cipher : CipherSuite) (blockSize : ℕ) (seg : SegmentDownload SegmentBody)
    (localStart localLen : ℤ) : Except Error Bytes :=
  (decryptSegment prim (calls.nodes (seg.position.getD (0, 0))) contentKey cipher blockSize seg
    localStart localLen).getD (.error calls.unfinished)

/-- The answer, with the length of `object_from_proto`, which is zero where the answer has no
object. -/
def DownloadObjectResponse.toDownload (resp : DownloadObjectResponse) : DownloadObject SegmentBody where
  contentLength := match resp.object with
    | some o => o.plainSize
    | none => 0
  segmentList := resp.segmentList
  segmentDownload := resp.segmentDownload

/-- `start_download_object`, up to `download_segments`: the key and the answer of the satellite. -/
def beginDownload (prim : PathPrimitives) (store : Store) (bucket key : String)
    (offset length : ℤ) (calls : DownloadCalls) : Except Error (Key × DownloadObjectResponse) := do
  validateDownload offset length
  requireBucketName bucket
  requireObjectKey key
  let encPath ← (encryptPath prim bucket key store).mapError mapEnc
  let contentKey ← (deriveContentKey prim bucket (utf8 key) store).mapError mapEnc
  let resp ← calls.downloadObject encPath (protoRange offset length)
  .ok (contentKey, resp)

/-- `start_download_object`: the custom metadata and the body of the download. -/
def startDownloadObject (prim : MetaPrimitives) (store : Store) (bucket key : String)
    (offset length : ℤ) (calls : DownloadCalls) (fuel : ℕ) :
    Option (Except Stop (CustomMetadata × Download)) :=
  match beginDownload prim.toPathPrimitives store bucket key offset length calls with
  | .error e => some (.error (.error e))
  | .ok (contentKey, resp) =>
      match downloadParameters prim (resp.object.map ObjectInfo.toObjectRecord) contentKey with
      | .error e => some (.error (.error e))
      | .ok (cipher, blockSize, custom) =>
          (downloadSegments (calls.satellite (protoRange offset length)
            (calls.decrypt prim.toPathPrimitives contentKey cipher blockSize)) fuel resp.toDownload
              offset length).map fun r => r.map fun download => (custom, download)

/-! ## Satellites that answer alike

If two satellites give the same pages and every segment that is read comes out the same, so does
the download.
-/

section

variable {β : Type} {sat sat' : Satellite β}

lemma listAll_congr (h : sat.listSegments = sat'.listSegments) (fuel : ℕ) (page : SegmentPage) :
    listAll sat fuel page = listAll sat' fuel page := by
  induction fuel generalizing page with
  | zero =>
      obtain ⟨items, more⟩ := page
      cases more with
      | false => rfl
      | true => rfl
  | succ fuel ih =>
      obtain ⟨items, more⟩ := page
      cases more with
      | false => rfl
      | true =>
          rw [listAll, listAll, h]
          cases sat'.listSegments (items.getLast?.bind fun i => i.position) with
          | error e => rfl
          | ok next =>
              dsimp only
              rw [ih]

lemma fetchMissing_congr {present : List Position}
    (h : ∀ pos, pos ∉ present → sat.downloadSegment pos = sat'.downloadSegment pos)
    (plainStart plainLen : ℤ) (items : List SegmentListItem) (downloaded : List (SegmentDownload β)) :
    fetchMissing sat present plainStart plainLen items downloaded
      = fetchMissing sat' present plainStart plainLen items downloaded := by
  induction items generalizing downloaded with
  | nil => rfl
  | cons item items ih =>
      rw [fetchMissing, fetchMissing]
      split_ifs with hskip
      · exact ih _
      · rw [h _ (not_or.mp hskip).2]
        cases sat'.downloadSegment (item.position.getD (0, 0)) with
        | error e => rfl
        | ok seg => exact ih _

/-- What is fetched was there or was downloaded. -/
lemma mem_fetchMissing {present : List Position} {plainStart plainLen : ℤ}
    {items : List SegmentListItem} {downloaded all : List (SegmentDownload β)}
    (h : fetchMissing sat present plainStart plainLen items downloaded = .ok all)
    {seg : SegmentDownload β} (hseg : seg ∈ all) :
    seg ∈ downloaded ∨ ∃ item ∈ items, item.position.getD (0, 0) ∉ present ∧
      sat.downloadSegment (item.position.getD (0, 0)) = .ok seg := by
  induction items generalizing downloaded with
  | nil =>
      cases h
      exact .inl hseg
  | cons item items ih =>
      rw [fetchMissing] at h
      split_ifs at h with hskip
      · refine (ih h).imp_right ?_
        rintro ⟨i, hi, hrest⟩
        exact ⟨i, List.mem_cons_of_mem _ hi, hrest⟩
      · cases hdl : sat.downloadSegment (item.position.getD (0, 0)) with
        | error e =>
            rw [hdl] at h
            cases h
        | ok got =>
            rw [hdl] at h
            cases ih h with
            | inr hlater =>
                obtain ⟨i, hi, hrest⟩ := hlater
                exact .inr ⟨i, List.mem_cons_of_mem _ hi, hrest⟩
            | inl hmem =>
                cases List.mem_append.mp hmem with
                | inl hold => exact .inl hold
                | inr hnew =>
                    rw [List.mem_singleton.mp hnew]
                    exact .inr ⟨item, List.mem_cons_self, (not_or.mp hskip).2, hdl⟩

lemma produce_congr {f g : SegmentDownload β → Except Error (List UInt8)}
    {segs : List (SegmentDownload β)} (h : ∀ seg ∈ segs, f seg = g seg) :
    produce f segs = produce g segs := by
  induction segs with
  | nil => rfl
  | cons seg segs ih =>
      rw [produce, produce, h seg List.mem_cons_self]
      cases g seg with
      | error e => rfl
      | ok plain =>
          dsimp only
          rw [ih fun t ht => h t (List.mem_cons_of_mem _ ht)]

/-- **Satellites that answer alike** give the same download: they list the same, hand over the same
segments besides those of the answer, and what they hand over reads the same. -/
lemma downloadSegments_congr {resp : DownloadObject β} {offset length plainStart plainLen : ℤ}
    {objectSize : ℤ} {items : List SegmentListItem} {fuel : ℕ}
    (huser : sat.userData = sat'.userData) (hlist : sat.listSegments = sat'.listSegments)
    (hitems : listAll sat' fuel (resp.segmentList.getD ⟨[], false⟩) = some (.ok items))
    (hdownload : ∀ pos, pos ∉ resp.segmentDownload.filterMap (fun s => s.position) →
      sat.downloadSegment pos = sat'.downloadSegment pos)
    (hsize : contentLength resp items = some objectSize)
    (hrange : resolveRange offset length objectSize = .ok (plainStart, plainLen))
    (hread : ∀ seg, (seg ∈ resp.segmentDownload ∨ ∃ item ∈ items,
        item.position.getD (0, 0) ∉ resp.segmentDownload.filterMap (fun s => s.position) ∧
          sat.downloadSegment (item.position.getD (0, 0)) = .ok seg) →
      decryptOneSegment sat plainStart plainLen seg
        = decryptOneSegment sat' plainStart plainLen seg) :
    downloadSegments sat fuel resp offset length = downloadSegments sat' fuel resp offset length := by
  rw [downloadSegments, downloadSegments, huser, listAll_congr hlist, hitems]
  cases sat'.userData with
  | error e => rfl
  | ok _ =>
      dsimp only [Option.map_some]
      rw [assemble, assemble, hsize]
      dsimp only
      rw [hrange]
      dsimp only
      split_ifs with hzero
      · rfl
      · rw [← fetchMissing_congr hdownload]
        cases hall : fetchMissing sat (resp.segmentDownload.filterMap fun s => s.position)
          plainStart plainLen items resp.segmentDownload with
        | error e => rfl
        | ok all =>
            have hmem : ∀ seg ∈ sortSegments all, seg ∈ all := fun seg => List.mem_mergeSort.mp
            dsimp only
            rw [produce_congr fun seg hseg => hread seg (mem_fetchMissing hall (hmem seg hseg))]

end

/-! ## An ideal satellite

It has the plaintext of every segment and decrypts by looking it up.  For it the assembled download
is the range of the object, and the real one is compared with it.
-/

section

variable {β : Type} {sat : Satellite β} {resp : DownloadObject β}
  {segs given listed : List (ObjectSegment β)}

/-- A range of an object can be resolved. -/
lemma exists_resolveRange {offset length size : ℤ} (hvalid : ¬(offset < 0 ∧ length ≥ 0))
    (hsize : 0 ≤ size) : ∃ start len, resolveRange offset length size = .ok (start, len) := by
  rw [resolveRange, if_neg hvalid, if_neg (not_lt.mpr hsize)]
  by_cases hoffset : offset < 0
  · rw [if_pos hoffset]
    exact ⟨_, _, rfl⟩
  · rw [if_neg hoffset]
    exact ⟨_, _, rfl⟩

lemma mapM_ok {γ : Type} (l : List γ) (f : γ → Bytes) :
    (l.map fun a => (.ok (f a) : Except Error Bytes)).mapM id = .ok (l.map f) := by
  induction l with
  | nil => rfl
  | cons a l ih =>
      rw [List.map_cons, List.mapM_cons, ih]
      rfl

/-- **A download from an ideal satellite** reads the range. -/
lemma Serves.read (h : Serves sat resp segs given listed) {offset length plainStart plainLen : ℤ}
    (hrange : resolveRange offset length resp.contentLength = .ok (plainStart, plainLen))
    (hcover : ∀ s ∈ segs, s.Meets plainStart.toNat plainLen.toNat → s ∈ given ∨ s ∈ listed)
    {fuel : ℕ} (hfuel : listed.length < fuel) :
    ∃ d, downloadSegments sat fuel resp offset length = some (.ok d) ∧
      d.read = .ok (slice (objectBytes segs) plainStart.toNat plainLen.toNat) := by
  obtain ⟨a, n, hpair, hbound⟩ := resolveRange_spec h.contentLength_le hrange
  obtain ⟨rfl, rfl⟩ := Prod.mk.inj hpair
  rw [Int.toNat_natCast, Int.toNat_natCast] at *
  have hmax : (a : ℤ) + n ≤ i64Max := hbound.trans h.contentLength_le
  have hlen : contentLength resp (listed.map ObjectSegment.item) = some resp.contentLength := by
    rw [contentLength, if_neg (not_le.mpr h.contentLength_pos)]
  rw [downloadSegments, h.userData]
  dsimp only
  rw [listAll_eq h.pages (by rw [List.length_map]; exact hfuel), Option.map_some]
  dsimp only
  rw [assemble, hlen]
  dsimp only
  rw [hrange]
  dsimp only
  by_cases hzero : (n : ℤ) = 0
  · rw [if_pos hzero]
    have hn : n = 0 := by omega
    exact ⟨_, rfl, by rw [hn]; simp [Download.read, slice]⟩
  · obtain ⟨served, hsub, hperm, -, hbytes⟩ := h.exists_served hcover
    have hslice : (slice (objectBytes segs) a n).length = n := by
      refine length_slice ?_
      have htotal := h.contentLength_eq
      omega
    have hsome : ((Serves.collected given listed a n).map ObjectSegment.download).isEmpty
        = false := by
      rw [List.isEmpty_eq_false_iff, ne_eq, List.map_eq_nil_iff]
      intro hnil
      rw [hnil, List.perm_nil] at hperm
      rw [← hbytes, hperm, List.flatMap_nil, List.length_nil] at hslice
      omega
    rw [if_neg hzero, h.fetchMissing_collected hmax]
    dsimp only
    rw [hsome, if_neg (by decide), sortSegments_eq h.object hsub hperm,
      produce_eq (g := ObjectSegment.chunk a n)]
    · refine ⟨_, rfl, ?_⟩
      -- the segments are as many bytes as the range
      rw [Download.read, mapM_ok]
      dsimp only
      rw [← List.flatMap_def, hbytes, if_pos (by rw [hslice])]
    · intro s hs
      exact decryptOneSegment_eq hmax (h.end_le (hsub.subset hs)) (h.decrypts s (hsub.subset hs))

end

/-! ## What the satellite hands over

Of each segment the satellite says where it begins, and hands over its bytes or the pieces of it.
-/

variable {H : Type} {prim : MetaPrimitives} {store : Store}

/-- The segments of an object, each with the offset of its bytes. -/
def placed : ℤ → List (StoredSegment H) → List (ℤ × StoredSegment H)
  | _, [] => []
  | off, s :: rest => (off, s) :: placed (off + s.plainSize) rest

/-- A segment in the list of segments. -/
def listItem (p : ℤ × StoredSegment H) : SegmentListItem := ⟨some p.2.position, p.1, p.2.plainSize⟩

/-- What is handed over for a segment. -/
structure HandsOver (calls : DownloadCalls) (p : ℤ × StoredSegment H)
    (seg : SegmentDownload SegmentBody) : Prop where
  plainOffset : seg.plainOffset = p.1
  answers : Answers (calls.nodes p.2.position).validKeypair p.2 seg

/-- **What a satellite answers to a download**: the object, some of its segments, and pages of a
list of segments that it hands over one by one; between them there are all that have bytes of the
range. -/
structure Provides (calls : DownloadCalls) (path : Bytes) (range : Option Uplink.Range)
    (obj : StoredObject H) (resp : DownloadObjectResponse) (listed : List (ℤ × StoredSegment H)) :
    Prop where
  answer : calls.downloadObject path range = .ok resp
  object : resp.object = some obj.info
  given : ∀ seg ∈ resp.segmentDownload, ∃ p ∈ placed 0 obj.segments, HandsOver calls p seg
  given_nodup : (resp.segmentDownload.map SegmentDownload.position).Nodup
  listed_subset : listed ⊆ placed 0 obj.segments
  listed_nodup : (listed.map fun p => p.2.position).Nodup
  pages : Paginates (calls.satellite range fun _ _ _ => .error calls.unfinished)
    (resp.segmentList.getD ⟨[], false⟩) (listed.map listItem)
  downloads : ∀ p ∈ listed, some p.2.position ∉ resp.segmentDownload.map SegmentDownload.position →
    ∃ seg, calls.downloadSegment p.2.position = .ok seg ∧ HandsOver calls p seg
  cover : ∀ p ∈ placed 0 obj.segments,
    (∃ i ∈ rangeBytes obj.info.plainSize range, p.1 ≤ i ∧ i < p.1 + p.2.plainSize) →
      some p.2.position ∈ resp.segmentDownload.map SegmentDownload.position ∨ p ∈ listed

/-- **Honest nodes**, for what is asked of a segment: they send what was uploaded, and enough of
them are up. -/
def HonestNodes (prim : PathPrimitives) (calls : DownloadCalls) (contentKey : Key)
    (cipher : CipherSuite) (blockSize : ℕ) (plainStart plainLen : ℤ) (s : StoredSegment H)
    (seg : SegmentDownload SegmentBody) : Prop :=
  ∀ size scheme pieces results rjob, s.content = .remote size scheme pieces results →
    planSegment prim (calls.nodes s.position).validKeypair contentKey cipher blockSize seg
      (segmentPlainRange plainStart plainLen seg.plainOffset seg.plainSize).1
      (segmentPlainRange plainStart plainLen seg.plainOffset seg.plainSize).2
        = .ok (.remote rjob) →
    HonestRace (calls.nodes s.position) pieces rjob

/-! ## The ideal satellite of an object

The segments of the object that is stored, with the plaintexts of the bytes that it says.
-/

/-- The segments of an object with their plaintexts, each with what was handed over for it. -/
def objectSegments (body : Position → SegmentBody) : ℕ → List SegmentCommit →
    List (ObjectSegment SegmentBody)
  | _, [] => []
  | off, job :: rest =>
      ⟨(job.partNumber, job.index), off, job.plain, body (job.partNumber, job.index)⟩ ::
        objectSegments body (off + job.plain.length) rest

/-- The two descriptions of a segment. -/
structure Row (prim : PathPrimitives) (cipher : CipherSuite) (blockSize : ℕ) (contentKey : Key)
    (body : Position → SegmentBody) (os : ObjectSegment SegmentBody) (p : ℤ × StoredSegment H) :
    Prop where
  position : os.position = p.2.position
  offset : (os.offset : ℤ) = p.1
  plainSize : p.2.plainSize = os.plain.length
  body_eq : os.body = body p.2.position
  stored : ∃ job key, job.plain = os.plain ∧
    IsStored prim cipher blockSize contentKey key job p.2

section Ideal

variable {cipher : CipherSuite} {blockSize : ℕ} {contentKey : Key} {body : Position → SegmentBody}
  {jobs : List SegmentCommit} {segments : List (StoredSegment H)}

lemma consecutive_objectSegments (body : Position → SegmentBody) (off : ℕ)
    (jobs : List SegmentCommit) : Consecutive off (objectSegments body off jobs) := by
  induction jobs generalizing off with
  | nil => trivial
  | cons job jobs ih => exact ⟨rfl, ih _⟩

lemma objectBytes_objectSegments (body : Position → SegmentBody) (off : ℕ)
    (jobs : List SegmentCommit) :
    objectBytes (objectSegments body off jobs) = jobs.flatMap SegmentCommit.plain := by
  induction jobs generalizing off with
  | nil => rfl
  | cons job jobs ih =>
      rw [objectBytes, objectSegments, List.flatMap_cons, List.flatMap_cons]
      exact congrArg _ (ih _)

lemma map_position_objectSegments (body : Position → SegmentBody) (off : ℕ)
    (jobs : List SegmentCommit) : (objectSegments body off jobs).map ObjectSegment.position
      = jobs.map fun job => (job.partNumber, job.index) := by
  induction jobs generalizing off with
  | nil => rfl
  | cons job jobs ih => rw [objectSegments, List.map_cons, List.map_cons, ih]

/-- An assembly is an object. -/
lemma Assembly.isObject {data : Bytes} (h : Assembly jobs data) (body : Position → SegmentBody) :
    IsObject (objectSegments body 0 jobs) where
  ordered := by
    have hmap : ((objectSegments body 0 jobs).map ObjectSegment.position).Pairwise fun p q =>
        positionLe p q ∧ p ≠ q := by
      rw [map_position_objectSegments]
      exact List.pairwise_map.mpr h.ordered
    exact List.pairwise_map.mp hmap
  consecutive := consecutive_objectSegments body 0 jobs

/-- The rows of an object. -/
lemma forall₂_row {prim : PathPrimitives} (body : Position → SegmentBody) {off : ℕ}
    (h : List.Forall₂ (fun job s => ∃ key, IsStored prim cipher blockSize contentKey key job s) jobs
      segments) (hfits : ((jobs.flatMap SegmentCommit.plain).length : ℤ) ≤ i64Max) :
    List.Forall₂ (Row prim cipher blockSize contentKey body) (objectSegments body off jobs)
      (placed off segments) := by
  induction h generalizing off with
  | nil => exact .nil
  | @cons job s jobs segments hjob _ ih =>
      obtain ⟨key, hstored⟩ := hjob
      rw [List.flatMap_cons, List.length_append, Nat.cast_add] at hfits
      have hmax := natCast_isizeMax
      have hsize : s.plainSize = job.plain.length := by
        rw [hstored.plainSize, lastPlain, satI64_natCast (by omega)]
      have hrest := @ih (off + job.plain.length) (by omega)
      rw [objectSegments, placed, hsize, ← Nat.cast_add]
      exact .cons ⟨hstored.position.symm, rfl, hsize, congrArg body hstored.position.symm,
        job, key, rfl, hstored⟩ hrest

/-- Both sides of related lists. -/
lemma forall₂_mem {α β : Type*} {R : α → β → Prop} {l : List α} {m : List β}
    (h : List.Forall₂ R l m) : (∀ a ∈ l, ∃ b ∈ m, R a b) ∧ ∀ b ∈ m, ∃ a ∈ l, R a b := by
  induction h with
  | nil => exact ⟨nofun, nofun⟩
  | cons hab _ ih =>
      constructor
      · intro a ha
        cases List.mem_cons.mp ha with
        | inl heq => exact ⟨_, List.mem_cons_self, heq ▸ hab⟩
        | inr hmem =>
            obtain ⟨b, hb, hr⟩ := ih.1 a hmem
            exact ⟨b, List.mem_cons_of_mem _ hb, hr⟩
      · intro b hb
        cases List.mem_cons.mp hb with
        | inl heq => exact ⟨_, List.mem_cons_self, heq ▸ hab⟩
        | inr hmem =>
            obtain ⟨a, ha, hr⟩ := ih.2 b hmem
            exact ⟨a, List.mem_cons_of_mem _ ha, hr⟩

/-- What is handed over for a row is its download. -/
lemma Row.download_eq {prim : PathPrimitives} {os : ObjectSegment SegmentBody}
    {p : ℤ × StoredSegment H} (h : Row prim cipher blockSize contentKey body os p)
    {calls : DownloadCalls} {seg : SegmentDownload SegmentBody} (hseg : HandsOver calls p seg)
    (hbody : body p.2.position = seg.body) : os.download = seg := by
  obtain ⟨position, plainOffset, plainSize, segBody⟩ := seg
  rw [ObjectSegment.download, h.position, h.offset, ← h.plainSize, h.body_eq, hbody,
    ← hseg.answers.plainSize, ← hseg.plainOffset, ← hseg.answers.position]

/-- A list of images. -/
lemma exists_map_eq {α β : Type*} {f : α → β} {l : List β} {S : List α}
    (h : ∀ b ∈ l, ∃ a ∈ S, f a = b) : ∃ l' : List α, l'.map f = l ∧ l' ⊆ S := by
  induction l with
  | nil => exact ⟨[], rfl, List.nil_subset _⟩
  | cons b l ih =>
      obtain ⟨a, ha, rfl⟩ := h b List.mem_cons_self
      obtain ⟨l', hl', hsub⟩ := ih fun c hc => h c (List.mem_cons_of_mem _ hc)
      exact ⟨a :: l', by rw [List.map_cons, hl'], List.cons_subset.mpr ⟨ha, hsub⟩⟩

/-- Looking up an element by what is different in all of them. -/
lemma find?_of_nodup {α γ : Type*} [DecidableEq γ] {f : α → γ} {l : List α} (hl : (l.map f).Nodup)
    {a : α} (ha : a ∈ l) : (l.find? fun x => f x = f a) = some a := by
  induction l with
  | nil => cases ha
  | cons b l ih =>
      rw [List.map_cons, List.nodup_cons] at hl
      cases List.mem_cons.mp ha with
      | inl heq => rw [heq, List.find?_cons_of_pos (by simp)]
      | inr hmem =>
          have hne : f b ≠ f a := fun heq => hl.1 (heq ▸ List.mem_map_of_mem hmem)
          rw [List.find?_cons_of_neg (by simpa using hne), ih hl.2 hmem]

/-- Only what is asked of a segment has to be read right. -/
lemma decryptOneSegment_of_read {β : Type} {sat : Satellite β} {s : ObjectSegment β} {a n : ℕ}
    (ha : (a : ℤ) + n ≤ i64Max) (hs : (s.offset : ℤ) + s.plain.length ≤ i64Max)
    (hread : ∀ i len : ℕ, segmentPlainRange a n s.offset s.plain.length = ((i : ℤ), (len : ℤ)) →
      1 ≤ len → i + len ≤ s.plain.length →
      sat.decrypt s.download i len = .ok (slice s.plain i len)) :
    decryptOneSegment sat a n s.download = .ok (s.chunk a n) := by
  have hrange := segmentPlainRange_eq ha hs
  by_cases hmeets : s.Meets a n
  · have hlt : max a s.offset < min (a + n) (s.offset + s.plain.length) := hmeets
    rw [if_neg (not_le.mpr hlt)] at hrange
    rw [decryptOneSegment]
    show (if (segmentPlainRange a n s.offset s.plain.length).2 = 0 then _ else
      sat.decrypt s.download (segmentPlainRange a n s.offset s.plain.length).1
        (segmentPlainRange a n s.offset s.plain.length).2) = _
    rw [if_neg ((plainRange_eq_zero_iff ha hs).not.mpr (not_not.mpr hmeets)), hrange,
      hread _ _ hrange (by omega) (by omega), ObjectSegment.chunk, overlap_eq_slice]
  · rw [decryptOneSegment, chunk_eq_nil hmeets]
    exact if_pos ((plainRange_eq_zero_iff ha hs).mpr hmeets)

/-- What was handed over at a position. -/
def handedBody (calls : DownloadCalls) (given : List (SegmentDownload SegmentBody))
    (pos : Position) : SegmentBody :=
  match given.find? fun g => g.position = some pos with
  | some g => g.body
  | none =>
      match calls.downloadSegment pos with
      | .ok g => g.body
      | .error _ => ⟨[], [], [], 0, [], [], none⟩

/-- The satellite that has the plaintexts: listings and answers are those of the real one, and
decrypting a segment cuts the plaintext that was stored at its position. -/
def idealSatellite (calls : DownloadCalls) (range : Option Uplink.Range)
    (given : List (SegmentDownload SegmentBody)) (segs : List (ObjectSegment SegmentBody)) :
    Satellite SegmentBody where
  userData := .ok ()
  listSegments := calls.listSegments range
  downloadSegment pos :=
    match given.find? fun g => g.position = some pos with
    | some g => .ok g
    | none => calls.downloadSegment pos
  decrypt seg i len :=
    let found := segs.find? fun s => s.position = seg.position.getD (0, 0)
    .ok (slice ((found.map ObjectSegment.plain).getD []) i.toNat len.toNat)

section Provides

variable {prim : PathPrimitives} {calls : DownloadCalls} {path : Bytes} {range : Option Uplink.Range}
  {obj : StoredObject H} {resp : DownloadObjectResponse} {listed : List (ℤ × StoredSegment H)}
  {segs : List (ObjectSegment SegmentBody)}

/-- A segment of the answer is found at its position. -/
lemma Provides.find?_given (h : Provides calls path range obj resp listed)
    {seg : SegmentDownload SegmentBody} (hseg : seg ∈ resp.segmentDownload) {pos : Position}
    (hpos : seg.position = some pos) :
    (resp.segmentDownload.find? fun g => g.position = some pos) = some seg := by
  rw [← hpos]
  exact find?_of_nodup h.given_nodup hseg

lemma find?_not_given {given : List (SegmentDownload SegmentBody)} {pos : Position}
    (hpos : some pos ∉ given.map SegmentDownload.position) :
    (given.find? fun g => g.position = some pos) = none := by
  refine List.find?_eq_none.mpr fun g hg heq => hpos ?_
  rw [← of_decide_eq_true heq]
  exact List.mem_map_of_mem hg

/-- What is in the answer is the download of its segment. -/
lemma Provides.given_download (h : Provides calls path range obj resp listed)
    {seg : SegmentDownload SegmentBody} (hseg : seg ∈ resp.segmentDownload)
    {os : ObjectSegment SegmentBody} {p : ℤ × StoredSegment H}
    (hrow : Row prim cipher blockSize contentKey (handedBody calls resp.segmentDownload) os p)
    (hp : HandsOver calls p seg) : os.download = seg :=
  hrow.download_eq hp (by rw [handedBody, h.find?_given hseg hp.answers.position])

/-- What is downloaded besides is the download of its segment. -/
lemma fetched_download {seg : SegmentDownload SegmentBody} {os : ObjectSegment SegmentBody}
    {p : ℤ × StoredSegment H}
    (hrow : Row prim cipher blockSize contentKey (handedBody calls resp.segmentDownload) os p)
    (hnot : some p.2.position ∉ resp.segmentDownload.map SegmentDownload.position)
    (hfetch : calls.downloadSegment p.2.position = .ok seg) (hp : HandsOver calls p seg) :
    os.download = seg :=
  hrow.download_eq hp (by rw [handedBody, find?_not_given hnot, hfetch])

/-- **The ideal satellite serves the object**, in what the real one hands over. -/
lemma Provides.serves (h : Provides calls path range obj resp listed) (hobject : IsObject segs)
    (hrows : List.Forall₂
      (Row prim cipher blockSize contentKey (handedBody calls resp.segmentDownload)) segs
      (placed 0 obj.segments))
    (hsize : obj.info.plainSize = (objectBytes segs).length) (hpos : 0 < obj.info.plainSize)
    (hfits : obj.info.plainSize ≤ i64Max) {a n : ℕ}
    (hrange : Set.Ico (a : ℤ) (a + n) = rangeBytes obj.info.plainSize range) :
    ∃ given' listed', listed'.map ObjectSegment.item = listed.map listItem ∧
      Serves (idealSatellite calls range resp.segmentDownload segs) resp.toDownload segs given'
        listed' ∧ ∀ s ∈ segs, s.Meets a n → s ∈ given' ∨ s ∈ listed' := by
  obtain ⟨hleft, hright⟩ := forall₂_mem hrows
  obtain ⟨given', hgiven, hgivenSub⟩ :
      ∃ l : List (ObjectSegment SegmentBody), l.map ObjectSegment.download = resp.segmentDownload ∧
        l ⊆ segs := by
    refine exists_map_eq fun seg hseg => ?_
    obtain ⟨p, hp, hover⟩ := h.given seg hseg
    obtain ⟨os, hos, hrow⟩ := hright p hp
    exact ⟨os, hos, h.given_download hseg hrow hover⟩
  obtain ⟨listed', hlisted, hlistedSub⟩ :
      ∃ l : List (ObjectSegment SegmentBody), l.map ObjectSegment.item = listed.map listItem ∧
        l ⊆ segs := by
    refine exists_map_eq fun item hitem => ?_
    obtain ⟨p, hp, rfl⟩ := List.mem_map.mp hitem
    obtain ⟨os, hos, hrow⟩ := hright p (h.listed_subset hp)
    exact ⟨os, hos, by rw [ObjectSegment.item, listItem, hrow.position, hrow.offset, hrow.plainSize]⟩
  have hpositions : given'.map (fun os => some os.position)
      = resp.segmentDownload.map SegmentDownload.position := by
    rw [← hgiven, List.map_map]
    rfl
  have hlistedPositions : listed'.map ObjectSegment.position
      = listed.map fun p => p.2.position := by
    have hsame := congrArg (List.map SegmentListItem.position) hlisted
    rw [List.map_map, List.map_map] at hsame
    refine List.map_injective_iff.mpr (Option.some_injective _) ?_
    rw [List.map_map, List.map_map]
    exact hsame
  have hlength : resp.toDownload.contentLength = obj.info.plainSize := by
    rw [DownloadObjectResponse.toDownload, h.object]
  refine ⟨given', listed', hlisted, ?_, ?_⟩
  · exact
    { object := hobject
      contentLength_eq := hlength.trans hsize
      contentLength_pos := hlength ▸ hpos
      contentLength_le := hlength ▸ hfits
      userData := rfl
      given_eq := hgiven.symm
      given_nodup := by
        refine List.Nodup.of_map (fun os => some os.position) ?_
        rw [hpositions]
        exact h.given_nodup
      given_subset := hgivenSub
      pages := by
        rw [hlisted]
        exact ⟨h.pages.first_page, h.pages.next_page⟩
      listed_nodup := by
        refine List.Nodup.of_map ObjectSegment.position ?_
        rw [hlistedPositions]
        exact h.listed_nodup
      listed_subset := hlistedSub
      downloads := by
        intro os hos
        obtain ⟨p, hp, hpos⟩ : ∃ p ∈ listed, p.2.position = os.position := by
          have hmem := List.mem_map_of_mem (f := ObjectSegment.position) hos
          rw [hlistedPositions] at hmem
          exact List.mem_map.mp hmem
        obtain ⟨os', hos', hrow⟩ := hright p (h.listed_subset hp)
        obtain rfl : os' = os :=
          hobject.eq_of_position hos' (hlistedSub hos) (hrow.position.trans hpos)
        show (match resp.segmentDownload.find? fun g => g.position = some os'.position with
          | some g => Except.ok g
          | none => calls.downloadSegment os'.position) = .ok os'.download
        rw [← hpos]
        by_cases hin : some p.2.position ∈ resp.segmentDownload.map SegmentDownload.position
        · obtain ⟨seg, hseg, hsegpos⟩ := List.mem_map.mp hin
          obtain ⟨q, hq, hover⟩ := h.given seg hseg
          obtain ⟨os'', hos'', hrow'⟩ := hright q hq
          have hqp : q.2.position = p.2.position :=
            Option.some.inj (hover.answers.position.symm.trans hsegpos)
          obtain rfl : os'' = os' := hobject.eq_of_position hos'' hos'
            (hrow'.position.trans (hqp.trans hrow.position.symm))
          rw [h.find?_given hseg hsegpos, h.given_download hseg hrow' hover]
        · obtain ⟨seg, hfetch, hover⟩ := h.downloads p hp hin
          rw [find?_not_given hin, fetched_download hrow hin hfetch hover]
          exact hfetch
      decrypts := by
        intro os hos i len _ _
        show Except.ok (slice (((segs.find? fun s => s.position = os.position).map
          ObjectSegment.plain).getD []) i len) = _
        have hnodup : (segs.map ObjectSegment.position).Nodup :=
          List.pairwise_map.mpr (hobject.ordered.imp fun h => h.2)
        rw [find?_of_nodup hnodup hos]
        rfl }
  · intro os hos hmeets
    obtain ⟨p, hp, hrow⟩ := hleft os hos
    have hlt : max a os.offset < min (a + n) (os.offset + os.plain.length) := hmeets
    have hcover := h.cover p hp ⟨max a os.offset, by rw [← hrange, Set.mem_Ico]; omega,
      by rw [← hrow.offset]; omega, by rw [← hrow.offset, hrow.plainSize]; omega⟩
    cases hcover with
    | inl hin =>
        rw [← hpositions] at hin
        obtain ⟨os', hos', heq⟩ := List.mem_map.mp hin
        rw [hobject.eq_of_position hos (hgivenSub hos')
          (hrow.position.trans (Option.some.inj heq).symm)]
        exact .inl hos'
    | inr hmem =>
        have hin : os.position ∈ listed'.map ObjectSegment.position := by
          rw [hlistedPositions, hrow.position]
          exact List.mem_map_of_mem (f := fun p : ℤ × StoredSegment H => p.2.position) hmem
        obtain ⟨os', hos', heq⟩ := List.mem_map.mp hin
        rw [← hobject.eq_of_position (hlistedSub hos') hos heq]
        exact .inr hos'

end Provides

end Ideal

/-! ## The bytes come back

Sealing, listing, fetching, decrypting and draining, each by its own theorem.
-/

section

variable {contentKey : Key} {obj : StoredObject H} {d : UserData} {data : Bytes} {calls : DownloadCalls}
  {path : Bytes} {resp : DownloadObjectResponse} {listed : List (ℤ × StoredSegment H)}
  {offset length plainStart plainLen : ℤ} {fuel : ℕ}

lemma sumI64_zero {l : List ℤ} (h : ∀ x ∈ l, x = 0) : sumI64 l = some 0 := by
  rw [sumI64]
  induction l with
  | nil => rfl
  | cons x l ih =>
      rw [List.foldlM_cons, h x List.mem_cons_self]
      exact ih fun y hy => h y (List.mem_cons_of_mem _ hy)

/-- A segment that was committed and handed over is read, at what is asked of it. -/
lemma Row.read {prim : PathPrimitives} (haes : prim.aesGcm.Lawful) (hbox : prim.secretBox.Lawful)
    {cipher : CipherSuite} {blockSize : ℕ} (hblock : blockSize ≠ 0) {body : Position → SegmentBody}
    {os : ObjectSegment SegmentBody} {p : ℤ × StoredSegment H}
    (h : Row prim cipher blockSize contentKey body os p) (hseg : HandsOver calls p os.download)
    (hhonest : HonestNodes prim calls contentKey cipher blockSize plainStart plainLen p.2 os.download)
    {i len : ℕ} (hasked : segmentPlainRange plainStart plainLen os.offset os.plain.length
      = ((i : ℤ), (len : ℤ))) (hlen : 1 ≤ len) (hin : i + len ≤ os.plain.length) :
    calls.decrypt prim contentKey cipher blockSize os.download i len
      = .ok (slice os.plain i len) := by
  obtain ⟨job, key, hplain, hstored⟩ := h.stored
  have hnodes : os.download.position.getD (0, 0) = p.2.position := h.position
  rw [DownloadCalls.decrypt, hnodes]
  rw [← hplain] at hin ⊢
  cases hcontent : p.2.content with
  | inline bytes =>
      rw [hstored.inline_honest haes hbox hseg.answers hcontent hlen hin]
      rfl
  | remote size scheme pieces results =>
      obtain ⟨rjob, hplan, hread, hfirst⟩ :=
        hstored.remote_honest haes hbox (Or.inr hblock) hseg.answers hcontent hlen hin
      have hplan' := hhonest size scheme pieces results rjob hcontent
      have hrange : segmentPlainRange plainStart plainLen os.download.plainOffset
          os.download.plainSize = ((i : ℤ), (len : ℤ)) := hasked
      rw [hrange] at hplan'
      rw [hread (hfirst (hplan' hplan))]
      rfl

/-- **The bytes that an object says come back.** -/
lemma Says.download (hprim : prim.Lawful) (hsaid : Says prim contentKey obj d data)
    (h : Provides calls path (protoRange offset length) obj resp listed)
    (hrange : resolveRange offset length data.length = .ok (plainStart, plainLen))
    (honest : ∀ p ∈ placed 0 obj.segments, ∀ seg, HandsOver calls p seg →
      (seg ∈ resp.segmentDownload ∨ calls.downloadSegment p.2.position = .ok seg) →
      HonestNodes prim.toPathPrimitives calls contentKey d.cipher d.blockSize.toNat plainStart
        plainLen p.2 seg) (hfuel : listed.length < fuel) :
    ∃ dl, downloadSegments (calls.satellite (protoRange offset length)
        (calls.decrypt prim.toPathPrimitives contentKey d.cipher d.blockSize.toNat)) fuel
        resp.toDownload offset length = some (.ok dl) ∧
      dl.read = .ok (slice data plainStart.toNat plainLen.toNat) := by
  obtain ⟨jobs, hjobs, hall⟩ := hsaid.segments
  have hblock : d.blockSize.toNat ≠ 0 := by
    have := hsaid.reads.valid.blockSize_pos
    omega
  have hobject := hjobs.isObject (handedBody calls resp.segmentDownload)
  have hrows : List.Forall₂ (Row prim.toPathPrimitives d.cipher d.blockSize.toNat contentKey
      (handedBody calls resp.segmentDownload))
      (objectSegments (handedBody calls resp.segmentDownload) 0 jobs)
      (placed (0 : ℕ) obj.segments) :=
    forall₂_row (handedBody calls resp.segmentDownload) hall
      (by rw [hjobs.data_eq]; exact hsaid.fits)
  rw [Nat.cast_zero] at hrows
  have hbytes : objectBytes (objectSegments (handedBody calls resp.segmentDownload) 0 jobs) = data := by
    rw [objectBytes_objectSegments, hjobs.data_eq]
  generalize objectSegments (handedBody calls resp.segmentDownload) 0 jobs = segs at *
  obtain ⟨-, hright⟩ := forall₂_mem hrows
  have hlength : resp.toDownload.contentLength = data.length := by
    rw [DownloadObjectResponse.toDownload, h.object]
    exact hsaid.plainSize
  have hitems : ∀ sat : Satellite SegmentBody,
      sat.listSegments = calls.listSegments (protoRange offset length) →
      listAll sat fuel (resp.toDownload.segmentList.getD ⟨[], false⟩)
        = some (.ok (listed.map listItem)) := by
    intro sat hsat
    rw [← listAll_eq h.pages (by rw [List.length_map]; exact hfuel)]
    exact listAll_congr hsat fuel _
  by_cases hempty : data = []
  · -- an object without bytes has segments without bytes
    have hzero : ∀ p ∈ placed 0 obj.segments, p.2.plainSize = 0 := by
      intro p hp
      obtain ⟨os, hos, hrow⟩ := hright p hp
      have hend := hobject.consecutive.end_le hos
      rw [hbytes, hempty, List.length_nil] at hend
      rw [hrow.plainSize]
      omega
    have hsum : contentLength resp.toDownload (listed.map listItem) = some 0 := by
      have hlisted : sumI64 ((listed.map listItem).map fun i => i.plainSize) = some 0 := by
        refine sumI64_zero fun x hx => ?_
        rw [List.map_map] at hx
        obtain ⟨p, hp, rfl⟩ := List.mem_map.mp hx
        exact hzero p (h.listed_subset hp)
      have hgiven : sumI64 (resp.toDownload.segmentDownload.map fun s => s.plainSize) = some 0 := by
        refine sumI64_zero fun x hx => ?_
        obtain ⟨seg, hseg, rfl⟩ := List.mem_map.mp hx
        obtain ⟨p, hp, hover⟩ := h.given seg hseg
        exact hover.answers.plainSize.trans (hzero p hp)
      rw [contentLength, hlength, hempty, List.length_nil, Nat.cast_zero, if_pos le_rfl, hlisted]
      exact hgiven
    rw [hempty, List.length_nil, Nat.cast_zero] at hrange
    obtain ⟨a, n, hpair, hbound⟩ := resolveRange_spec (by decide) hrange
    obtain ⟨rfl, rfl⟩ := Prod.mk.inj hpair
    obtain rfl : n = 0 := by omega
    refine ⟨.buffered [], ?_, by rw [hempty]; simp [Download.read, slice]⟩
    show (listAll _ fuel _).map _ = _
    rw [hitems _ rfl, Option.map_some]
    dsimp only
    rw [assemble, hsum]
    dsimp only
    rw [hrange]
    rfl
  · have hpos : 0 < data.length := List.length_pos_iff.mpr hempty
    obtain ⟨a, n, hpair, hbound⟩ := resolveRange_spec hsaid.fits hrange
    obtain ⟨rfl, rfl⟩ := Prod.mk.inj hpair
    have hmax : (a : ℤ) + n ≤ i64Max := hbound.trans hsaid.fits
    obtain ⟨given', listed', hlisted, hserves, hcover⟩ := h.serves hobject hrows
      (by rw [hbytes]; exact hsaid.plainSize) (by rw [hsaid.plainSize]; omega)
      (by rw [hsaid.plainSize]; exact hsaid.fits)
      (by rw [hsaid.plainSize]; exact resolveRange_bytes hsaid.fits hrange)
    rw [← hlength] at hrange
    have hfuel' : listed'.length < fuel := by
      have hcount := congrArg List.length hlisted
      rw [List.length_map, List.length_map] at hcount
      omega
    obtain ⟨dl, hdl, hread⟩ := hserves.read hrange hcover hfuel'
    refine ⟨dl, ?_, by rw [hread, hbytes]⟩
    rw [← hdl]
    refine downloadSegments_congr rfl rfl (hitems _ rfl) (fun pos hnot => ?_)
      (by rw [contentLength, if_neg (by rw [hlength]; omega)]) hrange fun seg hseg => ?_
    · show calls.downloadSegment pos = match resp.segmentDownload.find? fun g => g.position = some pos with
        | some g => .ok g
        | none => calls.downloadSegment pos
      rw [find?_not_given]
      intro hin
      obtain ⟨g, hg, hgpos⟩ := List.mem_map.mp hin
      exact hnot (List.mem_filterMap.mpr ⟨g, hg, hgpos⟩)
    · -- what is handed over is the download of a segment of the object
      obtain ⟨p, hp, os, hos, hrow, rfl, hover, hfrom⟩ : ∃ p ∈ placed 0 obj.segments, ∃ os ∈ segs,
          Row prim.toPathPrimitives d.cipher d.blockSize.toNat contentKey
            (handedBody calls resp.segmentDownload) os p ∧ os.download = seg ∧
          HandsOver calls p seg ∧
          (seg ∈ resp.segmentDownload ∨ calls.downloadSegment p.2.position = .ok seg) := by
        cases hseg with
        | inl hmem =>
            obtain ⟨p, hp, hover⟩ := h.given seg hmem
            obtain ⟨os, hos, hrow⟩ := hright p hp
            exact ⟨p, hp, os, hos, hrow, h.given_download hmem hrow hover, hover, .inl hmem⟩
        | inr hfetch =>
            obtain ⟨item, hitem, hnot, hfetch⟩ := hfetch
            obtain ⟨p, hp, rfl⟩ := List.mem_map.mp hitem
            have hout : some p.2.position ∉ resp.segmentDownload.map SegmentDownload.position := by
              intro hin
              obtain ⟨g, hg, hgpos⟩ := List.mem_map.mp hin
              exact hnot (List.mem_filterMap.mpr ⟨g, hg, hgpos⟩)
            obtain ⟨seg', hfetch', hover⟩ := h.downloads p hp hout
            obtain rfl : seg' = seg := Except.ok.inj (hfetch'.symm.trans hfetch)
            obtain ⟨os, hos, hrow⟩ := hright p (h.listed_subset hp)
            exact ⟨p, h.listed_subset hp, os, hos, hrow, fetched_download hrow hout hfetch' hover,
              hover, .inr hfetch'⟩
      rw [decryptOneSegment_eq hmax (hserves.end_le hos) (hserves.decrypts os hos)]
      refine decryptOneSegment_of_read hmax (hserves.end_le hos) fun i len hasked hlen hin => ?_
      exact hrow.read hprim.aesGcm hprim.secretBox hblock hover (honest p hp _ hover hfrom) hasked hlen
        hin

/-- The metadata of an object gives what its download goes by. -/
lemma Says.downloadParameters_eq (h : Says prim contentKey obj d data) :
    downloadParameters prim (some obj.info.toObjectRecord) contentKey
      = .ok (d.cipher, d.blockSize.toNat, d.custom) := by
  obtain ⟨streamInfo, deprecated, inner, hdec⟩ :=
    h.reads.metadata (cipherFromParams obj.info.encryptionParameters)
  have hvalid := h.reads.valid
  rw [downloadParameters]
  dsimp only [Option.bind_some]
  rw [if_neg h.reads.ne_nil, decryptUserData, hdec]
  dsimp only [Fallible.ok_bind]
  rw [if_pos hvalid.cipher_ne, if_pos hvalid.blockSize_pos]

end

/-- What the table shows of a key is what a download reads. -/
lemma Shows.startDownloadObject_eq (hs : Sealed prim store) {objects : Objects} {sat : Database H}
    (h : Shows prim store objects sat) {bucket key : String} {path data : Bytes}
    {custom : CustomMetadata}
    (haddr : address prim.toPathPrimitives store (bucket, key) = some (bucket, path))
    (hvalue : objects (bucket, key) = some (data, custom))
    {offset length : ℤ} (hvalid : ¬(offset < 0 ∧ length ≥ 0)) {calls : DownloadCalls}
    {obj : StoredObject H} {resp : DownloadObjectResponse} {listed : List (ℤ × StoredSegment H)}
    (hobj : sat (bucket, path) = some obj)
    (hprovides : Provides calls path (protoRange offset length) obj resp listed)
    (honest : ∀ contentKey cipher blockSize plainStart plainLen,
      deriveContentKey prim.toPathPrimitives bucket (utf8 key) store = .ok contentKey →
      downloadParameters prim (some obj.info.toObjectRecord) contentKey
        = .ok (cipher, blockSize, custom) →
      resolveRange offset length data.length = .ok (plainStart, plainLen) →
      ∀ p ∈ placed 0 obj.segments, ∀ seg, HandsOver calls p seg →
        (seg ∈ resp.segmentDownload ∨ calls.downloadSegment p.2.position = .ok seg) →
        HonestNodes prim.toPathPrimitives calls contentKey cipher blockSize plainStart plainLen p.2
          seg) {fuel : ℕ} (hfuel : listed.length < fuel) :
    ∃ plainStart plainLen download,
      resolveRange offset length data.length = .ok (plainStart, plainLen) ∧
      startDownloadObject prim store bucket key offset length calls fuel
        = some (.ok (custom, download)) ∧
      download.read = .ok (slice data plainStart.toNat plainLen.toNat) ∧
      download.Drains (slice data plainStart.toNat plainLen.toNat) := by
  obtain ⟨plainStart, plainLen, hrange⟩ :=
    exists_resolveRange hvalid (Int.natCast_nonneg data.length)
  obtain ⟨v, hv, contentKey, hkey, d, hd, hsaid⟩ :=
    Represents.value h haddr hobj
  obtain rfl : (data, custom) = v := Option.some.inj (hvalue.symm.trans hv)
  obtain ⟨hbucket, hkeyne, hpath, -⟩ := address_eq_some.mp haddr
  have hparameters := hsaid.downloadParameters_eq
  rw [hd] at hparameters
  obtain ⟨download, hdownload, hread⟩ := hsaid.download hs.lawful hprovides hrange
    (honest contentKey d.cipher d.blockSize.toNat plainStart plainLen hkey hparameters hrange) hfuel
  have hfits : ((slice data plainStart.toNat plainLen.toNat).length : ℤ) ≤ i64Max := by
    have hle : (slice data plainStart.toNat plainLen.toNat).length ≤ data.length :=
      ((List.take_sublist _ _).trans (List.drop_sublist _ _)).length_le
    have hdata : (data.length : ℤ) ≤ i64Max := hsaid.fits
    omega
  refine ⟨plainStart, plainLen, download, hrange, ?_, hread, download.drains_of_read hread hfits⟩
  have hbegin : beginDownload prim.toPathPrimitives store bucket key offset length calls
      = .ok (contentKey, resp) := by
    rw [beginDownload, validateDownload, if_neg hvalid, requireBucketName_ok hbucket,
      requireObjectKey_ok hkeyne, hpath, hkey]
    show (do
      let resp ← calls.downloadObject path (protoRange offset length)
      .ok (contentKey, resp)) = Except.ok (contentKey, resp)
    rw [hprovides.answer]
    rfl
  rw [startDownloadObject, hbegin]
  dsimp only
  rw [hprovides.object, Option.map_some, hparameters]
  dsimp only
  rw [hdownload]
  rfl

/-- **What is stored is what is read.**  After any run of uploads, multipart uploads, metadata
updates, copies, moves and deletions, a download of any range of what the run leaves at a key gives
the custom metadata and exactly that range of the bytes, however it is read, out of whichever
segments the satellite sends along and whichever it lists, as long as the nodes send what was
uploaded to them and enough of them are up. -/
theorem startDownloadObject_reads (hs : Sealed prim store) {ops : List ObjectOp} {sat : Database H}
    (hrun : Runs (Step prim store) (fun _ => none) ops sat) {bucket key : String} {path data : Bytes}
    {custom : CustomMetadata}
    (haddr : address prim.toPathPrimitives store (bucket, key) = some (bucket, path))
    (hvalue : (ops.foldl ObjectOp.apply fun _ => none) (bucket, key) = some (data, custom))
    {offset length : ℤ} (hvalid : ¬(offset < 0 ∧ length ≥ 0)) {calls : DownloadCalls}
    {obj : StoredObject H} {resp : DownloadObjectResponse} {listed : List (ℤ × StoredSegment H)}
    (hobj : sat (bucket, path) = some obj)
    (hprovides : Provides calls path (protoRange offset length) obj resp listed)
    (honest : ∀ contentKey cipher blockSize plainStart plainLen,
      deriveContentKey prim.toPathPrimitives bucket (utf8 key) store = .ok contentKey →
      downloadParameters prim (some obj.info.toObjectRecord) contentKey
        = .ok (cipher, blockSize, custom) →
      resolveRange offset length data.length = .ok (plainStart, plainLen) →
      ∀ p ∈ placed 0 obj.segments, ∀ seg, HandsOver calls p seg →
        (seg ∈ resp.segmentDownload ∨ calls.downloadSegment p.2.position = .ok seg) →
        HonestNodes prim.toPathPrimitives calls contentKey cipher blockSize plainStart plainLen p.2
          seg) {fuel : ℕ} (hfuel : listed.length < fuel) :
    ∃ plainStart plainLen download,
      resolveRange offset length data.length = .ok (plainStart, plainLen) ∧
      startDownloadObject prim store bucket key offset length calls fuel
        = some (.ok (custom, download)) ∧
      download.read = .ok (slice data plainStart.toNat plainLen.toNat) ∧
      download.Drains (slice data plainStart.toNat plainLen.toNat) :=
  (shows_of_run hs hrun).startDownloadObject_eq hs haddr hvalue hvalid hobj hprovides honest hfuel

/-! ## A sample

A download of the object that was moved, after a run with every kind of call.
-/

/-- The ciphertext of a segment in the database. -/
def inlineBytes : StoredContent Unit → Bytes
  | .inline data => data
  | .remote _ _ _ _ => []

/-- What is sent along for a segment in the database. -/
def sentAlong (p : ℤ × StoredSegment Unit) : SegmentDownload SegmentBody :=
  ⟨some p.2.position, p.1, p.2.plainSize,
    ⟨p.2.encryptedKeyNonce, p.2.encryptedKey, inlineBytes p.2.content, 0, [], [], none⟩⟩

/-- A satellite that sends all segments of an object along. -/
def sampleDownload (obj : StoredObject Unit) : DownloadCalls where
  downloadObject _ _ := .ok ⟨some obj.info, none, (placed 0 obj.segments).map sentAlong⟩
  listSegments _ _ := .ok ⟨[], false⟩
  downloadSegment _ := .error ⟨.protocol, "unknown segment"⟩
  nodes _ := sampleNodes fun _ => []
  unfinished := ⟨.protocol, "unfinished"⟩

lemma map_snd_placed (off : ℤ) (segments : List (StoredSegment Unit)) :
    (placed off segments).map Prod.snd = segments := by
  induction segments generalizing off with
  | nil => rfl
  | cons s segments ih => rw [placed, List.map_cons, ih]

section

variable {obj : StoredObject Unit} (hinline : ∀ s ∈ obj.segments, ∃ data, s.content = .inline data)

include hinline

lemma exists_inline_of_placed {p : ℤ × StoredSegment Unit} (hp : p ∈ placed 0 obj.segments) :
    ∃ data, p.2.content = .inline data := by
  refine hinline p.2 ?_
  rw [← map_snd_placed 0 obj.segments]
  exact List.mem_map_of_mem hp

/-- It hands over what it has of an object in the database. -/
lemma provides_sample (hnodup : (obj.segments.map StoredSegment.position).Nodup) (path : Bytes)
    (range : Option Uplink.Range) : Provides (sampleDownload obj) path range obj
      ⟨some obj.info, none, (placed 0 obj.segments).map sentAlong⟩ [] where
  answer := rfl
  object := rfl
  given := by
    intro seg hseg
    obtain ⟨p, hp, rfl⟩ := List.mem_map.mp hseg
    obtain ⟨data, hdata⟩ := exists_inline_of_placed hinline hp
    refine ⟨p, hp, rfl, rfl, rfl, rfl, rfl, ?_⟩
    rw [hdata]
    exact ⟨by rw [sentAlong, hdata]; rfl, rfl⟩
  given_nodup := by
    have hpositions : ((placed 0 obj.segments).map sentAlong).map SegmentDownload.position
        = (obj.segments.map StoredSegment.position).map some := by
      rw [← congrArg (List.map StoredSegment.position) (map_snd_placed 0 obj.segments), List.map_map,
        List.map_map, List.map_map]
      rfl
    rw [hpositions]
    exact hnodup.map (Option.some_injective _)
  listed_subset := List.nil_subset _
  listed_nodup := List.nodup_nil
  pages := by
    refine ⟨⟨[], rfl, fun _ => rfl⟩, fun done rest hsplit => ?_⟩
    exact ⟨⟨[], false⟩, [], rfl, (List.append_eq_nil_iff.mp hsplit.symm).2, fun _ => rfl,
      fun _ => rfl⟩
  downloads p hp := absurd hp List.not_mem_nil
  cover p hp _ := .inl (List.mem_map.mpr ⟨sentAlong p, List.mem_map_of_mem hp, rfl⟩)

/-- Nothing is asked of nodes for it. -/
lemma honestNodes_sample {prim : PathPrimitives} {calls : DownloadCalls} {contentKey : Key}
    {cipher : CipherSuite} {blockSize : ℕ} {plainStart plainLen : ℤ} {p : ℤ × StoredSegment Unit}
    (hp : p ∈ placed 0 obj.segments) {seg : SegmentDownload SegmentBody} :
    HonestNodes prim calls contentKey cipher blockSize plainStart plainLen p.2 seg := by
  rintro size scheme pieces results rjob hcontent -
  obtain ⟨data, hdata⟩ := exists_inline_of_placed hinline hp
  rw [hdata] at hcontent
  cases hcontent

end

/-- The second of three bytes that were uploaded, copied and moved. -/
theorem startDownloadObject_reads_sample : ∃ calls download,
    startDownloadObject sampleMeta aesStore "b" "m" 1 1 calls 1
        = some (.ok (sampleUpdate, download)) ∧ download.Drains [2] := by
  obtain ⟨_, m, _, obj, nonce, key, data, -, hm, -, hsegments, hrun⟩ := exists_run_sample
  have hvalue : sampleOps.foldl ObjectOp.apply (fun _ => none) ("b", "m")
      = some ([1, 2, 3], sampleUpdate) := by
    rw [foldl_sampleOps]
    rfl
  have hinline : ∀ s ∈ obj.segments, ∃ data, s.content = .inline data := by
    intro s hs
    rw [hsegments] at hs
    exact ⟨data, by rw [List.mem_singleton.mp hs]⟩
  have hnodup : (obj.segments.map StoredSegment.position).Nodup := by
    rw [hsegments]
    exact List.nodup_singleton _
  obtain ⟨plainStart, plainLen, download, hrange, hdownload, -, hdrains⟩ :=
    startDownloadObject_reads sealed_aesStore hrun hm hvalue
      (show ¬((1 : ℤ) < 0 ∧ (1 : ℤ) ≥ 0) by decide) (Function.update_self ..)
      (provides_sample hinline hnodup m _)
      (fun _ _ _ _ _ _ _ _ p hp _ _ _ => honestNodes_sample hinline hp) Nat.zero_lt_one
  have hone : resolveRange 1 1 (([1, 2, 3] : Bytes).length : ℤ) = .ok (1, 1) := by decide
  obtain ⟨hstart, hlen⟩ := Prod.mk.inj (Except.ok.inj (hrange.symm.trans hone))
  rw [hstart, hlen] at hdrains
  exact ⟨_, download, hdownload, hdrains⟩

end Storj.Client
