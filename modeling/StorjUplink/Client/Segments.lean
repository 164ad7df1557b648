import StorjUplink.Client.UserData
import StorjUplink.Uplink.Collect
import StorjUplink.Uplink.Draw
import StorjUplink.Uplink.Reconstruct

/-!
# A segment, written and read

`commit_one_segment` and `decrypt_one_segment` of `project.rs`.  A segment goes into the satellite's
database when it is small, and else, encrypted in blocks and erasure coded, to storage nodes; either
way under a key of its own, which is sealed under the content key of the object.

`StoredSegment` is what a commit leaves behind, and `Answers` what a satellite may answer when that
is downloaded: which pieces it names, and where, is up to it.  What the nodes do is a list of
events for the download and for each call of `fetch_one_more` (`Nodes`), so that it may be
anything.

What the pieces amount to is proved where they are: that whatever a download hands over has the
numbers and the sizes that were asked for (`DownloadedPieces.Ready`), and what any such shares
reconstruct to (`Request.reconstruct_any`, `Request.reconstruct_genuine`).  The last part is about
the satellite: its answer leads to the key, the range and the pieces of the commit (`Asks`).

Reading and writing are in one module because they share the key and the nonce.  The key of a
segment is drawn for it, sealed under the content key with a nonce that is drawn as well, and
stored with the segment; the nonce of the blocks is not stored but computed from the position.  So
a segment belongs to the place for which it was written.
-/

namespace Storj.Client

open Storj.Enc Storj.Access MachineInt Buffer Uplink Collect
open Segment (PieceAssignment AddressedOrderLimit PieceResult)

/-! ## Errors

The errors of the lower crates become texts of the public one.
-/

/-- `Display` of the error of the erasure coder, each text with the numbers that it names. -/
def ecText : Ec.EcError → String
  | .invalidParams k n shareSize => s!"requires 1 <= k <= n <= 256 and share_size > 0 (k={k}, n={n}, share_size={shareSize})"
  | .stripeSize got want => s!"stripe length {got} != k*share_size {want}"
  | .shareSize index got want => s!"share {index} length {got} != share_size {want}"
  | .tooFewShares have' need => s!"not enough shares: have " ++ toString have' ++ s!", need {need}"
  | .invalidShareIndex index n => s!"invalid share index {index} (n={n})"
  | .duplicateShare index => s!"duplicate share index {index}"
  | .shareCount got n => s!"need {n} share slots, got {got}"
  | .reconstruct msg => "reconstruction failed: " ++ msg

/-- `map_uplink`, of the errors of the pipeline. -/
def mapUplink : Uplink.Error → Error
  | .encryption e => mapEnc e
  | .protocol msg => ⟨.protocol, "protocol: " ++ msg⟩
  | .ec e => ⟨.protocol, ecText e⟩

/-- `map_uplink`, of the errors of the long tail upload. -/
def mapSegment (e : Segment.Error) : Error := ⟨.protocol, e.toText⟩

/-! ## Redundancy

The numbers of a scheme are signed in the message and checked here.
-/

/-- `RedundancyScheme`: its numbers are `i32`s. -/
structure RedundancyScheme where
  minReq : ℤ
  repairThreshold : ℤ
  successThreshold : ℤ
  total : ℤ
  erasureShareSize : ℤ
  minReq_lt : minReq < 2 ^ 31

/-- `to_usize`, with the name that its text gives to the number. -/
def toUsize (v : ℤ) (name : String) : Except Uplink.Error ℕ :=
  if 0 ≤ v then .ok v.toNat else .error (.protocol s!"{name} {v} does not fit usize")

/-- `Redundancy::from_scheme`: every number must fit, none but the repair threshold may be zero, and
neither the required nor the success threshold may pass the total. -/
def redundancyFromScheme (scheme : RedundancyScheme) : Except Uplink.Error Redundancy := do
  let k ← toUsize scheme.minReq "min_req"
  let n ← toUsize scheme.total "total"
  let m ← toUsize scheme.repairThreshold "repair_threshold"
  let o ← toUsize scheme.successThreshold "success_threshold"
  let shareSize ← toUsize scheme.erasureShareSize "erasure_share_size"
  if k = 0 ∨ n = 0 ∨ o = 0 ∨ shareSize = 0 ∨ k > n ∨ o > n then
    .error (.protocol s!"invalid redundancy k={k} m={m} o={o} n={n} share={shareSize}")
  else .ok ⟨k, m, o, n, shareSize⟩

lemma toUsize_eq_ok {v : ℤ} {name : String} {n : ℕ} (h : toUsize v name = .ok n) : (n : ℤ) = v := by
  rw [toUsize] at h
  split_ifs at h with hv
  cases h
  exact Int.toNat_of_nonneg hv

lemma k_le_of_scheme {scheme : RedundancyScheme} {rs : Redundancy}
    (h : redundancyFromScheme scheme = .ok rs) : rs.k ≤ usizeMax := by
  rw [redundancyFromScheme] at h
  obtain ⟨k, hk, h⟩ := Fallible.bind_eq_ok.mp h
  obtain ⟨n, -, h⟩ := Fallible.bind_eq_ok.mp h
  obtain ⟨m, -, h⟩ := Fallible.bind_eq_ok.mp h
  obtain ⟨o, -, h⟩ := Fallible.bind_eq_ok.mp h
  obtain ⟨shareSize, -, h⟩ := Fallible.bind_eq_ok.mp h
  have hv := toUsize_eq_ok hk
  have hlt := scheme.minReq_lt
  split_ifs at h
  cases h
  show k ≤ usizeMax
  rw [usizeMax]
  omega

/-! ## Writing

A segment goes into the database if its plaintext and its ciphertext are short enough, and else
through the pipeline.  Either way the last request is what the satellite learns.
-/

/-- `MAX_INLINE_SEGMENT_SIZE`. -/
def maxInlineSegmentSize : ℕ := 4 * 1024

/-- `MakeInlineSegmentRequest`. -/
structure MakeInlineSegmentRequest where
  position : Position
  encryptedKeyNonce : Bytes
  encryptedKey : Bytes
  encryptedInlineData : Bytes
  plainSize : ℤ
  encryptedETag : Bytes
deriving DecidableEq

/-- `BeginSegmentResponse`. -/
structure BeginSegmentResponse where
  segmentId : Bytes
  addressedLimits : List AddressedOrderLimit
  privateKey : Bytes
  redundancyScheme : Option RedundancyScheme

/-- `CommitSegmentRequest`; `H` is the signed hash of a piece. -/
structure CommitSegmentRequest (H : Type) where
  segmentId : Bytes
  encryptedKeyNonce : Bytes
  encryptedKey : Bytes
  sizeEncryptedData : ℤ
  plainSize : ℤ
  encryptedETag : Bytes
  uploadResult : List (PieceResult H)

/-- What `commit_one_segment` draws, and what it calls: the satellite, the long tail upload of the
pieces, and the check of a key pair of 64 bytes. -/
structure CommitCalls (H : Type) where
  segmentKey : Key
  keyNonce : Nonce
  validKeypair : Bytes → Bool
  makeInlineSegment : MakeInlineSegmentRequest → Except Error Unit
  beginSegment : Position → ℤ → Except Error BeginSegmentResponse
  uploadPieces : List PieceAssignment → Bytes → Redundancy → List Bytes →
    Except Error (Bytes × List (PieceResult H))
  commitSegment : CommitSegmentRequest H → Except Error Unit

/-- Where the ciphertext of a segment is: with the satellite, or in pieces on storage nodes. -/
inductive StoredContent (H : Type) where
  | inline (data : Bytes)
  | remote (encryptedSize : ℤ) (scheme : RedundancyScheme) (pieces : List Bytes)
      (results : List (PieceResult H))

/-- What a segment that was committed left behind. -/
structure StoredSegment (H : Type) where
  position : Position
  plainSize : ℤ
  encryptedKeyNonce : Bytes
  encryptedKey : Bytes
  encryptedETag : Bytes
  content : StoredContent H

/-- What a request to make a segment inline leaves behind. -/
def MakeInlineSegmentRequest.stored {H : Type} (request : MakeInlineSegmentRequest) :
    StoredSegment H where
  position := request.position
  plainSize := request.plainSize
  encryptedKeyNonce := request.encryptedKeyNonce
  encryptedKey := request.encryptedKey
  encryptedETag := request.encryptedETag
  content := .inline request.encryptedInlineData

/-- What a request to commit a segment leaves behind: the request has neither the position nor the
scheme, which the satellite knows under the ID of the segment, nor the pieces, which the nodes
have. -/
def CommitSegmentRequest.stored {H : Type} (request : CommitSegmentRequest H) (position : Position)
    (scheme : RedundancyScheme) (pieces : List Bytes) : StoredSegment H where
  position
  plainSize := request.plainSize
  encryptedKeyNonce := request.encryptedKeyNonce
  encryptedKey := request.encryptedKey
  encryptedETag := request.encryptedETag
  content := .remote request.sizeEncryptedData scheme pieces request.uploadResult

/-- `encrypt_etag`: an ETag under a key derived from that of its segment, and nothing for an empty
one. -/
def encryptEtag (prim : PathPrimitives) (etag : Bytes) (cipher : CipherSuite) (segmentKey : Key) :
    Except Error Bytes :=
  if etag = [] then .ok []
  else sealed prim etag cipher (deriveKey prim segmentKey "storj-etag-v1") zeroNonce

/-- `PiecePrivateKey::from_bytes`: a seed of 32 bytes, or a keypair of 64 that belongs together. -/
def checkPieceKey (validKeypair : Bytes → Bool) (bytes : Bytes) : Except Error Unit :=
  if bytes.length = 32 ∨ bytes.length = 64 ∧ validKeypair bytes then .ok ()
  else .error ⟨.protocol, "invalid piece key"⟩

/-- The ciphertext of a segment that goes into the database. -/
def inlineData (prim : PathPrimitives) (plain : Bytes) (cipher : CipherSuite) (segmentKey : Key)
    (nonce : Nonce) : Except Error (Option Bytes) :=
  if plain.length > maxInlineSegmentSize then .ok none
  else do
    let data ← sealed prim plain cipher segmentKey nonce
    .ok (if data.length ≤ maxInlineSegmentSize then some data else none)

/-- The assignments of `from_addressed`, each limit with its place in the list. -/
def assignmentsOf (limits : List (AddressedOrderLimit × ℕ)) :
    Except Error (List PieceAssignment) :=
  limits.mapM fun a => (PieceAssignment.fromAddressed a.2 a.1).mapError mapSegment

/-- The scheme of an answer, or the text of the error. -/
def requireScheme (scheme : Option RedundancyScheme) (missing : String) :
    Except Error RedundancyScheme :=
  match scheme with
  | some scheme => .ok scheme
  | none => .error ⟨.protocol, missing⟩

/-- `commit_one_segment`: what its last request leaves behind, the size of the plaintext included,
which is all that the function returns. -/
def commitOneSegment {H : Type} (prim : PathPrimitives) (calls : CommitCalls H)
    (cipher : CipherSuite) (blockSize : ℕ) (contentKey : Key) (job : SegmentCommit) :
    Except Error (StoredSegment H) := do
  let encryptedKey ← encryptKey prim calls.segmentKey cipher contentKey calls.keyNonce
  let encryptedEtag ← encryptEtag prim job.encryptedEtag cipher calls.segmentKey
  let nonce := contentNonce job.partNumber job.index
  let position : Position := (job.partNumber, job.index)
  match ← inlineData prim job.plain cipher calls.segmentKey nonce with
  | some data =>
      let request : MakeInlineSegmentRequest := ⟨position, calls.keyNonce.toList, encryptedKey, data,
        lastPlain job.plain, encryptedEtag⟩
      calls.makeInlineSegment request
      .ok request.stored
  | none =>
      let encrypted ← (encryptRemote prim.toPrimitives job.plain cipher calls.segmentKey nonce
        blockSize).mapError mapUplink
      let encSize := satI64 encrypted.length
      let begun ← calls.beginSegment position encSize
      let scheme ← requireScheme begun.redundancyScheme "BeginSegment missing RS scheme"
      let rs ← (redundancyFromScheme scheme).mapError mapUplink
      let pieces ← (encodePieces encrypted rs).mapError mapUplink
      let assignments ← assignmentsOf begun.addressedLimits.zipIdx
      checkPieceKey calls.validKeypair begun.privateKey
      let (segmentId, results) ← calls.uploadPieces assignments begun.segmentId rs pieces
      let request : CommitSegmentRequest H := ⟨segmentId, calls.keyNonce.toList, encryptedKey, encSize,
        lastPlain job.plain, encryptedEtag, results⟩
      calls.commitSegment request
      .ok (request.stored position scheme pieces)

/-! ## Reading

A range of the segment in the plaintext becomes blocks, and blocks become slices of pieces.  The
plan is separate from the loop, which asks for more pieces when a decryption fails.
-/

/-- `MAX_DECODE_EXTRAS`. -/
def maxDecodeExtras : ℕ := 2

/-- What a `DownloadSegmentResponse` has besides its place in the object. -/
structure SegmentBody where
  encryptedKeyNonce : Bytes
  encryptedKey : Bytes
  encryptedInlineData : Bytes
  segmentSize : ℤ
  addressedLimits : List AddressedOrderLimit
  privateKey : Bytes
  redundancyScheme : Option RedundancyScheme

/-- `slice_plain`: the range of the plaintext, cut at its end, and nothing for a length that is not
positive. -/
def slicePlain (full : Bytes) (start len : ℤ) : Bytes :=
  if len ≤ 0 then []
  else
    let first := min start.toNat full.length
    let last := min (satUsize (first + len.toNat)) full.length
    slice full first (last - first)

/-- What `decrypt_one_segment` has worked out before it asks the nodes. -/
structure RemoteJob where
  rs : Redundancy
  assignments : List PieceAssignment
  offset : ℤ
  size : ℤ
  params : DecryptParams
  k_le : rs.k ≤ usizeMax

/-- Whether there is anything to ask the nodes for. -/
inductive SegmentPlan where
  | inline (plain : Bytes)
  | remote (job : RemoteJob)

/-- The half of `decrypt_one_segment` for a remote segment that comes before the download. -/
def remoteJob (prim : PathPrimitives) (validKeypair : Bytes → Bool) (cipher : CipherSuite)
    (blockSize : ℕ) (segmentKey : Key) (nonce : Nonce) (seg : SegmentDownload SegmentBody)
    (localStart localLen : ℤ) : Except Error RemoteJob := do
  let scheme ← requireScheme seg.body.redundancyScheme "download response missing RS scheme"
  match hrs : redundancyFromScheme scheme with
  | .error e => .error (mapUplink e)
  | .ok rs =>
      let decrypter ← (newDecrypter prim.toPrimitives cipher segmentKey nonce blockSize).mapError mapEnc
      let r := pieceByteRange localStart localLen decrypter.outBlockSize decrypter.inBlockSize rs
      let assignments ← assignmentsOf (seg.body.addressedLimits.zipIdx.filter fun a =>
        a.1.limit.isSome)
      checkPieceKey validKeypair seg.body.privateKey
      .ok {
        rs, assignments
        offset := r.1
        size := r.2
        params := {
          decodedOffset := (satI64 (r.1 * asI64 rs.k)).toNat
          encryptedSize := seg.body.segmentSize.toNat
          cipher
          key := segmentKey
          nonce
          encryptedBlockSize := blockSize
          plainStart := localStart
          plainLen := localLen
          plainSize := seg.plainSize }
        k_le := k_le_of_scheme hrs }

/-- `decrypt_one_segment` before the download, for a range of the segment that is not empty. -/
def planSegment (prim : PathPrimitives) (validKeypair : Bytes → Bool) (contentKey : Key)
    (cipher : CipherSuite) (blockSize : ℕ) (seg : SegmentDownload SegmentBody)
    (localStart localLen : ℤ) : Except Error SegmentPlan := do
  let position := seg.position.getD (0, 0)
  let nonce := contentNonce position.1 position.2
  let encNonce ← nonceFromSlice seg.body.encryptedKeyNonce
  let segmentKey ← decryptKey prim seg.body.encryptedKey cipher contentKey encNonce
  if seg.body.encryptedInlineData ≠ [] ∨ seg.body.addressedLimits = [] then do
    let full ← opened prim seg.body.encryptedInlineData cipher segmentKey nonce
    .ok (.inline (slicePlain full localStart localLen))
  else do
    let job ← remoteJob prim validKeypair cipher blockSize segmentKey nonce seg localStart localLen
    .ok (.remote job)

/-- What the nodes do while a segment is downloaded: events for the download, and for each call of
`fetch_one_more` after it. -/
structure Nodes where
  events : ℕ → List (Collect.Event Fetched)
  hedging : Bool
  validKeypair : Bytes → Bool
  /-- `Display` of an error of the download. -/
  errorText : Collect.Error → String

/-- `map_uplink`, of the errors of the download. -/
def Nodes.mapCollect (nodes : Nodes) (e : Collect.Error) : Error := ⟨.protocol, nodes.errorText e⟩

/-- The call of `download_pieces_long_tail`. -/
def RemoteJob.download (job : RemoteJob) (hedging : Bool) : LongTailDownload :=
  ⟨job.assignments, job.rs.k, job.offset, job.size, hedging, job.k_le⟩

/-- The loop of `decrypt_one_segment`, with so many fetches left; no result while a download runs.
-/
def decodeLoop (prim : PathPrimitives) (nodes : Nodes) (job : RemoteJob) :
    ℕ → ℕ → DownloadedPieces → Option (Except Error Bytes)
  | left, call, d =>
      match reconstructRemote prim.toPrimitives d.shares job.rs job.params with
      | .ok plain => some (.ok plain)
      | .error e =>
          match left with
          | 0 => some (.error (mapUplink e))
          | left + 1 =>
              if isContentAuthFailure e = false then some (.error (mapUplink e))
              else
                match d.fetchOneMore (nodes.events call) with
                | (none, _) => none
                | (some (.error failure), _) => some (.error (nodes.mapCollect failure))
                | (some (.ok none), _) => some (.error (mapUplink e))
                | (some (.ok (some piece)), d) =>
                    decodeLoop prim nodes job left (call + 1)
                      { d with shares := d.shares ++ [piece] }

/-- `decrypt_one_segment`, for a range of the segment that is not empty. -/
def decryptSegment (prim : PathPrimitives) (nodes : Nodes) (contentKey : Key) (cipher : CipherSuite)
    (blockSize : ℕ) (seg : SegmentDownload SegmentBody) (localStart localLen : ℤ) :
    Option (Except Error Bytes) :=
  match planSegment prim nodes.validKeypair contentKey cipher blockSize seg localStart localLen with
  | .error e => some (.error e)
  | .ok (.inline plain) => some (.ok plain)
  | .ok (.remote job) =>
      match downloadPiecesLongTail (job.download nodes.hedging) (nodes.events 0) with
      | none => none
      | some (.error failure) => some (.error (nodes.mapCollect failure))
      | some (.ok d) => decodeLoop prim nodes job maxDecodeExtras 1 d

end Storj.Client

/-! ## What the nodes hand over

Shares by number and size.  That they are genuine is never assumed here.
-/

namespace Storj.Collect

open Segment (PieceAssignment nums)

variable {A δ : Type} {download : A → δ → Except PieceDownloadFailure Share} {plan : Plan}
  {assignments : List A} {s : Loop A δ} {P : Share → Prop}

/-- Every value that a download ends with makes a share with the property. -/
def Values (download : A → δ → Except PieceDownloadFailure Share) (assignments : List A)
    (P : Share → Prop) (events : List (Event δ)) : Prop :=
  ∀ i value, Event.joined i value ∈ events → ∀ asg ∈ assignments, ∀ share,
    download asg value = .ok share → P share

/-- The downloads are of assignments, and the shares so far have the property. -/
structure Loop.Within (assignments : List A) (P : Share → Prop) (s : Loop A δ) : Prop where
  queue : ∀ a ∈ s.queue, a ∈ assignments
  set : ∀ t ∈ s.set, t.assignment ∈ assignments
  successes : ∀ share ∈ s.successes, P share

lemma Loop.Within.launch (h : s.Within assignments P) : s.launch.Within assignments P := by
  rw [Loop.launch]
  cases hq : s.queue with
  | nil => exact h
  | cons asg queue =>
      have hqueue := h.queue
      rw [hq] at hqueue
      refine ⟨fun a ha => hqueue a (List.mem_cons_of_mem _ ha), fun t ht => ?_, h.successes⟩
      rcases List.mem_append.mp ht with ht | ht
      · exact h.set t ht
      · rw [List.mem_singleton.mp ht]
        exact hqueue asg List.mem_cons_self

lemma Loop.Within.fill (h : s.Within assignments P) (limit n : ℕ) :
    (s.fill limit n).Within assignments P := by
  induction n generalizing s with
  | zero => exact h
  | succ n ih =>
      rw [Loop.fill]
      split_ifs
      · exact ih h.launch
      · exact h

/-- One event. -/
lemma Loop.Within.step (h : s.Within assignments P) {e : Event δ}
    (he : Values download assignments P [e]) :
    (s.step download plan e).loop.Within assignments P := by
  cases e with
  | tick =>
      rw [Loop.step]
      split_ifs
      · exact ⟨h.launch.queue, h.launch.set, h.launch.successes⟩
      · exact h
  | crashed i text =>
      rw [Loop.step]
      cases s.set[i]? with
      | none => exact h
      | some task => exact h
  | joined i value =>
      rw [Loop.step]
      cases htask : s.set[i]? with
      | none => exact h
      | some task =>
          have hset : ∀ t ∈ s.set.eraseIdx i, t.assignment ∈ assignments :=
            fun t ht => h.set t (List.mem_of_mem_eraseIdx ht)
          dsimp only
          cases hd : download task.assignment value with
          | error failure => exact Loop.Within.launch ⟨h.queue, hset, h.successes⟩
          | ok piece =>
              have hsucc : ∀ share ∈ s.successes ++ [piece], P share := by
                intro share hshare
                rcases List.mem_append.mp hshare with hshare | hshare
                · exact h.successes share hshare
                · rw [List.mem_singleton.mp hshare]
                  exact he i value (List.mem_singleton.mpr rfl) task.assignment
                    (h.set task (List.mem_of_getElem? htask)) piece hd
              dsimp only
              split_ifs
              · exact ⟨h.queue, hset, hsucc⟩
              · exact ⟨h.queue, hset, hsucc⟩

lemma Loop.Within.run (h : s.Within assignments P) {events : List (Event δ)}
    (he : Values download assignments P events) :
    (collectLoop download plan s events).loop.Within assignments P := by
  induction events generalizing s with
  | nil =>
      rw [collectLoop]
      split_ifs
      · exact h
      · exact h
  | cons e events ih =>
      rw [collectLoop]
      split_ifs
      · exact h
      · have hfirst : Values download assignments P [e] := fun i value hmem asg hasg share hd =>
          he i value (by rw [List.mem_singleton.mp hmem]; exact List.mem_cons_self) asg hasg share hd
        have hone : (s.step download plan e).loop.Within assignments P := h.step hfirst
        cases hstep : s.step download plan e with
        | running s' =>
            rw [hstep] at hone
            exact ih hone fun i value hmem => he i value (List.mem_cons_of_mem _ hmem)
        | finished result s' =>
            rw [hstep] at hone
            exact hone

lemma Loop.within_start (plan : Plan) (assignments : List A) :
    (Loop.start plan assignments : Loop A δ).Within assignments P := by
  have hempty : (⟨assignments, [], 0, [], [], hedgeBudget plan.required - plan.margin, [], []⟩ :
      Loop A δ).Within assignments P :=
    ⟨fun _ h => h, fun _ h => absurd h List.not_mem_nil, fun _ h => absurd h List.not_mem_nil⟩
  exact hempty.fill _ _

/-- **What is handed over has the property of what arrives.** -/
lemma collected_values {events : List (Event δ)} {c : Collected A}
    (he : Values download assignments P events)
    (h : collectPieceDownloads download plan assignments events = .finished (.ok c) s) :
    (∀ share ∈ c.shares, P share) ∧ ∀ a ∈ c.unused, a ∈ assignments := by
  rw [collectPieceDownloads] at h
  split_ifs at h with hrange hzero
  · cases h
  · cases h
    exact ⟨fun _ h => absurd h List.not_mem_nil, fun _ h => h⟩
  · obtain ⟨hstart, hnone⟩ := Loop.inv_start download plan assignments
    obtain ⟨-, hgood⟩ := collectLoop_inv hstart (fun hpos => by rw [hnone]; exact hpos) events
    have hwithin : (collectLoop download plan (Loop.start plan assignments) events).loop.Within
        assignments P := (Loop.within_start (δ := δ) (P := P) plan assignments).run he
    rw [h] at hgood hwithin
    obtain ⟨rfl, -⟩ := hgood
    exact ⟨hwithin.successes, hwithin.queue⟩

/-- What arrives of any piece has `size` bytes. -/
def Sized (size : ℕ) (events : List (Collect.Event Fetched)) : Prop :=
  ∀ i data, Event.joined i (.got (.ok data)) ∈ events → data.length = size

/-- What arrives of any piece is what `download_once` returned of a range, over some connection to
some node. -/
def Served (offset size : ℤ) (events : List (Collect.Event Fetched)) : Prop :=
  ∀ i data, Event.joined i (.got (.ok data)) ∈ events →
    ∃ (session : Piecestore.Session) (send : Piecestore.PieceDownloadRequest → Except Unit Unit)
      (replies : List (Piecestore.Reply Unit)),
      (session.downloadOnce send offset size replies).standing = .returned data

/-- So it is exactly what has the size of the range. -/
lemma served_iff_sized {offset size : ℤ} {events : List (Collect.Event Fetched)} :
    Served offset size events ↔ Sized size.toNat events := by
  constructor
  · intro h i data hmem
    obtain ⟨session, send, replies, hreturned⟩ := h i data hmem
    exact session.returnsSize_downloadOnce replies data hreturned
  · intro h i data hmem
    obtain ⟨replies, hreturned⟩ := Piecestore.exists_returned
      (Piecestore.sampleSession .default size) offset (h i data hmem)
    exact ⟨_, _, replies, hreturned⟩

/-- A share with a piece number of the code and the bytes that were asked for. -/
def WellFormed (n size : ℕ) (share : Share) : Prop :=
  0 ≤ share.1 ∧ share.1 < n ∧ share.2.length = size

/-- Assignments with piece numbers of the code. -/
def Numbered (n : ℕ) (assignments : List PieceAssignment) : Prop :=
  ∀ a ∈ assignments, 0 ≤ a.pieceNum ∧ a.pieceNum < n

/-- A share has the number of its assignment. -/
lemma values_numbered {n : ℕ} {asgs : List PieceAssignment} (hasgs : Numbered n asgs)
    (events : List (Collect.Event Fetched)) :
    Values downloadOnePiece asgs (fun share => 0 ≤ share.1 ∧ share.1 < n) events := by
  intro i value hmem asg hasg share hd
  rw [downloadOnePiece_ok hd]
  exact hasgs asg hasg

lemma values_of_sized {n size : ℕ} {asgs : List PieceAssignment} {events : List (Collect.Event Fetched)}
    (hsized : Sized size events) (hasgs : Numbered n asgs) :
    Values downloadOnePiece asgs (WellFormed n size) events := by
  intro i value hmem asg hasg share hd
  obtain ⟨h0, hn⟩ := hasgs asg hasg
  cases value with
  | noConnection e => cases hd
  | got result =>
      cases result with
      | error e => cases hd
      | ok data =>
          cases hd
          exact ⟨h0, hn, hsized i data hmem⟩

/-- **The pieces of a segment while it is decoded**: each piece at most once, those that were not
asked for beside them, and enough of them. -/
structure DownloadedPieces.Ready (n k size : ℕ) (d : DownloadedPieces) : Prop where
  single : d.Single
  shares : ∀ share ∈ d.shares, WellFormed n size share
  unused : Numbered n d.unused
  enough : k ≤ d.shares.length
  size_pos : 0 < d.size

/-- The pieces of `download_pieces_long_tail`: as many as were asked for. -/
lemma shares_of_downloaded {job : LongTailDownload} (hk : 1 ≤ job.k) (hpos : 0 < job.size)
    {events : List (Collect.Event Fetched)} (hP : Values downloadOnePiece job.assignments P events)
    {d : DownloadedPieces} (h : downloadPiecesLongTail job events = some (.ok d)) :
    d.shares.length = job.k ∧ d.size = job.size ∧ (∀ share ∈ d.shares, P share) ∧
      ∀ a ∈ d.unused, a ∈ job.assignments := by
  rw [downloadPiecesLongTail] at h
  simp only at h
  split at h
  · cases h
  · cases h
  · rename_i collected s hrun
    have hacc := @collectPieceDownloads_accounts _ _ downloadOnePiece
      ⟨job.k, launchMargin, job.hedging, job.offset, job.size, job.k_le⟩ job.assignments hk hpos
      events
    obtain ⟨hlen, -, -⟩ := hacc.ok collected s hrun
    obtain ⟨hshares, -⟩ := collected_values hP hrun
    cases h
    exact ⟨hlen, rfl, hshares, fun a ha => List.mem_of_mem_filter ha⟩

/-- The first pieces. -/
lemma ready_of_downloaded {job : LongTailDownload} {n size : ℕ} (hk : 1 ≤ job.k)
    (hpos : 0 < job.size) (hnodup : (nums job.assignments).Nodup) (hnum : Numbered n job.assignments)
    {events : List (Collect.Event Fetched)} (hsized : Sized size events) {d : DownloadedPieces}
    (h : downloadPiecesLongTail job events = some (.ok d)) : d.Ready n job.k size := by
  obtain ⟨hlen, hsize, hshares, hunused⟩ :=
    shares_of_downloaded hk hpos (values_of_sized hsized hnum) h
  exact ⟨single_of_downloaded hnodup h, hshares, fun a ha => hnum a (hunused a ha), hlen.ge,
    hsize ▸ hpos⟩

/-- One piece more. -/
lemma DownloadedPieces.Ready.fetch {n k size : ℕ} {d d' : DownloadedPieces} (hd : d.Ready n k size)
    {events : List (Collect.Event Fetched)} (hsized : Sized size events) {piece : Share}
    (h : d.fetchOneMore events = (some (.ok (some piece)), d')) :
    Ready n k size { d' with shares := d'.shares ++ [piece] } := by
  have hsingle := hd.single.fetchAndKeep events
  rw [DownloadedPieces.fetchAndKeep, h] at hsingle
  rw [DownloadedPieces.fetchOneMore] at h
  split_ifs at h with hempty
  · cases h
  · simp only at h
    split at h
    · cases h
    · rename_i collected s hrun
      obtain ⟨hshares, hunused⟩ := collected_values (values_of_sized hsized hd.unused) hrun
      rw [Prod.mk.injEq, Option.some.injEq, Except.ok.injEq] at h
      obtain ⟨hpiece, rfl⟩ := h
      refine ⟨hsingle, fun share hshare => ?_, fun a ha => hd.unused a (hunused a ha), ?_,
        hd.size_pos⟩
      · rcases List.mem_append.mp hshare with hshare | hshare
        · exact hd.shares share hshare
        · rw [List.mem_singleton.mp hshare]
          exact hshares piece (List.mem_of_mem_head? (Option.mem_def.mpr hpiece))
      · have henough := hd.enough
        simp only [List.length_append, List.length_singleton]
        omega
    · cases h
    · cases h

end Storj.Collect

/-! ## What the pieces decode to

The request for a range, with the shares of the pieces that were committed.
-/

namespace Storj.Uplink.Request

open Buffer Enc Ec

variable {dec : Transformer} {plain enc padding : List UInt8} {rs : Redundancy}
  {nStripes start len : ℕ} (r : Request dec plain enc padding rs nStripes start len)

/-- The offset of the transferred slices. -/
def pieceOffset : ℕ := r.window.s0 * rs.shareSize

/-- The size of the transferred slices. -/
def pieceSize : ℕ := (r.window.s1 - r.window.s0) * rs.shareSize

lemma pieceSize_pos : 0 < r.pieceSize := by
  have h1 := r.s0_mul_le
  have h2 := r.le_s1_mul
  have h3 := Nat.mul_lt_mul_of_pos_right r.b0_lt_b1 r.seg.in_pos
  have hlt : r.window.s0 < r.window.s1 :=
    Nat.lt_of_mul_lt_mul_right (a := rs.stripeSize) (h1.trans_lt (h3.trans_le h2))
  exact Nat.mul_pos (by omega) r.shareSize_pos

/-- A failure that names a block is a failure to authenticate. -/
lemma isContentAuthFailure_of_block {prim : Primitives} {p : DecryptParams} (h : r.Params prim p)
    {subset : List (ℤ × List UInt8)} {decoded : List UInt8} (hdec : r.Decodes subset decoded)
    {e : Error} {b : ℤ} (hfail : decryptRemote prim p decoded = .error (e, some b)) :
    isContentAuthFailure e = true := by
  rw [r.decryptRemote_eq h hdec.length_eq] at hfail
  cases hrun : concatM (r.window.b1 - r.window.b0) (fun i =>
      decryptTracked dec (r.chunkAt decoded (r.window.b0 + i)) ((r.window.b0 + i : ℕ) : ℤ)) with
  | ok out =>
      rw [hrun] at hfail
      cases hfail
  | error x =>
      rw [hrun] at hfail
      cases hfail
      obtain ⟨i, -, hi⟩ := exists_of_concatM_eq_error hrun
      rw [decryptTracked] at hi
      split at hi
      · cases hi
      · split_ifs at hi with hauth
        · cases hi
          exact hauth
        · cases hi

/-- Under an ideal cipher the search over subsets fails for no other reason than that nothing
authenticates. -/
lemma reconstructLoop_error {prim : Primitives} {p : DecryptParams} (h : r.Params prim p)
    (hauth : dec.Authentic r.seg.count) (shares : List (ℤ × List UInt8)) (probeFirst : Bool)
    (combos : List (List ℕ)) (hall : ∀ c ∈ combos, ∃ decoded,
      r.Decodes (selectShares shares c) decoded) {e : Error} :
    ∀ (failed : List ℤ) (lastErr : Option Error),
      (∀ x, lastErr = some x → isContentAuthFailure x = true) →
      reconstructLoop prim shares rs p probeFirst combos failed lastErr = .error e →
      isContentAuthFailure e = true := by
  induction combos with
  | nil =>
      intro failed lastErr hlast herr
      rw [reconstructLoop] at herr
      cases herr
      cases lastErr with
      | none => rfl
      | some x => exact hlast x rfl
  | cons c rest ih =>
      intro failed lastErr hlast herr
      have hrest : ∀ c ∈ rest, ∃ decoded, r.Decodes (selectShares shares c) decoded :=
        fun c hc => hall c (List.mem_cons_of_mem _ hc)
      rw [reconstructLoop] at herr
      split_ifs at herr with hskip
      · refine ih hrest _ _ (fun x hx => ?_) herr
        cases hx
        rfl
      · obtain ⟨decoded, hdec⟩ := hall c List.mem_cons_self
        rw [hdec.decode_eq] at herr
        dsimp only at herr
        rcases r.decryptRemote_authentic h hauth hdec with hok | ⟨e', b, -, -, hfail⟩
        · rw [hok] at herr
          cases herr
        · rw [hfail] at herr
          refine ih hrest _ _ (fun x hx => ?_) herr
          cases hx
          exact r.isContentAuthFailure_of_block h hdec hfail

variable {codec : ReedSolomon} {pieces : List (List UInt8)}

/-- **Reconstruction from any shares** of the right shape, under an ideal cipher: nothing but the
range, the range if enough shares are genuine, and else a failure to authenticate. -/
lemma reconstruct_any (hcodec : ReedSolomon.new rs.k rs.n rs.shareSize = .ok codec)
    (hpieces : Pieces codec (enc ++ padding) nStripes pieces) {prim : Primitives}
    {p : DecryptParams} (h : r.Params prim p) (hauth : dec.Authentic r.seg.count)
    {shares : List (ℤ × List UInt8)} (hd : (shares.map Prod.fst).Nodup)
    (hshares : ∀ s ∈ shares, 0 ≤ s.1 ∧ s.1 < rs.n ∧ s.2.length = r.pieceSize)
    (hk : rs.k ≤ shares.length) :
    (∀ x, reconstructRemote prim shares rs p = .ok x → x = slice plain start len) ∧
      (∀ e, reconstructRemote prim shares rs p = .error e → isContentAuthFailure e = true) ∧
      (rs.k ≤ shares.countP (genuine pieces r.pieceOffset r.pieceSize) →
        reconstructRemote prim shares rs p = .ok (slice plain start len)) := by
  have hsome := fun c (hc : c ∈ kSubsets shares.length rs.k) =>
    r.shares_decode hcodec hpieces hd hshares hk hc
  have hall : ∀ c ∈ kSubsets shares.length rs.k, ∃ decoded,
      r.Decodes (selectShares shares c) decoded := fun c hc => (hsome c hc).imp fun _ h => h.1
  have hsearch := r.reconstructLoop_spec h hauth shares (shares.length > rs.k) _ hall [] none
    (fun x hx => absurd hx List.not_mem_nil)
  rw [reconstructRemote, if_neg (not_lt.mpr hk)]
  refine ⟨hsearch.1, fun e he => ?_, fun hgen => hsearch.2 ?_⟩
  · exact r.reconstructLoop_error h hauth shares _ _ hall [] none (fun x hx => by cases hx) he
  · rw [← countP_positions] at hgen
    obtain ⟨c, hc, hsub⟩ := exists_kSubset r.k_pos _ hgen
    obtain ⟨decoded, hdecodes, heq⟩ := hsome c hc
    obtain rfl := heq fun s hs => by
      obtain ⟨i, hi, rfl⟩ := List.mem_map.mp hs
      exact hsub i hi
    exact ⟨c, hc, hdecodes⟩

/-- **Reconstruction from exactly as many genuine shares as needed**, whatever the cipher. -/
lemma reconstruct_genuine (hcodec : ReedSolomon.new rs.k rs.n rs.shareSize = .ok codec)
    (hpieces : Pieces codec (enc ++ padding) nStripes pieces) {prim : Primitives}
    {p : DecryptParams} (h : r.Params prim p) {shares : List (ℤ × List UInt8)}
    (hd : (shares.map Prod.fst).Nodup)
    (hshares : ∀ s ∈ shares, 0 ≤ s.1 ∧ s.1 < rs.n ∧ s.2.length = r.pieceSize)
    (hk : shares.length = rs.k)
    (hgen : ∀ s ∈ shares, genuine pieces r.pieceOffset r.pieceSize s = true) :
    reconstructRemote prim shares rs p = .ok (slice plain start len) := by
  -- the one subset that is tried is all of them
  obtain ⟨rest, hsubsets⟩ := kSubsets_cons (n := rs.k) r.k_pos le_rfl
  have hfirst : List.range rs.k ∈ kSubsets shares.length rs.k := by
    rw [hk, hsubsets]
    exact List.mem_cons_self
  obtain ⟨decoded, hdecodes, heq⟩ := r.shares_decode hcodec hpieces hd hshares hk.ge hfirst
  obtain rfl := heq fun s hs => by
    obtain ⟨i, hi, rfl⟩ := List.mem_map.mp hs
    rw [List.mem_range, ← hk] at hi
    rw [List.getD_eq_getElem _ _ hi]
    exact hgen _ (List.getElem_mem hi)
  rw [reconstructRemote, if_neg (by omega), hk, hsubsets, reconstructLoop]
  simp only [gt_iff_lt, lt_irrefl, decide_false, Bool.false_and, Bool.false_eq_true, if_false]
  rw [hdecodes.decode_eq]
  simp only [r.decryptRemote_windowBytes h hdecodes]

end Storj.Uplink.Request

/-! ## What is read is what was written

From the answer of the satellite back to the commit: the same key, nonce, cipher, sizes and scheme.
-/

namespace Storj.Client

open Storj.Enc Storj.Access MachineInt Buffer Uplink Collect
open Segment (PieceAssignment AddressedOrderLimit PieceResult nums)

variable {H : Type} {prim : PathPrimitives}

/-- **What a satellite answers** for a segment on storage nodes: it names, each with an address and
in its place, pieces of the code that were uploaded. -/
structure AnswersRemote (validKeypair : Bytes → Bool) (size : ℤ) (scheme : RedundancyScheme)
    (results : List (PieceResult H)) (body : SegmentBody) : Prop where
  inlineData : body.encryptedInlineData = []
  segmentSize : body.segmentSize = size
  redundancyScheme : body.redundancyScheme = some scheme
  ne_nil : body.addressedLimits ≠ []
  limit : ∀ (i : ℕ) a, body.addressedLimits[i]? = some a → a.limit.isSome →
    (i : ℤ) ∈ results.map PieceResult.pieceNum ∧ (i : ℤ) < scheme.total ∧
      ∃ asg, PieceAssignment.fromAddressed i a = .ok asg
  privateKey : checkPieceKey validKeypair body.privateKey = .ok ()

/-- **What a satellite answers** for a segment that was committed. -/
structure Answers (validKeypair : Bytes → Bool) (s : StoredSegment H)
    (seg : SegmentDownload SegmentBody) : Prop where
  position : seg.position = some s.position
  plainSize : seg.plainSize = s.plainSize
  encryptedKeyNonce : seg.body.encryptedKeyNonce = s.encryptedKeyNonce
  encryptedKey : seg.body.encryptedKey = s.encryptedKey
  content : match s.content with
    | .inline data => seg.body.encryptedInlineData = data ∧ seg.body.addressedLimits = []
    | .remote size scheme _ results => AnswersRemote validKeypair size scheme results seg.body

/-- **The two ways of a segment**, once it is committed. -/
inductive StoredAs (prim : PathPrimitives) (cipher : CipherSuite) (blockSize : ℕ) (key : Key)
    (job : SegmentCommit) : StoredContent H → Prop
  | inline {data : Bytes} (hlen : job.plain.length ≤ maxInlineSegmentSize)
      (hseal : sealed prim job.plain cipher key (contentNonce job.partNumber job.index) = .ok data) :
      StoredAs prim cipher blockSize key job (.inline data)
  | remote {encrypted : Bytes} {scheme : RedundancyScheme} {rs : Redundancy} {pieces : List Bytes}
      {results : List (PieceResult H)}
      (henc : encryptRemote prim.toPrimitives job.plain cipher key
        (contentNonce job.partNumber job.index) blockSize = .ok encrypted)
      (hrs : redundancyFromScheme scheme = .ok rs)
      (hpieces : encodePieces encrypted rs = .ok pieces) :
      StoredAs prim cipher blockSize key job
        (.remote (satI64 encrypted.length) scheme pieces results)

/-- **A committed segment**: where it is, and under which key. -/
structure IsStored (prim : PathPrimitives) (cipher : CipherSuite) (blockSize : ℕ)
    (contentKey key : Key) (job : SegmentCommit) (s : StoredSegment H) : Prop where
  position : s.position = (job.partNumber, job.index)
  plainSize : s.plainSize = lastPlain job.plain
  key_sealed : ∃ nonce, encryptKey prim key cipher contentKey nonce = .ok s.encryptedKey ∧
    s.encryptedKeyNonce = Vector.toList nonce
  content : StoredAs prim cipher blockSize key job s.content

lemma mapUplink_eq_ok {α : Type} {x : Except Uplink.Error α} {a : α} :
    x.mapError mapUplink = .ok a ↔ x = .ok a := by
  cases x with
  | ok b => simp [Except.mapError]
  | error e => simp [Except.mapError]

lemma inlineData_eq_ok {plain : Bytes} {cipher : CipherSuite} {key : Key} {nonce : Nonce}
    {data : Bytes} (h : inlineData prim plain cipher key nonce = .ok (some data)) :
    plain.length ≤ maxInlineSegmentSize ∧ sealed prim plain cipher key nonce = .ok data := by
  rw [inlineData] at h
  split_ifs at h with hlen
  · cases h
  · obtain ⟨out, hout, h⟩ := Fallible.bind_eq_ok.mp h
    split_ifs at h
    · cases h
      exact ⟨not_lt.mp hlen, hout⟩
    · cases h

/-- **What `commit_one_segment` did when it succeeds.** -/
lemma isStored_of_commit {calls : CommitCalls H} {cipher : CipherSuite} {blockSize : ℕ}
    {contentKey : Key} {job : SegmentCommit} {s : StoredSegment H}
    (h : commitOneSegment prim calls cipher blockSize contentKey job = .ok s) :
    IsStored prim cipher blockSize contentKey calls.segmentKey job s := by
  rw [commitOneSegment] at h
  obtain ⟨encryptedKey, hkey, h⟩ := Fallible.bind_eq_ok.mp h
  obtain ⟨etag, -, h⟩ := Fallible.bind_eq_ok.mp h
  obtain ⟨choice, hchoice, h⟩ := Fallible.bind_eq_ok.mp h
  cases choice with
  | some data =>
      obtain ⟨hlen, hseal⟩ := inlineData_eq_ok hchoice
      obtain ⟨-, -, h⟩ := Fallible.bind_eq_ok.mp h
      cases h
      exact ⟨rfl, rfl, ⟨calls.keyNonce, hkey, rfl⟩, .inline hlen hseal⟩
  | none =>
      obtain ⟨encrypted, henc, h⟩ := Fallible.bind_eq_ok.mp h
      obtain ⟨begun, -, h⟩ := Fallible.bind_eq_ok.mp h
      obtain ⟨scheme, -, h⟩ := Fallible.bind_eq_ok.mp h
      obtain ⟨rs, hrs, h⟩ := Fallible.bind_eq_ok.mp h
      obtain ⟨pieces, hpieces, h⟩ := Fallible.bind_eq_ok.mp h
      obtain ⟨assignments, -, h⟩ := Fallible.bind_eq_ok.mp h
      obtain ⟨-, -, h⟩ := Fallible.bind_eq_ok.mp h
      obtain ⟨⟨segmentId, results⟩, -, h⟩ := Fallible.bind_eq_ok.mp h
      obtain ⟨-, -, h⟩ := Fallible.bind_eq_ok.mp h
      cases h
      exact ⟨rfl, rfl, ⟨calls.keyNonce, hkey, rfl⟩,
        .remote (mapUplink_eq_ok.mp henc) (mapUplink_eq_ok.mp hrs) (mapUplink_eq_ok.mp hpieces)⟩

/-- The numbers of the assignments are the places of their limits. -/
lemma assignmentsOf_eq_ok {limits : List (AddressedOrderLimit × ℕ)} {n : ℕ} (hn : n ≤ 2 ^ 31)
    (h : ∀ a ∈ limits, a.2 < n ∧ ∃ asg, PieceAssignment.fromAddressed a.2 a.1 = .ok asg) :
    ∃ asgs, assignmentsOf limits = .ok asgs ∧ nums asgs = limits.map fun a => (a.2 : ℤ) := by
  induction limits with
  | nil => exact ⟨[], rfl, rfl⟩
  | cons a limits ih =>
      obtain ⟨asgs, hasgs, hnums⟩ := ih fun b hb => h b (List.mem_cons_of_mem _ hb)
      obtain ⟨hlt, asg, hasg⟩ := h a List.mem_cons_self
      have hnum : asg.pieceNum = a.2 := by
        rw [PieceAssignment.fromAddressed] at hasg
        obtain ⟨limit, -, hasg⟩ := Fallible.bind_eq_ok.mp hasg
        obtain ⟨address, -, hasg⟩ := Fallible.bind_eq_ok.mp hasg
        obtain ⟨nodeId, -, hasg⟩ := Fallible.bind_eq_ok.mp hasg
        cases hasg
        exact if_pos (by omega)
      refine ⟨asg :: asgs, ?_, ?_⟩
      · rw [assignmentsOf] at hasgs ⊢
        rw [List.mapM_cons, hasg, hasgs]
        rfl
      · rw [List.map_cons, ← hnums, ← hnum]
        rfl

/-- Places of a list are different. -/
lemma nodup_places {α : Type} {l : List α} {limits : List (α × ℕ)} (h : limits.Sublist l.zipIdx) :
    (limits.map fun a => (a.2 : ℤ)).Nodup := by
  have hplaces := (h.map Prod.snd).nodup (List.nodup_zipIdx_map_snd l)
  have hcast := hplaces.map (f := fun i : ℕ => (i : ℤ)) Nat.cast_injective
  rwa [List.map_map] at hcast

/-- **The assignments of an answer** name different pieces of the code. -/
lemma AnswersRemote.assignments {validKeypair : Bytes → Bool} {size : ℤ} {scheme : RedundancyScheme}
    {results : List (PieceResult H)} {body : SegmentBody}
    (h : AnswersRemote validKeypair size scheme results body) {n : ℕ} (hn : n ≤ 2 ^ 31)
    (htotal : scheme.total = n) :
    ∃ asgs, assignmentsOf (body.addressedLimits.zipIdx.filter fun a => a.1.limit.isSome) = .ok asgs ∧
      (nums asgs).Nodup ∧ Numbered n asgs := by
  have hlimits : ∀ a ∈ body.addressedLimits.zipIdx.filter fun a => a.1.limit.isSome,
      a.2 < n ∧ ∃ asg, PieceAssignment.fromAddressed a.2 a.1 = .ok asg := by
    rintro ⟨a, i⟩ ha
    rw [List.mem_filter, List.mem_zipIdx_iff_getElem?] at ha
    obtain ⟨-, hlt, hasg⟩ := h.limit i a ha.1 ha.2
    exact ⟨by dsimp only; omega, hasg⟩
  obtain ⟨asgs, hasgs, hnums⟩ := assignmentsOf_eq_ok hn hlimits
  refine ⟨asgs, hasgs, ?_, ?_⟩
  · rw [hnums]
    exact nodup_places List.filter_sublist
  · intro a ha
    have hmem : a.pieceNum ∈ nums asgs := List.mem_map_of_mem ha
    rw [hnums] at hmem
    obtain ⟨x, hx, heq⟩ := List.mem_map.mp hmem
    have hlt := (hlimits x hx).1
    omega

lemma redundancyFromScheme_total {scheme : RedundancyScheme} {rs : Redundancy}
    (h : redundancyFromScheme scheme = .ok rs) : scheme.total = rs.n := by
  rw [redundancyFromScheme] at h
  obtain ⟨k, -, h⟩ := Fallible.bind_eq_ok.mp h
  obtain ⟨n, hn, h⟩ := Fallible.bind_eq_ok.mp h
  obtain ⟨m, -, h⟩ := Fallible.bind_eq_ok.mp h
  obtain ⟨o, -, h⟩ := Fallible.bind_eq_ok.mp h
  obtain ⟨shareSize, -, h⟩ := Fallible.bind_eq_ok.mp h
  split_ifs at h
  cases h
  exact (toUsize_eq_ok hn).symm

/-- A range of plaintext that is there. -/
lemma slicePlain_eq {full : Bytes} {start len : ℕ} (hlen : 1 ≤ len)
    (hrange : start + len ≤ full.length) (hmax : full.length ≤ usizeMax) :
    slicePlain full start len = slice full start len := by
  rw [slicePlain, if_neg (by omega)]
  dsimp only
  rw [Int.toNat_natCast, Int.toNat_natCast, Nat.min_eq_left (by omega),
    satUsize_of_le (by omega), Nat.min_eq_left hrange, Nat.add_sub_cancel_left]

section Plan

variable {dec : Transformer} {plain enc padding : List UInt8} {rs : Redundancy}
  {nStripes start len : ℕ} (r : Request dec plain enc padding rs nStripes start len)
  {validKeypair : Bytes → Bool} {scheme : RedundancyScheme} {results : List (PieceResult H)}
  {seg : SegmentDownload SegmentBody} {cipher : CipherSuite} {key : Key} {nonce : Nonce} {size : ℕ}

variable (prim) in
/-- What `decrypt_one_segment` asks the nodes for is the transferred part of the pieces of the
range, and it decodes them as it should. -/
structure Asks (job : RemoteJob) : Prop where
  rs_eq : job.rs = rs
  offset_eq : job.offset = r.pieceOffset
  size_eq : job.size = r.pieceSize
  params : r.Params prim.toPrimitives job.params
  nodup : (nums job.assignments).Nodup
  numbered : Numbered rs.n job.assignments

lemma remoteJob_eq_ok {codec : Ec.ReedSolomon}
    (hcodec : Ec.ReedSolomon.new rs.k rs.n rs.shareSize = .ok codec)
    (hdec : newDecrypter prim.toPrimitives cipher key nonce size = .ok dec)
    (hrs : redundancyFromScheme scheme = .ok rs)
    (hans : AnswersRemote validKeypair (satI64 enc.length) scheme results seg.body)
    (hplain : seg.plainSize = lastPlain plain) :
    ∃ job, remoteJob prim validKeypair cipher size key nonce seg start len = .ok job ∧
      Asks prim r job := by
  obtain ⟨-, hcn, -⟩ := Ec.ReedSolomon.new_fields hcodec
  have hn256 := codec.n_le
  obtain ⟨asgs, hasgs, hnodup, hnum⟩ := hans.assignments (n := rs.n) (by omega)
    (redundancyFromScheme_total hrs)
  have hoff : (satI64 ((r.pieceOffset : ℤ) * asI64 rs.k)).toNat
      = r.window.s0 * rs.stripeSize := by
    have hs0 := Nat.mul_le_mul_right rs.stripeSize r.s0_le_s1
    have hmax := r.s1_mul_le
    have hk : rs.k ≤ isizeMax := (Nat.le_mul_of_pos_right _ r.shareSize_pos).trans r.stripe_le
    have hmul : r.pieceOffset * rs.k = r.window.s0 * rs.stripeSize := by
      rw [Request.pieceOffset, Redundancy.stripeSize, Nat.mul_assoc, Nat.mul_comm rs.shareSize]
    rw [asI64_of_le hk, ← Nat.cast_mul, hmul, satI64_natCast (by omega), Int.toNat_natCast]
  rw [remoteJob, hans.redundancyScheme]
  dsimp only [requireScheme, Fallible.ok_bind]
  split
  · rename_i e he
    rw [hrs] at he
    cases he
  · rename_i rs' hrs'
    obtain rfl : rs = rs' := by
      rw [hrs] at hrs'
      exact Except.ok.inj hrs'
    rw [hdec]
    dsimp only [Except.mapError, Fallible.ok_bind]
    rw [hasgs, Fallible.ok_bind, hans.privateKey, Fallible.ok_bind, r.pieceByteRange_eq]
    exact ⟨_, rfl, rfl, rfl, rfl,
      ⟨hdec, hoff, by
        show seg.body.segmentSize.toNat = _
        rw [hans.segmentSize, satI64_natCast r.enc_le, Int.toNat_natCast], rfl, rfl, by
        show seg.plainSize = _
        rw [hplain, lastPlain, satI64_natCast r.plain_le]⟩, hnodup, hnum⟩

end Plan

/-- What was sealed under the key opens to the key that was sealed: what is asked of the cipher for
the keys, whatever else it does. -/
def KeyOpens (prim : PathPrimitives) (cipher : CipherSuite) (contentKey : Key) : Prop :=
  ∀ key nonce out, encryptKey prim key cipher contentKey nonce = .ok out →
    decryptKey prim out cipher contentKey nonce = .ok key

/-- The key and the nonce of a segment are found again. -/
lemma planSegment_eq {validKeypair : Bytes → Bool} {contentKey key : Key} {cipher : CipherSuite}
    {blockSize : ℕ} {job : SegmentCommit} {s : StoredSegment H} {seg : SegmentDownload SegmentBody}
    (hopens : KeyOpens prim cipher contentKey)
    (hs : IsStored prim cipher blockSize contentKey key job s) (hans : Answers validKeypair s seg)
    (start len : ℤ) :
    planSegment prim validKeypair contentKey cipher blockSize seg start len =
      if seg.body.encryptedInlineData ≠ [] ∨ seg.body.addressedLimits = [] then
        opened prim seg.body.encryptedInlineData cipher key
          (contentNonce job.partNumber job.index) >>= fun full =>
            .ok (.inline (slicePlain full start len))
      else
        remoteJob prim validKeypair cipher blockSize key (contentNonce job.partNumber job.index) seg
          start len >>= fun rjob => .ok (.remote rjob) := by
  obtain ⟨nonce, hkey, hnonce⟩ := hs.key_sealed
  rw [planSegment, hans.position, hs.position, hans.encryptedKeyNonce, hnonce, nonceFromSlice_toList,
    Fallible.ok_bind, hans.encryptedKey, hopens key nonce _ hkey, Fallible.ok_bind]
  rfl

/-- **A segment in the database** is decrypted, and cut. -/
lemma planSegment_inline (haes : prim.aesGcm.Lawful) (hbox : prim.secretBox.Lawful)
    {validKeypair : Bytes → Bool} {contentKey key : Key} {cipher : CipherSuite} {blockSize : ℕ}
    {job : SegmentCommit} {s : StoredSegment H} {seg : SegmentDownload SegmentBody}
    (hs : IsStored prim cipher blockSize contentKey key job s) (hans : Answers validKeypair s seg)
    {data : Bytes} (hcontent : s.content = .inline data) {start len : ℕ} (hlen : 1 ≤ len)
    (hrange : start + len ≤ job.plain.length) :
    planSegment prim validKeypair contentKey cipher blockSize seg start len
      = .ok (.inline (slice job.plain start len)) := by
  have hstored := hs.content
  have hbody := hans.content
  rw [hcontent] at hstored hbody
  obtain ⟨hdata, hlimits⟩ := hbody
  cases hstored with
  | inline hmax hseal =>
      rw [planSegment_eq (fun _ _ _ h => decryptKey_encryptKey haes hbox h) hs hans,
        if_pos (Or.inr hlimits), hdata, opened_of_sealed haes hbox hseal, Fallible.ok_bind,
        slicePlain_eq hlen hrange (hmax.trans (by decide))]

/-- **A segment on storage nodes** is asked for as it was encoded. -/
lemma planSegment_remote {validKeypair : Bytes → Bool} {contentKey key : Key} {cipher : CipherSuite}
    {blockSize : ℕ} {job : SegmentCommit} {s : StoredSegment H} {seg : SegmentDownload SegmentBody}
    (hopens : KeyOpens prim cipher contentKey)
    (hs : IsStored prim cipher blockSize contentKey key job s) (hans : Answers validKeypair s seg)
    {size : ℤ} {scheme : RedundancyScheme} {pieces : List Bytes} {results : List (PieceResult H)}
    (hcontent : s.content = .remote size scheme pieces results) {rs : Redundancy}
    (hrs : redundancyFromScheme scheme = .ok rs) {dec : Transformer} {enc : Bytes}
    (hdec : newDecrypter prim.toPrimitives cipher key (contentNonce job.partNumber job.index)
      blockSize = .ok dec)
    (hsize : size = satI64 enc.length) {codec : Ec.ReedSolomon}
    (hcodec : Ec.ReedSolomon.new rs.k rs.n rs.shareSize = .ok codec) {padding : Bytes}
    {nStripes start len : ℕ} (r : Request dec job.plain enc padding rs nStripes start len) :
    ∃ rjob, planSegment prim validKeypair contentKey cipher blockSize seg start len
      = .ok (.remote rjob) ∧ Asks prim r rjob := by
  have hbody := hans.content
  rw [hcontent, hsize] at hbody
  obtain ⟨rjob, hrjob, hasks⟩ := remoteJob_eq_ok r hcodec hdec hrs hbody (by
    rw [hans.plainSize, hs.plainSize])
  refine ⟨rjob, ?_, hasks⟩
  rw [planSegment_eq hopens hs hans, if_neg, hrjob, Fallible.ok_bind]
  rintro (h | h)
  · exact h hbody.inlineData
  · exact hbody.ne_nil h

end Storj.Client
