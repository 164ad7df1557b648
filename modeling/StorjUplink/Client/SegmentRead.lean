import StorjUplink.Client.Segments
import StorjUplink.Uplink.PieceSize

/-!
# Reading a segment back

**Honest nodes** (`decryptSegment_honest`): the first pieces that arrive are enough, and any range
of the segment comes back.

**Any nodes** (`decryptSegment_any`): under an ideal cipher nothing but the range ever comes back;
and it does as soon as there are enough genuine pieces among those collected, up to two of them
fetched after a decryption that failed.  The invariant of the loop that fetches them is `Ready`; a
fetch that brings nothing leaves nothing to fetch (`Nodes.after_of_fetch`), so that the loop may
give up.

Both statements are about the loop of `decrypt_one_segment` over what the nodes send.  Of honest
nodes it is enough to know that every download comes to its end while the race goes on and that as
many of them are up as the code needs (`HonestRace`); that the race then ends with enough pieces is
`collectPieceDownloads_race`, so nothing is assumed of its result.

Of any nodes nothing is known but what `download_once` makes of them, which is bytes of the size
that was asked for (`Served`).  A reconstruction from such shares gives the block that was sealed
or fails, because the cipher opens nothing else.
-/

namespace Storj.Client

open Storj.Enc Storj.Access MachineInt Buffer Uplink Collect
open Segment (PieceAssignment AddressedOrderLimit PieceResult nums)

variable {H : Type} {prim : PathPrimitives}

/-! ## More pieces

Each call of `fetch_one_more` may bring a piece, and the loop has so many of them.
-/

/-- The pieces after so many calls of `fetch_one_more`. -/
def Nodes.after (nodes : Nodes) : ℕ → ℕ → DownloadedPieces → DownloadedPieces
  | _, 0, d => d
  | call, i + 1, d => nodes.after (call + 1) i (d.fetchAndKeep (nodes.events call))

/-- With nothing left to ask for, nothing more comes. -/
lemma Nodes.after_drained (nodes : Nodes) {d : DownloadedPieces} (hd : d.unused = []) (call i : ℕ) :
    nodes.after call i d = d := by
  induction i generalizing call with
  | zero => rfl
  | succ i ih =>
      have hkeep : d.fetchAndKeep (nodes.events call) = d := by
        rw [DownloadedPieces.fetchAndKeep, DownloadedPieces.fetchOneMore, hd]
        rfl
      rw [Nodes.after, hkeep]
      exact ih (call + 1)

/-- **A fetch that brings nothing is the last one.** -/
lemma Nodes.after_of_fetch (nodes : Nodes) {d d' : DownloadedPieces} (hsize : 0 < d.size)
    {call : ℕ} {got : Option (Except Collect.Error (Option Share))}
    (h : d.fetchOneMore (nodes.events call) = (got, d')) (hgot : ∀ piece, got ≠ some (.ok (some piece)))
    (i : ℕ) : (nodes.after call i d).shares = d.shares := by
  cases i with
  | zero => rfl
  | succ i =>
      have hkeep : d.fetchAndKeep (nodes.events call) = d' := by
        rw [DownloadedPieces.fetchAndKeep, h]
        cases got with
        | none => rfl
        | some result =>
            cases result with
            | error e => rfl
            | ok piece =>
                cases piece with
                | none => rfl
                | some piece => exact absurd rfl (hgot piece)
      have hleft : d'.shares = d.shares ∧ d'.unused = [] := by
        rw [DownloadedPieces.fetchOneMore] at h
        split_ifs at h with hempty
        · cases h
          exact ⟨rfl, List.isEmpty_iff.mp hempty⟩
        · dsimp only at h
          split at h
          · cases h
            exact ⟨rfl, rfl⟩
          · rename_i collected s hrun
            -- one piece was asked for, and one is there
            have hacc := @collectPieceDownloads_accounts _ _ downloadOnePiece
              ⟨1, 0, false, d.offset, d.size, by decide⟩ d.unused le_rfl hsize (nodes.events call)
            obtain ⟨hone, -, -⟩ := hacc.ok collected s hrun
            rw [Prod.mk.injEq] at h
            obtain ⟨hgot', -⟩ := h
            cases hshares : collected.shares with
            | nil =>
                rw [hshares] at hone
                cases hone
            | cons piece rest =>
                rw [hshares] at hgot'
                exact absurd hgot'.symm (hgot piece)
          · cases h
            exact ⟨rfl, rfl⟩
          · cases h
            exact ⟨rfl, rfl⟩
      rw [Nodes.after, hkeep, nodes.after_drained hleft.2, hleft.1]

/-! ## Honest nodes

The race is any interleaving of what honest nodes do.  Some of them may be down, as long as enough
are not.
-/

/-- The numbers of the first race. -/
def RemoteJob.plan (rjob : RemoteJob) (hedging : Bool) : Plan :=
  ⟨rjob.rs.k, launchMargin, hedging, rjob.offset, rjob.size, rjob.k_le⟩

/-- How a download from an honest node ends: with the piece that was uploaded or, from a node that
is not up, with a failure. -/
def HonestFetch (pieces : List Bytes) (rjob : RemoteJob) (up : PieceAssignment → Bool)
    (asg : PieceAssignment) (fetched : Fetched) : Prop :=
  (∀ share, downloadOnePiece asg fetched = .ok share →
      genuine pieces rjob.offset.toNat rjob.size.toNat share = true) ∧
    (up asg → ∃ share, downloadOnePiece asg fetched = .ok share)

/-- **Honest nodes**: they send what was uploaded, every download that was started comes to its end
while the race goes on, and as many of the nodes as the code needs are up. -/
def HonestRace (nodes : Nodes) (pieces : List Bytes) (rjob : RemoteJob) : Prop :=
  ∃ up : PieceAssignment → Bool, rjob.rs.k ≤ rjob.assignments.countP up ∧
    Race downloadOnePiece (rjob.plan nodes.hedging) (HonestFetch pieces rjob up)
      (.start (rjob.plan nodes.hedging) rjob.assignments) (nodes.events 0)

/-- Whether the download of the first pieces brought what was uploaded. -/
def FirstGenuine (nodes : Nodes) (pieces : List Bytes) (rjob : RemoteJob) : Prop :=
  ∃ d, downloadPiecesLongTail (rjob.download nodes.hedging) (nodes.events 0) = some (.ok d) ∧
    ∀ share ∈ d.shares, genuine pieces rjob.offset.toNat rjob.size.toNat share = true

/-! ## What the pieces decode to

Genuine shares decode to the ciphertext, and arbitrary ones to some bytes.
-/

section Decode

variable {dec : Transformer} {plain enc padding : List UInt8} {rs : Redundancy}
  {nStripes start len : ℕ} (r : Request dec plain enc padding rs nStripes start len)
  {codec : Ec.ReedSolomon} {pieces : List Bytes} {rjob : RemoteJob} {nodes : Nodes}

/-- As many pieces are asked for as the code needs. -/
lemma Asks.k_eq (hasks : Asks prim r rjob) (hedging : Bool) :
    (rjob.download hedging).k = rs.k := congrArg Redundancy.k hasks.rs_eq

lemma Asks.size_pos (hasks : Asks prim r rjob) (hedging : Bool) :
    0 < (rjob.download hedging).size := by
  rw [RemoteJob.download, hasks.size_eq]
  exact Int.natCast_pos.mpr r.pieceSize_pos

/-- What is asked of a piece ends inside of it, so that the end fits its type. -/
lemma Asks.range_fits (hasks : Asks prim r rjob) (hedging : Bool) :
    (rjob.download hedging).offset + (rjob.download hedging).size ≤ i64Max := by
  have hpadded := r.padded_le
  have hinside : r.pieceOffset + r.pieceSize ≤ (enc ++ padding).length := by
    rw [Request.pieceOffset, Request.pieceSize, ← Nat.add_mul, Nat.add_sub_cancel' r.s0_le_s1,
      r.length_padded, Redundancy.stripeSize, ← Nat.mul_assoc]
    exact Nat.mul_le_mul_right _ (r.s1_le.trans (Nat.le_mul_of_pos_right _ r.k_pos))
  show rjob.offset + rjob.size ≤ i64Max
  rw [hasks.offset_eq, hasks.size_eq, i64Max]
  rw [isizeMax] at hpadded
  omega

/-- **Honest nodes are enough**, in whatever order the pieces come and whichever of the nodes are
down. -/
lemma Asks.firstGenuine (hasks : Asks prim r rjob) (hhonest : HonestRace nodes pieces rjob) :
    FirstGenuine nodes pieces rjob := by
  obtain ⟨up, hup, hrace⟩ := hhonest
  have hk : 1 ≤ rjob.rs.k := by
    rw [hasks.rs_eq]
    exact r.k_pos
  have hoffset : 0 ≤ rjob.offset := by
    rw [hasks.offset_eq]
    exact Int.natCast_nonneg _
  obtain ⟨c, s, hrun, hshares⟩ := collectPieceDownloads_race hk hoffset
    (hasks.size_pos r nodes.hedging) (hasks.range_fits r nodes.hedging) hup
    (fun _ _ h => h.2) hrace
  have hfirst : downloadPiecesLongTail (rjob.download nodes.hedging) (nodes.events 0)
      = some (.ok ⟨c.shares, rjob.assignments.filter fun a => a.pieceNum ∉ c.shares.map Prod.fst,
          rjob.offset, rjob.size⟩) := by
    rw [RemoteJob.plan] at hrun
    rw [downloadPiecesLongTail]
    dsimp only [RemoteJob.download]
    rw [hrun]
  refine ⟨_, hfirst, fun share hshare => ?_⟩
  obtain ⟨asg, fetched, hfetch, hgot⟩ := hshares share hshare
  exact hfetch.1 share hgot

/-- What the pieces at hand decode to. -/
lemma Asks.reconstruct (hcodec : Ec.ReedSolomon.new rs.k rs.n rs.shareSize = .ok codec)
    (hpieces : Pieces codec (enc ++ padding) nStripes pieces) (hauth : dec.Authentic r.seg.count)
    (hasks : Asks prim r rjob) {d : DownloadedPieces}
    (hd : d.Ready rs.n rs.k r.pieceSize) :
    (∀ x, reconstructRemote prim.toPrimitives d.shares rjob.rs rjob.params = .ok x →
        x = slice plain start len) ∧
      (∀ e, reconstructRemote prim.toPrimitives d.shares rjob.rs rjob.params = .error e →
        isContentAuthFailure e = true) ∧
      (rs.k ≤ d.shares.countP (genuine pieces r.pieceOffset r.pieceSize) →
        reconstructRemote prim.toPrimitives d.shares rjob.rs rjob.params
          = .ok (slice plain start len)) := by
  have hnodup : (d.shares.map Prod.fst).Nodup := (List.nodup_append.mp hd.single).1
  rw [hasks.rs_eq]
  exact r.reconstruct_any hcodec hpieces hasks.params hauth hnodup hd.shares hd.enough

lemma decodeLoop_of_ok {d : DownloadedPieces} {x : Bytes}
    (h : reconstructRemote prim.toPrimitives d.shares rjob.rs rjob.params = .ok x)
    (left call : ℕ) : decodeLoop prim nodes rjob left call d = some (.ok x) := by
  unfold decodeLoop
  rw [h]

/-- **The decode loop under an ideal cipher**, whatever the nodes send: it never ends with other
bytes than the range, and with the range once there are enough genuine pieces among those that were
collected and those that it can still fetch. -/
lemma decodeLoop_any (hcodec : Ec.ReedSolomon.new rs.k rs.n rs.shareSize = .ok codec)
    (hpieces : Pieces codec (enc ++ padding) nStripes pieces) (hauth : dec.Authentic r.seg.count)
    (hasks : Asks prim r rjob) (hsized : ∀ call, Sized r.pieceSize (nodes.events call))
    (left call : ℕ) (d : DownloadedPieces) (hd : d.Ready rs.n rs.k r.pieceSize) :
    (∀ x, decodeLoop prim nodes rjob left call d = some (.ok x) → x = slice plain start len) ∧
      ∀ i ≤ left, rs.k ≤ (nodes.after call i d).shares.countP
          (genuine pieces r.pieceOffset r.pieceSize) →
        decodeLoop prim nodes rjob left call d = some (.ok (slice plain start len)) := by
  induction left generalizing call d with
  | zero =>
      obtain ⟨hok, -, hgen⟩ := hasks.reconstruct r hcodec hpieces hauth hd
      cases hrec : reconstructRemote prim.toPrimitives d.shares rjob.rs rjob.params with
      | ok x =>
          obtain rfl := hok x hrec
          rw [decodeLoop_of_ok hrec]
          exact ⟨fun x hx => (Except.ok.inj (Option.some.inj hx)).symm, fun _ _ _ => rfl⟩
      | error e =>
          unfold decodeLoop
          rw [hrec]
          refine ⟨fun x hx => (by cases hx), fun i hi hcount => ?_⟩
          obtain rfl := Nat.le_zero.mp hi
          rw [hgen hcount] at hrec
          cases hrec
  | succ left ih =>
      obtain ⟨hok, hauthfail, hgen⟩ := hasks.reconstruct r hcodec hpieces hauth hd
      cases hrec : reconstructRemote prim.toPrimitives d.shares rjob.rs rjob.params with
      | ok x =>
          obtain rfl := hok x hrec
          rw [decodeLoop_of_ok hrec]
          exact ⟨fun x hx => (Except.ok.inj (Option.some.inj hx)).symm, fun _ _ _ => rfl⟩
      | error e =>
          unfold decodeLoop
          rw [hrec]
          -- the pieces at hand are not enough, and the failure is one to fetch after
          have hfew : ¬rs.k ≤ d.shares.countP (genuine pieces r.pieceOffset r.pieceSize) := by
            intro hcount
            rw [hgen hcount] at hrec
            cases hrec
          dsimp only
          rw [if_neg (by rw [hauthfail e hrec]; decide)]
          cases hfetch : d.fetchOneMore (nodes.events call) with
          | mk got d' =>
              by_cases hgot : ∃ piece, got = some (.ok (some piece))
              · obtain ⟨piece, rfl⟩ := hgot
                have hkeep : d.fetchAndKeep (nodes.events call)
                    = { d' with shares := d'.shares ++ [piece] } := by
                  rw [DownloadedPieces.fetchAndKeep, hfetch]
                obtain ⟨hsafe, hlive⟩ := ih (call + 1) _ (hd.fetch (hsized call) hfetch)
                refine ⟨hsafe, fun i hi hcount => ?_⟩
                cases i with
                | zero => exact absurd hcount hfew
                | succ i =>
                    rw [Nodes.after, hkeep] at hcount
                    exact hlive i (by omega) hcount
              · have hstuck := nodes.after_of_fetch hd.size_pos hfetch
                  fun piece h => hgot ⟨piece, h⟩
                have hnever : ∀ i, ¬rs.k ≤ (nodes.after call i d).shares.countP
                    (genuine pieces r.pieceOffset r.pieceSize) := by
                  intro i
                  rw [hstuck i]
                  exact hfew
                refine ⟨fun x hx => ?_, fun i _ hcount => absurd hcount (hnever i)⟩
                cases got with
                | none => cases hx
                | some result =>
                    cases result with
                    | error failure => cases hx
                    | ok piece =>
                        cases piece with
                        | none => cases hx
                        | some piece => exact absurd ⟨piece, rfl⟩ hgot

end Decode

/-! ## The segment

The two kinds of segments, in the database and on nodes.
-/

section Segment

variable {contentKey key : Key} {cipher : CipherSuite} {blockSize : ℕ} {job : SegmentCommit}
  {s : StoredSegment H} {nodes : Nodes} {seg : SegmentDownload SegmentBody}

/-- A segment in the database is read, whatever the nodes do. -/
lemma IsStored.inline_honest (haes : prim.aesGcm.Lawful) (hbox : prim.secretBox.Lawful)
    (hs : IsStored prim cipher blockSize contentKey key job s)
    (hans : Answers nodes.validKeypair s seg) {data : Bytes} (hcontent : s.content = .inline data)
    {start len : ℕ} (hlen : 1 ≤ len) (hrange : start + len ≤ job.plain.length) :
    decryptSegment prim nodes contentKey cipher blockSize seg start len
      = some (.ok (slice job.plain start len)) := by
  rw [decryptSegment, planSegment_inline haes hbox hs hans hcontent hlen hrange]

/-- A segment on storage nodes is read when the first pieces that arrive are genuine. -/
lemma IsStored.remote_honest (haes : prim.aesGcm.Lawful) (hbox : prim.secretBox.Lawful)
    (hblock : cipher = .null ∨ blockSize ≠ 0)
    (hs : IsStored prim cipher blockSize contentKey key job s)
    (hans : Answers nodes.validKeypair s seg) {size : ℤ} {scheme : RedundancyScheme}
    {pieces : List Bytes} {results : List (PieceResult H)}
    (hcontent : s.content = .remote size scheme pieces results) {start len : ℕ} (hlen : 1 ≤ len)
    (hrange : start + len ≤ job.plain.length) :
    ∃ rjob, planSegment prim nodes.validKeypair contentKey cipher blockSize seg start len
        = .ok (.remote rjob) ∧
      (FirstGenuine nodes pieces rjob →
        decryptSegment prim nodes contentKey cipher blockSize seg start len
          = some (.ok (slice job.plain start len))) ∧
      (HonestRace nodes pieces rjob → FirstGenuine nodes pieces rjob) := by
  have hstored := hs.content
  rw [hcontent] at hstored
  cases hstored with
  | @remote enc _ rs _ _ henc hrs hpieces =>
  obtain ⟨dec, hdec, ⟨sealed⟩⟩ := encryptRemote_spec ⟨haes, hbox⟩ hblock henc
  obtain ⟨codec, padding, nStripes, hcodec, hencoded, r, -⟩ :=
    Request.exists_of_encodePieces sealed hpieces hlen hrange
  obtain ⟨rjob, hplan, hasks⟩ := planSegment_remote
    (fun _ _ _ h => decryptKey_encryptKey haes hbox h) hs hans hcontent hrs hdec rfl hcodec r
  refine ⟨rjob, hplan, ?_, hasks.firstGenuine r⟩
  rintro ⟨d, hd, hgen⟩
  rw [hasks.offset_eq, hasks.size_eq, Int.toNat_natCast, Int.toNat_natCast] at hgen
  have hk : 1 ≤ (rjob.download nodes.hedging).k := (hasks.k_eq r _).symm ▸ r.k_pos
  obtain ⟨hcount, -, hnum, -⟩ := shares_of_downloaded hk (hasks.size_pos r _)
    (values_numbered hasks.numbered _) hd
  have hnodup := (List.nodup_append.mp (single_of_downloaded hasks.nodup hd)).1
  have hshares : ∀ share ∈ d.shares,
      0 ≤ share.1 ∧ share.1 < rs.n ∧ share.2.length = r.pieceSize := by
    intro share hshare
    obtain ⟨h0, hn⟩ := hnum share hshare
    have hslice := of_decide_eq_true (hgen share hshare)
    refine ⟨h0, hn, ?_⟩
    rw [hslice]
    exact length_slice (r.pieceSlice_fits hcodec hencoded (by omega))
  have hrec := r.reconstruct_genuine hcodec hencoded hasks.params hnodup hshares
    (hcount.trans (hasks.k_eq r _)) hgen
  rw [← hasks.rs_eq] at hrec
  rw [decryptSegment, hplan]
  dsimp only
  rw [hd]
  exact decodeLoop_of_ok hrec _ _

/-- Under an ideal cipher a segment on storage nodes is read as it was written or not at all. -/
lemma IsStored.remote_any (hcipher : cipher = .aesGcm ∨ cipher = .secretBox)
    (hblock : blockSize ≠ 0) (hopens : KeyOpens prim cipher contentKey)
    (hideal : prim.toPrimitives.IdealOn cipher key (contentNonce job.partNumber job.index) job.plain
      blockSize)
    (hs : IsStored prim cipher blockSize contentKey key job s)
    (hans : Answers nodes.validKeypair s seg) {size : ℤ} {scheme : RedundancyScheme}
    {pieces : List Bytes} {results : List (PieceResult H)}
    (hcontent : s.content = .remote size scheme pieces results) {start len : ℕ} (hlen : 1 ≤ len)
    (hrange : start + len ≤ job.plain.length) :
    ∃ rjob, planSegment prim nodes.validKeypair contentKey cipher blockSize seg start len
        = .ok (.remote rjob) ∧
      ((∀ call, Sized rjob.size.toNat (nodes.events call)) →
        (∀ x, decryptSegment prim nodes contentKey cipher blockSize seg start len = some (.ok x) →
          x = slice job.plain start len) ∧
        ∀ d, downloadPiecesLongTail (rjob.download nodes.hedging) (nodes.events 0)
            = some (.ok d) → ∀ i ≤ maxDecodeExtras,
          rjob.rs.k ≤ (nodes.after 1 i d).shares.countP
            (genuine pieces rjob.offset.toNat rjob.size.toNat) →
          decryptSegment prim nodes contentKey cipher blockSize seg start len
            = some (.ok (slice job.plain start len))) := by
  have hstored := hs.content
  rw [hcontent] at hstored
  cases hstored with
  | @remote enc _ rs _ _ henc hrs hpieces =>
  have hauthentic := encryptRemote_authentic hcipher (by rwa [if_neg hblock]) henc
  rw [if_neg hblock] at hauthentic
  obtain ⟨dec, hdec, sealed, hauth⟩ := hauthentic
  obtain ⟨codec, padding, nStripes, hcodec, hencoded, r, rfl⟩ :=
    Request.exists_of_encodePieces sealed hpieces hlen hrange
  obtain ⟨rjob, hplan, hasks⟩ := planSegment_remote hopens hs hans hcontent hrs hdec rfl hcodec r
  refine ⟨rjob, hplan, ?_⟩
  rw [hasks.offset_eq, hasks.size_eq, Int.toNat_natCast, Int.toNat_natCast]
  intro hsized
  have hloop : ∀ d, downloadPiecesLongTail (rjob.download nodes.hedging) (nodes.events 0)
      = some (.ok d) → _ := fun d hd =>
    decodeLoop_any r hcodec hencoded hauth hasks hsized maxDecodeExtras 1 d (by
      have hk : 1 ≤ (rjob.download nodes.hedging).k := (hasks.k_eq r _).symm ▸ r.k_pos
      have hready := ready_of_downloaded hk (hasks.size_pos r _) hasks.nodup hasks.numbered (hsized 0)
        hd
      rwa [hasks.k_eq r] at hready)
  rw [decryptSegment, hplan]
  dsimp only
  constructor
  · intro x hx
    cases hd : downloadPiecesLongTail (rjob.download nodes.hedging) (nodes.events 0) with
    | none =>
        rw [hd] at hx
        cases hx
    | some result =>
        rw [hd] at hx
        cases result with
        | error failure => cases hx
        | ok d => exact (hloop d hd).1 x hx
  · intro d hd i hi hcount
    rw [hd]
    rw [hasks.rs_eq] at hcount
    exact (hloop d hd).2 i hi hcount

end Segment

/-- **Honest nodes.**  A segment that was committed, answered for by the satellite, is read at any
range: out of the database whatever the nodes do, and from the nodes if the first pieces that arrive
are what was uploaded.  So they are where the nodes send nothing else and enough of them are up. -/
theorem decryptSegment_honest (haes : prim.aesGcm.Lawful) (hbox : prim.secretBox.Lawful)
    {cipher : CipherSuite} {blockSize : ℕ} (hblock : cipher = .null ∨ blockSize ≠ 0)
    {calls : CommitCalls H} {contentKey : Key} {job : SegmentCommit} {s : StoredSegment H}
    (hs : commitOneSegment prim calls cipher blockSize contentKey job = .ok s) {nodes : Nodes}
    {seg : SegmentDownload SegmentBody} (hans : Answers nodes.validKeypair s seg) {start len : ℕ}
    (hlen : 1 ≤ len) (hrange : start + len ≤ job.plain.length) :
    match s.content with
    | .inline _ => decryptSegment prim nodes contentKey cipher blockSize seg start len
        = some (.ok (slice job.plain start len))
    | .remote _ _ pieces _ => ∃ rjob,
        planSegment prim nodes.validKeypair contentKey cipher blockSize seg start len
          = .ok (.remote rjob) ∧
        (FirstGenuine nodes pieces rjob →
          decryptSegment prim nodes contentKey cipher blockSize seg start len
            = some (.ok (slice job.plain start len))) ∧
        (HonestRace nodes pieces rjob → FirstGenuine nodes pieces rjob) := by
  have hstored := isStored_of_commit hs
  cases hcontent : s.content with
  | inline data => exact hstored.inline_honest haes hbox hans hcontent hlen hrange
  | remote size scheme pieces results =>
      exact hstored.remote_honest haes hbox hblock hans hcontent hlen hrange

/-- **Any nodes.**  Under a content cipher that is ideal on a segment, reading a range of it gives
the range or nothing, whatever bytes the nodes send and `download_once` returns; and the range if
among the pieces that were collected first, with up to two that are fetched after a decryption
failed, there are enough that are genuine. -/
theorem decryptSegment_any {cipher : CipherSuite} (hcipher : cipher = .aesGcm ∨ cipher = .secretBox)
    {blockSize : ℕ} (hblock : blockSize ≠ 0) {contentKey : Key}
    (hopens : KeyOpens prim cipher contentKey) {calls : CommitCalls H} {job : SegmentCommit}
    (hideal : prim.toPrimitives.IdealOn cipher calls.segmentKey
      (contentNonce job.partNumber job.index) job.plain blockSize)
    {s : StoredSegment H} (hs : commitOneSegment prim calls cipher blockSize contentKey job = .ok s)
    {size : ℤ} {scheme : RedundancyScheme} {pieces : List Bytes} {results : List (PieceResult H)}
    (hcontent : s.content = .remote size scheme pieces results) {nodes : Nodes}
    {seg : SegmentDownload SegmentBody} (hans : Answers nodes.validKeypair s seg) {start len : ℕ}
    (hlen : 1 ≤ len) (hrange : start + len ≤ job.plain.length) :
    ∃ rjob, planSegment prim nodes.validKeypair contentKey cipher blockSize seg start len
        = .ok (.remote rjob) ∧
      ((∀ call, Served rjob.offset rjob.size (nodes.events call)) →
        (∀ x, decryptSegment prim nodes contentKey cipher blockSize seg start len = some (.ok x) →
          x = slice job.plain start len) ∧
        ∀ d, downloadPiecesLongTail (rjob.download nodes.hedging) (nodes.events 0)
            = some (.ok d) → ∀ i ≤ maxDecodeExtras,
          rjob.rs.k ≤ (nodes.after 1 i d).shares.countP
            (genuine pieces rjob.offset.toNat rjob.size.toNat) →
          decryptSegment prim nodes contentKey cipher blockSize seg start len
            = some (.ok (slice job.plain start len))) := by
  obtain ⟨rjob, hplan, hread⟩ :=
    (isStored_of_commit hs).remote_any hcipher hblock hopens hideal hans hcontent hlen hrange
  exact ⟨rjob, hplan, fun hserved => hread fun call => served_iff_sized.mp (hserved call)⟩

/-! ## A sample

A scheme of two pieces of which one is enough, so that a node may fail or lie.
-/

/-- A cipher that leaves the text as it is under one tag; under one of its keys it opens one text
only. -/
def lockedAead (locked : Key) (text : Bytes) : Aead :=
  textAead (fun _ => List.replicate tagSize 7) fun key c => key = locked → c = text

/-- The copying primitives with another cipher. -/
def primitivesWith (a : Aead) : PathPrimitives := { copyPrimitives with aesGcm := a }

/-- Two pieces of 256 bytes a stripe, either of which is enough. -/
def sampleScheme : RedundancyScheme where
  minReq := 1
  repairThreshold := 1
  successThreshold := 2
  total := 2
  erasureShareSize := 256
  minReq_lt := by decide

def sampleLimit : AddressedOrderLimit :=
  ⟨some ⟨[1], List.replicate 32 0⟩, some ⟨"node", none, 0, 0⟩, []⟩

/-- Calls that succeed. -/
def sampleCalls : CommitCalls Unit where
  segmentKey := Vector.replicate 32 1
  keyNonce := Vector.replicate 24 2
  validKeypair _ := false
  makeInlineSegment _ := .ok ()
  beginSegment _ _ := .ok ⟨[1], [sampleLimit, sampleLimit], List.replicate 32 0, some sampleScheme⟩
  uploadPieces _ segmentId _ _ := .ok (segmentId, [⟨0, [], none⟩, ⟨1, [], none⟩])
  commitSegment _ := .ok ()

/-- A segment too long for the database, and short enough for one block. -/
def sampleJob : SegmentCommit := ⟨1, 0, List.replicate 5000 1, []⟩

/-- Its block, before it is sealed. -/
def samplePadded : Bytes :=
  List.replicate 5000 1 ++ (List.replicate (3176 - uint32Size) 0 ++ toBeBytes 3176)

lemma length_samplePadded : samplePadded.length = 8176 := by
  rw [samplePadded, List.length_append, List.length_append, List.length_replicate,
    List.length_replicate, length_toBeBytes]
  rfl

/-- Padding of what is short. -/
lemma pad_of_small {data : Bytes} {size n : ℕ} (hpos : 0 < size) (hsize : size ≤ 2 ^ 16)
    (hdata : data.length ≤ 2 ^ 16) (hn : paddingLength data.length size = n) (hn' : n ≤ 2 ^ 17)
    (h4 : uint32Size ≤ n) :
    pad data size = .ok (data ++ (List.replicate (n - uint32Size) 0 ++ toBeBytes n)) := by
  have hmake : makePadding data.length size
      = .ok (List.replicate (n - uint32Size) 0 ++ toBeBytes n) := by
    rw [makePadding, hn, if_neg (by omega), if_neg (by omega), if_neg (by rw [i64Max]; omega),
      if_neg (by rw [i64Max, uint32Size]; omega)]
    dsimp only
    rw [if_neg (by rw [isizeMax]; omega), if_neg (by omega)]
  have hfits : ¬data.length + (List.replicate (n - uint32Size) 0 ++ toBeBytes n).length > isizeMax := by
    rw [List.length_append, List.length_replicate, length_toBeBytes, isizeMax]
    omega
  rw [pad, if_neg (by rw [i64Max]; omega), hmake, Fallible.ok_bind, if_neg hfits]

lemma pad_sampleJob : pad sampleJob.plain 8176 = .ok samplePadded := by
  have hlength : sampleJob.plain.length = 5000 := List.length_replicate
  exact pad_of_small (by decide) (by decide) (by rw [hlength]; decide)
    (by rw [hlength]; decide +kernel) (by decide) (by decide)

/-- It is transformed as one block. -/
lemma transformBlocks_samplePadded {f : Bytes → ℤ → Except Enc.Error Bytes} {out : Bytes}
    (h : f samplePadded 0 = .ok out) : transformBlocks ⟨8176, 8192, f⟩ samplePadded 0 = .ok out := by
  have hone : slice samplePadded 0 8176 = samplePadded := by
    rw [← length_samplePadded, slice_zero_length]
  rw [transformBlocks, length_samplePadded, if_neg (show ¬(8176 = 0 ∨ 8176 % 8176 ≠ 0) by decide)]
  show concatM (8176 / 8176) (fun i => f (slice samplePadded (i * 8176) 8176) (0 + i)) = .ok out
  rw [Nat.div_self (by decide), ← Nat.zero_add 1, concatM_succ, Nat.zero_mul, hone, Nat.cast_zero, Int.add_zero, h]
  rfl

/-- The block, sealed. -/
lemma encryptRemote_sampleJob {prim : Primitives} {tag : Bytes}
    (hseal : ∀ key nonce plain, prim.aesGcm.encryptDetached key nonce plain = some (plain, tag))
    (key : Key) (nonce : Nonce) :
    encryptRemote prim sampleJob.plain .aesGcm key nonce 8192 = .ok (samplePadded ++ tag) := by
  have hblock : encryptBlock prim.aesGcm aesGcmLayout key (toAesGcmNonce nonce) samplePadded 0
      = .ok (samplePadded ++ tag) := by
    obtain ⟨n, hn⟩ := calcNonce_isOk (toAesGcmNonce nonce) (le_refl (0 : ℤ))
    rw [encryptBlock, hn, Fallible.ok_bind, hseal]
    rfl
  have hnew : newEncrypter prim .aesGcm key nonce 8192
      = .ok ⟨8176, 8192, encryptBlock prim.aesGcm aesGcmLayout key (toAesGcmNonce nonce)⟩ := rfl
  rw [encryptRemote, if_neg (by decide), hnew, liftEnc, Fallible.ok_bind, liftEnc_eq_ok,
    transformPadded, pad_sampleJob, Fallible.ok_bind, transformBlocks_samplePadded hblock]

/-- A commit whose calls succeed. -/
lemma commitOneSegment_remote {calls : CommitCalls H} {cipher : CipherSuite} {blockSize : ℕ}
    {contentKey : Key} {job : SegmentCommit} {encryptedKey etag encrypted segmentId : Bytes}
    {begun : BeginSegmentResponse} {scheme : RedundancyScheme} {rs : Redundancy} {pieces : List Bytes}
    {assignments : List PieceAssignment} {results : List (PieceResult H)}
    (hkey : encryptKey prim calls.segmentKey cipher contentKey calls.keyNonce = .ok encryptedKey)
    (hetag : encryptEtag prim job.encryptedEtag cipher calls.segmentKey = .ok etag)
    (hremote : inlineData prim job.plain cipher calls.segmentKey
      (contentNonce job.partNumber job.index) = .ok none)
    (henc : encryptRemote prim.toPrimitives job.plain cipher calls.segmentKey
      (contentNonce job.partNumber job.index) blockSize = .ok encrypted)
    (hbegin : calls.beginSegment (job.partNumber, job.index) (satI64 encrypted.length) = .ok begun)
    (hscheme : begun.redundancyScheme = some scheme) (hrs : redundancyFromScheme scheme = .ok rs)
    (hpieces : encodePieces encrypted rs = .ok pieces)
    (hasgs : assignmentsOf begun.addressedLimits.zipIdx = .ok assignments)
    (hpiecekey : checkPieceKey calls.validKeypair begun.privateKey = .ok ())
    (hupload : calls.uploadPieces assignments begun.segmentId rs pieces = .ok (segmentId, results))
    (hcommit : ∀ request, calls.commitSegment request = .ok ()) :
    commitOneSegment prim calls cipher blockSize contentKey job
      = .ok ⟨(job.partNumber, job.index), lastPlain job.plain, calls.keyNonce.toList, encryptedKey,
          etag, .remote (satI64 encrypted.length) scheme pieces results⟩ := by
  rw [commitOneSegment, hkey, Fallible.ok_bind, hetag, Fallible.ok_bind]
  dsimp only
  rw [hremote, Fallible.ok_bind]
  dsimp only
  rw [henc]
  dsimp only [Except.mapError, Fallible.ok_bind]
  rw [hbegin, Fallible.ok_bind, hscheme]
  dsimp only [requireScheme, Fallible.ok_bind]
  rw [hrs]
  dsimp only [Fallible.ok_bind]
  rw [hpieces]
  dsimp only [Fallible.ok_bind]
  rw [hasgs, Fallible.ok_bind, hpiecekey, Fallible.ok_bind, hupload, Fallible.ok_bind, hcommit,
    Fallible.ok_bind]
  rfl

/-- The commit of the sample segment. -/
lemma exists_commit_sample {prim : PathPrimitives} {tag : Bytes} (htag : tag.length = tagSize)
    (hseal : ∀ key nonce plain, prim.aesGcm.encryptDetached key nonce plain = some (plain, tag))
    (contentKey : Key) : ∃ pieces,
    commitOneSegment prim sampleCalls .aesGcm 8192 contentKey sampleJob
      = .ok ⟨(1, 0), 5000, List.replicate 24 2, List.replicate 32 1 ++ tag, [],
          .remote 8192 sampleScheme pieces [⟨0, [], none⟩, ⟨1, [], none⟩]⟩ ∧
      8192 ≤ (pieces.getD 1 []).length := by
  have henc := encryptRemote_sampleJob hseal sampleCalls.segmentKey
    (contentNonce sampleJob.partNumber sampleJob.index)
  have hlen : (samplePadded ++ tag).length = 8192 := by
    rw [List.length_append, length_samplePadded, htag, tagSize]
  obtain ⟨codec, hcodec⟩ := (Ec.ReedSolomon.new_isOk_iff 1 2 256).mpr (by decide)
  obtain ⟨padding, hpad⟩ : ∃ padding, pad (samplePadded ++ tag) 256
      = .ok (samplePadded ++ tag ++ padding) :=
    ⟨_, pad_of_small (n := 256) (by decide) (by decide) (by rw [hlen]; decide)
      (by rw [hlen]; decide +kernel) (by decide) (by decide)⟩
  obtain ⟨pieces, hpieces, hmul, hencoded⟩ := exists_encodePieces ⟨1, 1, 2, 2, 256⟩ hpad hcodec
  obtain ⟨hk, hn, -⟩ := Ec.ReedSolomon.new_fields hcodec
  have hlong : 8192 ≤ (pieces.getD 1 []).length := by
    rw [hencoded.length_piece hmul (by omega)]
    rw [Ec.ReedSolomon.stripeSize, hk, Nat.one_mul] at hmul
    rw [← hmul, List.length_append, hlen]
    omega
  have hkey : encryptKey prim sampleCalls.segmentKey .aesGcm contentKey sampleCalls.keyNonce
      = .ok (List.replicate 32 1 ++ tag) := by
    rw [encryptKey, sealed, encrypt, if_neg (by decide), if_neg (by decide), if_pos rfl, sealOnce,
      hseal]
    rfl
  have hplain : sampleJob.plain.length = 5000 := List.length_replicate
  have hremote : inlineData prim sampleJob.plain .aesGcm sampleCalls.segmentKey
      (contentNonce sampleJob.partNumber sampleJob.index) = .ok none := by
    rw [inlineData, hplain]
    rfl
  have hrs : redundancyFromScheme sampleScheme = .ok ⟨1, 1, 2, 2, 256⟩ := rfl
  have hcommit := @commitOneSegment_remote _ _ sampleCalls _ _ _ _ _ _ _ _ _ _ _ _ _ _ hkey rfl hremote
    henc rfl rfl hrs hpieces rfl rfl rfl fun _ => rfl
  rw [hlen, lastPlain, hplain] at hcommit
  exact ⟨pieces, hcommit, hlong⟩

/-- What a satellite answers for the sample segment. -/
def sampleAnswer : SegmentDownload SegmentBody where
  position := some (1, 0)
  plainOffset := 0
  plainSize := 5000
  body := ⟨List.replicate 24 2, List.replicate 32 1 ++ List.replicate tagSize 7, [], 8192,
    [sampleLimit, sampleLimit], List.replicate 32 0, some sampleScheme⟩

/-- Nodes for it, by what they send. -/
def sampleNodes (events : ℕ → List (Collect.Event Fetched)) : Nodes := ⟨events, true, fun _ => false, fun _ => ""⟩

/-- Sample pieces, and what the satellite answers for them. -/
lemma exists_sample {a : Aead} (contentKey : Key)
    (hseal : ∀ key nonce plain, a.encryptDetached key nonce plain
      = some (plain, List.replicate tagSize 7)) : ∃ s pieces,
    commitOneSegment (primitivesWith a) sampleCalls .aesGcm 8192 contentKey sampleJob = .ok s ∧
    s.content = .remote 8192 sampleScheme pieces [⟨0, [], none⟩, ⟨1, [], none⟩] ∧
    (∀ events, Answers (sampleNodes events).validKeypair s sampleAnswer) ∧
    8192 ≤ (pieces.getD 1 []).length := by
  obtain ⟨pieces, hs, hlong⟩ := @exists_commit_sample (primitivesWith a) _ List.length_replicate hseal contentKey
  refine ⟨_, pieces, hs, rfl, fun events => ⟨rfl, rfl, rfl, rfl, rfl, rfl, rfl, by decide, ?_, rfl⟩,
    hlong⟩
  intro i a ha _
  rcases i with _ | _ | i
  · cases ha
    exact ⟨by decide, by decide, _, rfl⟩
  · cases ha
    exact ⟨by decide, by decide, _, rfl⟩
  · cases ha

def sampleAssignment (i : ℤ) : PieceAssignment :=
  ⟨i, ⟨[1], List.replicate 32 0⟩, "node", Vector.replicate 32 0, none, false, []⟩

/-- What is asked of the nodes, for a range of the sample segment. -/
structure SampleJob (job : RemoteJob) : Prop where
  k_eq : job.rs.k = 1
  offset_eq : job.offset = 0
  size_eq : job.size = 8192
  assignments_eq : job.assignments = [sampleAssignment 0, sampleAssignment 1]

/-- The first piece to arrive is enough. -/
lemma SampleJob.first {job : RemoteJob} (h : SampleJob job) (x : Bytes) :
    downloadPiecesLongTail (job.download true) [.joined 0 (.got (.ok x))]
      = some (.ok ⟨[(0, x)], [sampleAssignment 1], 0, 8192⟩) := by
  obtain ⟨⟨k, m, o, n, shareSize⟩, assignments, offset, size, params, k_le⟩ := job
  obtain ⟨rfl, rfl, rfl, rfl⟩ := h
  rfl

/-- The first node is down, and the piece of the second one is enough. -/
lemma SampleJob.race {job : RemoteJob} (h : SampleJob job) {pieces : List Bytes} (e : PieceError)
    {x : Bytes} (hx : genuine pieces 0 8192 (1, x) = true) :
    HonestRace (sampleNodes fun _ => [.joined 0 (.noConnection e), .joined 0 (.got (.ok x))]) pieces
      job := by
  obtain ⟨⟨k, m, o, n, shareSize⟩, assignments, offset, size, params, k_le⟩ := job
  obtain ⟨rfl, rfl, rfl, rfl⟩ := h
  have hup : 1 ≤ [sampleAssignment 0, sampleAssignment 1].countP
      fun asg => asg.pieceNum = 1 := by decide
  have hdown : ¬decide ((sampleAssignment 0).pieceNum = 1) = true := by decide
  refine ⟨fun asg => asg.pieceNum = 1, hup, Or.inr ⟨fun task htask => ?_, fun s hs => ?_⟩⟩
  · cases htask
    exact ⟨nofun, fun h => absurd h hdown⟩
  · cases hs
    refine Or.inr ⟨fun task htask => ?_, fun s hs => ?_⟩
    · cases htask
      refine ⟨fun share hshare => ?_, fun _ => ⟨_, rfl⟩⟩
      cases hshare
      exact hx
    · cases hs

lemma range_sample : pieceByteRange (1000 : ℕ) (2000 : ℕ) 8176 8192 ⟨1, 1, 2, 2, 256⟩ = (0, 8192) := by
  decide +kernel

/-- A key under the sample tag opens. -/
lemma decryptKey_tagged {a : Aead} {contentKey : Key}
    (hopen : ∀ nonce c, a.decryptDetached contentKey nonce c (List.replicate tagSize 7) = some c)
    (key : Key) (nonce : Nonce) :
    decryptKey (primitivesWith a) (key.toList ++ List.replicate tagSize 7) .aesGcm contentKey nonce
      = .ok key := by
  have hlong : ¬(key.toList ++ List.replicate tagSize 7).length < tagSize := by simp
  have hcut : (key.toList ++ List.replicate tagSize 7).length - tagSize = key.toList.length := by simp
  have hopened : openOnce a aesGcmLayout contentKey (toAesGcmNonce nonce)
      (key.toList ++ List.replicate tagSize 7) = .ok key.toList := by
    have htail : aesGcmLayout.tagFirst = false := rfl
    rw [openOnce, if_neg hlong]
    simp only [htail, Bool.false_eq_true, if_false]
    rw [hcut, List.take_left, List.drop_left, hopen]
  have hraw : decrypt (primitivesWith a) (key.toList ++ List.replicate tagSize 7) .aesGcm contentKey
      nonce = .ok key.toList := by
    rw [decrypt, if_neg (by simp [tagSize]), if_neg (by decide), if_pos rfl]
    exact hopened
  rw [decryptKey, hraw]
  dsimp only
  rw [dif_pos (by simp)]
  rfl

/-- What is asked for a range of the sample segment, once its key is found. -/
lemma plan_sample {a : Aead} {job : RemoteJob}
    (hopen : ∀ nonce c, a.decryptDetached (Vector.replicate 32 3) nonce c (List.replicate tagSize 7)
      = some c)
    (h : planSegment (primitivesWith a) (fun _ => false) (Vector.replicate 32 3) .aesGcm 8192
      sampleAnswer (1000 : ℕ) (2000 : ℕ) = .ok (.remote job)) : SampleJob job := by
  have hkey := decryptKey_tagged hopen (Vector.replicate 32 1) (Vector.replicate 24 2)
  have hplan : planSegment (primitivesWith a) (fun _ => false) (Vector.replicate 32 3) .aesGcm 8192
      sampleAnswer (1000 : ℕ) (2000 : ℕ)
        = remoteJob (primitivesWith a) (fun _ => false) .aesGcm 8192 (Vector.replicate 32 1)
          (contentNonce 1 0) sampleAnswer (1000 : ℕ) (2000 : ℕ) >>= fun job => .ok (.remote job) := by
    rw [planSegment]
    have hnonce : nonceFromSlice sampleAnswer.body.encryptedKeyNonce = .ok (Vector.replicate 24 2) :=
      rfl
    have hsealed : sampleAnswer.body.encryptedKey
      = (Vector.replicate 32 (1 : UInt8)).toList ++ List.replicate tagSize 7 := rfl
    rw [hnonce, Fallible.ok_bind, hsealed, hkey]
    rfl
  have hdec : newDecrypter (primitivesWith a).toPrimitives .aesGcm (Vector.replicate 32 1)
      (contentNonce 1 0) 8192 = .ok ⟨8192, 8176, decryptBlock a aesGcmLayout (Vector.replicate 32 1)
        (toAesGcmNonce (contentNonce 1 0))⟩ := rfl
  rw [hplan, remoteJob, hdec] at h
  cases h
  refine ⟨rfl, ?_, ?_, rfl⟩
  · dsimp only
    exact congrArg Prod.fst range_sample
  · dsimp only
    exact congrArg Prod.snd range_sample

/-- A node that is down, and an honest one, which is enough. -/
theorem decryptSegment_honest_sample : ∃ pieces : List Bytes,
    decryptSegment (primitivesWith (taggingAead fun _ => true))
      (sampleNodes fun _ => [.joined 0 (.noConnection (.other "refused")),
        .joined 0 (.got (.ok (slice (pieces.getD 1 []) 0 8192)))])
      (Vector.replicate 32 3) .aesGcm 8192 sampleAnswer (1000 : ℕ) (2000 : ℕ)
        = some (.ok (slice sampleJob.plain 1000 2000)) := by
  obtain ⟨s, pieces, hs, hcontent, hans, -⟩ := exists_sample (a := taggingAead fun _ => true)
    (Vector.replicate 32 3) (fun _ _ _ => rfl)
  have hlength : sampleJob.plain.length = 5000 := List.length_replicate
  have hrange : 1000 + 2000 ≤ sampleJob.plain.length := by omega
  have hread := decryptSegment_honest taggingAead_lawful copyAead_lawful (Or.inr (by decide)) hs
    (hans fun _ => [.joined 0 (.noConnection (.other "refused")),
      .joined 0 (.got (.ok (slice (pieces.getD 1 []) 0 8192)))]) (by decide) hrange
  rw [hcontent] at hread
  obtain ⟨rjob, hplan, hok, hfirst⟩ := hread
  have hjob := plan_sample (fun _ _ => rfl) hplan
  exact ⟨pieces, hok (hfirst (hjob.race _ (decide_eq_true rfl)))⟩

/-- Under the key of the sample segment the cipher is ideal on it. -/
lemma lockedAead_idealOn (nonce : Bytes) :
    (lockedAead (Vector.replicate 32 1) samplePadded).IdealOn (Vector.replicate 32 1) nonce
      sampleJob.plain 8176 :=
  textAead_idealOn List.length_replicate pad_sampleJob length_samplePadded (by decide) fun _ => by
    simp

lemma lockedAead_opens (text nonce c : Bytes) :
    (lockedAead (Vector.replicate 32 1) text).decryptDetached (Vector.replicate 32 3) nonce c
      (List.replicate tagSize 7) = some c := by
  have hkey : (Vector.replicate 32 3 : Key) ≠ Vector.replicate 32 1 := by decide
  simp [lockedAead, textAead, hkey]

/-- What the other keys sealed opens. -/
lemma lockedAead_keyOpens (text : Bytes) :
    KeyOpens (primitivesWith (lockedAead (Vector.replicate 32 1) text)) .aesGcm
      (Vector.replicate 32 3) := by
  intro key nonce out h
  have hne : key.toList ≠ [] := by
    rw [← List.length_pos_iff, Vector.length_toList]
    decide
  rw [encryptKey, sealed, mapError_eq_ok, encrypt, if_neg hne, if_neg (by decide), if_pos rfl] at h
  cases h
  exact decryptKey_tagged (lockedAead_opens text) key nonce

/-- A node that makes its piece up, and an honest one that is asked after the decryption failed. -/
theorem decryptSegment_any_sample : ∃ pieces : List Bytes,
    decryptSegment (primitivesWith (lockedAead (Vector.replicate 32 1) samplePadded))
      (sampleNodes fun call => [.joined 0 (.got (.ok
        (if call = 0 then List.replicate 8192 9 else slice (pieces.getD 1 []) 0 8192)))])
      (Vector.replicate 32 3) .aesGcm 8192 sampleAnswer (1000 : ℕ) (2000 : ℕ)
        = some (.ok (slice sampleJob.plain 1000 2000)) := by
  obtain ⟨s, pieces, hs, hcontent, hans, hlong⟩ :=
    exists_sample (a := lockedAead (Vector.replicate 32 1) samplePadded) (Vector.replicate 32 3)
      (fun _ _ _ => rfl)
  have hlength : sampleJob.plain.length = 5000 := List.length_replicate
  have hrange : 1000 + 2000 ≤ sampleJob.plain.length := by omega
  obtain ⟨rjob, hplan, hread⟩ := decryptSegment_any (Or.inl rfl) (by decide) (lockedAead_keyOpens samplePadded)
    (by
      intro a lay n hsuite
      cases hsuite
      exact lockedAead_idealOn _)
    hs hcontent (hans fun call => [.joined 0 (.got (.ok
      (if call = 0 then List.replicate 8192 9 else slice (pieces.getD 1 []) 0 8192)))]) (by decide)
    hrange
  have hjob := plan_sample (lockedAead_opens samplePadded) hplan
  rw [hjob.size_eq, hjob.offset_eq] at hread
  refine ⟨pieces, (hread ?_).2 _ (hjob.first _) 1 (by decide) ?_⟩
  · refine fun call => served_iff_sized.mpr fun i data hmem => ?_
    cases List.mem_singleton.mp hmem
    split_ifs
    · exact List.length_replicate
    · exact length_slice (by omega)
  · rw [hjob.k_eq]
    refine List.one_le_countP_iff.mpr ⟨(1, _), List.mem_cons_of_mem _ List.mem_cons_self, ?_⟩
    exact decide_eq_true rfl

end Storj.Client
