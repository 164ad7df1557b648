import StorjUplink.Uplink.Pipeline

/-!
# From pieces back to plaintext

The part of `download.rs` that turns slices of pieces into a range of plaintext: which bytes of a
piece cover a range (`piece_byte_range`), the erasure decoding of some stripes of those slices
(`decode_encrypted_slices`), and the decryption of the blocks that the range touches
(`decrypt_remote`).

Erasure decoding never fails on `k` distinct pieces of one length, whatever they hold: stripe `s`
decodes to some bytes `f s`, the same ones whichever window of stripes is asked for, and to the
stripe itself when the pieces hold its shares (`decodeEncryptedSlices_spec`).

A piece has one share of each stripe, so a range of stripes is a range of bytes in every piece, and
the download asks each node for that range only.  What comes back is sorted by index, and shares
with an index that the code does not have, or that came twice, are passed over.

The decoder treats every stripe by itself with one plan for all of them.  What it returns for a
stripe does not depend on the window of stripes that was asked for, which is what lets a probe of
one block stand for the full decode later.  Decrypting reports the number of the block that failed
to authenticate.
-/

namespace Storj.Uplink

open Buffer MachineInt Enc Ec

/-! ## Ranges

From bytes of the plaintext to blocks, from blocks to stripes, from stripes to bytes of a piece,
each rounded outwards.
-/

/-- `piece_byte_range`: offset and size, in bytes of a piece. -/
def pieceByteRange (plainStart plainLen : ℤ) (plainBlock encBlock : ℕ) (rs : Redundancy) : ℤ × ℤ :=
  let blocks := calcEncompassingBlocks plainStart plainLen plainBlock
  if blocks.2 ≤ 0 ∨ encBlock = 0 ∨ rs.shareSize = 0 then (0, 0)
  else
    let encStart := satI64 (blocks.1 * asI64 encBlock)
    let encEnd := satI64 (satI64 (blocks.1 + blocks.2) * asI64 encBlock)
    let stripe := asI64 rs.stripeSize
    let share := asI64 rs.shareSize
    if stripe = 0 then (0, 0)
    else
      let firstStripe := encStart.tdiv stripe
      let lastStripe := (satI64 (encEnd + (stripe - 1))).tdiv stripe
      (satI64 (firstStripe * share), satI64 ((lastStripe - firstStripe) * share))

/-! ## Erasure decoding

The loop over the shares fills a slot for each index of the code, and the loop over stripes writes
one stripe after the other.
-/

/-- The state of the loop of `decode_encrypted_slices` that sorts shares by index. -/
structure ByIndex where
  byIndex : List (Option (List UInt8))
  available : List ℕ

/-- One turn: a share whose number is not an index of the code, or is already taken, is skipped. -/
def indexShare (n : ℕ) (s : ByIndex) (share : ℤ × List UInt8) : ByIndex :=
  let idx := if share.1 < 0 then usizeMax else share.1.toNat
  if idx < n ∧ s.byIndex.getD idx none = none then
    ⟨s.byIndex.set idx (some share.2), s.available ++ [idx]⟩
  else s

/-- One turn of the decode loop: stripe `i` of the output. -/
def decodeStripeInto (plan : DecodePlan) (inputs : List (List UInt8)) (shareSize stripe stripe0 : ℕ)
    (out : List UInt8) (i : ℕ) : Except Error (List UInt8) := do
  let off := (stripe0 + i) * shareSize
  let slots := inputs.map fun d => slice d off shareSize
  let dest ← liftEc (plan.decodeInto slots (slice out (i * stripe) stripe))
  .ok (splice out (i * stripe) dest)

/-- `decode_encrypted_slices`: the checks on the pieces, the plan over the indexes that are there,
and the stripes one after the other into one buffer. -/
def decodeEncryptedSlices (shares : List (ℤ × List UInt8)) (rs : Redundancy) (stripe0 : ℕ)
    (nStripes : Option ℕ) : Except Error (List UInt8) := do
  let avail := shares.length
  let need := rs.k
  if avail < need then .error (.protocol s!"need {need} pieces to decode, have {avail}")
  else if rs.shareSize = 0 then .error (.protocol "share size is zero")
  else
    let pieceLen := (shares.head?.map fun s => s.2.length).getD 0
    if ¬shares.all fun s => s.2.length = pieceLen then .error (.protocol "piece lengths differ")
    else if pieceLen % rs.shareSize ≠ 0 then
      .error (.protocol "piece length is not a multiple of share size")
    else
      let totalStripes := pieceLen / rs.shareSize
      if stripe0 > totalStripes then .error (.protocol "stripe offset past piece length")
      else
        let n := min (nStripes.getD (totalStripes - stripe0)) (totalStripes - stripe0)
        let codec ← liftEc (ReedSolomon.new rs.k rs.n rs.shareSize)
        let s := shares.foldl (indexShare rs.n) ⟨List.replicate rs.n none, []⟩
        let plan ← liftEc (codec.decodePlan s.available)
        let inputs ← plan.indexes.mapM fun idx =>
          match s.byIndex.getD idx none with
          | none => Except.error (Error.protocol "decode plan index missing")
          | some d => .ok d
        (List.range n).foldlM (decodeStripeInto plan inputs rs.shareSize rs.stripeSize stripe0)
          (List.replicate (n * rs.stripeSize) 0)

/-! ## Decryption

Blocks are opened one by one.  An error that is not one of authentication ends the loop without a
number.
-/

/-- `DecryptParams`: where the decoded bytes lie in the encrypted segment, the cipher with its key
and nonce, and the range of plaintext that is asked for. -/
structure DecryptParams where
  decodedOffset : ℕ
  encryptedSize : ℕ
  cipher : CipherSuite
  key : Key
  nonce : Nonce
  encryptedBlockSize : ℕ
  plainStart : ℤ
  plainLen : ℤ
  plainSize : ℤ

/-- `is_content_auth_failure`: an error of decryption, and no other, may be the fault of a piece. -/
def isContentAuthFailure : Error → Bool
  | .encryption e => e.kind == .decryptionFailed
  | _ => false

/-- One block of the loop of `decrypt_remote_tracking_failure`: an authentication failure is
reported with its block number. -/
def decryptTracked (dec : Transformer) (chunk : List UInt8) (blockNum : ℤ) :
    Except (Error × Option ℤ) (List UInt8) :=
  match dec.transformInto chunk blockNum with
  | .ok plain => .ok plain
  | .error e =>
      .error (.encryption e, if isContentAuthFailure (.encryption e) then some blockNum else none)

/-- What is returned of the decrypted blocks: the requested range, without the padding past
`plain_size`. -/
def trimPlain (p : DecryptParams) (plainBlock : ℕ) (firstBlock : ℤ) (decrypted : List UInt8) :
    List UInt8 :=
  let blockPlainStart := satI64 (firstBlock * asI64 plainBlock)
  let skip := (satI64 (p.plainStart - blockPlainStart)).toNat
  let take := min p.plainLen.toNat (decrypted.length - skip)
  let absEnd := min (p.plainStart + asI64 take) p.plainSize
  let take := (satI64 (absEnd - p.plainStart)).toNat
  slice decrypted skip take

/-- `decrypt_remote_tracking_failure`: the plaintext, or the error with the block that failed to
authenticate. -/
def decryptRemote (prim : Primitives) (p : DecryptParams) (decoded : List UInt8) :
    Except (Error × Option ℤ) (List UInt8) :=
  if p.plainLen ≤ 0 ∨ p.plainSize ≤ 0 then .ok []
  else match newDecrypter prim p.cipher p.key p.nonce p.encryptedBlockSize with
    | .error e => .error (.encryption e, none)
    | .ok dec =>
        let encBlock := dec.inBlockSize
        let plainBlock := dec.outBlockSize
        if encBlock = 0 ∨ plainBlock = 0 then
          .error (.protocol "invalid encryption block size", none)
        else
          let blocks := calcEncompassingBlocks p.plainStart p.plainLen plainBlock
          if blocks.2 ≤ 0 then .ok []
          else
            let wantStart := satUsize (blocks.1.toNat * encBlock)
            let wantLen := satUsize (blocks.2.toNat * encBlock)
            let availEnd := min (satUsize (p.decodedOffset + decoded.length)) p.encryptedSize
            if wantStart < p.decodedOffset ∨ wantStart + wantLen > availEnd then
              .error (.protocol "decoded ciphertext does not cover requested blocks", none)
            else
              let start := wantStart - p.decodedOffset
              let chunks := slice decoded start wantLen
              concatM ((chunks.length + encBlock - 1) / encBlock) (fun i =>
                decryptTracked dec (slice chunks (i * encBlock) encBlock) (blocks.1 + i))
              >>= fun decrypted => .ok (trimPlain p plainBlock blocks.1 decrypted)

/-! ## What erasure decoding gives

The stripes are described by a function from their number to their bytes, for arbitrary shares of
one length.
-/

/-- Shares with their piece numbers. -/
def numbered (idxs : List ℕ) (data : ℕ → List UInt8) : List (ℤ × List UInt8) :=
  idxs.map fun i : ℕ => ((i : ℤ), data i)

/-- The shares sorted so far. -/
structure Indexed (n : ℕ) (data : ℕ → List UInt8) (idxs : List ℕ) (s : ByIndex) : Prop where
  length_eq : s.byIndex.length = n
  available_eq : s.available = idxs
  get_eq : ∀ i < n, s.byIndex.getD i none = if i ∈ idxs then some (data i) else none

lemma Indexed.step {n : ℕ} {data : ℕ → List UInt8} {idxs : List ℕ} {s : ByIndex} {i : ℕ}
    (h : Indexed n data idxs s) (hi : i < n) (hnew : i ∉ idxs) :
    Indexed n data (idxs ++ [i]) (indexShare n s (i, data i)) := by
  have hidx : (if ((i : ℤ) < 0) then usizeMax else (i : ℤ).toNat) = i := by
    rw [if_neg (by omega), Int.toNat_natCast]
  have hfree : s.byIndex.getD i none = none := by rw [h.get_eq i hi, if_neg hnew]
  have hstep : indexShare n s (i, data i)
      = ⟨s.byIndex.set i (some (data i)), s.available ++ [i]⟩ := by
    simp only [indexShare, hidx]
    rw [if_pos ⟨hi, hfree⟩]
  rw [hstep]
  refine ⟨by rw [List.length_set, h.length_eq], by rw [h.available_eq], ?_⟩
  intro j hj
  rcases eq_or_ne i j with rfl | hij
  · rw [getD_set_self (by rw [h.length_eq]; exact hj)]
    simp
  · rw [getD_set_ne hij, h.get_eq j hj]
    simp [hij.symm]

/-- Every share with an index of its own is kept. -/
lemma indexed_numbered {n : ℕ} (data : ℕ → List UInt8) {idxs : List ℕ} (hd : idxs.Nodup)
    (hn : ∀ i ∈ idxs, i < n) :
    Indexed n data idxs
      ((numbered idxs data).foldl (indexShare n) ⟨List.replicate n none, []⟩) := by
  have hall : ∀ (l pre : List ℕ) (s : ByIndex), (pre ++ l).Nodup → (∀ i ∈ l, i < n) →
      Indexed n data pre s →
      Indexed n data (pre ++ l) ((numbered l data).foldl (indexShare n) s) := by
    intro l
    induction l with
    | nil =>
        intro pre s _ _ h
        rw [List.append_nil]
        exact h
    | cons i l ih =>
        intro pre s hnd hlt h
        have hnew : i ∉ pre := by
          intro hmem
          exact (List.nodup_append.mp hnd).2.2 i hmem i List.mem_cons_self rfl
        have hrest := ih (pre ++ [i]) (indexShare n s (i, data i)) (by simpa using hnd)
          (fun j hj => hlt j (List.mem_cons_of_mem _ hj))
          (h.step (hlt i List.mem_cons_self) hnew)
        rw [List.append_assoc, List.singleton_append] at hrest
        exact hrest
  have hzero : Indexed n data [] ⟨List.replicate n none, []⟩ := by
    refine ⟨List.length_replicate, rfl, ?_⟩
    intro i hi
    rw [List.getD_replicate _ hi, if_neg List.not_mem_nil]
  exact hall idxs [] _ hd hn hzero

variable {rs : Redundancy} {codec : ReedSolomon}

lemma codec_stripeSize (hcodec : ReedSolomon.new rs.k rs.n rs.shareSize = .ok codec) :
    codec.stripeSize = rs.stripeSize := by
  obtain ⟨hk, -, hss⟩ := ReedSolomon.new_fields hcodec
  rw [ReedSolomon.stripeSize, hk, hss, Redundancy.stripeSize]

/-- One stripe of the planned shares. -/
lemma decodeInto_planned {idxs : List ℕ} {plan : DecodePlan} (hplan : codec.Plans idxs plan)
    (hn : ∀ i ∈ idxs, i < codec.n) {slot : ℕ → List UInt8}
    (hslot : ∀ i ∈ idxs, (slot i).length = codec.shareSize) :
    ∃ res : List UInt8, res.length = codec.stripeSize ∧
      (∀ out : List UInt8, out.length = codec.stripeSize →
        plan.decodeInto (plan.indexes.map slot) out = .ok res) ∧
      ∀ stripe : List UInt8, stripe.length = codec.stripeSize →
        (∀ i ∈ idxs, slot i = codec.share stripe i) → res = stripe := by
  have hsized : codec.Sized (plan.indexes.map slot) := by
    refine ⟨by rw [List.length_map, hplan.indexes_length], ?_⟩
    intro i hi
    have hi' : i < plan.indexes.length := by rw [hplan.indexes_length]; exact hi
    rw [getD_map_of_lt _ hi' 0, List.getD_eq_getElem _ _ hi']
    exact hslot _ (hplan.mem _ (List.getElem_mem hi'))
  obtain ⟨res, hlen, hres, hcorrect⟩ := ReedSolomon.decodeInto_spec hplan hsized
  refine ⟨res, hlen, hres, ?_⟩
  intro stripe hstripe hshare
  refine hcorrect stripe hstripe ?_
  have hmap : plan.indexes.map slot
      = plan.indexes.map fun i => ((List.range codec.n).map (codec.share stripe)).getD i [] := by
    refine List.map_congr_left fun i hi => ?_
    rw [getD_map_range _ (hn i (hplan.mem i hi)), hshare i (hplan.mem i hi)]
  rw [hmap]
  exact (codec.encodes_share hstripe).supplies hplan hn

/-- The planned inputs are the data of the planned shares. -/
lemma mapM_inputs {idxs : List ℕ} {plan : DecodePlan} {data : ℕ → List UInt8} {n : ℕ} {t : ByIndex}
    (hplan : codec.Plans idxs plan) (hn : ∀ i ∈ idxs, i < n) (hidx : Indexed n data idxs t) :
    (plan.indexes.mapM fun idx =>
      match t.byIndex.getD idx none with
      | none => Except.error (Error.protocol "decode plan index missing")
      | some d => .ok d) = .ok (plan.indexes.map data) := by
  refine Fallible.mapM_eq_ok fun i hi => ?_
  have hmem := hplan.mem i hi
  rw [hidx.get_eq i (hn i hmem), if_pos hmem]

/-- The piece length is read off the first share. -/
lemma head_numbered {idxs : List ℕ} {data : ℕ → List UInt8} {len : ℕ} (hne : idxs ≠ [])
    (hlen : ∀ i ∈ idxs, (data i).length = len) :
    ((numbered idxs data).head?.map fun s => s.2.length).getD 0 = len := by
  cases idxs with
  | nil => exact absurd rfl hne
  | cons i idxs => exact hlen i List.mem_cons_self

lemma all_numbered {idxs : List ℕ} {data : ℕ → List UInt8} {len : ℕ}
    (hlen : ∀ i ∈ idxs, (data i).length = len) :
    (numbered idxs data).all (fun s => s.2.length = len) = true := by
  rw [List.all_eq_true]
  intro s hs
  obtain ⟨i, hi, rfl⟩ := List.mem_map.mp hs
  rw [decide_eq_true_eq]
  exact hlen i hi

/-- **Erasure decoding of distinct pieces of one length always succeeds.**  Stripe `s` decodes to
the same bytes in every window of stripes, and to the true stripe when the pieces hold its
shares. -/
theorem decodeEncryptedSlices_spec
    (hcodec : ReedSolomon.new rs.k rs.n rs.shareSize = .ok codec) {idxs : List ℕ}
    (hd : idxs.Nodup) (hn : ∀ i ∈ idxs, i < rs.n) (hk : rs.k ≤ idxs.length)
    {data : ℕ → List UInt8} {total : ℕ}
    (hlen : ∀ i ∈ idxs, (data i).length = total * rs.shareSize) :
    ∃ f : ℕ → List UInt8, (∀ s < total, (f s).length = rs.stripeSize) ∧
      (∀ s < total, ∀ stripe : List UInt8, stripe.length = rs.stripeSize →
        (∀ i ∈ idxs, slice (data i) (s * rs.shareSize) rs.shareSize = codec.share stripe i) →
          f s = stripe) ∧
      ∀ stripe0 ≤ total, ∀ nStripes,
        decodeEncryptedSlices (numbered idxs data) rs stripe0 nStripes
          = .ok (concat (min (nStripes.getD (total - stripe0)) (total - stripe0))
              fun s => f (stripe0 + s)) := by
  have hstripe := codec_stripeSize hcodec
  obtain ⟨hck, hcn, hcss⟩ := ReedSolomon.new_fields hcodec
  have hsspos : 0 < rs.shareSize := by
    rw [← hcss]
    exact codec.shareSize_pos
  have hn' : ∀ i ∈ idxs, i < codec.n := by
    rw [hcn]
    exact hn
  obtain ⟨plan, hplan, hplans⟩ := ReedSolomon.decodePlan_spec hd hn' (by rwa [hck])
  have hfit : ∀ s < total, s * rs.shareSize + rs.shareSize ≤ total * rs.shareSize :=
    fun s hs => rowMajor_le hs
  have hres : ∀ s < total, ∃ res : List UInt8, res.length = codec.stripeSize ∧
      (∀ out : List UInt8, out.length = codec.stripeSize → plan.decodeInto
        (plan.indexes.map fun i => slice (data i) (s * rs.shareSize) rs.shareSize) out
          = .ok res) ∧
      ∀ stripe : List UInt8, stripe.length = codec.stripeSize →
        (∀ i ∈ idxs, slice (data i) (s * rs.shareSize) rs.shareSize = codec.share stripe i) →
          res = stripe := by
    intro s hs
    refine decodeInto_planned hplans hn' ?_
    intro i hi
    rw [hcss]
    exact length_slice (by rw [hlen i hi]; exact hfit s hs)
  choose! f hflen hfdec hfeq using hres
  rw [hstripe] at hflen hfdec hfeq
  refine ⟨f, hflen, hfeq, ?_⟩
  intro stripe0 hstripe0 nStripes
  have hidx := indexed_numbered data hd hn
  have hinputs := mapM_inputs hplans hn hidx
  have hne : idxs ≠ [] := by
    have hkpos := codec.k_pos
    intro hnil
    rw [hnil, List.length_nil] at hk
    omega
  have hhead := head_numbered hne hlen
  have hall := all_numbered hlen
  have hcount : (numbered idxs data).length = idxs.length := by rw [numbered, List.length_map]
  rw [decodeEncryptedSlices]
  dsimp only
  rw [hhead, hall, hcount, if_neg (by omega), if_neg (by omega), if_neg (by simp),
    Nat.mul_mod_left, if_neg (by simp), Nat.mul_div_cancel _ hsspos, if_neg (by omega), hcodec,
    liftEc, Fallible.ok_bind, hidx.available_eq, hplan, liftEc, Fallible.ok_bind, hinputs,
    Fallible.ok_bind]
  set m := min (nStripes.getD (total - stripe0)) (total - stripe0) with hm
  refine foldlM_splice_blocks (w := rs.stripeSize) List.length_replicate
    (fun s hs => hflen _ (by omega)) ?_
  intro s hs out hout
  have hrow := rowMajor_le (k := rs.stripeSize) hs
  have hlenout : (slice out (s * rs.stripeSize) rs.stripeSize).length = rs.stripeSize :=
    length_slice (by omega)
  rw [decodeStripeInto, List.map_map]
  show liftEc (plan.decodeInto
    (plan.indexes.map fun i => slice (data i) ((stripe0 + s) * rs.shareSize) rs.shareSize) _)
    >>= _ = _
  rw [hfdec (stripe0 + s) (by omega) _ hlenout, liftEc, Fallible.ok_bind]

end Storj.Uplink
