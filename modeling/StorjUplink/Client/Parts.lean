import StorjUplink.Access.Times
import StorjUplink.Client.Download
import StorjUplink.Client.GrantStore
import Mathlib.Algebra.BigOperators.Group.List.Basic
import Mathlib.Data.Prod.Lex

/-!
# Listing the parts of an upload

`list_parts_page` of `project.rs` collects all segments of a pending upload, sorts them by position
and makes one `Part` of the segments with one part number.  The loop only looks at the part it made
last, which is enough because the segments are sorted.

**One segment.**  `PartOf` says what a part is of the segments seen so far: the sum of the sizes,
and the tag and the time of the latest segment that has one (`Latest`).  A segment extends the part
it belongs to (`PartOf.extend`) and leaves the others (`PartOf.frame`).

**All segments.**  `Aggregated` is that for a list of parts, and each turn of the loop keeps it
(`Aggregated.add`).  Sizes are added in an `i64`, so the running sums have to fit.

**All pages.**  `PartPages` is what the satellite promises of its pages, `listAllSegments_eq` that
the loop over them ends with the segments of all of them.
-/

namespace Storj.Client

open Storj.Enc Storj.Access MachineInt

/-! ## Segments and parts

A segment has the tag of its part, maybe, sealed, and the time of its creation.
-/

/-- An item of the segment list, with what the listing of parts reads of it. -/
structure PartItem extends SegmentListItem where
  createdAt : Option Pb.Timestamp
  encryptedETag : Bytes
  encryptedKeyNonce : Bytes
  encryptedKey : Bytes
deriving DecidableEq

/-- `ListSegmentsResponse`, with the encryption parameters where the page has them. -/
structure PartPage where
  items : List PartItem
  more : Bool
  encryptionParameters : Option Pb.EncryptionParameters

/-- `Part`: the sum of its segments, and the time and ETag of the last one that has them. -/
structure Part where
  partNumber : ℕ
  size : ℤ
  modified : ℤ
  etag : Bytes
deriving DecidableEq

/-- `proto_timestamp`: nanoseconds from the Unix epoch.  A negative time is the epoch, and so is one
that no `SystemTime` can hold. -/
def protoTimestamp : Option Pb.Timestamp → ℤ
  | some t =>
      if t.seconds ≥ 0 ∧ t.nanos ≥ 0 then
        (checkedTime (t.seconds * nanosPerSec + min t.nanos 999999999)).getD 0
      else 0
  | none => 0

/-- `segment_list_order`. -/
def segmentListOrder (item : PartItem) : ℤ × ℤ := item.position.getD (0, 0)

/-- The part number of a segment, as a `u32`. -/
def PartItem.partNumber (item : PartItem) : ℕ :=
  ((item.position.map fun p : Position => p.1 % 2 ^ 32).getD 0).toNat

/-- `encryption_from_params`, the cipher: AES-GCM where none is given or the value is unspecified.
-/
def cipherFromParams (params : Option Pb.EncryptionParameters) : CipherSuite :=
  match params.map fun p => p.cipherSuite with
  | none => .aesGcm
  | some code => if code = 2 ∨ code = 0 then .aesGcm else ⟨code⟩

variable (prim : PathPrimitives)

/-- `nonce_from_slice`, with the error as the public crate shows it. -/
def nonceFromSlice (b : Bytes) : Except Error Nonce :=
  if h : (b.take 24).length = 24 then .ok ⟨(b.take 24).toArray, by simpa using h⟩
  else .error ⟨.protocol, "protocol: nonce is shorter than 24 bytes"⟩

/-- `decrypt_key`: the key of a segment, which must have 32 bytes. -/
def decryptKey (encrypted : Bytes) (cipher : CipherSuite) (parent : Key) (nonce : Nonce) :
    Except Error Key :=
  match decrypt prim encrypted cipher parent nonce with
  | .error e => .error (mapEnc e)
  | .ok raw =>
      if h : raw.length = 32 then .ok ⟨raw.toArray, by simpa using h⟩
      else .error ⟨.protocol, "protocol: decrypted key is not 32 bytes"⟩

/-- `decrypt_etag`: an ETag under a key derived from that of its segment.  An empty one was never
encrypted. -/
def decryptEtag (encryptedEtag : Bytes) (cipher : CipherSuite) (segmentKey : Key) :
    Except Error Bytes :=
  if encryptedEtag = [] then .ok []
  else
    match decrypt prim encryptedEtag cipher (deriveKey prim segmentKey "storj-etag-v1")
      (Vector.replicate 24 0) with
    | .error e => .error (mapEnc e)
    | .ok etag => .ok etag

/-- `decrypt_part_etag`: the key of the segment is opened only if there is an ETag to read. -/
def decryptPartEtag (item : PartItem) (cipher : CipherSuite) (contentKey : Key) :
    Except Error Bytes :=
  if item.encryptedETag = [] then .ok []
  else do
    let nonce ← nonceFromSlice item.encryptedKeyNonce
    let segmentKey ← decryptKey prim item.encryptedKey cipher contentKey nonce
    decryptEtag prim item.encryptedETag cipher segmentKey

/-! ## The function

The pages are collected, the parameters of the encryption are taken from the first of them, and the
fold over the sorted segments makes the parts.
-/

/-- The loop of `list_all_segments`; `none` if `fuel` pages were not enough. -/
def listAllLoop (list : Option Position → Except Error PartPage) :
    ℕ → PartPage → Option (Except Error PartPage)
  | fuel, out =>
      if out.more = false then some (.ok out)
      else
        match fuel with
        | 0 => none
        | fuel + 1 =>
            match list (out.items.getLast?.bind fun i => i.position) with
            | .error e => some (.error e)
            | .ok page =>
                if page.items.isEmpty then some (.ok out)
                else listAllLoop list fuel ⟨out.items ++ page.items, page.more,
                  out.encryptionParameters.or page.encryptionParameters⟩

/-- `list_all_segments`: the first page, and the loop over those after it. -/
def listAllSegments (list : Option Position → Except Error PartPage) (fuel : ℕ) :
    Option (Except Error PartPage) :=
  match list none with
  | .error e => some (.error e)
  | .ok out => listAllLoop list fuel out

/-- `last` with one more segment: the sizes add up, time and ETag are those of the later segment
where it has them. -/
def Part.merge (last : Part) (item : PartItem) (etag : Bytes) : Part where
  partNumber := last.partNumber
  size := last.size + item.plainSize
  modified := match item.createdAt with
    | some created => protoTimestamp (some created)
    | none => last.modified
  etag := if etag = [] then last.etag else etag

/-- The part that a segment begins. -/
def PartItem.part (item : PartItem) (etag : Bytes) : Part where
  partNumber := item.partNumber
  size := item.plainSize
  modified := protoTimestamp item.createdAt
  etag := etag

/-- The body of the loop of `list_parts_page`: a segment goes to the last part if it has its number
and starts a part otherwise.  Parts up to the cursor are passed over. -/
def addItem (cipher : CipherSuite) (contentKey : Key) (cursor : ℕ) (parts : List Part)
    (item : PartItem) : Except Stop (List Part) :=
  if cursor ≠ 0 ∧ item.partNumber ≤ cursor then .ok parts
  else
    match decryptPartEtag prim item cipher contentKey with
    | .error e => .error (.error e)
    | .ok etag =>
        match parts.getLast?.filter fun p => p.partNumber = item.partNumber with
        | some last =>
            if InI64 (last.size + item.plainSize) then
              .ok (parts.dropLast ++ [last.merge item etag])
            else .error .panicked
        | none => .ok (parts ++ [item.part etag])

/-- The items in the order of their positions. -/
def sortItems (items : List PartItem) : List PartItem :=
  items.mergeSort fun a b => decide (toLex (segmentListOrder a) ≤ toLex (segmentListOrder b))

/-- `list_parts_page`, once the segments are there: they are sorted, and folded into parts. -/
def partsOf (store : Store) (bucket key : String) (cursor : ℕ) (listed : PartPage) :
    Except Stop (List Part) :=
  match deriveContentKey prim bucket (utf8 key) store with
  | .error e => .error (.error (mapEnc e))
  | .ok contentKey =>
      (sortItems listed.items).foldlM
        (addItem prim (cipherFromParams listed.encryptionParameters) contentKey cursor) []

/-- `list_parts_page`: all segments of the upload, then their parts.  It is `none` while the fuel
does not suffice for the listing. -/
def listPartsPage (list : Option Position → Except Error PartPage) (fuel : ℕ) (store : Store)
    (bucket key : String) (cursor : ℕ) : Option (Except Stop (List Part)) :=
  (listAllSegments list fuel).map fun listed =>
    match listed with
    | .error e => .error (.error e)
    | .ok listed => partsOf prim store bucket key cursor listed

/-! ## The latest value

Tags and times are merged one by one, and the later segment wins where it has a value.
-/

section Latest

variable {α β : Type} {idx : α → ℤ} {val : α → Option β} {S S' : List α}

/-- The value of the item with the highest index among those that have one. -/
def Latest (idx : α → ℤ) (val : α → Option β) (S : List α) : Option β → Prop
  | none => ∀ a ∈ S, val a = none
  | some b => ∃ a ∈ S, val a = some b ∧ ∀ c ∈ S, val c ≠ none → idx c ≤ idx a

/-- An item with a higher index comes last. -/
lemma Latest.append {r : Option β} (h : Latest idx val S r) {a : α} (ha : ∀ c ∈ S, idx c < idx a) :
    Latest idx val (S ++ [a]) ((val a).or r) := by
  cases hval : val a with
  | some b =>
      refine ⟨a, by simp, hval, fun c hc _ => ?_⟩
      rw [List.mem_append, List.mem_singleton] at hc
      rcases hc with hc | rfl
      · exact (ha c hc).le
      · exact le_refl _
  | none =>
      rw [Option.none_or]
      cases r with
      | none =>
          intro c hc
          rw [List.mem_append, List.mem_singleton] at hc
          rcases hc with hc | rfl
          · exact h c hc
          · exact hval
      | some b =>
          obtain ⟨d, hd, hb, hmax⟩ := h
          refine ⟨d, by simp [hd], hb, fun c hc hne => ?_⟩
          rw [List.mem_append, List.mem_singleton] at hc
          rcases hc with hc | rfl
          · exact hmax c hc hne
          · exact absurd hval hne

lemma Latest.perm {r : Option β} (h : Latest idx val S r) (hS : S.Perm S') :
    Latest idx val S' r := by
  cases r with
  | none => exact fun a ha => h a (hS.mem_iff.mpr ha)
  | some b =>
      obtain ⟨a, ha, hb, hmax⟩ := h
      exact ⟨a, hS.mem_iff.mp ha, hb, fun c hc => hmax c (hS.mem_iff.mpr hc)⟩

end Latest

/-! ## What a part is of its segments

The specification does not mention an order: sums, and the latest by index.
-/

/-- The index of a segment in its part. -/
def PartItem.index (item : PartItem) : ℤ := (segmentListOrder item).2

/-- The position of a segment, in the order of the sort. -/
def PartItem.key (item : PartItem) : ℤ ×ₗ ℤ := toLex (segmentListOrder item)

/-- A segment whose part number is not negative. -/
def PartItem.Numbered (item : PartItem) : Prop :=
  0 ≤ (segmentListOrder item).1 ∧ (segmentListOrder item).1 < 2 ^ 31

/-- The segments with a part number. -/
def partGroup (items : List PartItem) (number : ℕ) : List PartItem :=
  items.filter fun item => item.partNumber = number

/-- A part number that the cursor leaves. -/
def Listed (cursor number : ℕ) : Prop := cursor = 0 ∨ cursor < number

/-- A tag, if there is one. -/
def nonEmpty (etag : Bytes) : Option Bytes := if etag = [] then none else some etag

/-- **What a part is of segments**, given their decrypted tags: the sum of their sizes, the tag of
the latest one that has a tag, and the time of the latest one that has a time. -/
structure PartOf (etag : PartItem → Bytes) (items : List PartItem) (part : Part) : Prop where
  size_eq : part.size = ((partGroup items part.partNumber).map fun i => i.plainSize).sum
  etag_eq : ∃ r, Latest PartItem.index (fun i => nonEmpty (etag i))
    (partGroup items part.partNumber) r ∧ part.etag = r.getD []
  modified_eq : ∃ r, Latest PartItem.index PartItem.createdAt
    (partGroup items part.partNumber) r ∧ part.modified = protoTimestamp r

/-- **What a listing is of segments**: one part for each part number behind the cursor, in ascending
order. -/
structure Aggregated (etag : PartItem → Bytes) (cursor : ℕ) (items : List PartItem)
    (parts : List Part) : Prop where
  ascending : parts.Pairwise fun p q => p.partNumber < q.partNumber
  exists_iff : ∀ number, (∃ part ∈ parts, part.partNumber = number)
    ↔ Listed cursor number ∧ ∃ item ∈ items, item.partNumber = number
  part_of : ∀ part ∈ parts, PartOf etag items part

section Segments

variable {etag : PartItem → Bytes} {items : List PartItem} {item : PartItem} {part : Part}

lemma PartItem.partNumber_eq (h : item.Numbered) :
    (item.partNumber : ℤ) = (segmentListOrder item).1 := by
  rw [PartItem.Numbered, segmentListOrder] at h
  rw [PartItem.partNumber, segmentListOrder]
  cases hpos : item.position with
  | none => rfl
  | some p =>
      rw [hpos] at h
      simp only [Option.map_some, Option.getD_some] at h ⊢
      omega

/-- Sorted segments have part numbers that do not go down. -/
lemma PartItem.partNumber_le {other : PartItem} (h : item.Numbered) (h' : other.Numbered)
    (hlt : other.key < item.key) : other.partNumber ≤ item.partNumber := by
  have heq := PartItem.partNumber_eq h
  have heq' := PartItem.partNumber_eq h'
  rw [PartItem.key, PartItem.key, Prod.Lex.toLex_lt_toLex] at hlt
  omega

/-- Sorted segments of one part have indices that go up. -/
lemma PartItem.index_lt {other : PartItem} (h : item.Numbered) (h' : other.Numbered)
    (hlt : other.key < item.key) (hsame : other.partNumber = item.partNumber) :
    other.index < item.index := by
  have heq := PartItem.partNumber_eq h
  have heq' := PartItem.partNumber_eq h'
  rw [PartItem.key, PartItem.key, Prod.Lex.toLex_lt_toLex] at hlt
  rw [PartItem.index, PartItem.index]
  omega

lemma partGroup_append_same (items : List PartItem) (item : PartItem) :
    partGroup (items ++ [item]) item.partNumber = partGroup items item.partNumber ++ [item] := by
  rw [partGroup, partGroup, List.filter_append]
  simp

lemma partGroup_append_ne {number : ℕ} (h : item.partNumber ≠ number) (items : List PartItem) :
    partGroup (items ++ [item]) number = partGroup items number := by
  rw [partGroup, partGroup, List.filter_append]
  simp [h]

/-- A segment of another part changes nothing. -/
lemma PartOf.frame (h : PartOf etag items part) (hne : item.partNumber ≠ part.partNumber) :
    PartOf etag (items ++ [item]) part := by
  have hgroup := partGroup_append_ne hne items
  constructor
  · rw [hgroup]
    exact h.size_eq
  · rw [hgroup]
    exact h.etag_eq
  · rw [hgroup]
    exact h.modified_eq

lemma getD_or_nonEmpty (e : Bytes) (r : Option Bytes) :
    ((nonEmpty e).or r).getD [] = if e = [] then r.getD [] else e := by
  rw [nonEmpty]
  split_ifs with h
  · rfl
  · rfl

/-- The next segment of a part. -/
lemma PartOf.extend (h : PartOf etag items part) (hsame : part.partNumber = item.partNumber)
    (hindex : ∀ c ∈ partGroup items item.partNumber, c.index < item.index) :
    PartOf etag (items ++ [item]) (part.merge item (etag item)) := by
  have hnumber : (part.merge item (etag item)).partNumber = item.partNumber := hsame
  obtain ⟨hsize, ⟨r, hr, hetag⟩, ⟨q, hq, hmodified⟩⟩ := h
  rw [hsame] at hsize hr hq
  refine ⟨?_, ?_, ?_⟩
  · rw [hnumber, partGroup_append_same, List.map_append, List.sum_append, ← hsize]
    simp [Part.merge]
  · rw [hnumber, partGroup_append_same]
    refine ⟨_, hr.append hindex, ?_⟩
    rw [getD_or_nonEmpty, ← hetag]
    rfl
  · rw [hnumber, partGroup_append_same]
    refine ⟨_, hq.append hindex, ?_⟩
    rw [Part.merge, hmodified]
    cases item.createdAt with
    | none => rfl
    | some created => rfl

/-- The first segment of a part. -/
lemma PartOf.first (hnone : partGroup items item.partNumber = []) :
    PartOf etag (items ++ [item]) (item.part (etag item)) := by
  have hgroup : partGroup (items ++ [item]) (item.part (etag item)).partNumber = [item] := by
    rw [show (item.part (etag item)).partNumber = item.partNumber from rfl, partGroup_append_same,
      hnone, List.nil_append]
  have hempty : ∀ {β : Type} (val : PartItem → Option β), Latest PartItem.index val [] none :=
    fun val a ha => absurd ha List.not_mem_nil
  refine ⟨?_, ?_, ?_⟩
  · rw [hgroup]
    simp [PartItem.part]
  · rw [hgroup]
    refine ⟨_, (hempty fun i => nonEmpty (etag i)).append (by simp), ?_⟩
    rw [getD_or_nonEmpty]
    simp only [PartItem.part, Option.getD_none]
    split_ifs with h
    · exact h
    · rfl
  · rw [hgroup]
    refine ⟨_, (hempty PartItem.createdAt).append (by simp), ?_⟩
    rw [Option.or_none]
    rfl

end Segments

/-! ## The loop

The segments are sorted, so the part that a segment belongs to is the last one or a new one.
-/

section Loop

variable {prim : PathPrimitives} {etag : PartItem → Bytes} {cipher : CipherSuite}
  {contentKey : Key} {cursor : ℕ} {items : List PartItem} {parts : List Part} {item : PartItem}

lemma Aggregated.nil : Aggregated etag cursor [] [] where
  ascending := List.Pairwise.nil
  exists_iff := by simp
  part_of := by simp

/-- A segment that the cursor skips. -/
lemma Aggregated.skip (h : Aggregated etag cursor items parts)
    (hskip : ¬Listed cursor item.partNumber) : Aggregated etag cursor (items ++ [item]) parts where
  ascending := h.ascending
  exists_iff number := by
    rw [h.exists_iff]
    refine and_congr_right fun hlisted => ?_
    constructor
    · rintro ⟨x, hx, hnumber⟩
      exact ⟨x, by simp [hx], hnumber⟩
    · rintro ⟨x, hx, hnumber⟩
      rw [List.mem_append, List.mem_singleton] at hx
      rcases hx with hx | rfl
      · exact ⟨x, hx, hnumber⟩
      · exact absurd (hnumber ▸ hlisted) hskip
  part_of part hpart := by
    refine (h.part_of part hpart).frame ?_
    rintro heq
    have hlisted := ((h.exists_iff part.partNumber).mp ⟨part, hpart, rfl⟩).1
    exact hskip (heq ▸ hlisted)

/-- What is listed after a segment that the cursor leaves. -/
lemma exists_iff_append {parts' : List Part} (h : Aggregated etag cursor items parts)
    (hlisted : Listed cursor item.partNumber)
    (hnumbers : ∀ number, (∃ part ∈ parts', part.partNumber = number)
      ↔ (∃ part ∈ parts, part.partNumber = number) ∨ item.partNumber = number) (number : ℕ) :
    (∃ part ∈ parts', part.partNumber = number)
      ↔ Listed cursor number ∧ ∃ x ∈ items ++ [item], x.partNumber = number := by
  rw [hnumbers, h.exists_iff]
  constructor
  · rintro (⟨hl, x, hx, hnumber⟩ | hnumber)
    · exact ⟨hl, x, by simp [hx], hnumber⟩
    · exact ⟨hnumber ▸ hlisted, item, by simp, hnumber⟩
  · rintro ⟨hl, x, hx, hnumber⟩
    rw [List.mem_append, List.mem_singleton] at hx
    rcases hx with hx | rfl
    · exact Or.inl ⟨hl, x, hx, hnumber⟩
    · exact Or.inr hnumber

/-- The parts so far have numbers up to that of the next segment. -/
lemma Aggregated.number_le (h : Aggregated etag cursor items parts) (hitem : item.Numbered)
    (hitems : ∀ x ∈ items, x.Numbered ∧ x.key < item.key) {part : Part} (hpart : part ∈ parts) :
    part.partNumber ≤ item.partNumber := by
  obtain ⟨-, x, hx, hnumber⟩ := (h.exists_iff part.partNumber).mp ⟨part, hpart, rfl⟩
  rw [← hnumber]
  exact PartItem.partNumber_le hitem (hitems x hx).1 (hitems x hx).2

/-- A segment of the last part. -/
lemma Aggregated.merge {init : List Part} {last : Part}
    (h : Aggregated etag cursor items (init ++ [last])) (hitem : item.Numbered)
    (hitems : ∀ x ∈ items, x.Numbered ∧ x.key < item.key)
    (hlisted : Listed cursor item.partNumber) (hsame : last.partNumber = item.partNumber) :
    Aggregated etag cursor (items ++ [item]) (init ++ [last.merge item (etag item)]) where
  ascending := by
    have hasc := h.ascending
    rw [List.pairwise_append] at hasc ⊢
    refine ⟨hasc.1, List.pairwise_singleton _ _, ?_⟩
    intro p hp q hq
    rw [List.mem_singleton] at hq
    rw [hq]
    exact hasc.2.2 p hp last (by simp)
  exists_iff := by
    refine exists_iff_append h hlisted fun number => ?_
    simp only [List.mem_append, List.mem_singleton, or_and_right, exists_or, exists_eq_left,
      Part.merge, hsame]
    rw [or_assoc, or_self]
  part_of part hpart := by
    rw [List.mem_append, List.mem_singleton] at hpart
    rcases hpart with hpart | rfl
    · refine (h.part_of part (by simp [hpart])).frame ?_
      have hasc := h.ascending
      rw [List.pairwise_append] at hasc
      have hlt := hasc.2.2 part hpart last (by simp)
      omega
    · refine (h.part_of last (by simp)).extend hsame fun c hc => ?_
      rw [partGroup, List.mem_filter, decide_eq_true_eq] at hc
      exact PartItem.index_lt hitem (hitems c hc.1).1 (hitems c hc.1).2 hc.2

/-- A segment of a new part. -/
lemma Aggregated.push (h : Aggregated etag cursor items parts) (hitem : item.Numbered)
    (hitems : ∀ x ∈ items, x.Numbered ∧ x.key < item.key)
    (hlisted : Listed cursor item.partNumber)
    (hnew : ∀ part ∈ parts, part.partNumber ≠ item.partNumber) :
    Aggregated etag cursor (items ++ [item]) (parts ++ [item.part (etag item)]) where
  ascending := by
    rw [List.pairwise_append]
    refine ⟨h.ascending, List.pairwise_singleton _ _, ?_⟩
    intro p hp q hq
    rw [List.mem_singleton] at hq
    rw [hq]
    exact lt_of_le_of_ne (h.number_le hitem hitems hp) (hnew p hp)
  exists_iff := by
    refine exists_iff_append h hlisted fun number => ?_
    simp only [List.mem_append, List.mem_singleton, or_and_right, exists_or, exists_eq_left,
      PartItem.part]
  part_of part hpart := by
    rw [List.mem_append, List.mem_singleton] at hpart
    rcases hpart with hpart | rfl
    · exact (h.part_of part hpart).frame (hnew part hpart).symm
    · refine PartOf.first (List.filter_eq_nil_iff.mpr fun x hx => ?_)
      rw [decide_eq_true_eq]
      intro hnumber
      obtain ⟨part, hpart, heq⟩ := (h.exists_iff item.partNumber).mpr ⟨hlisted, x, hx, hnumber⟩
      exact hnew part hpart heq

/-- **Step.**  A segment behind all those before it. -/
lemma Aggregated.add (h : Aggregated etag cursor items parts) (hitem : item.Numbered)
    (hitems : ∀ x ∈ items, x.Numbered ∧ x.key < item.key)
    (hetag : decryptPartEtag prim item cipher contentKey = .ok (etag item))
    (hsize : Listed cursor item.partNumber →
      InI64 ((partGroup (items ++ [item]) item.partNumber).map fun i => i.plainSize).sum) :
    ∃ parts', addItem prim cipher contentKey cursor parts item = .ok parts' ∧
      Aggregated etag cursor (items ++ [item]) parts' := by
  rw [addItem]
  by_cases hskip : cursor ≠ 0 ∧ item.partNumber ≤ cursor
  · rw [if_pos hskip]
    refine ⟨parts, rfl, h.skip ?_⟩
    rw [Listed]
    omega
  · have hlisted : Listed cursor item.partNumber := by
      rw [Listed]
      omega
    rw [if_neg hskip, hetag]
    dsimp only
    cases parts using List.reverseRecOn with
    | nil => exact ⟨_, rfl, h.push hitem hitems hlisted (by simp)⟩
    | append_singleton init last =>
        rw [List.getLast?_concat, List.dropLast_concat]
        by_cases hsame : last.partNumber = item.partNumber
        · have hfits : InI64 (last.size + item.plainSize) := by
            have hsum := hsize hlisted
            have hlast := (h.part_of last (by simp)).size_eq
            rw [partGroup_append_same, List.map_append, List.sum_append, ← hsame, ← hlast] at hsum
            simpa using hsum
          rw [Option.filter_some, if_pos (by simpa using hsame)]
          dsimp only
          rw [if_pos hfits]
          exact ⟨_, rfl, h.merge hitem hitems hlisted hsame⟩
        · rw [Option.filter_some, if_neg (by simpa using hsame)]
          refine ⟨_, rfl, h.push hitem hitems hlisted fun part hpart => ?_⟩
          -- the last part has the highest number
          have hle := h.number_le hitem hitems (show last ∈ init ++ [last] by simp)
          have hasc := h.ascending
          rw [List.pairwise_append] at hasc
          rw [List.mem_append, List.mem_singleton] at hpart
          rcases hpart with hpart | rfl
          · have hlt := hasc.2.2 part hpart last (by simp)
            omega
          · exact hsame

/-- The size of a part up to a segment, in the order of the indices. -/
def sizeUpTo (items : List PartItem) (item : PartItem) : ℤ :=
  ((items.filter fun x => x.partNumber = item.partNumber ∧ x.index ≤ item.index).map
    fun i => i.plainSize).sum

/-- In sorted segments, the size up to a segment is that of the segments before it. -/
lemma sizeUpTo_sorted {rest : List PartItem} (hnumbered : ∀ x ∈ items ++ item :: rest, x.Numbered)
    (hsorted : (items ++ item :: rest).Pairwise fun a b => a.key < b.key) :
    sizeUpTo (items ++ item :: rest) item
      = ((partGroup (items ++ [item]) item.partNumber).map fun i => i.plainSize).sum := by
  rw [List.pairwise_append, List.pairwise_cons] at hsorted
  have hitem := hnumbered item (by simp)
  have hbefore : items.filter (fun x => x.partNumber = item.partNumber ∧ x.index ≤ item.index)
      = partGroup items item.partNumber := by
    refine List.filter_congr fun x hx => ?_
    rw [decide_eq_decide, and_iff_left_iff_imp]
    intro hnumber
    exact (PartItem.index_lt hitem (hnumbered x (by simp [hx]))
      (hsorted.2.2 x hx item (by simp)) hnumber).le
  have hafter : rest.filter (fun x => x.partNumber = item.partNumber ∧ x.index ≤ item.index)
      = [] := by
    refine List.filter_eq_nil_iff.mpr fun x hx => ?_
    rw [decide_eq_true_eq]
    rintro ⟨hnumber, hle⟩
    have hlt := PartItem.index_lt (hnumbered x (by simp [hx])) hitem (hsorted.2.1.1 x hx)
      hnumber.symm
    omega
  rw [sizeUpTo, List.filter_append, List.filter_cons_of_pos (by simp), hbefore, hafter,
    partGroup_append_same]

/-- **Run.** -/
lemma Aggregated.addAll (rest : List PartItem) (h : Aggregated etag cursor items parts)
    (hnumbered : ∀ x ∈ items ++ rest, x.Numbered)
    (hsorted : (items ++ rest).Pairwise fun a b => a.key < b.key)
    (hetag : ∀ x ∈ rest, decryptPartEtag prim x cipher contentKey = .ok (etag x))
    (hsize : ∀ x ∈ rest, Listed cursor x.partNumber → InI64 (sizeUpTo (items ++ rest) x)) :
    ∃ parts', rest.foldlM (addItem prim cipher contentKey cursor) parts = .ok parts' ∧
      Aggregated etag cursor (items ++ rest) parts' := by
  induction rest generalizing items parts with
  | nil => exact ⟨parts, rfl, by rwa [List.append_nil]⟩
  | cons item rest ih =>
      have hlt : ∀ x ∈ items, x.key < item.key := by
        rw [List.pairwise_append] at hsorted
        exact fun x hx => hsorted.2.2 x hx item (by simp)
      obtain ⟨parts₁, hadd, hnext⟩ := h.add (hnumbered item (by simp))
        (fun x hx => ⟨hnumbered x (by simp [hx]), hlt x hx⟩) (hetag item (by simp)) fun hlisted => by
          rw [← sizeUpTo_sorted hnumbered hsorted]
          exact hsize item (by simp) hlisted
      have happend : items ++ item :: rest = (items ++ [item]) ++ rest := by simp
      rw [happend] at hnumbered hsorted hsize
      obtain ⟨parts₂, hfold, hall⟩ := ih hnext hnumbered hsorted
        (fun x hx => hetag x (by simp [hx])) fun x hx => hsize x (by simp [hx])
      refine ⟨parts₂, ?_, by rwa [happend]⟩
      rw [List.foldlM_cons, hadd, Fallible.ok_bind, hfold]

end Loop

/-! ## The pages

A satellite hands out the segments of an upload in pages, each of them the answer to the position of
the last segment before it.  How many there are, where one page ends and in which order the segments
come is up to the satellite; only the last page has `more` unset, or is empty. -/

/-- The pages of a listing, from a cursor on. -/
inductive PartPages (list : Option Position → Except Error PartPage) :
    Option Position → List PartPage → Prop where
  | last {cursor : Option Position} {page : PartPage} (answer : list cursor = .ok page)
      (done : page.more = false ∨ page.items = []) : PartPages list cursor [page]
  | next {cursor : Option Position} {page : PartPage} {pages : List PartPage}
      (answer : list cursor = .ok page) (more : page.more = true) (items : page.items ≠ [])
      (rest : PartPages list (page.items.getLast?.bind fun i => i.position) pages) :
      PartPages list cursor (page :: pages)

/-- The segments on pages. -/
def pageItems (pages : List PartPage) : List PartItem := pages.flatMap fun page => page.items

/-- The encryption parameters of a listing are on its first page, and no other page has different
ones. -/
structure PageParameters (params : Option Pb.EncryptionParameters) (pages : List PartPage) :
    Prop where
  first : (pages.head?.bind fun page => page.encryptionParameters) = params
  others : ∀ page ∈ pages, page.encryptionParameters = params ∨ page.encryptionParameters = none

section Pages

variable {list : Option Position → Except Error PartPage} {cursor : Option Position}
  {pages : List PartPage} {params : Option Pb.EncryptionParameters}

lemma params_or_eq {p : Option Pb.EncryptionParameters} (h : p = params ∨ p = none) :
    params.or p = params := by
  rcases h with rfl | rfl
  · exact Option.or_self
  · exact Option.or_none

lemma listAllLoop_done (fuel : ℕ) {out : PartPage} (hmore : out.more = false) :
    listAllLoop list fuel out = some (.ok out) := by
  unfold listAllLoop
  exact if_pos hmore

/-- **The loop of `list_all_segments` collects the pages** that follow what it has. -/
lemma listAllLoop_eq (h : PartPages list cursor pages) {fuel : ℕ} (hfuel : pages.length ≤ fuel)
    (out : PartPage) (hmore : out.more = true)
    (hcursor : (out.items.getLast?.bind fun i => i.position) = cursor)
    (hout : out.encryptionParameters = params)
    (hparams : ∀ page ∈ pages,
      page.encryptionParameters = params ∨ page.encryptionParameters = none) :
    ∃ listed, listAllLoop list fuel out = some (.ok listed) ∧
      listed.items = out.items ++ pageItems pages ∧ listed.encryptionParameters = params := by
  induction h generalizing fuel out with
  | @last cursor page answer done =>
      obtain ⟨fuel, rfl⟩ := Nat.exists_eq_succ_of_ne_zero (Nat.one_le_iff_ne_zero.mp hfuel)
      rw [listAllLoop, if_neg (by rw [hmore]; exact Bool.noConfusion), hcursor, answer]
      dsimp only
      by_cases hempty : page.items = []
      · rw [if_pos (List.isEmpty_iff.mpr hempty)]
        refine ⟨out, rfl, ?_, hout⟩
        rw [pageItems, List.flatMap_singleton, hempty, List.append_nil]
      · rw [if_neg (by rwa [List.isEmpty_iff])]
        refine ⟨_, listAllLoop_done fuel (done.resolve_right hempty), ?_, ?_⟩
        · rw [pageItems, List.flatMap_singleton]
        · rw [hout]
          exact params_or_eq (hparams page List.mem_cons_self)
  | @next cursor page pages answer more items rest ih =>
      obtain ⟨fuel, rfl⟩ : ∃ f, fuel = f + 1 :=
        Nat.exists_eq_succ_of_ne_zero (Nat.ne_zero_of_lt hfuel)
      rw [listAllLoop, if_neg (by rw [hmore]; exact Bool.noConfusion), hcursor, answer]
      dsimp only
      rw [if_neg (by rwa [List.isEmpty_iff])]
      obtain ⟨listed, hlisted, hitems, henc⟩ := ih (Nat.le_of_succ_le_succ hfuel)
        ⟨out.items ++ page.items, page.more, out.encryptionParameters.or page.encryptionParameters⟩
        more (by rw [List.getLast?_append_of_ne_nil _ items])
        (by rw [hout]; exact params_or_eq (hparams page List.mem_cons_self))
        fun p hp => hparams p (List.mem_cons_of_mem _ hp)
      refine ⟨listed, hlisted, ?_, henc⟩
      rw [hitems, pageItems, pageItems, List.flatMap_cons, List.append_assoc]

/-- **`list_all_segments` returns every segment of every page.** -/
lemma listAllSegments_eq (h : PartPages list none pages) (hparams : PageParameters params pages)
    {fuel : ℕ} (hfuel : pages.length ≤ fuel) :
    ∃ listed, listAllSegments list fuel = some (.ok listed) ∧ listed.items = pageItems pages ∧
      listed.encryptionParameters = params := by
  have hfirst := hparams.first
  rw [listAllSegments]
  cases h with
  | @last _ page answer done =>
      rw [answer]
      dsimp only
      have hitems : pageItems [page] = page.items := List.flatMap_singleton _ _
      by_cases hmore : page.more = false
      · rw [listAllLoop_done fuel hmore]
        exact ⟨page, rfl, hitems.symm, hfirst⟩
      · -- an empty page: the loop asks for it once more
        have hempty := done.resolve_left hmore
        obtain ⟨listed, hlisted, hall, henc⟩ := listAllLoop_eq (.last answer done) hfuel page
          (by simpa using hmore) (by rw [hempty]; rfl) hfirst hparams.others
        refine ⟨listed, hlisted, ?_, henc⟩
        rw [hall, hempty, List.nil_append]
  | @next _ page pages answer more items rest =>
      rw [answer]
      dsimp only
      obtain ⟨listed, hlisted, hall, henc⟩ := listAllLoop_eq rest
        ((Nat.le_succ _).trans hfuel) page more rfl hfirst
        fun p hp => hparams.others p (List.mem_cons_of_mem _ hp)
      refine ⟨listed, hlisted, ?_, henc⟩
      rw [hall, pageItems, pageItems, List.flatMap_cons]

end Pages

/-! ## The whole listing

Pages, sorting, merging and cutting behind the cursor, put together.
-/

section Listing

variable {items items' : List PartItem}

/-- Segments with different positions, sorted. -/
lemma pairwise_sortItems (hdistinct : (items.map segmentListOrder).Nodup) :
    (sortItems items).Pairwise fun a b => a.key < b.key := by
  have hle : (sortItems items).Pairwise fun a b => a.key ≤ b.key := by
    refine List.Pairwise.imp (fun h => of_decide_eq_true h) (List.pairwise_mergeSort ?_ ?_ items)
    · intro a b c hab hbc
      rw [decide_eq_true_eq] at hab hbc ⊢
      exact hab.trans hbc
    · intro a b
      rw [Bool.or_eq_true, decide_eq_true_eq, decide_eq_true_eq]
      exact le_total _ _
  have hne : (sortItems items).Pairwise fun a b => a.key ≠ b.key := by
    have hnodup : ((sortItems items).map segmentListOrder).Nodup :=
      (((List.mergeSort_perm _ _).map segmentListOrder).nodup_iff).mpr hdistinct
    exact (List.pairwise_map.mp hnodup).imp fun h heq => h (toLex.injective heq)
  exact (hle.and hne).imp fun h => lt_of_le_of_ne h.1 h.2

/-- Sorting forgets the order in which the segments came. -/
lemma sortItems_perm (hdistinct : (items.map segmentListOrder).Nodup) (hperm : items'.Perm items) :
    sortItems items' = sortItems items := by
  have hdistinct' : (items'.map segmentListOrder).Nodup :=
    (hperm.map segmentListOrder).nodup_iff.mpr hdistinct
  have hboth : (sortItems items').Perm (sortItems items) :=
    (List.mergeSort_perm _ _).trans (hperm.trans (List.mergeSort_perm _ _).symm)
  refine List.Perm.eq_of_pairwise ?_ (pairwise_sortItems hdistinct') (pairwise_sortItems hdistinct)
    hboth
  intro a b _ _ hab hba
  exact absurd hba hab.asymm

lemma Aggregated.perm {etag : PartItem → Bytes} {cursor : ℕ} {parts : List Part}
    (h : Aggregated etag cursor items parts) (hperm : items.Perm items') :
    Aggregated etag cursor items' parts where
  ascending := h.ascending
  exists_iff number := by
    rw [h.exists_iff]
    simp only [hperm.mem_iff]
  part_of part hpart := by
    have hgroup := hperm.filter fun item => decide (item.partNumber = part.partNumber)
    obtain ⟨hsize, ⟨r, hr, hetag⟩, ⟨q, hq, hmodified⟩⟩ := h.part_of part hpart
    refine ⟨?_, ⟨r, hr.perm hgroup, hetag⟩, ⟨q, hq.perm hgroup, hmodified⟩⟩
    rw [hsize]
    exact (hgroup.map _).sum_eq

lemma sizeUpTo_perm (hperm : items'.Perm items) (item : PartItem) :
    sizeUpTo items' item = sizeUpTo items item :=
  ((hperm.filter _).map _).sum_eq

/-- **Part listing aggregates exactly**, as long as the sizes can be added: for segments with
different positions and part numbers that are not negative, whose tags decrypt, `list_parts_page`
returns the same parts in whatever pages and order the satellite hands them out, and these are one
for each part number behind the cursor. -/
theorem listPartsPage_aggregates {prim : PathPrimitives} {store : Store} {bucket key : String}
    (cursor : ℕ) {params : Option Pb.EncryptionParameters} {contentKey : Key}
    (hkey : deriveContentKey prim bucket (utf8 key) store = .ok contentKey)
    (hdistinct : (items.map segmentListOrder).Nodup) (hnumbered : ∀ item ∈ items, item.Numbered)
    {etag : PartItem → Bytes}
    (hetag : ∀ item ∈ items,
      decryptPartEtag prim item (cipherFromParams params) contentKey = .ok (etag item))
    (hsize : ∀ item ∈ items, Listed cursor item.partNumber → InI64 (sizeUpTo items item)) :
    ∃ parts, Aggregated etag cursor items parts ∧
      ∀ (list : Option Position → Except Error PartPage) (pages : List PartPage) (fuel : ℕ),
        PartPages list none pages → (pageItems pages).Perm items → PageParameters params pages →
        pages.length ≤ fuel →
        listPartsPage prim list fuel store bucket key cursor = some (.ok parts) := by
  have hperm : (sortItems items).Perm items := List.mergeSort_perm _ _
  have hsize' : ∀ x ∈ sortItems items, Listed cursor x.partNumber →
      InI64 (sizeUpTo ([] ++ sortItems items) x) := by
    intro x hx hlisted
    rw [List.nil_append, sizeUpTo_perm hperm]
    exact hsize x (hperm.mem_iff.mp hx) hlisted
  have hstart : Aggregated etag cursor [] [] := Aggregated.nil
  obtain ⟨parts, hfold, hall⟩ := hstart.addAll (sortItems items)
    (fun x hx => hnumbered x (hperm.mem_iff.mp hx)) (pairwise_sortItems hdistinct)
    (fun x hx => hetag x (hperm.mem_iff.mp hx)) hsize'
  rw [List.nil_append] at hall
  refine ⟨parts, hall.perm hperm, fun list pages fuel hpages hitems hparams hfuel => ?_⟩
  obtain ⟨listed, hlist, hlisted, henc⟩ := listAllSegments_eq hpages hparams hfuel
  rw [listPartsPage, hlist, Option.map_some]
  dsimp only
  rw [partsOf, hkey]
  dsimp only
  rw [hlisted, sortItems_perm hdistinct hitems, henc, hfold]

end Listing

/-! ### Two segments of one part

In both orders the tag of the later one counts.
-/

/-- A segment of part 1 with a size and a tag that is not sealed. -/
def sampleSegment (index size : ℤ) (created : Option Pb.Timestamp) (etag : Bytes) : PartItem where
  position := some (1, index)
  plainOffset := 0
  plainSize := size
  createdAt := created
  encryptedETag := etag
  encryptedKeyNonce := List.replicate 24 0
  encryptedKey := List.replicate 32 7

/-- The cipher suite that seals nothing. -/
def nullParameters : Option Pb.EncryptionParameters := some ⟨1, 0⟩

/-- A satellite that sends two segments on two pages. -/
def twoPages (first second : PartItem) : Option Position → Except Error PartPage
  | none => .ok ⟨[first], true, nullParameters⟩
  | some _ => .ok ⟨[second], false, none⟩

/-- A store with a default key. -/
def sampleStore : Store := Store.new.setDefaultKey (byteKey 1)

/-- The latest segment comes first, and has no time of its own. -/
def sampleItems : List PartItem := [sampleSegment 1 10 none [2], sampleSegment 0 5 (some ⟨3, 0⟩) [1]]

theorem listPartsPage_aggregates_sample :
    ∃ parts, listPartsPage bytePrimitives.toPathPrimitives
        (twoPages (sampleSegment 1 10 none [2]) (sampleSegment 0 5 (some ⟨3, 0⟩) [1])) 2
        sampleStore "b" "k" 0 = some (.ok parts) ∧
      ∀ part ∈ parts, part.partNumber = 1 → part.size = 15 := by
  obtain ⟨contentKey, hkey⟩ : ∃ k, deriveContentKey bytePrimitives.toPathPrimitives "b" (utf8 "k")
      sampleStore = .ok k := ⟨_, rfl⟩
  have hdistinct : (sampleItems.map segmentListOrder).Nodup := by decide
  have hnumbered : ∀ item ∈ sampleItems, item.Numbered := by
    simp [sampleItems, PartItem.Numbered, segmentListOrder, sampleSegment]
  have hetag : ∀ item ∈ sampleItems, decryptPartEtag bytePrimitives.toPathPrimitives item
      (cipherFromParams nullParameters) contentKey = .ok item.encryptedETag := by
    intro item hitem
    simp only [sampleItems, List.mem_cons, List.not_mem_nil, or_false] at hitem
    rcases hitem with rfl | rfl
    · rfl
    · rfl
  have hsize : ∀ item ∈ sampleItems, Listed 0 item.partNumber →
      InI64 (sizeUpTo sampleItems item) := by
    intro item hitem _
    simp only [sampleItems, List.mem_cons, List.not_mem_nil, or_false] at hitem
    rcases hitem with rfl | rfl
    · decide
    · decide
  obtain ⟨parts, hall, hlist⟩ := listPartsPage_aggregates 0 hkey hdistinct hnumbered hetag hsize
  have hpages : PartPages
      (twoPages (sampleSegment 1 10 none [2]) (sampleSegment 0 5 (some ⟨3, 0⟩) [1])) none
      [⟨[sampleSegment 1 10 none [2]], true, nullParameters⟩,
        ⟨[sampleSegment 0 5 (some ⟨3, 0⟩) [1]], false, none⟩] :=
    .next rfl rfl (List.cons_ne_nil _ _) (.last rfl (Or.inl rfl))
  have hparams : PageParameters nullParameters
      [⟨[sampleSegment 1 10 none [2]], true, nullParameters⟩,
        ⟨[sampleSegment 0 5 (some ⟨3, 0⟩) [1]], false, none⟩] := by
    refine ⟨rfl, fun page hpage => ?_⟩
    rcases List.mem_pair.mp hpage with rfl | rfl
    · exact Or.inl rfl
    · exact Or.inr rfl
  refine ⟨parts, hlist _ _ 2 hpages (List.Perm.refl _) hparams le_rfl, fun part hpart hnumber => ?_⟩
  rw [(hall.part_of part hpart).size_eq, hnumber]
  decide

/-- Two segments with different positions whose sizes do not add up to an `i64`. -/
def largeItems : List PartItem :=
  [sampleSegment 0 (2 ^ 62) none [], sampleSegment 1 (2 ^ 62) none []]

theorem listPartsPage_overflow :
    (largeItems.map segmentListOrder).Nodup ∧
      (∀ contentKey, ∀ item ∈ largeItems, decryptPartEtag bytePrimitives.toPathPrimitives item
        (cipherFromParams nullParameters) contentKey = .ok []) ∧
      listPartsPage bytePrimitives.toPathPrimitives
        (twoPages (sampleSegment 0 (2 ^ 62) none []) (sampleSegment 1 (2 ^ 62) none [])) 1
        sampleStore "b" "k" 0 = some (.error .panicked) := by
  obtain ⟨contentKey, hkey⟩ : ∃ k, deriveContentKey bytePrimitives.toPathPrimitives "b" (utf8 "k")
      sampleStore = .ok k := ⟨_, rfl⟩
  have hsorted : sortItems largeItems = largeItems := List.mergeSort_of_pairwise (by decide)
  have hlist : listAllSegments
      (twoPages (sampleSegment 0 (2 ^ 62) none []) (sampleSegment 1 (2 ^ 62) none [])) 1
        = some (.ok ⟨largeItems, false, nullParameters⟩) := rfl
  refine ⟨by decide, fun _ item hitem => ?_, ?_⟩
  · simp only [largeItems, List.mem_cons, List.not_mem_nil, or_false] at hitem
    rcases hitem with rfl | rfl
    · rfl
    · rfl
  · rw [listPartsPage, hlist, Option.map_some]
    dsimp only
    rw [partsOf, hkey]
    dsimp only
    rw [hsorted]
    rfl

end Storj.Client
