import StorjUplink.Client.Error
import StorjUplink.Lib.Buffer
import StorjUplink.Uplink.Range
import Mathlib.Data.List.Nodup

/-!
# Downloads, assembled from segments

`download_segments` of `project.rs` gets some segments with the answer to `DownloadObject` and the
list of all segments page by page; it fetches the segments of the range that it does not have yet,
sorts everything by position, and a producer decrypts one segment after another into the stream.

`Satellite` is what the function calls: the pages of the segment list, the download of one segment
and the decryption of a part of one.  The result is compared with the object itself, a row of
segments with their plaintexts (`ObjectSegment`).  The overlaps of consecutive segments with one
range are that range of the whole (`Buffer.overlap_append`); sorting puts what was collected back
into the object's order, and what was not collected has no overlap.

Segments come from two sources, and the satellite chooses how to divide them: some are sent along
with the answer, and the others are only listed and have to be fetched.  A segment may be in both.
The loop skips what does not meet the range and what is there already, so each segment is collected
at most once.

The offsets of the segments are the satellite's word.  The producer cuts each segment to its
overlap with the range, by these offsets and with saturating arithmetic, and reports an error in
place of the first segment that it cannot decrypt.  Nothing behind that error is sent.
-/

namespace Storj.Client

open Buffer MachineInt Uplink

variable {β : Type}

/-! ## What is exchanged

The messages, with what is read of them, and the calls as fields of a structure.
-/

/-- `SegmentPosition`: part number and index. -/
abbrev Position := ℤ × ℤ

/-- An item of the segment list. -/
structure SegmentListItem where
  position : Option Position
  plainOffset : ℤ
  plainSize : ℤ
deriving DecidableEq, Repr

/-- A page of the segment list. -/
structure SegmentPage where
  items : List SegmentListItem
  more : Bool

/-- `DownloadSegmentResponse`; `β` is what its decryption needs. -/
structure SegmentDownload (β : Type) where
  position : Option Position
  plainOffset : ℤ
  plainSize : ℤ
  body : β

/-- `DownloadObjectResponse`: the size of the object, a first page of its segments, and those that
came with their limits. -/
structure DownloadObject (β : Type) where
  contentLength : ℤ
  segmentList : Option SegmentPage
  segmentDownload : List (SegmentDownload β)

/-- What `download_segments` calls: the metadata of the object, a page of the segment list after a
cursor, one segment, and the plaintext of a part of a segment. -/
structure Satellite (β : Type) where
  userData : Except Error Unit
  listSegments : Option Position → Except Error SegmentPage
  downloadSegment : Position → Except Error (SegmentDownload β)
  decrypt : SegmentDownload β → ℤ → ℤ → Except Error (List UInt8)

/-- `Download`: a body that is there, or what the producer sends and the promised total. -/
inductive Download where
  | buffered (buf : List UInt8)
  | streaming (sent : List (Except Error (List UInt8))) (total : ℤ)

/-! ## The function

The pages first, then the segments that are missing, then the order, and then the producer.
-/

/-- The loop over the pages of the segment list; `none` if `fuel` pages were not enough. -/
def listAll (sat : Satellite β) : ℕ → SegmentPage → Option (Except Error (List SegmentListItem))
  | _, ⟨items, false⟩ => some (.ok items)
  | 0, ⟨_, true⟩ => none
  | fuel + 1, ⟨items, true⟩ =>
      match sat.listSegments (items.getLast?.bind fun i => i.position) with
      | .error e => some (.error e)
      | .ok page =>
          if page.items.isEmpty then some (.ok items)
          else listAll sat fuel ⟨items ++ page.items, page.more⟩

/-- `Iterator::sum` over `i64`; none is the panic of an overflow. -/
def sumI64 (l : List ℤ) : Option ℤ :=
  l.foldlM (fun acc x => if acc + x < i64Min ∨ acc + x > i64Max then none else some (acc + x)) 0

/-- The content length, from the segments if the object does not say. -/
def contentLength (resp : DownloadObject β) (items : List SegmentListItem) : Option ℤ :=
  if resp.contentLength ≤ 0 then
    (sumI64 (items.map fun i => i.plainSize)).bind fun listed =>
      if listed > 0 then some listed else sumI64 (resp.segmentDownload.map fun s => s.plainSize)
  else some resp.contentLength

/-- The loop that fetches the listed segments that meet the range and are not there yet. -/
def fetchMissing (sat : Satellite β) (present : List Position) (plainStart plainLen : ℤ) :
    List SegmentListItem → List (SegmentDownload β) → Except Error (List (SegmentDownload β))
  | [], downloaded => .ok downloaded
  | item :: rest, downloaded =>
      let pos := item.position.getD (0, 0)
      let r := segmentPlainRange plainStart plainLen item.plainOffset item.plainSize
      if r.2 = 0 ∨ pos ∈ present then fetchMissing sat present plainStart plainLen rest downloaded
      else match sat.downloadSegment pos with
        | .error e => .error e
        | .ok seg => fetchMissing sat present plainStart plainLen rest (downloaded ++ [seg])

/-- Order of positions: part number, then index. -/
def positionLe (p q : Position) : Bool := p.1 < q.1 ∨ p.1 = q.1 ∧ p.2 ≤ q.2

/-- `sort_by_key` by position, which is stable. -/
def sortSegments (l : List (SegmentDownload β)) : List (SegmentDownload β) :=
  l.mergeSort fun a b => positionLe (a.position.getD (0, 0)) (b.position.getD (0, 0))

/-- `decrypt_one_segment`: the part of the range that lies in the segment, decrypted unless it is
empty. -/
def decryptOneSegment (sat : Satellite β) (objectStart objectLen : ℤ) (seg : SegmentDownload β) :
    Except Error (List UInt8) :=
  let r := segmentPlainRange objectStart objectLen seg.plainOffset seg.plainSize
  if r.2 = 0 then .ok [] else sat.decrypt seg r.1 r.2

/-- The producer: one result for each segment, up to the first error. -/
def produce (f : SegmentDownload β → Except Error (List UInt8)) :
    List (SegmentDownload β) → List (Except Error (List UInt8))
  | [] => []
  | seg :: rest =>
      match f seg with
      | .error e => [.error e]
      | .ok plain => .ok plain :: produce f rest

/-- `download_segments`, once the segments are listed: the range is resolved against the size of the
object, the segments that did not come with the answer are fetched, and the rest is a task that
decrypts them in order. -/
def assemble (sat : Satellite β) (resp : DownloadObject β) (offset length : ℤ)
    (items : List SegmentListItem) : Except Stop Download :=
  match contentLength resp items with
  | none => .error .panicked
  | some objectSize =>
      match resolveRange offset length objectSize with
      | .error msg => .error (.error ⟨.protocol, "protocol: " ++ msg⟩)
      | .ok (plainStart, plainLen) =>
          if plainLen = 0 then .ok (.buffered [])
          else
            let present := resp.segmentDownload.filterMap fun s => s.position
            match fetchMissing sat present plainStart plainLen items resp.segmentDownload with
            | .error e => .error (.error e)
            | .ok downloaded =>
                if downloaded.isEmpty then
                  .error (.error ⟨.protocol, "DownloadObject missing segment"⟩)
                else .ok (.streaming (produce (decryptOneSegment sat plainStart plainLen)
                  (sortSegments downloaded)) plainLen)

/-- `download_segments`: the user data is checked first, the listing is read to its end, and
`assemble` takes over.  It is `none` while the fuel does not suffice for the listing. -/
def downloadSegments (sat : Satellite β) (fuel : ℕ) (resp : DownloadObject β)
    (offset length : ℤ) : Option (Except Stop Download) :=
  match sat.userData with
  | .error e => some (.error (.error e))
  | .ok () =>
      (listAll sat fuel (resp.segmentList.getD ⟨[], false⟩)).map fun r =>
        match r with
        | .error e => .error (.error e)
        | .ok items => assemble sat resp offset length items

/-! ## The object

What the satellite keeps, as it is: a row of segments without gaps from offset zero.
-/

/-- A segment of an object, with its plaintext. -/
structure ObjectSegment (β : Type) where
  position : Position
  offset : ℕ
  plain : List UInt8
  body : β

/-- The segment as it is listed. -/
def ObjectSegment.item (s : ObjectSegment β) : SegmentListItem :=
  ⟨some s.position, s.offset, s.plain.length⟩

/-- The segment as it is downloaded. -/
def ObjectSegment.download (s : ObjectSegment β) : SegmentDownload β :=
  ⟨some s.position, s.offset, s.plain.length, s.body⟩

/-- Segments that follow one another from `off` on. -/
def Consecutive : ℕ → List (ObjectSegment β) → Prop
  | _, [] => True
  | off, s :: rest => s.offset = off ∧ Consecutive (off + s.plain.length) rest

/-- An object: segments in the order of their positions, one after the other. -/
structure IsObject (segs : List (ObjectSegment β)) : Prop where
  ordered : segs.Pairwise fun s t => positionLe s.position t.position ∧ s.position ≠ t.position
  consecutive : Consecutive 0 segs

/-- The bytes of an object. -/
def objectBytes (segs : List (ObjectSegment β)) : List UInt8 :=
  segs.flatMap ObjectSegment.plain

/-- A server that hands out the list of segments in pages: the page after a cursor is a piece of
what follows it, empty only at the end, and `more` is unset only at the end. -/
structure Paginates (sat : Satellite β) (first : SegmentPage) (items : List SegmentListItem) :
    Prop where
  first_page : ∃ rest, items = first.items ++ rest ∧ (first.more = false → rest = [])
  next_page : ∀ done rest, items = done ++ rest → ∃ page rest',
    sat.listSegments (done.getLast?.bind fun i => i.position) = .ok page ∧
      rest = page.items ++ rest' ∧ (page.more = false → rest' = []) ∧
      (page.items = [] → rest' = [])

/-- The loop over the pages collects the list. -/
lemma listAll_eq {sat : Satellite β} {first : SegmentPage} {items : List SegmentListItem}
    (h : Paginates sat first items) {fuel : ℕ} (hfuel : items.length < fuel) :
    listAll sat fuel first = some (.ok items) := by
  have hloop : ∀ (fuel : ℕ) (done rest : List SegmentListItem) (more : Bool),
      items = done ++ rest → (more = false → rest = []) → rest.length < fuel →
      listAll sat fuel ⟨done, more⟩ = some (.ok items) := by
    intro fuel
    induction fuel with
    | zero =>
        intro done rest more _ _ hlt
        exact absurd hlt (Nat.not_lt_zero _)
    | succ fuel ih =>
        intro done rest more hitems hmore hlt
        cases more with
        | false =>
            rw [hmore rfl, List.append_nil] at hitems
            rw [hitems]
            rfl
        | true =>
            obtain ⟨page, rest', hpage, rfl, hlast, hempty⟩ := h.next_page done rest hitems
            rw [listAll, hpage]
            dsimp only
            split_ifs with hnil
            · rw [List.isEmpty_iff] at hnil
              rw [hempty hnil, hnil, List.append_nil, List.append_nil] at hitems
              rw [hitems]
            · refine ih _ rest' _ (by rw [hitems, List.append_assoc]) hlast ?_
              have hpos : 0 < page.items.length := by
                rw [List.length_pos_iff]
                simpa using hnil
              rw [List.length_append] at hlt
              omega
  obtain ⟨rest, hitems, hmore⟩ := h.first_page
  refine hloop fuel first.items rest first.more hitems hmore ?_
  have hlen := congrArg List.length hitems
  rw [List.length_append] at hlen
  omega

/-! ## Overlaps

The range is cut at the segments.  Those that it does not meet have an empty overlap, which is why
they can be left out.
-/

/-- The part of a segment that the range `a .. a + n` of the object shows. -/
def ObjectSegment.chunk (a n : ℕ) (s : ObjectSegment β) : List UInt8 := overlap a n s.offset s.plain

/-- A segment that meets the range `a .. a + n`. -/
def ObjectSegment.Meets (a n : ℕ) (s : ObjectSegment β) : Prop :=
  max a s.offset < min (a + n) (s.offset + s.plain.length)

instance (a n : ℕ) (s : ObjectSegment β) : Decidable (s.Meets a n) :=
  inferInstanceAs (Decidable (_ < _))

/-- **The parts of consecutive segments are the range of the whole.** -/
lemma flatMap_chunk {segs : List (ObjectSegment β)} {off : ℕ} (h : Consecutive off segs)
    (a n : ℕ) : segs.flatMap (ObjectSegment.chunk a n) = overlap a n off (objectBytes segs) := by
  induction segs generalizing off with
  | nil => simp [objectBytes]
  | cons s segs ih =>
      obtain ⟨rfl, hrest⟩ := h
      rw [List.flatMap_cons, ih hrest, show objectBytes (s :: segs) = s.plain ++ objectBytes segs from
        List.flatMap_cons, overlap_append]
      rfl

/-- A segment ends where the object does, or before. -/
lemma Consecutive.end_le {segs : List (ObjectSegment β)} {off : ℕ} (h : Consecutive off segs)
    {s : ObjectSegment β} (hs : s ∈ segs) :
    s.offset + s.plain.length ≤ off + (objectBytes segs).length := by
  induction segs generalizing off with
  | nil => cases hs
  | cons t segs ih =>
      obtain ⟨rfl, hrest⟩ := h
      rw [objectBytes, List.flatMap_cons, List.length_append]
      rcases List.mem_cons.mp hs with rfl | hs
      · omega
      · have hle := ih hrest hs
        rw [objectBytes] at hle
        omega

/-- A segment that does not meet the range shows nothing of it. -/
lemma chunk_eq_nil {a n : ℕ} {s : ObjectSegment β} (h : ¬s.Meets a n) : s.chunk a n = [] :=
  overlap_eq_nil (not_lt.mp h)

section

variable {a n : ℕ} {s : ObjectSegment β} (ha : (a : ℤ) + n ≤ i64Max)
  (hs : (s.offset : ℤ) + s.plain.length ≤ i64Max)

include ha hs

/-- The code's test for an empty overlap. -/
lemma plainRange_eq_zero_iff :
    (segmentPlainRange a n s.offset s.plain.length).2 = 0 ↔ ¬s.Meets a n := by
  rw [segmentPlainRange_eq ha hs, ObjectSegment.Meets]
  split_ifs with h
  · simp only [true_iff]
    omega
  · simp only [Nat.cast_eq_zero]
    omega

/-- What is decrypted of a segment is its part of the range. -/
lemma decryptOneSegment_eq {sat : Satellite β}
    (hdec : ∀ i len : ℕ, 0 < len → i + len ≤ s.plain.length →
      sat.decrypt s.download i len = .ok (slice s.plain i len)) :
    decryptOneSegment sat a n s.download = .ok (s.chunk a n) := by
  have hzero := plainRange_eq_zero_iff ha hs
  by_cases hmeets : s.Meets a n
  · have hrange := segmentPlainRange_eq ha hs
    rw [if_neg (not_le.mpr hmeets)] at hrange
    have hmeets' : max a s.offset < min (a + n) (s.offset + s.plain.length) := hmeets
    rw [decryptOneSegment]
    show (if (segmentPlainRange a n s.offset s.plain.length).2 = 0 then _ else _) = _
    rw [if_neg (hzero.not.mpr (not_not.mpr hmeets))]
    show sat.decrypt s.download (segmentPlainRange a n s.offset s.plain.length).1
      (segmentPlainRange a n s.offset s.plain.length).2 = _
    rw [hrange, hdec _ _ (by omega) (by omega), ObjectSegment.chunk, overlap_eq_slice]
  · rw [decryptOneSegment, chunk_eq_nil hmeets]
    exact if_pos (hzero.mpr hmeets)

end

/-! ## What is collected, in order

Sorting by position puts the two sources together, and positions are different, so the order is
determined.
-/

lemma positionLe_trans (p q r : Position) (h1 : positionLe p q = true)
    (h2 : positionLe q r = true) : positionLe p r = true := by
  simp only [positionLe, decide_eq_true_eq] at *
  omega

lemma positionLe_total (p q : Position) : (positionLe p q || positionLe q p) = true := by
  simp only [positionLe, Bool.or_eq_true, decide_eq_true_eq]
  omega

lemma positionLe_antisymm {p q : Position} (h1 : positionLe p q = true)
    (h2 : positionLe q p = true) : p = q := by
  simp only [positionLe, decide_eq_true_eq] at *
  ext
  · omega
  · omega

/-- Segments of an object with the same position are the same. -/
lemma IsObject.eq_of_position {segs : List (ObjectSegment β)} (h : IsObject segs)
    {s t : ObjectSegment β} (hs : s ∈ segs) (ht : t ∈ segs) (hpos : s.position = t.position) :
    s = t := by
  have hnodup : (segs.map ObjectSegment.position).Nodup :=
    List.pairwise_map.mpr (h.ordered.imp fun h => h.2)
  exact List.inj_on_of_nodup_map hnodup hs ht hpos

lemma IsObject.nodup {segs : List (ObjectSegment β)} (h : IsObject segs) : segs.Nodup :=
  h.ordered.imp fun hst heq => hst.2 (by rw [heq])

/-- **Sorting puts segments of an object back into the order of the object.** -/
lemma sortSegments_eq {segs collected served : List (ObjectSegment β)} (h : IsObject segs)
    (hserved : served.Sublist segs) (hperm : served.Perm collected) :
    sortSegments (collected.map ObjectSegment.download) = served.map ObjectSegment.download := by
  have hsorted : (sortSegments (collected.map ObjectSegment.download)).Pairwise fun a b =>
      positionLe (a.position.getD (0, 0)) (b.position.getD (0, 0)) = true :=
    List.pairwise_mergeSort
      (fun a b c => positionLe_trans (a.position.getD (0, 0)) (b.position.getD (0, 0)) _)
      (fun a b => positionLe_total (a.position.getD (0, 0)) (b.position.getD (0, 0))) _
  have hordered : (served.map ObjectSegment.download).Pairwise fun a b =>
      positionLe (a.position.getD (0, 0)) (b.position.getD (0, 0)) = true :=
    List.pairwise_map.mpr ((h.ordered.sublist hserved).imp fun hst => hst.1)
  refine List.Perm.eq_of_pairwise ?_ hsorted hordered
    ((List.mergeSort_perm _ _).trans (hperm.symm.map _))
  intro a b ha hb hab hba
  rw [sortSegments, List.mem_mergeSort] at ha
  obtain ⟨s, hs, rfl⟩ := List.mem_map.mp ha
  obtain ⟨t, ht, rfl⟩ := List.mem_map.mp hb
  rw [h.eq_of_position (hserved.subset (hperm.mem_iff.mpr hs)) (hserved.subset ht)
    (positionLe_antisymm hab hba)]

/-- Whether the loop fetches a listed segment. -/
def Wanted (present : List Position) (a n : ℕ) (s : ObjectSegment β) : Prop :=
  s.Meets a n ∧ s.position ∉ present

instance (present : List Position) (a n : ℕ) (s : ObjectSegment β) :
    Decidable (Wanted present a n s) :=
  inferInstanceAs (Decidable (_ ∧ _))

/-- The loop fetches the listed segments that are wanted. -/
lemma fetchMissing_eq {sat : Satellite β} {present : List Position} {a n : ℕ}
    (ha : (a : ℤ) + n ≤ i64Max) {listed : List (ObjectSegment β)}
    (hs : ∀ s ∈ listed, (s.offset : ℤ) + s.plain.length ≤ i64Max)
    (hdl : ∀ s ∈ listed, sat.downloadSegment s.position = .ok s.download)
    (downloaded : List (SegmentDownload β)) :
    fetchMissing sat present a n (listed.map ObjectSegment.item) downloaded
      = .ok (downloaded ++ (listed.filter fun s => Wanted present a n s).map ObjectSegment.download) := by
  induction listed generalizing downloaded with
  | nil => simp [fetchMissing]
  | cons s listed ih =>
      have hrest := ih (fun t ht => hs t (List.mem_cons_of_mem _ ht))
        (fun t ht => hdl t (List.mem_cons_of_mem _ ht))
      have hzero := plainRange_eq_zero_iff ha (hs s List.mem_cons_self)
      have hcond : ((segmentPlainRange a n s.offset s.plain.length).2 = 0 ∨ s.position ∈ present)
          ↔ ¬Wanted present a n s := by
        rw [hzero, Wanted]
        tauto
      rw [List.map_cons, fetchMissing]
      show (if (segmentPlainRange a n s.offset s.plain.length).2 = 0 ∨ s.position ∈ present then _
        else _) = _
      by_cases hw : Wanted present a n s
      · rw [if_neg (hcond.not.mpr (not_not.mpr hw))]
        show (match sat.downloadSegment s.position with | .error e => _ | .ok seg => _) = _
        rw [hdl s List.mem_cons_self]
        dsimp only
        rw [hrest, List.filter_cons_of_pos (by simpa using hw), List.map_cons, List.append_assoc,
          List.singleton_append]
      · rw [if_pos (hcond.mpr hw), hrest, List.filter_cons_of_neg (by simpa using hw)]

/-- A producer none of whose segments fails. -/
lemma produce_eq {f : SegmentDownload β → Except Error (List UInt8)} {g : ObjectSegment β → List UInt8}
    {served : List (ObjectSegment β)} (h : ∀ s ∈ served, f s.download = .ok (g s)) :
    produce f (served.map ObjectSegment.download) = served.map fun s => .ok (g s) := by
  induction served with
  | nil => rfl
  | cons s served ih =>
      rw [List.map_cons, produce, h s List.mem_cons_self, List.map_cons]
      dsimp only
      rw [ih fun t ht => h t (List.mem_cons_of_mem _ ht)]

/-! ## The whole download

Which segments are sent along and which are listed is arbitrary, as long as between them there are
all that meet the range.
-/

/-- A satellite that has the object `segs`, answers `DownloadObject` with the segments `given` and
lists the segments `listed`, each of them in any order. -/
structure Serves (sat : Satellite β) (resp : DownloadObject β)
    (segs given listed : List (ObjectSegment β)) : Prop where
  object : IsObject segs
  contentLength_eq : resp.contentLength = (objectBytes segs).length
  contentLength_pos : 0 < resp.contentLength
  contentLength_le : resp.contentLength ≤ i64Max
  userData : sat.userData = .ok ()
  given_eq : resp.segmentDownload = given.map ObjectSegment.download
  given_nodup : given.Nodup
  given_subset : given ⊆ segs
  pages : Paginates sat (resp.segmentList.getD ⟨[], false⟩) (listed.map ObjectSegment.item)
  listed_nodup : listed.Nodup
  listed_subset : listed ⊆ segs
  downloads : ∀ s ∈ listed, sat.downloadSegment s.position = .ok s.download
  decrypts : ∀ s ∈ segs, ∀ i len : ℕ, 0 < len → i + len ≤ s.plain.length →
    sat.decrypt s.download i len = .ok (slice s.plain i len)

namespace Serves

variable {sat : Satellite β} {resp : DownloadObject β} {segs given listed : List (ObjectSegment β)}

/-- The segments that end up in the stream, as they are collected. -/
def collected (given listed : List (ObjectSegment β)) (a n : ℕ) : List (ObjectSegment β) :=
  given ++ listed.filter fun s => Wanted (given.map ObjectSegment.position) a n s

/-- Nothing is collected twice. -/
lemma nodup_collected (h : Serves sat resp segs given listed) (a n : ℕ) :
    (collected given listed a n).Nodup := by
  refine List.nodup_append.mpr ⟨h.given_nodup, h.listed_nodup.filter _, ?_⟩
  rintro s hs t ht rfl
  have hw := (List.mem_filter.mp ht).2
  rw [decide_eq_true_eq, Wanted] at hw
  exact hw.2 (List.mem_map_of_mem hs)

lemma collected_subset (h : Serves sat resp segs given listed) (a n : ℕ) :
    collected given listed a n ⊆ segs := by
  intro s hs
  rcases List.mem_append.mp hs with hs | hs
  · exact h.given_subset hs
  · exact h.listed_subset (List.mem_filter.mp hs).1

/-- A segment that meets the range is collected, from wherever it came. -/
lemma mem_collected (h : Serves sat resp segs given listed) {a n : ℕ} {s : ObjectSegment β}
    (hmeets : s.Meets a n) (hfrom : s ∈ given ∨ s ∈ listed) :
    s ∈ collected given listed a n := by
  by_cases hgiven : s ∈ given
  · exact List.mem_append_left _ hgiven
  · have hlisted := hfrom.resolve_left hgiven
    refine List.mem_append_right _ (List.mem_filter.mpr ⟨hlisted, ?_⟩)
    rw [decide_eq_true_eq]
    refine ⟨hmeets, fun hpos => hgiven ?_⟩
    obtain ⟨t, ht, heq⟩ := List.mem_map.mp hpos
    rw [← h.object.eq_of_position (h.given_subset ht) (h.listed_subset hlisted) heq]
    exact ht

/-- The segments of an object end within what an offset can hold. -/
lemma end_le (h : Serves sat resp segs given listed) {s : ObjectSegment β} (hs : s ∈ segs) :
    (s.offset : ℤ) + s.plain.length ≤ i64Max := by
  have hle := h.object.consecutive.end_le hs
  have htotal := h.contentLength_eq
  have hlimit := h.contentLength_le
  omega

/-- **What the stream is made of**: some of the object's segments in their order, collected in
another; those left out show nothing in the range. -/
lemma exists_served (h : Serves sat resp segs given listed) {a n : ℕ}
    (hcover : ∀ s ∈ segs, s.Meets a n → s ∈ given ∨ s ∈ listed) :
    ∃ served : List (ObjectSegment β), served.Sublist segs ∧
      served.Perm (collected given listed a n) ∧ (∀ s ∈ segs, s.Meets a n → s ∈ served) ∧
      served.flatMap (ObjectSegment.chunk a n) = slice (objectBytes segs) a n := by
  classical
  have hsub : (segs.filter fun s => s ∈ collected given listed a n).Sublist segs :=
    List.filter_sublist
  refine ⟨segs.filter fun s => s ∈ collected given listed a n, hsub, ?_, ?_, ?_⟩
  · refine (List.perm_ext_iff_of_nodup (h.object.nodup.sublist hsub) (h.nodup_collected a n)).mpr
      fun s => ?_
    rw [List.mem_filter, decide_eq_true_eq, and_iff_right_iff_imp]
    exact fun hs => h.collected_subset a n hs
  · intro s hs hmeets
    rw [List.mem_filter, decide_eq_true_eq]
    exact ⟨hs, h.mem_collected hmeets (hcover s hs hmeets)⟩
  · rw [← overlap_zero, ← flatMap_chunk h.object.consecutive]
    refine flatMap_filter fun s hs hout => chunk_eq_nil fun hmeets => hout ?_
    rw [decide_eq_true_eq]
    exact h.mem_collected hmeets (hcover s hs hmeets)

/-- What is asked of the satellite beyond the answer is what is collected beyond it. -/
lemma fetchMissing_collected (h : Serves sat resp segs given listed) {a n : ℕ}
    (hmax : (a : ℤ) + n ≤ i64Max) :
    fetchMissing sat (resp.segmentDownload.filterMap fun s => s.position) a n
      (listed.map ObjectSegment.item) resp.segmentDownload
        = .ok ((collected given listed a n).map ObjectSegment.download) := by
  have hpresent : resp.segmentDownload.filterMap (fun s => s.position)
      = given.map ObjectSegment.position := by
    rw [h.given_eq, List.filterMap_map]
    exact congrFun (List.filterMap_eq_map (f := ObjectSegment.position)) given
  rw [hpresent, fetchMissing_eq hmax (fun s hs => h.end_le (h.listed_subset hs)) h.downloads,
    h.given_eq, collected, List.map_append]

end Serves

/-- **The stream is the requested range.**  Whichever segments came with the answer and whichever
through the pages of the list, in whatever order: an accepted range is streamed from segments of
the object, each segment that meets the range exactly once, and what they send is the range, of
the promised length. -/
theorem downloadSegments_assembles {sat : Satellite β} {resp : DownloadObject β}
    {segs given listed : List (ObjectSegment β)} (h : Serves sat resp segs given listed)
    {offset length plainStart plainLen : ℤ}
    (hrange : resolveRange offset length resp.contentLength = .ok (plainStart, plainLen))
    (hcover : ∀ s ∈ segs, s.Meets plainStart.toNat plainLen.toNat → s ∈ given ∨ s ∈ listed)
    (fuel : ℕ) (hfuel : listed.length < fuel) :
    (plainLen = 0 →
      downloadSegments sat fuel resp offset length = some (.ok (.buffered []))) ∧
    (plainLen ≠ 0 → ∃ served : List (ObjectSegment β),
      downloadSegments sat fuel resp offset length = some (.ok (.streaming
        (served.map fun s => .ok (s.chunk plainStart.toNat plainLen.toNat)) plainLen)) ∧
      served.flatMap (ObjectSegment.chunk plainStart.toNat plainLen.toNat)
        = slice (objectBytes segs) plainStart.toNat plainLen.toNat ∧
      ((served.map fun s => (s.chunk plainStart.toNat plainLen.toNat).length).sum : ℕ)
        = plainLen ∧
      served.Nodup ∧ served ⊆ segs ∧
      ∀ s ∈ segs, s.Meets plainStart.toNat plainLen.toNat → s ∈ served) := by
  obtain ⟨a, n, hpair, hbound⟩ := resolveRange_spec h.contentLength_le hrange
  obtain ⟨rfl, rfl⟩ := Prod.mk.inj hpair
  rw [Int.toNat_natCast, Int.toNat_natCast] at *
  have hmax : (a : ℤ) + n ≤ i64Max := hbound.trans h.contentLength_le
  have hlist := listAll_eq h.pages (by rw [List.length_map]; exact hfuel)
  have hlen : contentLength resp (listed.map ObjectSegment.item) = some resp.contentLength := by
    rw [contentLength, if_neg (not_le.mpr h.contentLength_pos)]
  rw [downloadSegments, h.userData]
  dsimp only
  rw [hlist, Option.map_some]
  dsimp only
  rw [assemble, hlen]
  dsimp only
  rw [hrange]
  dsimp only
  constructor
  · intro hzero
    rw [if_pos hzero]
  · intro hne
    obtain ⟨served, hsub, hperm, hall, hbytes⟩ := h.exists_served hcover
    have hslice : (slice (objectBytes segs) a n).length = n := by
      refine length_slice ?_
      have htotal := h.contentLength_eq
      omega
    have hsome : ((Serves.collected given listed a n).map ObjectSegment.download).isEmpty
        = false := by
      rw [List.isEmpty_eq_false_iff, ne_eq, List.map_eq_nil_iff]
      intro hnil
      rw [hnil, List.perm_nil] at hperm
      rw [hperm, List.flatMap_nil] at hbytes
      rw [← hbytes, List.length_nil] at hslice
      omega
    refine ⟨served, ?_, hbytes, ?_, h.object.nodup.sublist hsub, hsub.subset, hall⟩
    · rw [if_neg hne, h.fetchMissing_collected hmax]
      dsimp only
      rw [hsome, if_neg (by decide), sortSegments_eq h.object hsub hperm,
        produce_eq (g := ObjectSegment.chunk a n)]
      intro s hs
      exact decryptOneSegment_eq hmax (h.end_le (hsub.subset hs)) (h.decrypts s (hsub.subset hs))
    · have hcount := congrArg List.length hbytes
      rw [List.length_flatMap, hslice] at hcount
      rw [hcount]

/-- Two segments of an example object, in clear. -/
def firstSegment : ObjectSegment (List UInt8) := ⟨(0, 0), 0, [1, 2, 3], [1, 2, 3]⟩

@[inherit_doc firstSegment]
def secondSegment : ObjectSegment (List UInt8) := ⟨(0, 1), 3, [4, 5], [4, 5]⟩

/-- A satellite that lists the first segment only. -/
def firstOnly : Satellite (List UInt8) where
  userData := .ok ()
  listSegments cursor := .ok ⟨if cursor = none then [firstSegment.item] else [], false⟩
  downloadSegment _ := .ok firstSegment.download
  decrypt s i len := .ok (slice s.body i.toNat len.toNat)

lemma firstOnly_serves : Serves firstOnly ⟨5, some ⟨[], true⟩, [secondSegment.download]⟩
    [firstSegment, secondSegment] [secondSegment] [firstSegment] where
  object := by
    refine ⟨?_, rfl, rfl, trivial⟩
    rw [List.pairwise_pair]
    decide
  contentLength_eq := rfl
  contentLength_pos := by decide
  contentLength_le := by decide
  userData := rfl
  given_eq := rfl
  given_nodup := List.nodup_singleton _
  given_subset := by simp
  pages := by
    refine ⟨⟨[firstSegment.item], rfl, fun h => by cases h⟩, ?_⟩
    intro done rest h
    rcases List.append_eq_singleton_iff.mp h.symm with ⟨rfl, rfl⟩ | ⟨rfl, rfl⟩
    · exact ⟨_, [], rfl, rfl, fun _ => rfl, fun _ => rfl⟩
    · exact ⟨_, [], rfl, rfl, fun _ => rfl, fun _ => rfl⟩
  listed_nodup := List.nodup_singleton _
  listed_subset := by simp
  downloads := by
    intro s hs
    rw [List.mem_singleton.mp hs]
    rfl
  decrypts := by
    intro s hs i len _ _
    rcases List.mem_pair.mp hs with rfl | rfl
    · rfl
    · rfl

/-- A range across both segments, one of them fetched late. -/
theorem downloadSegments_two_sources : ∃ served : List (ObjectSegment (List UInt8)),
    downloadSegments firstOnly 2 ⟨5, some ⟨[], true⟩, [secondSegment.download]⟩ 1 3
      = some (.ok (.streaming (served.map fun s => .ok (s.chunk 1 3)) 3)) ∧
    served.flatMap (ObjectSegment.chunk 1 3) = [2, 3, 4] := by
  have hrange : resolveRange 1 3 5 = .ok (1, 3) := rfl
  have hcover : ∀ s ∈ [firstSegment, secondSegment], s.Meets 1 3 →
      s ∈ [secondSegment] ∨ s ∈ [firstSegment] := by
    intro s hs _
    rcases List.mem_pair.mp hs with rfl | rfl
    · exact Or.inr (List.mem_singleton.mpr rfl)
    · exact Or.inl (List.mem_singleton.mpr rfl)
  obtain ⟨served, hrun, hbytes, -⟩ :=
    (downloadSegments_assembles firstOnly_serves hrange hcover 2 (by decide)).2 (by decide)
  exact ⟨served, hrun, hbytes⟩

end Storj.Client
