import StorjUplink.Lib.MachineInt
import Mathlib

/-!
# Ranges of an object

`resolve_range` turns the offset and length of a download into a start and a length inside the
object, and `segment_plain_range` cuts that range down to one segment.  Both saturate, and inside
an object of at most `i64::MAX` bytes saturation never shows.

`proto_range` sends the same offset and length to the satellite.  What the satellite reads in it is
`Range.bytes`, and the two sides agree (`resolveRange_protoRange`).

The offset and length that a user gives may be negative or reach past the end: a negative offset
counts from the end and takes everything from there, and a negative length means everything that
follows.  Resolving turns them into a start and a length that are inside the object.  All sums
saturate, and the first thing to show is that none of them does for an object whose size is an
`i64`.

The satellite resolves the same range by its own rules and returns the segments that it meets.  If
the two sides disagreed by one byte, a download would miss the segment that holds it.
-/

namespace Storj.Uplink

open MachineInt

/-- `resolve_range`: start and length in the object, or the message of the protocol error. -/
def resolveRange (offset length objectSize : ℤ) : Except String (ℤ × ℤ) :=
  if offset < 0 ∧ length ≥ 0 then .error "suffix requires length to be negative"
  else if objectSize < 0 then .error "object size is negative"
  else if offset < 0 then
    let suffix := satI64 (-offset)
    let start := if suffix ≥ objectSize then 0 else objectSize - suffix
    .ok (start, objectSize - start)
  else
    let start := min offset objectSize
    let stop := if length < 0 then objectSize else min (satI64 (start + length)) objectSize
    .ok (start, satI64 (stop - start))

/-- `segment_plain_range`: start and length in the segment. -/
def segmentPlainRange (objectStart objectLen segOffset segPlain : ℤ) : ℤ × ℤ :=
  if objectLen ≤ 0 ∨ segPlain ≤ 0 then (0, 0)
  else
    let objectEnd := satI64 (objectStart + objectLen)
    let segEnd := satI64 (segOffset + segPlain)
    let start := max objectStart segOffset
    let stop := min objectEnd segEnd
    if stop ≤ start then (0, 0) else (start - segOffset, stop - start)

/-- The `Range` of a download request. -/
inductive Range where
  | suffix (plainSuffix : ℤ)
  | start (plainStart : ℤ)
  | startLimit (plainStart plainLimit : ℤ)
deriving DecidableEq, Repr

/-- `proto_range`, the range of a `DownloadObject` request.  A negative offset asks for a suffix,
and only together with a negative length. -/
def protoRange (offset length : ℤ) : Option Range :=
  if offset < 0 then
    if length ≥ 0 then none else some (.suffix (satI64 (-offset)))
  else if length < 0 then
    if offset = 0 then none else some (.start offset)
  else some (.startLimit offset (satI64 (offset + length)))

/-- The bytes of an object that a range stands for: the last ones, those from a start on, those
from a start up to a limit. -/
def Range.bytes (objectSize : ℤ) : Range → Set ℤ
  | suffix n => Set.Ico (objectSize - min n objectSize) objectSize
  | start s => Set.Ico s objectSize
  | startLimit s limit => Set.Ico s limit ∩ Set.Ico 0 objectSize

/-- No range stands for the whole object. -/
def rangeBytes (objectSize : ℤ) : Option Range → Set ℤ
  | none => Set.Ico 0 objectSize
  | some r => r.bytes objectSize

lemma exists_natCast_range {x y size : ℤ} (hx : 0 ≤ x) (hy : 0 ≤ y) (h : x + y ≤ size) :
    ∃ a n : ℕ, (x, y) = ((a : ℤ), (n : ℤ)) ∧ (a : ℤ) + n ≤ size := by
  obtain ⟨a, rfl⟩ := Int.eq_ofNat_of_zero_le hx
  obtain ⟨n, rfl⟩ := Int.eq_ofNat_of_zero_le hy
  exact ⟨a, n, rfl, h⟩

/-- **The resolved range lies in the object.** -/
lemma resolveRange_spec {offset length objectSize : ℤ} {r : ℤ × ℤ}
    (hsize : objectSize ≤ i64Max) (h : resolveRange offset length objectSize = .ok r) :
    ∃ a n : ℕ, r = ((a : ℤ), (n : ℤ)) ∧ (a : ℤ) + n ≤ objectSize := by
  rw [resolveRange] at h
  dsimp only at h
  split_ifs at h with h1 h2 h3 hwhole hrest
  · -- a suffix at least as long as the object
    cases h
    exact exists_natCast_range le_rfl (by omega) (by omega)
  · -- a shorter suffix
    cases h
    have hpos : 0 ≤ satI64 (-offset) := by
      rw [satI64, i64Min, i64Max]
      omega
    exact exists_natCast_range (by omega) (by omega) (by omega)
  · -- up to the end of the object
    cases h
    rw [satI64_of_nonneg (by omega) (by omega)]
    exact exists_natCast_range (by omega) (by omega) (by omega)
  · cases h
    have hstop : min offset objectSize ≤ satI64 (min offset objectSize + length) := by
      rw [satI64_nonneg (by omega)]
      omega
    rw [satI64_of_nonneg (by omega) (by omega)]
    exact exists_natCast_range (by omega) (by omega) (by omega)

/-- A negative offset with a length is the only refusal. -/
lemma resolveRange_fails_iff {offset length objectSize : ℤ} (hsize : 0 ≤ objectSize) :
    (∃ e, resolveRange offset length objectSize = .error e) ↔ offset < 0 ∧ 0 ≤ length := by
  rw [resolveRange]
  dsimp only
  by_cases h1 : offset < 0 ∧ length ≥ 0
  · rw [if_pos h1]
    exact iff_of_true ⟨_, rfl⟩ h1
  · rw [if_neg h1, if_neg (not_lt.mpr hsize)]
    refine iff_of_false ?_ h1
    rintro ⟨e, he⟩
    split_ifs at he

/-- The resolved range, as a set of bytes, is what the satellite is asked for. -/
lemma resolveRange_bytes {offset length objectSize start len : ℤ}
    (hsize : objectSize ≤ i64Max) (h : resolveRange offset length objectSize = .ok (start, len)) :
    Set.Ico start (start + len) = rangeBytes objectSize (protoRange offset length) := by
  rw [resolveRange] at h
  dsimp only at h
  rw [protoRange]
  split_ifs at h with h1 h2 h3 hwhole hrest
  · -- a suffix at least as long as the object
    cases h
    rw [if_pos h3, if_neg (fun hlen => h1 ⟨h3, hlen⟩)]
    simp only [rangeBytes, Range.bytes]
    rw [min_eq_right hwhole]
    congr 1 <;> omega
  · -- a shorter suffix
    cases h
    rw [if_pos h3, if_neg (fun hlen => h1 ⟨h3, hlen⟩)]
    simp only [rangeBytes, Range.bytes]
    rw [min_eq_left (by omega)]
    congr 1
    omega
  · -- up to the end of the object
    cases h
    rw [if_neg h3, if_pos hrest, satI64_of_nonneg (by omega) (by omega)]
    split_ifs with hzero
    · simp only [rangeBytes]
      congr 1 <;> omega
    · ext b
      simp only [rangeBytes, Range.bytes, Set.mem_Ico]
      omega
  · cases h
    have hstop : min offset objectSize ≤ satI64 (min offset objectSize + length) := by
      rw [satI64_nonneg (by omega)]
      omega
    rw [if_neg h3, if_neg hrest, satI64_of_nonneg (by omega) (by omega), satI64_nonneg (by omega),
      satI64_nonneg (by omega)]
    ext b
    simp only [rangeBytes, Range.bytes, Set.mem_Ico, Set.mem_inter_iff]
    omega

/-- **Client and satellite read the same range.**  For every offset and length, whatever the size of
the object, the resolved range lies in the object and is what `proto_range` stands for, and the only
refusal is a negative offset with a length. -/
theorem resolveRange_protoRange (offset length : ℤ) {objectSize : ℤ}
    (hsize : 0 ≤ objectSize ∧ objectSize ≤ i64Max) :
    (∀ start len, resolveRange offset length objectSize = .ok (start, len) →
      0 ≤ start ∧ start ≤ objectSize ∧ 0 ≤ len ∧ len ≤ objectSize - start ∧
      Set.Ico start (start + len) = rangeBytes objectSize (protoRange offset length)) ∧
    ((∃ e, resolveRange offset length objectSize = .error e) ↔ offset < 0 ∧ 0 ≤ length) := by
  refine ⟨?_, resolveRange_fails_iff hsize.1⟩
  intro start len h
  obtain ⟨a, n, hr, hle⟩ := resolveRange_spec hsize.2 h
  cases hr
  exact ⟨by omega, by omega, by omega, by omega, resolveRange_bytes hsize.2 h⟩

/-- The last bytes of an object, with the offset that has no opposite. -/
theorem resolveRange_protoRange_min :
    resolveRange i64Min (-1) 10 = .ok (0, 10) ∧
      Set.Ico 0 (0 + 10) = rangeBytes 10 (protoRange i64Min (-1)) := by
  have hok : resolveRange i64Min (-1) 10 = .ok (0, 10) := by decide
  have hboth := resolveRange_protoRange i64Min (-1) (show 0 ≤ 10 ∧ 10 ≤ i64Max by decide)
  exact ⟨hok, (hboth.1 0 10 hok).2.2.2.2⟩

/-- **The cut to a segment**, without saturation: it is empty exactly when the segment does not
meet the range. -/
lemma segmentPlainRange_eq {a n off size : ℕ} (ha : (a : ℤ) + n ≤ i64Max)
    (hoff : (off : ℤ) + size ≤ i64Max) :
    segmentPlainRange a n off size
      = if min (a + n) (off + size) ≤ max a off then (0, 0)
        else (((max a off - off : ℕ) : ℤ), ((min (a + n) (off + size) - max a off : ℕ) : ℤ)) := by
  have hsat1 : satI64 ((a : ℤ) + n) = (a : ℤ) + n := satI64_of_nonneg (by omega) ha
  have hsat2 : satI64 ((off : ℤ) + size) = (off : ℤ) + size := satI64_of_nonneg (by omega) hoff
  rw [segmentPlainRange]
  dsimp only
  rw [hsat1, hsat2]
  by_cases hmeet : min (a + n) (off + size) ≤ max a off
  · rw [if_pos hmeet]
    split_ifs with h1 h2
    · rfl
    · rfl
    · omega
  · rw [if_neg hmeet, if_neg (by omega), if_neg (by omega)]
    ext
    · simp only
      omega
    · simp only
      omega

end Storj.Uplink
