import StorjUplink.Ec.Matrix
import StorjUplink.Lib.Pivot

/-!
# Which matrices `invert_matrix` inverts

`search_pivot` takes the diagonal entry of a column where it can, and else the first nonzero entry
among the rows and columns without a pivot, row by row.  An entry it finds at `(row, i)` is returned
as `(icol, irow) = (row, i)`: rows `row` and `i` are exchanged and `row` is swept, but it is `i`
that is marked.  For `row = i` that is an ordinary turn.  For `row ≠ i` the swept entry is not the
one that was found, `row` may be swept again and `i` never is.

So a matrix is inverted, or refused for being singular, when every pivot is found on the diagonal
(`Sweep.OnDiagonal`).  For an invertible matrix this is the condition on its leading minors, and it
cannot be given up: where one of them is zero, what `invert_matrix` leaves in place of `m` and of
`m` with one row scaled differ in one row by the same factor, and they cannot both be inverses.
-/

namespace Storj.Ec

open Buffer Sweep

/-- **What `invert_matrix` is for**: it succeeds exactly on the invertible matrices, and what it
leaves in place is then the inverse. -/
structure Inverts (k : ℕ) (m : List UInt8) : Prop where
  ok_iff : (∃ m', invertMatrix m k = .ok m') ↔ IsUnit (block k (entry m k))
  inverse : ∀ m', invertMatrix m k = .ok m' → block k (entry m' k) * block k (entry m k) = 1

/-! ## The search

`Free` rows and columns are those without a mark.  The fallback runs over rows and, inside, over
columns, and stops at the first usable entry; what a row offers is independent of the rows before
it.
-/

/-- An index without a pivot. -/
def Free (ipiv : List Bool) (j : ℕ) : Prop := ipiv.getD j false = false

lemma not_free_set {ipiv : List Bool} {j : ℕ} (hj : j < ipiv.length) :
    ¬Free (ipiv.set j true) j := by
  rw [Free, getD_set_self hj]
  decide

/-- The entry that the fallback of `search_pivot` finds: free in its row and its column, not zero,
and the first such entry when the rows are read from the top. -/
structure Found (k : ℕ) (ipiv : List Bool) (M : ℕ → ℕ → Gf) (r i : ℕ) : Prop where
  row : r < k ∧ Free ipiv r
  column : i < k ∧ Free ipiv i
  ne_zero : M r i ≠ 0
  above : ∀ r' < r, Free ipiv r' → ∀ i' < k, Free ipiv i' → M r' i' = 0
  left : ∀ i' < i, Free ipiv i' → M r i' = 0

/-- The test of `search_pivot` on one entry. -/
lemma usable_iff (ipiv : List Bool) (m : List UInt8) (k r i : ℕ) :
    (!ipiv.getD i false && m.getD (r * k + i) 0 != 0) = true ↔ Free ipiv i ∧ entry m k r i ≠ 0 := by
  have hentry : entry m k r i = 0 ↔ m.getD (r * k + i) 0 = 0 :=
    ⟨fun h => congrArg Gf.val h, fun h => Gf.ext h⟩
  rw [Bool.and_eq_true, Bool.not_eq_true', bne_iff_ne, ne_eq, ne_eq, hentry, Free]

/-- What one row offers the search. -/
def offer (ipiv : List Bool) (m : List UInt8) (k r : ℕ) : Option (ℕ × ℕ) :=
  if ipiv.getD r false then none
  else ((List.range k).find? fun i =>
    !ipiv.getD i false && m.getD (r * k + i) 0 != 0).map fun i => (r, i)

/-- Its first usable entry, or there is none. -/
lemma offer_cases (ipiv : List Bool) (m : List UInt8) (k r : ℕ) :
    (∃ i, offer ipiv m k r = some (r, i) ∧ Free ipiv r ∧ (i < k ∧ Free ipiv i) ∧
        entry m k r i ≠ 0 ∧ ∀ i' < i, Free ipiv i' → entry m k r i' = 0) ∨
      (offer ipiv m k r = none ∧
        (Free ipiv r → ∀ i < k, Free ipiv i → entry m k r i = 0)) := by
  have hunusable : ∀ i, (!(!ipiv.getD i false && m.getD (r * k + i) 0 != 0)) = true →
      Free ipiv i → entry m k r i = 0 := fun i hnot hfree => by
    by_contra hne
    rw [(usable_iff ipiv m k r i).mpr ⟨hfree, hne⟩] at hnot
    exact absurd hnot (by decide)
  unfold offer
  by_cases hr : Free ipiv r
  · rw [if_neg (Bool.eq_false_iff.mp hr)]
    cases hfind : (List.range k).find? fun i =>
        !ipiv.getD i false && m.getD (r * k + i) 0 != 0 with
    | some i =>
        obtain ⟨hi, hmem, hbefore⟩ := List.find?_range_eq_some.mp hfind
        obtain ⟨hfree, hne⟩ := (usable_iff ipiv m k r i).mp hi
        exact .inl ⟨i, rfl, hr, ⟨List.mem_range.mp hmem, hfree⟩, hne,
          fun i' hi' => hunusable i' (hbefore i' hi')⟩
    | none =>
        have hall := List.find?_range_eq_none.mp hfind
        exact .inr ⟨rfl, fun _ i hi => hunusable i (hall i hi)⟩
  · rw [if_pos (Bool.not_eq_false _ ▸ hr)]
    exact .inr ⟨rfl, fun hfree => absurd hfree hr⟩

/-- **What `search_pivot` returns.** -/
lemma searchPivot_cases (ipiv : List Bool) (c : ℕ) (m : List UInt8) (k : ℕ) :
    (Free ipiv c ∧ entry m k c c ≠ 0 ∧ searchPivot ipiv c m k = .ok (ipiv.set c true, c, c)) ∨
    ((¬Free ipiv c ∨ entry m k c c = 0) ∧
      ((∃ r i, Found k ipiv (entry m k) r i ∧
          searchPivot ipiv c m k = .ok (ipiv.set i true, r, i)) ∨
        ((∀ r < k, Free ipiv r → ∀ i < k, Free ipiv i → entry m k r i = 0) ∧
          searchPivot ipiv c m k = .error "pivot not found"))) := by
  by_cases hdiag : Free ipiv c ∧ entry m k c c ≠ 0
  · refine .inl ⟨hdiag.1, hdiag.2, ?_⟩
    rw [searchPivot, if_pos ((usable_iff ipiv m k c c).mpr hdiag)]
  refine .inr ⟨by tauto, ?_⟩
  rw [searchPivot, if_neg (fun h => hdiag ((usable_iff ipiv m k c c).mp h))]
  have hnone : ∀ r, offer ipiv m k r = none → Free ipiv r → ∀ i < k, Free ipiv i →
      entry m k r i = 0 := fun r hr => by
    rcases offer_cases ipiv m k r with ⟨i, hsome, -⟩ | ⟨-, hzero⟩
    · rw [hsome] at hr
      exact absurd hr (by simp)
    · exact hzero
  rcases findSome?_range (offer ipiv m k) k with ⟨r, hr, b, hfind, hb, hbefore⟩ | ⟨hfind, hall⟩
  · rcases offer_cases ipiv m k r with ⟨i, hsome, hfree, hi, hne, hleft⟩ | ⟨hno, -⟩
    · obtain rfl : (r, i) = b := Option.some_inj.mp (hsome.symm.trans hb)
      unfold offer at hfind
      refine .inl ⟨r, i, ⟨⟨hr, hfree⟩, hi, hne, fun r' hr' => hnone r' (hbefore r' hr'), hleft⟩, ?_⟩
      dsimp only
      rw [hfind]
    · rw [hno] at hb
      exact absurd hb (by simp)
  · unfold offer at hfind
    refine .inr ⟨fun r hr => hnone r (hall r hr), ?_⟩
    dsimp only
    rw [hfind]

/-! ## The run, column by column

The state after `c` columns is compared with the matrix that the run started from: it is that
matrix with the variables of the marked columns exchanged, and its marks are those columns.
-/

/-- The elimination after `c` columns. -/
def stage (k : ℕ) (m : List UInt8) (c : ℕ) : Except String InvertLoop :=
  (List.range c).foldlM (eliminateColumn k)
    ⟨m, List.replicate k false, List.replicate k 0, List.replicate k 0⟩

lemma stage_succ (k : ℕ) (m : List UInt8) (c : ℕ) :
    stage k m (c + 1) = (stage k m c).bind fun s => eliminateColumn k s c := by
  unfold stage
  rw [List.range_succ, List.foldlM_append]
  cases (List.range c).foldlM (eliminateColumn k)
      ⟨m, List.replicate k false, List.replicate k 0, List.replicate k 0⟩ with
  | ok s => cases h : eliminateColumn k s c <;> simp [bind, Except.bind, h, pure, Except.pure]
  | error e => rfl

lemma stage_error_of_le {k c d : ℕ} {m : List UInt8} {e : String} (h : stage k m c = .error e)
    (hcd : c ≤ d) : stage k m d = .error e := by
  induction d, hcd using Nat.le_induction with
  | base => exact h
  | succ d _ ih =>
      rw [stage_succ, ih]
      rfl

lemma invertMatrix_eq (k : ℕ) (m : List UInt8) :
    invertMatrix m k = (stage k m k).bind fun s => .ok (unscramble k s) :=
  rfl

lemma eliminateColumn_error {k c : ℕ} {s : InvertLoop} {e : String}
    (hsearch : searchPivot s.ipiv c s.matrix k = .error e) : eliminateColumn k s c = .error e := by
  rw [eliminateColumn, hsearch]
  rfl

/-- **The state after `c` columns**, when the pivots taken are those at `P` on the diagonal. -/
structure Taken (k : ℕ) (A : ℕ → ℕ → Gf) (c : ℕ) (P : Finset ℕ) (s : InvertLoop) : Prop where
  length_eq : s.matrix.length = k * k
  ipiv_length : s.ipiv.length = k
  subset : P ⊆ Finset.range k
  card_eq : P.card = c
  free_iff : ∀ j < k, Free s.ipiv j ↔ j ∉ P
  indx_eq : s.indxc = s.indxr
  exchanged : ExchangedOn k P A (entry s.matrix k)

lemma Taken.start {k : ℕ} {m : List UInt8} (hm : m.length = k * k) :
    Taken k (entry m k) 0 ∅
      ⟨m, List.replicate k false, List.replicate k 0, List.replicate k 0⟩ := by
  refine ⟨hm, List.length_replicate, Finset.empty_subset _, rfl, fun j hj => ?_, rfl,
    ExchangedOn.empty k _⟩
  exact iff_of_true (List.getD_replicate _ hj) (Finset.notMem_empty j)

section Turn

variable {k c : ℕ} {A : ℕ → ℕ → Gf} {P : Finset ℕ} {s : InvertLoop} (h : Taken k A c P s)

include h

/-- Entries among the rows and columns that are left, as minors. -/
lemma Taken.eq_zero_iff {r i : ℕ} (hr : r < k) (hrP : r ∉ P) (hi : i < k) (hiP : i ∉ P) :
    entry s.matrix k r i = 0 ↔ border A P r i = 0 :=
  h.exchanged.eq_zero_iff hi hiP h.subset hr hrP

/-- What the search finds is the first minor that is not zero. -/
lemma Taken.first {r i : ℕ} (hfound : Found k s.ipiv (entry s.matrix k) r i) :
    First k A P r i := by
  obtain ⟨hr, hrfree⟩ := hfound.row
  obtain ⟨hi, hifree⟩ := hfound.column
  have hrP := (h.free_iff r hr).mp hrfree
  have hiP := (h.free_iff i hi).mp hifree
  refine ⟨⟨hr, hrP⟩, ⟨hi, hiP⟩, ?_, fun r' hr' hr'P i' hi' hi'P => ?_, fun i' hi' hi'P => ?_⟩
  · exact fun h0 => hfound.ne_zero ((h.eq_zero_iff hr hrP hi hiP).mpr h0)
  · have hr'k := hr'.trans hr
    exact (h.eq_zero_iff hr'k hr'P hi' hi'P).mp (hfound.above r' hr'
      ((h.free_iff r' hr'k).mpr hr'P) i' hi' ((h.free_iff i' hi').mpr hi'P))
  · have hi'k := hi'.trans hi
    exact (h.eq_zero_iff hr hrP hi'k hi'P).mp (hfound.left i' hi' ((h.free_iff i' hi'k).mpr hi'P))

/-- A pivot on the diagonal is one sweep, and `ipiv` marks it. -/
lemma Taken.take {r : ℕ} (hr : r < k) (hrP : r ∉ P) (hne : entry s.matrix k r r ≠ 0)
    (hsearch : searchPivot s.ipiv c s.matrix k = .ok (s.ipiv.set r true, r, r)) :
    ∃ s', eliminateColumn k s c = .ok s' ∧ Taken k A (c + 1) (insert r P) s' := by
  obtain ⟨matrix, hstep, hlen, hsweep⟩ :=
    (eliminateColumn_of_search h.length_eq hr hr hsearch).2 hne
  refine ⟨_, hstep, hlen, by simpa using h.ipiv_length,
    Finset.insert_subset (Finset.mem_range.mpr hr) h.subset, ?_, fun j hj => ?_, ?_, ?_⟩
  · rw [Finset.card_insert_of_notMem hrP, h.card_eq]
  · rw [Finset.mem_insert, not_or, ← h.free_iff j hj]
    rcases eq_or_ne j r with rfl | hjr
    · exact iff_of_false (not_free_set (by rw [h.ipiv_length]; exact hr)) fun hand => hand.1 rfl
    · show (s.ipiv.set r true).getD j false = false ↔ _
      rw [getD_set_ne hjr.symm]
      exact ⟨fun hfree => ⟨hjr, hfree⟩, fun hand => hand.2⟩
  · show s.indxc.set c r = s.indxr.set c r
    rw [h.indx_eq]
  · refine (h.exchanged.sweep hr hrP hne).congr fun i hi j hj => ?_
    rw [hsweep i hi j hj, Equiv.swap_self]
    rfl

/-- **The search of column `c`**, in terms of the matrix it started from: it returns the pivot of
the column, or nothing is left. -/
lemma Taken.search (hc : c < k) :
    (∃ r i, Picks k A c P r i ∧ entry s.matrix k r i ≠ 0 ∧
        searchPivot s.ipiv c s.matrix k = .ok (s.ipiv.set i true, r, i)) ∨
      ((∀ r < k, r ∉ P → ∀ i < k, i ∉ P → entry s.matrix k r i = 0) ∧
        searchPivot s.ipiv c s.matrix k = .error "pivot not found") := by
  rcases searchPivot_cases s.ipiv c s.matrix k with
    ⟨hfree, hne, hsearch⟩ | ⟨hdiag, ⟨r, i, hfound, hsearch⟩ | ⟨hzero, hsearch⟩⟩
  · have hcP := (h.free_iff c hc).mp hfree
    refine .inl ⟨c, c, .diagonal hcP fun h0 => hne ?_, hne, hsearch⟩
    exact (h.eq_zero_iff hc hcP hc hcP).mpr h0
  · refine .inl ⟨r, i, .found ?_ (h.first hfound), hfound.ne_zero, hsearch⟩
    by_cases hcP : c ∈ P
    · exact .inl hcP
    · refine .inr ((h.eq_zero_iff hc hcP hc hcP).mp (hdiag.resolve_left ?_))
      exact not_not.mpr ((h.free_iff c hc).mpr hcP)
  · refine .inr ⟨fun r hr hrP i hi hiP => ?_, hsearch⟩
    exact hzero r hr ((h.free_iff r hr).mpr hrP) i hi ((h.free_iff i hi).mpr hiP)

/-- The search returns the pivot of the column. -/
lemma Taken.search_eq (hc : c < k) {r i : ℕ} (hpick : Picks k A c P r i) :
    entry s.matrix k r i ≠ 0 ∧
      searchPivot s.ipiv c s.matrix k = .ok (s.ipiv.set i true, r, i) := by
  rcases h.search hc with ⟨r', i', hpick', hfound⟩ | ⟨hzero, -⟩
  · obtain ⟨rfl, rfl⟩ := hpick.unique hpick'
    exact hfound
  · obtain ⟨⟨hr, hrP⟩, ⟨hi, hiP⟩, hne⟩ := hpick.usable hc
    exact absurd ((h.eq_zero_iff hr hrP hi hiP).mp (hzero r hr hrP i hi hiP)) hne

/-- A turn whose pivot is on the diagonal. -/
lemma Taken.turn (hc : c < k) {r : ℕ} (hpick : Picks k A c P r r) :
    ∃ s', eliminateColumn k s c = .ok s' ∧ Taken k A (c + 1) (insert r P) s' := by
  obtain ⟨⟨hr, hrP⟩, -, -⟩ := hpick.usable hc
  obtain ⟨hne, hsearch⟩ := h.search_eq hc hpick
  exact h.take hr hrP hne hsearch

/-- Where nothing is left before the last column, the matrix is singular. -/
lemma Taken.not_isUnit (hc : c < k)
    (hzero : ∀ r < k, r ∉ P → ∀ i < k, i ∉ P → entry s.matrix k r i = 0) :
    ¬IsUnit (block k A) := by
  obtain ⟨i, hik, hiP⟩ : ∃ i ∈ Finset.range k, i ∉ P := by
    refine Finset.exists_mem_notMem_of_card_lt_card ?_
    rw [h.card_eq, Finset.card_range]
    exact hc
  have hi := Finset.mem_range.mp hik
  obtain ⟨x, hx, hker⟩ := h.exchanged.exists_kernel hi hiP fun r hr hrP => hzero r hr hrP i hi hiP
  refine not_isUnit_block hi ?_ hker
  rw [hx]
  exact one_ne_zero

end Turn

/-! ## Pivots on the diagonal

As long as every pivot is found on its diagonal entry the run is an ordinary elimination without
exchanges.  It ends with the inverse, or at a column where nothing is left and the matrix is
singular.
-/

section OnDiagonal

variable {k : ℕ} {m : List UInt8} (hm : m.length = k * k)

include hm

/-- The run follows the pivots of the matrix as long as they are on the diagonal. -/
lemma stage_of_order {c : ℕ} {P : Finset ℕ} (h : PivotOrder k (entry m k) c P) (hc : c ≤ k) :
    ∃ s, stage k m c = .ok s ∧ Taken k (entry m k) c P s := by
  induction h with
  | start => exact ⟨_, rfl, Taken.start hm⟩
  | turn _ hpick ih =>
      obtain ⟨s, hs, ht⟩ := ih (by omega)
      rw [stage_succ, hs]
      exact ht.turn hc hpick

/-- With every pivot on the diagonal, each stage is reached or the matrix is singular. -/
lemma stage_of_onDiagonal (hdiag : OnDiagonal k (entry m k)) {c : ℕ} (hc : c ≤ k) :
    (∃ P, PivotOrder k (entry m k) c P) ∨
      ((∃ e, stage k m c = .error e) ∧ ¬IsUnit (block k (entry m k))) := by
  induction c with
  | zero => exact .inl ⟨∅, PivotOrder.start⟩
  | succ c ih =>
      rcases ih (by omega) with ⟨P, horder⟩ | ⟨⟨e, he⟩, hsingular⟩
      · obtain ⟨s, hs, ht⟩ := stage_of_order hm horder (by omega)
        rcases ht.search hc with ⟨r, i, hpick, -⟩ | ⟨hzero, hsearch⟩
        · obtain rfl := hdiag c hc P horder r i hpick
          exact .inl ⟨_, horder.turn hpick⟩
        · refine .inr ⟨⟨"pivot not found", ?_⟩, ht.not_isUnit hc hzero⟩
          rw [stage_succ, hs]
          exact eliminateColumn_error hsearch
      · refine .inr ⟨⟨e, ?_⟩, hsingular⟩
        rw [stage_succ, he]
        rfl

/-- **Every pivot on the diagonal, and `invert_matrix` inverts.** -/
lemma inverts_of_onDiagonal (hdiag : OnDiagonal k (entry m k)) : Inverts k m := by
  rcases stage_of_onDiagonal hm hdiag le_rfl with ⟨P, horder⟩ | ⟨⟨e, he⟩, hsingular⟩
  · obtain ⟨s, hs, ht⟩ := stage_of_order hm horder le_rfl
    have hresult : invertMatrix m k = .ok s.matrix := by
      rw [invertMatrix_eq, hs, ← unscramble_of_eq ht.indx_eq k]
      rfl
    have hall : P = Finset.range k :=
      Finset.eq_of_subset_of_card_le ht.subset (by rw [ht.card_eq, Finset.card_range])
    have hinverse : block k (entry s.matrix k) * block k (entry m k) = 1 :=
      block_mul_block fun x i hi =>
        ht.exchanged.inverse (fun j hj => hall ▸ Finset.mem_range.mpr hj) x hi
    refine ⟨iff_of_true ⟨_, hresult⟩ ?_, fun m' hm' => ?_⟩
    · exact IsUnit.of_mul_eq_one_right _ hinverse
    · rw [hresult, Except.ok.injEq] at hm'
      exact hm' ▸ hinverse
  · have hresult : invertMatrix m k = .error e := by
      rw [invertMatrix_eq, he]
      rfl
    have hnone : ∀ m', invertMatrix m k ≠ .ok m' := fun m' hok => by
      rw [hresult] at hok
      exact absurd hok (by simp)
    refine ⟨iff_of_false ?_ hsingular, fun m' hm' => absurd hm' (hnone m')⟩
    rintro ⟨m', hm'⟩
    exact hnone m' hm'

end OnDiagonal

/-! ## Two runs in step

For the converse, the matrix is run beside a copy with one row scaled.  Zero entries are at the
same places, so both searches answer alike, and the factor follows the row until a turn sweeps it.
-/

/-- `m` with row `r` times `t`. -/
def scaleRow (k r : ℕ) (t : UInt8) (m : List UInt8) : List UInt8 :=
  splice m (r * k) ((slice m (r * k) k).map (mulAt t))

section ScaleRow

variable {k r : ℕ} {m : List UInt8} (hm : m.length = k * k) (hr : r < k) (t : UInt8)

include hm hr

lemma length_scaleRow : (scaleRow k r t m).length = k * k := by
  have hrow := rowMajor_le (k := k) hr
  have hslice : (slice m (r * k) k).length = k := length_slice (by omega)
  rw [scaleRow, length_splice, hm]
  rw [List.length_map, hslice, hm]
  exact hrow

lemma rowScaled_scaleRow : RowScaled k ⟨t⟩ r (entry m k) (entry (scaleRow k r t m) k) := by
  intro a ha b hb
  have hrow := rowMajor_le (k := k) hr
  have hslice : (slice m (r * k) k).length = k := length_slice (by omega)
  have hlen : ((slice m (r * k) k).map (mulAt t)).length = k := by rw [List.length_map, hslice]
  rcases eq_or_ne a r with rfl | har
  · have hmul : coeffAt ((slice m (a * k) k).map (mulAt t)) b
        = ⟨t⟩ * coeffAt (slice m (a * k) k) b :=
      Gf.ext (getD_map_of_lt _ (by omega) 0 0)
    rw [scaleRow, entry_splice_self hm hlen hr hb, if_pos rfl, hmul, coeffAt_slice_row m hb]
  · rw [scaleRow, entry_splice_of_ne hm hlen hr har hb, if_neg har, one_mul]

end ScaleRow

/-- The search reads only which entries are zero. -/
lemma searchPivot_congr {k c : ℕ} {m m' : List UInt8} (ipiv : List Bool) (hc : c < k)
    (h : ∀ a < k, ∀ b < k, entry m' k a b = 0 ↔ entry m k a b = 0) :
    searchPivot ipiv c m' k = searchPivot ipiv c m k := by
  have htest : ∀ a < k, ∀ b < k, (!ipiv.getD b false && m'.getD (a * k + b) 0 != 0)
      = (!ipiv.getD b false && m.getD (a * k + b) 0 != 0) := fun a ha b hb => by
    rw [Bool.eq_iff_iff, usable_iff, usable_iff, ne_eq, ne_eq, h a ha b hb]
  have hoffer : ∀ a ∈ List.range k, offer ipiv m' k a = offer ipiv m k a := fun a ha => by
    have hfind := List.find?_congr fun b hb =>
      htest a (List.mem_range.mp ha) b (List.mem_range.mp hb)
    rw [offer, offer, hfind]
  have hfound : (List.range k).findSome? (offer ipiv m' k)
      = (List.range k).findSome? (offer ipiv m k) := by
    rw [← Function.id_comp (offer ipiv m' k), ← Function.id_comp (offer ipiv m k),
      ← List.findSome?_map, ← List.findSome?_map, List.map_congr_left hoffer]
  unfold offer at hfound
  unfold searchPivot
  dsimp only
  rw [htest c hc c hc, hfound]

/-- The search returns two indices without a pivot, or it fails. -/
lemma searchPivot_free {k c : ℕ} (hc : c < k) (ipiv : List Bool) (m : List UInt8) :
    (∃ r i, (r < k ∧ Free ipiv r) ∧ (i < k ∧ Free ipiv i) ∧
        searchPivot ipiv c m k = .ok (ipiv.set i true, r, i)) ∨
      ∃ e, searchPivot ipiv c m k = .error e := by
  rcases searchPivot_cases ipiv c m k with
    ⟨hfree, -, hsearch⟩ | ⟨-, ⟨r, i, hfound, hsearch⟩ | ⟨-, hsearch⟩⟩
  · exact .inl ⟨c, c, ⟨hc, hfree⟩, ⟨hc, hfree⟩, hsearch⟩
  · exact .inl ⟨r, i, hfound.row, hfound.column, hsearch⟩
  · exact .inr ⟨_, hsearch⟩

/-- Two buffers that differ by a factor in one row. -/
structure Scaled (k : ℕ) (t : Gf) (ρ : ℕ) (m m' : List UInt8) : Prop where
  length_eq : m.length = k * k
  length_eq' : m'.length = k * k
  rows : RowScaled k t ρ (entry m k) (entry m' k)

/-- **Two runs in step**: the same bookkeeping, and matrices that differ by a factor in one row. -/
structure InStep (k : ℕ) (t : Gf) (ρ : ℕ) (s s' : InvertLoop) : Prop where
  ipiv_eq : s'.ipiv = s.ipiv
  indxc_eq : s'.indxc = s.indxc
  indxr_eq : s'.indxr = s.indxr
  indxc_lt : ∀ j, s.indxc.getD j 0 < k
  indxr_lt : ∀ j, s.indxr.getD j 0 < k
  scaled : Scaled k t ρ s.matrix s'.matrix

lemma getD_set_lt {l : List ℕ} {c v k : ℕ} (h : ∀ j, l.getD j 0 < k) (hv : v < k) (j : ℕ) :
    (l.set c v).getD j 0 < k := by
  rcases eq_or_ne c j with rfl | hne
  · by_cases hc : c < l.length
    · rwa [getD_set_self hc]
    · rw [List.set_eq_of_length_le (not_lt.mp hc)]
      exact h c
  · rw [getD_set_ne hne]
    exact h j

/-- The exchange of two cells of one row. -/
lemma entry_swapCells {m : List UInt8} {k row x y a b : ℕ} (hm : m.length = k * k) (hrow : row < k)
    (hx : x < k) (hy : y < k) (hb : b < k) :
    entry (swap m (row * k + x) (row * k + y)) k a b
      = entry m k a (if a = row then Equiv.swap x y b else b) := by
  have hle := rowMajor_le (k := k) hrow
  have hget : entry (swap m (row * k + x) (row * k + y)) k a b
      = ⟨m.getD (Equiv.swap (row * k + x) (row * k + y) (a * k + b)) 0⟩ :=
    Gf.ext (getD_swap (by omega) (by omega) _)
  rw [hget]
  split_ifs with har
  · subst har
    have hcell : Equiv.swap (a * k + x) (a * k + y) (a * k + b) = a * k + Equiv.swap x y b :=
      Function.Injective.swap_apply (f := fun b => a * k + b) (fun _ _ h => Nat.add_left_cancel h)
        x y b
    rw [hcell]
    rfl
  · rw [Equiv.swap_apply_of_ne_of_ne]
    · rfl
    · exact fun h => har (rowMajor_inj hb hx h).1
    · exact fun h => har (rowMajor_inj hb hy h).1

lemma Scaled.swapCells {k ρ row x y : ℕ} {t : Gf} {m m' : List UInt8} (h : Scaled k t ρ m m')
    (hrow : row < k) (hx : x < k) (hy : y < k) :
    Scaled k t ρ (swap m (row * k + x) (row * k + y)) (swap m' (row * k + x) (row * k + y)) := by
  refine ⟨by rw [length_swap, h.length_eq], by rw [length_swap, h.length_eq'], fun a ha b hb => ?_⟩
  rw [entry_swapCells h.length_eq hrow hx hy hb, entry_swapCells h.length_eq' hrow hx hy hb]
  refine h.rows a ha _ ?_
  split_ifs
  · exact swap_lt hx hy hb
  · exact hb

section InStep

variable {k c ρ r i : ℕ} {t : Gf} {s s' : InvertLoop} (h : InStep k t ρ s s') (ht : t ≠ 0)

include h ht

/-- The two searches return the same. -/
lemma InStep.search_eq (hc : c < k) :
    searchPivot s'.ipiv c s'.matrix k = searchPivot s.ipiv c s.matrix k := by
  rw [h.ipiv_eq]
  exact searchPivot_congr s.ipiv hc fun a ha b hb => h.scaled.rows.eq_zero_iff ht ha hb

/-- **A turn of both runs.**  The scaled row moves as rows do; only a turn that sweeps it can break
the step. -/
lemma InStep.turn (hc : c < k) (hr : r < k) (hi : i < k) (hρ : ρ ≠ i)
    (hsearch : searchPivot s.ipiv c s.matrix k = .ok (s.ipiv.set i true, r, i)) :
    (∃ e, eliminateColumn k s c = .error e ∧ eliminateColumn k s' c = .error e) ∨
      ∃ u u', eliminateColumn k s c = .ok u ∧ eliminateColumn k s' c = .ok u' ∧
        u.ipiv = s.ipiv.set i true ∧ InStep k t (Equiv.swap i r ρ) u u' := by
  have hone := eliminateColumn_of_search h.scaled.length_eq hr hi hsearch
  have htwo := eliminateColumn_of_search h.scaled.length_eq' hr hi
    ((h.search_eq ht hc).trans hsearch)
  by_cases hzero : entry s.matrix k i r = 0
  · exact .inl ⟨_, hone.1 hzero, htwo.1 ((h.scaled.rows.eq_zero_iff ht hi hr).mpr hzero)⟩
  · obtain ⟨matrix, hstep, hlen, hsweep⟩ := hone.2 hzero
    obtain ⟨matrix', hstep', hlen', hsweep'⟩ :=
      htwo.2 fun h0 => hzero ((h.scaled.rows.eq_zero_iff ht hi hr).mp h0)
    refine .inr ⟨_, _, hstep, hstep', rfl, rfl, ?_, ?_, ?_, ?_, hlen, hlen', fun a ha b hb => ?_⟩
    · show s'.indxc.set c r = s.indxc.set c r
      rw [h.indxc_eq]
    · show s'.indxr.set c i = s.indxr.set c i
      rw [h.indxr_eq]
    · exact getD_set_lt h.indxc_lt hr
    · exact getD_set_lt h.indxr_lt hi
    · have hswapped : RowScaled k t (Equiv.swap i r ρ)
          (fun a => entry s.matrix k (Equiv.swap i r a))
          (fun a => entry s'.matrix k (Equiv.swap i r a)) := fun a ha b hb => by
        simp only [h.scaled.rows _ (swap_lt hi hr ha) b hb, Equiv.swap_apply_eq_iff]
      have hpivot : r ≠ Equiv.swap i r ρ := fun heq => hρ (by
        rw [eq_comm, Equiv.swap_apply_eq_iff, Equiv.swap_apply_right] at heq
        exact heq)
      rw [hsweep a ha b hb, hsweep' a ha b hb]
      exact hswapped.sweep hr hpivot a ha b hb

/-- A turn after the scaled row has been marked leaves it where it is. -/
lemma InStep.turn_of_marked (hc : c < k) (hmarked : ¬Free s.ipiv ρ) :
    (∃ e, eliminateColumn k s c = .error e ∧ eliminateColumn k s' c = .error e) ∨
      ∃ u u', eliminateColumn k s c = .ok u ∧ eliminateColumn k s' c = .ok u' ∧
        ¬Free u.ipiv ρ ∧ InStep k t ρ u u' := by
  rcases searchPivot_free hc s.ipiv s.matrix with
    ⟨r, i, ⟨hr, hrfree⟩, ⟨hi, hifree⟩, hsearch⟩ | ⟨e, hsearch⟩
  · have hρr : ρ ≠ r := fun heq => hmarked (heq ▸ hrfree)
    have hρi : ρ ≠ i := fun heq => hmarked (heq ▸ hifree)
    rcases h.turn ht hc hr hi hρi hsearch with herror | ⟨u, u', hu, hu', hipiv, hnext⟩
    · exact .inl herror
    · rw [Equiv.swap_apply_of_ne_of_ne hρi hρr] at hnext
      refine .inr ⟨u, u', hu, hu', ?_, hnext⟩
      rwa [hipiv, Free, getD_set_ne hρi.symm]
  · have hsearch' := (h.search_eq ht hc).trans hsearch
    exact .inl ⟨e, eliminateColumn_error hsearch, eliminateColumn_error hsearch'⟩

/-- So the two runs stay in step to the end. -/
lemma InStep.run {m m' : List UInt8} (hs : stage k m c = .ok s) (hs' : stage k m' c = .ok s')
    (hmarked : ¬Free s.ipiv ρ) (hc : c ≤ k) :
    (∃ e, stage k m k = .error e ∧ stage k m' k = .error e) ∨
      ∃ u u', stage k m k = .ok u ∧ stage k m' k = .ok u' ∧ InStep k t ρ u u' := by
  have hall : ∀ d, c ≤ d → d ≤ k → (∃ e, stage k m d = .error e ∧ stage k m' d = .error e) ∨
      ∃ u u', stage k m d = .ok u ∧ stage k m' d = .ok u' ∧ ¬Free u.ipiv ρ ∧ InStep k t ρ u u' := by
    intro d hcd
    induction d, hcd using Nat.le_induction with
    | base => exact fun _ => .inr ⟨s, s', hs, hs', hmarked, h⟩
    | succ d _ ih =>
        intro hd
        rw [stage_succ, stage_succ]
        rcases ih (by omega) with ⟨e, he, he'⟩ | ⟨u, u', hu, hu', hmark, hstep⟩
        · rw [he, he']
          exact .inl ⟨e, rfl, rfl⟩
        · rw [hu, hu']
          exact hstep.turn_of_marked ht hd hmark
  rcases hall k hc le_rfl with herror | ⟨u, u', hu, hu', -, hstep⟩
  · exact .inl herror
  · exact .inr ⟨u, u', hu, hu', hstep⟩

omit ht

/-- Putting back the columns keeps the factor. -/
lemma InStep.unscramble : Scaled k t ρ (unscramble k s) (unscramble k s') := by
  refine List.foldl_rel h.scaled fun j _ n n' hn => ?_
  rw [h.indxc_eq, h.indxr_eq]
  split_ifs
  · refine List.foldl_rel hn fun row hrow l l' hl => ?_
    exact hl.swapCells (List.mem_range.mp hrow) (h.indxr_lt j) (h.indxc_lt j)
  · exact hn

end InStep

section OffDiagonal

variable {k : ℕ} {m : List UInt8} (hm : m.length = k * k) {t : UInt8} (ht : t ≠ 0)

include hm

lemma InStep.start {ρ : ℕ} (hρ : ρ < k) :
    InStep k ⟨t⟩ ρ ⟨m, List.replicate k false, List.replicate k 0, List.replicate k 0⟩
      ⟨scaleRow k ρ t m, List.replicate k false, List.replicate k 0, List.replicate k 0⟩ := by
  have hzero : ∀ j, (List.replicate k 0).getD j 0 < k := fun j => by
    rw [List.getD_eq_getElem?_getD, List.getElem?_replicate]
    split_ifs <;> exact Nat.zero_lt_of_lt hρ
  exact ⟨rfl, rfl, rfl, hzero, hzero, hm, length_scaleRow hm hρ t, rowScaled_scaleRow hm hρ t⟩

include ht

/-- As long as the pivots are on the diagonal, a row that is left can be scaled. -/
lemma inStep_of_order {c ρ : ℕ} {P : Finset ℕ} (h : PivotOrder k (entry m k) c P) (hc : c ≤ k)
    (hρ : ρ < k) (hρP : ρ ∉ P) :
    ∃ s s', stage k m c = .ok s ∧ stage k (scaleRow k ρ t m) c = .ok s' ∧
      InStep k ⟨t⟩ ρ s s' := by
  have ht' : (⟨t⟩ : Gf) ≠ 0 := fun h0 => ht (congrArg Gf.val h0)
  induction h with
  | start => exact ⟨_, _, rfl, rfl, InStep.start hm hρ⟩
  | @turn c r P horder hpick ih =>
      rw [Finset.mem_insert, not_or] at hρP
      obtain ⟨s, s', hs, hs', hstep⟩ := ih (by omega) hρP.2
      obtain ⟨s₀, hs₀, htaken⟩ := stage_of_order hm horder (by omega)
      obtain rfl : s₀ = s := Except.ok.inj (hs₀.symm.trans hs)
      obtain ⟨⟨hr, -⟩, -, -⟩ := hpick.usable hc
      obtain ⟨-, hsearch⟩ := htaken.search_eq hc hpick
      obtain ⟨u₀, hu₀, -⟩ := htaken.turn hc hpick
      rw [stage_succ, stage_succ, hs, hs']
      rcases hstep.turn ht' hc hr hr hρP.1 hsearch with ⟨e, he, -⟩ | ⟨u, u', hu, hu', -, hnext⟩
      · rw [hu₀] at he
        exact absurd he (by simp)
      · rw [Equiv.swap_self] at hnext
        exact ⟨u, u', hu, hu', hnext⟩

/-- **A pivot off the diagonal**: with the row where it was found scaled, the result is scaled in
the row that was marked instead. -/
lemma invertMatrix_scaleRow {c i : ℕ} {P : Finset ℕ} {r : ℕ}
    (horder : PivotOrder k (entry m k) c P) (hc : c < k) (hpick : Picks k (entry m k) c P r i)
    (hri : r ≠ i) :
    (∃ e, invertMatrix m k = .error e) ∨ ∃ n n', invertMatrix m k = .ok n ∧
      invertMatrix (scaleRow k r t m) k = .ok n' ∧ Scaled k ⟨t⟩ i n n' := by
  have ht' : (⟨t⟩ : Gf) ≠ 0 := fun h0 => ht (congrArg Gf.val h0)
  obtain ⟨⟨hr, hrP⟩, ⟨hi, hiP⟩, -⟩ := hpick.usable hc
  obtain ⟨s, s', hs, hs', hstep⟩ := inStep_of_order hm ht horder hc.le hr hrP
  obtain ⟨s₀, hs₀, htaken⟩ := stage_of_order hm horder hc.le
  obtain rfl : s₀ = s := Except.ok.inj (hs₀.symm.trans hs)
  obtain ⟨-, hsearch⟩ := htaken.search_eq hc hpick
  have hend : (∃ e, stage k m k = .error e) ∨ ∃ u u', stage k m k = .ok u ∧
      stage k (scaleRow k r t m) k = .ok u' ∧ InStep k ⟨t⟩ i u u' := by
    rcases hstep.turn ht' hc hr hi hri hsearch with ⟨e, he, -⟩ | ⟨u, u', hu, hu', hipiv, hnext⟩
    · refine .inl ⟨e, stage_error_of_le (c := c + 1) ?_ hc⟩
      rw [stage_succ, hs]
      exact he
    · rw [Equiv.swap_apply_right] at hnext
      have hmarked : ¬Free u.ipiv i := by
        rw [hipiv]
        exact not_free_set (by rw [htaken.ipiv_length]; exact hi)
      have hone : stage k m (c + 1) = .ok u := by
        rw [stage_succ, hs]
        exact hu
      have htwo : stage k (scaleRow k r t m) (c + 1) = .ok u' := by
        rw [stage_succ, hs']
        exact hu'
      rcases hnext.run ht' hone htwo hmarked hc with ⟨e, he, -⟩ | hok
      · exact .inl ⟨e, he⟩
      · exact .inr hok
  rw [invertMatrix_eq, invertMatrix_eq]
  rcases hend with ⟨e, he⟩ | ⟨u, u', hu, hu', hlast⟩
  · rw [he]
    exact .inl ⟨e, rfl⟩
  · rw [hu, hu']
    exact .inr ⟨_, _, rfl, rfl, hlast.unscramble⟩

end OffDiagonal

/-- `1` has one square root. -/
lemma Gf.mul_self_ne_one {t : Gf} (ht : t ≠ 1) : t * t ≠ 1 := by
  intro h
  rcases mul_self_eq_one_iff.mp h with hone | hneg
  · exact ht hone
  · exact ht hneg

lemma scaleRow_one {k r : ℕ} {m : List UInt8} (hm : m.length = k * k) (hr : r < k) :
    scaleRow k r 1 m = m := by
  have hrow := rowMajor_le (k := k) hr
  have hone : mulAt 1 = id := funext fun x => congrArg Gf.val (one_mul (⟨x⟩ : Gf))
  rw [scaleRow, hone, List.map_id, splice_slice (by omega)]

/-- An invertible matrix with a zero leading minor has a row that cannot be scaled. -/
lemma exists_row_not_inverts {k : ℕ} {m : List UInt8} (hm : m.length = k * k)
    (hunit : IsUnit (block k (entry m k))) (hreg : ¬LeadingRegular k (entry m k)) :
    ∃ r < k, ∀ t : UInt8, t ≠ 0 → t ≠ 1 → Inverts k m → ¬Inverts k (scaleRow k r t m) := by
  obtain ⟨c, hc, i, horder, hpick, hci⟩ := exists_offDiagonal hunit hreg
  obtain ⟨-, ⟨hi, -⟩, -⟩ := hpick.usable hc
  refine ⟨c, hc, fun t ht0 ht1 hinv hinv' => ?_⟩
  rcases invertMatrix_scaleRow hm ht0 horder hc hpick hci with ⟨e, he⟩ | ⟨n, n', hn, hn', hscaled⟩
  · obtain ⟨n, hn⟩ := hinv.ok_iff.mpr hunit
    rw [he] at hn
    exact absurd hn (by simp)
  · refine (rowScaled_scaleRow hm hc t).not_inverse hscaled.rows hi ?_ (hinv.inverse n hn)
      (hinv'.inverse n' hn')
    exact Gf.mul_self_ne_one fun h => ht1 (congrArg Gf.val h)

/-- **When `invert_matrix` inverts.**  Pivots on the diagonal are enough; for an invertible matrix
that is the condition that no leading minor is zero, and exactly then every scaling of its rows is
inverted as well. -/
theorem invertMatrix_inverts {k : ℕ} {m : List UInt8} (hm : m.length = k * k) :
    (OnDiagonal k (entry m k) → Inverts k m) ∧
      (IsUnit (block k (entry m k)) →
        (OnDiagonal k (entry m k) ↔ LeadingRegular k (entry m k)) ∧
        (OnDiagonal k (entry m k) ↔
          ∀ r < k, ∀ t : UInt8, t ≠ 0 → Inverts k (scaleRow k r t m))) := by
  refine ⟨inverts_of_onDiagonal hm, fun hunit => ⟨onDiagonal_iff hunit, ?_⟩⟩
  rw [onDiagonal_iff hunit]
  constructor
  · intro hreg r hr t ht
    have ht' : (⟨t⟩ : Gf) ≠ 0 := fun h0 => ht (congrArg Gf.val h0)
    have hscaled := hreg.scale (rowScaled_scaleRow hm hr t) ht'
    exact inverts_of_onDiagonal (length_scaleRow hm hr t) hscaled.onDiagonal
  · intro hall
    by_contra hreg
    obtain ⟨r, hr, hnot⟩ := exists_row_not_inverts hm hunit hreg
    have hone := hall r hr 1 (by decide)
    rw [scaleRow_one hm hr] at hone
    exact hnot 2 (by decide) (by decide) hone (hall r hr 2 (by decide))

/-- The rows `1 1` and `1 0`: both leading minors are `1`. -/
theorem invertMatrix_inverts_two :
    Inverts 2 [1, 1, 1, 0] ∧
      ∀ r < 2, ∀ t : UInt8, t ≠ 0 → Inverts 2 (scaleRow 2 r t [1, 1, 1, 0]) := by
  have hmul : ∀ (x : ℕ → Gf) (a : ℕ), mulVec 2 (entry [1, 1, 1, 0] 2) x a
      = entry [1, 1, 1, 0] 2 a 0 * x 0 + entry [1, 1, 1, 0] 2 a 1 * x 1 := fun x a => by
    simp only [mulVec, Finset.sum_range_succ, Finset.sum_range_zero, zero_add]
  have htop : ∀ b < 2, entry [1, 1, 1, 0] 2 0 b = 1 := by decide
  have hleft : entry [1, 1, 1, 0] 2 1 0 = 1 := rfl
  have hcorner : entry [1, 1, 1, 0] 2 1 1 = 0 := rfl
  have hreg : LeadingRegular 2 (entry [1, 1, 1, 0] 2) := by
    intro m hm x hsupp hker j
    by_cases hj : m ≤ j
    · exact hsupp j hj
    have hfirst : x 0 + x 1 = 0 := by
      have h0 := hker 0 (by omega)
      rwa [hmul, htop 0 (by decide), htop 1 (by decide), one_mul, one_mul] at h0
    have hsecond : x 1 = 0 := by
      rcases (by omega : m = 1 ∨ m = 2) with rfl | rfl
      · exact hsupp 1 le_rfl
      · have h1 := hker 1 (by decide)
        rw [hmul, hleft, hcorner, one_mul, zero_mul, add_zero] at h1
        rwa [h1, zero_add] at hfirst
    rw [hsecond, add_zero] at hfirst
    rcases (by omega : j = 0 ∨ j = 1) with rfl | rfl
    · exact hfirst
    · exact hsecond
  have hunit : IsUnit (block 2 (entry [1, 1, 1, 0] 2)) := by
    have hdet : (block 2 (entry [1, 1, 1, 0] 2)).det = 1 * 0 - 1 * 1 := Matrix.det_fin_two _
    rw [Matrix.isUnit_iff_isUnit_det, hdet, mul_zero, zero_sub, one_mul]
    exact isUnit_one.neg
  have hboth := invertMatrix_inverts (k := 2) (m := [1, 1, 1, 0]) rfl
  exact ⟨hboth.1 hreg.onDiagonal, (hboth.2 hunit).2.mp hreg.onDiagonal⟩

/-- The matrix with rows `0 2` and `1 0` is turned into the one with rows `0 1` and `2 0`. -/
theorem invertMatrix_offDiagonal :
    ¬∀ k, 1 ≤ k → ∀ m : List UInt8, m.length = k * k → Inverts k m := by
  intro hall
  have hok : invertMatrix [0, 2, 1, 0] 2 = .ok [0, 1, 2, 0] := by rfl
  have hinv := (hall 2 (by decide) [0, 2, 1, 0] rfl).inverse _ hok
  have hcell := congrFun (congrFun hinv 1) 1
  rw [Matrix.mul_apply, Fin.sum_univ_two] at hcell
  have hsquare : (⟨2⟩ * ⟨2⟩ + 0 * 0 : Gf) = 1 := hcell
  rw [mul_zero, add_zero] at hsquare
  exact Gf.mul_self_ne_one (fun h => absurd (congrArg Gf.val h) (by decide)) hsquare

end Storj.Ec
