import StorjUplink.Lib.Fallible
import Mathlib.Data.List.GetD
import Mathlib.Data.List.Range
import Mathlib.Tactic.Ring

/-!
# Buffers

A mutable slice is a list read with a default and written with `List.set`; a counted loop is a
fold over `List.range`.  These are the few facts such a loop's proof uses: what a write changes,
what a tabulated buffer holds, and the induction rules that carry an invariant through the loop,
upward, downward, and through a loop that may fail.

The proofs about loops use three kinds of facts.  The first is what one write does at one index,
where `getD_set_self` and `getD_set_ne` leave nothing else to say.  The second is the calculus of
slices: reading back what was spliced, slicing a slice, laying adjacent slices end to end.  The
third is the loop rules, which ask for an invariant indexed by the number of turns and give it back
at the end; the fallible one gives in addition that no turn stopped the loop.

`concat` and `concatM` are the two shapes in which a program goes through a buffer in blocks of one
width, and `overlap` is what a reader of a range keeps of one block of a longer body.  Two buffers
are equal when their lengths and their entries are (`ext_getD`), which is how a loop that writes in
an odd order is compared with a plain description of its result.
-/

namespace Buffer

variable {α σ : Type*}

lemma getD_set_self {l : List α} {i : ℕ} (h : i < l.length) (a d : α) :
    (l.set i a).getD i d = a := by
  simp [List.getD_eq_getElem?_getD, h]

lemma getD_set_ne {l : List α} {i j : ℕ} (h : i ≠ j) (a d : α) :
    (l.set i a).getD j d = l.getD j d := by
  simp [List.getD_eq_getElem?_getD, List.getElem?_set_ne h]

lemma getD_map_range (f : ℕ → α) {n i : ℕ} (h : i < n) (d : α) :
    ((List.range n).map f).getD i d = f i := by
  simp [List.getD_eq_getElem?_getD, h]

lemma getD_map_of_lt {β : Type*} (f : α → β) {l : List α} {i : ℕ} (h : i < l.length) (d : α)
    (e : β) : (l.map f).getD i e = f (l.getD i d) := by
  simp [List.getD_eq_getElem?_getD, h]

lemma zipIdx_eq_map_range (l : List α) (d : α) :
    l.zipIdx = (List.range l.length).map fun i => (l.getD i d, i) := by
  refine List.ext_getElem (by simp) fun i hi _ => ?_
  rw [List.length_zipIdx] at hi
  rw [List.getElem_zipIdx, List.getElem_map, List.getElem_range, List.getD_eq_getElem _ _ hi,
    Nat.zero_add]

/-- Two buffers of one length with the same entries are the same. -/
lemma ext_getD {l l' : List α} (d : α) (hlen : l.length = l'.length)
    (h : ∀ i < l.length, l.getD i d = l'.getD i d) : l = l' := by
  apply List.ext_getElem hlen
  intro i hi hi'
  simpa only [List.getD_eq_getElem, hi, hi'] using h i hi

/-- **The loop rule.**  What one turn carries from `i` to `i + 1`, the loop carries from `0` to
`n`. -/
theorem foldl_range_induction {f : σ → ℕ → σ} {P : ℕ → σ → Prop} {s : σ} {n : ℕ} (h0 : P 0 s)
    (hstep : ∀ i < n, ∀ t, P i t → P (i + 1) (f t i)) : P n ((List.range n).foldl f s) := by
  have hall : ∀ m ≤ n, P m ((List.range m).foldl f s) := by
    intro m
    induction m with
    | zero => intro _; simpa using h0
    | succ m ih =>
        intro hm
        rw [List.range_succ, List.foldl_append]
        exact hstep m hm _ (ih (by omega))
  exact hall n le_rfl

/-- The loop rule for a loop that counts down: from `n` to `0`. -/
theorem foldl_range_reverse_induction {f : σ → ℕ → σ} {P : ℕ → σ → Prop} {s : σ} {n : ℕ}
    (hn : P n s) (hstep : ∀ i < n, ∀ t, P (i + 1) t → P i (f t i)) :
    P 0 ((List.range n).reverse.foldl f s) := by
  induction n generalizing s with
  | zero => simpa using hn
  | succ n ih =>
      rw [List.range_succ, List.reverse_append, List.reverse_singleton, List.singleton_append,
        List.foldl_cons]
      exact ih (hstep n (Nat.lt_succ_self n) s hn) fun i hi => hstep i (by omega)

/-- The loop rule for a loop whose turns may fail: under the invariant none does. -/
theorem foldlM_range_induction {ε : Type*} {f : σ → ℕ → Except ε σ} {P : ℕ → σ → Prop} {s : σ}
    {n : ℕ} (h0 : P 0 s) (hstep : ∀ i < n, ∀ t, P i t → ∃ t', f t i = .ok t' ∧ P (i + 1) t') :
    ∃ t, (List.range n).foldlM f s = .ok t ∧ P n t := by
  have hall : ∀ m ≤ n, ∃ t, (List.range m).foldlM f s = .ok t ∧ P m t := by
    intro m
    induction m with
    | zero => intro _; exact ⟨s, rfl, h0⟩
    | succ m ih =>
        intro hm
        obtain ⟨t, ht, hP⟩ := ih (by omega)
        obtain ⟨t', ht', hP'⟩ := hstep m hm t hP
        refine ⟨t', ?_, hP'⟩
        rw [List.range_succ, List.foldlM_append, ht, Fallible.ok_bind, List.foldlM_cons, ht']
        rfl
  exact hall n le_rfl

/-- A search through the indices: the first one that has an answer, or none has. -/
lemma findSome?_range {β : Type*} (f : ℕ → Option β) (n : ℕ) :
    (∃ i < n, ∃ b, (List.range n).findSome? f = some b ∧ f i = some b ∧ ∀ j < i, f j = none) ∨
      ((List.range n).findSome? f = none ∧ ∀ i < n, f i = none) := by
  induction n with
  | zero => exact .inr ⟨rfl, by simp⟩
  | succ n ih =>
      rw [List.range_succ, List.findSome?_append]
      rcases ih with ⟨i, hi, b, hfind, hb, hbefore⟩ | ⟨hfind, hnone⟩
      · exact .inl ⟨i, by omega, b, by rw [hfind, Option.some_or], hb, hbefore⟩
      · rw [hfind, Option.none_or]
        cases hn : f n with
        | some b => exact .inl ⟨n, by omega, b, by simp [hn], hn, hnone⟩
        | none =>
            refine .inr ⟨by simp [hn], fun i hi => ?_⟩
            rcases Nat.lt_succ_iff_lt_or_eq.mp hi with hlt | rfl
            · exact hnone i hlt
            · exact hn

/-! ## Sub-slices

`slice` reads a stretch and `splice` overwrites one.  Both are total: past the end a slice is
short, and the lemmas ask for the bound where a program would have checked it.
-/

/-- `buf[off..off + len]`. -/
def slice (buf : List α) (off len : ℕ) : List α :=
  (buf.drop off).take len

/-- `buf[off..off + src.len()].copy_from_slice(src)`. -/
def splice (buf : List α) (off : ℕ) (src : List α) : List α :=
  buf.take off ++ src ++ buf.drop (off + src.length)

lemma length_slice {buf : List α} {off len : ℕ} (h : off + len ≤ buf.length) :
    (slice buf off len).length = len := by
  simp only [slice, List.length_take, List.length_drop]
  omega

lemma getD_slice (buf : List α) (off : ℕ) {len p : ℕ} (h : p < len) (d : α) :
    (slice buf off len).getD p d = buf.getD (off + p) d := by
  simp [slice, List.getD_eq_getElem?_getD, h]

lemma length_splice {buf src : List α} {off : ℕ} (h : off + src.length ≤ buf.length) :
    (splice buf off src).length = buf.length := by
  simp only [splice, List.length_append, List.length_take, List.length_drop]
  omega

lemma getD_splice_of_mem {buf src : List α} {off p : ℕ} (h : off + src.length ≤ buf.length)
    (hp : p < src.length) (d : α) : (splice buf off src).getD (off + p) d = src.getD p d := by
  have hlen : (buf.take off).length = off := by
    rw [List.length_take]
    omega
  rw [splice, List.append_assoc, List.getD_append_right _ _ _ _ (by omega), hlen,
    Nat.add_sub_cancel_left, List.getD_append _ _ _ _ hp]

lemma getD_splice_of_notMem {buf src : List α} {off p : ℕ} (h : off + src.length ≤ buf.length)
    (hp : p < off ∨ off + src.length ≤ p) (d : α) :
    (splice buf off src).getD p d = buf.getD p d := by
  have hlen : (buf.take off).length = off := by
    rw [List.length_take]
    omega
  rw [splice, List.append_assoc]
  rcases hp with hp | hp
  · rw [List.getD_append _ _ _ _ (by omega)]
    simp [List.getD_eq_getElem?_getD, hp]
  · rw [List.getD_append_right _ _ _ _ (by omega), List.getD_append_right _ _ _ _ (by omega), hlen]
    simp only [List.getD_eq_getElem?_getD, List.getElem?_drop]
    congr 2
    omega

/-- Writing back what was read. -/
lemma splice_slice {buf : List α} {off len : ℕ} (h : off + len ≤ buf.length) :
    splice buf off (slice buf off len) = buf := by
  rw [splice, length_slice h, slice, ← List.drop_drop, List.append_assoc, List.take_append_drop,
    List.take_append_drop]

lemma slice_zero_length (buf : List α) : slice buf 0 buf.length = buf := by
  simp [slice]

/-- A slice of a slice. -/
lemma slice_slice (buf : List α) (a : ℕ) {b m n : ℕ} (h : b + n ≤ m) :
    slice (slice buf a m) b n = slice buf (a + b) n := by
  simp only [slice, List.drop_take, List.drop_drop, List.take_take]
  congr 1
  omega

/-- A slice inside the first half of an append. -/
lemma slice_append_left {l r : List α} {a n : ℕ} (h : a + n ≤ l.length) :
    slice (l ++ r) a n = slice l a n := by
  simp only [slice]
  rw [List.drop_append_of_le_length (by omega), List.take_append_of_le_length]
  rw [List.length_drop]
  omega

/-- Adjacent slices. -/
lemma slice_add (buf : List α) (a m n : ℕ) :
    slice buf a (m + n) = slice buf a m ++ slice buf (a + m) n := by
  simp only [slice, List.take_add, List.drop_drop]

/-- Consecutive slices of one width make up one slice. -/
lemma flatMap_slice (buf : List α) (a w m : ℕ) :
    ((List.range m).flatMap fun i => slice buf (a + i * w) w) = slice buf a (m * w) := by
  induction m with
  | zero => simp [slice]
  | succ m ih =>
      rw [List.range_succ, List.flatMap_append, ih, List.flatMap_singleton, Nat.succ_mul, slice_add]

/-- Reading back what was written. -/
lemma slice_splice_self {buf src : List α} {off : ℕ} (h : off + src.length ≤ buf.length) :
    slice (splice buf off src) off src.length = src := by
  have hlen : (buf.take off).length = off := by
    rw [List.length_take]
    omega
  rw [splice, slice, List.append_assoc, List.drop_append_of_le_length hlen.ge, List.drop_of_length_le
    hlen.le, List.nil_append, List.take_append_of_le_length le_rfl, List.take_length]

/-- Reading before what was written. -/
lemma slice_splice_left {buf src : List α} {off a n : ℕ} (h : off + src.length ≤ buf.length)
    (han : a + n ≤ off) : slice (splice buf off src) a n = slice buf a n := by
  have hlen : (buf.take off).length = off := by
    rw [List.length_take]
    omega
  have hsplit : buf = buf.take off ++ buf.drop off := (List.take_append_drop off buf).symm
  rw [splice, List.append_assoc, slice_append_left (by omega)]
  conv_rhs => rw [hsplit]
  rw [slice_append_left (by omega)]

/-! ## Blocks of one width

A loop that handles one block at a time has written the first `d` blocks after `d` turns, and its
buffer still has its old length (`Written`).  At the end the blocks lie end to end.
-/

/-- The blocks `f 0, …, f (n - 1)`, laid end to end. -/
def concat (n : ℕ) (f : ℕ → List α) : List α := (List.range n).flatMap f

@[simp] lemma concat_zero (f : ℕ → List α) : concat 0 f = [] := rfl

lemma concat_succ (n : ℕ) (f : ℕ → List α) : concat (n + 1) f = concat n f ++ f n := by
  rw [concat, List.range_succ, List.flatMap_append, List.flatMap_singleton, concat]

lemma concat_congr {n : ℕ} {f g : ℕ → List α} (h : ∀ i < n, f i = g i) :
    concat n f = concat n g := by
  induction n with
  | zero => rfl
  | succ n ih =>
      rw [concat_succ, concat_succ, ih fun i hi => h i (by omega), h n (Nat.lt_succ_self n)]

lemma length_concat {w n : ℕ} {f : ℕ → List α} (h : ∀ i < n, (f i).length = w) :
    (concat n f).length = n * w := by
  induction n with
  | zero => simp
  | succ n ih =>
      rw [concat_succ, List.length_append, ih fun i hi => h i (by omega), h n (Nat.lt_succ_self n),
        Nat.succ_mul]

/-- Block `i` of the blocks laid end to end. -/
lemma slice_concat {w n : ℕ} {f : ℕ → List α} (h : ∀ i < n, (f i).length = w) {i : ℕ}
    (hi : i < n) : slice (concat n f) (i * w) w = f i := by
  induction n with
  | zero => exact absurd hi (Nat.not_lt_zero i)
  | succ n ih =>
      have hlen : (concat n f).length = n * w := length_concat fun j hj => h j (by omega)
      rw [concat_succ]
      rcases Nat.lt_succ_iff_lt_or_eq.mp hi with hi | rfl
      · have hle : i * w + w ≤ n * w := by
          rw [← Nat.succ_mul]
          exact Nat.mul_le_mul_right w hi
        rw [slice_append_left (by omega), ih (fun j hj => h j (by omega)) hi]
      · rw [slice, List.drop_append_of_le_length (by omega), ← hlen, List.drop_length,
          List.nil_append, List.take_of_length_le (h i (Nat.lt_succ_self i)).le]

/-- A run of whole blocks. -/
lemma slice_concat_run {w n : ℕ} {f : ℕ → List α} (h : ∀ i < n, (f i).length = w) {a m : ℕ}
    (ham : a + m ≤ n) : slice (concat n f) (a * w) (m * w) = concat m fun i => f (a + i) := by
  rw [← flatMap_slice]
  refine concat_congr fun i hi => ?_
  rw [← Nat.add_mul, slice_concat h (by omega)]

/-- A buffer of `n` blocks is its blocks laid end to end. -/
lemma concat_slice {n w : ℕ} {buf : List α} (h : buf.length = n * w) :
    concat n (fun i => slice buf (i * w) w) = buf := by
  have hflat := flatMap_slice buf 0 w n
  simp only [Nat.zero_add] at hflat
  rw [concat, hflat, ← h, slice_zero_length]

/-- A buffer of `n` blocks whose first `d` are `f`'s. -/
def Written (n w : ℕ) (f : ℕ → List α) (d : ℕ) (t : List α) : Prop :=
  t.length = n * w ∧ ∀ i < d, slice t (i * w) w = f i

lemma Written.splice {n w : ℕ} {f : ℕ → List α} {d : ℕ} {t : List α} (h : Written n w f d t)
    (hd : d < n) (hf : (f d).length = w) : Written n w f (d + 1) (splice t (d * w) (f d)) := by
  obtain ⟨hlen, hblock⟩ := h
  have hle : ∀ i d : ℕ, i < d → i * w + w ≤ d * w := by
    intro i d hid
    rw [← Nat.succ_mul]
    exact Nat.mul_le_mul_right w hid
  have hsplice : d * w + (f d).length ≤ t.length := by
    rw [hf, hlen]
    exact hle d n hd
  refine ⟨(length_splice hsplice).trans hlen, ?_⟩
  intro i hi
  rcases Nat.lt_succ_iff_lt_or_eq.mp hi with hi | rfl
  · rw [← hblock i hi, slice_splice_left hsplice (hle i d hi)]
  · have hself := slice_splice_self hsplice
    rwa [hf] at hself

lemma Written.eq_concat {n w : ℕ} {f : ℕ → List α} {t : List α} (h : Written n w f n t) :
    t = concat n f := by
  rw [← concat_slice h.1]
  exact concat_congr h.2

/-- A loop that overwrites block after block leaves the blocks laid end to end. -/
lemma foldl_splice_blocks {n w : ℕ} {buf : List α} {g : List α → ℕ → List α}
    {f : ℕ → List α} (hbuf : buf.length = n * w) (hf : ∀ i < n, (f i).length = w)
    (hg : ∀ i < n, ∀ t, g t i = splice t (i * w) (f i)) :
    (List.range n).foldl g buf = concat n f := by
  refine Written.eq_concat (w := w) (foldl_range_induction (P := Written n w f) ⟨hbuf, by simp⟩ ?_)
  intro d hd t ht
  rw [hg d hd]
  exact ht.splice hd (hf d hd)

/-- The same for a loop whose turns may fail and do not. -/
lemma foldlM_splice_blocks {ε : Type*} {n w : ℕ} {buf : List α}
    {g : List α → ℕ → Except ε (List α)} {f : ℕ → List α} (hbuf : buf.length = n * w)
    (hf : ∀ i < n, (f i).length = w)
    (hg : ∀ i < n, ∀ t : List α, t.length = n * w → g t i = .ok (splice t (i * w) (f i))) :
    (List.range n).foldlM g buf = .ok (concat n f) := by
  obtain ⟨t, ht, hw⟩ := foldlM_range_induction (P := Written n w f) (f := g) (s := buf) (n := n)
    ⟨hbuf, by simp⟩ (by
      intro d hd t ht
      exact ⟨_, hg d hd t ht.1, ht.splice hd (hf d hd)⟩)
  rw [ht, hw.eq_concat]

/-- The loop that appends one block after another and stops at the first that fails. -/
def concatM {ε : Type*} (n : ℕ) (f : ℕ → Except ε (List α)) : Except ε (List α) :=
  (List.range n).foldlM (fun out i => f i >>= fun block => .ok (out ++ block)) []

lemma concatM_succ {ε : Type*} (n : ℕ) (f : ℕ → Except ε (List α)) :
    concatM (n + 1) f = concatM n f >>= fun out => f n >>= fun block => .ok (out ++ block) := by
  rw [concatM, List.range_succ, List.foldlM_append]
  congr 1
  funext out
  rw [List.foldlM_cons]
  cases f n with
  | error e => rfl
  | ok block => rfl

lemma concatM_congr {ε : Type*} {n : ℕ} {f g : ℕ → Except ε (List α)} (h : ∀ i < n, f i = g i) :
    concatM n f = concatM n g := by
  induction n with
  | zero => rfl
  | succ n ih =>
      rw [concatM_succ, concatM_succ, ih fun i hi => h i (by omega), h n (Nat.lt_succ_self n)]

/-- The loop succeeds when every block does, with the blocks laid end to end. -/
lemma concatM_eq_ok_of {ε : Type*} {n : ℕ} {f : ℕ → Except ε (List α)} {g : ℕ → List α}
    (h : ∀ i < n, f i = .ok (g i)) : concatM n f = .ok (concat n g) := by
  induction n with
  | zero => rfl
  | succ n ih =>
      rw [concatM_succ, ih fun i hi => h i (by omega), Fallible.ok_bind, h n (Nat.lt_succ_self n),
        Fallible.ok_bind, concat_succ]

/-- A loop that succeeded is one in which every block did. -/
lemma exists_of_concatM_eq_ok {ε : Type*} {n : ℕ} {f : ℕ → Except ε (List α)} {out : List α}
    (h : concatM n f = .ok out) : ∃ g : ℕ → List α, (∀ i < n, f i = .ok (g i)) ∧
      out = concat n g := by
  have hall : ∀ i < n, ∃ b, f i = .ok b := by
    induction n generalizing out with
    | zero => intro i hi; exact absurd hi (Nat.not_lt_zero i)
    | succ n ih =>
        intro i hi
        rw [concatM_succ] at h
        obtain ⟨a, ha, hrest⟩ := Fallible.bind_eq_ok.mp h
        obtain ⟨b, hb, -⟩ := Fallible.bind_eq_ok.mp hrest
        rcases Nat.lt_succ_iff_lt_or_eq.mp hi with hi | rfl
        · exact ih ha i hi
        · exact ⟨b, hb⟩
  choose! g hg using hall
  refine ⟨g, hg, ?_⟩
  rw [concatM_eq_ok_of hg] at h
  exact (Except.ok.inj h).symm

/-- A loop that failed has a first block that did. -/
lemma exists_of_concatM_eq_error {ε : Type*} {n : ℕ} {f : ℕ → Except ε (List α)} {e : ε}
    (h : concatM n f = .error e) : ∃ i < n, f i = .error e := by
  induction n with
  | zero => cases h
  | succ n ih =>
      rw [concatM_succ] at h
      cases hn : concatM n f with
      | error e' =>
          rw [hn] at h
          cases h
          obtain ⟨i, hi, hfi⟩ := ih hn
          exact ⟨i, by omega, hfi⟩
      | ok out =>
          rw [hn, Fallible.ok_bind] at h
          cases hf : f n with
          | error e' =>
              rw [hf] at h
              cases h
              exact ⟨n, Nat.lt_succ_self n, hf⟩
          | ok block =>
              rw [hf] at h
              cases h

/-- What adds nothing may be left out. -/
lemma flatMap_filter {β : Type*} {p : α → Bool} {f : α → List β} {l : List α}
    (h : ∀ a ∈ l, ¬p a = true → f a = []) : (l.filter p).flatMap f = l.flatMap f := by
  induction l with
  | nil => rfl
  | cons a l ih =>
      have hrest := ih fun b hb => h b (List.mem_cons_of_mem _ hb)
      by_cases ha : p a = true
      · rw [List.filter_cons_of_pos ha, List.flatMap_cons, hrest, List.flatMap_cons]
      · rw [List.filter_cons_of_neg ha, hrest, List.flatMap_cons, h a List.mem_cons_self ha,
          List.nil_append]

/-! ## A window over consecutive blocks

A range of a long body shows a part of each block that it meets.  `overlap` is that part, as a
function of the block and of where it starts, and the window over the whole is the windows over the
blocks, laid end to end.
-/

/-- The part of a block that starts at position `off` which the window `a .. a + n` shows. -/
def overlap (a n off : ℕ) (b : List α) : List α := (b.drop (a - off)).take (a + n - max a off)

@[simp] lemma overlap_nil (a n off : ℕ) : overlap a n off ([] : List α) = [] := by simp [overlap]

/-- A window over the whole buffer is a slice. -/
lemma overlap_zero (a n : ℕ) (b : List α) : overlap a n 0 b = slice b a n := by
  rw [overlap, slice, Nat.sub_zero, Nat.max_zero, Nat.add_sub_cancel_left]

/-- **A window over two consecutive blocks** shows its part of the first, then its part of the
second. -/
lemma overlap_append (a n off : ℕ) (b c : List α) :
    overlap a n off (b ++ c) = overlap a n off b ++ overlap a n (off + b.length) c := by
  have hdrop : a - off - b.length = a - (off + b.length) := by omega
  have htake : a + n - max a off - (b.length - (a - off)) = a + n - max a (off + b.length) := by
    omega
  rw [overlap, overlap, overlap, List.drop_append, List.take_append, List.length_drop, hdrop, htake]

/-- Where the window meets the block. -/
lemma overlap_eq_slice (a n off : ℕ) (b : List α) :
    overlap a n off b = slice b (max a off - off) (min (a + n) (off + b.length) - max a off) := by
  rw [overlap, slice, show max a off - off = a - off by omega]
  rcases Nat.le_total (a + n) (off + b.length) with hle | hle
  · rw [Nat.min_eq_left hle]
  · rw [Nat.min_eq_right hle, List.take_of_length_le, List.take_of_length_le]
    · rw [List.length_drop]
      omega
    · rw [List.length_drop]
      omega

/-- Where it does not. -/
lemma overlap_eq_nil {a n off : ℕ} {b : List α} (h : min (a + n) (off + b.length) ≤ max a off) :
    overlap a n off b = [] := by
  rw [overlap, ← List.length_eq_zero_iff, List.length_take, List.length_drop]
  omega

/-! ## Row-major indices

A matrix in memory is a flat buffer.  A row is a stretch of it, so that writes to different rows do
not meet.
-/

/-- Distinct cells of a row-major matrix have distinct indices. -/
lemma rowMajor_inj {k i i' j j' : ℕ} (hj : j < k) (hj' : j' < k) (h : i * k + j = i' * k + j') :
    i = i' ∧ j = j' := by
  have hk : 0 < k := by omega
  have hdiv := congrArg (· / k) h
  have hmod := congrArg (· % k) h
  simp only [Nat.mul_comm i k, Nat.mul_comm i' k, Nat.mul_add_div hk, Nat.div_eq_of_lt hj,
    Nat.div_eq_of_lt hj', Nat.mul_add_mod, Nat.mod_eq_of_lt hj, Nat.mod_eq_of_lt hj'] at hdiv hmod
  exact ⟨by omega, hmod⟩

/-- Row `i` ends before the buffer does. -/
lemma rowMajor_le {k r i : ℕ} (hi : i < r) : i * k + k ≤ r * k := by
  rw [← Nat.succ_mul]
  exact Nat.mul_le_mul_right k hi

/-- A cell outside row `i` lies before or after it. -/
lemma rowMajor_outside {k i i' j : ℕ} (hj : j < k) (h : i' ≠ i) :
    i' * k + j < i * k ∨ i * k + k ≤ i' * k + j := by
  rcases Nat.lt_or_gt_of_ne h with h | h
  · have := rowMajor_le (k := k) h
    omega
  · have := rowMajor_le (k := k) h
    omega

end Buffer
