import StorjUplink.Ec.Matrix

/-!
# The Reed–Solomon codec

`fec.rs` of the erasure-coding crate: a stripe of `k * share_size` bytes becomes `n` shares, the
first `k` of which are the stripe itself, and any `k` shares give the stripe back.  The decoder
plans first: it assigns a share to each of `k` slots, builds the matrix of those shares' generator
rows and inverts it, and then applies the inverse to as many stripes as it is given.

The argument has three parts.  `generator` is the matrix of values of the cardinal polynomials at
the code's points, and both the encoder and the plan's matrix hold its rows (`encMatrix_entry`,
`encodeStripe_spec`).  The slot-filling loop puts share `i` in slot `i` or a parity share there,
and never the same share twice (`Slots`); that is what `Interpolation.leadingRegular_of_cardinal`
asks for, so the inversion cannot fail.  What remains is that the decoder applies the inverse byte
position by byte position.
-/

namespace Storj.Ec

open Buffer

/-- `Error` of the crate, with the data its messages print. -/
inductive EcError where
  | invalidParams (k n shareSize : ℕ)
  | stripeSize (got want : ℕ)
  | shareSize (index got want : ℕ)
  | tooFewShares (have' need : ℕ)
  | invalidShareIndex (index n : ℕ)
  | duplicateShare (index : ℕ)
  | shareCount (got n : ℕ)
  | reconstruct (msg : String)
deriving DecidableEq, Repr

/-! ## The encoding matrix

The constructor fills one buffer of `n` rows.  The first `k` are the identity and are written as
such; a parity cell is a sum of products that a loop accumulates with xor.
-/

/-- The buffer `temp_matrix` of `build_enc_matrix`: the inverted Vandermonde block, then the rows
of powers of the points beyond it. -/
def tempMatrix (k n : ℕ) : List UInt8 :=
  let temp := createInvertedVdm (List.replicate (n * k) 0) k
  temp.mapIdx fun i slot => if i < k * k then slot else expAt (((i / k) * (i % k)) % 255)

/-- The inner loop over `i` for one parity cell. -/
def parityCell (k : ℕ) (temp : List UInt8) (row col : ℕ) : UInt8 :=
  (List.range k).foldl
    (fun acc i => acc ^^^ mulAt (temp.getD (row + i) 0) (temp.getD (col + i * k) 0)) 0

/-- `build_enc_matrix`: `1` on the diagonal of the first `k` rows, then one parity row after
another (`row` advances by `k`). -/
def buildEncMatrix (k n : ℕ) : List UInt8 :=
  let temp := tempMatrix k n
  let enc := (List.range k).foldl (fun m i => m.set (i * (k + 1)) 1) (List.replicate (n * k) 0)
  (List.range (n - k)).foldl (fun m r =>
    let row := (k + r) * k
    (List.range k).foldl (fun m col => m.set (row + col) (parityCell k temp row col)) m) enc

/-! ## The codec

The calls of the public interface, with their checks in the order of the source, so that an error
is the first one that applies.
-/

/-- `ReedSolomon`, with the bounds that its constructor checks as fields, so that no codec with
other numbers can be made.  The matrix is the one that was built for them. -/
structure ReedSolomon where
  k : ℕ
  n : ℕ
  shareSize : ℕ
  encMatrix : List UInt8
  k_pos : 0 < k
  k_le_n : k ≤ n
  n_le : n ≤ 256
  shareSize_pos : 0 < shareSize
  encMatrix_eq : encMatrix = buildEncMatrix k n

/-- `DecodePlan`: the `k` shares that a stripe is decoded from, and the matrix that decodes them. -/
structure DecodePlan where
  k : ℕ
  shareSize : ℕ
  indexes : List ℕ
  mDec : List UInt8

namespace ReedSolomon

/-- `ReedSolomon::new`: at least one required share, no more of them than shares in all, at most 256
shares, and none of them empty. -/
def new (k n shareSize : ℕ) : Except EcError ReedSolomon :=
  if h : k = 0 ∨ shareSize = 0 ∨ n < k ∨ n > 256 then .error (.invalidParams k n shareSize)
  else .ok {
    k, n, shareSize
    encMatrix := buildEncMatrix k n
    k_pos := by omega
    k_le_n := by omega
    n_le := by omega
    shareSize_pos := by omega
    encMatrix_eq := rfl }

variable (rs : ReedSolomon)

/-- `stripe_size`. -/
def stripeSize : ℕ := rs.k * rs.shareSize

/-- `check_stripe`: a stripe has exactly `k` shares of bytes. -/
def checkStripe (stripe : List UInt8) : Except EcError Unit :=
  if stripe.length ≠ rs.stripeSize then .error (.stripeSize stripe.length rs.stripeSize) else .ok ()

/-- `encode_share_unchecked`: one of the first `k` shares is its block of the stripe, and any other
one is summed up from all blocks with the coefficients of its row. -/
def encodeShareUnchecked (stripe : List UInt8) (index : ℕ) (out : List UInt8) : List UInt8 :=
  if index < rs.k then slice stripe (index * rs.shareSize) rs.shareSize
  else (List.range rs.k).foldl
    (fun out j => addmul out (slice stripe (j * rs.shareSize) rs.shareSize)
      (rs.encMatrix.getD (index * rs.k + j) 0))
    (List.replicate out.length 0)

/-- `encode_stripe_into`: all `n` shares into the buffers of the caller, after the lengths of the
stripe and of every buffer were checked. -/
def encodeStripeInto (stripe : List UInt8) (shares : List (List UInt8)) :
    Except EcError (List (List UInt8)) := do
  rs.checkStripe stripe
  if shares.length ≠ rs.n then .error (.shareCount shares.length rs.n)
  else shares.zipIdx.mapM fun (out, i) =>
    if out.length ≠ rs.shareSize then .error (.shareSize i out.length rs.shareSize)
    else .ok (rs.encodeShareUnchecked stripe i out)

/-- `encode_stripe`: the stripe encoded into fresh shares. -/
def encodeStripe (stripe : List UInt8) : Except EcError (List (List UInt8)) :=
  rs.encodeStripeInto stripe (List.replicate rs.n (List.replicate rs.shareSize 0))

/-- The mutable state of the slot loop of `plan_from_sorted`. -/
structure SlotLoop where
  mDec : List UInt8
  indexes : List ℕ
  b : ℕ
  e : ℕ

/-- One turn: slot `i` takes share `i` if it is next from the front, else the last share left. -/
def slotStep (ids : List ℕ) (s : SlotLoop) (i : ℕ) : SlotLoop :=
  let front := s.b < s.e ∧ ids.getD s.b 0 = i
  let b := if front then s.b + 1 else s.b
  let e := if front then s.e else s.e - 1
  let shareId := if front then ids.getD s.b 0 else ids.getD e 0
  let mDec := if shareId < rs.k then s.mDec.set (i * (rs.k + 1)) 1
    else splice s.mDec (i * rs.k) (slice rs.encMatrix (shareId * rs.k) rs.k)
  { mDec, indexes := s.indexes.set i shareId, b, e }

/-- `plan_from_sorted`: the slots are filled one after the other, and the matrix of the shares in
them is inverted.  It can fail only if that matrix is singular. -/
def planFromSorted (ids : List ℕ) : Except EcError DecodePlan :=
  let s := (List.range rs.k).foldl (rs.slotStep ids)
    ⟨List.replicate (rs.k * rs.k) 0, List.replicate rs.k 0, 0, ids.length⟩
  match invertMatrix s.mDec rs.k with
  | .error msg => .error (.reconstruct msg)
  | .ok mDec => .ok { k := rs.k, shareSize := rs.shareSize, indexes := s.indexes, mDec }

end ReedSolomon

/-- The `windows(2)` scan: the first index equal to its successor. -/
def firstDuplicate : List ℕ → Option ℕ
  | a :: b :: rest => if a = b then some a else firstDuplicate (b :: rest)
  | _ => none

namespace ReedSolomon

variable (rs : ReedSolomon)

/-- `decode_plan`: enough shares, every index below `n`, none of them twice; then a plan for the
sorted indexes. -/
def decodePlan (available : List ℕ) : Except EcError DecodePlan := do
  if available.length < rs.k then .error (.tooFewShares available.length rs.k)
  else
    let _ ← available.mapM fun index =>
      if index ≥ rs.n then Except.error (.invalidShareIndex index rs.n) else .ok index
    let ids := available.mergeSort
    match firstDuplicate ids with
    | some index => .error (.duplicateShare index)
    | none => rs.planFromSorted ids

end ReedSolomon

/-- One turn of the loop of `decode_into`: slot `i` is copied to its data block, or rebuilt in its
own place from all shares. -/
def DecodePlan.decodeSlot (plan : DecodePlan) (shares : List (List UInt8)) (out : List UInt8)
    (i : ℕ) : List UInt8 :=
  let id := plan.indexes.getD i 0
  if id < plan.k then splice out (id * plan.shareSize) (shares.getD i [])
  else
    let dest := shares.zipIdx.foldl
      (fun dest (share, col) => addmul dest share (plan.mDec.getD (i * plan.k + col) 0))
      (List.replicate plan.shareSize 0)
    splice out (i * plan.shareSize) dest

/-- `DecodePlan::decode_into`: one stripe from the shares that the plan names, in its order.  Number
and lengths of the shares and the length of the output are checked first. -/
def DecodePlan.decodeInto (plan : DecodePlan) (shares : List (List UInt8)) (out : List UInt8) :
    Except EcError (List UInt8) := do
  if shares.length ≠ plan.k then .error (.tooFewShares shares.length plan.k)
  else
    let _ ← shares.zipIdx.mapM fun (s, i) =>
      if s.length ≠ plan.shareSize then
        Except.error (.shareSize (plan.indexes.getD i 0) s.length plan.shareSize)
      else .ok ()
    if out.length ≠ plan.k * plan.shareSize then
      .error (.stripeSize out.length (plan.k * plan.shareSize))
    else .ok ((List.range plan.k).foldl (plan.decodeSlot shares) out)

namespace ReedSolomon

variable (rs : ReedSolomon)

/-- `rebuild`: the plan over the numbers of the shares that are left, and one stripe decoded by it.
-/
def rebuild (shares : List (ℕ × List UInt8)) : Except EcError (List UInt8) := do
  let plan ← rs.planFromSorted (shares.map (·.1))
  let sharesv := plan.indexes.map fun id =>
    ((shares.find? fun s => s.1 == id).map (·.2)).getD []
  plan.decodeInto sharesv (List.replicate rs.stripeSize 0)

/-- `decode_from`: the stripe from any shares with their indexes, which are sorted and looked
through for duplicates before the first `k` are planned with. -/
def decodeFrom (shares : List (ℕ × List UInt8)) : Except EcError (List UInt8) := do
  if shares.length < rs.k then .error (.tooFewShares shares.length rs.k)
  else
    let ordered ← shares.mapM fun (index, data) =>
      if index ≥ rs.n then Except.error (.invalidShareIndex index rs.n)
      else if data.length ≠ rs.shareSize then .error (.shareSize index data.length rs.shareSize)
      else .ok (index, data)
    let ordered := ordered.mergeSort fun s t => s.1 ≤ t.1
    match firstDuplicate (ordered.map (·.1)) with
    | some index => .error (.duplicateShare index)
    | none => rs.rebuild ordered

/-- `decode_stripe`: one place for each share of the code, empty where it is missing; those that are
there go to `decode_from`. -/
def decodeStripe (shares : List (Option (List UInt8))) : Except EcError (List UInt8) := do
  if shares.length ≠ rs.n then .error (.shareCount shares.length rs.n)
  else
    let slots ← shares.zipIdx.mapM fun (s, i) =>
      match s with
      | none => Except.ok none
      | some data =>
          if data.length ≠ rs.shareSize then .error (.shareSize i data.length rs.shareSize)
          else .ok (some (i, data))
    rs.decodeFrom (slots.filterMap id)

end ReedSolomon

/-! ## The generator matrix

The rows of `build_enc_matrix` are values of polynomials of degree below `k`.  This is the only
place where the Vandermonde construction is looked into; from here on a row is known by its point.
-/

/-- The cardinal polynomials that `build_enc_matrix` works from. -/
noncomputable def cardinalPoly (k n c : ℕ) : Polynomial Gf :=
  Interpolation.ofCoeffs k fun i => entry (createInvertedVdm (List.replicate (n * k) 0) k) k i c

/-- The generator: the values of the cardinal polynomials at the points of the code. -/
noncomputable def generator (k n r c : ℕ) : Gf :=
  (cardinalPoly k n c).eval (points r)

lemma cardinalPoly_cardinal {k n : ℕ} (hk : 0 < k) (hkn : k ≤ n) (hn : n ≤ 256) :
    Interpolation.Cardinal k points (cardinalPoly k n) := by
  refine createInvertedVdm_cardinal hk (hkn.trans hn) ?_
  rw [List.length_replicate]
  exact Nat.mul_le_mul_right k hkn

/-- The generator is systematic. -/
lemma generator_of_lt {k n r c : ℕ} (hk : 0 < k) (hkn : k ≤ n) (hn : n ≤ 256) (hr : r < k)
    (hc : c < k) : generator k n r c = if r = c then 1 else 0 :=
  (cardinalPoly_cardinal hk hkn hn).eval_node r hr c hc

/-- On a data point the generator reads the message off. -/
lemma mulVec_generator_of_lt {k n i : ℕ} (hk : 0 < k) (hkn : k ≤ n) (hn : n ≤ 256) (hi : i < k)
    (x : ℕ → Gf) : Sweep.mulVec k (generator k n) x i = x i := by
  rw [Sweep.mulVec, Finset.sum_eq_single i]
  · rw [generator_of_lt hk hkn hn hi hi, if_pos rfl, one_mul]
  · intro j hj hne
    rw [generator_of_lt hk hkn hn hi (Finset.mem_range.mp hj), if_neg hne.symm, zero_mul]
  · intro h
    exact absurd (Finset.mem_range.mpr hi) h

lemma length_tempMatrix {k n : ℕ} (hk : 0 < k) (hkn : k ≤ n) (hn : n ≤ 256) :
    (tempMatrix k n).length = n * k := by
  obtain ⟨k, rfl⟩ : ∃ m, k = m + 1 := ⟨k - 1, by omega⟩
  have hv : (k + 1) * (k + 1) ≤ (List.replicate (n * (k + 1)) (0 : UInt8)).length := by
    rw [List.length_replicate]
    exact Nat.mul_le_mul_right _ hkn
  have hlen := (entry_createInvertedVdm (by omega) hv).1
  rw [tempMatrix, List.length_mapIdx, hlen, List.length_replicate]

lemma getD_mapIdx {α : Type*} (f : ℕ → α → α) {l : List α} {i : ℕ} (h : i < l.length) (d : α) :
    (l.mapIdx f).getD i d = f i (l.getD i d) := by
  simp [List.getD_eq_getElem?_getD, h]

/-- A parity row of `temp_matrix` holds the powers of its point. -/
lemma entry_tempMatrix_parity {k n r i : ℕ} (hk : 0 < k) (hkn : k ≤ n) (hn : n ≤ 256)
    (hkr : k ≤ r) (hr : r < n) (hi : i < k) : entry (tempMatrix k n) k r i = points r ^ i := by
  have hlen := length_tempMatrix hk hkn hn
  have hrow := rowMajor_le (k := k) hr
  have hge : k * k ≤ r * k := Nat.mul_le_mul_right k hkr
  have hexp : (expAt ((r * i) % 255)) = antilog (r * i) := by
    have := Nat.mod_lt (r * i) (show 0 < 255 by omega)
    rw [expAt_eq (by omega), antilog_mod]
  rw [tempMatrix, List.length_mapIdx] at hlen
  have hget : (tempMatrix k n).getD (r * k + i) 0 = antilog (r * i) := by
    rw [tempMatrix, getD_mapIdx _ (by omega), if_neg (by omega), ← hexp]
    congr 2
    rw [Nat.mul_comm r k, Nat.mul_add_div hk, Nat.div_eq_of_lt hi, Nat.mul_add_mod,
      Nat.mod_eq_of_lt hi, Nat.add_zero]
  rw [entry, hget, points, if_neg (by omega), ← pow_mul, Gf.gen_pow]

/-- The Vandermonde block of `temp_matrix` is untouched by the second loop. -/
lemma entry_tempMatrix_block {k n i c : ℕ} (hk : 0 < k) (hkn : k ≤ n) (hn : n ≤ 256)
    (hi : i < k) (hc : c < k) :
    entry (tempMatrix k n) k i c = entry (createInvertedVdm (List.replicate (n * k) 0) k) k i c := by
  have hlen := length_tempMatrix hk hkn hn
  have hrow := rowMajor_le (k := k) hi
  have hle : k * k ≤ n * k := Nat.mul_le_mul_right k hkn
  rw [tempMatrix, List.length_mapIdx] at hlen
  refine Gf.ext ?_
  simp only [entry]
  rw [tempMatrix, getD_mapIdx _ (by omega), if_pos (by omega)]

/-- A xor accumulator is a sum. -/
lemma foldl_xor_eq_sum (k : ℕ) (f : ℕ → UInt8) (g : ℕ → Gf) (h : ∀ i < k, (⟨f i⟩ : Gf) = g i) :
    (⟨(List.range k).foldl (fun acc i => acc ^^^ f i) 0⟩ : Gf) = ∑ i ∈ Finset.range k, g i := by
  refine foldl_range_induction (P := fun m (t : UInt8) => (⟨t⟩ : Gf) = ∑ i ∈ Finset.range m, g i)
    rfl fun i hi t ht => ?_
  rw [Finset.sum_range_succ, ← ht, ← h i hi]
  rfl

/-- A parity cell is a value of a cardinal polynomial. -/
lemma parityCell_eq {k n r c : ℕ} (hk : 0 < k) (hkn : k ≤ n) (hn : n ≤ 256) (hkr : k ≤ r)
    (hr : r < n) (hc : c < k) :
    (⟨parityCell k (tempMatrix k n) (r * k) c⟩ : Gf) = generator k n r c := by
  rw [generator, cardinalPoly, Interpolation.eval_ofCoeffs]
  refine foldl_xor_eq_sum k _ _ fun i hi => ?_
  rw [← entry_tempMatrix_block hk hkn hn hi hc, ← entry_tempMatrix_parity hk hkn hn hkr hr hi,
    mul_comm (entry _ _ _ _), entry, entry, Nat.add_comm (i * k)]
  rfl

/-- Writing `1`s along the diagonal of a zeroed matrix. -/
lemma entry_diagonal {k n : ℕ} (hkn : k ≤ n) :
    let m := (List.range k).foldl (fun m i => m.set (i * (k + 1)) 1)
      (List.replicate (n * k) (0 : UInt8))
    m.length = n * k ∧ ∀ r < k, ∀ c < k, entry m k r c = if r = c then 1 else 0 := by
  have hle : k * k ≤ n * k := Nat.mul_le_mul_right k hkn
  have hinv := foldl_range_induction (n := k)
    (f := fun m i => m.set (i * (k + 1)) 1)
    (s := List.replicate (n * k) (0 : UInt8))
    (P := fun d m => m.length = n * k ∧
      ∀ r < k, ∀ c < k, entry m k r c = if r = c ∧ r < d then 1 else 0) ?_ ?_
  · refine ⟨hinv.1, fun r hr c hc => ?_⟩
    rw [hinv.2 r hr c hc]
    simp [hr]
  · refine ⟨List.length_replicate, fun r hr c hc => ?_⟩
    have hrow := rowMajor_le (k := k) hr
    rw [if_neg (by omega)]
    exact Gf.ext (List.getD_replicate _ (by omega))
  · rintro d hd m ⟨hlen, hm⟩
    have hrow := rowMajor_le (k := k) hd
    have hidx : d * (k + 1) = d * k + d := by ring
    refine ⟨by rw [List.length_set, hlen], fun r hr c hc => ?_⟩
    rw [hidx]
    by_cases hrd : r = d ∧ c = d
    · obtain ⟨rfl, rfl⟩ := hrd
      rw [if_pos (by omega)]
      exact Gf.ext (getD_set_self (by omega) _ _)
    · have hne : d * k + d ≠ r * k + c := fun h => by
        have := rowMajor_inj hd hc h
        omega
      have hiff : (r = c ∧ r < d + 1) ↔ (r = c ∧ r < d) := by omega
      simp only [hiff, ← hm r hr c hc]
      exact Gf.ext (getD_set_ne hne _ _)

/-- Overwriting row `r` cell by cell. -/
lemma entry_fillRow {m : List UInt8} {k n r : ℕ} (hm : m.length = n * k) (hr : r < n)
    (f : ℕ → UInt8) :
    let m' := (List.range k).foldl (fun m col => m.set (r * k + col) (f col)) m
    m'.length = n * k ∧ (∀ c < k, entry m' k r c = ⟨f c⟩) ∧
      ∀ r' < n, r' ≠ r → ∀ c < k, entry m' k r' c = entry m k r' c := by
  have hrow := rowMajor_le (k := k) hr
  have hinv := foldl_range_induction (n := k) (s := m)
    (f := fun m col => m.set (r * k + col) (f col))
    (P := fun d t => t.length = n * k ∧ (∀ c < d, c < k → entry t k r c = ⟨f c⟩) ∧
      ∀ r' < n, r' ≠ r → ∀ c < k, entry t k r' c = entry m k r' c)
    ⟨hm, by simp, fun _ _ _ _ _ => rfl⟩ ?_
  · exact ⟨hinv.1, fun c hc => hinv.2.1 c hc hc, hinv.2.2⟩
  · rintro d hd t ⟨hlen, hdone, hkeep⟩
    refine ⟨by rw [List.length_set, hlen], fun c hcd hc => ?_, fun r' hr' hne c hc => ?_⟩
    · rcases Nat.lt_succ_iff_lt_or_eq.mp hcd with h | rfl
      · rw [← hdone c h hc]
        exact Gf.ext (getD_set_ne (by omega) _ _)
      · exact Gf.ext (getD_set_self (by omega) _ _)
    · rw [← hkeep r' hr' hne c hc]
      refine Gf.ext (getD_set_ne (fun h => hne ?_) _ _)
      exact (rowMajor_inj hd hc h).1.symm

/-- **`build_enc_matrix` builds the generator.** -/
theorem entry_buildEncMatrix {k n : ℕ} (hk : 0 < k) (hkn : k ≤ n) (hn : n ≤ 256) :
    (buildEncMatrix k n).length = n * k ∧
      ∀ r < n, ∀ c < k, entry (buildEncMatrix k n) k r c = generator k n r c := by
  have hdiag := entry_diagonal hkn
  have hinv := foldl_range_induction (n := n - k)
    (f := fun m r => (List.range k).foldl
      (fun m col => m.set ((k + r) * k + col) (parityCell k (tempMatrix k n) ((k + r) * k) col)) m)
    (s := (List.range k).foldl (fun m i => m.set (i * (k + 1)) 1) (List.replicate (n * k) 0))
    (P := fun d m => m.length = n * k ∧
      ∀ r < k + d, r < n → ∀ c < k, entry m k r c = generator k n r c) ?_ ?_
  · exact ⟨hinv.1, fun r hr => hinv.2 r (by omega) hr⟩
  · refine ⟨hdiag.1, fun r hr _ c hc => ?_⟩
    rw [hdiag.2 r hr c hc, generator_of_lt hk hkn hn hr hc]
  · rintro d hd m ⟨hlen, hm⟩
    obtain ⟨hlen', hself, hother⟩ := entry_fillRow (r := k + d) hlen (by omega)
      (parityCell k (tempMatrix k n) ((k + d) * k))
    refine ⟨hlen', fun r hr hrn c hc => ?_⟩
    by_cases hrd : r = k + d
    · subst hrd
      rw [hself c hc, parityCell_eq hk hkn hn (by omega) hrn hc]
    · rw [hother r hrn hrd c hc]
      exact hm r (by omega) hrn c hc

/-! ## Filling the slots

The shares come sorted.  The loop takes from the front as long as the next share belongs into its
slot and else from the back, where the parity shares are.  `Slots` has the interval that is left.
-/

/-- A strictly sorted list grows at least by one a step. -/
lemma getD_add_le_of_sorted {ids : List ℕ} (hs : ids.Pairwise (· < ·)) {p q : ℕ} (hpq : p ≤ q)
    (hq : q < ids.length) : ids.getD p 0 + (q - p) ≤ ids.getD q 0 := by
  induction q, hpq using Nat.le_induction with
  | base => omega
  | succ q hpq ih =>
      have hlt : ids.getD q 0 < ids.getD (q + 1) 0 := by
        rw [List.getD_eq_getElem _ _ (by omega), List.getD_eq_getElem _ _ hq]
        exact List.pairwise_iff_getElem.mp hs q (q + 1) (by omega) hq (by omega)
      have := ih (by omega)
      omega

namespace ReedSolomon

variable (rs : ReedSolomon)

/-- The slot loop after `i` turns.  The shares left are those at positions `b .. e`, and none of
them is a data share of a slot already passed. -/
structure Slots (ids : List ℕ) (i : ℕ) (s : SlotLoop) : Prop where
  mDec_length : s.mDec.length = rs.k * rs.k
  indexes_length : s.indexes.length = rs.k
  count : s.e + i = ids.length + s.b
  ordered : s.b ≤ s.e
  e_le : s.e ≤ ids.length
  left : ∀ q, s.b ≤ q → q < s.e → i ≤ ids.getD q 0
  used : ∀ i' < i, ∃ q < ids.length, (q < s.b ∨ s.e ≤ q) ∧ s.indexes.getD i' 0 = ids.getD q 0
  own_or_parity : ∀ i' < i, s.indexes.getD i' 0 = i' ∨ rs.k ≤ s.indexes.getD i' 0
  distinct : ∀ i' < i, ∀ i'' < i, s.indexes.getD i' 0 = s.indexes.getD i'' 0 → i' = i''
  rows : ∀ i' < i, ∀ c < rs.k,
    entry s.mDec rs.k i' c = generator rs.k rs.n (s.indexes.getD i' 0) c
  blank : ∀ i' < rs.k, i ≤ i' → ∀ c < rs.k, entry s.mDec rs.k i' c = 0

/-- Row `i` of the decode matrix, as the loop writes it for share `id`. -/
lemma entry_slotRow {m : List UInt8} {i id : ℕ} (hm : m.length = rs.k * rs.k) (hi : i < rs.k)
    (hid : id < rs.n) (hown : id = i ∨ rs.k ≤ id) (hblank : ∀ c < rs.k, entry m rs.k i c = 0) :
    let m' := if id < rs.k then m.set (i * (rs.k + 1)) 1
      else splice m (i * rs.k) (slice rs.encMatrix (id * rs.k) rs.k)
    m'.length = rs.k * rs.k ∧ (∀ c < rs.k, entry m' rs.k i c = generator rs.k rs.n id c) ∧
      ∀ i' < rs.k, i' ≠ i → ∀ c < rs.k, entry m' rs.k i' c = entry m rs.k i' c := by
  have hrow := rowMajor_le (k := rs.k) hi
  obtain ⟨henc, hgen⟩ := entry_buildEncMatrix rs.k_pos rs.k_le_n rs.n_le
  rw [← rs.encMatrix_eq] at henc hgen
  dsimp only
  split_ifs with hlt
  · obtain rfl : id = i := by omega
    have hidx : id * (rs.k + 1) = id * rs.k + id := by ring
    rw [hidx]
    refine ⟨by rw [List.length_set, hm], fun c hc => ?_, fun i' hi' hne c hc => ?_⟩
    · rw [generator_of_lt rs.k_pos rs.k_le_n rs.n_le hi hc]
      split_ifs with hic
      · subst hic
        exact Gf.ext (getD_set_self (by omega) _ _)
      · rw [← hblank c hc]
        exact Gf.ext (getD_set_ne (by omega) _ _)
    · refine Gf.ext (getD_set_ne (fun h => hne ?_) _ _)
      exact (rowMajor_inj hi hc h).1.symm
  · have hsrc := rowMajor_le (k := rs.k) hid
    have hslice : (slice rs.encMatrix (id * rs.k) rs.k).length = rs.k :=
      length_slice (by omega)
    refine ⟨(length_splice (by omega)).trans hm, fun c hc => ?_, fun i' hi' hne c hc => ?_⟩
    · rw [entry_splice_self hm hslice hi hc, coeffAt_slice_row _ hc, hgen id hid c hc]
    · exact entry_splice_of_ne hm hslice hi hne hc

section Slot

variable {rs} {ids : List ℕ} (hs : ids.Pairwise (· < ·)) {i : ℕ} {s : SlotLoop}
  (h : rs.Slots ids i s)

include hs h

/-- The position that slot `i` takes, from the front or from the back: its own share or a parity
share. -/
lemma Slots.take (hk : rs.k ≤ ids.length) (hi : i < rs.k) : ∃ q b' e',
    rs.slotStep ids s i = ⟨if ids.getD q 0 < rs.k then s.mDec.set (i * (rs.k + 1)) 1
        else splice s.mDec (i * rs.k) (slice rs.encMatrix (ids.getD q 0 * rs.k) rs.k),
      s.indexes.set i (ids.getD q 0), b', e'⟩ ∧ (s.b ≤ q ∧ q < s.e) ∧ (q < b' ∨ e' ≤ q) ∧
    (s.b ≤ b' ∧ b' ≤ e' ∧ e' ≤ s.e) ∧ e' + (i + 1) = ids.length + b' ∧
    (∀ p, b' ≤ p → p < e' → i + 1 ≤ ids.getD p 0) ∧
    (ids.getD q 0 = i ∨ rs.k ≤ ids.getD q 0) := by
  have hcount := h.count
  have hbe : s.b < s.e := by omega
  have he := h.e_le
  by_cases hfront : ids.getD s.b 0 = i
  · refine ⟨s.b, s.b + 1, s.e, ?_, by omega, by omega, by omega, by omega, fun p hp hpe => ?_,
      .inl hfront⟩
    · simp only [slotStep, hbe, hfront, and_self, if_true]
    · have := getD_add_le_of_sorted hs (p := s.b) (q := p) (by omega) (by omega)
      omega
  · have hall : ∀ p, s.b ≤ p → p < s.e → i + 1 + (p - s.b) ≤ ids.getD p 0 := fun p hp hpe => by
      have h1 := h.left s.b le_rfl hbe
      have h2 := getD_add_le_of_sorted hs hp (by omega)
      omega
    refine ⟨s.e - 1, s.b, s.e - 1, ?_, by omega, by omega, by omega, by omega,
      fun p hp hpe => ?_, .inr ?_⟩
    · simp only [slotStep, hfront, and_false, if_false]
    · have := hall p hp (by omega)
      omega
    · -- enough distinct indexes above `i` are left for the last one to be a parity share
      have := hall (s.e - 1) (by omega) (by omega)
      omega

/-- A share between `b` and `e` is in no slot yet. -/
lemma Slots.fresh {q : ℕ} (hq : s.b ≤ q ∧ q < s.e) :
    ∀ i' < i, s.indexes.getD i' 0 ≠ ids.getD q 0 := by
  intro i' hi' heq
  have he := h.e_le
  obtain ⟨q', hq'len, hq'pos, hq'val⟩ := h.used i' hi'
  rw [hq'val] at heq
  rcases Nat.lt_or_ge q' q with hlt | hge
  · have := getD_add_le_of_sorted hs hlt.le (by omega)
    omega
  · have := getD_add_le_of_sorted hs hge hq'len
    omega

/-- **One slot.** -/
lemma Slots.step (hn : ∀ id ∈ ids, id < rs.n) (hk : rs.k ≤ ids.length) (hi : i < rs.k) :
    rs.Slots ids (i + 1) (rs.slotStep ids s i) := by
  have he := h.e_le
  obtain ⟨q, b', e', hstep, hq, hq', hbe', hcount', hleft, hown⟩ := h.take hs hk hi
  have hqlen : q < ids.length := by omega
  have hmem : ids.getD q 0 ∈ ids := by
    rw [List.getD_eq_getElem _ _ hqlen]
    exact List.getElem_mem hqlen
  have hlen := h.indexes_length
  have hold : ∀ i' < i, (s.indexes.set i (ids.getD q 0)).getD i' 0 = s.indexes.getD i' 0 :=
    fun i' hi' => getD_set_ne hi'.ne' _ _
  have hnew : (s.indexes.set i (ids.getD q 0)).getD i 0 = ids.getD q 0 :=
    getD_set_self (by omega) _ _
  have hfresh := h.fresh hs hq
  obtain ⟨hmlen, hrow, hkeep⟩ := rs.entry_slotRow h.mDec_length hi (hn _ hmem) hown
    (h.blank i hi le_rfl)
  rw [hstep]
  constructor
  case mDec_length => exact hmlen
  case indexes_length => simpa using hlen
  case count => exact hcount'
  case ordered => exact hbe'.2.1
  case e_le => exact hbe'.2.2.trans he
  case left => exact hleft
  case used =>
    intro i' hi'
    rcases Nat.lt_succ_iff_lt_or_eq.mp hi' with hi' | rfl
    · obtain ⟨q', hq'len, hq'pos, hq'val⟩ := h.used i' hi'
      exact ⟨q', hq'len, by dsimp only; omega, (hold i' hi').trans hq'val⟩
    · exact ⟨q, hqlen, hq', hnew⟩
  case own_or_parity =>
    intro i' hi'
    rcases Nat.lt_succ_iff_lt_or_eq.mp hi' with hi' | rfl
    · rw [hold i' hi']
      exact h.own_or_parity i' hi'
    · rw [hnew]
      exact hown
  case distinct =>
    intro i' hi' i'' hi'' heq
    rcases Nat.lt_succ_iff_lt_or_eq.mp hi' with hi' | rfl <;>
      rcases Nat.lt_succ_iff_lt_or_eq.mp hi'' with hi'' | rfl
    · rw [hold i' hi', hold i'' hi''] at heq
      exact h.distinct i' hi' i'' hi'' heq
    · rw [hold i' hi', hnew] at heq
      exact absurd heq (hfresh i' hi')
    · rw [hold i'' hi'', hnew] at heq
      exact absurd heq.symm (hfresh i'' hi'')
    · rfl
  case rows =>
    intro i' hi' c hc
    rcases Nat.lt_succ_iff_lt_or_eq.mp hi' with hi' | rfl
    · rw [hold i' hi', ← h.rows i' hi' c hc]
      exact hkeep i' (by omega) hi'.ne c hc
    · rw [hnew]
      exact hrow c hc
  case blank =>
    intro i' hi' hle c hc
    rw [← h.blank i' hi' (by omega) c hc]
    exact hkeep i' hi' (by omega) c hc

end Slot

lemma Slots.zero (ids : List ℕ) :
    rs.Slots ids 0 ⟨List.replicate (rs.k * rs.k) 0, List.replicate rs.k 0, 0, ids.length⟩ where
  mDec_length := List.length_replicate
  indexes_length := List.length_replicate
  count := by simp
  ordered := Nat.zero_le _
  e_le := le_rfl
  left := fun _ _ _ => Nat.zero_le _
  used := by simp
  own_or_parity := by simp
  distinct := by simp
  rows := by simp
  blank := fun i hi _ c hc => by
    have := rowMajor_le (k := rs.k) hi
    exact Gf.ext (List.getD_replicate _ (by omega))

/-- What a plan is good for: its slots hold distinct shares of `ids`, each its own data share or a
parity share, and its matrix undoes the generator on them. -/
structure Plans (ids : List ℕ) (plan : DecodePlan) : Prop where
  k_eq : plan.k = rs.k
  shareSize_eq : plan.shareSize = rs.shareSize
  indexes_length : plan.indexes.length = rs.k
  mem : ∀ id ∈ plan.indexes, id ∈ ids
  own_or_parity : ∀ i < rs.k, plan.indexes.getD i 0 = i ∨ rs.k ≤ plan.indexes.getD i 0
  inverse : ∀ x : ℕ → Gf, ∀ i < rs.k, Sweep.mulVec rs.k (entry plan.mDec rs.k)
    (fun c => Sweep.mulVec rs.k (generator rs.k rs.n) x (plan.indexes.getD c 0)) i = x i

/-- **The plan exists**: the matrix it inverts is regular, whatever the shares. -/
theorem planFromSorted_spec {ids : List ℕ} (hs : ids.Pairwise (· < ·))
    (hn : ∀ id ∈ ids, id < rs.n) (hk : rs.k ≤ ids.length) :
    ∃ plan, rs.planFromSorted ids = .ok plan ∧ rs.Plans ids plan := by
  have h := foldl_range_induction (P := fun i s => rs.Slots ids i s) (Slots.zero rs ids)
    fun i hi s hslots => hslots.step hs hn hk hi
  unfold planFromSorted
  set s := (List.range rs.k).foldl (rs.slotStep ids)
    ⟨List.replicate (rs.k * rs.k) 0, List.replicate rs.k 0, 0, ids.length⟩ with hsdef
  have hmem : ∀ i < rs.k, s.indexes.getD i 0 ∈ ids := fun i hi => by
    obtain ⟨q, hq, -, hval⟩ := h.used i hi
    rw [hval, List.getD_eq_getElem _ _ hq]
    exact List.getElem_mem hq
  have hcard := cardinalPoly_cardinal rs.k_pos rs.k_le_n rs.n_le
  have hreg : Sweep.LeadingRegular rs.k (entry s.mDec rs.k) :=
    (Interpolation.leadingRegular_of_cardinal
      (points_injOn.mono (Set.Iio_subset_Iio rs.n_le)) rs.k_le_n hcard h.own_or_parity
      (fun i hi => hn _ (hmem i hi)) fun i hi j hj => h.distinct i hi j hj).congr
      fun i hi c hc => (h.rows i hi c hc).symm
  obtain ⟨m, hm, hinv⟩ := invertMatrix_spec h.mDec_length hreg
  refine ⟨⟨rs.k, rs.shareSize, s.indexes, m⟩, by simp only [hm], ?_⟩
  refine ⟨rfl, rfl, h.indexes_length, fun id hid => ?_, h.own_or_parity, fun x i hi => ?_⟩
  · obtain ⟨i, hi, rfl⟩ := List.getElem_of_mem hid
    rw [← List.getD_eq_getElem _ 0 hi]
    exact hmem i (by rw [← h.indexes_length]; exact hi)
  · rw [← hinv x i hi]
    refine Sweep.mulVec_congr (fun c hc => ?_) i
    exact Finset.sum_congr rfl fun j hj => by rw [h.rows c hc j (Finset.mem_range.mp hj)]

/-! ## Encoding

The share of a row is its dot product with the blocks of the stripe, at every byte position.  The
buffers that the caller passes may hold anything.
-/

/-- Byte position `p` of a stripe, read across its `k` blocks. -/
def column (stripe : List UInt8) (p j : ℕ) : Gf := coeffAt stripe (j * rs.shareSize + p)

/-- A chain of `addmul`s into one buffer is a linear combination at each byte. -/
lemma coeffAt_foldl_addmul (xs : ℕ → List UInt8) (ys : ℕ → UInt8) (k : ℕ) {z : List UInt8}
    (hlen : ∀ j < k, (xs j).length = z.length) :
    let z' := (List.range k).foldl (fun z j => addmul z (xs j) (ys j)) z
    z'.length = z.length ∧ ∀ p < z.length,
      coeffAt z' p = coeffAt z p + ∑ j ∈ Finset.range k, (⟨ys j⟩ : Gf) * coeffAt (xs j) p := by
  refine foldl_range_induction (P := fun m t => List.length t = z.length ∧ ∀ p < z.length,
    coeffAt t p = coeffAt z p + ∑ j ∈ Finset.range m, (⟨ys j⟩ : Gf) * coeffAt (xs j) p)
    ⟨rfl, by simp⟩ ?_
  rintro m hm t ⟨htlen, ht⟩
  refine ⟨by rw [length_addmul, htlen], fun p hp => ?_⟩
  have hstep : coeffAt (addmul t (xs m) (ys m)) p = coeffAt t p + (⟨ys m⟩ : Gf) * coeffAt (xs m) p :=
    Gf.ext (getD_addmul _ (by rw [hlen m hm, htlen]) (by omega))
  rw [hstep, ht p hp, Finset.sum_range_succ, add_assoc]

lemma coeffAt_replicate_zero (n p : ℕ) : coeffAt (List.replicate n 0) p = 0 := by
  refine Gf.ext ?_
  simp only [coeffAt, List.getD_eq_getElem?_getD, List.getElem?_replicate]
  split_ifs <;> rfl

/-- A share is its row of the generator applied to the stripe, byte by byte. -/
lemma encodeShareUnchecked_spec {stripe out : List UInt8} {i : ℕ}
    (hstripe : stripe.length = rs.stripeSize) (hi : i < rs.n) (hout : out.length = rs.shareSize) :
    (rs.encodeShareUnchecked stripe i out).length = rs.shareSize ∧ ∀ p < rs.shareSize,
      coeffAt (rs.encodeShareUnchecked stripe i out) p
        = Sweep.mulVec rs.k (generator rs.k rs.n) (rs.column stripe p) i := by
  have hblock : ∀ j < rs.k, j * rs.shareSize + rs.shareSize ≤ stripe.length := fun j hj => by
    rw [hstripe, stripeSize]
    exact rowMajor_le hj
  unfold encodeShareUnchecked
  split_ifs with hlt
  · refine ⟨length_slice (hblock i hlt), fun p hp => ?_⟩
    rw [mulVec_generator_of_lt rs.k_pos rs.k_le_n rs.n_le hlt]
    exact Gf.ext (getD_slice _ _ hp _)
  · obtain ⟨hlen, hval⟩ := coeffAt_foldl_addmul
      (fun j => slice stripe (j * rs.shareSize) rs.shareSize)
      (fun j => rs.encMatrix.getD (i * rs.k + j) 0) rs.k (z := List.replicate out.length 0)
      (fun j hj => by rw [length_slice (hblock j hj), List.length_replicate, hout])
    rw [List.length_replicate, hout] at hlen hval
    rw [hout]
    refine ⟨hlen, fun p hp => ?_⟩
    rw [hval p hp, coeffAt_replicate_zero, zero_add]
    refine Finset.sum_congr rfl fun j hj => ?_
    have hj' := Finset.mem_range.mp hj
    have hgen := (entry_buildEncMatrix rs.k_pos rs.k_le_n rs.n_le).2 i hi j hj'
    rw [← rs.encMatrix_eq] at hgen
    rw [← hgen]
    congr 1
    exact Gf.ext (getD_slice _ _ hp _)

/-- Share `i` of a stripe. -/
def share (stripe : List UInt8) (i : ℕ) : List UInt8 :=
  rs.encodeShareUnchecked stripe i (List.replicate rs.shareSize 0)

/-- The shares of a stripe. -/
structure Encodes (stripe : List UInt8) (shares : List (List UInt8)) : Prop where
  length_eq : shares.length = rs.n
  share_length : ∀ i < rs.n, (shares.getD i []).length = rs.shareSize
  share_eq : ∀ i < rs.n, ∀ p < rs.shareSize, coeffAt (shares.getD i []) p
    = Sweep.mulVec rs.k (generator rs.k rs.n) (rs.column stripe p) i

/-- `encode_stripe_into` overwrites whatever was in the buffers. -/
lemma encodeStripeInto_eq {stripe : List UInt8} (hstripe : stripe.length = rs.stripeSize)
    {slots : List (List UInt8)} (hlen : slots.length = rs.n)
    (hslot : ∀ s ∈ slots, s.length = rs.shareSize) :
    rs.encodeStripeInto stripe slots = .ok ((List.range rs.n).map (rs.share stripe)) := by
  rw [encodeStripeInto, checkStripe, if_neg (not_not.mpr hstripe), Fallible.ok_bind,
    if_neg (not_not.mpr hlen), zipIdx_eq_map_range slots [], hlen]
  rw [Fallible.mapM_eq_ok (g := fun x => rs.share stripe x.2)]
  · rw [List.map_map]
    rfl
  · intro x hx
    obtain ⟨i, hi, rfl⟩ := List.mem_map.mp hx
    have hi' : i < slots.length := by
      rw [hlen]
      exact List.mem_range.mp hi
    have hsize : (slots.getD i []).length = rs.shareSize := by
      rw [List.getD_eq_getElem _ _ hi']
      exact hslot _ (List.getElem_mem hi')
    dsimp only
    rw [if_neg (not_not.mpr hsize), share, encodeShareUnchecked, encodeShareUnchecked, hsize,
      List.length_replicate]

lemma encodes_share {stripe : List UInt8} (hstripe : stripe.length = rs.stripeSize) :
    rs.Encodes stripe ((List.range rs.n).map (rs.share stripe)) := by
  refine ⟨by simp, ?_, ?_⟩
  · intro i hi
    rw [getD_map_range _ hi]
    exact (rs.encodeShareUnchecked_spec hstripe hi List.length_replicate).1
  · intro i hi p hp
    rw [getD_map_range _ hi]
    exact (rs.encodeShareUnchecked_spec hstripe hi List.length_replicate).2 p hp

lemma length_share {stripe : List UInt8} (hstripe : stripe.length = rs.stripeSize) {i : ℕ}
    (hi : i < rs.n) : (rs.share stripe i).length = rs.shareSize :=
  (rs.encodeShareUnchecked_spec hstripe hi List.length_replicate).1

/-- **`encode_stripe` encodes** every stripe of the right length. -/
theorem encodeStripe_spec {stripe : List UInt8} (hstripe : stripe.length = rs.stripeSize) :
    ∃ shares, rs.encodeStripe stripe = .ok shares ∧ rs.Encodes stripe shares := by
  refine ⟨_, ?_, rs.encodes_share hstripe⟩
  refine rs.encodeStripeInto_eq hstripe List.length_replicate ?_
  intro s hs
  rw [List.eq_of_mem_replicate hs, List.length_replicate]

/-! ## Decoding

A plan has one entry for each slot.  A slot whose data share is there is copied; another one is
rebuilt from all `k` shares with one row of the inverse.
-/

/-- `k` shares of the right length, whatever they hold. -/
structure Sized (sharesv : List (List UInt8)) : Prop where
  length_eq : sharesv.length = rs.k
  share_length : ∀ i < rs.k, (sharesv.getD i []).length = rs.shareSize

/-- The `k` shares that a plan names, as `encode_stripe` made them. -/
structure Supplies (plan : DecodePlan) (stripe : List UInt8) (sharesv : List (List UInt8)) : Prop
    extends rs.Sized sharesv where
  share_eq : ∀ i < rs.k, ∀ p < rs.shareSize, coeffAt (sharesv.getD i []) p
    = Sweep.mulVec rs.k (generator rs.k rs.n) (rs.column stripe p) (plan.indexes.getD i 0)

variable {rs}

/-- Slot `i`'s turn writes block `i`, from shares of the right length. -/
lemma Sized.decodeSlot {ids : List ℕ} {plan : DecodePlan} {sharesv : List (List UInt8)}
    (hplan : rs.Plans ids plan) (h : rs.Sized sharesv) {i : ℕ} (hi : i < rs.k) :
    ∃ dest, dest.length = rs.shareSize ∧
      (∀ out, plan.decodeSlot sharesv out i = splice out (i * rs.shareSize) dest) ∧
      ∀ stripe, rs.Supplies plan stripe sharesv →
        ∀ p < rs.shareSize, coeffAt dest p = rs.column stripe p i := by
  simp only [DecodePlan.decodeSlot, hplan.k_eq, hplan.shareSize_eq]
  by_cases hid : plan.indexes.getD i 0 < rs.k
  · have hown : plan.indexes.getD i 0 = i := (hplan.own_or_parity i hi).resolve_right (by omega)
    refine ⟨sharesv.getD i [], h.share_length i hi, ?_, ?_⟩
    · intro out
      rw [if_pos hid, hown]
    · intro stripe hs p hp
      rw [hs.share_eq i hi p hp, hown, mulVec_generator_of_lt rs.k_pos rs.k_le_n rs.n_le hi]
  · obtain ⟨hlen, hval⟩ := coeffAt_foldl_addmul (fun c => sharesv.getD c [])
      (fun c => plan.mDec.getD (i * rs.k + c) 0) rs.k (z := List.replicate rs.shareSize 0)
      (fun c hc => by rw [h.share_length c hc, List.length_replicate])
    rw [List.length_replicate] at hlen hval
    refine ⟨_, hlen, ?_, ?_⟩
    · intro out
      rw [if_neg hid, zipIdx_eq_map_range sharesv [], List.foldl_map, h.length_eq]
    · intro stripe hs p hp
      rw [hval p hp, coeffAt_replicate_zero, zero_add,
        ← hplan.inverse (rs.column stripe p) i hi]
      refine Finset.sum_congr rfl fun c hc => ?_
      rw [hs.share_eq c (Finset.mem_range.mp hc) p hp]
      rfl

/-- The length checks of `decode_into` pass. -/
lemma Sized.lengths {sharesv : List (List UInt8)} (h : rs.Sized sharesv) (plan : DecodePlan) :
    (sharesv.zipIdx.mapM fun (s, i) =>
      if s.length ≠ rs.shareSize then
        Except.error (EcError.shareSize (plan.indexes.getD i 0) s.length rs.shareSize)
      else .ok ()) = .ok (sharesv.zipIdx.map fun _ => ()) := by
  refine Fallible.mapM_eq_ok fun x hx => ?_
  rw [zipIdx_eq_map_range sharesv []] at hx
  obtain ⟨i, hi, rfl⟩ := List.mem_map.mp hx
  rw [List.mem_range, h.length_eq] at hi
  exact if_neg (not_not.mpr (h.share_length i hi))

/-- **`decode_into` fills the output** from any `k` shares of the right length, whatever was in the
buffer; if they are the shares of a stripe, with that stripe. -/
theorem decodeInto_spec {ids : List ℕ} {plan : DecodePlan} {sharesv : List (List UInt8)}
    (hplan : rs.Plans ids plan) (h : rs.Sized sharesv) :
    ∃ res : List UInt8, res.length = rs.stripeSize ∧
      (∀ out : List UInt8, out.length = rs.stripeSize → plan.decodeInto sharesv out = .ok res) ∧
      ∀ stripe : List UInt8, stripe.length = rs.stripeSize → rs.Supplies plan stripe sharesv →
        res = stripe := by
  have hdest : ∀ i < rs.k, ∃ dest, dest.length = rs.shareSize ∧
      (∀ out, plan.decodeSlot sharesv out i = splice out (i * rs.shareSize) dest) ∧
      ∀ stripe, rs.Supplies plan stripe sharesv →
        ∀ p < rs.shareSize, coeffAt dest p = rs.column stripe p i := fun i hi =>
    h.decodeSlot hplan hi
  choose! dest hlen hslot hval using hdest
  refine ⟨concat rs.k dest, length_concat hlen, ?_, ?_⟩
  · intro out hout
    have hout' : out.length = rs.k * rs.shareSize := hout
    rw [DecodePlan.decodeInto, hplan.k_eq, hplan.shareSize_eq, if_neg (not_not.mpr h.length_eq),
      h.lengths, Fallible.ok_bind, if_neg (not_not.mpr hout')]
    congr 1
    exact foldl_splice_blocks hout' hlen fun i hi t => hslot i hi t
  · intro stripe hstripe hs
    refine ext_getD 0 ((length_concat hlen).trans hstripe.symm) fun q hq => ?_
    rw [length_concat hlen] at hq
    have hq' : q / rs.shareSize < rs.k :=
      Nat.div_lt_of_lt_mul (by rwa [Nat.mul_comm] at hq)
    have hp : q % rs.shareSize < rs.shareSize := Nat.mod_lt _ rs.shareSize_pos
    have hblock := hval _ hq' stripe hs _ hp
    rw [column, Nat.div_add_mod'] at hblock
    rw [← slice_concat hlen hq'] at hblock
    have hget := getD_slice (concat rs.k dest) (q / rs.shareSize * rs.shareSize) hp 0
    rw [Nat.div_add_mod'] at hget
    rw [← hget]
    exact congrArg Gf.val hblock

/-! ## Any `k` of `n`

Sorting and the scan for duplicates stand between the caller's list and the plan.  After them the
list is strictly increasing, whatever order it came in.
-/

lemma firstDuplicate_eq_none : ∀ {ids : List ℕ}, ids.Nodup → firstDuplicate ids = none
  | [], _ => rfl
  | [_], _ => rfl
  | a :: b :: rest, h => by
      obtain ⟨hab, hrest⟩ := List.nodup_cons.mp h
      have hne : a ≠ b := fun hEq => hab (hEq ▸ List.mem_cons_self)
      rw [firstDuplicate, if_neg hne]
      exact firstDuplicate_eq_none hrest

/-- A sorted list without repetitions is strictly sorted. -/
lemma pairwise_lt_of_sorted {ids : List ℕ} (hs : ids.Pairwise (· ≤ ·)) (hd : ids.Nodup) :
    ids.Pairwise (· < ·) :=
  (hs.and hd).imp fun h => lt_of_le_of_ne h.1 h.2

variable {idxs : List ℕ}

/-- **`decode_plan` succeeds** on any `k` or more distinct indexes. -/
theorem decodePlan_spec (hd : idxs.Nodup) (hn : ∀ i ∈ idxs, i < rs.n) (hk : rs.k ≤ idxs.length) :
    ∃ plan, rs.decodePlan idxs = .ok plan ∧ rs.Plans idxs plan := by
  have hperm : idxs.mergeSort.Perm idxs := List.mergeSort_perm _ _
  have hsorted : idxs.mergeSort.Pairwise (· ≤ ·) := by
    simpa using List.pairwise_mergeSort' (r := (· ≤ · : ℕ → ℕ → Prop)) idxs
  have hnodup : idxs.mergeSort.Nodup := hperm.nodup_iff.mpr hd
  obtain ⟨plan, hplan, hspec⟩ := rs.planFromSorted_spec (pairwise_lt_of_sorted hsorted hnodup)
    (fun i hi => hn i (hperm.mem_iff.mp hi)) (by rw [hperm.length_eq]; exact hk)
  refine ⟨plan, ?_, { hspec with mem := fun id hid => hperm.mem_iff.mp (hspec.mem id hid) }⟩
  have hcheck : (idxs.mapM fun index =>
      if index ≥ rs.n then Except.error (EcError.invalidShareIndex index rs.n) else .ok index)
      = .ok (idxs.map id) :=
    Fallible.mapM_eq_ok fun i hi => if_neg (not_le.mpr (hn i hi))
  unfold decodePlan
  rw [if_neg (not_lt.mpr hk), hcheck, Fallible.ok_bind]
  dsimp only
  rw [firstDuplicate_eq_none hnodup]
  exact hplan

/-- The shares a plan asks for are there. -/
lemma Encodes.supplies {stripe : List UInt8} {shares : List (List UInt8)} {plan : DecodePlan}
    (h : rs.Encodes stripe shares) (hplan : rs.Plans idxs plan) (hn : ∀ i ∈ idxs, i < rs.n) :
    rs.Supplies plan stripe (plan.indexes.map fun i => shares.getD i []) := by
  have hget : ∀ i < rs.k, (plan.indexes.map fun i => shares.getD i []).getD i []
      = shares.getD (plan.indexes.getD i 0) [] := fun i hi =>
    getD_map_of_lt _ (by rw [hplan.indexes_length]; exact hi) 0 []
  have hlt : ∀ i < rs.k, plan.indexes.getD i 0 < rs.n := fun i hi => by
    have hi' : i < plan.indexes.length := by rw [hplan.indexes_length]; exact hi
    rw [List.getD_eq_getElem _ _ hi']
    exact hn _ (hplan.mem _ (List.getElem_mem hi'))
  refine ⟨⟨by rw [List.length_map, hplan.indexes_length], ?_⟩, ?_⟩
  · intro i hi
    rw [hget i hi]
    exact h.share_length _ (hlt i hi)
  · intro i hi p hp
    rw [hget i hi]
    exact h.share_eq _ (hlt i hi) p hp

/-- A plan applied to the shares it names. -/
lemma Encodes.decodeInto {stripe : List UInt8} {shares : List (List UInt8)} {plan : DecodePlan}
    (h : rs.Encodes stripe shares) (hstripe : stripe.length = rs.stripeSize)
    (hplan : rs.Plans idxs plan) (hn : ∀ i ∈ idxs, i < rs.n) {out : List UInt8}
    (hout : out.length = rs.stripeSize) :
    plan.decodeInto (plan.indexes.map fun i => shares.getD i []) out = .ok stripe := by
  have hs := h.supplies hplan hn
  obtain ⟨res, -, hres, hcorrect⟩ := decodeInto_spec hplan hs.toSized
  rw [hres out hout, hcorrect stripe hstripe hs]

/-- **`decode_from` gives the stripe back** from any `k` or more distinct shares, in any order. -/
theorem decodeFrom_spec {stripe : List UInt8} {shares : List (List UInt8)}
    (h : rs.Encodes stripe shares) (hstripe : stripe.length = rs.stripeSize)
    (hd : idxs.Nodup) (hn : ∀ i ∈ idxs, i < rs.n) (hk : rs.k ≤ idxs.length) :
    rs.decodeFrom (idxs.map fun i => (i, shares.getD i [])) = .ok stripe := by
  set given := idxs.map fun i => (i, shares.getD i []) with hgiven
  set ordered := given.mergeSort fun s t => s.1 ≤ t.1 with hordered
  have hperm : ordered.Perm given := List.mergeSort_perm _ _
  have hfst : given.map (·.1) = idxs := by simp [hgiven, Function.comp_def]
  have hids : (ordered.map (·.1)).Perm idxs := by
    rw [← hfst]
    exact hperm.map _
  have hsorted : (ordered.map (·.1)).Pairwise (· ≤ ·) := by
    rw [List.pairwise_map]
    have htrans : ∀ a b c : ℕ × List UInt8, decide (a.1 ≤ b.1) = true →
        decide (b.1 ≤ c.1) = true → decide (a.1 ≤ c.1) = true := fun a b c hab hbc => by
      simp only [decide_eq_true_eq] at *
      omega
    have htotal : ∀ a b : ℕ × List UInt8,
        (decide (a.1 ≤ b.1) || decide (b.1 ≤ a.1)) = true := fun a b => by
      simp only [Bool.or_eq_true, decide_eq_true_eq]
      omega
    exact (List.pairwise_mergeSort htrans htotal given).imp fun h => of_decide_eq_true h
  have hnodup : (ordered.map (·.1)).Nodup := hids.nodup_iff.mpr hd
  have hmem : ∀ s ∈ given, s.1 < rs.n ∧ s.2 = shares.getD s.1 [] := by
    intro s hs
    obtain ⟨i, hi, rfl⟩ := List.mem_map.mp hs
    exact ⟨hn i hi, rfl⟩
  have hcheck : (given.mapM fun (index, data) =>
      if index ≥ rs.n then Except.error (EcError.invalidShareIndex index rs.n)
      else if data.length ≠ rs.shareSize then .error (.shareSize index data.length rs.shareSize)
      else .ok (index, data)) = .ok (given.map id) := by
    refine Fallible.mapM_eq_ok fun s hs => ?_
    obtain ⟨hlt, hdata⟩ := hmem s hs
    dsimp only
    rw [if_neg (not_le.mpr hlt), if_neg (not_not.mpr (by rw [hdata]; exact h.share_length _ hlt))]
    rfl
  obtain ⟨plan, hplan, hspec⟩ := rs.planFromSorted_spec (pairwise_lt_of_sorted hsorted hnodup)
    (fun i hi => hn i (hids.mem_iff.mp hi)) (by rw [hids.length_eq]; exact hk)
  -- looking an index up among the sorted shares finds that share
  have hfind : ∀ i ∈ plan.indexes,
      ((ordered.find? fun s => s.1 == i).map (·.2)).getD [] = shares.getD i [] := by
    intro i hi
    obtain ⟨s, hs, rfl⟩ := List.mem_map.mp (hspec.mem i hi)
    obtain ⟨t, ht⟩ : ∃ t, ordered.find? (fun t => t.1 == s.1) = some t :=
      Option.isSome_iff_exists.mp (List.find?_isSome.mpr ⟨s, hs, by simp⟩)
    have hts : t.1 = s.1 := by simpa using List.find?_some ht
    rw [ht, ← hts]
    exact (hmem t (hperm.mem_iff.mp (List.mem_of_find?_eq_some ht))).2
  unfold decodeFrom
  rw [if_neg (by rw [hgiven, List.length_map]; omega), hcheck, Fallible.ok_bind, List.map_id,
    ← hordered]
  dsimp only
  rw [firstDuplicate_eq_none hnodup]
  dsimp only
  unfold rebuild
  rw [hplan, Fallible.ok_bind, List.map_congr_left hfind]
  exact h.decodeInto hstripe hspec (fun i hi => hn i (hids.mem_iff.mp hi)) List.length_replicate

/-- The slots of `decode_stripe`: present where the index is listed. -/
def slotsAt (n : ℕ) (shares : List (List UInt8)) (idxs : List ℕ) : List (Option (List UInt8)) :=
  (List.range n).map fun i => if i ∈ idxs then some (shares.getD i []) else none

/-- `decode_stripe` on slots is `decode_from` on the indexes present, in order. -/
lemma decodeStripe_slotsAt {stripe : List UInt8} {shares : List (List UInt8)}
    (h : rs.Encodes stripe shares) (idxs : List ℕ) :
    rs.decodeStripe (slotsAt rs.n shares idxs)
      = rs.decodeFrom (((List.range rs.n).filter (· ∈ idxs)).map fun i => (i, shares.getD i [])) := by
  have hzip : (slotsAt rs.n shares idxs).zipIdx = (List.range rs.n).map fun i =>
      (if i ∈ idxs then some (shares.getD i []) else none, i) := by
    rw [zipIdx_eq_map_range _ none, slotsAt, List.length_map, List.length_range]
    refine List.map_congr_left fun i hi => ?_
    rw [getD_map_range _ (List.mem_range.mp hi)]
  have hcheck : ((slotsAt rs.n shares idxs).zipIdx.mapM fun (s, i) =>
      match s with
      | none => Except.ok none
      | some data =>
          if data.length ≠ rs.shareSize then .error (EcError.shareSize i data.length rs.shareSize)
          else .ok (some (i, data)))
      = .ok ((slotsAt rs.n shares idxs).zipIdx.map fun x : Option (List UInt8) × ℕ =>
        x.1.map fun data => (x.2, data)) := by
    refine Fallible.mapM_eq_ok fun x hx => ?_
    rw [hzip] at hx
    obtain ⟨i, hi, rfl⟩ := List.mem_map.mp hx
    by_cases hmem : i ∈ idxs
    · simp only [hmem, if_true, h.share_length i (List.mem_range.mp hi), ne_eq, not_true, if_false]
      rfl
    · simp only [hmem, if_false]
      rfl
  unfold decodeStripe
  rw [if_neg (by simp [slotsAt]), hcheck, Fallible.ok_bind, hzip, List.map_map, List.filterMap_map]
  congr 1
  rw [← List.filterMap_eq_filter, List.map_filterMap]
  refine List.filterMap_congr fun i _ => ?_
  by_cases hmem : i ∈ idxs <;> simp [hmem, Option.guard]

/-- `new` accepts exactly the parameters its documentation gives. -/
lemma new_isOk_iff (k n ss : ℕ) :
    (∃ rs, new k n ss = .ok rs) ↔ 1 ≤ k ∧ k ≤ n ∧ n ≤ 256 ∧ 1 ≤ ss := by
  unfold new
  split_ifs with h
  · simp only [exists_false, false_iff]
    omega
  · simp only [Except.ok.injEq, exists_eq', true_iff]
    omega

/-- What a codec built by `new` is. -/
lemma new_fields {k n ss : ℕ} {rs : ReedSolomon} (h : new k n ss = .ok rs) :
    rs.k = k ∧ rs.n = n ∧ rs.shareSize = ss := by
  unfold new at h
  split_ifs at h
  cases h
  exact ⟨rfl, rfl, rfl⟩

/-- **Any `k` of `n`.**  For every codec `new` accepts, every stripe, and every list of at least `k`
distinct share indexes in any order: the stripe can be encoded, and `decode_from` on those shares,
`decode_stripe` on the corresponding slots, and `decode_plan` followed by `decode_into` on the
shares the plan names all give the stripe back. -/
theorem decode_any_k_of_n (k n ss : ℕ) :
    ((∃ rs, new k n ss = .ok rs) ↔ 1 ≤ k ∧ k ≤ n ∧ n ≤ 256 ∧ 1 ≤ ss) ∧
    ∀ rs, new k n ss = .ok rs → ∀ stripe : List UInt8, stripe.length = k * ss →
      ∃ shares, rs.encodeStripe stripe = .ok shares ∧
        ∀ idxs : List ℕ, idxs.Nodup → (∀ i ∈ idxs, i < n) → k ≤ idxs.length →
          rs.decodeFrom (idxs.map fun i => (i, shares.getD i [])) = .ok stripe ∧
          rs.decodeStripe (slotsAt n shares idxs) = .ok stripe ∧
          ∃ plan, rs.decodePlan idxs = .ok plan ∧ (∀ i ∈ plan.indexes, i ∈ idxs) ∧
            ∀ out : List UInt8, out.length = k * ss →
              plan.decodeInto (plan.indexes.map fun i => shares.getD i []) out = .ok stripe := by
  refine ⟨new_isOk_iff k n ss, fun rs hrs stripe hstripe => ?_⟩
  obtain ⟨rfl, rfl, rfl⟩ := new_fields hrs
  obtain ⟨shares, henc, hspec⟩ := rs.encodeStripe_spec hstripe
  refine ⟨shares, henc, fun idxs hd hn hk => ⟨decodeFrom_spec hspec hstripe hd hn hk, ?_, ?_⟩⟩
  · have hperm : ((List.range rs.n).filter (· ∈ idxs)).Perm idxs := by
      refine (List.perm_ext_iff_of_nodup (List.nodup_range.filter _) hd).mpr fun i => ?_
      simp only [List.mem_filter, List.mem_range, decide_eq_true_eq, and_iff_right_iff_imp]
      exact hn i
    rw [decodeStripe_slotsAt hspec]
    exact decodeFrom_spec hspec hstripe (hperm.nodup_iff.mpr hd)
      (fun i hi => hn i (hperm.mem_iff.mp hi)) (by rw [hperm.length_eq]; exact hk)
  · obtain ⟨plan, hplan, hplans⟩ := decodePlan_spec hd hn hk
    exact ⟨plan, hplan, hplans.mem, fun out hout => hspec.decodeInto hstripe hplans hn hout⟩

/-- One data share and the parity share of a two-of-three code, out of order. -/
theorem decode_two_of_three : ∃ rs shares, new 2 3 1 = .ok rs ∧
    rs.encodeStripe [5, 7] = .ok shares ∧
    rs.decodeFrom [(2, shares.getD 2 []), (0, shares.getD 0 [])] = .ok [5, 7] := by
  obtain ⟨hnew, hdecode⟩ := decode_any_k_of_n 2 3 1
  obtain ⟨rs, hrs⟩ := hnew.mpr (by decide)
  obtain ⟨shares, henc, hall⟩ := hdecode rs hrs [5, 7] rfl
  exact ⟨rs, shares, hrs, henc, (hall [2, 0] (by decide) (by decide) (by decide)).1⟩

end ReedSolomon

end Storj.Ec
