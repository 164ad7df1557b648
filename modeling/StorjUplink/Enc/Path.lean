import Mathlib.Data.List.Basic
import StorjUplink.Enc.Transform

/-!
# Path components

`path.rs` of the encryption crate below the store: how a path is cut into components, how one
component is sealed and encoded, and the keys derived on the way.

The source walks a path with an iterator.  `remainingComponents_new` says what it yields, and the
functions that take an iterator take that list.  A sealed component is escaped, so that it has no
slash (`slash_not_mem_encryptPathComponent`), and opens to its plaintext
(`decryptPathComponent_encryptPathComponent`).

A few things about the iterator are easy to get wrong and are stated once.  The empty path has no
components, not an empty one.  A path that ends with a slash has a last component, the empty one.
Two slashes in a row enclose an empty component, and the components joined with slashes are the
path again.  So `components` is a bijection between byte strings and the lists that satisfy
`IsPath`.

The key of a component is a keyed hash of the component, with a label in front, under the key of
its parent; the nonce with which the component itself is sealed is a hash under that key.  Both
depend on the component and the parent's key only, so sealing is deterministic: equal components
under one key have equal ciphertexts, which is what makes encrypted paths comparable at all.
-/

namespace Storj.Enc

/-- Bytes of a path, a bucket or a key. -/
abbrev Bytes := List UInt8

/-- The separator `b'/'`. -/
def slash : UInt8 := 47

/-! ## Components

The iterator holds the path and two indices.  Each call of `next` moves behind the next slash, and
the distance to the end goes down, which is the termination of every loop over it.
-/

/-- `PathIter`.  It has never consumed more than there is. -/
structure PathIter where
  raw : Bytes
  consumed : ℕ
  lastEmpty : Bool
  consumed_le : consumed ≤ raw.length
deriving DecidableEq, Repr

namespace PathIter

/-- `PathIter::new`: the empty path is immediately done. -/
def new (raw : Bytes) : PathIter := ⟨raw, 0, !raw.isEmpty, Nat.zero_le _⟩

/-- `PathIter::remaining`: the bytes not yet consumed. -/
def remaining (it : PathIter) : Bytes := it.raw.drop it.consumed

/-- `PathIter::done`. -/
def done (it : PathIter) : Bool := it.raw.length == it.consumed && !it.lastEmpty

lemma length_remaining (it : PathIter) :
    it.consumed + it.remaining.length = it.raw.length := by
  have := it.consumed_le
  rw [remaining, List.length_drop]
  omega

lemma index_lt {it : PathIter} {index : ℕ}
    (h : it.remaining.findIdx? (· == slash) = some index) : index < it.remaining.length :=
  (List.findIdx?_eq_some_iff_getElem.mp h).1

/-- `Iterator::next`: the bytes up to the next slash, which is skipped.  A slash at the end of the
path leaves one more component, the empty one. -/
def next (it : PathIter) : Option (Bytes × PathIter) :=
  if it.done then none
  else
    match h : it.remaining.findIdx? (· == slash) with
    | none => some (it.remaining, ⟨it.raw, it.consumed + it.remaining.length, false,
        it.length_remaining.le⟩)
    | some index => some (it.remaining.take index,
        ⟨it.raw, it.consumed + (index + 1), index + 1 == it.remaining.length, by
          have := index_lt h
          have := it.length_remaining
          omega⟩)

lemma done_iff (it : PathIter) : it.done = true ↔ it.remaining = [] ∧ it.lastEmpty = false := by
  have hlen := it.length_remaining
  rw [done, ← List.length_eq_zero_iff]
  simp only [Bool.and_eq_true, beq_iff_eq, Bool.not_eq_eq_eq_not, Bool.not_true,
    and_congr_left_iff]
  intro _
  constructor
  all_goals
    intro h
    omega

/-- The last component: no slash is left. -/
lemma next_last {it : PathIter} (hdone : it.done = false) (h : slash ∉ it.remaining) :
    ∃ it', it.next = some (it.remaining, it') ∧ it'.remaining = [] ∧ it'.lastEmpty = false := by
  have hidx : it.remaining.findIdx? (· == slash) = none := by
    rw [List.findIdx?_eq_none_iff]
    intro b hb
    rw [beq_eq_false_iff_ne]
    rintro rfl
    exact h hb
  rw [next, if_neg (by rw [hdone]; exact Bool.false_ne_true)]
  split
  · refine ⟨_, rfl, ?_, rfl⟩
    rw [remaining]
    exact List.drop_of_length_le it.length_remaining.ge
  · rename_i hsome
    rw [hidx] at hsome
    cases hsome

/-- A component in front of a slash.  Behind the slash there is always one more. -/
lemma next_slash {it : PathIter} {part rest : Bytes} (h : it.remaining = part ++ slash :: rest)
    (hpart : slash ∉ part) :
    ∃ it', it.next = some (part, it') ∧ it'.remaining = rest ∧ it'.lastEmpty = rest.isEmpty := by
  have hidx : it.remaining.findIdx? (· == slash) = some part.length := by
    rw [h, List.findIdx?_append, List.findIdx?_cons]
    have hnone : part.findIdx? (· == slash) = none := by
      rw [List.findIdx?_eq_none_iff]
      intro b hb
      rw [beq_eq_false_iff_ne]
      rintro rfl
      exact hpart hb
    simp [hnone]
  have hdone : it.done = false := by
    rw [Bool.eq_false_iff, Ne, done_iff, h]
    simp
  rw [next, if_neg (by rw [hdone]; exact Bool.false_ne_true)]
  split
  · rename_i hnone
    rw [hidx] at hnone
    cases hnone
  · rename_i index hsome
    rw [hidx, Option.some.injEq] at hsome
    subst hsome
    have htake : it.remaining.take part.length = part := by
      rw [h, List.take_left]
    have hdrop : it.raw.drop (it.consumed + (part.length + 1)) = rest := by
      rw [← List.drop_drop, ← remaining, h, ← List.drop_drop, List.drop_left]
      rfl
    rw [htake]
    refine ⟨_, rfl, hdrop, ?_⟩
    have hlen : it.remaining.length = part.length + (rest.length + 1) := by
      rw [h, List.length_append, List.length_cons]
    rw [hlen]
    cases rest with
    | nil => simp
    | cons b rest => simp

/-- How far the iterator is from its end. -/
def left (it : PathIter) : ℕ := 2 * it.remaining.length + it.lastEmpty.toNat

/-- What is left of a path, up to its first slash. -/
lemma slash_split (raw : Bytes) :
    slash ∉ raw ∨ ∃ part rest, raw = part ++ slash :: rest ∧ slash ∉ part := by
  by_cases h : slash ∈ raw
  · obtain ⟨part, rest, hraw, hpart⟩ := List.eq_append_cons_of_mem h
    exact Or.inr ⟨part, rest, hraw, hpart⟩
  · exact Or.inl h

/-- Every component brings the iterator nearer to its end. -/
lemma left_next {it it' : PathIter} {part : Bytes} (h : it.next = some (part, it')) :
    it'.left < it.left := by
  have hdone : it.done = false := by
    by_contra hdone
    rw [Bool.not_eq_false] at hdone
    rw [next, if_pos hdone] at h
    cases h
  rcases slash_split it.remaining with hlast | ⟨part', rest, hrem, hpart⟩
  · obtain ⟨it'', hnext, hrem, hempty⟩ := next_last hdone hlast
    rw [hnext, Option.some.injEq, Prod.mk.injEq] at h
    rw [← h.2, left, left, hrem, hempty]
    have hpos : it.remaining ≠ [] ∨ it.lastEmpty = true := by
      by_contra hnot
      push Not at hnot
      rw [Bool.eq_false_iff] at hdone
      exact hdone ((done_iff it).mpr ⟨hnot.1, Bool.eq_false_iff.mpr hnot.2⟩)
    rcases hpos with hpos | hpos
    · have := List.length_pos_iff.mpr hpos
      simp only [List.length_nil, Bool.toNat_false]
      omega
    · simp [hpos]
  · obtain ⟨it'', hnext, hrest, hempty⟩ := next_slash hrem hpart
    rw [hnext, Option.some.injEq, Prod.mk.injEq] at h
    have hone : rest.isEmpty.toNat ≤ 1 := Bool.toNat_le _
    rw [← h.2, left, left, hrest, hempty, hrem, List.length_append, List.length_cons]
    omega

/-- `PathIter::remaining_components`: what `next` yields until it is done. -/
def remainingComponents (it : PathIter) : List Bytes :=
  match _h : it.next with
  | none => []
  | some (part, it') => part :: it'.remainingComponents
termination_by it.left
decreasing_by exact left_next _h

/-- **What the iterator yields** behind its current place. -/
lemma remainingComponents_eq (it : PathIter) :
    it.remainingComponents = if it.done then [] else it.remaining.splitOn slash := by
  induction hn : it.left using Nat.strong_induction_on generalizing it with
  | _ n ih =>
      rw [remainingComponents]
      by_cases hdone : it.done = true
      · have hnone : it.next = none := by rw [next, if_pos hdone]
        split
        · rw [if_pos hdone]
        · rename_i hsome
          rw [hnone] at hsome
          cases hsome
      · rw [if_neg hdone]
        rw [Bool.not_eq_true] at hdone
        rcases slash_split it.remaining with hlast | ⟨part, rest, hrem, hpart⟩
        · obtain ⟨it', hnext, hrest, hempty⟩ := next_last hdone hlast
          have hdone' : it'.done = true := (done_iff it').mpr ⟨hrest, hempty⟩
          split
          · rename_i hnone
            rw [hnext] at hnone
            cases hnone
          · rename_i part it'' hsome
            rw [hnext, Option.some.injEq, Prod.mk.injEq] at hsome
            obtain ⟨rfl, rfl⟩ := hsome
            rw [ih _ (hn ▸ left_next hnext) it' rfl, if_pos hdone', List.splitOn_eq_singleton hlast]
        · obtain ⟨it', hnext, hrest, hempty⟩ := next_slash hrem hpart
          have hdone' : it'.done = false := by
            rw [Bool.eq_false_iff, Ne, done_iff, hrest, hempty]
            cases rest <;> simp
          split
          · rename_i hnone
            rw [hnext] at hnone
            cases hnone
          · rename_i part' it'' hsome
            rw [hnext, Option.some.injEq, Prod.mk.injEq] at hsome
            obtain ⟨rfl, rfl⟩ := hsome
            rw [ih _ (hn ▸ left_next hnext) it' rfl, hdone', hrest, hrem,
              List.splitOn_append_cons_self_of_not_mem hpart]
            rfl

end PathIter

/-- The components of a path: none for the empty path. -/
def components (raw : Bytes) : List Bytes := if raw = [] then [] else raw.splitOn slash

/-- **The iterator over a path yields its components**: the empty path has none, and a trailing
slash is followed by an empty one. -/
theorem remainingComponents_new (raw : Bytes) :
    (PathIter.new raw).remainingComponents = components raw := by
  rw [PathIter.remainingComponents_eq, components]
  cases raw with
  | nil => rfl
  | cons b raw => rfl

/-- `join_components`. -/
def joinComponents (parts : List Bytes) : Bytes := [slash].intercalate parts

/-- Components that a path can have: no slash inside, and not one empty component alone. -/
def IsPath (cs : List Bytes) : Prop := (∀ c ∈ cs, slash ∉ c) ∧ cs ≠ [[]]

lemma joinComponents_components (raw : Bytes) : joinComponents (components raw) = raw := by
  rw [components]
  split_ifs with h
  · exact h.symm
  · exact List.intercalate_splitOn slash

lemma slash_notMem_splitOn {raw c : Bytes} (h : c ∈ raw.splitOn slash) : slash ∉ c := by
  induction raw generalizing c with
  | nil =>
      rw [List.splitOn_nil, List.mem_singleton] at h
      simp [h]
  | cons b raw ih =>
      rw [List.splitOn_cons_eq_if_modifyHead] at h
      split_ifs at h with hb
      · rcases List.mem_cons.mp h with rfl | h
        · simp
        · exact ih h
      · cases hs : raw.splitOn slash with
        | nil => exact absurd hs (List.splitOn_ne_nil _ _)
        | cons d ds =>
            rw [hs, List.modifyHead_cons, List.mem_cons] at h
            rcases h with rfl | h
            · have hd := ih (c := d) (by rw [hs]; exact List.mem_cons_self)
              rw [beq_iff_eq] at hb
              simpa [eq_comm, hb] using hd
            · exact ih (by rw [hs]; exact List.mem_cons_of_mem _ h)

lemma joinComponents_append {cs ds : List Bytes} (hc : cs ≠ []) (hd : ds ≠ []) :
    joinComponents (cs ++ ds) = joinComponents cs ++ slash :: joinComponents ds := by
  induction cs with
  | nil => exact absurd rfl hc
  | cons c cs ih =>
      cases cs with
      | nil =>
          cases ds with
          | nil => exact absurd rfl hd
          | cons d ds => simp [joinComponents, List.intercalate]
      | cons c' cs =>
          have ih := ih (List.cons_ne_nil _ _)
          simp only [joinComponents, List.intercalate, List.cons_append, List.intersperse_cons_cons,
            List.flatten_cons] at ih ⊢
          rw [ih]
          simp

lemma joinComponents_eq_nil {cs : List Bytes} : joinComponents cs = [] ↔ cs = [] ∨ cs = [[]] := by
  cases cs with
  | nil => simp [joinComponents]
  | cons c cs =>
      cases cs with
      | nil => simp [joinComponents, List.intercalate]
      | cons d cs => simp [joinComponents, List.intercalate]

/-- A component is no longer than the path. -/
lemma length_le_joinComponents {c : Bytes} {cs : List Bytes} (h : c ∈ cs) :
    c.length ≤ (joinComponents cs).length := by
  induction cs with
  | nil => cases h
  | cons d cs ih =>
      cases cs with
      | nil =>
          rw [List.mem_singleton.mp h]
          simp [joinComponents, List.intercalate]
      | cons d' cs =>
          have happend := joinComponents_append (List.cons_ne_nil d []) (List.cons_ne_nil d' cs)
          have hd : joinComponents [d] = d := by simp [joinComponents, List.intercalate]
          rw [List.singleton_append, hd] at happend
          rw [happend, List.length_append, List.length_cons]
          rcases List.mem_cons.mp h with rfl | h
          · omega
          · have := ih h
            omega

lemma isPath_components (raw : Bytes) : IsPath (components raw) := by
  refine ⟨fun c hc => ?_, fun h => ?_⟩
  · rw [components] at hc
    split_ifs at hc
    · cases hc
    · exact slash_notMem_splitOn hc
  · have hraw := joinComponents_components raw
    rw [h] at hraw
    have hnil : raw = [] := hraw.symm
    rw [components, if_pos hnil] at h
    cases h

/-- **The components of a joined path are those it was joined from.** -/
lemma components_joinComponents {cs : List Bytes} (h : IsPath cs) :
    components (joinComponents cs) = cs := by
  rw [components]
  split_ifs with hnil
  · rcases joinComponents_eq_nil.mp hnil with rfl | rfl
    · rfl
    · exact absurd rfl h.2
  · refine List.splitOn_intercalate slash h.1 ?_
    rintro rfl
    exact hnil rfl

lemma components_injective {raw raw' : Bytes} (h : components raw = components raw') :
    raw = raw' := by
  rw [← joinComponents_components raw, h, joinComponents_components]

@[simp] lemma components_eq_nil {raw : Bytes} : components raw = [] ↔ raw = [] := by
  rw [components]
  split_ifs with h
  · simp [h]
  · simp [h, List.splitOn_ne_nil]

/-! ## Encoded segments

A sealed component may have any byte, and a stored path must not have a slash, a zero or `0xff` in
a component.  The encoder escapes them with two bytes each and marks the empty component with a
prefix of its own.
-/

def emptyComponentPrefix : UInt8 := 0x01
def notEmptyComponentPrefix : UInt8 := 0x02
def escapeSlash : UInt8 := 0x2e
def escapeFF : UInt8 := 0xfe
def escape01 : UInt8 := 0x01

/-- One byte of `encode_segment`: an escape of two bytes for six of the byte values, among them the
escape bytes, and any other byte as it is. -/
def encodeByte (b : UInt8) : Bytes :=
  if b = escapeSlash then [escapeSlash, 1]
  else if b = escapeSlash + 1 then [escapeSlash, 2]
  else if b = escapeFF then [escapeFF, 1]
  else if b = escapeFF + 1 then [escapeFF, 2]
  else if b = escape01 - 1 then [escape01, 1]
  else if b = escape01 then [escape01, 2]
  else [b]

/-- `encode_segment`: a marker for the empty component, and for any other a marker with its bytes
escaped, so that no slash is left. -/
def encodeSegment (segment : Bytes) : Bytes :=
  if segment = [] then [emptyComponentPrefix]
  else notEmptyComponentPrefix :: segment.flatMap encodeByte

/-- `is_escape_byte`. -/
def isEscapeByte (b : UInt8) : Bool := b == escapeSlash || b == escapeFF || b == escape01

/-- `is_disallowed_byte`. -/
def isDisallowedByte (b : UInt8) : Bool := b == 0 || b == 0xff || b == slash

/-- The loop of `validate_encoded_segment`, behind the prefix byte: no disallowed byte, and every
escape byte followed by a one or a two. -/
def validateLoop : Bytes → Except Error Unit
  | [] => .ok ()
  | [b] =>
      if isEscapeByte b then .error ⟨.decryptionFailed, "invalid escape sequence"⟩
      else if isDisallowedByte b then .error ⟨.decryptionFailed, "invalid character"⟩
      else .ok ()
  | b :: c :: rest =>
      if isEscapeByte b then
        if c = 1 ∨ c = 2 then validateLoop rest
        else .error ⟨.decryptionFailed, "invalid escape sequence"⟩
      else if isDisallowedByte b then
        .error ⟨.decryptionFailed, "invalid character in segment"⟩
      else validateLoop (c :: rest)

/-- `validate_encoded_segment`: a prefix byte that says whether the component is empty, data exactly
if it is not, and what the loop checks of the data. -/
def validateEncodedSegment : Bytes → Except Error Unit
  | [] => .error ⟨.decryptionFailed, "encoded segment cannot be empty"⟩
  | b :: rest =>
      if b ≠ emptyComponentPrefix ∧ b ≠ notEmptyComponentPrefix then
        .error ⟨.decryptionFailed, "invalid segment prefix"⟩
      else if b = emptyComponentPrefix ∧ rest ≠ [] then
        .error ⟨.decryptionFailed, "segment encoded as empty but contains data"⟩
      else if b = notEmptyComponentPrefix ∧ rest = [] then
        .error ⟨.decryptionFailed, "segment encoded as not empty but doesn't contain data"⟩
      else validateLoop rest

/-- The loop of `decode_segment`, behind the prefix byte.  The arithmetic wraps. -/
def decodeLoop : Bytes → Bytes
  | [] => []
  | [b] => [b]
  | b :: c :: rest =>
      if b = escapeSlash ∨ b = escapeFF then (b + c - 1) :: decodeLoop rest
      else if b = escape01 then (c - 1) :: decodeLoop rest
      else b :: decodeLoop (c :: rest)

/-- `decode_segment`: the validator goes first, and the decoder relies on it. -/
def decodeSegment (segment : Bytes) : Except Error Bytes := do
  validateEncodedSegment segment
  if segment.head? = some emptyComponentPrefix then .ok []
  else .ok (decodeLoop segment.tail)

/-- A byte is encoded as itself or as an escape of two bytes. -/
lemma encodeByte_cases (b : UInt8) :
    encodeByte b = [b] ∧ isEscapeByte b = false ∧ isDisallowedByte b = false ∨
      ∃ e c, encodeByte b = [e, c] ∧ isEscapeByte e = true ∧ (c = 1 ∨ c = 2) ∧
        (if e = escapeSlash ∨ e = escapeFF then e + c - 1 else c - 1) = b ∧ slash ≠ e ∧
        slash ≠ c := by
  rw [encodeByte]
  split_ifs with h₁ h₂ h₃ h₄ h₅ h₆
  · subst h₁
    exact Or.inr ⟨_, _, rfl, by decide, Or.inl rfl, by decide, by decide, by decide⟩
  · subst h₂
    exact Or.inr ⟨_, _, rfl, by decide, Or.inr rfl, by decide, by decide, by decide⟩
  · subst h₃
    exact Or.inr ⟨_, _, rfl, by decide, Or.inl rfl, by decide, by decide, by decide⟩
  · subst h₄
    exact Or.inr ⟨_, _, rfl, by decide, Or.inr rfl, by decide, by decide, by decide⟩
  · subst h₅
    exact Or.inr ⟨_, _, rfl, by decide, Or.inl rfl, by decide, by decide, by decide⟩
  · subst h₆
    exact Or.inr ⟨_, _, rfl, by decide, Or.inr rfl, by decide, by decide, by decide⟩
  · refine Or.inl ⟨rfl, ?_, ?_⟩
    · simp [isEscapeByte, h₁, h₃, h₆]
    · have h0 : b ≠ 0 := h₅
      have hff : b ≠ 0xff := h₄
      have hslash : b ≠ slash := h₂
      simp [isDisallowedByte, h0, hff, hslash]

lemma slash_notMem_encodeByte (b : UInt8) : slash ∉ encodeByte b := by
  rcases encodeByte_cases b with ⟨h, _, hb⟩ | ⟨e, c, h, _, _, _, he, hc⟩
  · rw [h, List.mem_singleton]
    rintro rfl
    cases hb
  · simp [h, he, hc]

lemma validateLoop_cons {b : UInt8} {rest : Bytes} (he : isEscapeByte b = false)
    (hd : isDisallowedByte b = false) : validateLoop (b :: rest) = validateLoop rest := by
  cases rest with
  | nil => simp [validateLoop, he, hd]
  | cons c rest => simp [validateLoop, he, hd]

lemma decodeLoop_cons {b : UInt8} {rest : Bytes} (he : isEscapeByte b = false) :
    decodeLoop (b :: rest) = b :: decodeLoop rest := by
  simp only [isEscapeByte, Bool.or_eq_false_iff, beq_eq_false_iff_ne] at he
  cases rest with
  | nil => rfl
  | cons c rest => simp [decodeLoop, he]

lemma validateLoop_flatMap (segment : Bytes) :
    validateLoop (segment.flatMap encodeByte) = .ok () := by
  induction segment with
  | nil => rfl
  | cons b segment ih =>
      rw [List.flatMap_cons]
      rcases encodeByte_cases b with ⟨h, he, hd⟩ | ⟨e, c, h, he, hc, _⟩
      · rw [h, List.singleton_append, validateLoop_cons he hd, ih]
      · simp [h, validateLoop, he, hc, ih]

lemma decodeLoop_flatMap (segment : Bytes) :
    decodeLoop (segment.flatMap encodeByte) = segment := by
  induction segment with
  | nil => rfl
  | cons b segment ih =>
      rw [List.flatMap_cons]
      rcases encodeByte_cases b with ⟨h, he, _⟩ | ⟨e, c, h, he, _, hb, _⟩
      · rw [h, List.singleton_append, decodeLoop_cons he, ih]
      · have he' : ¬(e = escapeSlash ∨ e = escapeFF) → e = escape01 := by
          simpa [isEscapeByte, or_assoc, or_iff_not_imp_left] using he
        rw [h, List.cons_append, List.singleton_append, decodeLoop, ih]
        by_cases hs : e = escapeSlash ∨ e = escapeFF
        · rw [if_pos hs] at hb ⊢
          rw [hb]
        · rw [if_neg hs] at hb ⊢
          rw [if_pos (he' hs), hb]

/-- **A segment is decoded to what was encoded.** -/
lemma decodeSegment_encodeSegment (segment : Bytes) :
    decodeSegment (encodeSegment segment) = .ok segment := by
  rw [encodeSegment]
  split_ifs with h
  · rw [h]
    rfl
  · have hne : segment.flatMap encodeByte ≠ [] := by
      intro hnil
      have := decodeLoop_flatMap segment
      rw [hnil] at this
      exact h this.symm
    have hvalid : validateEncodedSegment (notEmptyComponentPrefix :: segment.flatMap encodeByte)
        = .ok () := by
      have hpref : notEmptyComponentPrefix ≠ emptyComponentPrefix := by decide
      rw [validateEncodedSegment, if_neg (by simp), if_neg (by simp [hpref]),
        if_neg (by simp [hne]), validateLoop_flatMap]
    have hhead : ¬some notEmptyComponentPrefix = some emptyComponentPrefix := by decide
    rw [decodeSegment, hvalid, Fallible.ok_bind, List.head?_cons, if_neg hhead, List.tail_cons,
      decodeLoop_flatMap]

lemma encodeSegment_ne_nil (segment : Bytes) : encodeSegment segment ≠ [] := by
  rw [encodeSegment]
  split_ifs
  · exact List.cons_ne_nil _ _
  · exact List.cons_ne_nil _ _

/-- **An encoded segment has no slash.** -/
lemma slash_notMem_encodeSegment (segment : Bytes) : slash ∉ encodeSegment segment := by
  rw [encodeSegment]
  split_ifs
  · decide
  · have hpref : slash ≠ notEmptyComponentPrefix := by decide
    simp only [List.mem_cons, hpref, false_or, List.mem_flatMap, not_exists, not_and]
    exact fun b _ => slash_notMem_encodeByte b

/-! ## Keys

The hash is a parameter.  Nothing in this module needs more of it than that it is a function.
-/

/-- `str::as_bytes`. -/
def utf8 (s : String) : Bytes := s.toUTF8.data.toList

/-- What the crate calls of others besides the ciphers: `HMAC-SHA512`, the URL-safe alphabet of
`base64`, whose decoder may refuse with a text, and the quoted form `{:?}` of bytes read as text. -/
structure PathPrimitives extends Primitives where
  hmacSha512 : Key → Bytes → Vector UInt8 64
  base64Decode : Bytes → Except String Bytes
  base64Encode : Bytes → Bytes
  debugText : Bytes → String

/-- `mac_prefix`. -/
def macPrefix (n : ℕ) (h : n ≤ 64) (mac : Vector UInt8 64) : Vector UInt8 n :=
  Vector.ofFn fun i => mac[i.val]

variable (prim : PathPrimitives)

/-- `Key::derive_path_component`: `HMAC-SHA512(key, "path:" + component)[0..32]`. -/
def derivePathComponent (key : Key) (component : Bytes) : Key :=
  macPrefix 32 (by decide) (prim.hmacSha512 key (utf8 "path:" ++ component))

/-- `derive_key`: `HMAC-SHA512(key, message)[0..32]`. -/
def deriveKey (key : Key) (message : String) : Key :=
  macPrefix 32 (by decide) (prim.hmacSha512 key (utf8 message))

/-- `derive_nonce`: `HMAC-SHA512(derived_key, "nonce")[0..24]`. -/
def deriveNonce (derivedKey : Key) : Nonce :=
  macPrefix 24 (by decide) (prim.hmacSha512 derivedKey (utf8 "nonce"))

/-! ## One-shot encryption

Path components are sealed as a whole, with a tag and without blocks.  The tag stands where the
layout of the cipher puts it, and opening splits the text there.
-/

/-- `aesgcm::encrypt` and `secretbox::encrypt`, which differ in their text and in the place of the
tag. -/
def sealOnce (a : Aead) (lay : Layout) (key : Key) (nonce data : Bytes) : Except Error Bytes :=
  match a.encryptDetached key nonce data with
  | none => .error ⟨.protocol, lay.encryptError⟩
  | some (c, t) => .ok (if lay.tagFirst then t ++ c else c ++ t)

/-- `aesgcm::decrypt` and `secretbox::decrypt`: the tag is split off where the layout has it, and
the rest is opened with it. -/
def openOnce (a : Aead) (lay : Layout) (key : Key) (nonce data : Bytes) : Except Error Bytes :=
  if data.length < tagSize then .error ⟨.decryptionFailed, lay.decryptError⟩
  else
    let split := if lay.tagFirst then tagSize else data.length - tagSize
    let (c, t) := if lay.tagFirst then (data.drop split, data.take split)
      else (data.take split, data.drop split)
    match a.decryptDetached key nonce c t with
    | none => .error ⟨.decryptionFailed, lay.decryptError⟩
    | some plain => .ok plain

/-- `encrypt` of `cipher.rs`.  Every caller has a nonce of 24 bytes. -/
def encrypt (data : Bytes) (cipher : CipherSuite) (key : Key) (nonce : Nonce) :
    Except Error Bytes :=
  if data = [] then .ok []
  else if cipher = .null then .ok data
  else if cipher = .aesGcm then sealOnce prim.aesGcm aesGcmLayout key (toAesGcmNonce nonce) data
  else if cipher = .secretBox then
    sealOnce prim.secretBox secretBoxLayout key nonce.toList data
  else .error (unsupported cipher)

/-- `decrypt` of `cipher.rs`: by the suite, with the first bytes of the nonce for AES-GCM.  No bytes
are opened to no bytes under any suite. -/
def decrypt (cipherData : Bytes) (cipher : CipherSuite) (key : Key) (nonce : Nonce) :
    Except Error Bytes :=
  if cipherData = [] then .ok []
  else if cipher = .null then .ok cipherData
  else if cipher = .aesGcm then
    openOnce prim.aesGcm aesGcmLayout key (toAesGcmNonce nonce) cipherData
  else if cipher = .secretBox then
    openOnce prim.secretBox secretBoxLayout key nonce.toList cipherData
  else .error (unsupported cipher)

variable {prim}

/-- What was sealed is never empty and opens. -/
lemma openOnce_sealOnce {a : Aead} (ha : a.Lawful) {lay : Layout} {key : Key}
    {nonce data out : Bytes} (h : sealOnce a lay key nonce data = .ok out) :
    out ≠ [] ∧ openOnce a lay key nonce out = .ok data := by
  rw [sealOnce] at h
  cases hsealed : a.encryptDetached key nonce data with
  | none =>
      rw [hsealed] at h
      cases h
  | some ct =>
      obtain ⟨c, t⟩ := ct
      rw [hsealed] at h
      cases h
      obtain ⟨hlong, hsplit⟩ := split_layout lay (c := c) (ha.length_tag hsealed)
      constructor
      · intro hnil
        rw [hnil] at hlong
        exact hlong (by decide)
      · rw [openOnce, if_neg hlong]
        dsimp only at hsplit ⊢
        rw [hsplit, ha.decrypt_encrypt hsealed]

/-- The nonce matters to AES-GCM only in its first twelve bytes. -/
def SameNonce (cipher : CipherSuite) (nonce nonce' : Nonce) : Prop :=
  if cipher = .aesGcm then toAesGcmNonce nonce = toAesGcmNonce nonce' else nonce = nonce'

/-- **The one-shot operations undo each other.** -/
lemma decrypt_encrypt (haes : prim.aesGcm.Lawful) (hbox : prim.secretBox.Lawful) {data out : Bytes}
    {cipher : CipherSuite} {key : Key} {nonce nonce' : Nonce}
    (hnonce : SameNonce cipher nonce nonce') (h : encrypt prim data cipher key nonce = .ok out) :
    decrypt prim out cipher key nonce' = .ok data := by
  rw [encrypt] at h
  split_ifs at h with hdata hnull hgcm hsb
  · cases h
    rw [hdata, decrypt, if_pos rfl]
  · cases h
    rw [decrypt, if_neg hdata, if_pos hnull]
  · obtain ⟨hne, hopen⟩ := openOnce_sealOnce haes h
    rw [SameNonce, if_pos hgcm] at hnonce
    rw [decrypt, if_neg hne, if_neg hnull, if_pos hgcm, ← hnonce, hopen]
  · obtain ⟨hne, hopen⟩ := openOnce_sealOnce hbox h
    rw [SameNonce, if_neg hgcm] at hnonce
    rw [decrypt, if_neg hne, if_neg hnull, if_neg hgcm, if_pos hsb, ← hnonce, hopen]

/-! ## One component

By the cipher: under the null cipher a component stays as it is, under the bypass cipher it is
taken for base 64 and decoded, and the two real ones seal it under a derived nonce, store the nonce
in front as far as it is used, and encode the result.
-/

variable (prim)

/-- How many bytes of the nonce a component stores. -/
def nonceSize (cipher : CipherSuite) : ℕ := if cipher = .aesGcm then 12 else 24

lemma nonceSize_le (cipher : CipherSuite) : nonceSize cipher ≤ 24 := by
  rw [nonceSize]
  split_ifs
  · decide
  · decide

/-- `encrypt_path_component`: sealed with the parent's key, under a nonce derived from the component
itself. -/
def encryptPathComponent (comp : Bytes) (cipher : CipherSuite) (key : Key) : Except Error Bytes :=
  if cipher = .null then .ok comp
  else if cipher = .nullBase64Url then
    match prim.base64Decode comp with
    | .error e => .error ⟨.invalidConfig, s!"invalid base64 data: {e}"⟩
    | .ok decoded => .ok decoded
  else do
    let nonce := deriveNonce prim (derivePathComponent prim key comp)
    let cipherText ← encrypt prim comp cipher key nonce
    .ok (encodeSegment (nonce.toList.take (nonceSize cipher) ++ cipherText))

/-- `nonce_from_prefix`: the unused suffix stays zero. -/
def nonceFromPrefix (nonce : Bytes) : Nonce := Vector.ofFn fun i => nonce.getD i.val 0

/-- `decrypt_path_component`: the encoded component is decoded, its stored nonce taken off, and the
rest opened.  The empty component is opened to itself. -/
def decryptPathComponent (comp : Bytes) (cipher : CipherSuite) (key : Key) :
    Except Error Bytes :=
  if comp = [] then .ok []
  else if cipher = .null then .ok comp
  else if cipher = .nullBase64Url then .ok (prim.base64Encode comp)
  else do
    let data ← decodeSegment comp
    if data.length < nonceSize cipher then
      .error ⟨.decryptionFailed, "component did not contain enough nonce bytes"⟩
    else
      decrypt prim (data.drop (nonceSize cipher)) cipher key
        (nonceFromPrefix (data.take (nonceSize cipher)))

variable {prim}

/-- The stored part of a nonce is all that the cipher uses. -/
lemma sameNonce_cut (cipher : CipherSuite) (nonce : Nonce) :
    SameNonce cipher nonce (nonceFromPrefix (nonce.toList.take (nonceSize cipher))) := by
  rw [SameNonce, nonceSize]
  split_ifs with h
  · refine List.ext_getElem ?_ fun i h₁ h₂ => ?_
    · simp [toAesGcmNonce]
    · have hi : i < 12 := by
        rw [toAesGcmNonce, List.length_take] at h₁
        omega
      simp [toAesGcmNonce, nonceFromPrefix, hi]
  · refine Vector.ext fun i hi => ?_
    simp [nonceFromPrefix]

/-- **What a sealed component is**: itself under the null cipher, else an encoded segment. -/
lemma encryptPathComponent_eq_ok {comp out : Bytes} {cipher : CipherSuite} {key : Key}
    (hcipher : cipher ≠ .nullBase64Url) (h : encryptPathComponent prim comp cipher key = .ok out) :
    cipher = .null ∧ out = comp ∨
      cipher ≠ .null ∧ ∃ cipherText,
        encrypt prim comp cipher key (deriveNonce prim (derivePathComponent prim key comp))
          = .ok cipherText ∧
        out = encodeSegment ((deriveNonce prim (derivePathComponent prim key comp)).toList.take
          (nonceSize cipher) ++ cipherText) := by
  rw [encryptPathComponent] at h
  by_cases hnull : cipher = .null
  · rw [if_pos hnull] at h
    cases h
    exact Or.inl ⟨hnull, rfl⟩
  · rw [if_neg hnull, if_neg hcipher] at h
    obtain ⟨cipherText, hct, hout⟩ := Fallible.bind_eq_ok.mp h
    cases hout
    exact Or.inr ⟨hnull, cipherText, hct, rfl⟩

/-- **A sealed component has no slash.** -/
lemma slash_notMem_encryptPathComponent {comp out : Bytes} {cipher : CipherSuite} {key : Key}
    (hcipher : cipher ≠ .nullBase64Url) (hcomp : slash ∉ comp)
    (h : encryptPathComponent prim comp cipher key = .ok out) : slash ∉ out := by
  rcases encryptPathComponent_eq_ok hcipher h with ⟨_, rfl⟩ | ⟨_, _, _, rfl⟩
  · exact hcomp
  · exact slash_notMem_encodeSegment _

lemma encryptPathComponent_ne_nil {comp out : Bytes} {cipher : CipherSuite} {key : Key}
    (hcipher : cipher ≠ .nullBase64Url) (hcomp : comp ≠ [])
    (h : encryptPathComponent prim comp cipher key = .ok out) : out ≠ [] := by
  rcases encryptPathComponent_eq_ok hcipher h with ⟨_, rfl⟩ | ⟨_, _, _, rfl⟩
  · exact hcomp
  · exact encodeSegment_ne_nil _

/-- **A sealed component opens to its plaintext.** -/
lemma decryptPathComponent_encryptPathComponent (haes : prim.aesGcm.Lawful)
    (hbox : prim.secretBox.Lawful) {comp out : Bytes} {cipher : CipherSuite} {key : Key}
    (hcipher : cipher ≠ .nullBase64Url) (h : encryptPathComponent prim comp cipher key = .ok out) :
    decryptPathComponent prim out cipher key = .ok comp := by
  rcases encryptPathComponent_eq_ok hcipher h with ⟨hnull, rfl⟩ | ⟨hnull, cipherText, hct, rfl⟩
  · rw [decryptPathComponent]
    split_ifs with hout
    · rw [hout]
    · rfl
  · have hlen : ((deriveNonce prim (derivePathComponent prim key comp)).toList.take
        (nonceSize cipher)).length = nonceSize cipher := by
      rw [List.length_take, Vector.length_toList]
      exact Nat.min_eq_left (nonceSize_le cipher)
    rw [decryptPathComponent, if_neg (encodeSegment_ne_nil _), if_neg hnull, if_neg hcipher,
      decodeSegment_encodeSegment, Fallible.ok_bind, if_neg (by rw [List.length_append]; omega),
      List.drop_left' hlen, List.take_left' hlen]
    exact decrypt_encrypt haes hbox (sameNonce_cut _ _) hct

end Storj.Enc
