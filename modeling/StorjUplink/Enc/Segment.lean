import StorjUplink.Enc.Path

/-!
# Encoded segments

`encode_segment` writes a component without `0x00`, `0xff` and `/`; three escape bytes stand for six
bytes, each with a suffix of one or two.  `decode_segment` first validates and then decodes, in two
loops over indices.

The escape of a byte is what the decoder turns back into it, and what the validator lets through is
an escape or a byte that is its own encoding (`flatMap_encodeByte_decodeLoop`).  So the valid
strings are the encodings and no others.  `Indexed` has the two loops with their indices, where a
lookup may panic and a loop may not end; neither happens (`Indexed.decodeSegment_eq`).

The model with lists (`encodeSegment`, `decodeSegment`) is the one that everything else uses.  It
is a recursion on the bytes, and in it there is nothing that could go out of range.  The source has
loops over an index that look one byte ahead, subtract one from a length, and move on by one or
two.  `Indexed` repeats them as they are, with a result for a panic and one for a loop that does
not end, and the last section shows that the two models agree on every byte string.

The bijection is stated over the second model, so that its three halves (what is written is
accepted, what is accepted was written, and every input has an answer) are about the loops of the
source.
-/

namespace Storj.Enc

/-! ## What the validator lets through

Behind the prefix a valid string is a sequence of plain bytes and complete escapes.  Both are
encodings of one byte, so the string is the encoding of what the decoder makes of it.
-/

/-- A byte that is neither an escape nor disallowed is its own encoding. -/
lemma encodeByte_plain {b : UInt8} (he : isEscapeByte b = false) (hd : isDisallowedByte b = false) :
    encodeByte b = [b] := by
  rcases encodeByte_cases b with ⟨h, -, -⟩ | ⟨e, c, h, hesc, hc, hb, -, -⟩
  · exact h
  · -- the six bytes that are escaped are the escapes and the disallowed ones
    exfalso
    simp only [isEscapeByte, Bool.or_eq_true, beq_iff_eq] at hesc
    rcases hesc with (rfl | rfl) | rfl <;> rcases hc with rfl | rfl <;> subst hb
    · exact absurd he (by decide)
    · exact absurd hd (by decide)
    · exact absurd he (by decide)
    · exact absurd hd (by decide)
    · exact absurd hd (by decide)
    · exact absurd he (by decide)

/-- An escape with its suffix is the encoding of what the decoder makes of it. -/
lemma encodeByte_escape {e c : UInt8} (he : isEscapeByte e = true) (hc : c = 1 ∨ c = 2) :
    encodeByte (if e = escapeSlash ∨ e = escapeFF then e + c - 1 else c - 1) = [e, c] := by
  simp only [isEscapeByte, Bool.or_eq_true, beq_iff_eq] at he
  rcases he with (rfl | rfl) | rfl <;> rcases hc with rfl | rfl <;> decide

/-- The decoder on an escape. -/
lemma decodeLoop_escape {e c : UInt8} {rest : Bytes} (he : isEscapeByte e = true) :
    decodeLoop (e :: c :: rest)
      = (if e = escapeSlash ∨ e = escapeFF then e + c - 1 else c - 1) :: decodeLoop rest := by
  simp only [isEscapeByte, Bool.or_eq_true, beq_iff_eq] at he
  rw [decodeLoop]
  split_ifs with h h01
  · rfl
  · rfl
  · exact absurd (he.resolve_left h) h01

/-- **What is valid is an encoding**: that of what the decoder makes of it. -/
theorem flatMap_encodeByte_decodeLoop {l : Bytes} (h : validateLoop l = .ok ()) :
    (decodeLoop l).flatMap encodeByte = l := by
  induction l using validateLoop.induct with
  | case1 => rfl
  | case2 b he =>
      rw [validateLoop, if_pos he] at h
      cases h
  | case3 b he hd =>
      rw [validateLoop, if_neg he, if_pos hd] at h
      cases h
  | case4 b he hd =>
      rw [decodeLoop, List.flatMap_singleton]
      exact encodeByte_plain (Bool.eq_false_of_not_eq_true he) (Bool.eq_false_of_not_eq_true hd)
  | case5 b c rest he hc ih =>
      rw [validateLoop, if_pos he, if_pos hc] at h
      rw [decodeLoop_escape he, List.flatMap_cons, encodeByte_escape he hc, ih h]
      rfl
  | case6 b c rest he hc =>
      rw [validateLoop, if_pos he, if_neg hc] at h
      cases h
  | case7 b c rest he hd =>
      rw [validateLoop, if_neg he, if_pos hd] at h
      cases h
  | case8 b c rest he hd ih =>
      rw [validateLoop, if_neg he, if_neg hd] at h
      have he := Bool.eq_false_of_not_eq_true he
      rw [decodeLoop_cons he, List.flatMap_cons, ih h,
        encodeByte_plain he (Bool.eq_false_of_not_eq_true hd)]
      rfl

/-- **What `decode_segment` accepts is the encoding of what it returns.** -/
lemma encodeSegment_of_decodeSegment {e s : Bytes} (h : decodeSegment e = .ok s) :
    encodeSegment s = e := by
  rw [decodeSegment, Fallible.bind_eq_ok] at h
  obtain ⟨⟨⟩, hvalid, h⟩ := h
  cases e with
  | nil => cases hvalid
  | cons b rest =>
      rw [List.head?_cons, List.tail_cons] at h
      rw [validateEncodedSegment] at hvalid
      split_ifs at hvalid with hpref hempty hfull
      split_ifs at h with hb
      · -- nothing may follow the prefix of the empty segment
        obtain rfl : b = emptyComponentPrefix := Option.some.inj hb
        obtain rfl : rest = [] := by
          by_contra hne
          exact hempty ⟨rfl, hne⟩
        cases h
        rfl
      · have hb : b ≠ emptyComponentPrefix := fun heq => hb (congrArg some heq)
        obtain rfl : b = notEmptyComponentPrefix := by
          by_contra hne
          exact hpref ⟨hb, hne⟩
        cases h
        have hloop := flatMap_encodeByte_decodeLoop hvalid
        rw [encodeSegment, if_neg, hloop]
        intro hnil
        rw [hnil] at hloop
        exact hfull ⟨rfl, hloop.symm⟩

/-- No byte of an encoding is disallowed. -/
lemma allowed_of_mem_encodeByte {b x : UInt8} (hx : x ∈ encodeByte b) :
    isDisallowedByte x = false := by
  rcases encodeByte_cases b with ⟨h, -, hb⟩ | ⟨e, c, h, he, hc, -, -, -⟩
  · rw [h, List.mem_singleton] at hx
    rwa [hx]
  · rw [h] at hx
    simp only [isEscapeByte, Bool.or_eq_true, beq_iff_eq] at he
    rcases List.mem_cons.mp hx with rfl | hx
    · rcases he with (rfl | rfl) | rfl <;> decide
    · rw [List.mem_singleton] at hx
      subst hx
      rcases hc with rfl | rfl <;> decide

lemma allowed_of_mem_encodeSegment {s : Bytes} {x : UInt8} (hx : x ∈ encodeSegment s) :
    isDisallowedByte x = false := by
  rw [encodeSegment] at hx
  split_ifs at hx
  · rw [List.mem_singleton.mp hx]
    decide
  · rcases List.mem_cons.mp hx with rfl | hx
    · decide
    · obtain ⟨b, -, hb⟩ := List.mem_flatMap.mp hx
      exact allowed_of_mem_encodeByte hb

/-! ## The loops with their indices

Indexing out of range is a panic, the subtraction of one from an empty length another.  Fuel stands
for the turns of a loop, and running out of it for a loop that goes on for ever.
-/

namespace Indexed

/-- How a call ends without a value: a panic, no end at all, or an error. -/
inductive Stop where
  | panic
  | diverge
  | err (e : Error)
deriving DecidableEq

/-- An error that the source returns. -/
def fail {α : Type} (text : String) : Except Stop α := .error (.err ⟨.decryptionFailed, text⟩)

/-- `segment[i]`, which panics past the end. -/
def byteAt (segment : Bytes) (i : ℕ) : Except Stop UInt8 :=
  match segment[i]? with
  | some b => .ok b
  | none => .error .panic

/-- `segment.len() - 1`, which underflows for an empty segment. -/
def lastIndex (segment : Bytes) : Except Stop ℕ :=
  if segment.length = 0 then .error .panic else .ok (segment.length - 1)

/-- The check behind the loop of `validate_encoded_segment`: where the loop stopped at the last
byte, that byte is no escape and not disallowed. -/
def validateLast (segment : Bytes) (index : ℕ) : Except Stop Unit := do
  let last ← lastIndex segment
  if index = last then
    let b ← byteAt segment index
    if isEscapeByte b then fail "invalid escape sequence"
    else
      let b ← byteAt segment index
      if isDisallowedByte b then fail "invalid character" else .ok ()
  else .ok ()

/-- The loop of `validate_encoded_segment`, at an index.  It runs while there is a byte behind the
index, and moves on by two where it is an escape. -/
def validateFrom (segment : Bytes) : ℕ → ℕ → Except Stop Unit
  | 0, _ => .error .diverge
  | fuel + 1, index => do
      let last ← lastIndex segment
      if index < last then
        let b ← byteAt segment index
        if isEscapeByte b then
          let c ← byteAt segment (index + 1)
          if c = 1 then validateFrom segment fuel (index + 2)
          else
            let c ← byteAt segment (index + 1)
            if c = 2 then validateFrom segment fuel (index + 2)
            else fail "invalid escape sequence"
        else
          let b ← byteAt segment index
          if isDisallowedByte b then fail "invalid character in segment"
          else validateFrom segment fuel (index + 1)
      else validateLast segment index

/-- `validate_encoded_segment`, with as much fuel for its loop as it is given. -/
def validateEncodedSegment (fuel : ℕ) (segment : Bytes) : Except Stop Unit :=
  match segment with
  | [] => fail "encoded segment cannot be empty"
  | b :: rest =>
      if b ≠ emptyComponentPrefix ∧ b ≠ notEmptyComponentPrefix then fail "invalid segment prefix"
      else if b = emptyComponentPrefix ∧ rest ≠ [] then
        fail "segment encoded as empty but contains data"
      else if b = notEmptyComponentPrefix ∧ rest = [] then
        fail "segment encoded as not empty but doesn't contain data"
      else if segment.length = 1 then .ok ()
      else validateFrom segment fuel 1

/-- The loop of `decode_segment`, at an index, with the bytes so far.  The last byte is copied
without being looked at, since the validator has seen it. -/
def decodeFrom (segment : Bytes) : ℕ → ℕ → Bytes → Except Stop Bytes
  | 0, _, _ => .error .diverge
  | fuel + 1, i, out => do
      if i < segment.length then
        let last ← lastIndex segment
        if i = last then
          let b ← byteAt segment i
          .ok (out ++ [b])
        else
          let b ← byteAt segment i
          if b = escapeSlash ∨ b = escapeFF then
            let c ← byteAt segment (i + 1)
            decodeFrom segment fuel (i + 2) (out ++ [b + c - 1])
          else if b = escape01 then
            let c ← byteAt segment (i + 1)
            decodeFrom segment fuel (i + 2) (out ++ [c - 1])
          else decodeFrom segment fuel (i + 1) (out ++ [b])
      else .ok out

/-- `decode_segment`: validated first, so that the loop finds a byte behind every escape. -/
def decodeSegment (fuel : ℕ) (segment : Bytes) : Except Stop Bytes := do
  validateEncodedSegment fuel segment
  let b ← byteAt segment 0
  if b = emptyComponentPrefix then .ok []
  else
    let _ ← lastIndex segment
    decodeFrom segment fuel 1 []

/-- `decode_segment`, with one turn of its loops for every byte. -/
def run (segment : Bytes) : Except Stop Bytes := decodeSegment segment.length segment

/-- What the source returns: no panic, and an end. -/
def returned {α : Type} (x : Except Error α) : Except Stop α := x.mapError .err

/-! ### The indices are in range

The loops are compared with the recursion at an index: what is left of the input is the list behind
it.  The empty input never reaches the subtraction, since the length is tested before.
-/

variable {segment rest : Bytes} {i : ℕ} {b c : UInt8}

lemma byteAt_of_drop (h : segment.drop i = b :: rest) : byteAt segment i = .ok b := by
  have hget : segment[i]? = some b := by
    rw [← List.head?_drop, h, List.head?_cons]
  rw [byteAt, hget]

lemma drop_succ_of_drop (h : segment.drop i = b :: rest) : segment.drop (i + 1) = rest := by
  rw [← List.tail_drop, h, List.tail_cons]

lemma ne_nil_of_drop (h : segment.drop i = b :: rest) : segment ≠ [] := by
  rintro rfl
  simp at h

lemma lastIndex_of_ne_nil (h : segment ≠ []) : lastIndex segment = .ok (segment.length - 1) := by
  rw [lastIndex, if_neg (mt List.length_eq_zero_iff.mp h)]

lemma length_of_drop (h : segment.drop i = rest) (hne : rest ≠ []) :
    segment.length = i + rest.length := by
  have hlen := congrArg List.length h
  have hpos := List.length_pos_iff.mpr hne
  rw [List.length_drop] at hlen
  omega

/-- The validator behind the last byte. -/
lemma validateFrom_end {fuel : ℕ} (hdrop : segment.drop i = []) (hne : segment ≠ []) :
    validateFrom segment (fuel + 1) i = .ok () := by
  have hpos := List.length_pos_iff.mpr hne
  have hle := List.drop_eq_nil_iff.mp hdrop
  rw [validateFrom, lastIndex_of_ne_nil hne, Fallible.ok_bind, if_neg (by omega), validateLast,
    lastIndex_of_ne_nil hne, Fallible.ok_bind, if_neg (by omega)]

/-- The validator at the last byte. -/
lemma validateFrom_last {fuel : ℕ} (hdrop : segment.drop i = [b]) :
    validateFrom segment (fuel + 1) i = returned (validateLoop [b]) := by
  have hlen := length_of_drop hdrop (List.cons_ne_nil _ _)
  have hne := ne_nil_of_drop hdrop
  rw [List.length_singleton] at hlen
  rw [validateFrom, lastIndex_of_ne_nil hne, Fallible.ok_bind, if_neg (by omega), validateLast,
    lastIndex_of_ne_nil hne, Fallible.ok_bind, if_pos (by omega), byteAt_of_drop hdrop,
    Fallible.ok_bind, Fallible.ok_bind, validateLoop]
  split_ifs
  · rfl
  · rfl
  · rfl

/-- The validator at a byte that others follow. -/
lemma validateFrom_more {fuel : ℕ} (hdrop : segment.drop i = b :: c :: rest) :
    validateFrom segment (fuel + 1) i =
      if isEscapeByte b then
        if c = 1 ∨ c = 2 then validateFrom segment fuel (i + 2) else fail "invalid escape sequence"
      else if isDisallowedByte b then fail "invalid character in segment"
      else validateFrom segment fuel (i + 1) := by
  have hlen := length_of_drop hdrop (List.cons_ne_nil _ _)
  have hne := ne_nil_of_drop hdrop
  rw [List.length_cons, List.length_cons] at hlen
  rw [validateFrom, lastIndex_of_ne_nil hne, Fallible.ok_bind, if_pos (by omega),
    byteAt_of_drop hdrop, byteAt_of_drop (drop_succ_of_drop hdrop)]
  simp only [Fallible.ok_bind]
  by_cases he : isEscapeByte b = true
  · rw [if_pos he, if_pos he]
    by_cases h1 : c = 1
    · rw [if_pos h1, if_pos (Or.inl h1)]
    · by_cases h2 : c = 2
      · rw [if_neg h1, if_pos h2, if_pos (Or.inr h2)]
      · rw [if_neg h1, if_neg h2, if_neg (by simp [h1, h2])]
  · rw [if_neg he, if_neg he]

/-- **The loop of the validator** runs through what is behind the index. -/
lemma validateFrom_eq {fuel : ℕ} (hdrop : segment.drop i = rest) (hne : segment ≠ [])
    (hfuel : rest.length < fuel) :
    validateFrom segment fuel i = returned (validateLoop rest) := by
  obtain ⟨fuel, rfl⟩ : ∃ n, fuel = n + 1 := ⟨fuel - 1, by omega⟩
  induction rest using validateLoop.induct generalizing i fuel with
  | case1 =>
      rw [validateFrom_end hdrop hne]
      rfl
  | case2 b he => exact validateFrom_last hdrop
  | case3 b he hd => exact validateFrom_last hdrop
  | case4 b he hd => exact validateFrom_last hdrop
  | case5 b c rest he hc ih =>
      rw [List.length_cons, List.length_cons] at hfuel
      obtain ⟨fuel, rfl⟩ : ∃ n, fuel = n + 1 := ⟨fuel - 1, by omega⟩
      rw [validateFrom_more hdrop, if_pos he, if_pos hc, validateLoop, if_pos he, if_pos hc]
      exact ih (drop_succ_of_drop (drop_succ_of_drop hdrop)) fuel (by omega)
  | case6 b c rest he hc =>
      rw [validateFrom_more hdrop, if_pos he, if_neg hc, validateLoop, if_pos he, if_neg hc]
      rfl
  | case7 b c rest he hd =>
      rw [validateFrom_more hdrop, if_neg he, if_pos hd, validateLoop, if_neg he, if_pos hd]
      rfl
  | case8 b c rest he hd ih =>
      rw [List.length_cons] at hfuel
      obtain ⟨fuel, rfl⟩ : ∃ n, fuel = n + 1 := ⟨fuel - 1, by omega⟩
      rw [validateFrom_more hdrop, if_neg he, if_neg hd, validateLoop, if_neg he, if_neg hd]
      exact ih (drop_succ_of_drop hdrop) fuel (by omega)

lemma validateEncodedSegment_eq {fuel : ℕ} (hfuel : segment.length ≤ fuel) :
    validateEncodedSegment fuel segment = returned (Enc.validateEncodedSegment segment) := by
  cases segment with
  | nil => rfl
  | cons b rest =>
      rw [validateEncodedSegment, Enc.validateEncodedSegment]
      split_ifs with hpref hempty hfull hlen
      · rfl
      · rfl
      · rfl
      · obtain rfl : rest = [] := List.length_eq_zero_iff.mp (by simpa using hlen)
        rfl
      · rw [List.length_cons] at hfuel
        exact validateFrom_eq rfl (List.cons_ne_nil _ _) hfuel

/-- The decoder at a byte that others follow. -/
lemma decodeFrom_more {fuel : ℕ} {out : Bytes} (hdrop : segment.drop i = b :: c :: rest) :
    decodeFrom segment (fuel + 1) i out =
      if b = escapeSlash ∨ b = escapeFF then decodeFrom segment fuel (i + 2) (out ++ [b + c - 1])
      else if b = escape01 then decodeFrom segment fuel (i + 2) (out ++ [c - 1])
      else decodeFrom segment fuel (i + 1) (out ++ [b]) := by
  have hlen := length_of_drop hdrop (List.cons_ne_nil _ _)
  have hne := ne_nil_of_drop hdrop
  rw [List.length_cons, List.length_cons] at hlen
  rw [decodeFrom, if_pos (by omega), lastIndex_of_ne_nil hne, Fallible.ok_bind, if_neg (by omega),
    byteAt_of_drop hdrop, byteAt_of_drop (drop_succ_of_drop hdrop)]
  simp only [Fallible.ok_bind]

/-- **The loop of the decoder** runs through what is behind the index. -/
lemma decodeFrom_eq {fuel : ℕ} {out : Bytes} (hdrop : segment.drop i = rest)
    (hfuel : rest.length < fuel) :
    decodeFrom segment fuel i out = .ok (out ++ decodeLoop rest) := by
  obtain ⟨fuel, rfl⟩ : ∃ n, fuel = n + 1 := ⟨fuel - 1, by omega⟩
  induction rest using decodeLoop.induct generalizing i fuel out with
  | case1 =>
      have hle := List.drop_eq_nil_iff.mp hdrop
      rw [decodeFrom, if_neg (by omega), decodeLoop, List.append_nil]
  | case2 b =>
      have hlen := length_of_drop hdrop (List.cons_ne_nil _ _)
      rw [List.length_singleton] at hlen
      have hne := ne_nil_of_drop hdrop
      rw [decodeFrom, if_pos (by omega), lastIndex_of_ne_nil hne, Fallible.ok_bind,
        if_pos (by omega), byteAt_of_drop hdrop, Fallible.ok_bind, decodeLoop]
  | case3 b c rest hb ih =>
      rw [List.length_cons, List.length_cons] at hfuel
      obtain ⟨fuel, rfl⟩ : ∃ n, fuel = n + 1 := ⟨fuel - 1, by omega⟩
      rw [decodeFrom_more hdrop, if_pos hb, decodeLoop, if_pos hb,
        ih (drop_succ_of_drop (drop_succ_of_drop hdrop)) fuel (by omega), List.append_assoc]
      rfl
  | case4 c rest hb ih =>
      rw [List.length_cons, List.length_cons] at hfuel
      obtain ⟨fuel, rfl⟩ : ∃ n, fuel = n + 1 := ⟨fuel - 1, by omega⟩
      rw [decodeFrom_more hdrop, if_neg hb, if_pos rfl, decodeLoop, if_neg hb, if_pos rfl,
        ih (drop_succ_of_drop (drop_succ_of_drop hdrop)) fuel (by omega), List.append_assoc]
      rfl
  | case5 b c rest hb h01 ih =>
      rw [List.length_cons] at hfuel
      obtain ⟨fuel, rfl⟩ : ∃ n, fuel = n + 1 := ⟨fuel - 1, by omega⟩
      rw [decodeFrom_more hdrop, if_neg hb, if_neg h01, decodeLoop, if_neg hb, if_neg h01,
        ih (drop_succ_of_drop hdrop) fuel (by omega), List.append_assoc]
      rfl

/-- **`decode_segment` neither panics nor loops**, and its indices read what the lists say. -/
theorem decodeSegment_eq {fuel : ℕ} (hfuel : segment.length ≤ fuel) :
    decodeSegment fuel segment = returned (Enc.decodeSegment segment) := by
  rw [decodeSegment, Enc.decodeSegment, validateEncodedSegment_eq hfuel]
  cases hvalid : Enc.validateEncodedSegment segment with
  | error e => rfl
  | ok _ =>
      cases segment with
      | nil => cases hvalid
      | cons b rest =>
          rw [List.length_cons] at hfuel
          have hret : returned (.ok () : Except Error Unit) = .ok () := rfl
          rw [hret, Fallible.ok_bind, Fallible.ok_bind, byteAt_of_drop (i := 0) rfl,
            Fallible.ok_bind, List.head?_cons, List.tail_cons]
          by_cases hb : b = emptyComponentPrefix
          · rw [if_pos hb, if_pos (congrArg some hb)]
            rfl
          · rw [if_neg hb, if_neg (fun heq => hb (Option.some.inj heq)),
              lastIndex_of_ne_nil (List.cons_ne_nil _ _), Fallible.ok_bind,
              decodeFrom_eq rfl hfuel, List.nil_append]
            rfl

lemma run_eq_ok {e s : Bytes} : run e = .ok s ↔ Enc.decodeSegment e = .ok s := by
  rw [run, decodeSegment_eq le_rfl]
  cases Enc.decodeSegment e with
  | error _ => simp [returned, Except.mapError]
  | ok _ => simp [returned, Except.mapError]

lemma run_ends (e : Bytes) : run e ≠ .error .panic ∧ run e ≠ .error .diverge := by
  rw [run, decodeSegment_eq le_rfl]
  cases Enc.decodeSegment e with
  | error _ => simp [returned, Except.mapError]
  | ok _ => simp [returned, Except.mapError]

end Indexed

/-- **The encoding is a bijection onto the valid strings.**  `decode_segment` takes back what
`encode_segment` writes, without `0x00`, `0xff` and `/`, accepts nothing else, and on every byte
string it ends without a panic. -/
theorem encodeSegment_bijective :
    (∀ s, Indexed.run (encodeSegment s) = .ok s) ∧
    (∀ s, 0x00 ∉ encodeSegment s ∧ 0xff ∉ encodeSegment s ∧ slash ∉ encodeSegment s) ∧
    (∀ e s, Indexed.run e = .ok s → encodeSegment s = e) ∧
    (∀ e, (∃ s, Indexed.run e = .ok s) ↔ ∃ s, encodeSegment s = e) ∧
    ∀ e, Indexed.run e ≠ .error .panic ∧ Indexed.run e ≠ .error .diverge := by
  have hback : ∀ s, Indexed.run (encodeSegment s) = .ok s := fun s =>
    Indexed.run_eq_ok.mpr (decodeSegment_encodeSegment s)
  have honto : ∀ e s, Indexed.run e = .ok s → encodeSegment s = e := fun e s h =>
    encodeSegment_of_decodeSegment (Indexed.run_eq_ok.mp h)
  refine ⟨hback, ?_, honto, ?_, Indexed.run_ends⟩
  · intro s
    refine ⟨?_, ?_, slash_notMem_encodeSegment s⟩
    · intro hmem
      have hallowed := allowed_of_mem_encodeSegment hmem
      revert hallowed
      decide
    · intro hmem
      have hallowed := allowed_of_mem_encodeSegment hmem
      revert hallowed
      decide
  · intro e
    constructor
    · rintro ⟨s, h⟩
      exact ⟨s, honto e s h⟩
    · rintro ⟨s, rfl⟩
      exact ⟨s, hback s⟩

end Storj.Enc
