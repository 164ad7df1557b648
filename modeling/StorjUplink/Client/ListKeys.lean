import StorjUplink.Client.Listing
import StorjUplink.Enc.Below

/-!
# Listed keys

What a listing shows of the keys below a prefix.  A recursive one shows them as they are; one that
is not shows the first component of a key that has more of them, with its slash, and shows it once
(`collapse`).  The satellite does so with the sealed keys: what it shows opens to what is shown of
the plain ones (`ListKeyCodec.decodeKey_collapse`), and different ones to different ones
(`collapse_sealed_inj`).

The delimiter of a listing is a slash, and both sides use it: the satellite on sealed keys, the
caller on plain ones.  For the two to mean the same, the first slash of a sealed key has to be
where the first slash of the plain key was, and that holds because no sealed component has a slash
and each component is sealed by itself.

Shown keys are shown once.  Two keys with one first component are collapsed to one entry on either
side, and the entry opens to what is shown of both; keys that are collapsed to different entries in
the plain are different in the sealed form.
-/

namespace Storj.Client

open Storj.Enc Storj.Access KeyTree

/-! ## Cutting texts

Where the first slash of a text is, and what is in front of it.
-/

/-- Valid bytes are a text. -/
lemma exists_utf8 {x : Bytes} (h : (⟨x.toArray⟩ : ByteArray).IsValidUTF8) : ∃ s, utf8 s = x :=
  ⟨String.ofByteArray ⟨x.toArray⟩ h, by simp [utf8]⟩

lemma toByteArray_of_utf8 {s : String} {x : Bytes} (h : utf8 s = x) :
    s.toByteArray = ⟨x.toArray⟩ := by
  rw [← h]
  simp [utf8]

/-- Where a character starts, a text can be cut. -/
lemma exists_utf8_cut {s : String} {x y : Bytes} (h : utf8 s = x ++ y)
    (hcut : String.Pos.Raw.IsValid s ⟨x.length⟩) : ∃ a b, s = a ++ b ∧ utf8 a = x ∧ utf8 b = y := by
  have hdata := toByteArray_of_utf8 h
  have hx := (String.Pos.Raw.isValid_iff_isValidUTF8_extract_zero.mp hcut).2
  have hy := (String.Pos.Raw.isValid_iff_isValidUTF8_extract_utf8ByteSize.mp hcut).2
  have hx' : s.toByteArray.extract 0 x.length = ⟨x.toArray⟩ := by
    rw [hdata]
    ext1
    simp
  have hy' : s.toByteArray.extract x.length s.utf8ByteSize = ⟨y.toArray⟩ := by
    have hsize : s.utf8ByteSize = x.length + y.length := by
      rw [← String.size_toByteArray, hdata]
      show (x ++ y).toArray.size = _
      simp
    rw [hdata, hsize]
    ext1
    simp
  rw [hx'] at hx
  rw [hy'] at hy
  obtain ⟨a, ha⟩ := exists_utf8 hx
  obtain ⟨b, hb⟩ := exists_utf8 hy
  refine ⟨a, b, utf8_injective ?_, ha, hb⟩
  rw [h, utf8_append, ha, hb]

/-- A text can be cut before a slash. -/
lemma exists_utf8_of_slash {s : String} {x y : Bytes} (h : utf8 s = x ++ slash :: y) :
    ∃ a, utf8 a = x := by
  have hvalid : String.Pos.Raw.IsValid s ⟨x.length⟩ := by
    have hdata := toByteArray_of_utf8 h
    rw [String.Pos.Raw.isValid_iff_isUTF8FirstByte]
    have hlt : (⟨x.length⟩ : String.Pos.Raw) < s.rawEndPos := by
      rw [String.Pos.Raw.lt_iff, String.byteIdx_rawEndPos, ← String.size_toByteArray, hdata]
      show x.length < (x ++ slash :: y).toArray.size
      simp
    refine Or.inr ⟨hlt, ?_⟩
    have hbyte : s.getUTF8Byte ⟨x.length⟩ hlt = slash := by
      have hsize : x.length < (x ++ slash :: y).toArray.size := by simp
      simp only [String.getUTF8Byte, hdata]
      show (x ++ slash :: y).toArray[x.length] = slash
      simp
    rw [hbyte]
    decide
  obtain ⟨a, _, _, ha, _⟩ := exists_utf8_cut h hvalid
  exact ⟨a, ha⟩

/-! ## Collapsing

A key with a further component stands for all keys below that component.
-/

/-- What a listing shows of a key, and whether it stands for the keys below it. -/
def collapse (recursive : Bool) (key : Bytes) : Bytes × Bool :=
  if recursive ∨ slash ∉ key then (key, false)
  else (key.takeWhile (· ≠ slash) ++ [slash], true)

lemma collapse_whole {recursive : Bool} {key : Bytes} (h : recursive = true ∨ slash ∉ key) :
    collapse recursive key = (key, false) := if_pos h

lemma collapse_first {part rest : Bytes} (h : slash ∉ part) :
    collapse false (part ++ slash :: rest) = (part ++ [slash], true) := by
  rw [collapse, if_neg (by simp), List.takeWhile_append_of_pos, List.takeWhile_cons_of_neg (by simp),
    List.append_nil]
  intro b hb
  rw [decide_eq_true_eq]
  rintro rfl
  exact h hb

/-- A text is shown as a text. -/
lemma exists_utf8_collapse (recursive : Bool) (k : String) :
    ∃ s, utf8 s = (collapse recursive (utf8 k)).1 := by
  by_cases h : recursive = true ∨ slash ∉ utf8 k
  · rw [collapse_whole h]
    exact ⟨k, rfl⟩
  · rw [not_or, Bool.not_eq_true] at h
    obtain ⟨rfl, hmem⟩ := h
    obtain ⟨part, rest, hk, hpart⟩ := (PathIter.slash_split (utf8 k)).resolve_left hmem
    obtain ⟨a, rfl⟩ := exists_utf8_of_slash hk
    rw [hk, collapse_first hpart]
    exact ⟨a ++ "/", utf8_append a "/"⟩

/-- What is shown of a text. -/
def shown (recursive : Bool) (k : String) : String × Bool :=
  ((fromUtf8 (collapse recursive (utf8 k)).1).getD "", (collapse recursive (utf8 k)).2)

lemma utf8_shown (recursive : Bool) (k : String) :
    collapse recursive (utf8 k) = (utf8 (shown recursive k).1, (shown recursive k).2) := by
  obtain ⟨s, hs⟩ := exists_utf8_collapse recursive k
  rw [shown, ← hs, fromUtf8_utf8, Option.getD_some, hs]

lemma shown_eq_iff {recursive : Bool} {k l : String} :
    shown recursive k = shown recursive l ↔
      collapse recursive (utf8 k) = collapse recursive (utf8 l) := by
  rw [utf8_shown, utf8_shown, Prod.ext_iff, Prod.mk.injEq, utf8_injective.eq_iff]

/-! ## Sealed keys

The listing opens a collapsed key component by component, the empty one at its end included.
-/

section

variable {prim : PathPrimitives} {cipher : CipherSuite} {key : Key} {k l r t : Bytes}

/-- **What is shown of a sealed key** is the whole, or its first component, and so is what is shown
of the plain one. -/
lemma collapse_sealed (hcipher : cipher = .aesGcm ∨ cipher = .secretBox) (recursive : Bool)
    (h : encryptIterator prim (k.splitOn slash) cipher key = .ok r) :
    collapse recursive k = (k, false) ∧ collapse recursive r = (r, false) ∨
      ∃ c d, collapse recursive k = (c ++ [slash], true) ∧ collapse recursive r = (d ++ [slash], true) ∧
        slash ∉ c ∧ slash ∉ d ∧ encryptPathComponent prim c cipher key = .ok d := by
  obtain ⟨_, _, hbase64⟩ := sealing_ne hcipher
  cases recursive with
  | true => exact Or.inl ⟨collapse_whole (Or.inl rfl), collapse_whole (Or.inl rfl)⟩
  | false =>
      obtain ⟨ds, hds, hr⟩ := Fallible.bind_eq_ok.mp h
      rw [Except.ok.injEq] at hr
      have hslash := slash_notMem_encryptAll hbase64
        (fun c hc => slash_notMem_splitOn hc) (encryptComponents_eq_ok.mp hds)
      rcases PathIter.slash_split k with hk | ⟨c, rest, rfl, hc⟩
      · -- one component is sealed as one
        left
        refine ⟨collapse_whole (Or.inr hk), collapse_whole (Or.inr ?_)⟩
        rw [List.splitOn_eq_singleton hk, encryptComponents] at hds
        obtain ⟨d, hd, hds⟩ := Fallible.bind_eq_ok.mp hds
        cases hds
        rw [← hr, joinComponents, List.intercalate_singleton]
        exact slash_notMem_encryptPathComponent hbase64 hk hd
      · right
        rw [List.splitOn_append_cons_self, List.splitOn_eq_singleton hc, List.singleton_append,
          encryptComponents] at hds
        obtain ⟨d, hd, hds⟩ := Fallible.bind_eq_ok.mp hds
        obtain ⟨ds', hds', hds⟩ := Fallible.bind_eq_ok.mp hds
        cases hds
        have hne : ds' ≠ [] := by
          rintro rfl
          have hlen := System.length_encryptAll (encryptComponents_eq_ok.mp hds')
          exact List.splitOn_ne_nil slash rest (List.length_eq_zero_iff.mp hlen.symm)
        have hd' := slash_notMem_encryptPathComponent hbase64 hc hd
        have hjoin : r = d ++ slash :: joinComponents ds' := by
          have happend := joinComponents_append (List.cons_ne_nil d []) hne
          rw [← hr, ← List.singleton_append, happend, joinComponents, List.intercalate_singleton]
        exact ⟨c, d, collapse_first hc, by rw [hjoin, collapse_first hd'], hc, hd', hd⟩

/-- **What is shown of a sealed key opens** to what is shown of the plain one. -/
lemma decryptIterator_collapse (haes : prim.aesGcm.Lawful) (hbox : prim.secretBox.Lawful)
    (hcipher : cipher = .aesGcm ∨ cipher = .secretBox) (recursive : Bool)
    (h : encryptIterator prim (k.splitOn slash) cipher key = .ok r) :
    decryptIterator prim (components (collapse recursive r).1) cipher key
        = .ok (collapse recursive k).1 ∧ (collapse recursive r).2 = (collapse recursive k).2 := by
  obtain ⟨_, _, hbase64⟩ := sealing_ne hcipher
  obtain ⟨hk, hr⟩ | ⟨c, d, hk, hr, hc, hd, henc⟩ := collapse_sealed hcipher recursive h
  · refine ⟨?_, by rw [hk, hr]⟩
    rw [hk, hr]
    obtain ⟨ds, hds, hjoin⟩ := Fallible.bind_eq_ok.mp h
    cases hjoin
    rw [components_joinComponents_sealed hcipher (fun c hc => slash_notMem_splitOn hc) hds,
      decryptIterator, decryptComponents_eq_ok.mpr (decryptAll_encryptComponents haes hbox hbase64 hds),
      Fallible.ok_bind]
    exact congrArg Except.ok (List.intercalate_splitOn slash)
  · refine ⟨?_, by rw [hk, hr]⟩
    have hcomponents : components (d ++ [slash]) = [d, []] := by
      rw [components_append_slash, List.splitOn_eq_singleton hd]
      rfl
    have hopen := decryptPathComponent_encryptPathComponent haes hbox hbase64 henc
    have hempty : ∀ key, decryptPathComponent prim [] cipher key = .ok [] := fun _ => if_pos rfl
    rw [hk, hr, hcomponents, decryptIterator, decryptComponents, hopen, Fallible.ok_bind,
      decryptComponents, hempty, Fallible.ok_bind, decryptComponents]
    simp [joinComponents, List.intercalate]

/-- Different sealed keys are shown differently if the plain ones are. -/
lemma collapse_sealed_inj (hcipher : cipher = .aesGcm ∨ cipher = .secretBox) (recursive : Bool)
    (h : encryptIterator prim (k.splitOn slash) cipher key = .ok r)
    (h' : encryptIterator prim (l.splitOn slash) cipher key = .ok t)
    (heq : collapse recursive k = collapse recursive l) :
    collapse recursive r = collapse recursive t := by
  obtain ⟨hk, hr⟩ | ⟨c, d, hk, hr, _, _, henc⟩ := collapse_sealed hcipher recursive h
  · obtain ⟨hl, ht⟩ | ⟨_, _, hl, _⟩ := collapse_sealed hcipher recursive h'
    · rw [hk, hl, Prod.mk.injEq] at heq
      rw [heq.1, h', Except.ok.injEq] at h
      rw [hr, ht, h]
    · rw [hk, hl, Prod.mk.injEq] at heq
      exact absurd heq.2 Bool.false_ne_true
  · obtain ⟨hl, _⟩ | ⟨c', d', hl, ht, _, _, henc'⟩ := collapse_sealed hcipher recursive h'
    · rw [hk, hl, Prod.mk.injEq] at heq
      exact absurd heq.2.symm Bool.false_ne_true
    · rw [hk, hl, Prod.mk.injEq, List.append_cancel_right_eq] at heq
      rw [heq.1, henc', Except.ok.injEq] at henc
      rw [hr, ht, henc]

/-- A sealed key is not empty. -/
lemma sealed_ne_nil (hcipher : cipher = .aesGcm ∨ cipher = .secretBox)
    (h : encryptIterator prim (k.splitOn slash) cipher key = .ok r) : r ≠ [] := by
  obtain ⟨_, hnull, hbase64⟩ := sealing_ne hcipher
  obtain ⟨ds, hds, hjoin⟩ := Fallible.bind_eq_ok.mp h
  cases hjoin
  intro hnil
  have hnotMem := nil_notMem_encryptComponents hnull hbase64 hds
  have hlen := System.length_encryptAll (encryptComponents_eq_ok.mp hds)
  rcases joinComponents_eq_nil.mp hnil with rfl | rfl
  · exact List.splitOn_ne_nil slash k (List.length_eq_zero_iff.mp hlen.symm)
  · exact hnotMem List.mem_cons_self

end

/-- **A listed key opens to what is shown of the key below the prefix.** -/
lemma ListKeyCodec.decodeKey_collapse {prim : PathPrimitives} (haes : prim.aesGcm.Lawful)
    (hbox : prim.secretBox.Lawful) {codec : ListKeyCodec}
    (hcipher : codec.pathCipher = .aesGcm ∨ codec.pathCipher = .secretBox) (recursive : Bool)
    {k : String} {r : Bytes}
    (h : encryptIterator prim ((utf8 k).splitOn slash) codec.pathCipher codec.parentKey = .ok r) :
    codec.decodeKey prim (collapse recursive r).1
        = .ok (codec.keyPrefix ++ (shown recursive k).1) ∧
      (collapse recursive r).2 = (shown recursive k).2 := by
  obtain ⟨hopen, hflag⟩ := decryptIterator_collapse haes hbox hcipher recursive h
  refine ⟨?_, by rw [hflag, utf8_shown]⟩
  rw [ListKeyCodec.decodeKey, hopen, utf8_shown]
  dsimp only
  rw [fromUtf8_utf8]
  dsimp only
  split_ifs with hempty
  · rw [hempty, String.empty_append]
  · rfl

end Storj.Client
