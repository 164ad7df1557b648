import StorjUplink.Enc.Prefix

/-!
# The paths below a prefix

A path below a prefix is sealed as the ciphertext of the prefix's parent followed by the rest of
the path under the parent's key.  Where the prefix has one key below it (`UnderOneKey`) that is so
of every path below it (`UnderOneKey.encryptPathBytes_append`): a listing can ask for what is below
the ciphertext of the parent, and open what it is given with the parent's key alone.

What is sealed component by component opens the same way (`decryptAll_encryptComponents`), and its
components are those that were sealed (`components_joinComponents_sealed`).

The three hypotheses of `UnderOneKey` are what a listing relies on without saying so.  The prefix
has to be one that the listing accepts, so it is empty or ends with a slash.  Its key has to be a
sealing one, since under the null ciphers the ciphertext of a component says nothing about where it
came from.  And no entry of the store may lie at the prefix or beyond it: an entry beyond it would
seal the paths below itself with another key, and one exactly at it is taken by `get_prefix_info`
for the parent of what is listed.

The conclusion is used in both directions.  Going down, the ciphertext of a path splits at the
prefix, so that what a satellite stores below the parent's ciphertext is what the user put below
the prefix.  Going up, what the satellite returns relative to the parent is opened with the one key
that the listing holds.
-/

namespace Storj.Enc

open KeyTree

variable {prim : PathPrimitives} {s : Store} {bucket : String} {keyPrefix path k r : Bytes}
  {p : Path Bytes Bytes} {base : Base} {info : PrefixInfo}

/-- **A prefix with one key below it**: it is empty or ends with a slash, its key seals, and no
entry of the store is at it or beyond it. -/
structure UnderOneKey (prim : PathPrimitives) (s : Store) (bucket : String) (keyPrefix : Bytes)
    (p : Path Bytes Bytes) (base : Base) (info : PrefixInfo) : Prop where
  slashed : keyPrefix = [] ∨ ∃ raw, keyPrefix = raw ++ [slash]
  start : (s.table bucket).Start Prod.fst (components keyPrefix) p base
  cipher : base.pathCipher = .aesGcm ∨ base.pathCipher = .secretBox
  info_eq : getPrefixInfo prim bucket keyPrefix s = .ok info
  noneBeyond : NoneBeyond s bucket keyPrefix
  noneAt : keyPrefix = [] ∨ NoneAt s bucket keyPrefix

namespace UnderOneKey

section

variable (h : UnderOneKey prim s bucket keyPrefix p base info)

include h

/-- Paths below the prefix start where it starts. -/
lemma start_append (hs : s.WF) (hne : keyPrefix ++ k ≠ []) :
    (s.table bucket).Start Prod.fst (components (keyPrefix ++ k)) p base ∧
      (components (keyPrefix ++ k)).drop p.length =
        ((components keyPrefix).drop p.length).dropLast ++ k.splitOn slash := by
  by_cases hk : k = []
  · subst hk
    rw [List.append_nil] at hne ⊢
    refine ⟨h.start, ?_⟩
    -- one more slash adds one empty component to both sides
    obtain ⟨_, hdrop⟩ := start_below hs h.slashed h.noneBeyond h.noneAt h.start
      (List.cons_ne_nil slash [])
    obtain ⟨raw, rfl⟩ := h.slashed.resolve_left hne
    have hone : components (raw ++ [slash] ++ [slash]) = components (raw ++ [slash]) ++ [[]] := by
      have hone := components_append_slash raw []
      have htwo := components_append_slash raw [slash]
      rw [List.append_assoc, List.singleton_append, htwo, hone, List.append_assoc]
      rfl
    have htwo : components [slash] = [[]] ++ [[]] := rfl
    rw [hone, List.drop_append_of_le_length h.start.length_le, htwo, ← List.append_assoc] at hdrop
    exact (List.append_inj' hdrop rfl).1
  · have hcomponents : components k = k.splitOn slash := if_neg hk
    rw [← hcomponents]
    exact start_below hs h.slashed h.noneBeyond h.noneAt h.start hk

/-- **A path below the prefix** is sealed below the ciphertext of the parent. -/
lemma encryptPathBytes_append (hs : s.WF) (hbypass : s.encryptionBypass = false)
    (hne : keyPrefix ++ k ≠ []) :
    encryptPathBytes prim bucket (keyPrefix ++ k) none s = (do
      let enc ← encryptIterator prim (k.splitOn slash) info.pathCipher info.parentKey
      .ok (joinPrefix info.parentEnc enc)) := by
  obtain ⟨hstart, hdrop⟩ := h.start_append hs hne
  exact encryptPathBytes_below hs hbypass h.start hstart h.cipher h.info_eq hdrop
    (List.splitOn_ne_nil slash k)

/-- What is below the prefix is sealed with the cipher of its base. -/
lemma pathCipher_eq (hs : s.WF) (hbypass : s.encryptionBypass = false) :
    info.pathCipher = base.pathCipher := by
  obtain ⟨hcode, _, _⟩ := sealing_ne h.cipher
  obtain ⟨_, _, hcipher, _⟩ := getPrefixInfo_eq_ok hs hbypass h.start hcode h.info_eq
  exact hcipher

end

end UnderOneKey

/-- What is sealed with a sealing cipher is a path of sealed components. -/
lemma components_joinComponents_sealed {cs ds : List Bytes} {cipher : CipherSuite} {key : Key}
    (hcipher : cipher = .aesGcm ∨ cipher = .secretBox) (hcs : ∀ c ∈ cs, slash ∉ c)
    (h : encryptComponents prim cs cipher key = .ok ds) :
    components (joinComponents ds) = ds := by
  obtain ⟨_, hnull, hbase64⟩ := sealing_ne hcipher
  refine components_joinComponents ⟨slash_notMem_encryptAll hbase64 hcs
    (encryptComponents_eq_ok.mp h), fun heq => ?_⟩
  have hnil := nil_notMem_encryptComponents hnull hbase64 h
  rw [heq] at hnil
  exact hnil List.mem_cons_self

/-- Sealed components open again. -/
lemma decryptAll_encryptComponents (haes : prim.aesGcm.Lawful) (hbox : prim.secretBox.Lawful)
    {cs ds : List Bytes} {cipher : CipherSuite} {key : Key} (hcipher : cipher ≠ .nullBase64Url)
    (h : encryptComponents prim cs cipher key = .ok ds) :
    (pathSystem prim).decryptAll (key, cipher) ds = some cs := by
  refine System.decryptAll_encryptAll (P := fun k => k.2 ≠ .nullBase64Url) ?_ ?_ hcipher
    (encryptComponents_eq_ok.mp h)
  · intro k a hk
    rw [derive_snd]
    exact hk
  · intro k a b hk hab
    exact toOption_eq_some.mpr (decryptPathComponent_encryptPathComponent haes hbox hk
      (toOption_eq_some.mp hab))

end Storj.Enc
