import StorjUplink.Client.GrantStore
import StorjUplink.Enc.Prefix

/-!
# Listing objects

`ListKeyCodec` of `objects.rs`: the satellite returns the keys below a prefix relative to it, sealed
under the key of the prefix's parent, and the client opens them and puts the prefix back in front.

A listed key names the object that uploads and downloads address if the sealed path of the object is
the ciphertext of the parent followed by the listed key.  That is so unless the prefix, with its
slash, is the path of an entry of the store (`listing_agrees`).

The codec is made once for a prefix: it has the encrypted prefix to ask for, the key and the cipher
of the parent, and the plain prefix to put in front.  Keys come back relative to the parent, each
is opened with that key, and the prefix is put in front as text.

What can go wrong is in the codec and not in the keys.  `get_prefix_info` takes an entry at the
prefix for the parent, and then every key below is opened with the wrong key, or sealed in a place
where nothing was ever uploaded.  The failing store at the end has such an entry, and shows it with
one key.
-/

namespace Storj.Client

open Storj.Enc Storj.Access KeyTree

variable (prim : PathPrimitives)

/-! ## The codec

Sealing a cursor, and opening a key.
-/

/-- `ListKeyCodec`: what the keys of one listing are encrypted and decrypted with, and the prefix in
both of its forms. -/
structure ListKeyCodec where
  keyPrefix : String
  parentKey : Key
  pathCipher : CipherSuite
  encryptedPrefix : Bytes
  arbitraryPrefix : Bool
deriving DecidableEq

namespace ListKeyCodec

/-- `ListKeyCodec::new`, for the store of the project.  Where paths are not encrypted the prefix is
sent as it is, and may end anywhere. -/
def new (store : Store) (bucket keyPrefix : String) : Except Error ListKeyCodec :=
  match getPrefixInfo prim bucket (utf8 keyPrefix) store with
  | .error err => .error (mapEnc err)
  | .ok info =>
      let arbitraryPrefix := info.pathCipher == .null
      .ok ⟨keyPrefix, info.parentKey, info.pathCipher,
        if arbitraryPrefix then utf8 keyPrefix else info.parentEnc, arbitraryPrefix⟩

/-- `ListKeyCodec::encode_cursor`: the cursor is a key relative to the prefix, and an empty one
stays empty. -/
def encodeCursor (codec : ListKeyCodec) (cursor : String) : Except Error Bytes :=
  if cursor = "" then .ok []
  else
    match encryptIterator prim (components (utf8 cursor)) codec.pathCipher codec.parentKey with
    | .error err => .error (mapEnc err)
    | .ok enc => .ok enc

/-- `ListKeyCodec::decode_key`: the listed key is relative to the prefix, which is put back in front
of it. -/
def decodeKey (codec : ListKeyCodec) (encryptedRelative : Bytes) : Except Error String :=
  match decryptIterator prim (components encryptedRelative) codec.pathCipher codec.parentKey with
  | .error err => .error (mapEnc err)
  | .ok rel =>
      match fromUtf8 rel with
      | none => .error ⟨.decryptionFailed, "listed object key is not utf-8"⟩
      | some rel => .ok (if codec.keyPrefix = "" then rel else codec.keyPrefix ++ rel)

variable {prim} {store : Store} {bucket keyPrefix : String} {info : PrefixInfo}

/-- **A listed key opens to the path it was made of.** -/
lemma decodeKey_encryptIterator (haes : prim.aesGcm.Lawful) (hbox : prim.secretBox.Lawful)
    {codec : ListKeyCodec} (hcipher : codec.pathCipher ≠ .nullBase64Url) {k : String} {enc : Bytes}
    (h : encryptIterator prim (components (utf8 k)) codec.pathCipher codec.parentKey = .ok enc) :
    codec.decodeKey prim enc = .ok (codec.keyPrefix ++ k) := by
  rw [decodeKey, decryptIterator_encryptIterator haes hbox hcipher h]
  dsimp only
  rw [fromUtf8_utf8]
  dsimp only
  split_ifs with hempty
  · rw [hempty, String.empty_append]
  · rfl

end ListKeyCodec

/-! ## Listed keys and sealed paths

One key at a time: the sealed path of an object and what the listing would call it.
-/

variable {prim}

/-- **A listed key agrees with a path**: the path below the prefix is sealed as the ciphertext of
the parent followed by the listed key, and the listed key opens to the path. -/
def ListedAs (prim : PathPrimitives) (s : Store) (bucket keyPrefix : String) (info : PrefixInfo)
    (codec : ListKeyCodec) (k : String) : Prop :=
  encryptPath prim bucket (keyPrefix ++ k) s = (do
    let enc ← encryptIterator prim (components (utf8 k)) info.pathCipher info.parentKey
    .ok (joinPrefix info.parentEnc enc)) ∧
  ∀ enc, encryptIterator prim (components (utf8 k)) info.pathCipher info.parentKey = .ok enc →
    codec.decodeKey prim enc = .ok (keyPrefix ++ k)

/-- **When listing agrees with the sealing of paths.**  For every store without bypass, and every
prefix that is empty or ends with a slash, with no entry beyond it and a sealing cipher: all keys
below the prefix are listed as their paths are sealed, exactly if the prefix is empty or no entry of
the bucket is at the prefix itself, its slash included. -/
theorem listing_agrees (haes : prim.aesGcm.Lawful) (hbox : prim.secretBox.Lawful)
    (ops : List Store.Op) (hbypass : (Store.new.run ops).encryptionBypass = false)
    (bucket keyPrefix : String) (hpref : keyPrefix = "" ∨ endsWithSlash keyPrefix = true)
    (hbeyond : NoneBeyond (Store.new.run ops) bucket (utf8 keyPrefix)) {base : Base}
    (hbase : ((Store.new.run ops).lookupUnencrypted bucket (utf8 keyPrefix)).base = some base)
    (hcipher : base.pathCipher = .aesGcm ∨ base.pathCipher = .secretBox) {info : PrefixInfo}
    (hinfo : getPrefixInfo prim bucket (utf8 keyPrefix) (Store.new.run ops) = .ok info) :
    ∃ codec, ListKeyCodec.new prim (Store.new.run ops) bucket keyPrefix = .ok codec ∧
      ((∀ k, k ≠ "" → ListedAs prim (Store.new.run ops) bucket keyPrefix info codec k) ↔
        keyPrefix = "" ∨ NoneAt (Store.new.run ops) bucket (utf8 keyPrefix)) := by
  have hs := Store.wf_new.run ops
  generalize Store.new.run ops = s at *
  -- the base is where the prefix starts
  obtain ⟨p, start, hstart, hfound, _⟩ | ⟨_, hnone⟩ :=
    Store.lookup_spec hs bucket (utf8 keyPrefix) true
  swap
  · rw [Store.lookupUnencrypted, hnone] at hbase
    cases hbase
  have happly : s.applyBypass start = start := by
    rw [Store.applyBypass, hbypass, if_neg Bool.false_ne_true]
  rw [Store.lookupUnencrypted, hfound, Option.some.injEq, happly] at hbase
  subst hbase
  obtain ⟨hcode, _, hbase64⟩ := sealing_ne hcipher
  obtain ⟨_, _, hcipher', _⟩ := getPrefixInfo_eq_ok hs hbypass hstart hcode hinfo
  have hpref' : utf8 keyPrefix = [] ∨ ∃ raw, utf8 keyPrefix = raw ++ [slash] :=
    hpref.imp utf8_eq_nil.mpr utf8_of_endsWithSlash
  refine ⟨_, by rw [ListKeyCodec.new, hinfo], ?_⟩
  constructor
  · intro hall
    by_contra hnot
    rw [not_or, NoneAt] at hnot
    obtain ⟨hne, hat⟩ := hnot
    push Not at hat
    obtain ⟨q, b, hq, hb⟩ := hat
    have hraw := hpref'.resolve_left fun hnil => hne (utf8_eq_nil.mp hnil)
    -- the entry is where the prefix starts
    have hsame : q = p ∧ b = start := by
      obtain ⟨hplain, _, _⟩ := hs.placed bucket q b hq
      have hself : (s.table bucket).Start Prod.fst (components (utf8 keyPrefix)) q b := by
        rw [← hb, ← hplain]
        exact Table.start_self hq
      exact hself.unique (hs.coherent bucket) side_fst hstart
    obtain ⟨rfl, rfl⟩ := hsame
    have hslash : utf8 "/" = [slash] := by decide
    have hlisted := (hall "/" (by decide)).1
    rw [encryptPath, utf8_append, hslash] at hlisted
    exact encryptPathBytes_ne_of_at hs hbypass hraw hbeyond hq hb hcipher hinfo hlisted
  · intro hat k hk
    have hk' : utf8 k ≠ [] := fun hnil => hk (utf8_eq_nil.mp hnil)
    obtain ⟨hstart', hdrop⟩ := start_below hs hpref' hbeyond (hat.imp_left utf8_eq_nil.mpr)
      hstart hk'
    refine ⟨?_, fun enc henc => ?_⟩
    · rw [encryptPath, utf8_append]
      exact encryptPathBytes_below hs hbypass hstart hstart' hcipher hinfo hdrop
        (fun hnil => hk' (components_eq_nil.mp hnil))
    · exact ListKeyCodec.decodeKey_encryptIterator haes hbox (hcipher'.symm ▸ hbase64) henc

/-! ### Two stores

The same prefix with the key of the parent in the store, and with an entry at the prefix itself.
-/

/-- What a store has was added to it. -/
lemma exists_added {ops : List Store.Op} {bucket : String} {p : Path Bytes Bytes} {b : Base}
    (h : (Store.new.run ops).entry bucket p = some b) :
    ∃ m ∈ Store.new.added ops, m.bucket = bucket ∧ m.base = b := by
  rw [Store.entry_run Store.wf_new (l := []) (fun _ _ => rfl) ops bucket p, List.nil_append] at h
  obtain ⟨m, hm, rfl⟩ := Option.map_eq_some_iff.mp h
  rw [Store.lastFor] at hm
  have hbucket := List.find?_some hm
  simp only [Bool.and_eq_true, beq_iff_eq] at hbucket
  exact ⟨m, List.mem_reverse.mp (List.mem_of_find?_eq_some hm), hbucket.1, rfl⟩

/-- Below `a/`, where the key of `a` is known. -/
theorem listing_agrees_two_keys : ∃ info codec,
    getPrefixInfo copyPrimitives "b" (utf8 "a/") (Store.new.run twoKeys) = .ok info ∧
    ListKeyCodec.new copyPrimitives (Store.new.run twoKeys) "b" "a/" = .ok codec ∧
    ListedAs copyPrimitives (Store.new.run twoKeys) "b" "a/" info codec "x/y" := by
  have hunenc : ∀ m ∈ Store.new.added twoKeys, m.unenc = utf8 "a" := by decide +kernel
  have hentry : ∀ p b, (Store.new.run twoKeys).entry "b" p = some b → b.unencrypted = utf8 "a" := by
    intro p b hb
    obtain ⟨m, hm, _, rfl⟩ := exists_added hb
    exact hunenc m hm
  have hbeyond : NoneBeyond (Store.new.run twoKeys) "b" (utf8 "a/") := by
    intro p b hb hle
    rw [hentry p b hb] at hle
    exact absurd hle (by decide)
  have hat : NoneAt (Store.new.run twoKeys) "b" (utf8 "a/") := by
    intro p b hb
    rw [hentry p b hb]
    decide
  have hcipher : ((Store.new.run twoKeys).lookupUnencrypted "b" (utf8 "a/")).base.map
      Base.pathCipher = some .secretBox := by decide +kernel
  obtain ⟨base, hbase, hsecret⟩ := Option.map_eq_some_iff.mp hcipher
  have hsome : (getPrefixInfo copyPrimitives "b" (utf8 "a/")
      (Store.new.run twoKeys)).toOption.isSome := by decide +kernel
  obtain ⟨info, hinfo⟩ := Option.isSome_iff_exists.mp hsome
  rw [toOption_eq_some] at hinfo
  obtain ⟨codec, hcodec, hiff⟩ := listing_agrees copyAead_lawful copyAead_lawful twoKeys rfl "b"
    "a/" (Or.inr rfl) hbeyond hbase (Or.inr hsecret) hinfo
  exact ⟨info, codec, hinfo, hcodec, hiff.mpr (Or.inr hat) "x/y" (by decide)⟩

/-- A default key. -/
def oneKey : List Store.Op :=
  [.setDefaultKey (Vector.replicate 32 7), .setDefaultPathCipher .aesGcm]

/-- A default key, and another one at `a/`, as overriding the key of `a//` puts it there. -/
def keyAtSlash : List Store.Op :=
  oneKey ++ [.addWithCipher ⟨"b", utf8 "a/",
    (encryptPath copyPrimitives "b" "a/" (Store.new.run oneKey)).toOption.getD [],
    Vector.replicate 32 9, .aesGcm⟩]

/-- **Listing does not agree** where the prefix is the path of an entry: `a/x` is sealed under the
default key and not below the ciphertext of the entry. -/
theorem listing_differs : (Store.new.run keyAtSlash).encryptionBypass = false ∧
    NoneBeyond (Store.new.run keyAtSlash) "b" (utf8 "a/") ∧
    ((Store.new.run keyAtSlash).lookupUnencrypted "b" (utf8 "a/")).base.map Base.pathCipher =
      some .aesGcm ∧
    ∃ info codec,
      getPrefixInfo copyPrimitives "b" (utf8 "a/") (Store.new.run keyAtSlash) = .ok info ∧
      ListKeyCodec.new copyPrimitives (Store.new.run keyAtSlash) "b" "a/" = .ok codec ∧
      ¬ListedAs copyPrimitives (Store.new.run keyAtSlash) "b" "a/" info codec "x" := by
  have hunenc : ∀ m ∈ Store.new.added keyAtSlash, m.unenc = utf8 "a/" := by decide +kernel
  refine ⟨rfl, ?_, by decide +kernel, _, _, rfl, rfl, fun h => absurd h.1 (by decide +kernel)⟩
  intro p b hb _
  obtain ⟨m, hm, _, rfl⟩ := exists_added hb
  exact hunenc m hm

end Storj.Client
