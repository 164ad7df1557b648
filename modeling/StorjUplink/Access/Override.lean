import StorjUplink.Access.Grant
import StorjUplink.Access.Table
import StorjUplink.Access.Sample

/-!
# Overriding a key

`override_encryption_key` rebuilds the whole store from its entries, adds one base and exports it
again.  Its effect is that of one entry in the table of one bucket: paths that are not below the
prefix start where they did, and so do those below an entry that is deeper than the prefix
(`override_frame`).

The call goes a long way round: it reads the entries into a store, adds a base whose ciphertext
path is computed by that store, walks the store and replaces the list of entries.  Its effect is
nevertheless local, and `override_frame` says how: by bucket, by prefix, and by the entries that
lie deeper than the prefix.  Paths that the new entry does not start keep their ciphertext and
their content key, and of those that it starts the ciphertext is new below the prefix, while the
prefix itself is sealed as before.

Whether it fails is decided before anything is written, and a failed call leaves the grant as it
was.
-/

namespace Storj.Access

open Storj.Enc KeyTree

/-- The path of an entry. -/
def StoreEntry.path (e : StoreEntry) : Path Bytes Bytes :=
  Store.pathOf e.unencryptedPath e.encryptedPath

variable {prim : AccessPrimitives} {order : HashOrder} {s t : Store} {bucket bucket' : String}
  {path : Bytes} {key : Key} {g g' : Grant}

/-! ## In place

The source changes the grant through a mutable reference, so the grant after a failure is a result
of its own.
-/

namespace Grant

/-- `enc_access_mut`, written to: the text that the grant was parsed from is dropped. -/
def setEncAccess (g : Grant) (encAccess : EncryptionAccess) : Grant :=
  { g with encAccess, original := none }

/-- `Grant::override_encryption_key`, with the grant that it leaves.  Every error returns before the
entries are replaced, so a call that fails leaves what it found. -/
def overrideInPlace (prim : AccessPrimitives) (order : HashOrder) (g : Grant)
    (bucket keyPrefix : String) (key : Key) : Except Error Unit × Grant :=
  if endsWithSlash keyPrefix = false then (.error ⟨"prefix must end with slash"⟩, g)
  else
    let unenc := stripSlash keyPrefix
    match storeFromEnc g.encAccess with
    | .error err => (.error err, g)
    | .ok store =>
        match encryptPath prim.toPathPrimitives bucket unenc store with
        | .error err => (.error (mapEnc err), g)
        | .ok encPath =>
            match store.add bucket (utf8 unenc) encPath key with
            | (.error err, _) => (.error (mapEnc err), g)
            | (.ok (), store) => (.ok (), g.setEncAccess (encFromStore order store))

/-- The grant is what `overrideEncryptionKey` returns, or as it was. -/
lemma overrideInPlace_eq (keyPrefix : String) :
    g.overrideInPlace prim order bucket keyPrefix key =
      match g.overrideEncryptionKey prim order bucket keyPrefix key with
      | .error err => (.error err, g)
      | .ok g' => (.ok (), g') := by
  rw [overrideInPlace, overrideEncryptionKey]
  by_cases hslash : endsWithSlash keyPrefix = false
  · rw [if_pos hslash, if_pos hslash]
  · rw [if_neg hslash, if_neg hslash]
    dsimp only
    cases storeFromEnc g.encAccess with
    | error err => rfl
    | ok store =>
        rw [Fallible.ok_bind]
        dsimp only
        cases encryptPath prim.toPathPrimitives bucket (stripSlash keyPrefix) store with
        | error err => rfl
        | ok encPath =>
            dsimp only
            rcases store.add bucket (utf8 (stripSlash keyPrefix)) encPath key with
              ⟨_ | _, store'⟩
            · rfl
            · rfl

/-- **What an override does.** -/
lemma overrideInPlace_ok {keyPrefix : String}
    (h : g.overrideInPlace prim order bucket keyPrefix key = (.ok (), g')) :
    ∃ store encPath, storeFromEnc g.encAccess = .ok store ∧
      encryptPath prim.toPathPrimitives bucket (stripSlash keyPrefix) store = .ok encPath ∧
      (store.add bucket (utf8 (stripSlash keyPrefix)) encPath key).1 = .ok () ∧
      g' = g.setEncAccess (encFromStore order
        (store.add bucket (utf8 (stripSlash keyPrefix)) encPath key).2) := by
  rw [overrideInPlace] at h
  split_ifs at h
  · cases h
  · dsimp only at h
    split at h
    · cases h
    · rename_i store hstore
      split at h
      · cases h
      · rename_i encPath hpath
        split at h
        · cases h
        · rename_i store' hadd
          cases h
          exact ⟨store, encPath, hstore, hpath, by rw [hadd], by rw [hadd]⟩

end Grant

/-! ## The entries of a store

Walking a store that was built from entries gives one base for each path among them, the last one.
-/

/-- **One base for each path of the entries.** -/
lemma has_foldlM {l : List StoreEntry} (hs : s.WF) (h : l.foldlM addEntry s = .ok t) :
    (∀ e ∈ l, plain e.path = components e.unencryptedPath) ∧
      ∀ bucket p, (t.table bucket).Has p ↔
        (s.table bucket).Has p ∨ ∃ e ∈ l, e.bucket = utf8 bucket ∧ p = e.path := by
  induction l generalizing s with
  | nil =>
      cases h
      exact ⟨nofun, fun bucket p => by simp⟩
  | cons e l ih =>
      rw [List.foldlM_cons, Fallible.bind_eq_ok] at h
      obtain ⟨s', hadd, h⟩ := h
      obtain ⟨name, hname, hok, rfl⟩ := addEntry_eq_ok.mp hadd
      obtain ⟨hplain, hhas⟩ := ih (Store.wf_addWithCipher hs hok) h
      have hlen := ((Store.addWithCipher_ok_iff hs).mp hok).1
      refine ⟨fun e' he' => ?_, fun bucket p => ?_⟩
      · rcases List.mem_cons.mp he' with rfl | he'
        · exact List.map_fst_zip hlen.le
        · exact hplain e' he'
      · -- the new entry has its base, and every other path has what it had
        have hstep : ((s.addWithCipher name e.unencryptedPath e.encryptedPath e.key
            e.pathCipher).2.table bucket).Has p ↔
            (s.table bucket).Has p ∨ e.bucket = utf8 bucket ∧ p = e.path := by
          simp only [Table.Has, Store.table, Store.entry_addWithCipher hs hok]
          by_cases hhit : bucket = name ∧ p = Store.pathOf e.unencryptedPath e.encryptedPath
          · have hbucket : e.bucket = utf8 bucket := by rw [hhit.1, hname]
            simp only [if_pos hhit]
            exact ⟨fun _ => Or.inr ⟨hbucket, hhit.2⟩, fun _ => ⟨_, rfl⟩⟩
          · simp only [if_neg hhit]
            refine ⟨Or.inl, fun h => h.resolve_right ?_⟩
            rintro ⟨hbucket, hp⟩
            exact hhit ⟨utf8_injective (hbucket.symm.trans hname.symm), hp⟩
        rw [hhas, hstep, or_assoc]
        simp only [List.mem_cons, exists_eq_or_imp]

/-- The bases of a store are at the paths of the entries it was built from. -/
lemma has_storeFromEnc {enc : EncryptionAccess} (hs : storeFromEnc enc = .ok s) :
    (∀ e ∈ enc.storeEntries, plain e.path = components e.unencryptedPath) ∧
      ∀ bucket p, (s.table bucket).Has p ↔
        ∃ e ∈ enc.storeEntries, e.bucket = utf8 bucket ∧ p = e.path := by
  obtain ⟨hplain, hhas⟩ := has_foldlM (wf_defaults enc) hs
  refine ⟨hplain, fun bucket p => ?_⟩
  rw [hhas]
  refine or_iff_right ?_
  rintro ⟨b, hb⟩
  have hb : enc.defaults.entry bucket p = some b := hb
  rw [entry_defaults] at hb
  cases hb

/-! ## The frame

Two stores that differ in one entry.  Which paths start at it is decided by the components of the
path alone.
-/

/-- **One more entry in a store**: everything else is as it was. -/
structure Overridden (s t : Store) (bucket : String) (p : Path Bytes Bytes) (base : Base) :
    Prop where
  wf : s.WF
  wf' : t.WF
  bypass : s.encryptionBypass = false
  bypass' : t.encryptionBypass = false
  root : ∀ b, (t.table b).root = (s.table b).root
  entry : ∀ b q, t.entry b q = if b = bucket ∧ q = p then some base else s.entry b q

/-- **An override is one more entry.** -/
lemma overridden_of_ok {keyPrefix : String} (hs : storeFromEnc g.encAccess = .ok s)
    (h : g.overrideInPlace prim order bucket keyPrefix key = (.ok (), g')) :
    ∃ t encPath, storeFromEnc g'.encAccess = .ok t ∧
      encryptPath prim.toPathPrimitives bucket (stripSlash keyPrefix) s = .ok encPath ∧
      plain (Store.pathOf (utf8 (stripSlash keyPrefix)) encPath) =
        components (utf8 (stripSlash keyPrefix)) ∧
      Overridden s t bucket (Store.pathOf (utf8 (stripSlash keyPrefix)) encPath)
        ⟨utf8 (stripSlash keyPrefix), encPath, key, g.encAccess.defaultPathCipher, false⟩ := by
  obtain ⟨store, encPath, hstore, hpath, hadd, rfl⟩ := Grant.overrideInPlace_ok h
  rw [hs, Except.ok.injEq] at hstore
  subst hstore
  obtain ⟨hwf, hbypass, hkey, hcipher⟩ := storeFromEnc_spec hs
  have hsame := SameDefaults.add hwf hadd
  have hentries : (encFromStore order (s.add bucket (utf8 (stripSlash keyPrefix)) encPath
      key).2).storeEntries = ((s.add bucket (utf8 (stripSlash keyPrefix)) encPath
      key).2.iterate order).map entryOf := rfl
  obtain ⟨t, ht, hwf', hbypass', hkey', hcipher', hentry⟩ :=
    storeFromEnc_encFromStore hsame.wf hentries
  have hlen := ((Store.addWithCipher_ok_iff hwf).mp hadd).1
  refine ⟨t, encPath, ht, hpath, List.map_fst_zip hlen.le, hwf, hwf', hbypass, hbypass',
    fun b => ?_, fun b q => ?_⟩
  · have hk : t.defaultKey = s.defaultKey := hkey'.trans hsame.key
    have hc : t.defaultPathCipher = s.defaultPathCipher := hcipher'.trans hsame.cipher
    simp only [Store.table, hk]
    refine congrFun (congrArg Option.map ?_) _
    funext k
    rw [Store.defaultBase, Store.defaultBase, hc]
  · rw [hentry, Store.entry_addWithCipher hwf hadd, hcipher]

namespace Overridden

variable {p : Path Bytes Bytes} {base : Base}

lemma applyBypass (h : Overridden s t bucket p base) (b : Base) : t.applyBypass b = b := by
  rw [Store.applyBypass, h.bypass', if_neg Bool.false_ne_true]

/-- Paths of other buckets, and paths that are not below the new entry, start where they did. -/
lemma start_of_not_below (h : Overridden s t bucket p base)
    (hout : bucket' ≠ bucket ∨ ¬plain p <+: components path) (q : Path Bytes Bytes) (b : Base) :
    (t.table bucket').Start Prod.fst (components path) q b ↔
      (s.table bucket').Start Prod.fst (components path) q b := by
  have hentry : ∀ q, plain q <+: components path →
      (t.table bucket').entry q = (s.table bucket').entry q := by
    intro q hq
    refine (h.entry bucket' q).trans (if_neg ?_)
    rintro ⟨hbucket, rfl⟩
    exact hout.elim (fun hne => hne hbucket) fun hnot => hnot hq
  constructor
  · exact Table.Start.of_above (h.root bucket').symm fun q hq => (hentry q hq).symm
  · exact Table.Start.of_above (h.root bucket') hentry

/-- Paths below a deeper entry start where they did. -/
lemma start_of_deeper (h : Overridden s t bucket p base) {q : Path Bytes Bytes}
    (hq : (s.table bucket).Has q) (hlen : p.length < q.length)
    (hpath : plain q <+: components path) (r : Path Bytes Bytes) (b : Base) :
    (t.table bucket).Start Prod.fst (components path) r b ↔
      (s.table bucket).Start Prod.fst (components path) r b := by
  have hentry : ∀ r, r ≠ p → (t.table bucket).entry r = (s.table bucket).entry r := by
    intro r hr
    exact (h.entry bucket r).trans (if_neg fun hhit => hr hhit.2)
  have hne : q ≠ p := by
    rintro rfl
    exact lt_irrefl _ hlen
  have hq' : (t.table bucket).Has q := by
    obtain ⟨k, hk⟩ := hq
    exact ⟨k, (hentry q hne).trans hk⟩
  constructor
  · intro hr
    exact hr.of_deeper (fun r hr => (hentry r hr).symm) (hlen.trans_le (hr.deepest hq' hpath))
  · intro hr
    exact hr.of_deeper hentry (hlen.trans_le (hr.deepest hq hpath))

/-- Every other path below the new entry starts at it. -/
lemma start_self (h : Overridden s t bucket p base) (hpath : plain p <+: components path)
    (hnone : ∀ q, (s.table bucket).Has q → plain q <+: components path → q.length ≤ p.length) :
    (t.table bucket).Start Prod.fst (components path) p base := by
  refine .entry ((h.entry bucket p).trans (if_pos ⟨rfl, rfl⟩)) hpath ?_
  rintro q ⟨b, hb⟩ hq
  have hb : t.entry bucket q = some b := hb
  rw [h.entry] at hb
  split_ifs at hb with hhit
  · rw [hhit.2]
  · exact hnone q ⟨b, hb⟩ hq

end Overridden

/-- A path is sealed in both stores alike, and its content has the same key. -/
def Unchanged (prim : PathPrimitives) (s t : Store) (bucket : String) (path : Bytes) : Prop :=
  encryptPathBytes prim bucket path none t = encryptPathBytes prim bucket path none s ∧
    deriveContentKey prim bucket path t = deriveContentKey prim bucket path s

/-- An entry strictly below a path of a bucket. -/
def StoreEntry.Below (bucket : String) (u : Bytes) (e : StoreEntry) : Prop :=
  e.bucket = utf8 bucket ∧ components u <+: components e.unencryptedPath ∧
    e.unencryptedPath ≠ u

namespace Overridden

variable {p : Path Bytes Bytes} {base : Base}

lemma unchanged (h : Overridden s t bucket p base)
    (hstart : ∀ q b, (t.table bucket').Start Prod.fst (components path) q b ↔
      (s.table bucket').Start Prod.fst (components path) q b) :
    Unchanged prim.toPathPrimitives s t bucket' path := by
  have hbypass : t.encryptionBypass = s.encryptionBypass := h.bypass'.trans h.bypass.symm
  obtain ⟨henc, hkey⟩ := acts_congr_of_start h.wf h.wf' hbypass hstart
  refine ⟨henc, ?_⟩
  rw [deriveContentKey, deriveContentKey, hkey]

/-- The keys and the ciphertexts from the new entry on. -/
lemma acts (prim : AccessPrimitives) (h : Overridden s t bucket p base) (hdefault : base.default = false)
    {rest : List Bytes} (hpath : components path = plain p ++ rest)
    (hnone : ∀ q, (s.table bucket).Has q → plain q <+: components path → q.length ≤ p.length) :
    derivePathKey prim.toPathPrimitives bucket path t =
        .ok (rest.foldl (derivePathComponent prim.toPathPrimitives) base.key) ∧
      (path ≠ [] → encryptPathBytes prim.toPathPrimitives bucket path none t = (do
        let encrypted ← encryptIterator prim.toPathPrimitives rest base.pathCipher base.key
        .ok (joinParts base.encrypted rest encrypted))) := by
  have hstart := h.start_self (hpath ▸ List.prefix_append _ _) hnone
  have hdrop : (components path).drop p.length = rest := by
    rw [hpath]
    exact List.drop_left' (by simp)
  have hkey : baseKey prim.toPathPrimitives bucket base = base.key := by
    rw [baseKey, hdefault]
    rfl
  refine ⟨?_, fun hne => ?_⟩
  · rw [derivePathKey_of_start h.wf' hstart, hdrop, h.applyBypass, hkey]
  · rw [encryptPathBytes_of_start h.wf' hstart hne, hdrop, h.applyBypass, hkey]

end Overridden

section Entries

variable {enc : EncryptionAccess} {u prefixEnc : Bytes} {cipher : CipherSuite}

/-- An entry above a path is no deeper than the prefix, or strictly below it. -/
lemma length_le_of_not_below (hs : storeFromEnc enc = .ok s) (hu : components u <+: components path)
    (hout : ∀ e ∈ enc.storeEntries, e.Below bucket u →
      ¬components e.unencryptedPath <+: components path) {q : Path Bytes Bytes}
    (hq : (s.table bucket).Has q) (hqx : plain q <+: components path) :
    q.length ≤ (components u).length := by
  obtain ⟨hplain, hhas⟩ := has_storeFromEnc hs
  obtain ⟨e, he, hbucket, rfl⟩ := (hhas bucket q).mp hq
  have hlen : e.path.length = (components e.unencryptedPath).length := by
    rw [← hplain e he, List.length_map]
  rw [hplain e he] at hqx
  by_contra hlong
  rw [hlen, not_le] at hlong
  refine hout e he ⟨hbucket, ?_, ?_⟩ hqx
  · exact List.prefix_of_prefix_length_le hu hqx hlong.le
  · intro heq
    rw [heq] at hlong
    exact lt_irrefl _ hlong

/-- **Below the prefix and below no deeper entry** the new key counts. -/
lemma Overridden.acts_of_not_below (hs : storeFromEnc enc = .ok s)
    (h : Overridden s t bucket (Store.pathOf u prefixEnc) ⟨u, prefixEnc, key, cipher, false⟩)
    (hplain : plain (Store.pathOf u prefixEnc) = components u)
    (hpref : encryptPathBytes prim.toPathPrimitives bucket u none s = .ok prefixEnc)
    {rest : List Bytes} (hpath : components path = components u ++ rest)
    (hout : ∀ e ∈ enc.storeEntries, e.Below bucket u →
      ¬components e.unencryptedPath <+: components path) :
    derivePathKey prim.toPathPrimitives bucket path t =
        .ok (rest.foldl (derivePathComponent prim.toPathPrimitives) key) ∧
      encryptPathBytes prim.toPathPrimitives bucket path none t = (do
        let restEnc ← encryptIterator prim.toPathPrimitives rest cipher key
        .ok (joinParts prefixEnc rest restEnc)) := by
  have hlen : (Store.pathOf u prefixEnc).length = (components u).length := by
    rw [← hplain, List.length_map]
  have hu : components u <+: components path := hpath ▸ List.prefix_append _ _
  obtain ⟨hkey, henc⟩ := h.acts prim rfl (hplain.symm ▸ hpath) fun q hq hqx =>
    hlen ▸ length_le_of_not_below hs hu hout hq hqx
  refine ⟨hkey, ?_⟩
  by_cases hne : path = []
  · -- the path of the bucket, which is sealed as itself
    rw [hne, components, if_pos rfl, List.nil_eq, List.append_eq_nil_iff] at hpath
    obtain ⟨hnil, rfl⟩ := hpath
    have hu : u = [] := by
      rw [← joinComponents_components u, hnil]
      rfl
    rw [encryptPathBytes, if_pos hu] at hpref
    cases hpref
    rw [encryptPathBytes, if_pos hne]
    rfl
  · exact henc hne

end Entries

/-- **An override touches only its prefix.**  A failed call leaves the grant as it was.  After a call
that succeeds

* paths of other buckets and paths that are not below the prefix are unchanged,
* the prefix itself is sealed as it was,
* paths below an entry strictly below the prefix are unchanged, and
* every other path below the prefix has the key that its remaining components give from the new one,
  and is sealed as the prefix followed by these components under the new key and the default
  cipher. -/
theorem override_frame (prim : AccessPrimitives) (order : HashOrder)
    (hs : storeFromEnc g.encAccess = .ok s) (bucket keyPrefix : String) (key : Key) :
    (∀ err g', g.overrideInPlace prim order bucket keyPrefix key = (.error err, g') →
      g'.encAccess = g.encAccess ∧ g'.serialize prim = g.serialize prim) ∧
    ∀ g', g.overrideInPlace prim order bucket keyPrefix key = (.ok (), g') →
      ∃ t prefixEnc, storeFromEnc g'.encAccess = .ok t ∧
        encryptPath prim.toPathPrimitives bucket (stripSlash keyPrefix) s = .ok prefixEnc ∧
        (∀ bucket' path, bucket' ≠ bucket ∨
            ¬components (utf8 (stripSlash keyPrefix)) <+: components path →
          Unchanged prim.toPathPrimitives s t bucket' path) ∧
        encryptPath prim.toPathPrimitives bucket (stripSlash keyPrefix) t = .ok prefixEnc ∧
        (∀ e ∈ g.encAccess.storeEntries, e.Below bucket (utf8 (stripSlash keyPrefix)) →
          ∀ path, components e.unencryptedPath <+: components path →
            Unchanged prim.toPathPrimitives s t bucket path) ∧
        ∀ path rest, components path = components (utf8 (stripSlash keyPrefix)) ++ rest →
          (∀ e ∈ g.encAccess.storeEntries, e.Below bucket (utf8 (stripSlash keyPrefix)) →
            ¬components e.unencryptedPath <+: components path) →
          derivePathKey prim.toPathPrimitives bucket path t =
              .ok (rest.foldl (derivePathComponent prim.toPathPrimitives) key) ∧
            encryptPathBytes prim.toPathPrimitives bucket path none t = (do
              let restEnc ← encryptIterator prim.toPathPrimitives rest
                g.encAccess.defaultPathCipher key
              .ok (joinParts prefixEnc rest restEnc)) := by
  constructor
  · intro err g' h
    rw [Grant.overrideInPlace_eq] at h
    cases hres : g.overrideEncryptionKey prim order bucket keyPrefix key with
    | error e =>
        rw [hres] at h
        cases h
        exact ⟨rfl, rfl⟩
    | ok r =>
        rw [hres] at h
        cases h
  · intro g' h
    obtain ⟨t, prefixEnc, ht, hpref, hplain, hover⟩ := overridden_of_ok hs h
    have hlen : (Store.pathOf (utf8 (stripSlash keyPrefix)) prefixEnc).length =
        (components (utf8 (stripSlash keyPrefix))).length := by
      rw [← hplain, List.length_map]
    refine ⟨t, prefixEnc, ht, hpref, ?_, ?_, ?_, ?_⟩
    · intro bucket' path hout
      exact hover.unchanged (hover.start_of_not_below (hplain.symm ▸ hout))
    · have hself : ∀ e ∈ g.encAccess.storeEntries, e.Below bucket (utf8 (stripSlash keyPrefix)) →
          ¬components e.unencryptedPath <+: components (utf8 (stripSlash keyPrefix)) := by
        rintro e _ ⟨_, hle, hne⟩ hge
        exact hne (components_injective (hge.eq_of_length_le hle.length_le))
      obtain ⟨_, henc⟩ := hover.acts_of_not_below hs hplain hpref (List.append_nil _).symm hself
      refine henc.trans ?_
      by_cases hnil : prefixEnc = []
      · rw [hnil]
        rfl
      · have hjoin : joinParts prefixEnc [] [] = prefixEnc := by
          rw [joinParts, if_neg hnil, if_pos rfl]
          simp [joinComponents, List.intercalate]
        exact congrArg Except.ok hjoin
    · rintro e he ⟨hbucket, hle, hne⟩ path hpath
      obtain ⟨hplain', hhas⟩ := has_storeFromEnc hs
      have hlen' : e.path.length = (components e.unencryptedPath).length := by
        rw [← hplain' e he, List.length_map]
      refine hover.unchanged (hover.start_of_deeper ((hhas bucket e.path).mpr ⟨e, he, hbucket, rfl⟩)
        ?_ (hplain' e he ▸ hpath))
      rw [hlen, hlen']
      refine lt_of_le_of_ne hle.length_le fun heq => hne ?_
      exact (components_injective (hle.eq_of_length heq)).symm
    · intro path rest hpath hout
      exact hover.acts_of_not_below hs hplain hpref hpath hout

/-- A grant with a key at `a`, one at `a/b/c` and a default key. -/
def layeredGrant : Grant :=
  ((defaultGrant.overrideEncryptionKey samplePrimitives listedOrder "bucket" "a/"
    (Vector.replicate 32 2)).bind fun g => g.overrideEncryptionKey samplePrimitives listedOrder "bucket"
      "a/b/c/" (Vector.replicate 32 3)).toOption.getD defaultGrant

/-- Overriding the key of `a/b/`, between two entries: beside the prefix and below the lower entry
nothing changes. -/
theorem override_frame_layered : ∃ s t, storeFromEnc layeredGrant.encAccess = .ok s ∧
    (layeredGrant.overrideInPlace samplePrimitives listedOrder "bucket" "a/b/"
      (Vector.replicate 32 5)).1 = .ok () ∧
    storeFromEnc (layeredGrant.overrideInPlace samplePrimitives listedOrder "bucket" "a/b/"
      (Vector.replicate 32 5)).2.encAccess = .ok t ∧
    Unchanged samplePrimitives.toPathPrimitives s t "bucket" (utf8 "a/d") ∧
    Unchanged samplePrimitives.toPathPrimitives s t "bucket" (utf8 "a/b/c/d") := by
  have hsome : (storeFromEnc layeredGrant.encAccess).toOption.isSome := by decide +kernel
  obtain ⟨s, hstore⟩ := Option.isSome_iff_exists.mp hsome
  rw [toOption_eq_some] at hstore
  have hok : (layeredGrant.overrideInPlace samplePrimitives listedOrder "bucket" "a/b/"
      (Vector.replicate 32 5)).1 = .ok () := by decide +kernel
  generalize hr : layeredGrant.overrideInPlace samplePrimitives listedOrder "bucket" "a/b/"
    (Vector.replicate 32 5) = r at hok ⊢
  obtain ⟨result, g'⟩ := r
  dsimp only at hok
  subst hok
  obtain ⟨_, hframe⟩ := override_frame samplePrimitives listedOrder hstore "bucket" "a/b/"
    (Vector.replicate 32 5)
  obtain ⟨t, _, ht, _, hout, _, hbelow, _⟩ := hframe g' hr
  have hbeside : ¬components (utf8 (stripSlash "a/b/")) <+: components (utf8 "a/d") := by
    decide +kernel
  refine ⟨s, t, hstore, rfl, ht, hout "bucket" (utf8 "a/d") (Or.inr hbeside), ?_⟩
  have hentry : ∃ e ∈ layeredGrant.encAccess.storeEntries, e.bucket = utf8 "bucket" ∧
      e.unencryptedPath = utf8 "a/b/c" := by decide +kernel
  obtain ⟨e, he, hbucket, hpath⟩ := hentry
  refine hbelow e he ⟨hbucket, ?_, ?_⟩ _ ?_
  all_goals
    rw [hpath]
    decide +kernel

end Storj.Access
