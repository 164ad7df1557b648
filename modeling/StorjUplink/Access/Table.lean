import StorjUplink.Access.Faithful
import StorjUplink.Access.Limit

/-!
# Encryption accesses as tables of keys

`limit_to` works on byte strings, stores and lists of entries; `Sharing` says what it does to the keys
of one bucket.  This module connects the two, for stores in which all paths are sealed with one
cipher, as in every grant that a default key started (`Uniform`).

* An access that was made of a store is read as a store with the same bases
  (`storeFromEnc_encFromStore`).
* The two loops of `limit_to` make the limited table of every bucket (`limit_of_loops`), and on a
  table that is its own limit they succeed and change nothing (`loops_of_limit`).
-/

namespace Storj.Access

open Storj.Enc KeyTree Storj.Sharing

variable {prim : AccessPrimitives} {s t src store : Store} {bucket : String} {c : CipherSuite}
  {p q : Path Bytes Bytes} {k : Key × CipherSuite} {base : Base}

/-! ## Stores with one cipher

The keys of a table come with a cipher, and what a path is sealed to depends on both.  Here all
bases have one cipher, which is an invariant of runs from a default key.
-/

/-- **One cipher for all paths.** -/
structure Uniform (c : CipherSuite) (s : Store) : Prop where
  wf : s.WF
  bypass : s.encryptionBypass = false
  default : s.defaultKey ≠ none → s.defaultPathCipher = c
  entries : ∀ bucket p base, s.entry bucket p = some base → base.pathCipher = c

/-- The base of a path with a key. -/
def baseAt (p : Path Bytes Bytes) (k : Key × CipherSuite) : Base :=
  ⟨joinComponents (plain p), joinComponents (cipher p), k.1, k.2, false⟩

/-- The table of a bucket of a store. -/
abbrev keysOf (prim : AccessPrimitives) (s : Store) (bucket : String) :
    Table Bytes Bytes (Key × CipherSuite) := s.keys prim.toPathPrimitives bucket

/-- How the components of paths are sealed. -/
abbrev sysOf (prim : AccessPrimitives) : System Bytes Bytes (Key × CipherSuite) :=
  pathSystem prim.toPathPrimitives

/-- A base is its path and its key. -/
lemma base_eq (hs : s.WF) (h : s.entry bucket p = some base) :
    base = baseAt p (base.key, base.pathCipher) := by
  obtain ⟨hu, he, hd⟩ := hs.placed bucket p base h
  rw [baseAt, hu, he, joinComponents_components, joinComponents_components, ← hd]

/-- **The keys of a store are its bases.** -/
lemma keys_entry (hs : s.WF) (hb : s.encryptionBypass = false) :
    (keysOf prim s bucket).entry p = some k ↔ s.entry bucket p = some (baseAt p k) := by
  have hkeys : ∀ base, s.entry bucket p = some base →
      s.baseKeys prim.toPathPrimitives bucket base = (base.key, base.pathCipher) := by
    intro base hbase
    have hd := (hs.placed bucket p base hbase).2.2
    rw [Store.baseKeys, Store.applyBypass, hb]
    simp only [Bool.false_eq_true, if_false]
    rw [baseKey, hd]
    rfl
  constructor
  · intro h
    obtain ⟨base, hbase, rfl⟩ := Option.map_eq_some_iff.mp h
    rw [hkeys base hbase, ← base_eq hs hbase]
    exact hbase
  · intro h
    exact Option.map_eq_some_iff.mpr ⟨baseAt p k, h, hkeys _ h⟩

lemma keys_has (s : Store) (bucket : String) :
    (keysOf prim s bucket).Has p ↔ ∃ base, s.entry bucket p = some base := Table.has_map

/-- Where a store has a base, the paths are those of bytes. -/
lemma isPath_of_has (hs : s.WF) (h : (keysOf prim s bucket).Has p) :
    IsPath (plain p) ∧ IsPath (cipher p) := by
  obtain ⟨base, hbase⟩ := (keys_has s bucket).mp h
  obtain ⟨hu, he, _⟩ := hs.placed bucket p base hbase
  rw [hu, he]
  exact ⟨isPath_components _, isPath_components _⟩

lemma keys_coherent (hs : s.WF) (bucket : String) : (keysOf prim s bucket).Coherent :=
  (hs.coherent bucket).map

/-- The root key of a bucket. -/
lemma keys_root (h : Uniform c s) : (keysOf prim s bucket).root =
    s.defaultKey.map fun key => (derivePathComponent prim.toPathPrimitives key (utf8 bucket), c) := by
  cases hkey : s.defaultKey with
  | none => simp [Store.keys, Table.map, Store.table, hkey]
  | some key =>
      have hc := h.default (by rw [hkey]; exact Option.some_ne_none _)
      simp [Store.keys, Table.map, Store.table, hkey, Store.baseKeys, Store.applyBypass, h.bypass,
        Store.defaultBase, baseKey, hc]

/-- **Stores with the same bases have the same keys.** -/
lemma keys_congr (hs : Uniform c s) (ht : Uniform c t) (hkey : s.defaultKey = t.defaultKey)
    (h : ∀ p, s.entry bucket p = t.entry bucket p) : keysOf prim s bucket = keysOf prim t bucket := by
  have hroot : (keysOf prim s bucket).root = (keysOf prim t bucket).root := by
    rw [keys_root hs, keys_root ht, hkey]
  have hentry : (keysOf prim s bucket).entry = (keysOf prim t bucket).entry := by
    funext p
    refine Option.ext fun k => ?_
    rw [keys_entry hs.wf hs.bypass, keys_entry ht.wf ht.bypass, h]
  cases hT : keysOf prim s bucket
  cases hT' : keysOf prim t bucket
  rw [hT, hT'] at hroot hentry
  exact congrArg₂ Table.mk hroot hentry

/-- Stores with the same keys have the same bases. -/
lemma entry_congr (hs : Uniform c s) (ht : Uniform c t)
    (h : keysOf prim s bucket = keysOf prim t bucket) : s.entry bucket p = t.entry bucket p := by
  have hof : ∀ (s : Store), Uniform c s → ∀ base, s.entry bucket p = some base ↔
      ∃ k, (keysOf prim s bucket).entry p = some k ∧ base = baseAt p k := by
    intro s hs base
    simp only [keys_entry hs.wf hs.bypass]
    constructor
    · intro hbase
      exact ⟨_, base_eq hs.wf hbase ▸ hbase, base_eq hs.wf hbase⟩
    · rintro ⟨k, hk, rfl⟩
      exact hk
  refine Option.ext fun base => ?_
  rw [hof s hs, hof t ht, h]

lemma keyAt_snd (k : Key × CipherSuite) (x : List Bytes) : ((sysOf prim).keyAt k x).2 = k.2 := by
  induction x generalizing k with
  | nil => rfl
  | cons a x ih => rw [System.keyAt, List.foldl_cons, ← System.keyAt, ih, derive_snd]

/-- Every key is for the one cipher. -/
lemma Uniform.start_snd (h : Uniform c s) {f : Bytes × Bytes → Bytes} {x : List Bytes}
    (hstart : (keysOf prim s bucket).Start f x p k) : k.2 = c := by
  cases hstart with
  | entry hp _ _ => exact h.entries bucket p _ ((keys_entry h.wf h.bypass).mp hp)
  | root hroot _ =>
      rw [keys_root h] at hroot
      obtain ⟨key, _, rfl⟩ := Option.map_eq_some_iff.mp hroot
      rfl

lemma Uniform.key_snd (h : Uniform c s) {x : List Bytes}
    (hkey : (keysOf prim s bucket).Key (sysOf prim) x k) : k.2 = c := by
  obtain ⟨q, l, hq, rfl⟩ := hkey
  rw [keyAt_snd, h.start_snd hq]

/-! ## An access as a store and back

Exporting a store and reading the entries again gives the same bases in any order of the walk, and
keeps the defaults.
-/

section RoundTrip

variable {enc : EncryptionAccess} {order : HashOrder}

/-- Everything that a store has, another one has. -/
def Sub (t s : Store) : Prop :=
  ∀ bucket p base, t.entry bucket p = some base → s.entry bucket p = some base

/-- What an added entry does not change. -/
structure SameDefaults (s t : Store) : Prop where
  wf : t.WF
  bypass : t.encryptionBypass = s.encryptionBypass
  key : t.defaultKey = s.defaultKey
  cipher : t.defaultPathCipher = s.defaultPathCipher

lemma SameDefaults.refl (hs : s.WF) : SameDefaults s s := ⟨hs, rfl, rfl, rfl⟩

lemma SameDefaults.trans {u : Store} (h : SameDefaults s t) (h' : SameDefaults t u) :
    SameDefaults s u :=
  ⟨h'.wf, h'.bypass.trans h.bypass, h'.key.trans h.key, h'.cipher.trans h.cipher⟩

lemma SameDefaults.add (hs : s.WF) {unenc path : Bytes} {key : Key}
    (h : (s.addWithCipher bucket unenc path key c).1 = .ok ()) :
    SameDefaults s (s.addWithCipher bucket unenc path key c).2 := by
  refine ⟨Store.wf_addWithCipher hs h, ?_, ?_, ?_⟩
  all_goals rw [Store.addWithCipher_snd h]

lemma SameDefaults.addEntry {entry : StoreEntry} (hs : s.WF) (h : addEntry s entry = .ok t) :
    SameDefaults s t := by
  obtain ⟨bucket, _, hadd, rfl⟩ := addEntry_eq_ok.mp h
  exact .add hs hadd

lemma wf_defaults (enc : EncryptionAccess) : enc.defaults.WF := by
  rw [EncryptionAccess.defaults]
  cases enc.defaultKey with
  | none => exact Store.wf_of_roots rfl
  | some key => exact Store.wf_of_roots rfl

lemma entry_defaults (enc : EncryptionAccess) : enc.defaults.entry bucket p = none := by
  rw [EncryptionAccess.defaults]
  cases enc.defaultKey with
  | none => rfl
  | some key => rfl

/-- **What a store takes over from an access.** -/
lemma storeFromEnc_spec (h : storeFromEnc enc = .ok s) : s.WF ∧ s.encryptionBypass = false ∧
    s.defaultKey = enc.defaultKey ∧ s.defaultPathCipher = enc.defaultPathCipher := by
  have hsame : SameDefaults enc.defaults s := by
    refine Fallible.foldlM_induction (fun entry _ a b ha hab => ?_) (.refl (wf_defaults enc)) h
    exact ha.trans (.addEntry ha.wf hab)
  refine ⟨hsame.wf, hsame.bypass.trans ?_, hsame.key.trans ?_, hsame.cipher.trans ?_⟩
  all_goals
    rw [EncryptionAccess.defaults]
    cases enc.defaultKey with
    | none => rfl
    | some key => rfl

/-- The path of a base that a store has. -/
lemma pathOf_base (hs : s.WF) (h : s.entry bucket p = some base) :
    Store.pathOf base.unencrypted base.encrypted = p := by
  obtain ⟨hu, he, _⟩ := hs.placed bucket p base h
  rw [Store.pathOf, ← hu, ← he]
  simp [List.zip_map']

/-- **A base of a store is added to any part of it.** -/
lemma addEntry_of_sub (hs : s.WF) (ht : t.WF) (hsub : Sub t s)
    (h : s.entry bucket p = some base) : ∃ t', addEntry t (entryOf (bucket, base)) = .ok t' ∧
      SameDefaults t t' ∧ ∀ bucket' q, t'.entry bucket' q =
        if bucket' = bucket ∧ q = p then some base else t.entry bucket' q := by
  have hpath := pathOf_base hs h
  obtain ⟨hu, he, hd⟩ := hs.placed bucket p base h
  have hok : (t.addWithCipher bucket base.unencrypted base.encrypted base.key
      base.pathCipher).1 = .ok () := by
    refine (Store.addWithCipher_ok_iff ht).mpr ⟨?_, ?_⟩
    · rw [← hu, ← he, List.length_map, List.length_map]
    · rintro q ⟨b, hb⟩
      rw [hpath]
      exact hs.coherent bucket p q ⟨base, h⟩ ⟨b, hsub bucket q b hb⟩
  have hadd : addEntry t (entryOf (bucket, base)) = .ok (t.addWithCipher bucket base.unencrypted
      base.encrypted base.key base.pathCipher).2 := addEntry_eq_ok.mpr ⟨bucket, rfl, hok, rfl⟩
  refine ⟨_, hadd, .addEntry ht hadd, fun bucket' q => ?_⟩
  rw [Store.entry_addWithCipher ht hok, hpath, ← hd]

/-- Listed bases are added one after the other. -/
lemma foldlM_of_sub (hs : s.WF) (l : List (String × Base))
    (hl : ∀ x ∈ l, ∃ p, s.entry x.1 p = some x.2) (ht : t.WF) (hsub : Sub t s) :
    ∃ t', (l.map entryOf).foldlM addEntry t = .ok t' ∧ SameDefaults t t' ∧ Sub t' s ∧
      ∀ bucket p base, t'.entry bucket p = some base ↔
        t.entry bucket p = some base ∨ (bucket, base) ∈ l ∧ s.entry bucket p = some base := by
  induction l generalizing t with
  | nil => exact ⟨t, rfl, .refl ht, hsub, by simp⟩
  | cons x l ih =>
      obtain ⟨b, base⟩ := x
      obtain ⟨p, hp⟩ := hl (b, base) List.mem_cons_self
      obtain ⟨t₁, hadd, hsame, hentry⟩ := addEntry_of_sub hs ht hsub hp
      have hsub₁ : Sub t₁ s := by
        intro bucket q base' hq
        rw [hentry] at hq
        split_ifs at hq with hbp
        · cases hq
          rw [hbp.1, hbp.2]
          exact hp
        · exact hsub bucket q base' hq
      obtain ⟨t', hfold, hsame', hsub', hiff⟩ :=
        ih (fun x hx => hl x (List.mem_cons_of_mem _ hx)) hsame.wf hsub₁
      refine ⟨t', ?_, hsame.trans hsame', hsub', fun bucket q base' => ?_⟩
      · rw [List.map_cons, List.foldlM_cons, hadd, Fallible.ok_bind]
        exact hfold
      · rw [hiff, hentry, List.mem_cons, Prod.mk.injEq]
        constructor
        · rintro (hq | ⟨hmem, hq⟩)
          · split_ifs at hq with hbp
            · cases hq
              rw [hbp.1, hbp.2]
              exact Or.inr ⟨Or.inl ⟨rfl, rfl⟩, hp⟩
            · exact Or.inl hq
          · exact Or.inr ⟨Or.inr hmem, hq⟩
        · rintro (hq | ⟨⟨rfl, rfl⟩ | hmem, hq⟩)
          · -- what was there stays, or is the same
            left
            split_ifs with hbp
            · rw [← hsub bucket q base' hq, hbp.1, hbp.2, hp]
            · exact hq
          · left
            rw [if_pos ⟨rfl, hs.entry_inj hq hp⟩]
          · exact Or.inr ⟨hmem, hq⟩

/-- **An access that was made of a store is read as a store with the same bases.** -/
lemma storeFromEnc_encFromStore (hs : s.WF)
    (henc : enc.storeEntries = (s.iterate order).map entryOf) :
    ∃ t, storeFromEnc enc = .ok t ∧ t.WF ∧ t.encryptionBypass = false ∧
      t.defaultKey = enc.defaultKey ∧ t.defaultPathCipher = enc.defaultPathCipher ∧
      ∀ bucket p, t.entry bucket p = s.entry bucket p := by
  obtain ⟨t, hfold, _, _, hiff⟩ := foldlM_of_sub hs (s.iterate order)
    (fun x hx => (Store.mem_iterate hs).mp hx) (wf_defaults enc) (by
      intro bucket p base h
      rw [entry_defaults] at h
      cases h)
  have hstore : storeFromEnc enc = .ok t := by
    rw [storeFromEnc, henc]
    exact hfold
  obtain ⟨hwf, hbypass, hkey, hcipher⟩ := storeFromEnc_spec hstore
  refine ⟨t, hstore, hwf, hbypass, hkey, hcipher, fun bucket p => ?_⟩
  refine Option.ext fun base => ?_
  rw [hiff, entry_defaults]
  constructor
  · rintro (h | ⟨_, h⟩)
    · cases h
    · exact h
  · intro h
    exact Or.inr ⟨(Store.mem_iterate hs).mpr ⟨p, h⟩, h⟩

end RoundTrip

/-! ## Prefixes as components

The prefixes of the caveats are byte strings with their trailing slash stripped.  In one bucket
they are lists of lists of components.
-/

section Groups

variable {groups : List (List CaveatPath)} {x y z : List Bytes}

/-- One path begins another as bytes. -/
def Begins (y z : List Bytes) : Prop := joinComponents y <+: joinComponents z

/-- The prefixes of the groups in one bucket, by components. -/
def bucketGroups (groups : List (List CaveatPath)) (bucket : String) : List (List (List Bytes)) :=
  groups.map fun group => (group.filter fun path => path.bucket = utf8 bucket).map fun path =>
    components path.encryptedPathPrefix

lemma begins_of_prefix (h : y <+: z) : Begins y z := by
  obtain ⟨t, rfl⟩ := h
  by_cases hy : y = []
  · rw [hy]
    exact List.nil_prefix
  · by_cases ht : t = []
    · rw [ht, List.append_nil]
      exact List.prefix_refl _
    · rw [Begins, joinComponents_append hy ht]
      exact List.prefix_append _ _

lemma Begins.trans (h : Begins x y) (h' : Begins y z) : Begins x z := List.IsPrefix.trans h h'

lemma mem_bucketGroups {g : List (List Bytes)} : g ∈ bucketGroups groups bucket ↔
    ∃ group ∈ groups, g = (group.filter fun path => path.bucket = utf8 bucket).map fun path =>
      components path.encryptedPathPrefix := by
  rw [bucketGroups, List.mem_map]
  simp only [eq_comm]

/-- **What the groups allow**, in bytes and in components. -/
lemma allowed_iff : Allowed Begins (bucketGroups groups bucket) y ↔
    AllowedBy groups (utf8 bucket) (joinComponents y) := by
  constructor
  · intro h group hgroup
    obtain ⟨z, hz, hle⟩ := h _ (mem_bucketGroups.mpr ⟨group, hgroup, rfl⟩)
    obtain ⟨path, hpath, rfl⟩ := List.mem_map.mp hz
    obtain ⟨hmem, hbucket⟩ := List.mem_filter.mp hpath
    rw [Begins, joinComponents_components] at hle
    exact ⟨path, hmem, (of_decide_eq_true hbucket).symm, hle⟩
  · intro h g hg
    obtain ⟨group, hgroup, rfl⟩ := mem_bucketGroups.mp hg
    obtain ⟨path, hmem, hbucket, hle⟩ := h group hgroup
    refine ⟨components path.encryptedPathPrefix, List.mem_map.mpr ⟨path, ?_, rfl⟩, ?_⟩
    · exact List.mem_filter.mpr ⟨hmem, decide_eq_true hbucket.symm⟩
    · rw [Begins, joinComponents_components]
      exact hle

/-- **The prefixes that are kept** in a bucket, in order. -/
lemma retained_eq (groups : List (List CaveatPath)) (bucket : String) :
    retained Begins (bucketGroups groups bucket) =
      ((allowedPrefixes groups).filter fun path => path.bucket = utf8 bucket).map fun path =>
        components path.encryptedPathPrefix := by
  have hflat : (bucketGroups groups bucket).flatten =
      (groups.flatten.filter fun path => path.bucket = utf8 bucket).map fun path =>
        components path.encryptedPathPrefix := by
    rw [bucketGroups, List.filter_flatten, List.map_flatten, List.map_map]
    rfl
  rw [retained, hflat, List.filter_map, allowedPrefixes, List.filter_filter, List.filter_filter]
  refine congrArg _ (List.filter_congr fun path _ => ?_)
  rw [Bool.eq_iff_iff]
  simp only [Function.comp_apply, Bool.and_eq_true, decide_eq_true_eq, allowed_iff,
    joinComponents_components]
  constructor
  · rintro ⟨hallowed, hbucket⟩
    exact ⟨hbucket, hbucket ▸ hallowed⟩
  · rintro ⟨hbucket, hallowed⟩
    exact ⟨hbucket ▸ hallowed, hbucket⟩

/-- **What every group allows is below a prefix that is kept**: the longest of theirs. -/
lemma exists_allowedPrefix {bytes path : Bytes} (hne : groups ≠ [])
    (h : AllowedBy groups bytes path) : ∃ p ∈ allowedPrefixes groups, p.Allows bytes path := by
  -- among the prefixes of some of the groups there is a longest one
  have hlongest : ∀ gs : List (List CaveatPath), gs ≠ [] → AllowedBy gs bytes path →
      ∃ p, (∃ g ∈ gs, p ∈ g) ∧ p.Allows bytes path ∧
        AllowedBy gs p.bucket p.encryptedPathPrefix := by
    intro gs hgs hall
    induction gs with
    | nil => exact absurd rfl hgs
    | cons g gs ih =>
        obtain ⟨o, ho, hallows⟩ := hall g List.mem_cons_self
        by_cases hnil : gs = []
        · subst hnil
          refine ⟨o, ⟨g, List.mem_cons_self, ho⟩, hallows, fun g' hg' => ?_⟩
          rw [List.mem_singleton.mp hg']
          exact ⟨o, ho, rfl, List.prefix_refl _⟩
        · obtain ⟨p, ⟨g', hg', hp⟩, hpallows, hpall⟩ :=
            ih hnil fun g' hg' => hall g' (List.mem_cons_of_mem _ hg')
          have hbuckets : p.bucket = o.bucket := hpallows.1.symm.trans hallows.1
          rcases List.prefix_or_prefix_of_prefix hpallows.2 hallows.2 with hle | hle
          · -- the new one is longer
            refine ⟨o, ⟨g, List.mem_cons_self, ho⟩, hallows, fun g₁ hg₁ => ?_⟩
            rcases List.mem_cons.mp hg₁ with rfl | hg₁
            · exact ⟨o, ho, rfl, List.prefix_refl _⟩
            · obtain ⟨w, hw, hwb, hwle⟩ := hpall g₁ hg₁
              exact ⟨w, hw, hbuckets.symm.trans hwb, hwle.trans hle⟩
          · refine ⟨p, ⟨g', List.mem_cons_of_mem _ hg', hp⟩, hpallows, fun g₁ hg₁ => ?_⟩
            rcases List.mem_cons.mp hg₁ with rfl | hg₁
            · exact ⟨o, ho, hbuckets, hle⟩
            · exact hpall g₁ hg₁
  obtain ⟨p, hp, hallows, hall⟩ := hlongest groups hne h
  exact ⟨p, mem_allowedPrefixes.mpr ⟨hp, hall⟩, hallows⟩

/-- A path is kept if the groups allow it. -/
lemma kept_iff {bytes path : Bytes} (hne : groups ≠ []) :
    (∃ p ∈ allowedPrefixes groups, p.Allows bytes path) ↔ AllowedBy groups bytes path := by
  constructor
  · rintro ⟨p, hp, hallows⟩
    exact (mem_allowedPrefixes.mp hp).2.trans hallows
  · exact exists_allowedPrefix hne

end Groups

/-! ## The first loop

Prefix by prefix, in order.  A prefix of another bucket leaves the table of this one alone, and so
does one that does not open or disagrees with an entry.
-/

section Prefixes

variable {acc : List (Path Bytes Bytes)} {path : CaveatPath} {x : List Bytes}

/-- A ciphertext that opens has a base above it, with the one cipher. -/
lemma exists_lookup (hsrc : Uniform c src) {bytes : Bytes}
    (h : ∃ p k, (keysOf prim src bucket).Start Prod.snd (components bytes) p k) :
    ∃ base, (src.lookupEncrypted bucket bytes).base = some base ∧ base.pathCipher = c := by
  rw [Store.lookupEncrypted]
  rcases Store.lookup_spec hsrc.wf bucket bytes false with
    ⟨p, base, hstart, hbase, _⟩ | ⟨hnone, _⟩
  · refine ⟨_, hbase, ?_⟩
    have hkeys : (keysOf prim src bucket).Start Prod.snd (components bytes) p
        (src.baseKeys prim.toPathPrimitives bucket base) := hstart.map _
    exact hsrc.start_snd hkeys
  · obtain ⟨p, k, hp⟩ := h
    obtain ⟨base, hstart, _⟩ := Table.start_map.mp hp
    exact absurd hstart (hnone p base)

/-- Opening bytes is opening their components, the empty path included. -/
lemma decryptPath_of_dec (hsrc : src.WF) {bytes : Bytes}
    (h : (keysOf prim src bucket).Dec (sysOf prim) (components bytes) x) :
    decryptPath prim.toPathPrimitives bucket bytes src = .ok (joinComponents x) := by
  rw [decryptPath]
  by_cases hbytes : bytes = []
  · rw [decryptPathBytes, if_pos hbytes]
    have hlen := h.length
    rw [hbytes, components, if_pos rfl, List.length_nil] at hlen
    rw [List.length_eq_zero_iff.mp hlen]
    rfl
  · exact (decryptPathBytes_eq_ok hsrc hbytes).mpr ⟨x, h, rfl⟩

/-- What has been opened and has a key was opened with a key. -/
lemma dec_of_decryptPath (hsrc : src.WF) {bytes unenc : Bytes} {key : Key}
    (hdec : decryptPath prim.toPathPrimitives bucket bytes src = .ok unenc)
    (hkey : derivePathKey prim.toPathPrimitives bucket unenc src = .ok key) :
    ∃ x, (keysOf prim src bucket).Dec (sysOf prim) (components bytes) x := by
  rw [decryptPath] at hdec
  by_cases hbytes : bytes = []
  · rw [decryptPathBytes, if_pos hbytes] at hdec
    cases hdec
    obtain ⟨_, p, l, hp, _⟩ := (derivePathKey_eq_ok hsrc).mp hkey
    have hnil : components ([] : Bytes) = [] := components_eq_nil.mpr rfl
    rw [hnil] at hp
    have hp0 : p = [] := List.length_eq_zero_iff.mp (Nat.le_zero.mp hp.length_le)
    subst hp0
    rw [hbytes, hnil]
    refine ⟨[], [], l, [], ?_, rfl, rfl⟩
    cases hp with
    | entry hpk hx hdeep =>
        exact .entry hpk hx fun q _ hq => by
          simpa using hq.length_le
    | root hroot hnone =>
        refine .root hroot fun q hq hqx => ?_
        have hq0 : q = [] := List.map_eq_nil_iff.mp (List.prefix_nil.mp hqx)
        exact hnone q hq (hq0 ▸ List.nil_prefix)
  · obtain ⟨x, hx, _⟩ := (decryptPathBytes_eq_ok hsrc hbytes).mp hdec
    exact ⟨x, hx⟩

/-- **What the first loop does with a prefix of the bucket** that opens. -/
lemma addPrefix_of_candidate (store : Store) (hsrc : Uniform c src) (hbucket : path.bucket = utf8 bucket)
    (hp : candidate (sysOf prim) (keysOf prim src bucket)
      (components path.encryptedPathPrefix) = some p) (hpath : IsPath (plain p)) :
    ∃ k, (keysOf prim src bucket).Key (sysOf prim) (plain p) k ∧ k.2 = c ∧
      addPrefix prim src store path = (store.addWithCipher bucket (joinComponents (plain p))
        (joinComponents (cipher p)) k.1 k.2).2 := by
  obtain ⟨hcipher, hdec⟩ := candidate_spec hp
  obtain ⟨k, hk⟩ := exists_key hdec
  have hkey : derivePathKey prim.toPathPrimitives bucket (joinComponents (plain p)) src = .ok k.1 := by
    refine (derivePathKey_eq_ok hsrc.wf).mpr ⟨k.2, ?_⟩
    rw [components_joinComponents hpath]
    exact hk
  obtain ⟨q, l, d, hq, _, _⟩ := id hdec
  obtain ⟨base, hbase, hc⟩ := exists_lookup hsrc ⟨q, l, hq⟩
  have hkc := hsrc.key_snd hk
  refine ⟨k, hk, hkc, ?_⟩
  rw [addPrefix, hbucket, fromUtf8_utf8]
  simp only [decryptPath_of_dec hsrc.wf hdec, hkey, hbase]
  rw [hcipher, joinComponents_components, hc, hkc]

/-- What the first loop does with a prefix that does not open, or of another bucket. -/
lemma addPrefix_entry_of_not (hsrc : src.WF) (hstore : store.WF)
    (h : path.bucket = utf8 bucket → candidate (sysOf prim) (keysOf prim src bucket)
      (components path.encryptedPathPrefix) = none) (q : Path Bytes Bytes) :
    (addPrefix prim src store path).entry bucket q = store.entry bucket q := by
  rcases addPrefix_cases src store path with heq | ⟨bucket', unenc, key, base, hb, hdec, hkey, _,
    hadd, heq⟩
  · rw [heq]
  · rw [heq, Store.entry_addWithCipher hstore hadd]
    by_cases hbb : bucket = bucket'
    · subst hbb
      obtain ⟨x, hx⟩ := dec_of_decryptPath hsrc hdec hkey
      obtain ⟨p, hp, _⟩ := exists_candidate (keys_coherent hsrc bucket) hx
      rw [h hb.symm] at hp
      cases hp
    · rw [if_neg fun hq => hbb hq.1]

lemma SameDefaults.addPrefix (hs : s.WF) : SameDefaults s (addPrefix prim src s path) := by
  rcases addPrefix_cases src s path with heq | ⟨bucket', unenc, key, base, _, _, _, _, hadd, heq⟩
  · rw [heq]
    exact .refl hs
  · rw [heq]
    exact .add hs hadd

/-- **The store during the first loop**: the paths of a bucket that were added so far, with the keys
that the source has for them. -/
def Tracks (prim : AccessPrimitives) (src store : Store) (bucket : String)
    (acc : List (Path Bytes Bytes)) : Prop :=
  ∀ p base, store.entry bucket p = some base ↔
    p ∈ acc ∧ ∃ k, (keysOf prim src bucket).Key (sysOf prim) (plain p) k ∧ base = baseAt p k

lemma Tracks.has (h : Tracks prim src store bucket acc) (hacc : ∀ p ∈ acc,
    (keysOf prim src bucket).Dec (sysOf prim) (cipher p) (plain p)) :
    (∃ base, store.entry bucket p = some base) ↔ p ∈ acc := by
  constructor
  · rintro ⟨base, hbase⟩
    exact ((h p base).mp hbase).1
  · intro hp
    obtain ⟨k, hk⟩ := exists_key (hacc p hp)
    exact ⟨baseAt p k, (h p _).mpr ⟨hp, k, hk, rfl⟩⟩

/-- One prefix of the first loop. -/
lemma Tracks.step (hsrc : Uniform c src) (hstore : store.WF)
    (h : Tracks prim src store bucket acc) (hbucket : path.bucket = utf8 bucket)
    (hacc : ∀ p ∈ acc, (keysOf prim src bucket).Dec (sysOf prim) (cipher p) (plain p))
    (hp : candidate (sysOf prim) (keysOf prim src bucket)
      (components path.encryptedPathPrefix) = some p) (hpath : IsPath (plain p)) :
    ((∀ q ∈ acc, Agree p q) → Tracks prim src (addPrefix prim src store path) bucket (acc ++ [p])) ∧
      ((¬∀ q ∈ acc, Agree p q) → Tracks prim src (addPrefix prim src store path) bucket acc) := by
  obtain ⟨k, hk, _, heq⟩ := addPrefix_of_candidate store hsrc hbucket hp hpath
  have hcipher : IsPath (cipher p) := by
    rw [(candidate_spec hp).1]
    exact isPath_components _
  have hof : Store.pathOf (joinComponents (plain p)) (joinComponents (cipher p)) = p := by
    rw [Store.pathOf, components_joinComponents hpath, components_joinComponents hcipher]
    simp [List.zip_map']
  have hok : (store.addWithCipher bucket (joinComponents (plain p)) (joinComponents (cipher p)) k.1
      k.2).1 = .ok () ↔ ∀ q ∈ acc, Agree p q := by
    rw [Store.addWithCipher_ok_iff hstore, components_joinComponents hpath,
      components_joinComponents hcipher, List.length_map, List.length_map, hof]
    constructor
    · rintro ⟨_, hagree⟩ q hq
      exact hagree q ((h.has hacc).mpr hq)
    · intro hagree
      exact ⟨rfl, fun q hq => hagree q ((h.has hacc).mp hq)⟩
  rw [heq]
  constructor
  · intro hagree q base
    rw [Store.entry_addWithCipher hstore (hok.mpr hagree), hof, List.mem_append,
      List.mem_singleton]
    by_cases hqp : q = p
    · subst hqp
      rw [if_pos ⟨rfl, rfl⟩, Option.some.injEq]
      constructor
      · rintro rfl
        exact ⟨Or.inr rfl, k, hk, rfl⟩
      · rintro ⟨_, l, hl, rfl⟩
        rw [hk.unique (keys_coherent hsrc.wf bucket) hl]
        rfl
    · rw [if_neg fun hq => hqp hq.2, h q base, or_iff_left hqp]
  · intro hagree
    cases hres : (store.addWithCipher bucket (joinComponents (plain p)) (joinComponents (cipher p))
        k.1 k.2).1 with
    | ok _ => exact absurd (hok.mp hres) hagree
    | error err =>
        rw [Store.addWithCipher_error hres]
        exact h

/-- **The first loop adds the paths of a bucket in order**, without those that disagree. -/
lemma Tracks.foldl (hsrc : Uniform c src) {l : List CaveatPath} (hstore : store.WF)
    (h : Tracks prim src store bucket acc)
    (hacc : ∀ p ∈ acc, (keysOf prim src bucket).Dec (sysOf prim) (cipher p) (plain p))
    (hl : ∀ path ∈ l, path.bucket = utf8 bucket → ∀ x, (keysOf prim src bucket).Dec (sysOf prim)
      (components path.encryptedPathPrefix) x → IsPath x) :
    Tracks prim src (l.foldl (addPrefix prim src) store) bucket
        (greedy acc (((l.filter fun path => path.bucket = utf8 bucket).map fun path =>
          components path.encryptedPathPrefix).filterMap
            (candidate (sysOf prim) (keysOf prim src bucket)))) ∧
      SameDefaults store (l.foldl (addPrefix prim src) store) := by
  induction l generalizing store acc with
  | nil => exact ⟨h, .refl hstore⟩
  | cons path l ih =>
      have hsame : SameDefaults store (addPrefix prim src store path) := .addPrefix hstore
      have hl' : ∀ path ∈ l, path.bucket = utf8 bucket → ∀ x, (keysOf prim src bucket).Dec
          (sysOf prim) (components path.encryptedPathPrefix) x → IsPath x :=
        fun path hpath => hl path (List.mem_cons_of_mem _ hpath)
      have hskip : (path.bucket = utf8 bucket → candidate (sysOf prim) (keysOf prim src bucket)
          (components path.encryptedPathPrefix) = none) →
          Tracks prim src (addPrefix prim src store path) bucket acc := by
        intro hnone q base
        rw [addPrefix_entry_of_not hsrc.wf hstore hnone]
        exact h q base
      rw [List.foldl_cons]
      by_cases hbucket : path.bucket = utf8 bucket
      · rw [List.filter_cons_of_pos (by simpa using hbucket), List.map_cons]
        cases hp : candidate (sysOf prim) (keysOf prim src bucket)
            (components path.encryptedPathPrefix) with
        | none =>
            rw [List.filterMap_cons_none hp]
            obtain ⟨htracks, hrest⟩ := ih hsame.wf (hskip fun _ => hp) hacc hl'
            exact ⟨htracks, hsame.trans hrest⟩
        | some p =>
            obtain ⟨hcipher, hdec⟩ := candidate_spec hp
            have hpath := hl path List.mem_cons_self hbucket _ hdec
            obtain ⟨hadd, hnot⟩ := h.step hsrc hstore hbucket hacc hp hpath
            rw [List.filterMap_cons_some hp, greedy]
            split_ifs with hagree
            · obtain ⟨htracks, hrest⟩ := ih hsame.wf (hadd hagree) (fun q hq => by
                rcases List.mem_append.mp hq with hq | hq
                · exact hacc q hq
                · rw [List.mem_singleton.mp hq, hcipher]
                  exact hdec) hl'
              exact ⟨htracks, hsame.trans hrest⟩
            · obtain ⟨htracks, hrest⟩ := ih hsame.wf (hnot hagree) hacc hl'
              exact ⟨htracks, hsame.trans hrest⟩
      · rw [List.filter_cons_of_neg (by simpa using hbucket)]
        obtain ⟨htracks, hrest⟩ := ih hsame.wf (hskip fun h => absurd h hbucket) hacc hl'
        exact ⟨htracks, hsame.trans hrest⟩

end Prefixes

/-! ## The second loop

Every entry of the source below a prefix is put in, in the order of the walk, which does not matter
since each path comes once.
-/

section Entries

variable {prefixes : List CaveatPath} {entry : StoreEntry} {entries : List StoreEntry}
  {groups : List (List CaveatPath)} {enc : EncryptionAccess} {order : HashOrder}

/-- An entry that is added, as a path with its base. -/
lemma addEntry_spec (hs : s.WF) (h : addEntry s entry = .ok t) : ∃ bucket p,
    utf8 bucket = entry.bucket ∧ joinComponents (cipher p) = entry.encryptedPath ∧
      ∀ bucket' q, t.entry bucket' q = if bucket' = bucket ∧ q = p then
        some ⟨entry.unencryptedPath, entry.encryptedPath, entry.key, entry.pathCipher, false⟩
      else s.entry bucket' q := by
  obtain ⟨bucket, hbucket, hadd, rfl⟩ := addEntry_eq_ok.mp h
  have hlen := ((Store.addWithCipher_ok_iff hs).mp hadd).1
  refine ⟨bucket, Store.pathOf entry.unencryptedPath entry.encryptedPath, hbucket, ?_,
    fun bucket' q => Store.entry_addWithCipher hs hadd bucket' q⟩
  rw [Store.pathOf, cipher, List.map_snd_zip hlen.ge, joinComponents_components]

/-- One path of a bucket is below the prefixes that are kept. -/
def Kept (prefixes : List CaveatPath) (bucket : String) (p : Path Bytes Bytes) : Prop :=
  ∃ path ∈ prefixes, path.Allows (utf8 bucket) (joinComponents (cipher p))

open Classical in
/-- **The second loop keeps the entries of the source that are below a prefix.** -/
lemma entry_keep (store₁ : Store) (hs : s.WF) (ht : t.WF)
    (hsrc : entries.foldlM addEntry s = .ok src)
    (hkeep : entries.foldlM (keepEntry prefixes) t = .ok store)
    (h : ∀ bucket p, t.entry bucket p =
      if Kept prefixes bucket p then (s.entry bucket p).or (store₁.entry bucket p)
      else store₁.entry bucket p) :
    SameDefaults t store ∧ ∀ bucket p, store.entry bucket p =
      if Kept prefixes bucket p then (src.entry bucket p).or (store₁.entry bucket p)
      else store₁.entry bucket p := by
  induction entries generalizing s t with
  | nil =>
      cases hsrc
      cases hkeep
      exact ⟨.refl ht, h⟩
  | cons entry entries ih =>
      rw [List.foldlM_cons, Fallible.bind_eq_ok] at hsrc hkeep
      obtain ⟨s', hs', hsrc⟩ := hsrc
      obtain ⟨t', ht', hkeep⟩ := hkeep
      obtain ⟨bucket, p, hbucket, hpath, hentry⟩ := addEntry_spec hs hs'
      have hkept : (∃ path ∈ prefixes, path.Allows entry.bucket entry.encryptedPath) ↔
          Kept prefixes bucket p := by
        rw [Kept, hbucket, hpath]
      rw [keepEntry] at ht'
      split_ifs at ht' with hany
      · obtain ⟨bucket', p', hbucket', hpath', hentry'⟩ := addEntry_spec ht ht'
        have hb : bucket' = bucket := utf8_injective (hbucket'.trans hbucket.symm)
        subst hb
        have hpp : p' = p := by
          -- both are the entry's own path
          have hnew := hentry' bucket' p'
          rw [if_pos ⟨rfl, rfl⟩] at hnew
          have hnew' := hentry bucket' p
          rw [if_pos ⟨rfl, rfl⟩] at hnew'
          have hwf := (SameDefaults.addEntry hs hs').wf
          have hwf' := (SameDefaults.addEntry ht ht').wf
          rw [← pathOf_base hwf' hnew, ← pathOf_base hwf hnew']
        subst hpp
        have hsame : SameDefaults t t' := .addEntry ht ht'
        obtain ⟨hrest, hall⟩ := ih (SameDefaults.addEntry hs hs').wf hsame.wf hsrc hkeep (by
          intro b q
          rw [hentry', hentry, h]
          by_cases hbq : b = bucket' ∧ q = p'
          · rw [if_pos hbq, if_pos hbq, hbq.1, hbq.2, if_pos (hkept.mp hany)]
            rfl
          · rw [if_neg hbq, if_neg hbq])
        exact ⟨hsame.trans hrest, hall⟩
      · cases ht'
        refine ih (SameDefaults.addEntry hs hs').wf ht hsrc hkeep fun b q => ?_
        rw [h, hentry]
        by_cases hbq : b = bucket ∧ q = p
        · rw [hbq.1, hbq.2, if_neg fun hk => hany (hkept.mpr hk),
            if_neg fun hk => hany (hkept.mpr hk)]
        · rw [if_neg hbq]

lemma baseAt_injective {l : Key × CipherSuite} (h : baseAt p k = baseAt p l) : k = l := by
  rw [baseAt, baseAt, Base.mk.injEq] at h
  exact Prod.ext h.2.2.1 h.2.2.2.1

/-- **What the first loop leaves** in a bucket. -/
lemma firstLoop (hsrc : Uniform c src)
    (hpaths : ∀ y ∈ retained Begins (bucketGroups groups bucket), ∀ x,
      (keysOf prim src bucket).Dec (sysOf prim) y x → IsPath x) :
    Tracks prim src ((allowedPrefixes groups).foldl (addPrefix prim src)
        (Store.new.setDefaultPathCipher src.defaultPathCipher)) bucket
        (added (sysOf prim) Begins (keysOf prim src bucket) (bucketGroups groups bucket)) ∧
      SameDefaults (Store.new.setDefaultPathCipher src.defaultPathCipher)
        ((allowedPrefixes groups).foldl (addPrefix prim src)
          (Store.new.setDefaultPathCipher src.defaultPathCipher)) := by
  have hstart : (Store.new.setDefaultPathCipher src.defaultPathCipher).WF :=
    Store.wf_of_roots rfl
  rw [added, retained_eq]
  refine Tracks.foldl hsrc hstart (fun p base => ?_) nofun fun path hpath hbucket x hx => ?_
  · exact ⟨nofun, nofun⟩
  · refine hpaths _ ?_ x hx
    rw [retained_eq]
    exact List.mem_map.mpr ⟨path, List.mem_filter.mpr ⟨hpath, decide_eq_true hbucket⟩, rfl⟩

/-- **The loops of `limit_to` make the limited tables**, where the prefixes open to paths. -/
theorem limit_of_loops (hsrc : Uniform c src) (hne : groups ≠ []) (henc : storeFromEnc enc = .ok src)
    (hpaths : ∀ bucket, ∀ y ∈ retained Begins (bucketGroups groups bucket), ∀ x,
      (keysOf prim src bucket).Dec (sysOf prim) y x → IsPath x)
    (hloops : enc.storeEntries.foldlM (keepEntry (allowedPrefixes groups))
      ((allowedPrefixes groups).foldl (addPrefix prim src)
        (Store.new.setDefaultPathCipher src.defaultPathCipher)) = .ok store) :
    Uniform c store ∧ store.defaultKey = none ∧
      store.defaultPathCipher = src.defaultPathCipher ∧
      ∀ bucket, Limit (sysOf prim) Begins (keysOf prim src bucket) (bucketGroups groups bucket)
        (keysOf prim store bucket) := by
  classical
  have hfirst := fun bucket => firstLoop hsrc (hpaths bucket)
  generalize hstore₁ : (allowedPrefixes groups).foldl (addPrefix prim src)
    (Store.new.setDefaultPathCipher src.defaultPathCipher) = store₁ at hfirst hloops
  have hsame₁ := (hfirst "").2
  obtain ⟨hsame, hentry⟩ := entry_keep store₁ (wf_defaults enc) hsame₁.wf henc hloops (by
    intro bucket p
    rw [entry_defaults, Option.none_or, ite_self])
  have hkept : ∀ bucket p, Kept (allowedPrefixes groups) bucket p ↔
      Allowed Begins (bucketGroups groups bucket) (cipher p) := by
    intro bucket p
    rw [allowed_iff, Kept, kept_iff hne]
  -- the bases of the result
  have hbases : ∀ bucket p base, store.entry bucket p = some base ↔
      (((keysOf prim src bucket).Has p ∧ Allowed Begins (bucketGroups groups bucket) (cipher p)) ∨
        p ∈ added (sysOf prim) Begins (keysOf prim src bucket) (bucketGroups groups bucket)) ∧
      ∃ k, (keysOf prim src bucket).Key (sysOf prim) (plain p) k ∧ base = baseAt p k := by
    intro bucket p base
    rw [hentry]
    by_cases hallowed : Allowed Begins (bucketGroups groups bucket) (cipher p)
    · rw [if_pos ((hkept bucket p).mpr hallowed)]
      cases hb : src.entry bucket p with
      | none =>
          have hnot : ¬(keysOf prim src bucket).Has p := by
            rintro hhas
            obtain ⟨b, hb'⟩ := (keys_has src bucket).mp hhas
            rw [hb] at hb'
            cases hb'
          rw [Option.none_or, (hfirst bucket).1 p base]
          simp only [hnot, false_and, false_or]
      | some b =>
          have hself : (keysOf prim src bucket).entry p = some (b.key, b.pathCipher) := by
            rw [keys_entry hsrc.wf hsrc.bypass, ← base_eq hsrc.wf hb]
            exact hb
          have hkey : (keysOf prim src bucket).Key (sysOf prim) (plain p) (b.key, b.pathCipher) :=
            key_self hself
          rw [Option.some_or, Option.some.injEq]
          constructor
          · rintro rfl
            exact ⟨Or.inl ⟨⟨_, hself⟩, hallowed⟩, _, hkey, base_eq hsrc.wf hb⟩
          · rintro ⟨_, k, hk, rfl⟩
            rw [hk.unique (keys_coherent hsrc.wf bucket) hkey]
            exact base_eq hsrc.wf hb
    · rw [if_neg fun h => hallowed ((hkept bucket p).mp h), (hfirst bucket).1 p base]
      simp only [hallowed, and_false, false_or]
  have huniform : Uniform c store := by
    refine ⟨hsame.wf, hsame.bypass.trans hsame₁.bypass, fun h => ?_, fun bucket p base hb => ?_⟩
    · rw [hsame.key, hsame₁.key] at h
      exact absurd rfl h
    · obtain ⟨_, k, hk, rfl⟩ := (hbases bucket p base).mp hb
      exact hsrc.key_snd hk
  refine ⟨huniform, hsame.key.trans hsame₁.key, hsame.cipher.trans hsame₁.cipher,
    fun bucket => ⟨?_, fun p k => ?_, keys_coherent hsame.wf bucket⟩⟩
  · rw [keys_root huniform, hsame.key, hsame₁.key]
    rfl
  · rw [keys_entry huniform.wf huniform.bypass, hbases]
    refine and_congr_right fun _ => ?_
    constructor
    · rintro ⟨l, hl, heq⟩
      rw [baseAt_injective heq]
      exact hl
    · intro hk
      exact ⟨k, hk, rfl⟩

/-- Limits are unique. -/
lemma limit_unique {T T₁ T₂ : Table Bytes Bytes (Key × CipherSuite)} {G : List (List (List Bytes))}
    (h₁ : Limit (sysOf prim) Begins T G T₁) (h₂ : Limit (sysOf prim) Begins T G T₂) : T₁ = T₂ := by
  have hroot : T₁.root = T₂.root := h₁.root_eq.trans h₂.root_eq.symm
  have hentry : T₁.entry = T₂.entry := by
    funext p
    refine Option.ext fun k => ?_
    rw [h₁.entry_iff, h₂.entry_iff]
  cases T₁
  cases T₂
  exact congrArg₂ Table.mk hroot hentry

/-- Entries of a store are kept or left out, without conflict. -/
lemma keep_of_sub (prefixes : List CaveatPath) (hs : s.WF) (l : List (String × Base))
    (hl : ∀ x ∈ l, ∃ p, s.entry x.1 p = some x.2) (ht : t.WF) (hsub : Sub t s) :
    ∃ t', (l.map entryOf).foldlM (keepEntry prefixes) t = .ok t' := by
  induction l generalizing t with
  | nil => exact ⟨t, rfl⟩
  | cons x l ih =>
      obtain ⟨b, base⟩ := x
      obtain ⟨p, hp⟩ := hl (b, base) List.mem_cons_self
      have hl' : ∀ x ∈ l, ∃ p, s.entry x.1 p = some x.2 :=
        fun x hx => hl x (List.mem_cons_of_mem _ hx)
      rw [List.map_cons, List.foldlM_cons, keepEntry]
      split_ifs with hany
      · obtain ⟨t₁, hadd, hsame, hentry⟩ := addEntry_of_sub hs ht hsub hp
        rw [hadd, Fallible.ok_bind]
        refine ih hl' hsame.wf fun bucket q base' hq => ?_
        rw [hentry] at hq
        split_ifs at hq with hbp
        · cases hq
          rw [hbp.1, hbp.2]
          exact hp
        · exact hsub bucket q base' hq
      · rw [Fallible.ok_bind]
        exact ih hl' ht hsub

/-- **On tables that are their own limits the loops succeed**, and leave the bases as they are. -/
theorem loops_of_limit (hsrc : Uniform c src) (hne : groups ≠ []) (henc : storeFromEnc enc = .ok src)
    {l : List (String × Base)} (hl : ∀ x ∈ l, ∃ p, src.entry x.1 p = some x.2)
    (hentries : enc.storeEntries = l.map entryOf)
    (hpaths : ∀ bucket, ∀ y ∈ retained Begins (bucketGroups groups bucket), ∀ x,
      (keysOf prim src bucket).Dec (sysOf prim) y x → IsPath x)
    (hlimit : ∀ bucket, Limit (sysOf prim) Begins (keysOf prim src bucket)
      (bucketGroups groups bucket) (keysOf prim src bucket)) :
    ∃ store, enc.storeEntries.foldlM (keepEntry (allowedPrefixes groups))
      ((allowedPrefixes groups).foldl (addPrefix prim src)
        (Store.new.setDefaultPathCipher src.defaultPathCipher)) = .ok store ∧
      Uniform c store ∧ store.defaultKey = none ∧
      store.defaultPathCipher = src.defaultPathCipher ∧
      ∀ bucket p, store.entry bucket p = src.entry bucket p := by
  have hfirst := fun bucket => firstLoop hsrc (hpaths bucket)
  -- the first loop adds only what is there
  have hsub : Sub ((allowedPrefixes groups).foldl (addPrefix prim src)
      (Store.new.setDefaultPathCipher src.defaultPathCipher)) src := by
    intro bucket p base hb
    obtain ⟨hp, k, hk, rfl⟩ := ((hfirst bucket).1 p base).mp hb
    have hself := ((hlimit bucket).entry_iff p k).mpr ⟨Or.inr hp, hk⟩
    exact (keys_entry hsrc.wf hsrc.bypass).mp hself
  obtain ⟨store, hstore⟩ := keep_of_sub (allowedPrefixes groups) hsrc.wf l hl
    (hfirst "").2.wf hsub
  rw [← hentries] at hstore
  obtain ⟨huniform, hkey, hcipher, hlimit'⟩ := limit_of_loops hsrc hne henc hpaths hstore
  refine ⟨store, hstore, huniform, hkey, hcipher, fun bucket p => ?_⟩
  exact entry_congr huniform hsrc (limit_unique (hlimit' bucket) (hlimit bucket))

end Entries

end Storj.Access
