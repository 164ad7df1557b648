import StorjUplink.Access.Override
import StorjUplink.Access.Runs

/-!
# Grants along a run

A grant between two calls, as its API key and its entries show it: the path caveats of the key are
groups of prefixes, and the entries are those of a store, which gives every bucket a table of keys
(`Shape`).  An override puts one entry into one table (`Shape.override`), and a restriction adds a
group and limits every table (`Shape.restrict`).

The grant of the source is a key in bytes and a list of entries.  Reading it as tables takes three
steps, each of which may fail on arbitrary grants and none on those of a run: the caveats of the
key are decoded, the prefixes of each are split into components, and the entries make a store.
`Shape` keeps the results of all three, so that a later proof never goes back to the bytes.

The two lemmas about calls are inversions with the tables in view.  They say what the tables are
afterwards and nothing about whether the invariant of the run is kept; that is left to `Ideal` and
`Shared`, which assume different things.
-/

namespace Storj.Access

open Storj.Enc KeyTree Storj.Sharing

/-- **The shape of a grant**: the groups of its API key, the store of its entries, all for one
cipher, and the walk that listed them. -/
structure Shape (prim : AccessPrimitives) (c : CipherSuite) (g : Grant)
    (groups : List (List CaveatPath)) (s : Store) : Prop where
  groups_eq : ∀ mac gs, Macaroon.parse g.apiKey = .ok mac → pathGroups prim ⟨mac⟩ = .ok gs →
    gs = groups
  store : storeFromEnc g.encAccess = .ok s
  uniform : Uniform c s
  cipher : g.encAccess.defaultPathCipher = c
  walk : ∃ (t : Store) (order : HashOrder), t.WF ∧
    (∀ bucket p, t.entry bucket p = s.entry bucket p) ∧
    g.encAccess.storeEntries = (t.iterate order).map entryOf

variable {prim : AccessPrimitives} {c : CipherSuite} {g g' r : Grant} {s t : Store}
  {groups : List (List CaveatPath)} {order : HashOrder} {bucket : String} {key : Key}

namespace Shape

lemma defaultKey (h : Shape prim c g groups s) : s.defaultKey = g.encAccess.defaultKey :=
  (storeFromEnc_spec h.store).2.2.1

lemma defaultPathCipher (h : Shape prim c g groups s) : s.defaultPathCipher = c :=
  (storeFromEnc_spec h.store).2.2.2.trans h.cipher

/-- The entries that were listed are those of the store. -/
lemma entries (h : Shape prim c g groups s) : ∃ l : List (String × Base),
    g.encAccess.storeEntries = l.map entryOf ∧ ∀ x ∈ l, ∃ p, s.entry x.1 p = some x.2 := by
  obtain ⟨t, order, ht, hentry, hlist⟩ := h.walk
  refine ⟨t.iterate order, hlist, fun x hx => ?_⟩
  obtain ⟨p, hp⟩ := (Store.mem_iterate ht).mp hx
  exact ⟨p, (hentry x.1 p).symm.trans hp⟩

/-- **A grant with only a default key.** -/
lemma start (hentries : g.encAccess.storeEntries = []) (hc : g.encAccess.defaultPathCipher = c)
    (hgroups : ∀ mac gs, Macaroon.parse g.apiKey = .ok mac → pathGroups prim ⟨mac⟩ = .ok gs →
      gs = groups) : Shape prim c g groups g.encAccess.defaults := by
  have hstore : storeFromEnc g.encAccess = .ok g.encAccess.defaults := by
    rw [storeFromEnc, hentries]
    rfl
  obtain ⟨hwf, hbypass, _, hcipher⟩ := storeFromEnc_spec hstore
  have hnone : ∀ bucket p, g.encAccess.defaults.entry bucket p = none := fun _ _ =>
    entry_defaults g.encAccess
  refine ⟨hgroups, hstore, ⟨hwf, hbypass, fun _ => hcipher.trans hc, ?_⟩, hc,
    g.encAccess.defaults, ⟨id, fun _ _ => id, fun _ => .rfl, fun _ _ _ => .rfl⟩, hwf,
    fun _ _ => rfl, ?_⟩
  · intro bucket p base hp
    rw [hnone] at hp
    cases hp
  · rw [hentries, eq_comm, List.map_eq_nil_iff, List.eq_nil_iff_forall_not_mem]
    rintro ⟨bucket, base⟩ hx
    obtain ⟨p, hp⟩ := (Store.mem_iterate hwf).mp hx
    rw [hnone] at hp
    cases hp

/-- **A grant that was exported from a store** has the keys of the store. -/
lemma of_store (ht : Uniform c t) (hc : t.defaultPathCipher = c)
    (henc : g.encAccess = encFromStore order t)
    (hgroups : ∀ mac gs, Macaroon.parse g.apiKey = .ok mac → pathGroups prim ⟨mac⟩ = .ok gs →
      gs = groups) :
    ∃ s, Shape prim c g groups s ∧ (∀ bucket p, s.entry bucket p = t.entry bucket p) ∧
      ∀ bucket, keysOf prim s bucket = keysOf prim t bucket := by
  have hentries : g.encAccess.storeEntries = (t.iterate order).map entryOf := by rw [henc]; rfl
  have hcipher : g.encAccess.defaultPathCipher = c := by rw [henc]; exact hc
  obtain ⟨s, hstore, hwf, hbypass, hkey, hs, hentry⟩ :=
    storeFromEnc_encFromStore ht.wf hentries
  have hs' : Uniform c s := by
    refine ⟨hwf, hbypass, fun _ => hs.trans hcipher, fun bucket p base hp => ?_⟩
    rw [hentry] at hp
    exact ht.entries bucket p base hp
  refine ⟨s, ⟨hgroups, hstore, hs', hcipher, t, order, ht.wf, fun bucket p => (hentry bucket p).symm,
    hentries⟩, hentry, fun bucket => keys_congr hs' ht ?_ (hentry bucket)⟩
  rw [hkey, henc]
  rfl

end Shape

/-! ## Sealing a path of the store

A successful `encrypt_path` of the grant, in the terms of its tables.
-/

/-- **A path that a store seals**, with its ciphertext. -/
structure SealedAs (prim : AccessPrimitives) (s : Store) (bucket : String) (path : Bytes)
    (p : Path Bytes Bytes) : Prop where
  plain_eq : plain p = components path
  isPath : IsPath (cipher p)
  enc : p ≠ [] → (keysOf prim s bucket).Enc (sysOf prim) (plain p) (cipher p)

lemma sealedAs_of_encrypt (hs : Uniform c s) (hc : c ≠ .nullBase64Url) {path out : Bytes}
    (h : encryptPathBytes prim.toPathPrimitives bucket path none s = .ok out) :
    SealedAs prim s bucket path (Store.pathOf path out) ∧
      cipher (Store.pathOf path out) = components out := by
  by_cases hpath : path = []
  · rw [encryptPathBytes, if_pos hpath] at h
    cases h
    subst hpath
    exact ⟨⟨rfl, isPath_components [], fun hne => absurd rfl hne⟩, rfl⟩
  · obtain ⟨y, henc, rfl⟩ := (encryptPathBytes_eq_ok hs.wf hpath).mp h
    have hy : IsPath y := by
      obtain ⟨p, k, d, hp, hd, rfl⟩ := henc
      have hk : k.2 ≠ .nullBase64Url := by
        rw [hs.start_snd hp]
        exact hc
      have hp' : IsPath (cipher p) := by
        cases hp with
        | entry hpk _ _ => exact (isPath_of_has hs.wf ⟨k, hpk⟩).2
        | root _ _ => exact isPath_components []
      exact isPath_enc hk (isPath_components path) hp' hp.length_le hd
    have hlen : (components path).length = y.length := henc.length.symm
    have hcomponents := components_joinComponents hy
    have hplain : plain (Store.pathOf path (joinComponents y)) = components path := by
      rw [Store.pathOf, hcomponents]
      exact List.map_fst_zip hlen.le
    have hcipher : cipher (Store.pathOf path (joinComponents y)) = y := by
      rw [Store.pathOf, hcomponents]
      exact List.map_snd_zip hlen.ge
    refine ⟨⟨hplain, ?_, fun _ => ?_⟩, hcipher.trans hcomponents.symm⟩
    · rw [hcipher]
      exact hy
    · rw [hplain, hcipher]
      exact henc

/-! ## An override

One entry more, in one bucket.  The other tables are the same functions.
-/

/-- **An override puts one entry into the table of its bucket.** -/
structure Overrides (prim : AccessPrimitives) (s s' : Store) (bucket : String) (path : Bytes)
    (k : Key × CipherSuite) (p : Path Bytes Bytes) : Prop where
  sealedAs : SealedAs prim s bucket path p
  agree : ∀ q, (keysOf prim s bucket).Has q → Agree p q
  keys_eq : keysOf prim s' bucket = Sharing.insert (keysOf prim s bucket) p k
  keys_ne : ∀ bucket', bucket' ≠ bucket → keysOf prim s' bucket' = keysOf prim s bucket'

lemma Uniform.add (hs : Uniform c s) {path out : Bytes}
    (h : (s.addWithCipher bucket path out key c).1 = .ok ()) :
    Uniform c (s.addWithCipher bucket path out key c).2 := by
  have hsame : SameDefaults s (s.addWithCipher bucket path out key c).2 := .add hs.wf h
  refine ⟨hsame.wf, hsame.bypass.trans hs.bypass, fun hne => ?_, fun b p base hb => ?_⟩
  · rw [hsame.key] at hne
    exact hsame.cipher.trans (hs.default hne)
  · rw [Store.entry_addWithCipher hs.wf h] at hb
    split_ifs at hb
    · cases hb
      rfl
    · exact hs.entries b p base hb

/-- The keys of a store with one more base. -/
lemma keys_add (hs : Uniform c s) {path out : Bytes}
    (h : (s.addWithCipher bucket path out key c).1 = .ok ()) (bucket' : String) :
    keysOf prim (s.addWithCipher bucket path out key c).2 bucket' =
      if bucket' = bucket then
        Sharing.insert (keysOf prim s bucket) (Store.pathOf path out) (key, c)
      else keysOf prim s bucket' := by
  have hsame : SameDefaults s (s.addWithCipher bucket path out key c).2 := .add hs.wf h
  have hentry := Store.entry_addWithCipher hs.wf h
  have ht := hs.add h
  split_ifs with hb
  · subst hb
    have hroot : (keysOf prim (s.addWithCipher bucket' path out key c).2 bucket').root =
        (keysOf prim s bucket').root := by
      rw [keys_root ht, keys_root hs, hsame.key]
    have hfun : (keysOf prim (s.addWithCipher bucket' path out key c).2 bucket').entry =
        (Sharing.insert (keysOf prim s bucket') (Store.pathOf path out) (key, c)).entry := by
      funext q
      refine Option.ext fun k => ?_
      rw [keys_entry ht.wf ht.bypass, hentry, Sharing.insert]
      simp only [true_and]
      split_ifs with hq
      · subst hq
        have hlen := ((Store.addWithCipher_ok_iff hs.wf).mp h).1
        have hbase : ∀ k : Key × CipherSuite, baseAt (Store.pathOf path out) k =
            ⟨path, out, k.1, k.2, false⟩ := by
          intro k
          rw [baseAt, Store.pathOf, plain, cipher, List.map_fst_zip hlen.le,
            List.map_snd_zip hlen.ge, joinComponents_components, joinComponents_components]
        rw [hbase, Option.some.injEq, Option.some.injEq, Base.mk.injEq]
        constructor
        · rintro ⟨_, _, hk, hc, _⟩
          exact Prod.ext hk hc
        · rintro rfl
          exact ⟨rfl, rfl, rfl, rfl, rfl⟩
      · exact (keys_entry hs.wf hs.bypass).symm
    cases hT : keysOf prim (s.addWithCipher bucket' path out key c).2 bucket'
    rw [hT] at hroot hfun
    exact congrArg₂ Table.mk hroot hfun
  · refine keys_congr ht hs hsame.key fun p => ?_
    rw [hentry, if_neg fun hbp => hb hbp.1]

/-- **After an override.** -/
lemma Shape.override (hc : c ≠ .nullBase64Url) (h : Shape prim c g groups s) {keyPrefix : String}
    (hcall : g.overrideEncryptionKey prim order bucket keyPrefix key = .ok g') :
    ∃ s' p, Shape prim c g' groups s' ∧
      Overrides prim s s' bucket (utf8 (stripSlash keyPrefix)) (key, c) p := by
  have hplace : g.overrideInPlace prim order bucket keyPrefix key = (.ok (), g') := by
    rw [Grant.overrideInPlace_eq, hcall]
  obtain ⟨store, encPath, hstore, hpath, hadd, rfl⟩ := Grant.overrideInPlace_ok hplace
  obtain rfl : s = store := by
    rw [h.store, Except.ok.injEq] at hstore
    exact hstore
  rw [encryptPath] at hpath
  rw [Store.add, h.defaultPathCipher] at hadd
  obtain ⟨hsealed, _⟩ := sealedAs_of_encrypt h.uniform hc hpath
  have hkeys := @keys_add prim c s bucket key h.uniform _ _ hadd
  have hsame : SameDefaults s (s.addWithCipher bucket (utf8 (stripSlash keyPrefix)) encPath key c).2 :=
    .add h.uniform.wf hadd
  have henc : (g.setEncAccess (encFromStore order
      (s.add bucket (utf8 (stripSlash keyPrefix)) encPath key).2)).encAccess = encFromStore order
        (s.addWithCipher bucket (utf8 (stripSlash keyPrefix)) encPath key c).2 := by
    rw [Store.add, h.defaultPathCipher]
    rfl
  obtain ⟨s', hshape, _, hs'⟩ := Shape.of_store (h.uniform.add hadd) (hsame.cipher.trans h.defaultPathCipher)
    henc h.groups_eq
  refine ⟨s', _, hshape, hsealed, ?_, ?_, fun b hb => ?_⟩
  · rintro q hq
    exact ((Store.addWithCipher_ok_iff h.uniform.wf).mp hadd).2 q (Table.has_map.mp hq)
  · rw [hs', hkeys, if_pos rfl]
  · rw [hs', hkeys, if_neg hb]

/-! ## A restriction

The caveat that is added has the sealed prefixes, and the new group is what they are by components.
-/

/-- The group that a list of paths makes of a caveat. -/
def asGroup (paths : List CaveatPath) : List (List CaveatPath) := [paths].filter (· ≠ [])

/-- The groups of a key with one more caveat. -/
lemma pathGroups_restrict (hprim : prim.Lawful) {apiKey : ApiKey} {caveat : Caveat}
    {gs : List (List CaveatPath)} (h : pathGroups prim (apiKey.restrict prim caveat) = .ok gs) :
    ∃ old, pathGroups prim apiKey = .ok old ∧ gs = old ++ asGroup caveat.allowedPaths := by
  obtain ⟨read, hread, hpaths⟩ := Caveat.decode_encode hprim caveat
  rw [pathGroups, Fallible.bind_eq_ok] at h
  obtain ⟨cavs, hcavs, h⟩ := h
  have hlist : (apiKey.restrict prim caveat).mac.caveats =
      apiKey.mac.caveats ++ [caveat.encode prim] := rfl
  rw [hlist, List.mapM_append, Fallible.bind_eq_ok] at hcavs
  obtain ⟨old, hold, hcavs⟩ := hcavs
  rw [List.mapM_cons, hread] at hcavs
  cases hcavs
  cases h
  refine ⟨(old.map Caveat.allowedPaths).filter (· ≠ []), ?_, ?_⟩
  · rw [pathGroups, hold]
    rfl
  · rw [List.map_append, List.filter_append, asGroup, List.reverse_nil, List.map_singleton, hpaths]

/-- **What a restriction asks for and what it leaves.** -/
structure Restricts (prim : AccessPrimitives) (order : HashOrder) (g : Grant) (s : Store)
    (groups : List (List CaveatPath)) (prefixes : List SharePrefix) (paths : List CaveatPath)
    (r : Grant) : Prop where
  paths_eq : prefixes.mapM (sharePath prim s) = .ok paths
  satelliteAddr : r.satelliteAddr = g.satelliteAddr
  original : r.original = none
  groups_eq : ∀ mac gs, Macaroon.parse r.apiKey = .ok mac → pathGroups prim ⟨mac⟩ = .ok gs →
    gs = groups ++ asGroup paths
  whole : groups ++ asGroup paths = [] → r.encAccess = g.encAccess
  limited : groups ++ asGroup paths ≠ [] → ∃ store,
    g.encAccess.storeEntries.foldlM (keepEntry (allowedPrefixes (groups ++ asGroup paths)))
      ((allowedPrefixes (groups ++ asGroup paths)).foldl (addPrefix prim s)
        (Store.new.setDefaultPathCipher s.defaultPathCipher)) = .ok store ∧
      r.encAccess = encFromStore order store
  old : ∃ mac, Macaroon.parse g.apiKey = .ok mac ∧ pathGroups prim ⟨mac⟩ = .ok groups
  key : ∃ mac, r.apiKey = mac.serialize ∧ pathGroups prim ⟨mac⟩ = .ok (groups ++ asGroup paths)

lemma Shape.restricts (hprim : prim.Lawful) (h : Shape prim c g groups s)
    {random : Except String (Vector UInt8 4)} {permission : Permission}
    {prefixes : List SharePrefix}
    (hcall : g.restrict prim order random permission prefixes = .ok r) :
    ∃ paths, Restricts prim order g s groups prefixes paths r := by
  obtain ⟨caveat, mac, encAccess, hcaveat, hmac, hlimit, rfl⟩ := Grant.restrict_eq_ok.mp hcall
  rw [Grant.restrictCaveat] at hcaveat
  simp only [Fallible.bind_eq_ok] at hcaveat
  obtain ⟨_, _, store, hstore, nonce, _, paths, hpaths, hcaveat⟩ := hcaveat
  rw [h.store, Except.ok.injEq] at hstore
  subst hstore
  cases hcaveat
  obtain ⟨gs, hgs, hlimit⟩ := limitTo_eq_ok.mp hlimit
  obtain ⟨old, hold, rfl⟩ := pathGroups_restrict hprim hgs
  obtain rfl := h.groups_eq mac old hmac hold
  refine ⟨paths, hpaths, rfl, rfl, ?_, ?_, ?_, ⟨mac, hmac, hold⟩, _, rfl, hgs⟩
  · intro mac' gs' hmac' hgs'
    have hread := ApiKey.eq_of_parseRaw_serializeRaw (ApiKey.parseRaw_eq_ok.mpr hmac' :
      ApiKey.parseRaw _ = .ok ⟨mac'⟩)
    rw [hread, hgs, Except.ok.injEq] at hgs'
    exact hgs'.symm
  · intro hnil
    rcases hlimit with ⟨_, rfl⟩ | ⟨hne, _⟩
    · rfl
    · exact absurd hnil hne
  · intro hne
    rcases hlimit with ⟨hnil, _⟩ | ⟨_, src, store, hsrc, hloops, rfl⟩
    · exact absurd hnil hne
    · rw [h.store, Except.ok.injEq] at hsrc
      subst hsrc
      exact ⟨store, hloops, rfl⟩

/-- **After a restriction**, where the prefixes open to paths: the tables are as they were, if there
is no group, and else limited. -/
lemma Restricts.shape (h : Shape prim c g groups s) {prefixes : List SharePrefix}
    {paths : List CaveatPath} (hr : Restricts prim order g s groups prefixes paths r)
    (hpaths : ∀ bucket, ∀ y ∈ retained Begins (bucketGroups (groups ++ asGroup paths) bucket),
      ∀ x, (keysOf prim s bucket).Dec (sysOf prim) y x → IsPath x) :
    ∃ s', Shape prim c r (groups ++ asGroup paths) s' ∧
      (groups ++ asGroup paths = [] ∧ s' = s ∨ groups ++ asGroup paths ≠ [] ∧
        ∀ bucket, Limit (sysOf prim) Begins (keysOf prim s bucket)
          (bucketGroups (groups ++ asGroup paths) bucket) (keysOf prim s' bucket)) := by
  by_cases hne : groups ++ asGroup paths = []
  · have henc := hr.whole hne
    refine ⟨s, ⟨hr.groups_eq, ?_, h.uniform, ?_, ?_⟩, Or.inl ⟨hne, rfl⟩⟩
    · rw [henc]
      exact h.store
    · rw [henc]
      exact h.cipher
    · rw [henc]
      exact h.walk
  · obtain ⟨store, hloops, henc⟩ := hr.limited hne
    obtain ⟨huniform, _, hcipher, hlimit⟩ := limit_of_loops h.uniform hne h.store hpaths hloops
    obtain ⟨s', hshape, _, hkeys⟩ := Shape.of_store huniform (hcipher.trans h.defaultPathCipher)
      henc hr.groups_eq
    refine ⟨s', hshape, Or.inr ⟨hne, fun bucket => ?_⟩⟩
    rw [hkeys]
    exact hlimit bucket

lemma bucketGroups_append (groups groups' : List (List CaveatPath)) (bucket : String) :
    bucketGroups (groups ++ groups') bucket =
      bucketGroups groups bucket ++ bucketGroups groups' bucket := List.map_append

/-- A restriction to prefixes adds a group. -/
lemma Restricts.asGroup_eq {prefixes : List SharePrefix} {paths : List CaveatPath}
    (hr : Restricts prim order g s groups prefixes paths r) (hne : prefixes ≠ []) :
    asGroup paths = [paths] := by
  obtain ⟨share, hshare⟩ := List.exists_mem_of_ne_nil prefixes hne
  obtain ⟨path, hpath⟩ := Fallible.isOk_of_mapM hr.paths_eq hshare
  have hmem := Fallible.mem_of_mapM hr.paths_eq hshare hpath
  rw [asGroup, List.filter_cons_of_pos (by simpa using List.ne_nil_of_mem hmem), List.filter_nil]

/-- What a share prefix asks for is sealed. -/
lemma sharePath_spec (hs : Uniform c s) (hc : c ≠ .nullBase64Url) {share : SharePrefix}
    {path : CaveatPath} (h : sharePath prim s share = .ok path) :
    path.bucket = utf8 share.bucket ∧ ∃ p, components path.encryptedPathPrefix = cipher p ∧
      SealedAs prim s share.bucket (utf8 (stripSlash share.keyPrefix)) p := by
  rw [sharePath] at h
  split at h
  · cases h
  · rename_i encPath henc
    cases h
    obtain ⟨hp, hcipher⟩ := sealedAs_of_encrypt hs hc henc
    exact ⟨rfl, _, hcipher.symm, hp⟩

/-- The paths of the new group in a bucket are those that were asked for. -/
lemma Restricts.exists_share {prefixes : List SharePrefix} {paths : List CaveatPath}
    (hs : Uniform c s) (hc : c ≠ .nullBase64Url)
    (hr : Restricts prim order g s groups prefixes paths r) {path : CaveatPath}
    (hpath : path ∈ paths) :
    ∃ share ∈ prefixes, ∃ p, path.bucket = utf8 share.bucket ∧
      components path.encryptedPathPrefix = cipher p ∧
      SealedAs prim s share.bucket (utf8 (stripSlash share.keyPrefix)) p := by
  obtain ⟨share, hshare, hsealed⟩ := Fallible.exists_of_mem_mapM hr.paths_eq hpath
  obtain ⟨hbucket, p, hcipher, hp⟩ := sharePath_spec hs hc hsealed
  exact ⟨share, hshare, p, hbucket, hcipher, hp⟩

end Storj.Access
