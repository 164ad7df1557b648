import StorjUplink.Access.Caveat
import StorjUplink.Enc.Walk

/-!
# Limiting an encryption access

The lower half of `restrict.rs`: an encryption access as a store and back, the path caveats of an
API key collapsed into prefixes, and `limit_to`, which keeps what every path caveat allows.

The first pass of `limit_to` adds a key for each collapsed prefix and skips what cannot be opened or
added; the second keeps the explicit entries below the prefixes.  Both passes only ever add entries
that every path caveat allows (`limitTo_confined`).

Two orders enter `limit_to`.  The prefixes come from the caveats in the order of the key, and a
prefix whose plaintext disagrees with one added before is skipped, silently.  The entries come from
a walk of the store and may replace what a prefix put in.  Neither can put in anything that some
caveat does not allow, whatever the order, and this is all that is shown here; which prefixes get
through is a question for `Table`.

Opening a prefix uses the source store, so a prefix that some other cipher sealed, or none, usually
does not open, and then nothing is added for it.
-/

namespace Storj.Access

open Storj.Enc KeyTree

/-! ## The data

An access as the grant holds it, between the message and the store.
-/

/-- `EncryptionParameters`. -/
structure EncryptionParameters where
  cipherSuite : CipherSuite
  blockSize : ℤ
deriving DecidableEq, Repr

/-- `StoreEntry`: one mapping of the encryption store, with both paths of a prefix, the key for what
is below it and the cipher of the paths there. -/
structure StoreEntry where
  bucket : Bytes
  unencryptedPath : Bytes
  encryptedPath : Bytes
  key : Key
  pathCipher : CipherSuite
  encryptionParameters : Option EncryptionParameters
deriving DecidableEq, Repr

/-- `EncryptionAccess`. -/
structure EncryptionAccess where
  defaultKey : Option Key
  defaultPathCipher : CipherSuite
  storeEntries : List StoreEntry
  defaultEncryptionParameters : Option EncryptionParameters
deriving DecidableEq, Repr

/-- `std::str::from_utf8`. -/
def fromUtf8 (bytes : Bytes) : Option String := String.fromUTF8? ⟨bytes.toArray⟩

lemma fromUtf8_eq_some {bytes : Bytes} {s : String} :
    fromUtf8 bytes = some s ↔ utf8 s = bytes := by
  rw [fromUtf8, String.fromUTF8?]
  constructor
  · intro h
    split_ifs at h with hvalid
    cases h
    simp [utf8, String.fromUTF8]
  · rintro rfl
    have harray : (⟨(utf8 s).toArray⟩ : ByteArray) = s.toByteArray := by
      simp [utf8]
    rw [harray, dif_pos s.isValidUTF8]
    rfl

@[simp] lemma fromUtf8_utf8 (s : String) : fromUtf8 (utf8 s) = some s := fromUtf8_eq_some.mpr rfl

lemma utf8_injective : Function.Injective utf8 := by
  intro s t h
  have := fromUtf8_utf8 s
  rw [h, fromUtf8_utf8, Option.some.injEq] at this
  exact this.symm

lemma utf8_append (s t : String) : utf8 (s ++ t) = utf8 s ++ utf8 t := by
  simp [utf8]

lemma utf8_eq_nil {s : String} : utf8 s = [] ↔ s = "" := by
  constructor
  · intro h
    exact utf8_injective h
  · rintro rfl
    rfl

/-! ## Stores

The store is built entry by entry with the default key set first.  Its errors become errors of the
access crate, with a prefix to their text.
-/

/-- `Display` of the encryption crate's error kinds. -/
def kindText : ErrorKind → String
  | .missingEncryptionBase => "missing encryption base"
  | .missingDecryptionBase => "missing decryption base"
  | .decryptionFailed => "decryption failed, check encryption key"
  | .invalidConfig => "invalid encryption configuration"
  | .conflict => "conflicting encrypted parts for unencrypted path"
  | .protocol => "encryption"
  | .panicked => ""

/-- `map_enc`. -/
def mapEnc (err : Enc.Error) : Error := ⟨kindText err.kind ++ ": " ++ err.message⟩

/-- The loop body of `store_from_enc`: one entry is added to the store. -/
def addEntry (store : Store) (entry : StoreEntry) : Except Error Store :=
  match fromUtf8 entry.bucket with
  | none => .error ⟨"encryption access entry bucket is not utf-8"⟩
  | some bucket =>
      match store.addWithCipher bucket entry.unencryptedPath entry.encryptedPath entry.key
          entry.pathCipher with
      | (.error err, _) => .error (mapEnc err)
      | (.ok (), store) => .ok store

/-- The store with the default key and cipher alone. -/
def EncryptionAccess.defaults (enc : EncryptionAccess) : Store :=
  let store := match enc.defaultKey with
    | some key => Store.new.setDefaultKey key
    | none => Store.new
  store.setDefaultPathCipher enc.defaultPathCipher

/-- `store_from_enc`: the entries are added one by one to a store with the defaults, and the first
that fails ends it. -/
def storeFromEnc (enc : EncryptionAccess) : Except Error Store :=
  enc.storeEntries.foldlM addEntry enc.defaults

/-- The entry that `enc_from_store` makes of a base. -/
def entryOf (x : String × Base) : StoreEntry :=
  ⟨utf8 x.1, x.2.unencrypted, x.2.encrypted, x.2.key, x.2.pathCipher, none⟩

/-- `enc_from_store`: the entries in the order in which the hash maps of the store are walked. -/
def encFromStore (order : HashOrder) (store : Store) : EncryptionAccess where
  defaultKey := store.defaultKey
  defaultPathCipher := store.defaultPathCipher
  storeEntries := (store.iterate order).map entryOf
  defaultEncryptionParameters := none

/-! ## Path caveats

A path is allowed if every group has a prefix of it.  Collapsing keeps the prefixes of the groups
that are themselves allowed, so a longer one survives under a shorter one of another group.
-/

/-- A path caveat allows a path: the bucket is the same and the bytes begin with the prefix. -/
def CaveatPath.Allows (p : CaveatPath) (bucket path : Bytes) : Prop :=
  bucket = p.bucket ∧ p.encryptedPathPrefix <+: path

instance (p : CaveatPath) (bucket path : Bytes) : Decidable (p.Allows bucket path) :=
  inferInstanceAs (Decidable (_ ∧ _))

/-- Every group has a path that allows this one. -/
def AllowedBy (groups : List (List CaveatPath)) (bucket path : Bytes) : Prop :=
  ∀ group ∈ groups, ∃ other ∈ group, other.Allows bucket path

instance (groups : List (List CaveatPath)) (bucket path : Bytes) :
    Decidable (AllowedBy groups bucket path) :=
  inferInstanceAs (Decidable (∀ group ∈ groups, ∃ other ∈ group, other.Allows bucket path))

variable (prim : AccessPrimitives)

/-- The allowed paths of the caveats that have some, caveat by caveat. -/
def pathGroups (apiKey : ApiKey) : Except Error (List (List CaveatPath)) := do
  let cavs ← apiKey.mac.caveats.mapM (Caveat.decode prim)
  .ok ((cavs.map Caveat.allowedPaths).filter (· ≠ []))

/-- The paths of the groups that every group allows. -/
def allowedPrefixes (groups : List (List CaveatPath)) : List CaveatPath :=
  groups.flatten.filter fun cav => AllowedBy groups cav.bucket cav.encryptedPathPrefix

/-- `collapse_prefixes`. -/
def collapsePrefixes (apiKey : ApiKey) : Except Error (List CaveatPath × Bool) := do
  let groups ← pathGroups prim apiKey
  if groups = [] ∨ groups.flatten = [] then .ok ([], false)
  else .ok (allowedPrefixes groups, true)

/-! ## `limit_to`

Without a path caveat the access stays as it is.  Else the store is made anew: no default key, then
the prefixes, then the entries.
-/

/-- The first loop of `limit_to`: a key for a prefix, unless it cannot be opened or added. -/
def addPrefix (src store : Store) (path : CaveatPath) : Store :=
  match fromUtf8 path.bucket with
  | none => store
  | some bucket =>
      let encPath := path.encryptedPathPrefix
      match decryptPath prim.toPathPrimitives bucket encPath src with
      | .error _ => store
      | .ok unenc =>
          match derivePathKey prim.toPathPrimitives bucket unenc src with
          | .error _ => store
          | .ok key =>
              match (src.lookupEncrypted bucket encPath).base with
              | none => store
              | some base => (store.addWithCipher bucket unenc encPath key base.pathCipher).2

/-- The second loop of `limit_to`: an explicit entry below a prefix is kept. -/
def keepEntry (prefixes : List CaveatPath) (store : Store) (entry : StoreEntry) :
    Except Error Store :=
  if ∃ path ∈ prefixes, path.Allows entry.bucket entry.encryptedPath then addEntry store entry
  else .ok store

/-- `limit_to`: without a path caveat the access as it is.  Else a new store without default key,
filled with the prefixes that every caveat allows and with the entries below them. -/
def limitTo (order : HashOrder) (enc : EncryptionAccess) (apiKey : ApiKey) :
    Except Error EncryptionAccess := do
  let (prefixes, restricted) ← collapsePrefixes prim apiKey
  if restricted = false then .ok enc
  else
    let src ← storeFromEnc enc
    let store := prefixes.foldl (addPrefix prim src)
      (Store.new.setDefaultPathCipher src.defaultPathCipher)
    let store ← enc.storeEntries.foldlM (keepEntry prefixes) store
    .ok (encFromStore order store)

/-! ## Inversion

The loops are taken apart turn by turn.
-/

variable {prim} {store store' src : Store} {entry : StoreEntry} {apiKey : ApiKey}
  {groups : List (List CaveatPath)} {prefixes : List CaveatPath} {enc r : EncryptionAccess}
  {order : HashOrder}

/-- An entry is added. -/
lemma addEntry_eq_ok : addEntry store entry = .ok store' ↔ ∃ bucket, utf8 bucket = entry.bucket ∧
    (store.addWithCipher bucket entry.unencryptedPath entry.encryptedPath entry.key
      entry.pathCipher).1 = .ok () ∧
    store' = (store.addWithCipher bucket entry.unencryptedPath entry.encryptedPath entry.key
      entry.pathCipher).2 := by
  rw [addEntry]
  constructor
  · intro h
    split at h
    · cases h
    · rename_i bucket hbucket
      split at h
      · cases h
      · rename_i hadd
        cases h
        exact ⟨bucket, fromUtf8_eq_some.mp hbucket, by rw [hadd], by rw [hadd]⟩
  · rintro ⟨bucket, hbucket, hadd, rfl⟩
    rw [fromUtf8_eq_some.mpr hbucket]
    rcases h : store.addWithCipher bucket entry.unencryptedPath entry.encryptedPath entry.key
      entry.pathCipher with ⟨res, after⟩
    rw [h] at hadd
    cases hadd
    simp only [h]

/-- **What the first loop does with a prefix**: nothing, or it adds the prefix with the plaintext
that the source store opens it to and the key it has for that. -/
lemma addPrefix_cases (src store : Store) (path : CaveatPath) :
    addPrefix prim src store path = store ∨ ∃ bucket unenc key base,
      utf8 bucket = path.bucket ∧
      decryptPath prim.toPathPrimitives bucket path.encryptedPathPrefix src = .ok unenc ∧
      derivePathKey prim.toPathPrimitives bucket unenc src = .ok key ∧
      (src.lookupEncrypted bucket path.encryptedPathPrefix).base = some base ∧
      (store.addWithCipher bucket unenc path.encryptedPathPrefix key base.pathCipher).1 = .ok () ∧
      addPrefix prim src store path =
        (store.addWithCipher bucket unenc path.encryptedPathPrefix key base.pathCipher).2 := by
  rw [addPrefix]
  split
  · exact Or.inl rfl
  · rename_i bucket hbucket
    dsimp only
    split
    · exact Or.inl rfl
    · rename_i unenc hunenc
      split
      · exact Or.inl rfl
      · rename_i key hkey
        split
        · exact Or.inl rfl
        · rename_i base hbase
          cases hadd : (store.addWithCipher bucket unenc path.encryptedPathPrefix key
              base.pathCipher).1 with
          | error err => exact Or.inl (Store.addWithCipher_error hadd)
          | ok _ =>
              exact Or.inr ⟨bucket, unenc, key, base, fromUtf8_eq_some.mp hbucket, hunenc, hkey,
                hbase, hadd, rfl⟩

/-- A key with a path caveat is restricted. -/
lemma collapsePrefixes_eq_ok {c : List CaveatPath × Bool} :
    collapsePrefixes prim apiKey = .ok c ↔ ∃ groups, pathGroups prim apiKey = .ok groups ∧
      c = if groups = [] then ([], false) else (allowedPrefixes groups, true) := by
  rw [collapsePrefixes, Fallible.bind_eq_ok]
  refine exists_congr fun groups => and_congr_right fun h => ?_
  have hflat : groups.flatten = [] → groups = [] := by
    intro hflat
    rw [pathGroups, Fallible.bind_eq_ok] at h
    obtain ⟨cavs, _, hcavs⟩ := h
    cases hcavs
    rw [List.flatten_eq_nil_iff] at hflat
    by_contra hne
    obtain ⟨g, hg⟩ := List.exists_mem_of_ne_nil _ hne
    have hg' := (List.mem_filter.mp hg).2
    exact absurd (hflat g hg) (by simpa using hg')
  by_cases hg : groups = []
  · simp [hg, eq_comm]
  · rw [if_neg (not_or.mpr ⟨hg, fun h => hg (hflat h)⟩), if_neg hg, Except.ok.injEq, eq_comm]

/-- **A limited access**: without path caveats it is as it was, else it is what the two loops
make. -/
lemma limitTo_eq_ok : limitTo prim order enc apiKey = .ok r ↔
    ∃ groups, pathGroups prim apiKey = .ok groups ∧
      ((groups = [] ∧ r = enc) ∨ groups ≠ [] ∧ ∃ src store, storeFromEnc enc = .ok src ∧
        enc.storeEntries.foldlM (keepEntry (allowedPrefixes groups))
          ((allowedPrefixes groups).foldl (addPrefix prim src)
            (Store.new.setDefaultPathCipher src.defaultPathCipher)) = .ok store ∧
        r = encFromStore order store) := by
  rw [limitTo, Fallible.bind_eq_ok]
  constructor
  · rintro ⟨c, hc, h⟩
    obtain ⟨groups, hgroups, rfl⟩ := collapsePrefixes_eq_ok.mp hc
    refine ⟨groups, hgroups, ?_⟩
    by_cases hg : groups = []
    · rw [if_pos hg] at h
      cases h
      exact Or.inl ⟨hg, rfl⟩
    · rw [if_neg hg] at h
      simp only [Bool.true_eq_false, if_false, Fallible.bind_eq_ok] at h
      obtain ⟨src, hsrc, store, hstore, h⟩ := h
      cases h
      exact Or.inr ⟨hg, src, store, hsrc, hstore, rfl⟩
  · rintro ⟨groups, hgroups, h⟩
    refine ⟨_, collapsePrefixes_eq_ok.mpr ⟨groups, hgroups, rfl⟩, ?_⟩
    rcases h with ⟨hg, rfl⟩ | ⟨hg, src, store, hsrc, hstore, rfl⟩
    · rw [if_pos hg]
      rfl
    · rw [if_neg hg]
      simp only [Bool.true_eq_false, if_false, Fallible.bind_eq_ok]
      exact ⟨src, hsrc, store, hstore, rfl⟩

/-! ## Confinement

The invariant of the two loops is confinement itself, for the store that is being made.
-/

/-- **Confined**: with a path caveat there is no default key, and every entry is one that every path
caveat allows. -/
def Confined (prim : AccessPrimitives) (apiKey : ApiKey) (enc : EncryptionAccess) : Prop :=
  ∀ data ∈ apiKey.mac.caveats, ∀ cav, Caveat.decode prim data = .ok cav → cav.allowedPaths ≠ [] →
    enc.defaultKey = none ∧ ∀ entry ∈ enc.storeEntries, ∃ path ∈ cav.allowedPaths,
      path.bucket = entry.bucket ∧ path.encryptedPathPrefix <+: entry.encryptedPath

lemma AllowedBy.trans {path : CaveatPath} {bucket bytes : Bytes}
    (h : AllowedBy groups path.bucket path.encryptedPathPrefix) (hp : path.Allows bucket bytes) :
    AllowedBy groups bucket bytes := by
  intro group hgroup
  obtain ⟨other, hother, hbucket, hle⟩ := h group hgroup
  exact ⟨other, hother, hp.1.trans hbucket, hle.trans hp.2⟩

lemma mem_allowedPrefixes {path : CaveatPath} : path ∈ allowedPrefixes groups ↔
    (∃ group ∈ groups, path ∈ group) ∧
      AllowedBy groups path.bucket path.encryptedPathPrefix := by
  rw [allowedPrefixes, List.mem_filter, List.mem_flatten]
  simp

/-- **What holds of the store while it is being limited.** -/
structure Limiting (groups : List (List CaveatPath)) (store : Store) : Prop where
  wf : store.WF
  defaultKey : store.defaultKey = none
  allowed : ∀ bucket p base, store.entry bucket p = some base →
    AllowedBy groups (utf8 bucket) base.encrypted

lemma Limiting.start (cipher : CipherSuite) :
    Limiting groups (Store.new.setDefaultPathCipher cipher) :=
  ⟨Store.wf_of_roots rfl, rfl, nofun⟩

lemma Limiting.add (h : Limiting groups store) {bucket : String} {unenc path : Bytes} {key : Key}
    {cipher : CipherSuite} (hpath : AllowedBy groups (utf8 bucket) path)
    (hadd : (store.addWithCipher bucket unenc path key cipher).1 = .ok ()) :
    Limiting groups (store.addWithCipher bucket unenc path key cipher).2 where
  wf := Store.wf_addWithCipher h.wf hadd
  defaultKey := by
    rw [Store.addWithCipher_snd hadd]
    exact h.defaultKey
  allowed bucket' p base hbase := by
    rw [Store.entry_addWithCipher h.wf hadd] at hbase
    split_ifs at hbase with hp
    · cases hbase
      rw [hp.1]
      exact hpath
    · exact h.allowed bucket' p base hbase

lemma Limiting.addPrefix (h : Limiting groups store) {path : CaveatPath}
    (hpath : path ∈ allowedPrefixes groups) : Limiting groups (addPrefix prim src store path) := by
  rcases addPrefix_cases src store path with heq | ⟨bucket, unenc, key, base, hb, _, _, _, hadd, heq⟩
  · rw [heq]
    exact h
  · rw [heq]
    refine h.add ?_ hadd
    rw [hb]
    exact (mem_allowedPrefixes.mp hpath).2

lemma Limiting.foldl (h : Limiting groups store) {l : List CaveatPath}
    (hl : ∀ path ∈ l, path ∈ allowedPrefixes groups) :
    Limiting groups (l.foldl (Access.addPrefix prim src) store) := by
  induction l generalizing store with
  | nil => exact h
  | cons path l ih =>
      exact ih (h.addPrefix (hl path List.mem_cons_self))
        fun path hpath => hl path (List.mem_cons_of_mem _ hpath)

lemma Limiting.keepEntry (h : Limiting groups store)
    (hkeep : keepEntry (allowedPrefixes groups) store entry = .ok store') :
    Limiting groups store' := by
  rw [Access.keepEntry] at hkeep
  split_ifs at hkeep with hany
  · obtain ⟨path, hpath, hallows⟩ := hany
    obtain ⟨bucket, hbucket, hadd, rfl⟩ := addEntry_eq_ok.mp hkeep
    refine h.add ?_ hadd
    rw [hbucket]
    exact (mem_allowedPrefixes.mp hpath).2.trans hallows
  · cases hkeep
    exact h

/-- The store that the loops of `limit_to` leave. -/
lemma limiting_loops (hstore : enc.storeEntries.foldlM (keepEntry (allowedPrefixes groups))
    ((allowedPrefixes groups).foldl (addPrefix prim src)
      (Store.new.setDefaultPathCipher src.defaultPathCipher)) = .ok store) :
    Limiting groups store :=
  Fallible.foldlM_induction (fun _ _ _ _ h hstep => h.keepEntry hstep)
    ((Limiting.start src.defaultPathCipher).foldl fun _ h => h) hstore

/-- **The limited access is confined** to what its key's path caveats allow. -/
lemma limitTo_confined (h : limitTo prim order enc apiKey = .ok r) : Confined prim apiKey r := by
  obtain ⟨groups, hgroups, h⟩ := limitTo_eq_ok.mp h
  intro data hdata cav hcav hne
  -- the caveat is one of the groups
  have hmem : cav.allowedPaths ∈ groups := by
    rw [pathGroups, Fallible.bind_eq_ok] at hgroups
    obtain ⟨cavs, hcavs, hfilter⟩ := hgroups
    cases hfilter
    refine List.mem_filter.mpr ⟨List.mem_map.mpr ⟨cav, ?_, rfl⟩, by simpa using hne⟩
    exact Fallible.mem_of_mapM hcavs hdata hcav
  rcases h with ⟨hg, _⟩ | ⟨_, src, store, _, hstore, rfl⟩
  · rw [hg] at hmem
    cases hmem
  · have hlim := limiting_loops hstore
    refine ⟨hlim.defaultKey, fun entry hentry => ?_⟩
    obtain ⟨⟨bucket, base⟩, hx, rfl⟩ := List.mem_map.mp hentry
    obtain ⟨p, hp⟩ := (Store.mem_iterate hlim.wf).mp hx
    obtain ⟨path, hpath, hbucket, hle⟩ := hlim.allowed bucket p base hp _ hmem
    exact ⟨path, hpath, hbucket.symm, hle⟩

end Storj.Access
