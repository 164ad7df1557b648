import StorjUplink.Enc.Store

/-!
# Paths through the store

The upper half of `path.rs`: a path is looked up in the store, the components below the base that is
found are sealed one by one, each under the key derived from the one before, and joined behind the
base's own ciphertext.

`Store.keys` is the table of keys that a store has for a bucket.  Sealing, opening and deriving are
then what `KeyTree` says of that table (`encryptPathBytes_eq_ok`, `decryptPathBytes_eq_ok`,
`derivePathKey_eq_ok`), and a path that is sealed opens again (`decryptPath_encryptPath`).

The store decides where the derivation of a path starts, and everything behind that is the same for
all stores.  The lemmas follow that division.  `lookup_of_start` says that the lookup of the code
finds the start that the table names; the `_of_start` lemmas run the three operations from a given
start; and `acts_congr_of_start` puts the two together for a pair of stores, which is how every
later comparison of grants is made.

Opening needs more than sealing.  A lookup by ciphertext could find an entry that the plaintext
path is not below, if the sealed component of one name were that of another.  `Store.NoCollision`
excludes this for the path in question, and only there; for an ideal cipher it follows from what
was sealed.
-/

namespace Storj.Enc

open KeyTree

variable (prim : PathPrimitives)

/-! ## The operations

The two iterators of the source are functions on the list of components that the path iterator
yields.  A base brings its own plaintext and ciphertext path; what remains of the path is sealed
behind it.
-/

/-- The components that `encrypt_iterator` seals: each under the current key, which is then derived
with the plaintext of the component for the next one. -/
def encryptComponents : List Bytes → CipherSuite → Key → Except Error (List Bytes)
  | [], _, _ => .ok []
  | component :: iter, cipher, key => do
      let enc ← encryptPathComponent prim component cipher key
      let parts ← encryptComponents iter cipher (derivePathComponent prim key component)
      .ok (enc :: parts)

/-- `encrypt_iterator`. -/
def encryptIterator (iter : List Bytes) (cipher : CipherSuite) (key : Key) :
    Except Error Bytes := do
  let parts ← encryptComponents prim iter cipher key
  .ok (joinComponents parts)

/-- The components that `decrypt_iterator` opens.  The key goes on with the plaintext that was
opened, so one wrong component spoils all that follow. -/
def decryptComponents : List Bytes → CipherSuite → Key → Except Error (List Bytes)
  | [], _, _ => .ok []
  | component :: iter, cipher, key => do
      let unenc ← decryptPathComponent prim component cipher key
      let parts ← decryptComponents iter cipher (derivePathComponent prim key unenc)
      .ok (unenc :: parts)

/-- `decrypt_iterator`. -/
def decryptIterator (iter : List Bytes) (cipher : CipherSuite) (key : Key) :
    Except Error Bytes := do
  let parts ← decryptComponents prim iter cipher key
  .ok (joinComponents parts)

/-- The key that a base starts with: the default key folds the bucket in. -/
def baseKey (bucket : String) (base : Base) : Key :=
  if base.default then derivePathComponent prim base.key (utf8 bucket) else base.key

/-- `missing_encryption_base` and `missing_decryption_base`, which differ in their kind alone. -/
def missingBase (kind : ErrorKind) (bucket : String) (path : Bytes) : Error :=
  ⟨kind, prim.debugText (utf8 bucket) ++ "/" ++ prim.debugText path⟩

/-- The base's own path, unless it is empty, and what was made of the rest of the path, if any. -/
def joinParts (basePath : Bytes) (remaining : List Bytes) (rest : Bytes) : Bytes :=
  joinComponents ((if basePath = [] then [] else [basePath]) ++
    if remaining = [] then [] else [rest])

/-- `encrypt_path_bytes`: the deepest base above the path, by its plaintext, and what remains of the
path sealed behind the base's ciphertext.  The empty path stays empty. -/
def encryptPathBytes (bucket : String) (path : Bytes) (pathCipher : Option CipherSuite)
    (store : Store) : Except Error Bytes :=
  if path = [] then .ok []
  else
    let lookup := store.lookupUnencrypted bucket path
    match lookup.base with
    | none => .error (missingBase prim .missingEncryptionBase bucket path)
    | some base => do
        let encrypted ← encryptIterator prim lookup.remaining (pathCipher.getD base.pathCipher)
          (baseKey prim bucket base)
        .ok (joinParts base.encrypted lookup.remaining encrypted)

/-- `decrypt_path_bytes`: the same by the ciphertext, and what remains is opened behind the base's
plaintext. -/
def decryptPathBytes (bucket : String) (path : Bytes) (pathCipher : Option CipherSuite)
    (store : Store) : Except Error Bytes :=
  if path = [] then .ok []
  else
    let lookup := store.lookupEncrypted bucket path
    match lookup.base with
    | none => .error (missingBase prim .missingDecryptionBase bucket path)
    | some base => do
        let decrypted ← decryptIterator prim lookup.remaining (pathCipher.getD base.pathCipher)
          (baseKey prim bucket base)
        .ok (joinParts base.unencrypted lookup.remaining decrypted)

/-- `encrypt_path`: the path under the cipher of the store, without one given by the caller. -/
def encryptPath (bucket path : String) (store : Store) : Except Error Bytes :=
  encryptPathBytes prim bucket (utf8 path) none store

/-- `decrypt_path`: the path under the cipher of the store, without one given by the caller. -/
def decryptPath (bucket : String) (path : Bytes) (store : Store) : Except Error Bytes :=
  decryptPathBytes prim bucket path none store

/-- `derive_path_key`: the key of the base folded with the components that remain.  For the empty
path that is the key of the base itself. -/
def derivePathKey (bucket : String) (path : Bytes) (store : Store) : Except Error Key :=
  let lookup := store.lookupUnencrypted bucket path
  match lookup.base with
  | none => .error (missingBase prim .missingEncryptionBase bucket path)
  | some base =>
      let key := baseKey prim bucket base
      if path = [] then .ok key
      else .ok (lookup.remaining.foldl (derivePathComponent prim) key)

/-- `derive_content_key`: derived from the key of the path, under the label of the content. -/
def deriveContentKey (bucket : String) (path : Bytes) (store : Store) : Except Error Key := do
  let pathKey ← derivePathKey prim bucket path store
  .ok (deriveKey prim pathKey "content")

/-! ## The table of keys

A base of the store is a key, a cipher and a place.  Seen from the paths below, it is an entry of a
table of keys, and the default base is the key of the root.  Deriving folds the component into the
key, so that the cipher stays the same all the way down.
-/

/-- How components are sealed under a key and a cipher. -/
def pathSystem : System Bytes Bytes (Key × CipherSuite) where
  encrypt k a := (encryptPathComponent prim a k.2 k.1).toOption
  decrypt k b := (decryptPathComponent prim b k.2 k.1).toOption
  derive k a := (derivePathComponent prim k.1 a, k.2)

/-- The key and the cipher that a base gives to the paths below it. -/
def Store.baseKeys (s : Store) (bucket : String) (base : Base) : Key × CipherSuite :=
  (baseKey prim bucket (s.applyBypass base), (s.applyBypass base).pathCipher)

/-- **The keys that a store has for a bucket.** -/
def Store.keys (s : Store) (bucket : String) : Table Bytes Bytes (Key × CipherSuite) :=
  (s.table bucket).map (s.baseKeys prim bucket)

variable {prim} {s : Store} {bucket : String} {path out : Bytes} {cs ds : List Bytes}
  {cipher : CipherSuite} {key : Key}

lemma toOption_eq_some {ε α : Type*} {x : Except ε α} {a : α} :
    x.toOption = some a ↔ x = .ok a := by
  cases x with
  | error e => simp [Except.toOption]
  | ok b => simp [Except.toOption]

lemma encryptComponents_eq_ok : encryptComponents prim cs cipher key = .ok ds ↔
    (pathSystem prim).encryptAll (key, cipher) cs = some ds := by
  induction cs generalizing key ds with
  | nil => simp [encryptComponents, System.encryptAll, eq_comm]
  | cons c cs ih =>
      rw [encryptComponents, System.encryptAll_cons]
      simp only [Fallible.bind_eq_ok, ih, pathSystem, toOption_eq_some, Except.ok.injEq]
      constructor
      · rintro ⟨e, he, es, hes, rfl⟩
        exact ⟨e, es, he, hes, rfl⟩
      · rintro ⟨e, es, he, hes, rfl⟩
        exact ⟨e, he, es, hes, rfl⟩

lemma decryptComponents_eq_ok : decryptComponents prim cs cipher key = .ok ds ↔
    (pathSystem prim).decryptAll (key, cipher) cs = some ds := by
  induction cs generalizing key ds with
  | nil => simp [decryptComponents, System.decryptAll, eq_comm]
  | cons c cs ih =>
      rw [decryptComponents, System.decryptAll_cons]
      simp only [Fallible.bind_eq_ok, ih, pathSystem, toOption_eq_some, Except.ok.injEq]
      constructor
      · rintro ⟨e, he, es, hes, rfl⟩
        exact ⟨e, es, he, hes, rfl⟩
      · rintro ⟨e, es, he, hes, rfl⟩
        exact ⟨e, he, es, hes, rfl⟩

/-- A derived key is for the same cipher. -/
lemma derive_snd (k : Key × CipherSuite) (a : Bytes) :
    ((pathSystem prim).derive k a).2 = k.2 := by
  simp only [pathSystem]

lemma keyAt_pathSystem : (pathSystem prim).keyAt (key, cipher) cs =
    (cs.foldl (derivePathComponent prim) key, cipher) := by
  induction cs generalizing key with
  | nil => rfl
  | cons c cs ih =>
      simp only [System.keyAt, pathSystem, List.foldl_cons] at ih ⊢
      exact ih

/-- The base's path and the rest, joined, are the components of both. -/
lemma joinParts_eq {rem : List Bytes} (hcs : IsPath cs) (hlen : ds.length = rem.length) :
    joinParts (joinComponents cs) rem (joinComponents ds) = joinComponents (cs ++ ds) := by
  have hrem : rem = [] ↔ ds = [] := by
    rw [← List.length_eq_zero_iff, ← hlen, List.length_eq_zero_iff]
  have hbase : joinComponents cs = [] ↔ cs = [] := by
    rw [joinComponents_eq_nil]
    exact ⟨fun h => h.elim id fun h => absurd h hcs.2, Or.inl⟩
  rw [joinParts]
  simp only [hrem, hbase]
  by_cases hc : cs = []
  · subst hc
    by_cases hd : ds = []
    · simp [hd, joinComponents]
    · simp [hd, joinComponents, List.intercalate]
  · by_cases hd : ds = []
    · simp [hc, hd, joinComponents, List.intercalate]
    · rw [joinComponents_append hc hd, if_neg hc, if_neg hd]
      simp [joinComponents, List.intercalate]

namespace Store

variable {p : Path Bytes Bytes} {base : Base} {k : Key × CipherSuite}

lemma applyBypass_unencrypted (s : Store) (base : Base) :
    (s.applyBypass base).unencrypted = base.unencrypted := by
  rw [applyBypass]
  split_ifs <;> rfl

lemma applyBypass_encrypted (s : Store) (base : Base) :
    (s.applyBypass base).encrypted = base.encrypted := by
  rw [applyBypass]
  split_ifs <;> rfl

/-- **A base that starts a path knows where it is**, the default one included. -/
lemma WF.start_placed (hs : s.WF) {unenc : Bool} {x : List Bytes}
    (h : (s.table bucket).Start (Node.side unenc) x p base) :
    IsPath (plain p) ∧ base.unencrypted = joinComponents (plain p) ∧
      IsPath (KeyTree.cipher p) ∧ base.encrypted = joinComponents (KeyTree.cipher p) := by
  cases h with
  | entry hp _ _ =>
      obtain ⟨hu, he, _⟩ := hs.placed bucket p base hp
      rw [hu, he, joinComponents_components, joinComponents_components]
      exact ⟨isPath_components _, rfl, isPath_components _, rfl⟩
  | root hroot _ =>
      obtain ⟨key, _, rfl⟩ := Option.map_eq_some_iff.mp hroot
      exact ⟨isPath_components [], rfl, isPath_components [], rfl⟩

/-- The lookup of a path finds its start. -/
lemma lookup_of_start {path : Bytes} (hs : s.WF) (unenc : Bool)
    (h : (s.table bucket).Start (Node.side unenc) (components path) p base) :
    (s.lookup bucket path unenc).base = some (s.applyBypass base) ∧
      (s.lookup bucket path unenc).remaining = (components path).drop p.length := by
  rcases lookup_spec hs bucket path unenc with ⟨q, base', hq, hbase, hrem⟩ | ⟨hnone, _⟩
  · obtain ⟨rfl, rfl⟩ := hq.unique (hs.coherent bucket) (Node.isSide unenc) h
    exact ⟨hbase, hrem⟩
  · exact absurd h (hnone p base)

end Store

/-- **The key of a path** is folded from its start. -/
lemma derivePathKey_of_start (hs : s.WF) {p : Path Bytes Bytes} {base : Base}
    (h : (s.table bucket).Start Prod.fst (components path) p base) :
    derivePathKey prim bucket path s = .ok (((components path).drop p.length).foldl
      (derivePathComponent prim) (baseKey prim bucket (s.applyBypass base))) := by
  obtain ⟨hbase, hrem⟩ := Store.lookup_of_start hs true h
  rw [derivePathKey, Store.lookupUnencrypted]
  simp only [hbase, hrem]
  split_ifs with hpath
  · rw [hpath, components, if_pos rfl, List.drop_nil, List.foldl_nil]
  · rfl

/-- **A path is sealed** from its start on. -/
lemma encryptPathBytes_of_start (hs : s.WF) {p : Path Bytes Bytes} {base : Base}
    (h : (s.table bucket).Start Prod.fst (components path) p base) (hpath : path ≠ []) :
    encryptPathBytes prim bucket path none s = (do
      let encrypted ← encryptIterator prim ((components path).drop p.length)
        (s.applyBypass base).pathCipher (baseKey prim bucket (s.applyBypass base))
      .ok (joinParts base.encrypted ((components path).drop p.length) encrypted)) := by
  obtain ⟨hbase, hrem⟩ := Store.lookup_of_start hs true h
  rw [encryptPathBytes, if_neg hpath, Store.lookupUnencrypted]
  simp only [hbase, hrem, Option.getD_none, Store.applyBypass_encrypted]

/-- **Where the paths of two stores start alike, they are sealed and have their keys alike.** -/
lemma acts_congr_of_start {t : Store} (hs : s.WF) (ht : t.WF)
    (hbypass : t.encryptionBypass = s.encryptionBypass)
    (h : ∀ p base, (t.table bucket).Start Prod.fst (components path) p base ↔
      (s.table bucket).Start Prod.fst (components path) p base) :
    encryptPathBytes prim bucket path none t = encryptPathBytes prim bucket path none s ∧
      derivePathKey prim bucket path t = derivePathKey prim bucket path s := by
  rcases Store.lookup_spec hs bucket path true with ⟨p, base, hstart, _, _⟩ | ⟨hnone, hbase⟩
  · have hstart' := (h p base).mpr hstart
    have happly : t.applyBypass base = s.applyBypass base := by
      rw [Store.applyBypass, Store.applyBypass, hbypass]
    refine ⟨?_, ?_⟩
    · by_cases hpath : path = []
      · rw [encryptPathBytes, encryptPathBytes, if_pos hpath, if_pos hpath]
      · rw [encryptPathBytes_of_start hs hstart hpath, encryptPathBytes_of_start ht hstart' hpath,
          happly]
    · rw [derivePathKey_of_start hs hstart, derivePathKey_of_start ht hstart', happly]
  · rcases Store.lookup_spec ht bucket path true with ⟨p, base, hstart, _, _⟩ | ⟨_, hbase'⟩
    · exact absurd ((h p base).mp hstart) (hnone p base)
    · rw [encryptPathBytes, encryptPathBytes, derivePathKey, derivePathKey,
        Store.lookupUnencrypted, Store.lookupUnencrypted]
      simp only [hbase, hbase', and_self]

/-- **Sealing a path** is sealing its components in the table of keys. -/
lemma encryptPathBytes_eq_ok (hs : s.WF) (hpath : path ≠ []) :
    encryptPathBytes prim bucket path none s = .ok out ↔
      ∃ y, (s.keys prim bucket).Enc (pathSystem prim) (components path) y ∧
        out = joinComponents y := by
  rw [encryptPathBytes, if_neg hpath, Store.lookupUnencrypted]
  rcases Store.lookup_spec hs bucket path true with ⟨p, base, hstart, hbase, hrem⟩ | ⟨hnone, hbase⟩
  · obtain ⟨_, _, hcs, henc⟩ := hs.start_placed hstart
    have hkeys : (s.keys prim bucket).Start Prod.fst (components path) p
        (s.baseKeys prim bucket base) := hstart.map _
    have hiff : ∀ y, (s.keys prim bucket).Enc (pathSystem prim) (components path) y ↔
        ∃ ds, (pathSystem prim).encryptAll (s.baseKeys prim bucket base)
          ((components path).drop p.length) = some ds ∧ y = KeyTree.cipher p ++ ds :=
      fun y => hkeys.enc_iff (hs.coherent bucket).map
    simp only [hbase, hrem, Option.getD_none, encryptIterator, Fallible.bind_eq_ok,
      encryptComponents_eq_ok, Except.ok.injEq, Store.applyBypass_encrypted, henc, hiff]
    constructor
    · rintro ⟨_, ⟨ds, hds, rfl⟩, rfl⟩
      exact ⟨_, ⟨ds, hds, rfl⟩, joinParts_eq hcs (System.length_encryptAll hds)⟩
    · rintro ⟨_, ⟨ds, hds, rfl⟩, rfl⟩
      exact ⟨_, ⟨ds, hds, rfl⟩, joinParts_eq hcs (System.length_encryptAll hds)⟩
  · simp only [hbase]
    constructor
    · rintro ⟨⟩
    · rintro ⟨y, ⟨q, k, c, hq, _, _⟩, _⟩
      obtain ⟨base, hstart, _⟩ := Table.start_map.mp hq
      exact absurd hstart (hnone q base)

/-- **Opening a path** is opening its components in the table of keys. -/
lemma decryptPathBytes_eq_ok (hs : s.WF) (hpath : path ≠ []) :
    decryptPathBytes prim bucket path none s = .ok out ↔
      ∃ x, (s.keys prim bucket).Dec (pathSystem prim) (components path) x ∧
        out = joinComponents x := by
  rw [decryptPathBytes, if_neg hpath, Store.lookupEncrypted]
  rcases Store.lookup_spec hs bucket path false with
    ⟨p, base, hstart, hbase, hrem⟩ | ⟨hnone, hbase⟩
  · obtain ⟨hcs, hunenc, _, _⟩ := hs.start_placed hstart
    have hkeys : (s.keys prim bucket).Start Prod.snd (components path) p
        (s.baseKeys prim bucket base) := hstart.map _
    have hiff : ∀ x, (s.keys prim bucket).Dec (pathSystem prim) (components path) x ↔
        ∃ ds, (pathSystem prim).decryptAll (s.baseKeys prim bucket base)
          ((components path).drop p.length) = some ds ∧ x = plain p ++ ds :=
      fun x => hkeys.dec_iff (hs.coherent bucket).map
    simp only [hbase, hrem, Option.getD_none, decryptIterator, Fallible.bind_eq_ok,
      decryptComponents_eq_ok, Except.ok.injEq, Store.applyBypass_unencrypted, hunenc, hiff]
    constructor
    · rintro ⟨_, ⟨ds, hds, rfl⟩, rfl⟩
      exact ⟨_, ⟨ds, hds, rfl⟩, joinParts_eq hcs (System.length_decryptAll hds)⟩
    · rintro ⟨_, ⟨ds, hds, rfl⟩, rfl⟩
      exact ⟨_, ⟨ds, hds, rfl⟩, joinParts_eq hcs (System.length_decryptAll hds)⟩
  · simp only [hbase]
    constructor
    · rintro ⟨⟩
    · rintro ⟨y, ⟨q, k, c, hq, _, _⟩, _⟩
      obtain ⟨base, hstart, _⟩ := Table.start_map.mp hq
      exact absurd hstart (hnone q base)

/-- **The key of a path** is its key in the table of keys. -/
lemma derivePathKey_eq_ok (hs : s.WF) : derivePathKey prim bucket path s = .ok key ↔
    ∃ cipher, (s.keys prim bucket).Key (pathSystem prim) (components path) (key, cipher) := by
  rw [derivePathKey, Store.lookupUnencrypted]
  rcases Store.lookup_spec hs bucket path true with ⟨p, base, hstart, hbase, hrem⟩ | ⟨hnone, hbase⟩
  · have hkeys : (s.keys prim bucket).Start Prod.fst (components path) p
        (s.baseKeys prim bucket base) := hstart.map _
    have hnil : path = [] → (components path).drop p.length = [] := by
      rintro rfl
      rw [components, if_pos rfl, List.drop_nil]
    have hkey : ∀ l, (s.keys prim bucket).Key (pathSystem prim) (components path) l ↔
        l = (pathSystem prim).keyAt (s.baseKeys prim bucket base)
          ((components path).drop p.length) := fun l => hkeys.key_iff (hs.coherent bucket).map
    simp only [hbase, hrem, hkey, Store.baseKeys, keyAt_pathSystem, Prod.mk.injEq,
      exists_and_left, exists_eq, and_true]
    split_ifs with hpath
    · rw [hnil hpath, List.foldl_nil, Except.ok.injEq, eq_comm]
    · rw [Except.ok.injEq, eq_comm]
  · simp only [hbase]
    constructor
    · rintro ⟨⟩
    · rintro ⟨_, ⟨q, k, hq, _⟩⟩
      obtain ⟨base, hstart, _⟩ := Table.start_map.mp hq
      exact absurd hstart (hnone q base)

/-! ## The round trip

A sealed path is a path: its components have no slash, so the iterator cuts the ciphertext where
the plaintext was cut.  With that, opening walks the same entries as sealing did.
-/

/-- Sealed components have no slash. -/
lemma slash_notMem_encryptAll {k : Key × CipherSuite} (hk : k.2 ≠ .nullBase64Url)
    (hcs : ∀ c ∈ cs, slash ∉ c) (h : (pathSystem prim).encryptAll k cs = some ds) :
    ∀ d ∈ ds, slash ∉ d := by
  induction cs generalizing k ds with
  | nil =>
      cases h
      nofun
  | cons c cs ih =>
      obtain ⟨d, ds, hd, hds, rfl⟩ := System.encryptAll_cons.mp h
      have hc := slash_notMem_encryptPathComponent hk (hcs c List.mem_cons_self)
        (toOption_eq_some.mp hd)
      intro b hb
      rcases List.mem_cons.mp hb with rfl | hb
      · exact hc
      · have hk' : ((pathSystem prim).derive k c).2 ≠ .nullBase64Url := by
          rw [derive_snd]
          exact hk
        exact ih hk' (fun c' hc' => hcs c' (List.mem_cons_of_mem _ hc')) hds b hb

/-- **The sealed components of a path are those of a path.** -/
lemma isPath_enc {p : Path Bytes Bytes} {k : Key × CipherSuite} {x c : List Bytes}
    (hk : k.2 ≠ .nullBase64Url) (hx : IsPath x) (hp : IsPath (KeyTree.cipher p))
    (hlen : p.length ≤ x.length)
    (hc : (pathSystem prim).encryptAll k (x.drop p.length) = some c) :
    IsPath (KeyTree.cipher p ++ c) := by
  have hdrop : ∀ d ∈ x.drop p.length, slash ∉ d := fun d hd => hx.1 d (List.mem_of_mem_drop hd)
  refine ⟨fun d hd => ?_, fun heq => ?_⟩
  · rcases List.mem_append.mp hd with hd | hd
    · exact hp.1 d hd
    · exact slash_notMem_encryptAll hk hdrop hc d hd
  · cases p with
    | nil =>
        -- the one component is sealed, and was not empty
        rw [List.length_nil, List.drop_zero] at hc
        have heq : c = [[]] := heq
        subst heq
        cases x with
        | nil => cases hc
        | cons a x =>
            obtain ⟨d, ds, hd, hds, hcons⟩ := System.encryptAll_cons.mp hc
            rw [List.cons.injEq] at hcons
            have hlen' := System.length_encryptAll hds
            rw [← hcons.2, List.length_nil] at hlen'
            have hnil : x = [] := List.length_eq_zero_iff.mp hlen'.symm
            subst hnil
            have ha : a ≠ [] := fun ha => hx.2 (by rw [ha])
            exact encryptPathComponent_ne_nil hk ha (toOption_eq_some.mp hd) hcons.1.symm
    | cons a p =>
        have hlen' := congrArg List.length heq
        simp only [List.map_cons, List.cons_append, List.length_cons, List.length_append,
          List.length_map, List.length_nil] at hlen'
        have hp' : p = [] := List.length_eq_zero_iff.mp (by omega)
        have hc' : c = [] := List.length_eq_zero_iff.mp (by omega)
        subst hp'
        subst hc'
        exact hp.2 (by simpa using heq)

/-- **No collision**: where an entry has the same components above, and the same sealed component,
it has the same component. -/
def Store.NoCollision (s : Store) (bucket : String) (x y : List Bytes) : Prop :=
  ∀ q, (s.table bucket).Has q → ∀ i < q.length, (plain q).take i = x.take i →
    (KeyTree.cipher q)[i]? = y[i]? → (plain q)[i]? = x[i]?

/-- Without collision, an entry above the ciphertext is above the path. -/
lemma Store.NoCollision.isPrefix {x y : List Bytes} (h : s.NoCollision bucket x y)
    {q : Path Bytes Bytes} (hq : (s.table bucket).Has q) (hy : KeyTree.cipher q <+: y) :
    plain q <+: x := by
  have htake : ∀ i ≤ q.length, (plain q).take i = x.take i := by
    intro i
    induction i with
    | zero => simp
    | succ i ih =>
        intro hi
        have hprev := ih (Nat.le_of_succ_le hi)
        have hcipher : (KeyTree.cipher q)[i]? = y[i]? := by
          obtain ⟨t, rfl⟩ := hy
          rw [List.getElem?_append_left (by rw [List.length_map]; exact hi)]
        rw [List.take_add_one, List.take_add_one, hprev, h q hq i hi hprev hcipher]
  have hall := htake q.length le_rfl
  rw [List.take_of_length_le (by simp)] at hall
  rw [hall]
  exact List.take_prefix _ _

/-- **Sealed paths open again**, in a store with sealing ciphers only. -/
lemma decryptPathBytes_encryptPathBytes (haes : prim.aesGcm.Lawful) (hbox : prim.secretBox.Lawful)
    (hs : s.WF) (hbypass : s.encryptionBypass = false)
    (hdefault : s.defaultPathCipher ≠ .nullBase64Url)
    (hciphers : ∀ bucket p base, s.entry bucket p = some base → base.pathCipher ≠ .nullBase64Url)
    (h : encryptPathBytes prim bucket path none s = .ok out)
    (hcoll : s.NoCollision bucket (components path) (components out)) :
    decryptPathBytes prim bucket out none s = .ok path := by
  by_cases hpath : path = []
  · subst hpath
    rw [encryptPathBytes, if_pos rfl] at h
    cases h
    rw [decryptPathBytes, if_pos rfl]
  · obtain ⟨y, ⟨p, k, c, hstart, hc, rfl⟩, rfl⟩ := (encryptPathBytes_eq_ok hs hpath).mp h
    obtain ⟨base, hbase, rfl⟩ := Table.start_map.mp hstart
    have hk : (s.baseKeys prim bucket base).2 ≠ .nullBase64Url := by
      rw [Store.baseKeys, Store.applyBypass, hbypass]
      cases hbase with
      | entry hp _ _ => exact hciphers bucket p base hp
      | root hroot _ =>
          obtain ⟨key, _, rfl⟩ := Option.map_eq_some_iff.mp hroot
          exact hdefault
    have hplaced : IsPath (KeyTree.cipher p) := by
      have hside : (s.table bucket).Start (Node.side true) (components path) p base := hbase
      obtain ⟨_, _, hplaced, _⟩ := hs.start_placed hside
      exact hplaced
    have hy := isPath_enc hk (isPath_components path) hplaced hbase.length_le hc
    rw [components_joinComponents hy] at hcoll
    have hne : joinComponents (KeyTree.cipher p ++ c) ≠ [] := by
      intro hnil
      have hempty := components_joinComponents hy
      rw [hnil, components, if_pos rfl] at hempty
      have hlen := System.length_encryptAll hc
      have hple := hbase.length_le
      have hclen := congrArg List.length hempty
      rw [List.length_append, List.length_map, List.length_nil, hlen, List.length_drop] at hclen
      have hx : (components path).length = 0 := by omega
      exact hpath (components_eq_nil.mp (List.length_eq_zero_iff.mp hx))
    -- the lookup by ciphertext stops at the same base
    have hstart' : (s.table bucket).Start Prod.snd (KeyTree.cipher p ++ c) p base := by
      cases hbase with
      | entry hp hx hdeep =>
          exact .entry hp (List.prefix_append _ _) fun q hq hqy =>
            hdeep q hq (hcoll.isPrefix hq hqy)
      | root hroot hnone => exact .root hroot fun q hq hqy => hnone q hq (hcoll.isPrefix hq hqy)
    have hopen : (pathSystem prim).decryptAll (s.baseKeys prim bucket base) c
        = some ((components path).drop p.length) := by
      refine System.decryptAll_encryptAll (P := fun k => k.2 ≠ .nullBase64Url)
        (fun k a hk => ?_) (fun k a b hk hab => ?_) hk hc
      · rw [derive_snd]
        exact hk
      exact toOption_eq_some.mpr (decryptPathComponent_encryptPathComponent haes hbox hk
        (toOption_eq_some.mp hab))
    refine (decryptPathBytes_eq_ok hs hne).mpr ⟨components path, ?_, ?_⟩
    · rw [components_joinComponents hy]
      refine ⟨p, _, (components path).drop p.length, hstart'.map _, ?_, ?_⟩
      · rw [List.drop_left' (by simp)]
        exact hopen
      · obtain ⟨t, ht⟩ := hbase.isPrefix
        rw [← ht, List.drop_left' (by simp)]
    · rw [joinComponents_components]

/-- The calls of a store without bypass, with sealing ciphers. -/
def Store.Op.Sealing : Store.Op → Prop
  | .setDefaultKey _ => True
  | .setDefaultPathCipher cipher => cipher = .aesGcm ∨ cipher = .secretBox ∨ cipher = .null
  | .setEncryptionBypass bypass => bypass = false
  | .addWithCipher m =>
      m.pathCipher = .aesGcm ∨ m.pathCipher = .secretBox ∨ m.pathCipher = .null

/-- A store that seals under every key it has. -/
structure Store.Sealing (s : Store) : Prop where
  bypass : s.encryptionBypass = false
  default : s.defaultPathCipher ≠ .nullBase64Url
  entries : ∀ bucket p base, s.entry bucket p = some base → base.pathCipher ≠ .nullBase64Url

lemma sealing_cipher {cipher : CipherSuite}
    (h : cipher = .aesGcm ∨ cipher = .secretBox ∨ cipher = .null) : cipher ≠ .nullBase64Url := by
  rcases h with rfl | rfl | rfl
  · decide
  · decide
  · decide

lemma Store.Sealing.apply (h : s.Sealing) (hs : s.WF) {op : Store.Op} (hop : op.Sealing) :
    (s.apply op).Sealing := by
  cases op with
  | setDefaultKey key => exact ⟨h.bypass, h.default, h.entries⟩
  | setDefaultPathCipher cipher => exact ⟨h.bypass, sealing_cipher hop, h.entries⟩
  | setEncryptionBypass bypass => exact ⟨hop, h.default, h.entries⟩
  | addWithCipher m =>
      rw [Store.apply, Store.tryAdd]
      cases hadd : (s.addWithCipher m.bucket m.unenc m.enc m.key m.pathCipher).1 with
      | error err =>
          rw [Store.addWithCipher_error hadd]
          exact h
      | ok _ =>
          refine ⟨?_, ?_, fun bucket p base hbase => ?_⟩
          · rw [Store.addWithCipher_snd hadd]
            exact h.bypass
          · rw [Store.addWithCipher_snd hadd]
            exact h.default
          · rw [Store.entry_addWithCipher hs hadd] at hbase
            split_ifs at hbase
            · cases hbase
              exact sealing_cipher hop
            · exact h.entries bucket p base hbase

lemma Store.Sealing.run (h : s.Sealing) (hs : s.WF) {ops : List Store.Op}
    (hops : ∀ op ∈ ops, op.Sealing) : (s.run ops).Sealing := by
  induction ops generalizing s with
  | nil => exact h
  | cons op ops ih =>
      exact ih (h.apply hs (hops op List.mem_cons_self)) (hs.apply op)
        fun op' hop' => hops op' (List.mem_cons_of_mem _ hop')

lemma Store.sealing_new : Store.new.Sealing := ⟨rfl, by decide, nofun⟩

/-- **The round trip of paths**, through every store that was built without bypass and with sealing
ciphers, for every path that it can seal without collision. -/
theorem decryptPath_encryptPath (haes : prim.aesGcm.Lawful) (hbox : prim.secretBox.Lawful)
    {ops : List Store.Op} (hops : ∀ op ∈ ops, op.Sealing) (bucket path : String) {e : Bytes}
    (h : encryptPath prim bucket path (Store.new.run ops) = .ok e)
    (hcoll : (Store.new.run ops).NoCollision bucket (components (utf8 path)) (components e)) :
    decryptPath prim bucket e (Store.new.run ops) = .ok (utf8 path) := by
  have hs := Store.wf_new.run ops
  have hseal := Store.sealing_new.run Store.wf_new hops
  exact decryptPathBytes_encryptPathBytes haes hbox hs hseal.bypass hseal.default hseal.entries h
    hcoll

/-- An authenticated cipher that leaves the text as it is and tags it with half of the key. -/
def copyAead : Aead := textAead (fun key => key.toList.take 16) fun _ _ => true

lemma copyAead_lawful : copyAead.Lawful := textAead_lawful fun _ => by simp [tagSize]

/-- Primitives to compute with: the copying cipher, and a keyed hash that puts the message in front
of the key. -/
def copyPrimitives : PathPrimitives where
  aesGcm := copyAead
  secretBox := copyAead
  hmacSha512 key data := Vector.ofFn fun i => (data ++ key.toList).getD i.val 0
  base64Decode comp := .ok comp
  base64Encode comp := comp
  debugText _ := ""

/-- A default key, and another one for what is below `a`. -/
def twoKeys : List Store.Op :=
  [.setDefaultKey (Vector.replicate 32 7), .setDefaultPathCipher .aesGcm,
    .addWithCipher ⟨"b", utf8 "a", [2, 120], Vector.replicate 32 9, .secretBox⟩]

lemma has_twoKeys {q : Path Bytes Bytes}
    (h : ((Store.new.run twoKeys).table "b").Has q) : q = [(utf8 "a", [2, 120])] := by
  obtain ⟨base, hq⟩ := h
  have hflat := Store.entry_run Store.wf_new (l := []) (fun _ _ => rfl) twoKeys "b" q
  have hadded : Store.new.added twoKeys =
      [⟨"b", utf8 "a", [2, 120], Vector.replicate 32 9, .secretBox⟩] := by decide +kernel
  have hq : (Store.new.run twoKeys).entry "b" q = some base := hq
  rw [hq, hadded, Store.lastFor_append] at hflat
  split_ifs at hflat with hpath
  · rw [← hpath.2]
    decide +kernel
  · cases hflat

theorem decryptPath_encryptPath_two_keys :
    (∀ op ∈ twoKeys, op.Sealing) ∧
      ∃ e, encryptPath copyPrimitives "b" "a//c/" (Store.new.run twoKeys) = .ok e ∧
        decryptPath copyPrimitives "b" e (Store.new.run twoKeys) = .ok (utf8 "a//c/") := by
  have hops : ∀ op ∈ twoKeys, op.Sealing := by
    simp [twoKeys, Store.Op.Sealing]
  have hsome : (encryptPath copyPrimitives "b" "a//c/" (Store.new.run twoKeys)).toOption.isSome := by
    decide +kernel
  obtain ⟨e, he⟩ := Option.isSome_iff_exists.mp hsome
  rw [toOption_eq_some] at he
  refine ⟨hops, e, he, ?_⟩
  refine decryptPath_encryptPath copyAead_lawful copyAead_lawful hops "b" "a//c/" he ?_
  intro q hq i hi _ _
  rw [has_twoKeys hq] at hi ⊢
  obtain rfl : i = 0 := Nat.lt_one_iff.mp hi
  decide +kernel

end Storj.Enc
