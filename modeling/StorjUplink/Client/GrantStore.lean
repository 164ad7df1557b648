import Mathlib.Algebra.Order.BigOperators.Group.List
import StorjUplink.Access.Table
import StorjUplink.Access.Sample
import StorjUplink.Client.Error
import StorjUplink.Enc.Rebuild

/-!
# The store of a project

`store_from_grant` of `project.rs`: a project turns the encryption access of its grant into a
store, as `store_from_enc` of the access crate does for sharing and overriding.  The two differ in
how they decode the names of buckets, which parsing has checked, and in the entries without a path
cipher: the project reads these as AES-GCM and the access crate leaves them as they are.

So the two stores have the same bases up to that cipher (`Remapped`), and they act alike exactly
when no base is without one (`store_builders_agree`).

Names of buckets are bytes in a grant.  The project decodes them leniently and the access crate
strictly; after parsing the two agree, because parsing went through the strict one.  An unspecified
cipher is another matter.  For the default cipher both read AES-GCM, in the message itself, and for
the cipher of an entry only the project does, with a function of its own (`mapCipher`).

An entry without a cipher is no use to the access crate: sealing below it fails.  So a share of
such a grant is refused what the project can still do, and `store_builders_agree` says that this is
the only difference, for every bucket and every path.
-/

namespace Storj.Client

open Storj.Enc Storj.Access KeyTree

/-! ## The builder

A fold over the entries, which stops at the first that the store refuses.
-/

/-- `map_enc`: failures to decrypt and missing bases keep a kind of their own, everything else is a
protocol error. -/
def mapEnc (e : Enc.Error) : Error :=
  let kind := match e.kind with
    | .decryptionFailed => ErrorKind.decryptionFailed
    | .missingEncryptionBase => ErrorKind.invalidGrant
    | .missingDecryptionBase => ErrorKind.invalidGrant
    | _ => ErrorKind.protocol
  ⟨kind, kindText e.kind ++ ": " ++ e.message⟩

/-- `map_cipher`: an unspecified cipher is read as AES-GCM. -/
def mapCipher (c : CipherSuite) : CipherSuite := if c.code = 0 then .aesGcm else c

/-- `String::from_utf8_lossy`, where `replaced` is the text with replacement characters for bytes
that are not UTF-8. -/
def fromUtf8Lossy (replaced : Bytes → String) (bytes : Bytes) : String :=
  (fromUtf8 bytes).getD (replaced bytes)

/-- The loop body of `store_from_grant`: the bucket is read as UTF-8 with replacements, and the path
cipher goes through `map_cipher`. -/
def addGrantEntry (replaced : Bytes → String) (store : Store) (e : StoreEntry) :
    Except Error Store :=
  match store.addWithCipher (fromUtf8Lossy replaced e.bucket) e.unencryptedPath e.encryptedPath
      e.key (mapCipher e.pathCipher) with
  | (.error err, _) => .error (mapEnc err)
  | (.ok (), store) => .ok store

/-- The store of `store_from_grant` before its loop. -/
def grantDefaults (enc : EncryptionAccess) : Store :=
  let store := Store.new.setDefaultPathCipher (mapCipher enc.defaultPathCipher)
  match enc.defaultKey with
  | some key => store.setDefaultKey key
  | none => store

/-- `store_from_grant`: the entries are added one by one to a store with the defaults, and the first
that fails ends it. -/
def storeFromGrant (replaced : Bytes → String) (g : Grant) : Except Error Store :=
  g.encAccess.storeEntries.foldlM (addGrantEntry replaced) (grantDefaults g.encAccess)

/-! ## The two stores side by side

Both loops add the same paths with the same keys, so one of them refuses an entry where the other
one does.
-/

/-- A base with its cipher read as the project reads it. -/
def remap (b : Base) : Base := { b with pathCipher := mapCipher b.pathCipher }

/-- **Two stores with the same bases**, up to the ciphers that are not specified. -/
structure Remapped (s t : Store) : Prop where
  wf : s.WF
  wf' : t.WF
  inhabited : s.Inhabited
  inhabited' : t.Inhabited
  entry : ∀ bucket p, t.entry bucket p = (s.entry bucket p).map remap
  key : t.defaultKey = s.defaultKey
  cipher : t.defaultPathCipher = mapCipher s.defaultPathCipher
  bypass : s.encryptionBypass = false
  bypass' : t.encryptionBypass = false

variable {replaced : Bytes → String} {s t s' : Store} {e : StoreEntry} {enc : EncryptionAccess}
  {bucket : String} {p : Path Bytes Bytes}

lemma remapped_defaults (enc : EncryptionAccess) :
    Remapped enc.defaults (grantDefaults enc) := by
  rw [EncryptionAccess.defaults, grantDefaults]
  cases enc.defaultKey with
  | none => exact ⟨Store.wf_of_roots rfl, Store.wf_of_roots rfl, Store.inhabited_of_roots rfl,
      Store.inhabited_of_roots rfl, fun _ _ => rfl, rfl, rfl, rfl, rfl⟩
  | some key => exact ⟨Store.wf_of_roots rfl, Store.wf_of_roots rfl, Store.inhabited_of_roots rfl,
      Store.inhabited_of_roots rfl, fun _ _ => rfl, rfl, rfl, rfl, rfl⟩

lemma Remapped.has (h : Remapped s t) : (t.table bucket).Has p ↔ (s.table bucket).Has p := by
  simp only [Table.Has, Store.table, h.entry, Option.map_eq_some_iff]
  constructor
  · rintro ⟨_, b, hb, _⟩
    exact ⟨b, hb⟩
  · rintro ⟨b, hb⟩
    exact ⟨remap b, b, hb, rfl⟩

/-- **One entry, in both stores.** -/
lemma Remapped.add (replaced : Bytes → String) (h : Remapped s t) (hadd : addEntry s e = .ok s') :
    ∃ t', addGrantEntry replaced t e = .ok t' ∧ Remapped s' t' := by
  obtain ⟨bucket, hbucket, hok, rfl⟩ := addEntry_eq_ok.mp hadd
  have hlossy : fromUtf8Lossy replaced e.bucket = bucket := by
    rw [fromUtf8Lossy, fromUtf8_eq_some.mpr hbucket]
    rfl
  have hok' : (t.addWithCipher bucket e.unencryptedPath e.encryptedPath e.key
      (mapCipher e.pathCipher)).1 = .ok () := by
    obtain ⟨hlen, hagree⟩ := (Store.addWithCipher_ok_iff h.wf).mp hok
    exact (Store.addWithCipher_ok_iff h.wf').mpr ⟨hlen, fun q hq => hagree q (h.has.mp hq)⟩
  refine ⟨(t.addWithCipher bucket e.unencryptedPath e.encryptedPath e.key
    (mapCipher e.pathCipher)).2, ?_, Store.wf_addWithCipher h.wf hok,
    Store.wf_addWithCipher h.wf' hok', ?_, ?_, fun bucket' q => ?_, ?_, ?_, ?_, ?_⟩
  · rw [addGrantEntry, hlossy]
    rcases hres : t.addWithCipher bucket e.unencryptedPath e.encryptedPath e.key
      (mapCipher e.pathCipher) with ⟨r, after⟩
    rw [hres] at hok'
    cases hok'
    rfl
  · exact Store.inhabited_tryAdd h.wf h.inhabited
      ⟨bucket, e.unencryptedPath, e.encryptedPath, e.key, e.pathCipher⟩
  · exact Store.inhabited_tryAdd h.wf' h.inhabited'
      ⟨bucket, e.unencryptedPath, e.encryptedPath, e.key, mapCipher e.pathCipher⟩
  · rw [Store.entry_addWithCipher h.wf' hok', Store.entry_addWithCipher h.wf hok, h.entry]
    split_ifs
    · rfl
    · rfl
  · rw [Store.addWithCipher_snd hok', Store.addWithCipher_snd hok]
    exact h.key
  · rw [Store.addWithCipher_snd hok', Store.addWithCipher_snd hok]
    exact h.cipher
  · rw [Store.addWithCipher_snd hok]
    exact h.bypass
  · rw [Store.addWithCipher_snd hok']
    exact h.bypass'

/-- **Both builders succeed together.** -/
lemma Remapped.foldlM (replaced : Bytes → String) (h : Remapped s t) {l : List StoreEntry} (hl : l.foldlM addEntry s = .ok s') :
    ∃ t', l.foldlM (addGrantEntry replaced) t = .ok t' ∧ Remapped s' t' := by
  induction l generalizing s t with
  | nil =>
      cases hl
      exact ⟨t, rfl, h⟩
  | cons e l ih =>
      rw [List.foldlM_cons, Fallible.bind_eq_ok] at hl
      obtain ⟨s₁, hadd, hl⟩ := hl
      obtain ⟨t₁, hadd', h₁⟩ := h.add replaced hadd
      obtain ⟨t', ht', h'⟩ := ih h₁ hl
      exact ⟨t', by rw [List.foldlM_cons, hadd', Fallible.ok_bind, ht'], h'⟩

lemma remap_eq_self {b : Base} (h : b.pathCipher.code ≠ 0) : remap b = b := by
  rw [remap, mapCipher, if_neg h]

/-! ## Where the stores act alike

Bases that differ in nothing act alike, and so do bases that are replaced by a later entry for the
same path.
-/

section Acting

variable {prim : PathPrimitives} {path : Bytes}

/-- **Two stores act alike**: every path is sealed, opened and given its content key alike. -/
def ActAlike (prim : PathPrimitives) (s t : Store) : Prop :=
  (∀ bucket path, encryptPath prim bucket path s = encryptPath prim bucket path t) ∧
  (∀ bucket path, decryptPath prim bucket path s = decryptPath prim bucket path t) ∧
  ∀ bucket path, deriveContentKey prim bucket path s = deriveContentKey prim bucket path t

lemma Remapped.actAlike (h : Remapped s t) (hcipher : s.defaultPathCipher.code ≠ 0)
    (hbases : ∀ bucket p b, s.entry bucket p = some b → b.pathCipher.code ≠ 0) :
    ActAlike prim s t := by
  have hentry : ∀ bucket p, s.entry bucket p = t.entry bucket p := by
    intro bucket p
    rw [h.entry]
    cases hb : s.entry bucket p with
    | none => rfl
    | some b => rw [Option.map_some, remap_eq_self (hbases bucket p b hb)]
  have hdefault : s.defaultPathCipher = t.defaultPathCipher := by
    rw [h.cipher, mapCipher, if_neg hcipher]
  have hsame : ∀ bucket path unenc, (s.lookup bucket path unenc).Same (t.lookup bucket path unenc) :=
    Store.lookup_congr h.wf h.wf' h.inhabited h.inhabited' hentry h.key.symm hdefault
      (h.bypass.trans h.bypass'.symm)
  exact ⟨fun bucket path => encryptPathBytes_congr (hsame bucket (utf8 path) true),
    fun bucket path => decryptPathBytes_congr (hsame bucket path false),
    fun bucket path => deriveContentKey_congr (hsame bucket path true)⟩

/-! ## Where they do not

Below an entry without a cipher one store has an error and the other one a result.
-/

/-- A component that no cipher made, longer than a nonce. -/
def strayComponent (n : ℕ) : Bytes := encodeSegment (List.replicate (n + 25) 97)

lemma length_strayComponent (n : ℕ) : n < (strayComponent n).length := by
  have hflat : ∀ k, (List.replicate k (97 : UInt8)).flatMap encodeByte = List.replicate k 97 := by
    intro k
    induction k with
    | zero => rfl
    | succ k ih =>
        rw [List.replicate_succ, List.flatMap_cons, ih]
        rfl
  rw [strayComponent, encodeSegment, if_neg (by simp), hflat, List.length_cons,
    List.length_replicate]
  omega

/-- A text is refused only as an authentication failure. -/
lemma openOnce_error {a : Aead} {lay : Layout} {key : Key} {nonce data : Bytes} {err : Enc.Error}
    (h : openOnce a lay key nonce data = .error err) : err.kind = .decryptionFailed := by
  rw [openOnce] at h
  by_cases hshort : data.length < tagSize
  · rw [if_pos hshort] at h
    cases h
    rfl
  · rw [if_neg hshort] at h
    dsimp only at h
    split at h
    · cases h
      rfl
    · cases h

/-- **Opening a stray component** fails for want of a cipher, or as an authentication failure if it
fails at all. -/
lemma decryptPathComponent_stray (prim : PathPrimitives) (n : ℕ) (key : Key) :
    decryptPathComponent prim (strayComponent n) .unspecified key =
        .error (unsupported .unspecified) ∧
      ∀ err, decryptPathComponent prim (strayComponent n) .aesGcm key = .error err →
        err.kind = .decryptionFailed := by
  have hne : strayComponent n ≠ [] := encodeSegment_ne_nil _
  have hdecode : decodeSegment (strayComponent n) = .ok (List.replicate (n + 25) 97) :=
    decodeSegment_encodeSegment _
  constructor
  · rw [decryptPathComponent, if_neg hne, if_neg (by decide), if_neg (by decide), hdecode,
      Fallible.ok_bind, List.length_replicate]
    have hsize : nonceSize .unspecified = 24 := rfl
    rw [hsize, if_neg (by omega), decrypt, if_neg (by simp), if_neg (by decide),
      if_neg (by decide), if_neg (by decide)]
  · intro err h
    rw [decryptPathComponent, if_neg hne, if_neg (by decide), if_neg (by decide), hdecode,
      Fallible.ok_bind, List.length_replicate] at h
    have hsize : nonceSize .aesGcm = 12 := rfl
    rw [hsize, if_neg (by omega), decrypt, if_neg (by simp), if_neg (by decide), if_pos rfl] at h
    exact openOnce_error h

/-- **A base without a cipher tells the stores apart**: the project opens what is below it with
AES-GCM, and the access crate refuses to open it. -/
lemma Remapped.not_actAlike (h : Remapped s t) {b : Base} (hb : s.entry bucket p = some b)
    (hcode : b.pathCipher.code = 0)
    (hfinite : ∃ n, ∀ q, (s.table bucket).Has q → ∀ d ∈ KeyTree.cipher q, d.length ≤ n) :
    ¬ActAlike prim s t := by
  obtain ⟨n, hn⟩ := hfinite
  rintro ⟨_, hdec, _⟩
  have hcipher : b.pathCipher = .unspecified := by
    rcases hc : b.pathCipher with ⟨code⟩
    rw [hc] at hcode
    exact congrArg CipherSuite.mk hcode
  -- a path below the base and below nothing else
  obtain ⟨_, hplaced, _⟩ := h.wf.placed bucket p b hb
  have hstray : strayComponent n ≠ [] := encodeSegment_ne_nil _
  have hpath : IsPath (KeyTree.cipher p ++ [strayComponent n]) := by
    refine ⟨fun c hc => ?_, fun heq => ?_⟩
    · rcases List.mem_append.mp hc with hc | hc
      · rw [hplaced] at hc
        exact (isPath_components _).1 c hc
      · rw [List.mem_singleton.mp hc]
        exact slash_notMem_encodeSegment _
    · have hmem : strayComponent n ∈ [[]] := by
        rw [← heq]
        simp
      exact hstray (List.mem_singleton.mp hmem)
  have hcomponents := components_joinComponents hpath
  have hne : joinComponents (KeyTree.cipher p ++ [strayComponent n]) ≠ [] := by
    intro hnil
    rw [hnil, components, if_pos rfl] at hcomponents
    simp at hcomponents
  have hdeep : ∀ q, (s.table bucket).Has q →
      q.map Prod.snd <+: KeyTree.cipher p ++ [strayComponent n] → q.length ≤ p.length := by
    intro q hq hpref
    by_contra hlong
    have heq : KeyTree.cipher q = KeyTree.cipher p ++ [strayComponent n] := by
      refine hpref.eq_of_length_le ?_
      simp only [List.length_append, List.length_map, List.length_singleton]
      omega
    have hlen := hn q hq (strayComponent n) (by rw [heq]; simp)
    have := length_strayComponent n
    omega
  have hdrop : (KeyTree.cipher p ++ [strayComponent n]).drop p.length = [strayComponent n] :=
    List.drop_left' (by simp)
  have hb' : t.entry bucket p = some (remap b) := by rw [h.entry, hb, Option.map_some]
  have hstart : (s.table bucket).Start (Node.side false)
      (components (joinComponents (KeyTree.cipher p ++ [strayComponent n]))) p b := by
    rw [hcomponents]
    exact .entry hb (List.prefix_append _ _) hdeep
  have hstart' : (t.table bucket).Start (Node.side false)
      (components (joinComponents (KeyTree.cipher p ++ [strayComponent n]))) p (remap b) := by
    rw [hcomponents]
    exact .entry hb' (List.prefix_append _ _) fun q hq => hdeep q (h.has.mp hq)
  obtain ⟨hbase, hrem⟩ := Store.lookup_of_start h.wf false hstart
  obtain ⟨hbase', hrem'⟩ := Store.lookup_of_start h.wf' false hstart'
  rw [hcomponents, hdrop] at hrem hrem'
  rw [Store.applyBypass, h.bypass, if_neg Bool.false_ne_true] at hbase
  rw [Store.applyBypass, h.bypass', if_neg Bool.false_ne_true] at hbase'
  have heq := hdec bucket (joinComponents (KeyTree.cipher p ++ [strayComponent n]))
  rw [decryptPath, decryptPath, decryptPathBytes, decryptPathBytes, if_neg hne, if_neg hne,
    Store.lookupEncrypted, Store.lookupEncrypted] at heq
  dsimp only at heq
  rw [hbase, hbase', hrem, hrem'] at heq
  have hmapped : (remap b).pathCipher = .aesGcm := by rw [remap, mapCipher, if_pos hcode]
  have hkey : baseKey prim bucket (remap b) = baseKey prim bucket b := rfl
  obtain ⟨hrefused, hopened⟩ := decryptPathComponent_stray prim n (baseKey prim bucket b)
  dsimp only at heq
  rw [hkey, hmapped, hcipher, Option.getD_none, Option.getD_none, decryptIterator, decryptIterator,
    decryptComponents, decryptComponents, hrefused] at heq
  cases hopen : decryptPathComponent prim (strayComponent n) .aesGcm (baseKey prim bucket b) with
  | ok plain =>
      rw [hopen] at heq
      cases heq
  | error err =>
      rw [hopen] at heq
      have hkind := hopened err hopen
      have herr : unsupported .unspecified = err := Except.error.inj heq
      rw [← herr] at hkind
      cases hkind

end Acting

/-! ## The entries of a store

Entries for one path replace one another, so only the last one counts.
-/

/-- The last of some entries for its bucket and its plaintext path. -/
def Last (l : List StoreEntry) (e : StoreEntry) : Prop :=
  ∃ l₁ l₂, l = l₁ ++ e :: l₂ ∧
    ∀ e' ∈ l₂, ¬(e'.bucket = e.bucket ∧ e'.unencryptedPath = e.unencryptedPath)

lemma last_append {l : List StoreEntry} {a : StoreEntry} : Last (l ++ [a]) e ↔
    e = a ∨ Last l e ∧ ¬(a.bucket = e.bucket ∧ a.unencryptedPath = e.unencryptedPath) := by
  constructor
  · rintro ⟨l₁, l₂, hl, hlater⟩
    rcases List.eq_nil_or_concat l₂ with rfl | ⟨l₂, b, rfl⟩
    · have hlast := congrArg List.getLast? hl
      rw [List.getLast?_concat, List.getLast?_concat, Option.some.injEq] at hlast
      exact Or.inl hlast.symm
    · rw [List.concat_eq_append, ← List.cons_append, ← List.append_assoc] at hl
      obtain ⟨hl', hab⟩ := List.append_inj' hl rfl
      rw [List.cons.injEq] at hab
      obtain ⟨rfl, _⟩ := hab
      exact Or.inr ⟨⟨l₁, l₂, hl', fun e' he' => hlater e' (by simp [he'])⟩, hlater a (by simp)⟩
  · rintro (rfl | ⟨⟨l₁, l₂, rfl, hlater⟩, ha⟩)
    · exact ⟨l, [], rfl, nofun⟩
    · refine ⟨l₁, l₂ ++ [a], by simp, fun e' he' => ?_⟩
      rcases List.mem_append.mp he' with he' | he'
      · exact hlater e' he'
      · rw [List.mem_singleton.mp he']
        exact ha

/-- The base of an entry. -/
def baseOf (e : StoreEntry) : Base :=
  ⟨e.unencryptedPath, e.encryptedPath, e.key, e.pathCipher, false⟩

/-- **The bases of a store are the last entries of their paths.** -/
lemma entry_foldlM {l : List StoreEntry} {s₀ : Store} (h₀ : s₀.WF)
    (hempty : ∀ bucket p, s₀.entry bucket p = none) (h : l.foldlM addEntry s₀ = .ok s) :
    s.WF ∧ ∀ bucket p b, s.entry bucket p = some b ↔ ∃ e, Last l e ∧ utf8 bucket = e.bucket ∧
      p = Store.pathOf e.unencryptedPath e.encryptedPath ∧ b = baseOf e := by
  induction l using List.reverseRecOn generalizing s with
  | nil =>
      cases h
      refine ⟨h₀, fun bucket p b => ?_⟩
      rw [hempty]
      refine ⟨nofun, ?_⟩
      rintro ⟨e, ⟨l₁, l₂, hl, _⟩, _⟩
      simp at hl
  | append_singleton l a ih =>
      rw [List.foldlM_append, Fallible.bind_eq_ok] at h
      obtain ⟨s₁, hs₁, h⟩ := h
      rw [List.foldlM_cons, Fallible.bind_eq_ok] at h
      obtain ⟨s₂, hadd, h⟩ := h
      cases h
      obtain ⟨hwf, hspec⟩ := ih hs₁
      obtain ⟨name, hname, hok, rfl⟩ := addEntry_eq_ok.mp hadd
      have hwf' := Store.wf_addWithCipher hwf hok
      have hentry := Store.entry_addWithCipher hwf hok
      have hself := hentry name (Store.pathOf a.unencryptedPath a.encryptedPath)
      rw [if_pos ⟨rfl, rfl⟩] at hself
      refine ⟨hwf', fun bucket p b => ?_⟩
      -- two bases with the same plaintext path are at the same path
      have hpath : ∀ {q b'}, (s₁.addWithCipher name a.unencryptedPath a.encryptedPath a.key
          a.pathCipher).2.entry name q = some b' → (b'.unencrypted = a.unencryptedPath ↔
          q = Store.pathOf a.unencryptedPath a.encryptedPath) := by
        intro q b' hq
        obtain ⟨hplain, _, _⟩ := hwf'.placed name q b' hq
        obtain ⟨hplain', _, _⟩ := hwf'.placed name _ _ hself
        constructor
        · intro hu
          have heq : q.map Prod.fst =
              (Store.pathOf a.unencryptedPath a.encryptedPath).map Prod.fst :=
            hplain.trans (hu ▸ hplain'.symm)
          have hagree := hwf'.coherent name q _ ⟨b', hq⟩ ⟨_, hself⟩
          refine (hagree.prefix_of_map side_fst ?_).eq_of_length ?_
          · rw [heq]
          · simpa using congrArg List.length heq
        · rintro rfl
          exact components_injective (hplain.symm.trans hplain')
      rw [hentry]
      constructor
      · intro hb
        split_ifs at hb with hhit
        · cases hb
          exact ⟨a, last_append.mpr (Or.inl rfl), by rw [hhit.1, hname], hhit.2, rfl⟩
        · obtain ⟨e, hlast, hbucket, hp, rfl⟩ := (hspec bucket p b).mp hb
          refine ⟨e, last_append.mpr (Or.inr ⟨hlast, ?_⟩), hbucket, hp, rfl⟩
          rintro ⟨hsame, hu⟩
          obtain rfl : bucket = name := utf8_injective (by rw [hbucket, hname, hsame])
          have hnew := hentry bucket p
          rw [if_neg hhit, hb] at hnew
          exact hhit ⟨rfl, (hpath hnew).mp hu.symm⟩
      · rintro ⟨e, hlast, hbucket, rfl, rfl⟩
        rcases last_append.mp hlast with rfl | ⟨hlast, hne⟩
        · rw [if_pos ⟨utf8_injective (hbucket.trans hname.symm), rfl⟩]
          rfl
        · have hold := (hspec bucket _ (baseOf e)).mpr ⟨e, hlast, hbucket, rfl, rfl⟩
          split_ifs with hhit
          · exfalso
            obtain ⟨rfl, hp⟩ := hhit
            refine hne ⟨by rw [← hbucket, hname], ?_⟩
            obtain ⟨hplain, _, _⟩ := hwf.placed bucket _ _ hold
            obtain ⟨hplain', _, _⟩ := hwf'.placed bucket _ _ hself
            rw [hp] at hplain
            exact components_injective (hplain'.symm.trans hplain)
          · exact hold

/-- The components of the entries of a store are bounded. -/
lemma bounded_of_entries (l : List StoreEntry) (hs : s.WF)
    (h : ∀ bucket p b, s.entry bucket p = some b → ∃ e, Last l e ∧ b = baseOf e) (bucket : String) :
    ∃ n, ∀ q, (s.table bucket).Has q → ∀ d ∈ KeyTree.cipher q, d.length ≤ n := by
  refine ⟨(l.map fun e => e.encryptedPath.length).sum, ?_⟩
  rintro q ⟨b, hb⟩ d hd
  have hb : s.entry bucket q = some b := hb
  obtain ⟨e, ⟨l₁, l₂, rfl, _⟩, rfl⟩ := h bucket q b hb
  obtain ⟨_, hcipher, _⟩ := hs.placed bucket q _ hb
  rw [hcipher] at hd
  have hlen := length_le_joinComponents hd
  rw [joinComponents_components] at hlen
  refine hlen.trans ?_
  exact List.single_le_sum (fun _ _ => Nat.zero_le _) _ (List.mem_map.mpr ⟨e, by simp, rfl⟩)

/-! ## Parsed grants

Parsing has built the store once, with the limit of the caveats; so both builders succeed.
-/

/-- **What is read from a message** has a store, and a cipher by default. -/
lemma fromProto_spec {m : Pb.EncryptionAccess} (h : EncryptionAccess.fromProto m = .ok enc) :
    (∃ s, storeFromEnc enc = .ok s) ∧ enc.defaultPathCipher.code ≠ 0 := by
  rw [EncryptionAccess.fromProto] at h
  obtain ⟨defaultKey, _, h⟩ := Fallible.bind_eq_ok.mp h
  obtain ⟨entries, _, h⟩ := Fallible.bind_eq_ok.mp h
  dsimp only at h
  split at h
  · cases h
  · rename_i store hstore
    cases h
    refine ⟨⟨store, hstore⟩, ?_⟩
    dsimp only
    split_ifs with hcipher
    · decide
    · exact hcipher

/-- **A limited access** has a store and the same cipher by default. -/
lemma limitTo_spec {prim : AccessPrimitives} {order : HashOrder} {apiKey : ApiKey}
    {limited : EncryptionAccess} (henc : ∃ s, storeFromEnc enc = .ok s)
    (h : limitTo prim order enc apiKey = .ok limited) :
    (∃ s, storeFromEnc limited = .ok s) ∧
      limited.defaultPathCipher = enc.defaultPathCipher := by
  obtain ⟨groups, _, ⟨_, rfl⟩ | ⟨_, src, store, hsrc, hstore, rfl⟩⟩ := limitTo_eq_ok.mp h
  · exact ⟨henc, rfl⟩
  · have hnew : (Store.new.setDefaultPathCipher src.defaultPathCipher).WF :=
      Store.wf_of_roots rfl
    have hfirst : SameDefaults (Store.new.setDefaultPathCipher src.defaultPathCipher)
        ((allowedPrefixes groups).foldl (addPrefix prim src)
          (Store.new.setDefaultPathCipher src.defaultPathCipher)) := by
      refine List.foldlRecOn _ _ (.refl hnew) fun s hs path _ => ?_
      exact hs.trans (.addPrefix hs.wf)
    have hsame : SameDefaults (Store.new.setDefaultPathCipher src.defaultPathCipher) store := by
      refine Fallible.foldlM_induction (fun entry _ a b ha hab => ?_) hfirst hstore
      rw [keepEntry] at hab
      split_ifs at hab
      · exact ha.trans (.addEntry ha.wf hab)
      · cases hab
        exact ha
    have hentries : (encFromStore order store).storeEntries = (store.iterate order).map entryOf := rfl
    obtain ⟨t, ht, _⟩ := storeFromEnc_encFromStore hsame.wf hentries
    exact ⟨⟨t, ht⟩, hsame.cipher.trans (storeFromEnc_spec hsrc).2.2.2⟩

/-- **When the two builders agree.**  For every grant that was parsed both stores are built, and
they act alike on all buckets and paths exactly if no entry that counts, the last one of its bucket
and path, is without a path cipher. -/
theorem store_builders_agree (prim : AccessPrimitives) (order : HashOrder)
    (replaced : Bytes → String) {serialized : String} {g : Grant}
    (h : Grant.parse prim order serialized = .ok g) :
    ∃ s t, storeFromEnc g.encAccess = .ok s ∧ storeFromGrant replaced g = .ok t ∧
      (ActAlike prim.toPathPrimitives s t ↔
        ∀ e, Last g.encAccess.storeEntries e → e.pathCipher.code ≠ 0) := by
  obtain ⟨_, data, scope, _, _, h⟩ := Grant.parse_eq_ok.mp h
  obtain ⟨_, _, mac, encPb, encAccess, limited, _, _, hproto, hlimit, rfl⟩ :=
    Grant.ofScope_eq_ok.mp h
  obtain ⟨hstore, hcipher⟩ := fromProto_spec hproto
  obtain ⟨⟨s, hs⟩, hsame⟩ := limitTo_spec hstore hlimit
  obtain ⟨t, ht, hremap⟩ := (remapped_defaults limited).foldlM replaced hs
  obtain ⟨_, hentries⟩ := entry_foldlM (wf_defaults limited) (fun _ _ => entry_defaults limited) hs
  refine ⟨s, t, hs, ht, ?_, ?_⟩
  · intro hact e hlast hcode
    obtain ⟨name, hname⟩ : ∃ name, utf8 name = e.bucket := by
      obtain ⟨l₁, l₂, hl, _⟩ := hlast
      have hs' : limited.storeEntries.foldlM addEntry limited.defaults = .ok s := hs
      rw [hl, List.foldlM_append, Fallible.bind_eq_ok] at hs'
      obtain ⟨_, _, hs'⟩ := hs'
      rw [List.foldlM_cons, Fallible.bind_eq_ok] at hs'
      obtain ⟨_, hadd, _⟩ := hs'
      obtain ⟨name, hname, _⟩ := addEntry_eq_ok.mp hadd
      exact ⟨name, hname⟩
    refine hremap.not_actAlike ((hentries name _ (baseOf e)).mpr ⟨e, hlast, hname, rfl, rfl⟩) hcode
      (bounded_of_entries limited.storeEntries hremap.wf (fun bucket p b hb => ?_) name) hact
    obtain ⟨e', hlast', _, _, hb⟩ := (hentries bucket p b).mp hb
    exact ⟨e', hlast', hb⟩
  · intro hall
    refine hremap.actAlike ?_ fun bucket p b hb => ?_
    · rw [(storeFromEnc_spec hs).2.2.2, hsame]
      exact hcipher
    · obtain ⟨e, hlast, _, _, rfl⟩ := (hentries bucket p b).mp hb
      exact hall e hlast

/-! ### One entry

The grant of an example, written out as text and parsed.
-/

/-- The encryption access of a message whose one entry has a path cipher. -/
def entryMessage (cipher : ℤ) : Pb.EncryptionAccess where
  defaultKey := []
  storeEntries := [⟨utf8 "bucket", utf8 "a", utf8 "x", List.replicate 32 7, cipher, none⟩]
  defaultPathCipher := 2
  defaultEncryptionParameters := none

/-- The access that it is read as. -/
def entryAccess (cipher : ℤ) : EncryptionAccess where
  defaultKey := none
  defaultPathCipher := .aesGcm
  storeEntries := [⟨utf8 "bucket", utf8 "a", utf8 "x", Vector.replicate 32 7, ⟨cipher⟩, none⟩]
  defaultEncryptionParameters := none

/-- A grant with this entry, as a text. -/
def entryText (cipher : ℤ) : String :=
  checkEncode samplePrimitives (samplePrimitives.encodeScope
    ⟨"satellite", plainMacaroon.serialize, some (entryMessage cipher)⟩) grantVersion

def entryGrant (cipher : ℤ) : Grant where
  satelliteAddr := "satellite"
  apiKey := plainMacaroon.serialize
  encAccess := entryAccess cipher
  original := some (entryText cipher)

lemma parse_entryText {cipher : ℤ} (hcipher : InI32 cipher) (order : HashOrder)
    (h : EncryptionAccess.fromProto (entryMessage cipher) = .ok (entryAccess cipher)) :
    Grant.parse samplePrimitives order (entryText cipher) = .ok (entryGrant cipher) := by
  have hrange : (entryMessage cipher).InRange := by
    have hdefault : InI32 2 := ⟨by decide, by decide⟩
    refine ⟨hdefault, nofun, ?_, ?_⟩
    · intro e he
      rw [List.mem_singleton.mp he]
      exact hcipher
    · intro e he
      rw [List.mem_singleton.mp he]
      exact nofun
  rw [entryText, Grant.parse_checkEncode samplePrimitives_lawful order]
  · have hne : plainMacaroon.serialize ≠ [] := by decide +kernel
    have hlimit : limitTo samplePrimitives order (entryAccess cipher) ⟨plainMacaroon⟩ =
        .ok (entryAccess cipher) := limitTo_eq_ok.mpr ⟨[], rfl, Or.inl ⟨rfl, rfl⟩⟩
    refine Grant.ofScope_eq_ok.mpr ⟨by simp, hne, plainMacaroon, entryMessage cipher, _, _,
      Macaroon.parse_serialize (by decide +kernel), rfl, h, hlimit, ?_⟩
    rw [if_pos rfl]
    rfl
  · intro p hp
    cases hp
    exact hrange

/-- With AES-GCM as its cipher the entry is read alike. -/
theorem store_builders_agree_of_aesGcm :
    ∃ s t, storeFromEnc (entryGrant 2).encAccess = .ok s ∧
      storeFromGrant (fun _ => "") (entryGrant 2) = .ok t ∧
      ActAlike samplePrimitives.toPathPrimitives s t := by
  have hcipher : InI32 2 := ⟨by decide, by decide⟩
  have hparse := parse_entryText hcipher listedOrder (by decide +kernel)
  obtain ⟨s, t, hs, ht, hiff⟩ := store_builders_agree samplePrimitives listedOrder (fun _ => "") hparse
  refine ⟨s, t, hs, ht, hiff.mpr ?_⟩
  rintro e ⟨l₁, l₂, hl, _⟩
  have he : e ∈ (entryGrant 2).encAccess.storeEntries := by
    rw [hl]
    simp
  rw [List.mem_singleton.mp he]
  decide

/-- The store with this entry. -/
def entryStore (cipher : ℤ) : Store :=
  ((entryAccess cipher).defaults.addWithCipher "bucket" (utf8 "a") (utf8 "x")
    (Vector.replicate 32 7) ⟨cipher⟩).2

/-- **The two builders differ** on an entry without a path cipher: the access crate refuses a path
that the project seals. -/
theorem store_builders_differ :
    (∀ order, Grant.parse samplePrimitives order (entryText 0) = .ok (entryGrant 0)) ∧
    storeFromEnc (entryGrant 0).encAccess = .ok (entryStore 0) ∧
    storeFromGrant (fun _ => "") (entryGrant 0) = .ok (entryStore 2) ∧
    encryptPath samplePrimitives.toPathPrimitives "bucket" "a/b" (entryStore 0) =
      .error (unsupported .unspecified) ∧
    ∃ sealed, encryptPath samplePrimitives.toPathPrimitives "bucket" "a/b" (entryStore 2) =
      .ok sealed := by
  have hcipher : InI32 0 := ⟨by decide, by decide⟩
  refine ⟨fun order => parse_entryText hcipher order (by decide +kernel), rfl, rfl, ?_, ?_⟩
  · decide +kernel
  · exact ⟨_, rfl⟩

end Storj.Client
