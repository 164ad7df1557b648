import StorjUplink.Access.State
import StorjUplink.Access.Sample

/-!
# Runs without collisions

The grants of a run whose paths are sealed with AES-GCM, under what is assumed of the cipher: of the
components that the run seals, each with its key, no two have the same ciphertext and none begins
another, and no key of the run opens one to anything but its plaintext (`Collisionless`).

In such a run the tables of every grant keep the invariant of `Sharing` (`Good`): a key reaches
where it was meant to, whatever was overridden and shared before.

`Collisionless` is assumed of a list of components with their keys, namely of those that the run
seals, and not of all components there are.  It has the three things that an ideal deterministic
cipher gives: different components have different ciphertexts, no ciphertext is the beginning of
another one, and opening with a key that did not seal gives nothing or the same plaintext.  The
second could fail only for ciphertexts of different lengths, and the third is authentication.

With it the invariant `Good` holds in every run.  It says that the tables of a grant are those of
its groups with everything traced back to something that was sealed, which is the invariant of the
abstract trees, and that the entries are listed as a walk would list them.
-/

namespace Storj.Access

open Storj.Enc KeyTree Storj.Sharing

/-! ## Joined components

Prefixes are compared as bytes.  For components without a slash, of which none begins another, a
byte prefix ends where a component ends.
-/

/-- What has no slash begins the first component if it begins the whole. -/
lemma prefix_of_prefix_append {b d t : Bytes} (hb : slash ∉ b)
    (ht : t = [] ∨ ∃ t', t = slash :: t') (h : b <+: d ++ t) : b <+: d := by
  rcases List.prefix_or_prefix_of_prefix h (List.prefix_append d t) with hle | ⟨e, rfl⟩
  · exact hle
  · rw [List.prefix_append_right_inj] at h
    rcases ht with rfl | ⟨t', rfl⟩
    · rw [List.prefix_nil.mp h, List.append_nil]
    · cases e with
      | nil => rw [List.append_nil]
      | cons x e =>
          obtain ⟨rfl, _⟩ := List.cons_prefix_cons.mp h
          exact absurd (List.mem_append_right d List.mem_cons_self) hb

lemma joinComponents_singleton (b : Bytes) : joinComponents [b] = b := by
  simp [joinComponents, List.intercalate]

/-- A joined path is its first component and the rest behind a slash. -/
lemma joinComponents_cons (b : Bytes) (y : List Bytes) : ∃ t, joinComponents (b :: y) = b ++ t ∧
    (y = [] ∧ t = [] ∨ y ≠ [] ∧ t = slash :: joinComponents y) := by
  by_cases hy : y = []
  · subst hy
    exact ⟨[], by rw [joinComponents_singleton, List.append_nil], Or.inl ⟨rfl, rfl⟩⟩
  · refine ⟨_, ?_, Or.inr ⟨hy, rfl⟩⟩
    rw [← List.singleton_append, joinComponents_append (List.cons_ne_nil b []) hy,
      joinComponents_singleton]

/-- **Bytes begin as components**, where no component begins another one. -/
lemma prefix_of_begins {y z : List Bytes} (hy : ∀ b ∈ y, slash ∉ b ∧ b ≠ [])
    (hz : ∀ d ∈ z, slash ∉ d) (hsep : ∀ b ∈ y, ∀ d ∈ z, b <+: d → b = d) (h : Begins y z) :
    y <+: z := by
  induction y generalizing z with
  | nil => exact List.nil_prefix
  | cons b y ih =>
      have hb := hy b List.mem_cons_self
      obtain ⟨s, hs, hs'⟩ := joinComponents_cons b y
      rw [Begins, hs] at h
      cases z with
      | nil =>
          have hnil := (List.append_eq_nil_iff.mp (List.prefix_nil.mp h)).1
          exact absurd hnil hb.2
      | cons d z =>
          obtain ⟨t, ht, ht'⟩ := joinComponents_cons d z
          rw [ht] at h
          have hbd : b = d := by
            refine hsep b List.mem_cons_self d List.mem_cons_self ?_
            refine prefix_of_prefix_append hb.1 ?_ ((List.prefix_append b s).trans h)
            rcases ht' with ⟨_, rfl⟩ | ⟨_, rfl⟩
            · exact Or.inl rfl
            · exact Or.inr ⟨_, rfl⟩
          subst hbd
          rw [List.prefix_append_right_inj] at h
          rw [List.cons_prefix_cons]
          refine ⟨rfl, ?_⟩
          rcases hs' with ⟨rfl, _⟩ | ⟨hne, rfl⟩
          · exact List.nil_prefix
          · rcases ht' with ⟨rfl, rfl⟩ | ⟨_, rfl⟩
            · exact absurd (List.prefix_nil.mp h) (List.cons_ne_nil _ _)
            · rw [List.cons_prefix_cons] at h
              exact ih (fun b hb => hy b (List.mem_cons_of_mem _ hb))
                (fun d hd => hz d (List.mem_cons_of_mem _ hd))
                (fun b hb d hd => hsep b (List.mem_cons_of_mem _ hb) d (List.mem_cons_of_mem _ hd))
                h.2

/-! ## What is assumed of the cipher

The assumption is about the functions of the encryption crate; what the trees need of a system of
sealing follows from it.
-/

variable (prim : AccessPrimitives)

/-- **No collisions** among the components `I` of a run, each with the key it is sealed with, and
the keys `K` of the run: a ciphertext determines its key and its plaintext, none begins another
one, and a key opens none to another plaintext. -/
structure Collisionless (I : Key → Bytes → Prop) (K : Key → Prop) : Prop where
  aesGcm : prim.aesGcm.Lawful
  secretBox : prim.secretBox.Lawful
  unique : ∀ k a l d b, I k a → I l d →
    encryptPathComponent prim.toPathPrimitives a .aesGcm k = .ok b →
    encryptPathComponent prim.toPathPrimitives d .aesGcm l = .ok b → k = l ∧ a = d
  separate : ∀ k a l d b e, I k a → I l d →
    encryptPathComponent prim.toPathPrimitives a .aesGcm k = .ok b →
    encryptPathComponent prim.toPathPrimitives d .aesGcm l = .ok e → b <+: e → b = e
  opens : ∀ k a b l d, I k a →
    encryptPathComponent prim.toPathPrimitives a .aesGcm k = .ok b → K l →
    decryptPathComponent prim.toPathPrimitives b .aesGcm l = .ok d → d = a
  derive : ∀ k a, K k → (∃ l, I l a) → K (derivePathComponent prim.toPathPrimitives k a)

/-- The components of a run, with their keys as the tables have them. -/
def gcmPairs (I : Key → Bytes → Prop) (k : Key × CipherSuite) (a : Bytes) : Prop :=
  k.2 = .aesGcm ∧ I k.1 a

instance : Nonempty (Key × CipherSuite) := ⟨(Vector.replicate 32 0, .aesGcm)⟩

/-- The keys of a run, as the tables have them. -/
def gcmKeys (K : Key → Prop) (k : Key × CipherSuite) : Prop := k.2 = .aesGcm ∧ K k.1

variable {prim} {I : Key → Bytes → Prop} {K : Key → Prop}

/-- The ciphertexts of a genuine path have no slash and are not empty. -/
lemma genuine_segment {p : Path Bytes Bytes} (hp : Genuine (sysOf prim) (gcmPairs I) p)
    {b : Bytes} (hb : b ∈ cipher p) : slash ∉ b ∧ b ≠ [] := by
  obtain ⟨a, ha, rfl⟩ := List.mem_map.mp hb
  obtain ⟨k, ⟨hk, _⟩, henc⟩ := hp a ha
  have henc' := toOption_eq_some.mp henc
  rw [hk] at henc'
  rcases encryptPathComponent_eq_ok (by decide) henc' with ⟨hnull, _⟩ | ⟨_, _, _, hout⟩
  · cases hnull
  · rw [hout]
    exact ⟨slash_notMem_encodeSegment _, encodeSegment_ne_nil _⟩

lemma gcmKeys_derive {k : Key × CipherSuite} {a : Bytes} :
    gcmKeys K ((sysOf prim).derive k a) ↔
      k.2 = .aesGcm ∧ K (derivePathComponent prim.toPathPrimitives k.1 a) := by
  simp only [gcmKeys, pathSystem]

/-- **The sealing of a run without collisions is ideal.** -/
lemma Collisionless.ideal (h : Collisionless prim I K) :
    Ideal (sysOf prim) (gcmPairs I) (gcmKeys K) Begins where
  inverse k a b hk hab := by
    have hab := toOption_eq_some.mp hab
    have hk64 : k.2 ≠ .nullBase64Url := by
      rw [hk.1]
      decide
    exact toOption_eq_some.mpr
      (decryptPathComponent_encryptPathComponent h.aesGcm h.secretBox hk64 hab)
  unique k a l d b hk hl ha hd := by
    have ha := toOption_eq_some.mp ha
    have hd := toOption_eq_some.mp hd
    rw [hk.1] at ha
    rw [hl.1] at hd
    obtain ⟨hkl, had⟩ := h.unique k.1 a l.1 d b hk.2 hl.2 ha hd
    exact ⟨Prod.ext hkl (hk.1.trans hl.1.symm), had⟩
  opens k a b l d hk ha hl hd := by
    have ha := toOption_eq_some.mp ha
    have hd := toOption_eq_some.mp hd
    rw [hk.1] at ha
    rw [hl.1] at hd
    exact h.opens k.1 a b l.1 d hk.2 ha hl.2 hd
  derive k a hk := by
    rintro ⟨l, hl⟩
    exact gcmKeys_derive.mpr ⟨hk.1, h.derive k.1 a hk.2 ⟨l.1, hl.2⟩⟩
  le_of_prefix _ _ := begins_of_prefix
  le_trans _ _ _ := Begins.trans
  prefix_of_le p q hp hq hle := by
    refine prefix_of_begins (fun b hb => genuine_segment hp hb)
      (fun d hd => (genuine_segment hq hd).1) (fun b hb d hd hbd => ?_) hle
    obtain ⟨a, ha, rfl⟩ := List.mem_map.mp hb
    obtain ⟨e, he, rfl⟩ := List.mem_map.mp hd
    obtain ⟨k, hk, hka⟩ := hp a ha
    obtain ⟨l, hl, hle⟩ := hq e he
    have hka := toOption_eq_some.mp hka
    have hle := toOption_eq_some.mp hle
    rw [hk.1] at hka
    rw [hl.1] at hle
    exact h.separate k.1 a.1 l.1 e.1 a.2 e.2 hk.2 hl.2 hka hle hbd

/-! ## The components of a run

What a call seals is found by following its path from where the grant's keys start.  The conditions
on a run are stated with it, call by call.
-/

variable (prim) in
/-- The components of a path, each with its key from a key on, are among those in `I`. -/
def Along (I : Key → Bytes → Prop) : Key → List Bytes → Prop
  | _, [] => True
  | k, a :: x => I k a ∧ Along I (derivePathComponent prim.toPathPrimitives k a) x

variable (prim) in
/-- What a grant seals for a path is among the components in `I`. -/
def Grant.SealsIn (I : Key → Bytes → Prop) (g : Grant) (bucket : String) (path : Bytes) : Prop :=
  ∀ s, storeFromEnc g.encAccess = .ok s → ∀ p k,
    (keysOf prim s bucket).Start Prod.fst (components path) p k →
      Along prim I k.1 ((components path).drop p.length)

variable (prim) in
/-- **What a call involves** is among the components in `I` and the keys in `K`. -/
def Call.Involves (I : Key → Bytes → Prop) (K : Key → Prop) (g : Grant) : Call → Prop
  | .overrideEncryptionKey _ bucket keyPrefix key =>
      K key ∧ g.SealsIn prim I bucket (utf8 (stripSlash keyPrefix))
  | .restrict _ _ _ prefixes =>
      ∀ share ∈ prefixes, g.SealsIn prim I share.bucket (utf8 (stripSlash share.keyPrefix))

variable (prim) in
/-- **An override is covered**: where it is for a whole bucket, the grant has a key for the bucket.
-/
def Call.Covered (g : Grant) : Call → Prop
  | .overrideEncryptionKey _ bucket keyPrefix _ => stripSlash keyPrefix = "" →
      ∀ s, storeFromEnc g.encAccess = .ok s →
        ∃ key, derivePathKey prim.toPathPrimitives bucket [] s = .ok key
  | .restrict _ _ _ _ => True

variable {s s' : Store} {bucket : String} {path : Bytes} {p : Path Bytes Bytes} {g g' r g₀ : Grant}
  {groups : List (List CaveatPath)}

lemma sealed_of_along {k : Key × CipherSuite} (hk : k.2 = .aesGcm)
    (h : (sysOf prim).encryptAll k (plain p) = some (cipher p)) (hin : Along prim I k.1 (plain p)) :
    Sealed (sysOf prim) (gcmPairs I) k p := by
  induction p generalizing k with
  | nil => trivial
  | cons a p ih =>
      obtain ⟨b, y, hb, hy, heq⟩ := System.encryptAll_cons.mp h
      obtain ⟨rfl, rfl⟩ := List.cons.inj heq
      refine ⟨⟨hk, hin.1⟩, hb, ih ?_ hy ?_⟩
      · rw [derive_snd]
        exact hk
      · exact hin.2

/-- **A path that a grant seals**, in the terms of a run. -/
lemma SealedAs.seals (h : SealedAs prim s bucket path p) (hs : Uniform .aesGcm s) (hp : p ≠ [])
    (hin : ∀ q k, (keysOf prim s bucket).Start Prod.fst (components path) q k →
      Along prim I k.1 ((components path).drop q.length)) :
    Seals (sysOf prim) (gcmPairs I) (keysOf prim s bucket) p := by
  obtain ⟨q, k, d, hq, hd, hcipher⟩ := h.enc hp
  have hlen := System.length_encryptAll hd
  have hplain : plain (((plain p).drop q.length).zip d) = (plain p).drop q.length :=
    List.map_fst_zip hlen.ge
  have hcipher' : cipher (((plain p).drop q.length).zip d) = d := List.map_snd_zip hlen.le
  have hpq : p = q ++ ((plain p).drop q.length).zip d := by
    refine path_ext ?_ ?_
    · rw [plain_append, hplain]
      obtain ⟨t, ht⟩ := hq.isPrefix
      rw [← ht, List.drop_left' (by simp)]
    · rw [cipher_append, hcipher']
      exact hcipher
  refine ⟨q, _, k, hpq, hq, sealed_of_along (hs.start_snd hq) ?_ ?_⟩
  · rw [hplain, hcipher']
    exact hd
  · rw [hplain, h.plain_eq]
    exact hin q k (h.plain_eq ▸ hq)

lemma SealedAs.isPath_plain (h : SealedAs prim s bucket path p) : IsPath (plain p) := by
  rw [h.plain_eq]
  exact isPath_components path

/-! ## What was sealed in the run

The weaker invariant, which is all that confinement needs: entries and prefixes are paths that were
sealed with the keys of the run.
-/

/-- The prefixes of the groups were sealed in the run, as paths. -/
def TracedGroups (prim : AccessPrimitives) (I : Key → Bytes → Prop)
    (groups : List (List CaveatPath)) : Prop :=
  ∀ group ∈ groups, ∀ path ∈ group, ∃ p, components path.encryptedPathPrefix = cipher p ∧
    Genuine (sysOf prim) (gcmPairs I) p ∧ IsPath (plain p)

lemma TracedGroups.inBucket (h : TracedGroups prim I groups) (bucket : String) :
    ∀ g ∈ bucketGroups groups bucket, ∀ y ∈ g, ∃ p, y = cipher p ∧
      Genuine (sysOf prim) (gcmPairs I) p := by
  intro g hg y hy
  obtain ⟨group, hgroup, rfl⟩ := mem_bucketGroups.mp hg
  obtain ⟨path, hpath, rfl⟩ := List.mem_map.mp hy
  obtain ⟨p, hcipher, hgen, _⟩ := h group hgroup path (List.mem_filter.mp hpath).1
  exact ⟨p, hcipher, hgen⟩

/-- **A grant whose entries and path caveats were sealed in the run.** -/
structure Tracked (prim : AccessPrimitives) (I : Key → Bytes → Prop) (K : Key → Prop) (g : Grant)
    (groups : List (List CaveatPath)) (s : Store) : Prop where
  shape : Shape prim .aesGcm g groups s
  table : ∀ bucket, Traced (sysOf prim) (gcmPairs I) (gcmKeys K) (keysOf prim s bucket)
    (bucketGroups groups bucket)
  traced : TracedGroups prim I groups

/-- **A grant with only a default key** for AES-GCM. -/
structure DefaultKeyed (prim : AccessPrimitives) (K : Key → Prop) (g : Grant) : Prop where
  entries : g.encAccess.storeEntries = []
  cipher : g.encAccess.defaultPathCipher = .aesGcm
  defaultKey : ∃ key, g.encAccess.defaultKey = some key ∧
    ∀ bucket, K (derivePathComponent prim.toPathPrimitives key (utf8 bucket))

namespace DefaultKeyed

lemma shape (h : DefaultKeyed prim K g) (hgroups : ∀ mac gs, Macaroon.parse g.apiKey = .ok mac →
    pathGroups prim ⟨mac⟩ = .ok gs → gs = groups) :
    Shape prim .aesGcm g groups g.encAccess.defaults := .start h.entries h.cipher hgroups

lemma root (h : DefaultKeyed prim K g) (bucket : String) :
    ∃ key, (keysOf prim g.encAccess.defaults bucket).root = some (key, .aesGcm) ∧ K key := by
  have hstore : storeFromEnc g.encAccess = .ok g.encAccess.defaults := by
    rw [storeFromEnc, h.entries]
    rfl
  obtain ⟨hwf, hbypass, hdefault, hcipher⟩ := storeFromEnc_spec hstore
  have huniform : Uniform .aesGcm g.encAccess.defaults := by
    refine ⟨hwf, hbypass, fun _ => hcipher.trans h.cipher, fun bucket p base hp => ?_⟩
    rw [entry_defaults] at hp
    cases hp
  obtain ⟨key, hkey, hK⟩ := h.defaultKey
  refine ⟨_, ?_, hK bucket⟩
  rw [keys_root huniform, hdefault, hkey]
  rfl

lemma not_has (bucket : String) (p : Path Bytes Bytes) :
    ¬(keysOf prim g.encAccess.defaults bucket).Has p := by
  intro hp
  obtain ⟨base, hbase⟩ := (keys_has _ bucket).mp hp
  rw [entry_defaults] at hbase
  cases hbase

end DefaultKeyed

namespace Tracked

variable {order : HashOrder} {prefixes : List SharePrefix} {paths : List CaveatPath}

lemma start (h : DefaultKeyed prim K g) (hgroups : ∀ mac gs, Macaroon.parse g.apiKey = .ok mac →
    pathGroups prim ⟨mac⟩ = .ok gs → gs = groups) (htraced : TracedGroups prim I groups) :
    Tracked prim I K g groups g.encAccess.defaults where
  shape := h.shape hgroups
  table bucket := by
    refine ⟨keys_coherent (h.shape hgroups).uniform.wf bucket, fun p hp =>
      absurd hp (DefaultKeyed.not_has bucket p), fun p k hp =>
      absurd ⟨k, hp⟩ (DefaultKeyed.not_has bucket p), fun k hk => ?_, htraced.inBucket bucket⟩
    obtain ⟨key, hroot, hK⟩ := h.root bucket
    rw [hroot, Option.some.injEq] at hk
    rw [← hk]
    exact ⟨rfl, hK⟩
  traced := htraced

/-- The path of an override was sealed in the run. -/
lemma genuine (h : Tracked prim I K g groups s) (hsealed : SealedAs prim s bucket path p)
    (hin : g.SealsIn prim I bucket path) : Genuine (sysOf prim) (gcmPairs I) p := by
  by_cases hp : p = []
  · rw [hp]
    nofun
  · exact (hsealed.seals h.shape.uniform hp (hin s h.shape.store)).genuine (h.table bucket).genuine

/-- **An override keeps a grant tracked.** -/
lemma override (h : Tracked prim I K g groups s) {keyPrefix : String} {key : Key}
    (hin : Call.Involves prim I K g (.overrideEncryptionKey order bucket keyPrefix key))
    (hcall : g.overrideEncryptionKey prim order bucket keyPrefix key = .ok g') :
    ∃ s' p, Tracked prim I K g' groups s' ∧
      Overrides prim s s' bucket (utf8 (stripSlash keyPrefix)) (key, .aesGcm) p := by
  obtain ⟨s', p, hshape, hover⟩ := h.shape.override (by decide) hcall
  refine ⟨s', p, ⟨hshape, fun bucket' => ?_, h.traced⟩, hover⟩
  by_cases hb : bucket' = bucket
  · subst hb
    rw [hover.keys_eq]
    exact (h.table bucket').insert (h.genuine hover.sealedAs hin.2) ⟨rfl, hin.1⟩ hover.agree
  · rw [hover.keys_ne bucket' hb]
    exact h.table bucket'

/-- What a restriction asks for is fresh. -/
lemma fresh (h : Tracked prim I K g groups s)
    (hr : Restricts prim order g s groups prefixes paths r)
    (hin : ∀ share ∈ prefixes,
      g.SealsIn prim I share.bucket (utf8 (stripSlash share.keyPrefix))) {path : CaveatPath}
    (hpath : path ∈ paths) :
    ∃ share ∈ prefixes, ∃ p, path.bucket = utf8 share.bucket ∧
      components path.encryptedPathPrefix = cipher p ∧
      SealedAs prim s share.bucket (utf8 (stripSlash share.keyPrefix)) p ∧
      (p = [] ∨ Seals (sysOf prim) (gcmPairs I) (keysOf prim s share.bucket) p) := by
  obtain ⟨share, hshare, p, hbucket, hcipher, hsealed⟩ :=
    hr.exists_share h.shape.uniform (by decide) hpath
  refine ⟨share, hshare, p, hbucket, hcipher, hsealed, ?_⟩
  by_cases hp : p = []
  · exact Or.inl hp
  · exact Or.inr (hsealed.seals h.shape.uniform hp (hin share hshare s h.shape.store))

lemma fresh_bucket (h : Tracked prim I K g groups s)
    (hr : Restricts prim order g s groups prefixes paths r)
    (hin : ∀ share ∈ prefixes,
      g.SealsIn prim I share.bucket (utf8 (stripSlash share.keyPrefix))) (bucket : String) :
    ∀ g' ∈ bucketGroups (asGroup paths) bucket, ∀ y ∈ g',
      Fresh (sysOf prim) (gcmPairs I) (keysOf prim s bucket) y := by
  intro g' hg' y hy
  obtain ⟨group, hgroup, rfl⟩ := mem_bucketGroups.mp hg'
  obtain ⟨path, hpath, rfl⟩ := List.mem_map.mp hy
  obtain ⟨hmem, hbucket⟩ := List.mem_filter.mp hpath
  rw [asGroup] at hgroup
  rw [List.mem_singleton.mp (List.mem_filter.mp hgroup).1] at hmem
  obtain ⟨share, _, p, hshare, hcipher, _, hp⟩ := h.fresh hr hin hmem
  obtain rfl : share.bucket = bucket :=
    utf8_injective (hshare.symm.trans (of_decide_eq_true hbucket))
  rcases hp with rfl | hp
  · exact Or.inl hcipher
  · exact Or.inr ⟨p, hcipher, hp⟩

lemma traced_append (h : Tracked prim I K g groups s)
    (hr : Restricts prim order g s groups prefixes paths r)
    (hin : ∀ share ∈ prefixes,
      g.SealsIn prim I share.bucket (utf8 (stripSlash share.keyPrefix))) :
    TracedGroups prim I (groups ++ asGroup paths) := by
  intro group hgroup path hpath
  rcases List.mem_append.mp hgroup with hgroup | hgroup
  · exact h.traced group hgroup path hpath
  · rw [asGroup] at hgroup
    rw [List.mem_singleton.mp (List.mem_filter.mp hgroup).1] at hpath
    obtain ⟨share, hshare, p, _, hcipher, hsealed, _⟩ := h.fresh hr hin hpath
    exact ⟨p, hcipher, h.genuine hsealed (hin share hshare), hsealed.isPath_plain⟩

/-- A prefix of the groups opens to a path. -/
lemma isPath_of_dec (hcoll : Collisionless prim I K) (h : Tracked prim I K g groups s)
    {gs : List (List CaveatPath)} (hgs : TracedGroups prim I gs) {y x : List Bytes}
    (hy : y ∈ retained Begins (bucketGroups gs bucket))
    (hx : (keysOf prim s bucket).Dec (sysOf prim) y x) : IsPath x := by
  obtain ⟨⟨g', hg', hyg⟩, _⟩ := mem_retained.mp hy
  obtain ⟨group, hgroup, rfl⟩ := mem_bucketGroups.mp hg'
  obtain ⟨path, hpath, rfl⟩ := List.mem_map.mp hyg
  obtain ⟨p, hcipher, hgen, hplain⟩ := hgs group hgroup path (List.mem_filter.mp hpath).1
  have htable := h.table bucket
  rw [hcipher] at hx
  rw [dec_genuine hcoll.ideal htable.genuine htable.keys htable.rootKey hgen hx]
  exact hplain

/-- **A restriction keeps a grant tracked**, and limits its tables if there is a group. -/
lemma restrict (hcoll : Collisionless prim I K) (h : Tracked prim I K g groups s)
    (hin : ∀ share ∈ prefixes, g.SealsIn prim I share.bucket (utf8 (stripSlash share.keyPrefix)))
    (hr : Restricts prim order g s groups prefixes paths r) :
    ∃ s', Tracked prim I K r (groups ++ asGroup paths) s' ∧
      (groups ++ asGroup paths = [] ∧ s' = s ∨ groups ++ asGroup paths ≠ [] ∧
        ∀ bucket, Limit (sysOf prim) Begins (keysOf prim s bucket)
          (bucketGroups (groups ++ asGroup paths) bucket) (keysOf prim s' bucket)) := by
  have htraced := h.traced_append hr hin
  obtain ⟨s', hshape, hcases⟩ := hr.shape h.shape fun bucket y hy x hx =>
    h.isPath_of_dec hcoll htraced hy hx
  refine ⟨s', ⟨hshape, fun bucket => ?_, htraced⟩, hcases⟩
  rcases hcases with ⟨hnil, rfl⟩ | ⟨_, hlimit⟩
  · obtain ⟨rfl, hnil'⟩ := List.append_eq_nil_iff.mp hnil
    rw [hnil', List.append_nil]
    exact h.table bucket
  · have hlim := hlimit bucket
    rw [bucketGroups_append] at hlim ⊢
    exact ((h.table bucket).append (h.fresh_bucket hr hin bucket)).limit hcoll.ideal hlim

end Tracked

/-! ## The invariant

The stronger one adds that the groups and the tables fit together.  An override of a whole bucket
is followed only where the bucket has a key already.
-/

/-- **A grant of a run without collisions.** -/
structure Good (prim : AccessPrimitives) (I : Key → Bytes → Prop) (K : Key → Prop) (g : Grant)
    (groups : List (List CaveatPath)) (s : Store) : Prop extends Tracked prim I K g groups s where
  inv : ∀ bucket, Inv (sysOf prim) (gcmPairs I) (gcmKeys K) Begins (keysOf prim s bucket)
    (bucketGroups groups bucket)

/-- **What a run starts from**: a default key for AES-GCM, no entries, and an API key without path
caveats. -/
structure Starts (prim : AccessPrimitives) (K : Key → Prop) (g : Grant) : Prop
    extends DefaultKeyed prim K g where
  noPaths : ∀ mac gs, Macaroon.parse g.apiKey = .ok mac → pathGroups prim ⟨mac⟩ = .ok gs → gs = []

namespace Good

variable {order : HashOrder} {prefixes : List SharePrefix} {paths : List CaveatPath}

lemma start (h : Starts prim K g) : Good prim I K g [] g.encAccess.defaults := by
  have hnot := @DefaultKeyed.not_has prim g
  refine ⟨.start h.toDefaultKeyed h.noPaths nofun, fun bucket => ⟨fun p _ hp =>
    absurd hp (hnot bucket p), fun p hp => absurd hp (hnot bucket p), fun p k hp =>
    absurd ⟨k, hp⟩ (hnot bucket p), ?_, ?_, fun p hp => absurd hp (hnot bucket p), nofun⟩⟩
  all_goals obtain ⟨key, hroot, hK⟩ := h.root bucket
  · intro k hk
    rw [hroot, Option.some.injEq] at hk
    rw [← hk]
    exact ⟨rfl, hK⟩
  · rw [hroot]
    exact ⟨fun _ => rfl, fun _ => Option.some_ne_none _⟩

/-- **An override keeps a grant good**, if it is covered. -/
lemma override (hcoll : Collisionless prim I K) (h : Good prim I K g groups s)
    {keyPrefix : String} {key : Key}
    (hin : Call.Involves prim I K g (.overrideEncryptionKey order bucket keyPrefix key))
    (hcov : Call.Covered prim g (.overrideEncryptionKey order bucket keyPrefix key))
    (hcall : g.overrideEncryptionKey prim order bucket keyPrefix key = .ok g') :
    ∃ s' p, Good prim I K g' groups s' ∧
      Overrides prim s s' bucket (utf8 (stripSlash keyPrefix)) (key, .aesGcm) p ∧
      Seals (sysOf prim) (gcmPairs I) (keysOf prim s bucket) p := by
  obtain ⟨s', p, htracked, hover⟩ := h.toTracked.override hin hcall
  have hseals : Seals (sysOf prim) (gcmPairs I) (keysOf prim s bucket) p := by
    by_cases hp : p = []
    · -- the whole bucket, for which there is a key
      subst hp
      have hnil : utf8 (stripSlash keyPrefix) = [] := components_eq_nil.mp hover.sealedAs.plain_eq.symm
      obtain ⟨k₀, hk₀⟩ := hcov (utf8_eq_nil.mp hnil) s h.shape.store
      obtain ⟨_, q, l, hq, _⟩ := (derivePathKey_eq_ok h.shape.uniform.wf).mp hk₀
      rw [components_eq_nil.mpr rfl] at hq
      have hq0 : q = [] := List.length_eq_zero_iff.mp (Nat.le_zero.mp hq.length_le)
      subst hq0
      exact ⟨[], [], l, rfl, hq, trivial⟩
    · exact hover.sealedAs.seals h.shape.uniform hp (hin.2 s h.shape.store)
  refine ⟨s', p, ⟨htracked, fun bucket' => ?_⟩, hover, hseals⟩
  by_cases hb : bucket' = bucket
  · subst hb
    rw [hover.keys_eq]
    exact (h.inv bucket').insert hcoll.ideal hseals ⟨rfl, hin.1⟩ hover.agree
  · rw [hover.keys_ne bucket' hb]
    exact h.inv bucket'

/-- **A restriction keeps a grant good**, and limits its tables if there is a group. -/
lemma restrict (hcoll : Collisionless prim I K) (h : Good prim I K g groups s)
    (hin : ∀ share ∈ prefixes, g.SealsIn prim I share.bucket (utf8 (stripSlash share.keyPrefix)))
    (hr : Restricts prim order g s groups prefixes paths r) :
    ∃ s', Good prim I K r (groups ++ asGroup paths) s' ∧
      (groups ++ asGroup paths = [] ∧ s' = s ∨ groups ++ asGroup paths ≠ [] ∧
        ∀ bucket, Limit (sysOf prim) Begins (keysOf prim s bucket)
          (bucketGroups (groups ++ asGroup paths) bucket) (keysOf prim s' bucket)) := by
  obtain ⟨s', htracked, hcases⟩ := h.toTracked.restrict hcoll hin hr
  refine ⟨s', ⟨htracked, fun bucket => ?_⟩, hcases⟩
  rcases hcases with ⟨hnil, rfl⟩ | ⟨hne, hlimit⟩
  · obtain ⟨rfl, hnil'⟩ := List.append_eq_nil_iff.mp hnil
    rw [hnil', List.append_nil]
    exact h.inv bucket
  · have hlim := hlimit bucket
    rw [bucketGroups_append] at hlim ⊢
    refine (h.inv bucket).limit hcoll.ideal (h.fresh_bucket hr hin bucket) hlim ?_
    rw [← bucketGroups_append, bucketGroups, Ne, List.map_eq_nil_iff]
    exact hne

/-- **Every grant of a run is good.** -/
theorem of_reached (hprim : prim.Lawful) (hcoll : Collisionless prim I K) {P : Grant → Call → Prop}
    (hP : ∀ g call, P g call → call.Involves prim I K g ∧ call.Covered prim g)
    (hstart : Starts prim K g₀) (hrun : Grant.Reached prim P g₀ g) :
    ∃ groups s, Good prim I K g groups s := by
  induction hrun with
  | refl => exact ⟨[], _, start hstart⟩
  | @call g g' call hrun hcall hg ih =>
      obtain ⟨groups, s, hgood⟩ := ih
      obtain ⟨hin, hcov⟩ := hP g call hcall
      cases call with
      | overrideEncryptionKey order bucket keyPrefix key =>
          obtain ⟨s', _, hgood', _, _⟩ := hgood.override hcoll hin hcov hg
          exact ⟨groups, s', hgood'⟩
      | restrict order random permission prefixes =>
          obtain ⟨paths, hr⟩ := hgood.shape.restricts hprim hg
          obtain ⟨s', hgood', _⟩ := hgood.restrict hcoll hin hr
          exact ⟨_, s', hgood'⟩

end Good

/-! ## A run of the sample primitives

The copying cipher has collisions only between components that extend each other, and whether a
list has any can be computed.
-/

/-- What the copying cipher sealed opens to its plaintext under every key, if at all. -/
lemma copyAead_opens {lay : Layout} {key key' : Key} {nonce nonce' data out d : Bytes}
    (h : sealOnce copyAead lay key nonce data = .ok out)
    (h' : openOnce copyAead lay key' nonce' out = .ok d) : d = data := by
  cases h
  have htag : (key.toList.take 16).length = tagSize := by simp [tagSize]
  obtain ⟨hlong, hsplit⟩ := split_layout lay (c := data) htag
  rw [openOnce, if_neg hlong] at h'
  dsimp only at hsplit h'
  rw [hsplit] at h'
  dsimp only [copyAead, textAead] at h'
  split_ifs at h'
  cases h'
  rfl

lemma decrypt_copy {path : PathPrimitives} (hpath : path.aesGcm = copyAead) {a text d : Bytes}
    {k l : Key} {nonce nonce' : Nonce} (h : encrypt path a .aesGcm k nonce = .ok text)
    (h' : decrypt path text .aesGcm l nonce' = .ok d) : d = a := by
  rw [encrypt] at h
  rw [decrypt] at h'
  by_cases ha : a = []
  · rw [if_pos ha] at h
    cases h
    rw [if_pos rfl] at h'
    cases h'
    exact ha.symm
  · rw [if_neg ha, if_neg (by decide), if_pos rfl, hpath] at h
    have hne := (openOnce_sealOnce copyAead_lawful h).1
    rw [if_neg hne, if_neg (by decide), if_pos rfl, hpath] at h'
    exact copyAead_opens h h'

lemma decryptPathComponent_copy {path : PathPrimitives} (hpath : path.aesGcm = copyAead)
    {a b d : Bytes} {k l : Key} (h : encryptPathComponent path a .aesGcm k = .ok b)
    (h' : decryptPathComponent path b .aesGcm l = .ok d) : d = a := by
  rcases encryptPathComponent_eq_ok (by decide) h with ⟨hnull, _⟩ | ⟨_, text, htext, hout⟩
  · cases hnull
  · have hlen : ((deriveNonce path (derivePathComponent path k a)).toList.take
        (nonceSize .aesGcm)).length = nonceSize .aesGcm := by
      rw [List.length_take, Vector.length_toList]
      exact Nat.min_eq_left (nonceSize_le .aesGcm)
    rw [hout, decryptPathComponent, if_neg (encodeSegment_ne_nil _), if_neg (by decide),
      if_neg (by decide), decodeSegment_encodeSegment, Fallible.ok_bind, List.drop_left' hlen] at h'
    split_ifs at h'
    exact decrypt_copy hpath htext h'

/-- Does the ciphertext of a component begin with that of another one? -/
def clash (prim : AccessPrimitives) (x y : Key × Bytes) : Bool :=
  match encryptPathComponent prim.toPathPrimitives x.2 .aesGcm x.1,
    encryptPathComponent prim.toPathPrimitives y.2 .aesGcm y.1 with
  | .ok b, .ok e => b.isPrefixOf e
  | _, _ => false

/-- The copying cipher has no collisions among components that do not clash. -/
lemma collisionless_of_list (haes : prim.aesGcm = copyAead) (hbox : prim.secretBox = copyAead)
    {l : List (Key × Bytes)} (h : ∀ x ∈ l, ∀ y ∈ l, clash prim x y = true → x = y) :
    Collisionless prim (fun k a => (k, a) ∈ l) fun _ => True := by
  have hclash : ∀ k a k' a' b e, (k, a) ∈ l → (k', a') ∈ l →
      encryptPathComponent prim.toPathPrimitives a .aesGcm k = .ok b →
      encryptPathComponent prim.toPathPrimitives a' .aesGcm k' = .ok e → b <+: e →
      (k, a) = (k', a') := by
    intro k a k' a' b e hk hk' hb he hbe
    refine h _ hk _ hk' ?_
    rw [clash]
    simp only [hb, he]
    exact List.isPrefixOf_iff_prefix.mpr hbe
  refine ⟨haes ▸ copyAead_lawful, hbox ▸ copyAead_lawful, ?_, ?_, ?_, fun _ _ _ _ => trivial⟩
  · intro k a k' a' b hk hk' hb he
    exact Prod.mk.inj (hclash k a k' a' b b hk hk' hb he (List.prefix_refl b))
  · intro k a k' a' b e hk hk' hb he hbe
    obtain ⟨rfl, rfl⟩ := Prod.mk.inj (hclash k a k' a' b e hk hk' hb he hbe)
    rw [hb, Except.ok.injEq] at he
    exact he
  · intro k a b k' d _ hb _ hd
    exact decryptPathComponent_copy haes hb hd

/-- The components of a path, each with its key from a key on. -/
def pairsFrom (prim : AccessPrimitives) : Key → List Bytes → List (Key × Bytes)
  | _, [] => []
  | k, a :: x => (k, a) :: pairsFrom prim (derivePathComponent prim.toPathPrimitives k a) x

lemma along_of_pairsFrom {k : Key} {x : List Bytes} (h : ∀ y ∈ pairsFrom prim k x, I y.1 y.2) :
    Along prim I k x := by
  induction x generalizing k with
  | nil => trivial
  | cons a x ih =>
      exact ⟨h (k, a) List.mem_cons_self, ih fun y hy => h y (List.mem_cons_of_mem _ hy)⟩

/-- The components that a grant seals for a path, each with its key. -/
def Grant.pairs (prim : AccessPrimitives) (g : Grant) (bucket : String) (path : Bytes) :
    List (Key × Bytes) :=
  match storeFromEnc g.encAccess with
  | .error _ => []
  | .ok s =>
      match (s.lookupUnencrypted bucket path).base with
      | none => []
      | some base => pairsFrom prim (baseKey prim.toPathPrimitives bucket base)
          (s.lookupUnencrypted bucket path).remaining

lemma sealsIn_of_pairs (h : ∀ y ∈ g.pairs prim bucket path, I y.1 y.2) :
    g.SealsIn prim I bucket path := by
  intro s hs p k hp
  have hwf := (storeFromEnc_spec hs).1
  rw [Grant.pairs, hs] at h
  obtain ⟨base, hstart, rfl⟩ := Table.start_map.mp hp
  rcases Store.lookup_spec hwf bucket path true with ⟨q, b, hq, hbase, hrem⟩ | ⟨hnone, _⟩
  · obtain ⟨rfl, rfl⟩ := hstart.unique (hwf.coherent bucket) side_fst hq
    simp only [Store.lookupUnencrypted, hbase, hrem] at h
    exact along_of_pairsFrom h
  · exact absurd hstart (hnone p base)

/-- The one component that the sample run seals: `a`, with the key of the bucket `b`. -/
def samplePairs : List (Key × Bytes) := [(byteKey 206, utf8 "a")]

lemma collisionless_sample :
    Collisionless bytePrimitives (fun k a => (k, a) ∈ samplePairs) fun _ => True :=
  collisionless_of_list rfl rfl (by decide +kernel)

lemma starts_sample : Starts bytePrimitives (fun _ => True) defaultGrant where
  entries := rfl
  cipher := rfl
  defaultKey := ⟨_, rfl, fun _ => trivial⟩
  noPaths mac gs hmac hgs := by
    obtain ⟨rfl, _⟩ := Macaroon.eq_of_parse_serialize hmac
    cases hgs
    rfl

lemma sealsIn_sample : defaultGrant.SealsIn bytePrimitives (fun k a => (k, a) ∈ samplePairs) "b"
    (utf8 (stripSlash "a/")) := sealsIn_of_pairs (by decide +kernel)

end Storj.Access
