import StorjUplink.Access.Reload

/-!
# Where a share reaches

A share is limited by the bytes of encrypted prefixes, and its user means plaintext prefixes.  With
AES-GCM the two agree, since no ciphertext of a run begins another one (`Tracked.components`).
Without encryption the bytes of one path may begin in the middle of a component of another one, so
the grant must not have such a path (`Unsealed.components`).  A prefix that is one slash is stripped
to nothing, and shares the whole bucket.

Both conditions of `share_confined` are on what was asked for and on the grant before the share.  A
prefix that is a single slash has its trailing slash stripped like any other, and what is left is
the empty prefix, which the code takes for the whole bucket.  A prefix of unsealed bytes is
compared with unsealed bytes, and the comparison does not stop at slashes, so `foo` begins
`foobar`.  Outside of these two kinds the statement holds in every run, whatever was overridden and
shared before, and the two failures are shown at the end with a grant each.

The invariant differs by the cipher.  With AES-GCM it says that everything the grant has was sealed
in the run (`Tracked`); without encryption that every path is its own ciphertext (`Unsealed`).
-/

namespace Storj.Access

open Storj.Enc KeyTree Storj.Sharing

/-! ## Paths under a prefix

What a user means by a prefix is said on plaintext paths, by components and with the completed
slash.  A store is confined when all of its entries are below such a prefix and there is no key for
anything else.
-/

/-- A prefix, completed with a trailing slash. -/
def completed (keyPrefix : String) : String :=
  if endsWithSlash keyPrefix then keyPrefix else keyPrefix ++ "/"

/-- **A path lies under a share prefix**: the prefix is empty, the path is the prefix without its
trailing slash, or starts with the prefix completed with one. -/
def SharePrefix.Under (share : SharePrefix) (bucket path : String) : Prop :=
  share.bucket = bucket ∧ (share.keyPrefix = "" ∨ path = stripSlash share.keyPrefix ∨
    utf8 (completed share.keyPrefix) <+: utf8 path)

instance (share : SharePrefix) (bucket path : String) : Decidable (share.Under bucket path) :=
  inferInstanceAs (Decidable (_ ∧ (_ ∨ _ ∨ _)))

/-- What ends with a slash is what is stripped to, and the slash. -/
lemma eq_stripSlash_append {s : String} (h : endsWithSlash s = true) : s = stripSlash s ++ "/" := by
  rw [stripSlash, if_pos h]
  rw [endsWithSlash, beq_iff_eq, List.getLast?_eq_some_iff] at h
  obtain ⟨l, hl⟩ := h
  conv_lhs => rw [← String.ofList_toList (s := s), hl, String.ofList_append]
  rw [hl, List.dropLast_concat]

lemma utf8_completed (s : String) : utf8 (completed s) = utf8 (stripSlash s) ++ [slash] := by
  have hslash : utf8 "/" = [slash] := by decide
  have hcompleted : completed s = stripSlash s ++ "/" := by
    rw [completed]
    split_ifs with h
    · exact eq_stripSlash_append h
    · rw [stripSlash, if_neg h]
  rw [hcompleted, utf8_append, hslash]

lemma eq_slash_of_stripSlash {s : String} (h : stripSlash s = "") : s = "" ∨ s = "/" := by
  by_cases hs : endsWithSlash s = true
  · rw [eq_stripSlash_append hs, h]
    exact Or.inr rfl
  · rw [stripSlash, if_neg hs] at h
    exact Or.inl h

/-- Components begin with those of another path only at a slash. -/
lemma prefix_of_components {u q : Bytes} (hu : u ≠ []) (h : components u <+: components q) :
    q = u ∨ u ++ [slash] <+: q := by
  obtain ⟨t, ht⟩ := h
  rw [← joinComponents_components q, ← ht]
  by_cases hnil : t = []
  · rw [hnil, List.append_nil, joinComponents_components]
    exact Or.inl rfl
  · rw [joinComponents_append (components_eq_nil.not.mpr hu) hnil, joinComponents_components]
    refine Or.inr ⟨joinComponents t, ?_⟩
    rw [List.append_assoc]
    rfl

/-- **Components under a prefix**, unless the prefix is one slash. -/
lemma under_of_components {share : SharePrefix} {bucket path : String}
    (hbucket : share.bucket = bucket) (hslash : share.keyPrefix ≠ "/")
    (h : components (utf8 (stripSlash share.keyPrefix)) <+: components (utf8 path)) :
    share.Under bucket path := by
  refine ⟨hbucket, ?_⟩
  by_cases hnil : stripSlash share.keyPrefix = ""
  · exact Or.inl ((eq_slash_of_stripSlash hnil).resolve_right hslash)
  · right
    rcases prefix_of_components (utf8_eq_nil.not.mpr hnil) h with heq | hpre
    · exact Or.inl (utf8_injective heq)
    · rw [utf8_completed]
      exact Or.inr hpre

variable {prim : AccessPrimitives} {I : Key → Bytes → Prop} {K : Key → Prop} {g g' r g₀ : Grant}
  {groups : List (List CaveatPath)} {s s' t : Store} {order : HashOrder} {bucket : String}
  {random : Except String (Vector UInt8 4)} {permission : Permission}
  {prefixes : List SharePrefix} {paths : List CaveatPath} {p : Path Bytes Bytes}

/-- **A store reaches only below share prefixes**: it has no default key, and every entry begins
with the components of a prefix. -/
def Within (prim : AccessPrimitives) (prefixes : List SharePrefix) (s : Store) : Prop :=
  ∀ bucket, (keysOf prim s bucket).root = none ∧ ∀ p, (keysOf prim s bucket).Has p →
    ∃ share ∈ prefixes, share.bucket = bucket ∧
      components (utf8 (stripSlash share.keyPrefix)) <+: plain p

/-- What such a store seals lies under a prefix. -/
lemma Within.under (h : Within prim prefixes s) (hs : s.WF)
    (hslash : ∀ share ∈ prefixes, share.keyPrefix ≠ "/") {path : String} (hpath : path ≠ "")
    {out : Bytes} (hout : encryptPath prim.toPathPrimitives bucket path s = .ok out) :
    ∃ share ∈ prefixes, share.Under bucket path := by
  rw [encryptPath] at hout
  obtain ⟨y, ⟨p, k, c, hp, _, _⟩, _⟩ :=
    (encryptPathBytes_eq_ok hs (utf8_eq_nil.not.mpr hpath)).mp hout
  obtain ⟨hroot, hentry⟩ := h bucket
  cases hp with
  | root hk _ =>
      rw [hroot] at hk
      cases hk
  | entry hp hx _ =>
      obtain ⟨share, hshare, hbucket, hpre⟩ := hentry p ⟨k, hp⟩
      exact ⟨share, hshare, under_of_components hbucket (hslash share hshare) (hpre.trans hx)⟩

/-! ## Sealed paths

Bytes of a sealed path that begin those of another one end at a slash, because no sealed component
begins another.  So the byte prefixes of the caveats are prefixes by components.
-/

/-- **A share of a tracked grant** reaches only below what was asked for. -/
lemma Tracked.within (hcoll : Collisionless prim I K) (h : Tracked prim I K g groups s)
    (hin : ∀ share ∈ prefixes, g.SealsIn prim I share.bucket (utf8 (stripSlash share.keyPrefix)))
    (hr : Restricts prim order g s groups prefixes paths r) (hne : prefixes ≠ [])
    (hs' : storeFromEnc r.encAccess = .ok s') : Within prim prefixes s' := by
  obtain ⟨s'', htracked, hcases⟩ := h.restrict hcoll hin hr
  obtain rfl : s' = s'' := by
    rw [htracked.shape.store, Except.ok.injEq] at hs'
    exact hs'.symm
  have hgroup := hr.asGroup_eq hne
  rcases hcases with ⟨hnil, _⟩ | ⟨_, hlimit⟩
  · rw [hgroup] at hnil
    exact absurd (List.append_eq_nil_iff.mp hnil).2 (List.cons_ne_nil _ _)
  · intro bucket
    have hlim := hlimit bucket
    refine ⟨hlim.root_eq, fun p hp => ?_⟩
    have htable := (h.table bucket).append (h.fresh_bucket hr hin bucket)
    rw [← bucketGroups_append] at htable
    have hmem : (paths.filter fun path => path.bucket = utf8 bucket).map (fun path =>
        components path.encryptedPathPrefix) ∈ bucketGroups (groups ++ asGroup paths) bucket :=
      mem_bucketGroups.mpr ⟨paths, by rw [hgroup]; simp, rfl⟩
    obtain ⟨q, hq, hgen, hqp⟩ := htable.confined hcoll.ideal hlim hp hmem
    obtain ⟨path, hpath, hcipher⟩ := List.mem_map.mp hq
    obtain ⟨hpath, hbucket⟩ := List.mem_filter.mp hpath
    obtain ⟨share, hshare, q', hbucket', hcipher', hsealed, _⟩ := h.fresh hr hin hpath
    refine ⟨share, hshare, utf8_injective (hbucket'.symm.trans (of_decide_eq_true hbucket)), ?_⟩
    obtain rfl : q' = q := hcoll.ideal.eq_of_cipher (h.genuine hsealed (hin share hshare)) hgen
      (hcipher'.symm.trans hcipher)
    rw [← hsealed.plain_eq]
    exact hqp.map _

/-- What a call seals with AES-GCM was sealed in the run. -/
def Call.Seals (prim : AccessPrimitives) (I : Key → Bytes → Prop) (K : Key → Prop) (g : Grant)
    (call : Call) : Prop :=
  g.encAccess.defaultPathCipher = .aesGcm → call.Involves prim I K g

/-- **Every grant of a run is tracked.** -/
theorem Tracked.of_reached (hprim : prim.Lawful) (hcoll : Collisionless prim I K)
    (hstart : Tracked prim I K g₀ groups s)
    (hrun : Grant.Reached prim (fun g call => call.Seals prim I K g) g₀ g) :
    ∃ groups s, Tracked prim I K g groups s := by
  induction hrun with
  | refl => exact ⟨groups, s, hstart⟩
  | @call g g' call hrun hcall hg ih =>
      obtain ⟨groups, s, htracked⟩ := ih
      have hin := hcall htracked.shape.cipher
      cases call with
      | overrideEncryptionKey order bucket keyPrefix key =>
          obtain ⟨s', _, htracked', _⟩ := htracked.override hin hg
          exact ⟨groups, s', htracked'⟩
      | restrict order random permission prefixes =>
          obtain ⟨paths, hr⟩ := htracked.shape.restricts hprim hg
          obtain ⟨s', htracked', _⟩ := htracked.restrict hcoll hin hr
          exact ⟨_, s', htracked'⟩

/-! ## Paths that are not sealed

The null cipher writes a component as it is.  What a byte prefix begins then depends on the other
paths of the grant, and alignment says that it begins nothing in the middle.
-/

lemma encryptAll_null {k : Key × CipherSuite} (hk : k.2 = .null) (x : List Bytes) :
    (sysOf prim).encryptAll k x = some x := by
  induction x generalizing k with
  | nil => rfl
  | cons a x ih =>
      refine System.encryptAll_cons.mpr ⟨a, x, ?_, ih (by rw [derive_snd]; exact hk), rfl⟩
      refine toOption_eq_some.mpr ?_
      rw [hk, encryptPathComponent, if_pos rfl]

lemma decryptAll_null {k : Key × CipherSuite} (hk : k.2 = .null) (y : List Bytes) :
    (sysOf prim).decryptAll k y = some y := by
  induction y generalizing k with
  | nil => rfl
  | cons b y ih =>
      refine System.decryptAll_cons.mpr ⟨b, y, ?_, ih (by rw [derive_snd]; exact hk), rfl⟩
      refine toOption_eq_some.mpr ?_
      rw [hk, decryptPathComponent]
      by_cases hb : b = []
      · rw [if_pos hb, hb]
      · rw [if_neg hb, if_pos rfl]

/-- **A grant without path encryption**: the entries are as their plaintext. -/
structure Unsealed (prim : AccessPrimitives) (g : Grant) (groups : List (List CaveatPath))
    (s : Store) : Prop where
  shape : Shape prim .null g groups s
  same : ∀ bucket p, (keysOf prim s bucket).Has p → plain p = cipher p

namespace Unsealed

lemma start (hentries : g.encAccess.storeEntries = []) (hc : g.encAccess.defaultPathCipher = .null)
    (hgroups : ∀ mac gs, Macaroon.parse g.apiKey = .ok mac → pathGroups prim ⟨mac⟩ = .ok gs →
      gs = groups) : Unsealed prim g groups g.encAccess.defaults where
  shape := .start hentries hc hgroups
  same bucket p hp := absurd hp (DefaultKeyed.not_has bucket p)

lemma same_of_start (h : Unsealed prim g groups s) {f : Bytes × Bytes → Bytes} {x : List Bytes}
    {k : Key × CipherSuite} (hp : (keysOf prim s bucket).Start f x p k) : plain p = cipher p := by
  cases hp with
  | entry hpk _ _ => exact h.same bucket p ⟨k, hpk⟩
  | root _ _ => rfl

/-- Sealing changes nothing. -/
lemma enc (h : Unsealed prim g groups s) {x y : List Bytes}
    (hxy : (keysOf prim s bucket).Enc (sysOf prim) x y) : x = y := by
  obtain ⟨p, k, c, hp, hc, rfl⟩ := hxy
  rw [encryptAll_null (h.shape.uniform.start_snd hp), Option.some.injEq] at hc
  obtain ⟨t, rfl⟩ := hp.isPrefix
  rw [← hc, ← h.same_of_start hp, List.drop_left' (by simp)]

/-- Opening changes nothing. -/
lemma dec (h : Unsealed prim g groups s) {x y : List Bytes}
    (hyx : (keysOf prim s bucket).Dec (sysOf prim) y x) : x = y := by
  obtain ⟨p, k, c, hp, hc, rfl⟩ := hyx
  rw [decryptAll_null (h.shape.uniform.start_snd hp), Option.some.injEq] at hc
  obtain ⟨t, rfl⟩ := hp.isPrefix
  rw [← hc, h.same_of_start hp, List.drop_left' (by simp)]

lemma same_of_sealedAs (h : Unsealed prim g groups s) {path : Bytes}
    (hsealed : SealedAs prim s bucket path p) : plain p = cipher p := by
  by_cases hp : p = []
  · rw [hp]
    rfl
  · exact h.enc (hsealed.enc hp)

lemma override (h : Unsealed prim g groups s) {keyPrefix : String} {key : Key}
    (hcall : g.overrideEncryptionKey prim order bucket keyPrefix key = .ok g') :
    ∃ s', Unsealed prim g' groups s' := by
  obtain ⟨s', p, hshape, hover⟩ := h.shape.override (by decide) hcall
  refine ⟨s', hshape, fun bucket' q hq => ?_⟩
  by_cases hb : bucket' = bucket
  · subst hb
    rw [hover.keys_eq] at hq
    rcases has_insert.mp hq with rfl | hq
    · exact h.same_of_sealedAs hover.sealedAs
    · exact h.same bucket' q hq
  · rw [hover.keys_ne bucket' hb] at hq
    exact h.same bucket' q hq

lemma restrict (h : Unsealed prim g groups s)
    (hr : Restricts prim order g s groups prefixes paths r) :
    ∃ s', Unsealed prim r (groups ++ asGroup paths) s' ∧
      (groups ++ asGroup paths = [] ∧ s' = s ∨ groups ++ asGroup paths ≠ [] ∧
        ∀ bucket, Limit (sysOf prim) Begins (keysOf prim s bucket)
          (bucketGroups (groups ++ asGroup paths) bucket) (keysOf prim s' bucket)) := by
  obtain ⟨s', hshape, hcases⟩ := hr.shape h.shape fun bucket y hy x hx => by
    obtain ⟨⟨g', hg', hyg⟩, _⟩ := mem_retained.mp hy
    obtain ⟨group, _, rfl⟩ := mem_bucketGroups.mp hg'
    obtain ⟨path, _, rfl⟩ := List.mem_map.mp hyg
    rw [h.dec hx]
    exact isPath_components _
  refine ⟨s', ⟨hshape, fun bucket p hp => ?_⟩, hcases⟩
  rcases hcases with ⟨_, rfl⟩ | ⟨_, hlimit⟩
  · exact h.same bucket p hp
  · rcases (hlimit bucket).has_iff.mp hp with ⟨hp, _⟩ | hp
    · exact h.same bucket p hp
    · exact h.dec (mem_added hp).2

/-- **Every grant of a run without path encryption.** -/
theorem of_reached (hprim : prim.Lawful) (hstart : Unsealed prim g₀ groups s)
    {P : Grant → Call → Prop} (hrun : Grant.Reached prim P g₀ g) :
    ∃ groups s, Unsealed prim g groups s := by
  induction hrun with
  | refl => exact ⟨groups, s, hstart⟩
  | @call g g' call hrun _ hg ih =>
      obtain ⟨groups, s, hunsealed⟩ := ih
      cases call with
      | overrideEncryptionKey order bucket keyPrefix key =>
          obtain ⟨s', hunsealed'⟩ := hunsealed.override hg
          exact ⟨groups, s', hunsealed'⟩
      | restrict order random permission prefixes =>
          obtain ⟨paths, hr⟩ := hunsealed.shape.restricts hprim hg
          obtain ⟨s', hunsealed', _⟩ := hunsealed.restrict hr
          exact ⟨_, s', hunsealed'⟩

end Unsealed

/-- The encrypted paths that a grant has in a bucket: those of its entries, and the prefixes of its
path caveats. -/
def Grant.HasPath (prim : AccessPrimitives) (g : Grant) (bucket : String) (path : Bytes) : Prop :=
  (∃ e ∈ g.encAccess.storeEntries, e.bucket = utf8 bucket ∧ e.encryptedPath = path) ∨
    ∃ mac groups, Macaroon.parse g.apiKey = .ok mac ∧ pathGroups prim ⟨mac⟩ = .ok groups ∧
      ∃ group ∈ groups, ∃ p ∈ group, p.bucket = utf8 bucket ∧ p.encryptedPathPrefix = path

/-- **The prefixes end where components end**: a path of the grant that begins with the bytes of a
prefix begins with its components. -/
def Grant.Aligned (prim : AccessPrimitives) (g : Grant) (prefixes : List SharePrefix) : Prop :=
  ∀ share ∈ prefixes, ∀ path, g.HasPath prim share.bucket path →
    utf8 (stripSlash share.keyPrefix) <+: path →
      components (utf8 (stripSlash share.keyPrefix)) <+: components path

/-- **A share of a grant without path encryption** reaches only below what was asked for, if the
prefixes are aligned. -/
lemma Unsealed.within (h : Unsealed prim g groups s)
    (hr : Restricts prim order g s groups prefixes paths r) (hne : prefixes ≠ [])
    (haligned : g.Aligned prim prefixes) (hs' : storeFromEnc r.encAccess = .ok s') :
    Within prim prefixes s' := by
  obtain ⟨s'', hunsealed, hcases⟩ := h.restrict hr
  obtain rfl : s' = s'' := by
    rw [hunsealed.shape.store, Except.ok.injEq] at hs'
    exact hs'.symm
  have hgroup := hr.asGroup_eq hne
  -- a prefix that was asked for is its own ciphertext
  have hasked : ∀ path ∈ paths, ∃ share ∈ prefixes, path.bucket = utf8 share.bucket ∧
      components path.encryptedPathPrefix = components (utf8 (stripSlash share.keyPrefix)) := by
    intro path hpath
    obtain ⟨share, hshare, q, hbucket, hcipher, hsealed⟩ :=
      hr.exists_share h.shape.uniform (by decide) hpath
    exact ⟨share, hshare, hbucket, by rw [hcipher, ← h.same_of_sealedAs hsealed, hsealed.plain_eq]⟩
  rcases hcases with ⟨hnil, _⟩ | ⟨_, hlimit⟩
  · rw [hgroup] at hnil
    exact absurd (List.append_eq_nil_iff.mp hnil).2 (List.cons_ne_nil _ _)
  · intro bucket
    have hlim := hlimit bucket
    rw [hgroup] at hlim
    refine ⟨hlim.root_eq, fun p hp => ?_⟩
    have hsame : plain p = cipher p := hunsealed.same bucket p hp
    -- the entry begins with the bytes of a prefix
    obtain ⟨share, hshare, hbucket, hbegins⟩ : ∃ share ∈ prefixes, share.bucket = bucket ∧
        utf8 (stripSlash share.keyPrefix) <+: joinComponents (cipher p) := by
      obtain ⟨z, hz, hle⟩ := hlim.allowed hp _ (mem_bucketGroups.mpr ⟨paths, by simp, rfl⟩)
      obtain ⟨path, hpath, rfl⟩ := List.mem_map.mp hz
      obtain ⟨hpath, hbucket⟩ := List.mem_filter.mp hpath
      obtain ⟨share, hshare, hbucket', hcomponents⟩ := hasked path hpath
      refine ⟨share, hshare, utf8_injective (hbucket'.symm.trans (of_decide_eq_true hbucket)), ?_⟩
      rw [Begins, hcomponents, joinComponents_components] at hle
      exact hle
    subst hbucket
    have hpath : ∀ path, g.HasPath prim share.bucket path → components path = cipher p →
        ∃ share' ∈ prefixes, share'.bucket = share.bucket ∧
          components (utf8 (stripSlash share'.keyPrefix)) <+: plain p := by
      intro path hhas heq
      refine ⟨share, hshare, rfl, ?_⟩
      rw [hsame, ← heq]
      refine haligned share hshare path hhas ?_
      rw [← heq, joinComponents_components] at hbegins
      exact hbegins
    rcases hlim.has_iff.mp hp with ⟨hold, _⟩ | hadded
    · -- an entry that was kept
      obtain ⟨base, hbase⟩ := (keys_has s share.bucket).mp hold
      obtain ⟨t, order₀, ht, hentry, hlist⟩ := h.shape.walk
      refine hpath base.encrypted (Or.inl ⟨entryOf (share.bucket, base), ?_, rfl, rfl⟩)
        (h.shape.uniform.wf.placed share.bucket p base hbase).2.1.symm
      rw [hlist]
      exact List.mem_map.mpr ⟨_, (Store.mem_iterate ht).mpr ⟨p, (hentry _ p).trans hbase⟩, rfl⟩
    · -- a prefix of the key, an old one or one that was asked for
      obtain ⟨⟨g', hg', hmem⟩, _⟩ := mem_retained.mp (mem_added hadded).1
      obtain ⟨group, hgroup', rfl⟩ := mem_bucketGroups.mp hg'
      obtain ⟨path, hmem, hcipher⟩ := List.mem_map.mp hmem
      obtain ⟨hmem, hbucket⟩ := List.mem_filter.mp hmem
      rcases List.mem_append.mp hgroup' with hgroup' | hgroup'
      · obtain ⟨mac, hmac, hgroups⟩ := hr.old
        exact hpath path.encryptedPathPrefix (Or.inr ⟨mac, groups, hmac, hgroups, group, hgroup',
          path, hmem, of_decide_eq_true hbucket, rfl⟩) hcipher
      · rw [List.mem_singleton.mp hgroup'] at hmem
        obtain ⟨share', hshare', hbucket', hcomponents⟩ := hasked path hmem
        refine ⟨share', hshare',
          utf8_injective (hbucket'.symm.trans (of_decide_eq_true hbucket)), ?_⟩
        rw [hsame, ← hcipher, hcomponents]

/-! ## Every run

The condition on a call says what has to be known of it; the conclusion is about the last share of
the run.
-/

/-- **What a run starts from**: a default key for AES-GCM or for no encryption, and no entries.  The
path caveats of the API key, if there are any, were sealed as well. -/
structure OnlyDefault (prim : AccessPrimitives) (I : Key → Bytes → Prop) (K : Key → Prop)
    (g : Grant) : Prop where
  entries : g.encAccess.storeEntries = []
  cipher : g.encAccess.defaultPathCipher = .aesGcm ∨ g.encAccess.defaultPathCipher = .null
  defaultKey : ∃ key, g.encAccess.defaultKey = some key ∧
    ∀ bucket, K (derivePathComponent prim.toPathPrimitives key (utf8 bucket))
  traced : g.encAccess.defaultPathCipher = .aesGcm → ∀ mac gs, Macaroon.parse g.apiKey = .ok mac →
    pathGroups prim ⟨mac⟩ = .ok gs → TracedGroups prim I gs

/-- The groups of an API key, or none if it cannot be read. -/
lemma exists_groups {Q : List (List CaveatPath) → Prop} (hnil : Q [])
    (h : ∀ mac gs, Macaroon.parse g.apiKey = .ok mac → pathGroups prim ⟨mac⟩ = .ok gs → Q gs) :
    ∃ groups, (∀ mac gs, Macaroon.parse g.apiKey = .ok mac → pathGroups prim ⟨mac⟩ = .ok gs →
      gs = groups) ∧ Q groups := by
  by_cases hread : ∃ mac gs, Macaroon.parse g.apiKey = .ok mac ∧ pathGroups prim ⟨mac⟩ = .ok gs
  · obtain ⟨mac, gs, hmac, hgs⟩ := hread
    refine ⟨gs, fun mac' gs' hmac' hgs' => ?_, h mac gs hmac hgs⟩
    rw [hmac, Except.ok.injEq] at hmac'
    subst hmac'
    rw [hgs, Except.ok.injEq] at hgs'
    exact hgs'.symm
  · exact ⟨[], fun mac gs hmac hgs => absurd ⟨mac, gs, hmac, hgs⟩ hread, hnil⟩

/-- **A share is confined to what was asked for**: in every run from a default key, what a share to
prefixes can seal lies under one of them, if none is a single slash and, without path encryption, if
they end where the components of the grant's paths end. -/
theorem share_confined (hprim : prim.Lawful) (hcoll : Collisionless prim I K)
    (hstart : OnlyDefault prim I K g₀)
    (hrun : Grant.Reached prim (fun g call => call.Seals prim I K g) g₀ g)
    (hin : Call.Seals prim I K g (.restrict order random permission prefixes))
    (hcall : g.restrict prim order random permission prefixes = .ok r) (hne : prefixes ≠ [])
    (hslash : ∀ share ∈ prefixes, share.keyPrefix ≠ "/")
    (haligned : g.encAccess.defaultPathCipher = .null → g.Aligned prim prefixes) :
    ∃ t, storeFromEnc r.encAccess = .ok t ∧ ∀ bucket path out, path ≠ "" →
      encryptPath prim.toPathPrimitives bucket path t = .ok out →
        ∃ share ∈ prefixes, share.Under bucket path := by
  suffices h : ∃ t, storeFromEnc r.encAccess = .ok t ∧ Within prim prefixes t by
    obtain ⟨t, ht, hwithin⟩ := h
    exact ⟨t, ht, fun bucket path out hpath hout =>
      hwithin.under (storeFromEnc_spec ht).1 hslash hpath hout⟩
  rcases hstart.cipher with hcipher | hcipher
  · obtain ⟨groups₀, hgroups, htraced⟩ := exists_groups nofun (hstart.traced hcipher)
    have hkeyed : DefaultKeyed prim K g₀ := ⟨hstart.entries, hcipher, hstart.defaultKey⟩
    obtain ⟨groups, s, htracked⟩ :=
      Tracked.of_reached hprim hcoll (.start hkeyed hgroups htraced) hrun
    have hin := hin htracked.shape.cipher
    obtain ⟨paths, hr⟩ := htracked.shape.restricts hprim hcall
    obtain ⟨s', htracked', _⟩ := htracked.restrict hcoll hin hr
    exact ⟨s', htracked'.shape.store, htracked.within hcoll hin hr hne htracked'.shape.store⟩
  · obtain ⟨groups₀, hgroups, _⟩ := @exists_groups prim g₀ (fun _ => True) trivial
      fun _ _ _ _ => trivial
    obtain ⟨groups, s, hunsealed⟩ :=
      Unsealed.of_reached hprim (.start hstart.entries hcipher hgroups) hrun
    obtain ⟨paths, hr⟩ := hunsealed.shape.restricts hprim hcall
    obtain ⟨s', hunsealed', _⟩ := hunsealed.restrict hr
    exact ⟨s', hunsealed'.shape.store,
      hunsealed.within hr hne (haligned hunsealed.shape.cipher) hunsealed'.shape.store⟩

lemma onlyDefault_sample {I : Key → Bytes → Prop} :
    OnlyDefault bytePrimitives I (fun _ => True) defaultGrant where
  entries := rfl
  cipher := Or.inl rfl
  defaultKey := starts_sample.defaultKey
  traced _ mac gs hmac hgs := by
    rw [starts_sample.noPaths mac gs hmac hgs]
    nofun

/-- A grant that was given a key and restricted, restricted again. -/
theorem share_confined_sample : ∃ r t, sampleRestrict narrowedGrant = .ok r ∧
    storeFromEnc r.encAccess = .ok t ∧ ∀ path out, path ≠ "" →
      encryptPath bytePrimitives.toPathPrimitives "b" path t = .ok out →
        SharePrefix.Under ⟨"b", "a/"⟩ "b" path := by
  obtain ⟨r, hr⟩ := exists_restrict_narrowedGrant
  obtain ⟨t, ht, hunder⟩ := share_confined bytePrimitives_lawful collisionless_narrowed
    onlyDefault_sample
    (.call (.call .refl (fun _ => involves_keyedGrant) call_keyedGrant)
      (fun _ => involves_narrowedGrant) call_narrowedGrant)
    (fun _ => involves_sample sealsIn_narrowedGrant) hr (List.cons_ne_nil _ _)
    (fun share hshare => by rw [List.mem_singleton.mp hshare]; decide)
    (fun hnull => absurd hnull (by decide +kernel))
  refine ⟨r, t, hr, ht, fun path out hpath hout => ?_⟩
  obtain ⟨share, hshare, h⟩ := hunder "b" path out hpath hout
  rw [List.mem_singleton.mp hshare] at h
  exact h

/-! ## Shares that reach further

Two grants that a user can make.  The first shares `/`, the second has paths that are not encrypted
and a key at `foobar`.
-/

/-- Reads below a prefix of the bucket `b`. -/
def shareCall (keyPrefix : String) : Call :=
  .restrict listedOrder (.ok (Vector.replicate 4 0)) { allowDownload := true } [⟨"b", keyPrefix⟩]

/-- A default key without path encryption. -/
def nullGrant : Grant :=
  .fromParts "satellite" plainMacaroon.serialize ⟨some (byteKey 1), .null, [], none⟩

/-- And another key at `foobar`. -/
def foobarGrant : Grant :=
  .fromParts "satellite" plainMacaroon.serialize ⟨some (byteKey 1), .null,
    [⟨utf8 "b", utf8 "foobar", utf8 "foobar", byteKey 20, .null, none⟩], none⟩

/-- A grant seals a path of the bucket `b` after a call. -/
def sealsAfter (g : Grant) (call : Call) (path : String) : Bool :=
  ((g.call bytePrimitives call).toOption.bind fun r => (storeFromEnc r.encAccess).toOption.bind
    fun t => (encryptPath bytePrimitives.toPathPrimitives "b" path t).toOption).isSome

lemma exists_of_sealsAfter {call : Call} {path : String} (h : sealsAfter g call path = true) :
    ∃ r t out, g.call bytePrimitives call = .ok r ∧ storeFromEnc r.encAccess = .ok t ∧
      encryptPath bytePrimitives.toPathPrimitives "b" path t = .ok out := by
  obtain ⟨out, h⟩ := Option.isSome_iff_exists.mp h
  obtain ⟨r, hr, h⟩ := Option.bind_eq_some_iff.mp h
  obtain ⟨t, ht, hout⟩ := Option.bind_eq_some_iff.mp h
  rw [toOption_eq_some] at hr ht hout
  exact ⟨r, t, out, hr, ht, hout⟩

/-- **Shares that reach further than their prefix**: with AES-GCM the share of a slash seals `x`,
and without path encryption the share of `foo/` seals `foobar/x`. -/
theorem share_escapes :
    (OnlyDefault bytePrimitives (fun k a => (k, a) ∈ samplePairs) (fun _ => True) defaultGrant ∧
      Call.Seals bytePrimitives (fun k a => (k, a) ∈ samplePairs) (fun _ => True) defaultGrant
        (shareCall "/") ∧
      (∃ r t out, defaultGrant.call bytePrimitives (shareCall "/") = .ok r ∧
        storeFromEnc r.encAccess = .ok t ∧
        encryptPath bytePrimitives.toPathPrimitives "b" "x" t = .ok out) ∧
      ¬SharePrefix.Under ⟨"b", "/"⟩ "b" "x") ∧
    OnlyDefault bytePrimitives (fun k a => (k, a) ∈ samplePairs) (fun _ => True) nullGrant ∧
      Grant.Reached bytePrimitives (fun g call => call.Seals bytePrimitives
        (fun k a => (k, a) ∈ samplePairs) (fun _ => True) g) nullGrant foobarGrant ∧
      (∃ r t out, foobarGrant.call bytePrimitives (shareCall "foo/") = .ok r ∧
        storeFromEnc r.encAccess = .ok t ∧
        encryptPath bytePrimitives.toPathPrimitives "b" "foobar/x" t = .ok out) ∧
      ¬SharePrefix.Under ⟨"b", "foo/"⟩ "b" "foobar/x" := by
  refine ⟨⟨onlyDefault_sample, fun _ share hshare => ?_, exists_of_sealsAfter (by decide +kernel),
    by decide +kernel⟩, ⟨rfl, Or.inr rfl, ⟨_, rfl, fun _ => trivial⟩, fun haes => ?_⟩, ?_,
    exists_of_sealsAfter (by decide +kernel), by decide +kernel⟩
  · rw [List.mem_singleton.mp hshare]
    exact sealsIn_of_pairs (by decide +kernel)
  · exact absurd haes (by decide)
  · have hover : nullGrant.call bytePrimitives (.overrideEncryptionKey listedOrder "b" "foobar/"
        (byteKey 20)) = .ok foobarGrant := by decide +kernel
    exact .call .refl (fun haes => absurd haes (by decide)) hover

end Storj.Access
