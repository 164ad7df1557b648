import StorjUplink.Access.Faithful
import StorjUplink.Access.Reload

/-!
# Shares that seal as before

A key that is overridden above an entry changes what is sealed on the way to the entry, and the
entry keeps its old ciphertext.  A share of a prefix in between then loses the entry.  In a run
whose overrides are `Screened` this does not happen: the tables of every grant stay consistent
(`Steady`), and a share seals every path below the prefixes that were asked for as the grant it was
made of, also after it was stored (`share_seals_as_before`).

Consistency of the tables is the additional invariant of these runs, and it is the condition on
overrides that keeps it: an override above existing entries changes the key of the components in
between, so an entry deeper than that keeps a ciphertext which the grant would no longer compute.
If there is an entry directly below the new key on the way, the components below start there and
nothing changes.

The failing run at the end is short: a key at `a/b/c`, then one at `a`, then a share of `a/b/`.
-/

namespace Storj.Access

open Storj.Enc KeyTree Storj.Sharing

/-- **An override is screened**: every entry two or more components below it has an entry on the
way, one component below it. -/
def Call.Screened (g : Grant) : Call → Prop
  | .overrideEncryptionKey _ bucket keyPrefix _ => ∀ e ∈ g.encAccess.storeEntries,
      e.bucket = utf8 bucket →
      components (utf8 (stripSlash keyPrefix)) <+: components e.unencryptedPath →
      (components (utf8 (stripSlash keyPrefix))).length + 2 ≤ (components e.unencryptedPath).length →
      ∃ e' ∈ g.encAccess.storeEntries, e'.bucket = utf8 bucket ∧
        components e'.unencryptedPath = (components e.unencryptedPath).take
          ((components (utf8 (stripSlash keyPrefix))).length + 1)
  | .restrict _ _ _ _ => True

variable {prim : AccessPrimitives} {I : Key → Bytes → Prop} {K : Key → Prop} {g g' r g₀ : Grant}
  {groups : List (List CaveatPath)} {s s' t : Store} {order : HashOrder} {bucket : String}
  {random : Except String (Vector UInt8 4)} {permission : Permission}
  {prefixes : List SharePrefix} {paths : List CaveatPath} {path : Bytes}

/-- The entries of a grant are those of its tables. -/
lemma Shape.has_iff {c : CipherSuite} (h : Shape prim c g groups s) {x : List Bytes} :
    (∃ q, (keysOf prim s bucket).Has q ∧ plain q = x) ↔ ∃ e ∈ g.encAccess.storeEntries,
      e.bucket = utf8 bucket ∧ components e.unencryptedPath = x := by
  obtain ⟨t, order, ht, hentry, hlist⟩ := h.walk
  constructor
  · rintro ⟨q, hq, rfl⟩
    obtain ⟨base, hbase⟩ := (keys_has s bucket).mp hq
    refine ⟨entryOf (bucket, base), ?_, rfl, ?_⟩
    · rw [hlist]
      exact List.mem_map.mpr ⟨_, (Store.mem_iterate ht).mpr ⟨q, (hentry bucket q).trans hbase⟩, rfl⟩
    · exact (h.uniform.wf.placed bucket q base hbase).1.symm
  · rintro ⟨e, he, hbucket, rfl⟩
    rw [hlist] at he
    obtain ⟨⟨bucket', base⟩, hx, rfl⟩ := List.mem_map.mp he
    obtain rfl := utf8_injective hbucket
    obtain ⟨q, hq⟩ := (Store.mem_iterate ht).mp hx
    have hbase : s.entry bucket' q = some base := (hentry bucket' q).symm.trans hq
    exact ⟨q, (keys_has s bucket').mpr ⟨base, hbase⟩,
      (h.uniform.wf.placed bucket' q base hbase).1⟩

lemma Shape.screened {c : CipherSuite} (h : Shape prim c g groups s) {keyPrefix : String} {key : Key}
    (hscreen : Call.Screened g (.overrideEncryptionKey order bucket keyPrefix key)) :
    Sharing.Screened (keysOf prim s bucket) (components (utf8 (stripSlash keyPrefix))) := by
  intro q hq hpre hlen
  obtain ⟨e, he, hbucket, hplain⟩ := h.has_iff.mp ⟨q, hq, rfl⟩
  have hplain' : (components e.unencryptedPath).length = q.length := by
    rw [hplain, List.length_map]
  obtain ⟨e', he', hbucket', htake⟩ := hscreen e he hbucket (hplain ▸ hpre) (hplain' ▸ hlen)
  rw [hplain] at htake
  exact h.has_iff.mpr ⟨e', he', hbucket', htake⟩

/-! ## The invariant

A good grant whose tables are consistent in every bucket.
-/

/-- **A grant of a run without collisions whose entries are what it seals.** -/
structure Steady (prim : AccessPrimitives) (I : Key → Bytes → Prop) (K : Key → Prop) (g : Grant)
    (groups : List (List CaveatPath)) (s : Store) : Prop extends Good prim I K g groups s where
  consistent : ∀ bucket, Consistent (sysOf prim) Begins (keysOf prim s bucket)
    (bucketGroups groups bucket)

namespace Steady

lemma start (h : Starts prim K g) : Steady prim I K g [] g.encAccess.defaults where
  toGood := .start h
  consistent bucket := ⟨fun p hp => absurd hp (DefaultKeyed.not_has bucket p), nofun⟩

lemma override (hcoll : Collisionless prim I K) (h : Steady prim I K g groups s)
    {keyPrefix : String} {key : Key}
    (hin : Call.Involves prim I K g (.overrideEncryptionKey order bucket keyPrefix key))
    (hcov : Call.Covered prim g (.overrideEncryptionKey order bucket keyPrefix key))
    (hscreen : Call.Screened g (.overrideEncryptionKey order bucket keyPrefix key))
    (hcall : g.overrideEncryptionKey prim order bucket keyPrefix key = .ok g') :
    ∃ s', Steady prim I K g' groups s' := by
  obtain ⟨s', p, hgood, hover, hseals⟩ := h.toGood.override hcoll hin hcov hcall
  refine ⟨s', hgood, fun bucket' => ?_⟩
  by_cases hb : bucket' = bucket
  · subst hb
    rw [hover.keys_eq]
    refine (h.consistent bucket').insert (h.inv bucket') hseals hover.agree ?_
    rw [hover.sealedAs.plain_eq]
    exact h.shape.screened hscreen
  · rw [hover.keys_ne bucket' hb]
    exact h.consistent bucket'

/-- **A restriction keeps a grant steady.** -/
lemma restrict (hcoll : Collisionless prim I K) (h : Steady prim I K g groups s)
    (hin : ∀ share ∈ prefixes, g.SealsIn prim I share.bucket (utf8 (stripSlash share.keyPrefix)))
    (hr : Restricts prim order g s groups prefixes paths r) :
    ∃ s', Steady prim I K r (groups ++ asGroup paths) s' := by
  obtain ⟨s', hgood, hcases⟩ := h.toGood.restrict hcoll hin hr
  refine ⟨s', hgood, fun bucket => ?_⟩
  rcases hcases with ⟨hnil, rfl⟩ | ⟨_, hlimit⟩
  · obtain ⟨rfl, hnil'⟩ := List.append_eq_nil_iff.mp hnil
    rw [hnil', List.append_nil]
    exact h.consistent bucket
  · have hlim := hlimit bucket
    rw [bucketGroups_append] at hlim ⊢
    exact (h.consistent bucket).limit hcoll.ideal (h.inv bucket) (h.fresh_bucket hr hin bucket) hlim

/-- **Every grant of a run is steady**, if its overrides are covered and screened. -/
theorem of_reached (hprim : prim.Lawful) (hcoll : Collisionless prim I K) (hstart : Starts prim K g₀)
    (hrun : Grant.Reached prim (fun g call => call.Involves prim I K g ∧ call.Covered prim g ∧
      call.Screened g) g₀ g) : ∃ groups s, Steady prim I K g groups s := by
  induction hrun with
  | refl => exact ⟨[], _, start hstart⟩
  | @call g g' call hrun hcall hg ih =>
      obtain ⟨groups, s, hsteady⟩ := ih
      obtain ⟨hin, hcov, hscreen⟩ := hcall
      cases call with
      | overrideEncryptionKey order bucket keyPrefix key =>
          obtain ⟨s', hsteady'⟩ := hsteady.override hcoll hin hcov hscreen hg
          exact ⟨groups, s', hsteady'⟩
      | restrict order random permission prefixes =>
          obtain ⟨paths, hr⟩ := hsteady.shape.restricts hprim hg
          obtain ⟨s', hsteady'⟩ := hsteady.restrict hcoll hin hr
          exact ⟨_, s', hsteady'⟩

end Steady

/-! ## Sealing as before

Sealing a path and deriving its content key look at the tables only, so equal tables below a prefix
give equal results, errors included.
-/

/-- Two stores have the same key for a path, or the same error, if their tables do. -/
lemma deriveContentKey_of_keys (hs : s.WF) (ht : t.WF)
    (h : ∀ k, (keysOf prim t bucket).Key (sysOf prim) (components path) k ↔
      (keysOf prim s bucket).Key (sysOf prim) (components path) k) :
    deriveContentKey prim.toPathPrimitives bucket path t =
      deriveContentKey prim.toPathPrimitives bucket path s := by
  have herror : ∀ (u : Store) e, derivePathKey prim.toPathPrimitives bucket path u = .error e →
      e = missingBase prim.toPathPrimitives .missingEncryptionBase bucket path := by
    intro u e he
    rw [derivePathKey] at he
    dsimp only at he
    split at he
    · cases he
      rfl
    · split_ifs at he
  have hiff : ∀ key, derivePathKey prim.toPathPrimitives bucket path t = .ok key ↔
      derivePathKey prim.toPathPrimitives bucket path s = .ok key := by
    intro key
    rw [derivePathKey_eq_ok hs, derivePathKey_eq_ok ht]
    exact exists_congr fun c => h (key, c)
  rw [deriveContentKey, deriveContentKey]
  refine congrArg (· >>= _) ?_
  cases hk : derivePathKey prim.toPathPrimitives bucket path s with
  | ok key => exact (hiff key).mpr hk
  | error e =>
      cases hk' : derivePathKey prim.toPathPrimitives bucket path t with
      | ok key =>
          rw [(hiff key).mp hk'] at hk
          cases hk
      | error e' => rw [herror s e hk, herror t e' hk']

/-- **A path is sealed alike** where the tables seal it alike. -/
lemma unchanged_of_tables (hs : s.WF) (ht : t.WF)
    (henc : ∀ y, (keysOf prim t bucket).Enc (sysOf prim) (components path) y ↔
      (keysOf prim s bucket).Enc (sysOf prim) (components path) y)
    (hkey : ∀ k, (keysOf prim t bucket).Key (sysOf prim) (components path) k ↔
      (keysOf prim s bucket).Key (sysOf prim) (components path) k) {out : Bytes}
    (hok : encryptPathBytes prim.toPathPrimitives bucket path none s = .ok out) :
    Unchanged prim.toPathPrimitives s t bucket path := by
  refine ⟨?_, deriveContentKey_of_keys hs ht hkey⟩
  rw [hok]
  by_cases hpath : path = []
  · rw [encryptPathBytes, if_pos hpath] at hok ⊢
    exact hok
  · obtain ⟨y, hy, rfl⟩ := (encryptPathBytes_eq_ok hs hpath).mp hok
    exact (encryptPathBytes_eq_ok ht hpath).mpr ⟨y, (henc y).mpr hy, rfl⟩

/-- **A share seals as before** below what was asked for. -/
lemma Steady.unchanged (hcoll : Collisionless prim I K) (h : Steady prim I K g groups s)
    (hin : ∀ share ∈ prefixes, g.SealsIn prim I share.bucket (utf8 (stripSlash share.keyPrefix)))
    (hr : Restricts prim order g s groups prefixes paths r) {share : SharePrefix}
    (hshare : share ∈ prefixes)
    (hpre : components (utf8 (stripSlash share.keyPrefix)) <+: components path) {out : Bytes}
    (hok : encryptPathBytes prim.toPathPrimitives share.bucket path none s = .ok out)
    (hs' : storeFromEnc r.encAccess = .ok s') :
    Unchanged prim.toPathPrimitives s s' share.bucket path := by
  obtain ⟨s'', hgood, hcases⟩ := h.toGood.restrict hcoll hin hr
  obtain rfl : s' = s'' := by
    rw [hgood.shape.store, Except.ok.injEq] at hs'
    exact hs'.symm
  -- the prefix was sealed, and is a path of the new group
  obtain ⟨cavPath, hcav⟩ : ∃ cavPath, sharePath prim s share = .ok cavPath :=
    Fallible.isOk_of_mapM hr.paths_eq hshare
  have hmem := Fallible.mem_of_mapM hr.paths_eq hshare hcav
  have hgroup := hr.asGroup_eq (List.ne_nil_of_mem hshare)
  rcases hcases with ⟨hnil, _⟩ | ⟨_, hlimit⟩
  · rw [hgroup] at hnil
    exact absurd (List.append_eq_nil_iff.mp hnil).2 (List.cons_ne_nil _ _)
  · have hlim := hlimit share.bucket
    have hfresh := h.fresh_bucket hr hin share.bucket
    rw [bucketGroups_append, hgroup] at hlim
    rw [hgroup] at hfresh
    have hz : components cavPath.encryptedPathPrefix ∈ (paths.filter fun path =>
        path.bucket = utf8 share.bucket).map fun path => components path.encryptedPathPrefix := by
      refine List.mem_map.mpr ⟨cavPath, List.mem_filter.mpr ⟨hmem, decide_eq_true ?_⟩, rfl⟩
      exact (sharePath_spec h.shape.uniform (by decide) hcav).1
    have hx : components cavPath.encryptedPathPrefix = [] ∨ ∃ q,
        components cavPath.encryptedPathPrefix = cipher q ∧
          Seals (sysOf prim) (gcmPairs I) (keysOf prim s share.bucket) q ∧
          plain q <+: components path := by
      obtain ⟨_, p, hcipher, hsealed⟩ := sharePath_spec h.shape.uniform (by decide) hcav
      by_cases hp : p = []
      · subst hp
        exact Or.inl hcipher
      · refine Or.inr ⟨p, hcipher, hsealed.seals h.shape.uniform hp
          (hin share hshare s h.shape.store), ?_⟩
        rw [hsealed.plain_eq]
        exact hpre
    obtain ⟨henc, hkey⟩ := hlim.alike hcoll.ideal (h.inv share.bucket) (h.consistent share.bucket)
      hfresh hz hx
    exact unchanged_of_tables h.shape.uniform.wf hgood.shape.uniform.wf henc hkey hok

/-- **What is read back of a share has its tables.** -/
lemma Good.keys_parse (hprim : prim.Lawful) (hcoll : Collisionless prim I K)
    (h : Good prim I K g groups s)
    (hin : ∀ share ∈ prefixes, g.SealsIn prim I share.bucket (utf8 (stripSlash share.keyPrefix)))
    (hr : Restricts prim order g s groups prefixes paths r)
    (hs' : storeFromEnc r.encAccess = .ok s') {text : String} (htext : r.serialize prim = .ok text)
    {order' : HashOrder} {r' : Grant} (hparse : Grant.parse prim order' text = .ok r') :
    ∃ t, storeFromEnc r'.encAccess = .ok t ∧ t.WF ∧
      ∀ bucket, keysOf prim t bucket = keysOf prim s' bucket := by
  obtain ⟨s'', hgood, _⟩ := h.restrict hcoll hin hr
  obtain rfl : s' = s'' := by
    rw [hgood.shape.store, Except.ok.injEq] at hs'
    exact hs'.symm
  rw [Grant.serialize, hr.original] at htext
  obtain ⟨haddr, hkey, rfl⟩ := Grant.serializeFromFields_eq_ok.mp htext
  obtain ⟨mac, limited, hmac, hlimit, rfl⟩ := (hgood.shape.parse_written hprim haddr hkey).mp hparse
  obtain ⟨mac₀, hserialize, hgroups⟩ := hr.key
  rw [hserialize] at hmac
  obtain ⟨rfl, _⟩ := Macaroon.eq_of_parse_serialize hmac
  obtain ⟨limited', hlimit', hdefault, hpath, t, order₁, ht, hentry, hwalk⟩ :=
    h.limitTo_restrict hcoll hin hr hgroups r.encAccess.reread rfl hgood.shape.reread_cipher rfl
      hgood.shape.store order'
  rw [hlimit, Except.ok.injEq] at hlimit'
  subst hlimit'
  obtain ⟨t', hstore, hwf, hbypass, htkey, htcipher, htentry⟩ := storeFromEnc_encFromStore ht hwalk
  have huniform : Uniform .aesGcm t' := by
    refine ⟨hwf, hbypass, fun _ => ?_, fun bucket p base hp => ?_⟩
    · rw [htcipher, hpath, hgood.shape.cipher]
    · rw [htentry, hentry] at hp
      exact hgood.shape.uniform.entries bucket p base hp
  refine ⟨t', hstore, hwf, fun bucket => keys_congr huniform hgood.shape.uniform ?_ fun p => ?_⟩
  · rw [htkey, hdefault, hgood.shape.defaultKey]
  · rw [htentry, hentry]

/-- **Sharing preserves decryptability.**  In every run without collisions from a default key whose
overrides are covered and screened: a share seals every path below a prefix that was asked for, and
derives its content key, as the grant it was made of, and so does what is read back of the share. -/
theorem share_seals_as_before (hprim : prim.Lawful) (hcoll : Collisionless prim I K)
    (hstart : Starts prim K g₀)
    (hrun : Grant.Reached prim (fun g call => call.Involves prim I K g ∧ call.Covered prim g ∧
      call.Screened g) g₀ g)
    (hin : Call.Involves prim I K g (.restrict order random permission prefixes))
    (hcall : g.restrict prim order random permission prefixes = .ok r) {share : SharePrefix}
    (hshare : share ∈ prefixes) {q : String}
    (hq : components (utf8 (stripSlash share.keyPrefix)) <+: components (utf8 q))
    (hs : storeFromEnc g.encAccess = .ok s) {out : Bytes}
    (hout : encryptPath prim.toPathPrimitives share.bucket q s = .ok out) :
    (∃ t, storeFromEnc r.encAccess = .ok t ∧
      Unchanged prim.toPathPrimitives s t share.bucket (utf8 q)) ∧
    ∀ text, r.serialize prim = .ok text → ∀ order' r', Grant.parse prim order' text = .ok r' →
      ∃ t, storeFromEnc r'.encAccess = .ok t ∧
        Unchanged prim.toPathPrimitives s t share.bucket (utf8 q) := by
  obtain ⟨groups, s₀, hsteady⟩ := Steady.of_reached hprim hcoll hstart hrun
  obtain rfl : s = s₀ := by
    rw [hsteady.shape.store, Except.ok.injEq] at hs
    exact hs.symm
  obtain ⟨paths, hr⟩ := hsteady.shape.restricts hprim hcall
  obtain ⟨s', hgood', _⟩ := hsteady.toGood.restrict hcoll hin hr
  have hunchanged := hsteady.unchanged hcoll hin hr hshare hq hout hgood'.shape.store
  refine ⟨⟨s', hgood'.shape.store, hunchanged⟩, fun text htext order' r' hparse => ?_⟩
  obtain ⟨t, hstore, ht, hkeys⟩ := hsteady.toGood.keys_parse hprim hcoll hin hr hgood'.shape.store
    htext hparse
  obtain ⟨henc, hcontent⟩ : Unchanged prim.toPathPrimitives s' t share.bucket (utf8 q) :=
    unchanged_of_tables hgood'.shape.uniform.wf ht (fun y => by rw [hkeys])
      (fun k => by rw [hkeys]) (hunchanged.1.trans hout)
  exact ⟨t, hstore, henc.trans hunchanged.1, hcontent.trans hunchanged.2⟩

/-- A share of a grant that was given a key and restricted. -/
theorem share_seals_as_before_sample : ∃ r s t, sampleRestrict narrowedGrant = .ok r ∧
    storeFromEnc narrowedGrant.encAccess = .ok s ∧ storeFromEnc r.encAccess = .ok t ∧
    Unchanged bytePrimitives.toPathPrimitives s t "b" (utf8 "a/c/x") := by
  obtain ⟨r, hr⟩ := exists_restrict_narrowedGrant
  have hstore : (storeFromEnc narrowedGrant.encAccess).toOption.isSome := by decide +kernel
  obtain ⟨s, hs⟩ := Option.isSome_iff_exists.mp hstore
  rw [toOption_eq_some] at hs
  have hpath : components (utf8 (stripSlash "a/")) <+: components (utf8 "a/c/x") := by decide +kernel
  have hsealed : ((storeFromEnc narrowedGrant.encAccess).toOption.bind fun s =>
      (encryptPath bytePrimitives.toPathPrimitives "b" "a/c/x" s).toOption).isSome := by decide +kernel
  rw [hs] at hsealed
  obtain ⟨out, hout⟩ := Option.isSome_iff_exists.mp hsealed
  have hout := toOption_eq_some.mp hout
  obtain ⟨⟨t, ht, hunchanged⟩, _⟩ := share_seals_as_before bytePrimitives_lawful
    collisionless_narrowed starts_sample
    (.call (.call .refl ⟨involves_keyedGrant, fun hnil => absurd hnil (by decide +kernel),
      fun e he => absurd he List.not_mem_nil⟩ call_keyedGrant)
      ⟨involves_narrowedGrant, trivial, trivial⟩ call_narrowedGrant)
    (involves_sample sealsIn_narrowedGrant) hr List.mem_cons_self hpath hs hout
  exact ⟨r, s, t, hr, hs, ht, hunchanged⟩

/-! ## An override above an entry

Everything is computed with the sample primitives, and the components of the run do not clash, so
the failure is not one of the cipher.
-/

/-- What is sealed for `a/b/c` with the default key. -/
def sealedBelow : Bytes := joinComponents
  [sealedByte 133 97 206, sealedByte 164 98 146, sealedByte 222 99 183]

/-- The default key, and another one at `a/b/c`. -/
def belowGrant : Grant :=
  .fromParts "satellite" plainMacaroon.serialize ⟨some (byteKey 1), .aesGcm,
    [⟨utf8 "b", utf8 "a/b/c", sealedBelow, byteKey 20, .aesGcm, none⟩], none⟩

/-- And a third one at `a`, above it. -/
def crossedGrant : Grant :=
  .fromParts "satellite" plainMacaroon.serialize ⟨some (byteKey 1), .aesGcm,
    [⟨utf8 "b", utf8 "a", sealedByte 133 97 206, byteKey 30, .aesGcm, none⟩,
      ⟨utf8 "b", utf8 "a/b/c", sealedBelow, byteKey 20, .aesGcm, none⟩], none⟩

/-- What is sealed for the two overrides and the share of `a/b/`. -/
def crossedPairs : List (Key × Bytes) :=
  [(byteKey 206, utf8 "a"), (byteKey 146, utf8 "b"), (byteKey 183, utf8 "c"), (byteKey 30, utf8 "b")]

/-- The share of `a/b/`. -/
def crossedCall : Call :=
  .restrict listedOrder (.ok (Vector.replicate 4 0)) { allowDownload := true } [⟨"b", "a/b/"⟩]

lemma reached_crossed : Grant.Reached bytePrimitives (fun g call =>
    call.Involves bytePrimitives (fun k a => (k, a) ∈ crossedPairs) (fun _ => True) g ∧
      call.Covered bytePrimitives g) defaultGrant crossedGrant := by
  have hbelow : defaultGrant.call bytePrimitives (.overrideEncryptionKey listedOrder "b" "a/b/c/"
      (byteKey 20)) = .ok belowGrant := by decide +kernel
  have habove : belowGrant.call bytePrimitives (.overrideEncryptionKey listedOrder "b" "a/"
      (byteKey 30)) = .ok crossedGrant := by decide +kernel
  refine .call (.call .refl ?_ hbelow) ?_ habove
  · exact ⟨⟨trivial, sealsIn_of_pairs (by decide +kernel)⟩, fun hnil =>
      absurd hnil (by decide +kernel)⟩
  · exact ⟨⟨trivial, sealsIn_of_pairs (by decide +kernel)⟩, fun hnil =>
      absurd hnil (by decide +kernel)⟩

/-- **A share below an override loses the entry it was made for**: `a/b/c` has a key, then `a` gets
another one, and the share of `a/b/` seals `a/b/c` differently. -/
theorem share_loses_entry :
    Collisionless bytePrimitives (fun k a => (k, a) ∈ crossedPairs) (fun _ => True) ∧
    Starts bytePrimitives (fun _ => True) defaultGrant ∧
    Grant.Reached bytePrimitives (fun g call =>
      call.Involves bytePrimitives (fun k a => (k, a) ∈ crossedPairs) (fun _ => True) g ∧
        call.Covered bytePrimitives g) defaultGrant crossedGrant ∧
    crossedCall.Involves bytePrimitives (fun k a => (k, a) ∈ crossedPairs) (fun _ => True)
      crossedGrant ∧
    components (utf8 (stripSlash "a/b/")) <+: components (utf8 "a/b/c") ∧
    ∃ r s t out out', crossedGrant.call bytePrimitives crossedCall = .ok r ∧
      storeFromEnc crossedGrant.encAccess = .ok s ∧ storeFromEnc r.encAccess = .ok t ∧
      encryptPath bytePrimitives.toPathPrimitives "b" "a/b/c" s = .ok out ∧
      encryptPath bytePrimitives.toPathPrimitives "b" "a/b/c" t = .ok out' ∧ out ≠ out' := by
  refine ⟨collisionless_of_list rfl rfl (by decide +kernel), starts_sample, reached_crossed, ?_,
    by decide +kernel, ?_⟩
  · intro share hshare
    rw [List.mem_singleton.mp hshare]
    exact sealsIn_of_pairs (by decide +kernel)
  · have hold : ((storeFromEnc crossedGrant.encAccess).toOption.bind fun s =>
        (encryptPath bytePrimitives.toPathPrimitives "b" "a/b/c" s).toOption) = some sealedBelow := by
      decide +kernel
    have hnew : ((crossedGrant.call bytePrimitives crossedCall).toOption.bind fun r =>
        (storeFromEnc r.encAccess).toOption.bind fun t =>
          (encryptPath bytePrimitives.toPathPrimitives "b" "a/b/c" t).toOption.map
            fun out => decide (out = sealedBelow)) = some false := by decide +kernel
    obtain ⟨s, hs, hsealed⟩ := Option.bind_eq_some_iff.mp hold
    obtain ⟨r, hr, hnew⟩ := Option.bind_eq_some_iff.mp hnew
    obtain ⟨t, ht, hnew⟩ := Option.bind_eq_some_iff.mp hnew
    obtain ⟨out, hout, hne⟩ := Option.map_eq_some_iff.mp hnew
    rw [toOption_eq_some] at hs hsealed hr ht hout
    exact ⟨r, s, t, sealedBelow, out, hr, hs, ht, hsealed, hout, Ne.symm (of_decide_eq_false hne)⟩

end Storj.Access
