import StorjUplink.Access.Ideal

/-!
# Restricted grants in storage

Parsing a grant limits its encryption access again.  A grant that was just restricted is its own
limit, so that what is read is what was written, up to the order of the entries
(`restrict_survives_storage`).

A share is made, written out, sent to somebody and parsed.  Parsing limits the access again, with
the same caveats, and for the share to be of use this must not take anything away.  For one table
that is `Limit.idem`; here it is carried through the bytes: the key is parsed back, the entries are
read into a store with the same bases, and the walk lists them in another order at most.

Two things can still prevent it, and both are conditions.  A grant without a satellite address is
not written at all, by design, and a caveat that is longer than the parser's limit is not read.
-/

namespace Storj.Access

open Storj.Enc KeyTree Storj.Sharing

variable {prim : AccessPrimitives} {I : Key → Bytes → Prop} {K : Key → Prop} {g r g₀ : Grant}
  {groups : List (List CaveatPath)} {s s' : Store} {order : HashOrder}
  {random : Except String (Vector UInt8 4)} {permission : Permission}
  {prefixes : List SharePrefix} {paths : List CaveatPath}

/-- The caveat of a restriction is not longer than the parser takes. -/
def Grant.CaveatFits (prim : AccessPrimitives) (g : Grant) (permission : Permission)
    (prefixes : List SharePrefix) (random : Except String (Vector UInt8 4)) : Prop :=
  ∀ caveat, g.restrictCaveat prim permission prefixes random = .ok caveat →
    (caveat.encode prim).length ≤ maxUvarint

/-- The key of a restricted grant is parsed. -/
lemma parse_apiKey_restrict (hcall : g.restrict prim order random permission prefixes = .ok r)
    (hfits : g.CaveatFits prim permission prefixes random) {mac : Macaroon}
    (hkey : r.apiKey = mac.serialize) : Macaroon.parse r.apiKey = .ok mac := by
  obtain ⟨caveat, old, _, hcaveat, hold, _, rfl⟩ := Grant.restrict_eq_ok.mp hcall
  have hnew : Macaroon.Fits (ApiKey.restrict prim ⟨old⟩ caveat).mac := by
    obtain ⟨hhead, hcaveats⟩ := Macaroon.fits_of_parse hold
    refine ⟨hhead, fun data hdata => ?_⟩
    rcases List.mem_append.mp hdata with hdata | hdata
    · exact hcaveats data hdata
    · rw [List.mem_singleton.mp hdata]
      exact hfits caveat hcaveat
  have hparse := Macaroon.parse_serialize hnew
  have hkey : (ApiKey.restrict prim ⟨old⟩ caveat).mac.serialize = mac.serialize := hkey
  have hread := hparse
  rw [hkey] at hread
  rw [← (Macaroon.eq_of_parse_serialize hread).1]
  exact hparse

lemma serialize_ne_nil (mac : Macaroon) : mac.serialize ≠ [] := List.cons_ne_nil _ _

/-- **A restricted grant is its own limit**: limiting its access again, whatever its parameters are,
gives the same keys and a walk through the same entries. -/
lemma Good.limitTo_restrict (hcoll : Collisionless prim I K) (h : Good prim I K g groups s)
    (hin : ∀ share ∈ prefixes, g.SealsIn prim I share.bucket (utf8 (stripSlash share.keyPrefix)))
    (hr : Restricts prim order g s groups prefixes paths r) {mac : Macaroon}
    (hmac : pathGroups prim ⟨mac⟩ = .ok (groups ++ asGroup paths)) (enc : EncryptionAccess)
    (hkey : enc.defaultKey = r.encAccess.defaultKey)
    (hcipher : enc.defaultPathCipher = r.encAccess.defaultPathCipher)
    (hentries : enc.storeEntries = r.encAccess.storeEntries)
    (hs' : storeFromEnc r.encAccess = .ok s') (order' : HashOrder) :
    ∃ limited, limitTo prim order' enc ⟨mac⟩ = .ok limited ∧
      limited.defaultKey = r.encAccess.defaultKey ∧
      limited.defaultPathCipher = r.encAccess.defaultPathCipher ∧
      ∃ (t : Store) (order : HashOrder), t.WF ∧
        (∀ bucket p, t.entry bucket p = s'.entry bucket p) ∧
        limited.storeEntries = (t.iterate order).map entryOf := by
  obtain ⟨s'', hgood, hcases⟩ := h.restrict hcoll hin hr
  obtain rfl : s' = s'' := by
    rw [hgood.shape.store, Except.ok.injEq] at hs'
    exact hs'.symm
  have hstore : storeFromEnc enc = .ok s' := by
    rw [← hgood.shape.store, storeFromEnc, storeFromEnc, EncryptionAccess.defaults,
      EncryptionAccess.defaults, hkey, hcipher, hentries]
  rcases hcases with ⟨hnil, _⟩ | ⟨hne, hlimit⟩
  · -- without path caveats nothing is limited
    refine ⟨enc, limitTo_eq_ok.mpr ⟨_, hmac, Or.inl ⟨hnil, rfl⟩⟩, hkey, hcipher, ?_⟩
    rw [hentries]
    exact hgood.shape.walk
  · obtain ⟨l, hlist, hl⟩ := hgood.shape.entries
    have hidem : ∀ bucket, Limit (sysOf prim) Begins (keysOf prim s' bucket)
        (bucketGroups (groups ++ asGroup paths) bucket) (keysOf prim s' bucket) := by
      intro bucket
      have hlim := hlimit bucket
      rw [bucketGroups_append] at hlim ⊢
      exact hlim.idem hcoll.ideal (h.inv bucket) (h.fresh_bucket hr hin bucket)
    obtain ⟨store, hloops, huniform, hnone, hdefault, hentry⟩ := loops_of_limit hgood.shape.uniform hne
      hstore hl (hentries.trans hlist) (fun bucket y hy x hx =>
        hgood.isPath_of_dec hcoll hgood.traced hy hx) hidem
    refine ⟨encFromStore order' store, limitTo_eq_ok.mpr ⟨_, hmac, Or.inr ⟨hne, s', store, hstore,
      hloops, rfl⟩⟩, ?_, ?_, store, order', huniform.wf, hentry, rfl⟩
    · have hroot := (hlimit "").root_eq
      rw [keys_root hgood.shape.uniform, Option.map_eq_none_iff, hgood.shape.defaultKey] at hroot
      rw [hroot]
      exact hnone
    · rw [hgood.shape.cipher]
      exact hdefault.trans hgood.shape.defaultPathCipher

/-! ## Written and parsed

The text is Base58 of a message of the fields.  The order of the maps at the reader is arbitrary.
-/

lemma Shape.reread_cipher (h : Shape prim .aesGcm g groups s) :
    g.encAccess.reread.defaultPathCipher = g.encAccess.defaultPathCipher := by
  rw [EncryptionAccess.reread]
  simp only
  rw [if_neg (by rw [h.cipher]; decide)]

/-- A grant for AES-GCM is parsed as it was written, limited again. -/
lemma Shape.parse_written (hprim : prim.Lawful) (h : Shape prim .aesGcm g groups s)
    (haddr : g.satelliteAddr ≠ "") (hkey : g.apiKey ≠ []) {g' : Grant} :
    Grant.parse prim order (g.written prim) = .ok g' ↔ ∃ mac limited,
      Macaroon.parse g.apiKey = .ok mac ∧
      limitTo prim order g.encAccess.reread ⟨mac⟩ = .ok limited ∧
      g' = ⟨g.satelliteAddr, mac.serialize, limited,
        if limited = g.encAccess.reread then some (g.written prim) else none⟩ := by
  have hstore : storeFromEnc g.encAccess.reread = .ok s := by
    rw [← h.store, storeFromEnc, storeFromEnc, EncryptionAccess.defaults,
      EncryptionAccess.defaults, h.reread_cipher]
    rfl
  have hentry : ∀ e ∈ g.encAccess.storeEntries,
      e.pathCipher = .aesGcm ∧ e.encryptionParameters = none := by
    intro e he
    obtain ⟨l, hlist, hl⟩ := h.entries
    rw [hlist] at he
    obtain ⟨x, hx, rfl⟩ := List.mem_map.mp he
    obtain ⟨p, hp⟩ := hl x hx
    exact ⟨h.uniform.entries x.1 p x.2 hp, rfl⟩
  have hrange : InI32 (CipherSuite.aesGcm).code := by
    rw [InI32]
    decide
  refine Grant.parse_written hprim haddr hkey ?_ (fun e he => ?_) (fun e he => (hentry e he).2)
    hstore
  · rw [h.cipher]
    exact hrange
  · rw [(hentry e he).1]
    exact hrange

/-- **Restricted grants survive storage**: every grant that is restricted in a run without
collisions from a default key is written out, and what is read back has its address, its API key,
its default key and cipher and its entries, up to their order. -/
theorem restrict_survives_storage (hprim : prim.Lawful) (hcoll : Collisionless prim I K)
    (hstart : Starts prim K g₀)
    (hrun : Grant.Reached prim (fun g call => call.Involves prim I K g ∧ call.Covered prim g) g₀ g)
    (hin : Call.Involves prim I K g (.restrict order random permission prefixes))
    (hcall : g.restrict prim order random permission prefixes = .ok r)
    (haddr : r.satelliteAddr ≠ "") (hfits : g.CaveatFits prim permission prefixes random) :
    ∃ text, r.serialize prim = .ok text ∧ ∀ order', ∃ r', Grant.parse prim order' text = .ok r' ∧
      r'.satelliteAddr = r.satelliteAddr ∧ r'.apiKey = r.apiKey ∧
      r'.encAccess.defaultKey = r.encAccess.defaultKey ∧
      r'.encAccess.defaultPathCipher = r.encAccess.defaultPathCipher ∧
      r'.encAccess.storeEntries.Perm r.encAccess.storeEntries := by
  obtain ⟨groups, s, hgood⟩ := Good.of_reached hprim hcoll (fun _ _ h => h) hstart hrun
  obtain ⟨paths, hr⟩ := hgood.shape.restricts hprim hcall
  obtain ⟨s', hgood', _⟩ := hgood.restrict hcoll hin hr
  obtain ⟨mac, hkey, hmac⟩ := hr.key
  have hparse := parse_apiKey_restrict hcall hfits hkey
  have hne : r.apiKey ≠ [] := hkey ▸ serialize_ne_nil mac
  refine ⟨r.written prim, ?_, fun order' => ?_⟩
  · rw [Grant.serialize, hr.original]
    exact Grant.serializeFromFields_eq_ok.mpr ⟨haddr, hne, rfl⟩
  · obtain ⟨limited, hlimit, hdefault, hpath, t, order₁, ht, hentry, hwalk⟩ :=
      hgood.limitTo_restrict hcoll hin hr hmac r.encAccess.reread rfl hgood'.shape.reread_cipher rfl
        hgood'.shape.store order'
    refine ⟨_, (hgood'.shape.parse_written hprim haddr hne).mpr ⟨mac, limited, hparse, hlimit, rfl⟩,
      rfl, hkey.symm, hdefault, hpath, ?_⟩
    obtain ⟨t₀, order₀, ht₀, hentry₀, hwalk₀⟩ := hgood'.shape.walk
    have hperm : (t.iterate order₁).Perm (t₀.iterate order₀) := by
      refine Store.iterate_perm ht ht₀ fun bucket p => ?_
      rw [hentry, hentry₀]
    rw [hwalk₀]
    exact hwalk ▸ hperm.map entryOf

/-- The request of the sample runs: reads below `a/` in the bucket `b`. -/
def sampleRestrict (g : Grant) : Except Error Grant :=
  g.restrict bytePrimitives listedOrder (.ok (Vector.replicate 4 0)) { allowDownload := true }
    [⟨"b", "a/"⟩]

lemma involves_sample {g : Grant} (hseals : g.SealsIn bytePrimitives I "b" (utf8 (stripSlash "a/"))) :
    Call.Involves bytePrimitives I K g
      (.restrict listedOrder (.ok (Vector.replicate 4 0)) { allowDownload := true } [⟨"b", "a/"⟩]) := by
  intro share hshare
  rw [List.mem_singleton.mp hshare]
  exact hseals

/-- The default grant with another key at `a/c`. -/
def keyedGrant : Grant :=
  (defaultGrant.overrideEncryptionKey bytePrimitives listedOrder "b" "a/c/"
    (byteKey 20)).toOption.getD defaultGrant

/-- It, restricted. -/
def narrowedGrant : Grant := (sampleRestrict keyedGrant).toOption.getD defaultGrant

/-- What is sealed for the two of them. -/
def narrowedPairs : List (Key × Bytes) := [(byteKey 206, utf8 "a"), (byteKey 146, utf8 "c")]

lemma collisionless_narrowed :
    Collisionless bytePrimitives (fun k a => (k, a) ∈ narrowedPairs) fun _ => True :=
  collisionless_of_list rfl rfl (by decide +kernel)

lemma eq_getD_of_isSome {ε α : Type} {x : Except ε α} (h : x.toOption.isSome) (a : α) :
    x = .ok (x.toOption.getD a) := by
  cases x with
  | error e => cases h
  | ok b => rfl

/-- Its steps succeed, and a third one does; what they seal is listed. -/
lemma evaluated_narrowed :
    ((defaultGrant.overrideEncryptionKey bytePrimitives listedOrder "b" "a/c/"
        (byteKey 20)).toOption.isSome ∧
      (sampleRestrict keyedGrant).toOption.isSome ∧ (sampleRestrict narrowedGrant).toOption.isSome) ∧
    (∀ y ∈ defaultGrant.pairs bytePrimitives "b" (utf8 (stripSlash "a/c/")),
      (y.1, y.2) ∈ narrowedPairs) ∧
    ∀ g ∈ [keyedGrant, narrowedGrant], ∀ y ∈ g.pairs bytePrimitives "b" (utf8 (stripSlash "a/")),
      (y.1, y.2) ∈ narrowedPairs := by
  decide +kernel

lemma call_keyedGrant : defaultGrant.call bytePrimitives (.overrideEncryptionKey listedOrder "b" "a/c/"
    (byteKey 20)) = .ok keyedGrant := eq_getD_of_isSome evaluated_narrowed.1.1 _

lemma call_narrowedGrant : keyedGrant.call bytePrimitives (.restrict listedOrder
    (.ok (Vector.replicate 4 0)) { allowDownload := true } [⟨"b", "a/"⟩]) = .ok narrowedGrant :=
  eq_getD_of_isSome (x := sampleRestrict keyedGrant) evaluated_narrowed.1.2.1 _

lemma exists_restrict_narrowedGrant : ∃ r, sampleRestrict narrowedGrant = .ok r := by
  obtain ⟨r, hr⟩ := Option.isSome_iff_exists.mp evaluated_narrowed.1.2.2
  exact ⟨r, toOption_eq_some.mp hr⟩

lemma involves_keyedGrant : Call.Involves bytePrimitives (fun k a => (k, a) ∈ narrowedPairs)
    (fun _ => True) defaultGrant (.overrideEncryptionKey listedOrder "b" "a/c/" (byteKey 20)) :=
  ⟨trivial, sealsIn_of_pairs evaluated_narrowed.2.1⟩

lemma involves_narrowedGrant : Call.Involves bytePrimitives (fun k a => (k, a) ∈ narrowedPairs)
    (fun _ => True) keyedGrant
      (.restrict listedOrder (.ok (Vector.replicate 4 0)) { allowDownload := true } [⟨"b", "a/"⟩]) :=
  involves_sample (sealsIn_of_pairs (evaluated_narrowed.2.2 _ List.mem_cons_self))

lemma sealsIn_narrowedGrant : narrowedGrant.SealsIn bytePrimitives
    (fun k a => (k, a) ∈ narrowedPairs) "b" (utf8 (stripSlash "a/")) :=
  sealsIn_of_pairs (evaluated_narrowed.2.2 _ (List.mem_cons_of_mem _ List.mem_cons_self))

/-- A grant that was given a key and restricted, restricted again. -/
theorem restrict_survives_storage_sample : ∃ r text, sampleRestrict narrowedGrant = .ok r ∧
    r.serialize bytePrimitives = .ok text ∧ ∃ r', Grant.parse bytePrimitives listedOrder text =
      .ok r' ∧ r'.encAccess.storeEntries.Perm r.encAccess.storeEntries := by
  obtain ⟨r, hr⟩ := exists_restrict_narrowedGrant
  have haddr : r.satelliteAddr ≠ "" := by
    obtain ⟨_, _, _, _, _, _, rfl⟩ := Grant.restrict_eq_ok.mp hr
    exact (by decide +kernel : narrowedGrant.satelliteAddr ≠ "")
  have hfits : narrowedGrant.CaveatFits bytePrimitives { allowDownload := true } [⟨"b", "a/"⟩]
      (.ok (Vector.replicate 4 0)) := by
    intro caveat hcaveat
    have hall : (narrowedGrant.restrictCaveat bytePrimitives { allowDownload := true }
        [⟨"b", "a/"⟩] (.ok (Vector.replicate 4 0))).toOption.all fun caveat =>
          (caveat.encode bytePrimitives).length ≤ maxUvarint := by decide +kernel
    rw [hcaveat] at hall
    exact of_decide_eq_true hall
  obtain ⟨text, htext, hparse⟩ := restrict_survives_storage bytePrimitives_lawful
    collisionless_narrowed starts_sample
    (.call (.call .refl ⟨involves_keyedGrant, fun hnil => absurd hnil (by decide +kernel)⟩
      call_keyedGrant) ⟨involves_narrowedGrant, trivial⟩ call_narrowedGrant)
    (involves_sample sealsIn_narrowedGrant) hr haddr hfits
  obtain ⟨r', hr', _, _, _, _, hperm⟩ := hparse listedOrder
  exact ⟨r, text, hr, htext, r', hr', hperm⟩

/-- A grant without a satellite address. -/
def unaddressedGrant : Grant := { defaultGrant with satelliteAddr := "" }

/-- **Without an address nothing is written**, though the grant is restricted. -/
theorem restrict_unaddressed : Starts bytePrimitives (fun _ => True) unaddressedGrant ∧
    unaddressedGrant.SealsIn bytePrimitives (fun k a => (k, a) ∈ samplePairs) "b" (utf8 (stripSlash "a/")) ∧
    ∃ r, sampleRestrict unaddressedGrant = .ok r ∧
      r.serialize bytePrimitives = .error ⟨"access grant is missing satellite address"⟩ := by
  have hstart : Starts bytePrimitives (fun _ => True) unaddressedGrant :=
    ⟨⟨starts_sample.entries, starts_sample.cipher, starts_sample.defaultKey⟩, starts_sample.noPaths⟩
  refine ⟨hstart, sealsIn_sample, ?_⟩
  have hsome : (sampleRestrict unaddressedGrant).toOption.isSome := by decide +kernel
  obtain ⟨r, hr⟩ := Option.isSome_iff_exists.mp hsome
  rw [toOption_eq_some] at hr
  refine ⟨r, hr, ?_⟩
  obtain ⟨_, _, _, _, _, _, rfl⟩ := Grant.restrict_eq_ok.mp hr
  rfl

end Storj.Access
