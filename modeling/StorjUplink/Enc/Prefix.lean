import StorjUplink.Enc.Encrypt

/-!
# Listing prefixes

`get_prefix_info` of `path.rs`: a listing asks for what is below a prefix that is empty or ends with
a slash.  The last component of such a prefix is empty, and what is listed is below the component
before it, the parent.  The loop runs over all components and lags one behind with the parent's key
and ciphertext (`getPrefixInfo_eq_ok`).

A path below the prefix is sealed as the parent's ciphertext followed by the rest of the path under
the parent's key (`encryptPathBytes_below`), as long as it starts at the base that the prefix starts
at.

The source computes the parent by running over all components with one turn of delay, so that after
the loop the variables of the parent are those of the turn before the last.  That works whenever
there is a turn before the last one.  If the store has an entry exactly at the prefix, no component
remains behind it, the loop never runs, and what is returned as the parent is the entry itself
(`encryptPathBytes_ne_of_at`).

The theorems of this module therefore carry the assumption that the path starts where the prefix
starts, and the two lemmas about `NoneBeyond` and `NoneAt` say of which stores it holds.
-/

namespace Storj.Enc

open KeyTree

variable (prim : PathPrimitives)

/-! ## The operation

The loop body is a function of its own here, with the number of the turn as an argument, because
the source tests that number to find the last component.
-/

/-- `PrefixInfo`: the cipher, the key and the encrypted path of the parent of a prefix. -/
structure PrefixInfo where
  pathCipher : CipherSuite
  parentKey : Key
  parentEnc : Bytes
deriving DecidableEq

/-- The variables of the loop of `get_prefix_info`. -/
structure PrefixLoop where
  key : Key
  parentKey : Key
  parentEncParts : List Bytes
  componentEnc : Bytes

/-- The loop body of `get_prefix_info`, for a component and its number. -/
def prefixStep (pathCipher : CipherSuite) (st : PrefixLoop) (x : Bytes × ℕ) :
    Except Error PrefixLoop := do
  let (component, i) := x
  let st := if i > 0 then { st with
      parentKey := st.key
      parentEncParts := st.parentEncParts ++ [st.componentEnc]
      componentEnc := [] }
    else st
  let componentEnc ← encryptPathComponent prim component pathCipher st.key
  .ok { st with componentEnc, key := derivePathComponent prim st.key component }

/-- `get_prefix_info`: the base above the prefix, and a loop over what remains of it that ends with
the key and the sealed components of the parent.  Where nothing remains these are the base's own. -/
def getPrefixInfo (bucket : String) (keyPrefix : Bytes) (store : Store) :
    Except Error PrefixInfo :=
  let lookup := store.lookupUnencrypted bucket keyPrefix
  match lookup.base with
  | none => .error (missingBase prim .missingEncryptionBase bucket keyPrefix)
  | some base => do
      let pathCipher := if base.pathCipher.code = 0 then .aesGcm else base.pathCipher
      let key := baseKey prim bucket base
      let parentEncParts := if !base.default && base.encrypted ≠ [] then [base.encrypted] else []
      let st ← lookup.remaining.zipIdx.foldlM (prefixStep prim pathCipher)
        ⟨key, key, parentEncParts, []⟩
      .ok ⟨pathCipher, st.parentKey, joinComponents st.parentEncParts⟩

/-! ## The loop

After the components `x` and one more, the key of the parent is the key at the end of `x`, and its
parts are what sealing `x` gave.
-/

variable {prim} {s : Store} {bucket : String} {path : Bytes} {cipher : CipherSuite} {key : Key}
  {cs ds : List Bytes} {st st' : PrefixLoop}

/-- Sealing one list of components after another. -/
lemma encryptComponents_append (cs ds : List Bytes) (cipher : CipherSuite) (key : Key) :
    encryptComponents prim (cs ++ ds) cipher key = (do
      let a ← encryptComponents prim cs cipher key
      let b ← encryptComponents prim ds cipher (cs.foldl (derivePathComponent prim) key)
      .ok (a ++ b)) := by
  induction cs generalizing key with
  | nil =>
      rw [List.nil_append, encryptComponents, Fallible.ok_bind, List.foldl_nil]
      cases encryptComponents prim ds cipher key with
      | error err => rfl
      | ok b => rfl
  | cons c cs ih =>
      rw [List.cons_append, encryptComponents, encryptComponents, List.foldl_cons, ih]
      cases encryptPathComponent prim c cipher key with
      | error err => rfl
      | ok e =>
          cases encryptComponents prim cs cipher (derivePathComponent prim key c) with
          | error err => rfl
          | ok a =>
              simp only [Fallible.ok_bind]
              cases encryptComponents prim ds cipher
                  (cs.foldl (derivePathComponent prim) (derivePathComponent prim key c)) with
              | error err => rfl
              | ok b => rfl

/-- **The loop lags one component behind**: after components with a last one, the parent's key and
parts are those of the components before it. -/
lemma prefixLoop_eq_ok {parts : List Bytes} (h : cs.zipIdx.foldlM (prefixStep prim cipher)
    ⟨key, key, parts, []⟩ = .ok st) :
    st.key = cs.foldl (derivePathComponent prim) key ∧
      (cs = [] ∧ st = ⟨key, key, parts, []⟩ ∨
        ∃ cs' last encs, cs = cs' ++ [last] ∧ encryptComponents prim cs' cipher key = .ok encs ∧
          encryptPathComponent prim last cipher (cs'.foldl (derivePathComponent prim) key) =
            .ok st.componentEnc ∧
          st.parentKey = cs'.foldl (derivePathComponent prim) key ∧
          st.parentEncParts = parts ++ encs) := by
  induction cs using List.reverseRecOn generalizing st with
  | nil =>
      cases h
      exact ⟨rfl, Or.inl ⟨rfl, rfl⟩⟩
  | append_singleton cs last ih =>
      rw [List.zipIdx_append, List.foldlM_append, Fallible.bind_eq_ok] at h
      obtain ⟨before, hbefore, h⟩ := h
      rw [List.zipIdx_singleton, List.foldlM_cons, Fallible.bind_eq_ok, Nat.zero_add] at h
      obtain ⟨after, hstep, h⟩ := h
      cases h
      obtain ⟨hkey, hcases⟩ := ih hbefore
      rw [prefixStep] at hstep
      rcases hcases with ⟨rfl, rfl⟩ | ⟨cs', prev, encs, rfl, hencs, hprev, hparent, hparts⟩
      · -- the first component: the parent is still the base
        rw [List.length_nil, if_neg (lt_irrefl 0)] at hstep
        obtain ⟨enc, henc, hstep⟩ := Fallible.bind_eq_ok.mp hstep
        rw [Except.ok.injEq] at hstep
        subst hstep
        exact ⟨rfl, Or.inr ⟨[], last, [], rfl, rfl, henc, rfl, (List.append_nil _).symm⟩⟩
      · -- a later one: the component before it moves to the parent
        rw [if_pos (by simp)] at hstep
        obtain ⟨enc, henc, hstep⟩ := Fallible.bind_eq_ok.mp hstep
        rw [Except.ok.injEq] at hstep
        subst hstep
        rw [hkey] at henc ⊢
        refine ⟨by simp, Or.inr ⟨cs' ++ [prev], last, encs ++ [before.componentEnc],
          rfl, ?_, henc, rfl, ?_⟩⟩
        · rw [encryptComponents_append, hencs, Fallible.ok_bind, encryptComponents, hprev]
          rfl
        · rw [hparts, List.append_assoc]

/-! ## The components of a prefix

What follows a slash continues the list of components.  A prefix with its trailing slash therefore
is a list with an empty last component, which the first component of what is below it replaces.
-/

/-- A prefix that ends with a slash has an empty last component, and what follows it comes after the
components before. -/
lemma components_append_slash (raw rest : Bytes) :
    components (raw ++ slash :: rest) = raw.splitOn slash ++ rest.splitOn slash := by
  have hjoin : ∀ raw : Bytes, joinComponents (raw.splitOn slash) = raw :=
    fun raw => List.intercalate_splitOn slash
  have hpath : IsPath (raw.splitOn slash ++ rest.splitOn slash) := by
    refine ⟨fun c hc => ?_, fun heq => ?_⟩
    · rcases List.mem_append.mp hc with hc | hc
      · exact slash_notMem_splitOn hc
      · exact slash_notMem_splitOn hc
    · have hlen := congrArg List.length heq
      rw [List.length_append, List.length_singleton] at hlen
      have hraw := List.length_pos_iff.mpr (List.splitOn_ne_nil slash raw)
      have hrest := List.length_pos_iff.mpr (List.splitOn_ne_nil slash rest)
      omega
  rw [← components_joinComponents hpath,
    joinComponents_append (List.splitOn_ne_nil _ _) (List.splitOn_ne_nil _ _), hjoin, hjoin]

/-- The parent's ciphertext and what is below it. -/
def joinPrefix (parentEnc rest : Bytes) : Bytes :=
  if parentEnc = [] then rest else parentEnc ++ slash :: rest

lemma joinPrefix_joinComponents (hcs : cs ≠ [[]]) (hds : ds ≠ []) :
    joinPrefix (joinComponents cs) (joinComponents ds) = joinComponents (cs ++ ds) := by
  by_cases hc : cs = []
  · rw [hc]
    rfl
  · have hne : joinComponents cs ≠ [] := by
      intro hnil
      exact (joinComponents_eq_nil.mp hnil).elim hc hcs
    rw [joinPrefix, if_neg hne, joinComponents_append hc hds]

lemma joinComponents_concat (cs : List Bytes) (hds : ds ≠ []) :
    joinComponents (cs ++ [joinComponents ds]) = joinComponents (cs ++ ds) := by
  have hone : joinComponents [joinComponents ds] = joinComponents ds := by
    simp [joinComponents, List.intercalate]
  by_cases hc : cs = []
  · rw [hc, List.nil_append, List.nil_append, hone]
  · rw [joinComponents_append hc (List.cons_ne_nil _ _), joinComponents_append hc hds, hone]

/-! ## Paths below a prefix

Both the prefix and a path below it are sealed from the same start, so the ciphertext of the path
has the ciphertext of the parent in front.
-/

/-- A sealed component is not empty, whatever it was made of. -/
lemma encryptPathComponent_sealed_ne_nil {comp out : Bytes} (hnull : cipher ≠ .null)
    (hbase64 : cipher ≠ .nullBase64Url) (h : encryptPathComponent prim comp cipher key = .ok out) :
    out ≠ [] := by
  rcases encryptPathComponent_eq_ok hbase64 h with ⟨hn, _⟩ | ⟨_, _, _, rfl⟩
  · exact absurd hn hnull
  · exact encodeSegment_ne_nil _

lemma nil_notMem_encryptComponents (hnull : cipher ≠ .null) (hbase64 : cipher ≠ .nullBase64Url)
    (h : encryptComponents prim cs cipher key = .ok ds) : [] ∉ ds := by
  induction cs generalizing key ds with
  | nil =>
      cases h
      exact List.not_mem_nil
  | cons c cs ih =>
      rw [encryptComponents, Fallible.bind_eq_ok] at h
      obtain ⟨enc, henc, h⟩ := h
      obtain ⟨parts, hparts, h⟩ := Fallible.bind_eq_ok.mp h
      rw [Except.ok.injEq] at h
      subst h
      rw [List.mem_cons, not_or]
      exact ⟨(encryptPathComponent_sealed_ne_nil hnull hbase64 henc).symm, ih hparts⟩

/-- A base that starts a path has its ciphertext, unless it is empty, in front. -/
lemma encParts_of_start (hs : s.WF) {f : Bytes × Bytes → Bytes} {x : List Bytes}
    {p : Path Bytes Bytes} {base : Base} (h : (s.table bucket).Start f x p base) :
    (if !base.default && base.encrypted ≠ [] then [base.encrypted] else []) =
      if base.encrypted = [] then [] else [base.encrypted] := by
  have hdefault : base.default = true → base.encrypted = [] := by
    intro hdefault
    cases h with
    | entry hp _ _ =>
        obtain ⟨_, _, hfalse⟩ := hs.placed bucket p base hp
        rw [hdefault] at hfalse
        cases hfalse
    | root hroot _ =>
        obtain ⟨_, _, rfl⟩ := Option.map_eq_some_iff.mp hroot
        rfl
  by_cases hnil : base.encrypted = []
  · simp [hnil]
  · have hfalse : base.default = false := by
      cases hd : base.default with
      | false => rfl
      | true => exact absurd (hdefault hd) hnil
    simp [hnil, hfalse]

/-- **What is known of a prefix**: the key and the ciphertext of its parent. -/
lemma getPrefixInfo_eq_ok (hs : s.WF) (hbypass : s.encryptionBypass = false)
    {p : Path Bytes Bytes} {base : Base} {info : PrefixInfo} {keyPrefix : Bytes}
    (hstart : (s.table bucket).Start Prod.fst (components keyPrefix) p base)
    (hcipher : base.pathCipher.code ≠ 0) (h : getPrefixInfo prim bucket keyPrefix s = .ok info) :
    ∃ encs, encryptComponents prim (((components keyPrefix).drop p.length).dropLast)
        base.pathCipher (baseKey prim bucket base) = .ok encs ∧
      info.pathCipher = base.pathCipher ∧
      info.parentKey = (((components keyPrefix).drop p.length).dropLast).foldl
        (derivePathComponent prim) (baseKey prim bucket base) ∧
      info.parentEnc = joinComponents
        ((if base.encrypted = [] then [] else [base.encrypted]) ++ encs) := by
  obtain ⟨hbase, hrem⟩ := Store.lookup_of_start hs true hstart
  have happly : s.applyBypass base = base := by
    rw [Store.applyBypass, hbypass, if_neg Bool.false_ne_true]
  rw [getPrefixInfo, Store.lookupUnencrypted] at h
  dsimp only at h
  rw [hbase, hrem, happly] at h
  dsimp only at h
  have hparts := encParts_of_start hs hstart
  rw [hparts, if_neg hcipher] at h
  obtain ⟨st, hloop, h⟩ := Fallible.bind_eq_ok.mp h
  rw [Except.ok.injEq] at h
  subst h
  obtain ⟨_, ⟨hnil, rfl⟩ | ⟨cs, last, encs, hcs, hencs, _, hparent, henc⟩⟩ :=
    prefixLoop_eq_ok hloop
  · rw [hnil]
    exact ⟨[], rfl, rfl, rfl, by rw [List.append_nil]⟩
  · rw [hcs, List.dropLast_concat]
    exact ⟨encs, hencs, rfl, hparent, by rw [henc]⟩

/-- The two sealing ciphers are none of the others. -/
lemma sealing_ne (h : cipher = .aesGcm ∨ cipher = .secretBox) :
    cipher.code ≠ 0 ∧ cipher ≠ .null ∧ cipher ≠ .nullBase64Url := by
  rcases h with rfl | rfl
  · decide
  · decide

/-- **A path below a prefix** that starts where the prefix does is sealed as the ciphertext of the
parent followed by the rest of the path under the parent's key. -/
lemma encryptPathBytes_below (hs : s.WF) (hbypass : s.encryptionBypass = false)
    {p : Path Bytes Bytes} {base : Base} {info : PrefixInfo} {keyPrefix : Bytes} {rest : List Bytes}
    (hstart : (s.table bucket).Start Prod.fst (components keyPrefix) p base)
    (hstart' : (s.table bucket).Start Prod.fst (components path) p base)
    (hcipher : base.pathCipher = .aesGcm ∨ base.pathCipher = .secretBox)
    (h : getPrefixInfo prim bucket keyPrefix s = .ok info)
    (hpath : (components path).drop p.length =
      ((components keyPrefix).drop p.length).dropLast ++ rest) (hrest : rest ≠ []) :
    encryptPathBytes prim bucket path none s = (do
      let enc ← encryptIterator prim rest info.pathCipher info.parentKey
      .ok (joinPrefix info.parentEnc enc)) := by
  obtain ⟨hcode, hnull, hbase64⟩ := sealing_ne hcipher
  obtain ⟨encs, hencs, hcipher', hkey, henc⟩ := getPrefixInfo_eq_ok hs hbypass hstart hcode h
  have hnonempty : path ≠ [] := by
    rintro rfl
    rw [components, if_pos rfl, List.drop_nil, List.nil_eq, List.append_eq_nil_iff] at hpath
    exact hrest hpath.2
  have happly : s.applyBypass base = base := by
    rw [Store.applyBypass, hbypass, if_neg Bool.false_ne_true]
  rw [encryptPathBytes_of_start hs hstart' hnonempty, happly, hpath, encryptIterator,
    encryptIterator, encryptComponents_append, hencs, ← hkey, hcipher', Fallible.ok_bind]
  cases hds : encryptComponents prim rest base.pathCipher info.parentKey with
  | error err => rfl
  | ok ds =>
      have hlen := System.length_encryptAll (encryptComponents_eq_ok.mp hds)
      have hds' : ds ≠ [] := by
        rintro rfl
        exact hrest (List.length_eq_zero_iff.mp hlen.symm)
      -- the parts of the parent are not one empty part
      have hparts : (if base.encrypted = [] then [] else [base.encrypted]) ++ encs ≠ [[]] := by
        have hencs' := nil_notMem_encryptComponents hnull hbase64 hencs
        by_cases hnil : base.encrypted = []
        · rw [if_pos hnil, List.nil_append]
          rintro rfl
          exact hencs' List.mem_cons_self
        · rw [if_neg hnil, List.singleton_append]
          exact fun heq => hnil (List.cons.inj heq).1
      have happend : ((components keyPrefix).drop p.length).dropLast ++ rest ≠ [] := by
        simp [hrest]
      have hconcat : encs ++ ds ≠ [] := by simp [hds']
      simp only [Fallible.ok_bind]
      rw [henc, joinPrefix_joinComponents hparts hds', joinParts, if_neg happend,
        joinComponents_concat _ hconcat, List.append_assoc]

/-- **What was sealed of a path opens to it.** -/
lemma decryptIterator_encryptIterator (haes : prim.aesGcm.Lawful) (hbox : prim.secretBox.Lawful)
    (hcipher : cipher ≠ .nullBase64Url) {k enc : Bytes}
    (h : encryptIterator prim (components k) cipher key = .ok enc) :
    decryptIterator prim (components enc) cipher key = .ok k := by
  obtain ⟨ds, hds, henc⟩ := Fallible.bind_eq_ok.mp h
  cases henc
  have hall := encryptComponents_eq_ok.mp hds
  have hpath : IsPath ds := by
    refine isPath_enc (p := []) (k := (key, cipher)) hcipher (isPath_components k) ?_ ?_ hall
    · exact ⟨nofun, nofun⟩
    · exact Nat.zero_le _
  have hback : (pathSystem prim).decryptAll (key, cipher) ds = some (components k) := by
    refine System.decryptAll_encryptAll (P := fun k => k.2 ≠ .nullBase64Url) ?_ ?_ hcipher hall
    · intro k a hk
      rw [derive_snd]
      exact hk
    · intro k a b hk hab
      exact toOption_eq_some.mpr (decryptPathComponent_encryptPathComponent haes hbox hk
        (toOption_eq_some.mp hab))
  rw [components_joinComponents hpath, decryptIterator, decryptComponents_eq_ok.mpr hback,
    Fallible.ok_bind, joinComponents_components]

section Below

variable {keyPrefix : Bytes} {p : Path Bytes Bytes} {base : Base}

/-- No entry of the bucket is beyond a prefix. -/
def NoneBeyond (s : Store) (bucket : String) (keyPrefix : Bytes) : Prop :=
  ∀ p b, s.entry bucket p = some b → keyPrefix <+: b.unencrypted → b.unencrypted = keyPrefix

/-- No entry of the bucket is at a path. -/
def NoneAt (s : Store) (bucket : String) (path : Bytes) : Prop :=
  ∀ p b, s.entry bucket p = some b → b.unencrypted ≠ path

/-- **Below a prefix that is not an entry itself** paths start where the prefix starts. -/
lemma start_below (hs : s.WF) (hpref : keyPrefix = [] ∨ ∃ raw, keyPrefix = raw ++ [slash])
    (hbeyond : NoneBeyond s bucket keyPrefix)
    (hat : keyPrefix = [] ∨ NoneAt s bucket keyPrefix)
    (hstart : (s.table bucket).Start Prod.fst (components keyPrefix) p base) {k : Bytes}
    (hk : k ≠ []) :
    (s.table bucket).Start Prod.fst (components (keyPrefix ++ k)) p base ∧
      (components (keyPrefix ++ k)).drop p.length =
        ((components keyPrefix).drop p.length).dropLast ++ components k := by
  rcases hpref with rfl | ⟨raw, rfl⟩
  · -- the whole bucket: an entry can be at its root only
    have hp : p = [] := by
      have hle := hstart.length_le
      rw [components, if_pos rfl, List.length_nil] at hle
      exact List.length_eq_zero_iff.mp (Nat.le_zero.mp hle)
    subst hp
    refine ⟨hstart.move List.nil_prefix ?_, ?_⟩
    · rintro q ⟨b, hb⟩ _
      obtain ⟨hplain, _, _⟩ := hs.placed bucket q b hb
      have hplain : List.map Prod.fst q = components b.unencrypted := hplain
      rw [hplain, hbeyond q b hb List.nil_prefix]
    · rw [List.nil_append, List.length_nil, List.drop_zero]
      rfl
  · have hat : NoneAt s bucket (raw ++ [slash]) := hat.resolve_left (by simp)
    have hcomponents : components (raw ++ [slash]) = raw.splitOn slash ++ [[]] :=
      components_append_slash raw []
    have hcomponents' : components (raw ++ [slash] ++ k) =
        raw.splitOn slash ++ components k := by
      rw [List.append_assoc, List.singleton_append, components_append_slash, components, if_neg hk]
    have hp : plain p <+: raw.splitOn slash := by
      have hpre := hstart.isPrefix
      rw [hcomponents, List.prefix_concat_iff] at hpre
      refine hpre.resolve_left fun heq => ?_
      cases hstart with
      | entry hentry _ _ =>
          obtain ⟨hplain, _, _⟩ := hs.placed bucket p base hentry
          rw [← hcomponents] at heq
          exact hat p base hentry (components_injective (hplain.symm.trans heq))
      | root _ _ => simp at heq
    have hlen : p.length ≤ (raw.splitOn slash).length := by
      have hle := hp.length_le
      rwa [List.length_map] at hle
    refine ⟨hstart.move ?_ ?_, ?_⟩
    · rw [hcomponents']
      exact hp.trans (List.prefix_append _ _)
    · rintro q ⟨b, hb⟩ hq
      obtain ⟨hplain, _, _⟩ := hs.placed bucket q b hb
      rw [hcomponents'] at hq
      rcases List.prefix_or_prefix_of_prefix hq (List.prefix_append _ _) with hle | hge
      · rw [hcomponents]
        exact hle.trans (List.prefix_append _ _)
      · -- an entry further down would be beyond the prefix, or at it
        obtain ⟨rest, hrest⟩ := hge
        by_cases hnil : rest = []
        · rw [hnil, List.append_nil] at hrest
          rw [hcomponents, ← hrest]
          exact List.prefix_append _ _
        · have hjoin : b.unencrypted = raw ++ slash :: joinComponents rest := by
            have hsplit : components b.unencrypted = raw.splitOn slash ++ rest :=
              hplain.symm.trans hrest.symm
            rw [← joinComponents_components b.unencrypted, hsplit,
              joinComponents_append (List.splitOn_ne_nil _ _) hnil]
            exact congrArg (· ++ _) (List.intercalate_splitOn slash)
          refine absurd (hbeyond q b hb ?_) (hat q b hb)
          exact ⟨joinComponents rest, by rw [hjoin, List.append_assoc, List.singleton_append]⟩
    · rw [hcomponents, hcomponents', List.drop_append_of_le_length hlen,
        List.drop_append_of_le_length hlen, List.dropLast_concat]

/-- The empty component is sealed without the cipher. -/
lemma encryptPathComponent_nil (prim : PathPrimitives)
    (hcipher : cipher = .aesGcm ∨ cipher = .secretBox) (key : Key) :
    ∃ out, encryptPathComponent prim [] cipher key = .ok out := by
  obtain ⟨_, hnull, hbase64⟩ := sealing_ne hcipher
  rw [encryptPathComponent, if_neg hnull, if_neg hbase64]
  exact ⟨_, rfl⟩

/-- **At a prefix that is an entry itself** the listing takes the entry for the parent: the path
with one more slash is sealed with one component less than the listing expects. -/
lemma encryptPathBytes_ne_of_at (hs : s.WF) (hbypass : s.encryptionBypass = false)
    (hpref : ∃ raw, keyPrefix = raw ++ [slash]) (hbeyond : NoneBeyond s bucket keyPrefix)
    (hp : s.entry bucket p = some base) (hbase : base.unencrypted = keyPrefix)
    (hcipher : base.pathCipher = .aesGcm ∨ base.pathCipher = .secretBox) {info : PrefixInfo}
    (h : getPrefixInfo prim bucket keyPrefix s = .ok info) :
    encryptPathBytes prim bucket (keyPrefix ++ [slash]) none s ≠ (do
      let enc ← encryptIterator prim (components [slash]) info.pathCipher info.parentKey
      .ok (joinPrefix info.parentEnc enc)) := by
  obtain ⟨raw, rfl⟩ := hpref
  obtain ⟨hcode, _, _⟩ := sealing_ne hcipher
  obtain ⟨hplain, hencrypted, _⟩ := hs.placed bucket p base hp
  have hplain : p.map Prod.fst = components (raw ++ [slash]) := hbase ▸ hplain
  have hstart : (s.table bucket).Start Prod.fst (components (raw ++ [slash])) p base := by
    rw [← hplain]
    exact Table.start_self hp
  have hcomponents : components (raw ++ [slash] ++ [slash]) =
      components (raw ++ [slash]) ++ [[]] := by
    have hone := components_append_slash raw []
    have htwo := components_append_slash raw [slash]
    rw [List.append_assoc, List.singleton_append, htwo, hone, List.append_assoc]
    rfl
  -- the longer path starts at the entry as well
  have hstart' : (s.table bucket).Start Prod.fst (components (raw ++ [slash] ++ [slash])) p base := by
    refine hstart.move ?_ ?_
    · rw [hplain, hcomponents]
      exact List.prefix_append _ _
    · rintro q ⟨b, hb⟩ hq
      rw [hcomponents, List.prefix_concat_iff] at hq
      refine hq.resolve_left fun heq => ?_
      obtain ⟨hplain', _, _⟩ := hs.placed bucket q b hb
      rw [← hcomponents] at heq
      have hb' := components_injective (hplain'.symm.trans heq)
      have hlen := congrArg List.length
        (hbeyond q b hb (hb' ▸ List.prefix_append _ _))
      rw [hb', List.length_append, List.length_singleton] at hlen
      omega
  have hdrop : (components (raw ++ [slash])).drop p.length = [] := by
    rw [← hplain]
    simp
  have hdrop' : (components (raw ++ [slash] ++ [slash])).drop p.length = [[]] := by
    rw [hcomponents, ← hplain]
    exact List.drop_left' (by simp)
  have happly : s.applyBypass base = base := by
    rw [Store.applyBypass, hbypass, if_neg Bool.false_ne_true]
  have hne : base.encrypted ≠ [] := by
    intro hnil
    rw [hnil, components, if_pos rfl, List.map_eq_nil_iff] at hencrypted
    rw [hencrypted] at hplain
    have := components_eq_nil.mp hplain.symm
    simp at this
  obtain ⟨encs, hencs, hcipher', hkey, henc⟩ := getPrefixInfo_eq_ok hs hbypass hstart hcode h
  rw [hdrop] at hencs hkey
  cases hencs
  rw [List.append_nil, if_neg hne] at henc
  have hparent : info.parentEnc = base.encrypted := by
    rw [henc]
    simp [joinComponents, List.intercalate]
  have hkey : info.parentKey = baseKey prim bucket base := hkey
  -- one empty component below the entry, and two below the supposed parent
  obtain ⟨first, hfirst⟩ := encryptPathComponent_nil prim hcipher (baseKey prim bucket base)
  obtain ⟨second, hsecond⟩ := encryptPathComponent_nil prim hcipher
    (derivePathComponent prim (baseKey prim bucket base) [])
  have hone : encryptIterator prim [[]] base.pathCipher (baseKey prim bucket base) =
      .ok (joinComponents [first]) := by
    simp only [encryptIterator, encryptComponents, hfirst, Fallible.ok_bind]
  have htwo : encryptIterator prim (components [slash]) base.pathCipher
      (baseKey prim bucket base) = .ok (joinComponents [first, second]) := by
    have hslash : components [slash] = [[], []] := by decide
    simp only [hslash, encryptIterator, encryptComponents, hfirst, hsecond, Fallible.ok_bind]
  rw [encryptPathBytes_of_start hs hstart' (by simp), hdrop', happly, hcipher', hkey, hparent,
    hone, htwo, Fallible.ok_bind, Fallible.ok_bind]
  rw [ne_eq, Except.ok.injEq]
  intro heq
  have hlen := congrArg List.length heq
  rw [joinParts, if_neg hne, joinPrefix, if_neg hne] at hlen
  simp [joinComponents, List.intercalate] at hlen

end Below

end Storj.Enc
