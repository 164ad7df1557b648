import StorjUplink.Access.Runs
import StorjUplink.Access.Override
import StorjUplink.Access.Sample

/-!
# Grants that are echoed

`Grant::parse` keeps the text it was given if limiting the encryption access gave that access back,
as a list of entries.  The limited access is written from a walk through hash maps, so that two
entries of which none is above the other come back in any order, and the text is written anew.

For the entries of a grant that form a chain there is one order only (`iterate_eq_of_chain`).  If
the path caveats leave such entries as they are, the grant is echoed (`Settled.limitTo`); and so is
every grant without path caveats.

The text of a parsed grant is kept so that a user gets back what was pasted in.  The test for it is
an equality of lists, made after a walk through hash maps, and lists with the same entries in two
orders are not equal.  So whether a grant with two prefixes side by side is echoed depends on the
seed of the process that reads it, which the last section shows with two orders.

`Settled` is a condition under which the order is determined.  It asks that limiting has nothing to
do and that the entries lie above one another, and both can be read off the grant before it is
written.
-/

namespace Storj.Access

open Storj.Enc KeyTree

variable {prim : AccessPrimitives} {g g' g₀ : Grant} {enc : EncryptionAccess} {s t src : Store}
  {order : HashOrder} {bucket : String} {p : Path Bytes Bytes} {base : Base}
  {groups : List (List CaveatPath)} {path : CaveatPath} {c : CipherSuite}

/-! ## The ciphers of a run

Only ciphers that fit into the message can be written and read as themselves.
-/

/-- **A store that can be written**: its ciphers are 32-bit numbers. -/
structure Writable (s : Store) : Prop where
  wf : s.WF
  bypass : s.encryptionBypass = false
  default : InI32 s.defaultPathCipher.code
  entries : ∀ bucket p base, s.entry bucket p = some base → InI32 base.pathCipher.code

lemma Writable.add (h : Writable s) {unenc enc : Bytes} {key : Key} (hc : InI32 c.code)
    (hadd : (s.addWithCipher bucket unenc enc key c).1 = .ok ()) :
    Writable (s.addWithCipher bucket unenc enc key c).2 where
  wf := Store.wf_addWithCipher h.wf hadd
  bypass := (SameDefaults.add h.wf hadd).bypass.trans h.bypass
  default := by
    rw [(SameDefaults.add h.wf hadd).cipher]
    exact h.default
  entries bucket' q base hq := by
    rw [Store.entry_addWithCipher h.wf hadd] at hq
    split_ifs at hq
    · cases hq
      exact hc
    · exact h.entries bucket' q base hq

/-- A base that is looked up has one of the store's ciphers. -/
lemma Writable.lookup (h : Writable s) {path : Bytes} {unenc : Bool}
    (hbase : (s.lookup bucket path unenc).base = some base) : InI32 base.pathCipher.code := by
  rcases Store.lookup_spec h.wf bucket path unenc with ⟨p, b, hstart, hb, _⟩ | ⟨_, hnone⟩
  · rw [hb, Option.some.injEq, Store.applyBypass, h.bypass] at hbase
    subst hbase
    cases hstart with
    | entry hp _ _ => exact h.entries bucket p b hp
    | root hroot _ =>
        obtain ⟨key, _, rfl⟩ := Option.map_eq_some_iff.mp hroot
        exact h.default
  · rw [hnone] at hbase
    cases hbase

lemma Writable.addPrefix (h : Writable s) (hsrc : Writable src) :
    Writable (addPrefix prim src s path) := by
  rcases addPrefix_cases src s path with heq | ⟨_, _, _, base, _, _, _, hbase, hadd, heq⟩
  · rw [heq]
    exact h
  · rw [heq]
    exact h.add (hsrc.lookup hbase) hadd

lemma Writable.keepEntry (h : Writable s) {prefixes : List CaveatPath} {entry : StoreEntry}
    (hc : InI32 entry.pathCipher.code) (hkeep : keepEntry prefixes s entry = .ok t) :
    Writable t := by
  rw [Access.keepEntry] at hkeep
  split_ifs at hkeep
  · obtain ⟨_, _, hadd, rfl⟩ := addEntry_eq_ok.mp hkeep
    exact h.add hc hadd
  · cases hkeep
    exact h

/-- What is exported from a store can be written. -/
lemma Writable.listed (h : Writable s) (henc : enc = encFromStore order s) : Listed enc s :=
  ⟨h.wf, h.bypass, h.entries, order, by rw [henc]; rfl⟩

lemma Ranged.of_store (h : Writable s) (henc : g.encAccess = encFromStore order s) : Ranged g where
  cipher := by
    rw [henc]
    exact h.default
  listed := ⟨s, h.listed henc⟩

/-- The store of such a grant. -/
lemma Ranged.store (h : Ranged g) : ∃ s, storeFromEnc g.encAccess = .ok s ∧ Writable s := by
  obtain ⟨t, hlisted⟩ := h.listed
  obtain ⟨s, hstore, hwf, hbypass, _, hcipher, hentry⟩ := hlisted.store
  refine ⟨s, hstore, hwf, hbypass, hcipher ▸ h.cipher, fun bucket p base hp => ?_⟩
  rw [hentry] at hp
  exact hlisted.2.2.1 bucket p base hp

/-- **Step.** -/
lemma Ranged.call (h : Ranged g) {call : Call} (hcall : g.call prim call = .ok g') : Ranged g' := by
  obtain ⟨s, hstore, hs⟩ := h.store
  cases call with
  | overrideEncryptionKey order bucket keyPrefix key =>
      have hplace : g.overrideInPlace prim order bucket keyPrefix key = (.ok (), g') := by
        have hcall : g.overrideEncryptionKey prim order bucket keyPrefix key = .ok g' := hcall
        rw [Grant.overrideInPlace_eq, hcall]
      obtain ⟨store, encPath, hsrc, _, hadd, rfl⟩ := Grant.overrideInPlace_ok hplace
      rw [hstore, Except.ok.injEq] at hsrc
      subst hsrc
      exact Ranged.of_store (hs.add hs.default hadd) rfl
  | restrict order random permission prefixes =>
      obtain ⟨caveat, mac, encAccess, _, _, hlimit, rfl⟩ := Grant.restrict_eq_ok.mp hcall
      obtain ⟨groups, _, ⟨_, rfl⟩ | ⟨_, src, store, hsrc, hloops, rfl⟩⟩ := limitTo_eq_ok.mp hlimit
      · exact ⟨h.cipher, h.listed⟩
      · rw [hstore, Except.ok.injEq] at hsrc
        subst hsrc
        have hstart : Writable (Store.new.setDefaultPathCipher s.defaultPathCipher) :=
          ⟨Store.wf_of_roots rfl, rfl, hs.default, nofun⟩
        have hfirst : ∀ (l : List CaveatPath) {t : Store}, Writable t →
            Writable (l.foldl (addPrefix prim s) t) := by
          intro l
          induction l with
          | nil => exact fun ht => ht
          | cons path l ih => exact fun ht => ih (ht.addPrefix hs)
        obtain ⟨t, hlisted⟩ := h.listed
        have hlast : Writable store :=
          Fallible.foldlM_induction
            (fun entry hentry _ _ ht hkeep => ht.keepEntry (hlisted.cipher hentry) hkeep)
            (hfirst _ hstart) hloops
        exact Ranged.of_store hlast rfl

/-- **Run.** -/
lemma Ranged.reached {P : Grant → Call → Prop} (h₀ : Ranged g₀) (hrun : Grant.Reached prim P g₀ g) :
    Ranged g := by
  induction hrun with
  | refl => exact h₀
  | call _ _ hcall ih => exact ih.call hcall

/-- A grant without entries. -/
lemma Ranged.start (h : g₀.DefaultOnly prim) : Ranged g₀ := by
  refine ⟨h.cipher, g₀.encAccess.defaults, wf_defaults _, ?_, ?_, listedOrder, ?_⟩
  · have hstore : storeFromEnc g₀.encAccess = .ok g₀.encAccess.defaults := by
      rw [storeFromEnc, h.entries]
      rfl
    exact (storeFromEnc_spec hstore).2.1
  · intro bucket p base hp
    rw [entry_defaults] at hp
    cases hp
  · rw [h.entries, eq_comm, List.map_eq_nil_iff, List.eq_nil_iff_forall_not_mem]
    rintro ⟨bucket, base⟩ hx
    obtain ⟨p, hp⟩ := (Store.mem_iterate (wf_defaults _)).mp hx
    rw [entry_defaults] at hp
    cases hp

/-! ## Entries in one order

The first loop adds prefixes, each of which is an entry already, and the second adds the entries.
What results is the store that was read.
-/

/-- **The path caveats leave the entries as they are, and the entries are a chain.**  There is no
default key; every entry is allowed; the prefixes that the store opens and has a key for are those
of entries; and of two entries one is above the other. -/
structure Settled (prim : AccessPrimitives) (groups : List (List CaveatPath))
    (enc : EncryptionAccess) : Prop where
  defaultKey : enc.defaultKey = none
  allowed : ∀ e ∈ enc.storeEntries, ∃ path ∈ allowedPrefixes groups,
    path.Allows e.bucket e.encryptedPath
  opened : ∀ src, storeFromEnc enc = .ok src → ∀ path ∈ allowedPrefixes groups,
    ∀ bucket unenc key, utf8 bucket = path.bucket →
      decryptPath prim.toPathPrimitives bucket path.encryptedPathPrefix src = .ok unenc →
      derivePathKey prim.toPathPrimitives bucket unenc src = .ok key →
      ∃ e ∈ enc.storeEntries, e.bucket = path.bucket ∧ e.encryptedPath = path.encryptedPathPrefix
  chain : ∀ e ∈ enc.storeEntries, ∀ e' ∈ enc.storeEntries, e.bucket = e'.bucket ∧
    (components e.unencryptedPath <+: components e'.unencryptedPath ∨
      components e'.unencryptedPath <+: components e.unencryptedPath)

/-- The bases that start at an entry are the entry. -/
lemma acts_of_entry (prim : AccessPrimitives) (hs : s.WF) (hbypass : s.encryptionBypass = false)
    (hp : s.entry bucket p = some base) :
    (s.lookupEncrypted bucket base.encrypted).base = some base ∧
      decryptPath prim.toPathPrimitives bucket base.encrypted s = .ok base.unencrypted ∧
      derivePathKey prim.toPathPrimitives bucket base.unencrypted s = .ok base.key := by
  obtain ⟨hu, he, hd⟩ := hs.placed bucket p base hp
  have happly : s.applyBypass base = base := by
    rw [Store.applyBypass, hbypass]
    rfl
  have hcipher : (s.table bucket).Start (Node.side false) (components base.encrypted) p base := by
    rw [← he]
    exact Table.start_self hp
  have hplain : (s.table bucket).Start Prod.fst (components base.unencrypted) p base := by
    rw [← hu]
    exact Table.start_self hp
  have hplainLen : (components base.unencrypted).drop p.length = [] := by
    rw [← hu, List.drop_eq_nil_iff, List.length_map]
  have hcipherLen : (components base.encrypted).drop p.length = [] := by
    rw [← he, List.drop_eq_nil_iff, List.length_map]
  obtain ⟨hbase, hrem⟩ := Store.lookup_of_start hs false hcipher
  rw [happly] at hbase
  rw [hcipherLen] at hrem
  refine ⟨hbase, ?_, ?_⟩
  · rw [decryptPath, decryptPathBytes]
    split_ifs with hempty
    · -- the whole bucket
      rw [hempty, components, if_pos rfl, List.map_eq_nil_iff] at he
      rw [he, eq_comm, plain, List.map_nil] at hu
      rw [← joinComponents_components base.unencrypted, hu]
      rfl
    · rw [Store.lookupEncrypted]
      simp only [hbase, hrem, decryptIterator, decryptComponents, Fallible.ok_bind]
      rw [joinParts, if_pos rfl, List.append_nil]
      split_ifs with hroot
      · rw [hroot]
        rfl
      · simp [joinComponents, List.intercalate]
  · rw [derivePathKey_of_start hs hplain, hplainLen, happly, baseKey, hd]
    rfl

/-- A prefix that is an entry's is added as the entry. -/
lemma addPrefix_of_entry (hsrc : src.WF) (hbypass : src.encryptionBypass = false)
    (hp : src.entry bucket p = some base) (hbucket : utf8 bucket = path.bucket)
    (hpath : base.encrypted = path.encryptedPathPrefix) (ht : t.WF) (hsub : Sub t src) :
    SameDefaults t (addPrefix prim src t path) ∧ Sub (addPrefix prim src t path) src := by
  obtain ⟨hbase, hdec, hkey⟩ := acts_of_entry prim hsrc hbypass hp
  obtain ⟨t', hadd, hsame, hentry⟩ := addEntry_of_sub hsrc ht hsub hp
  obtain ⟨bucket', hname, _, rfl⟩ := addEntry_eq_ok.mp hadd
  obtain rfl : bucket' = bucket := utf8_injective hname
  have hpref : addPrefix prim src t path = (t.addWithCipher bucket' base.unencrypted base.encrypted
      base.key base.pathCipher).2 := by
    rw [addPrefix, fromUtf8_eq_some.mpr hbucket, ← hpath]
    simp only [hdec, hkey, hbase]
  rw [hpref]
  refine ⟨hsame, fun bucket q base' hq => ?_⟩
  have hq := (hentry bucket q).symm.trans hq
  split_ifs at hq with hbp
  · cases hq
    rw [hbp.1, hbp.2]
    exact hp
  · exact hsub bucket q base' hq

/-- What is written in a listed access is there. -/
lemma Listed.entry (h : Listed enc s) {e : StoreEntry} (he : e ∈ enc.storeEntries) :
    ∃ bucket p base, e = entryOf (bucket, base) ∧ s.entry bucket p = some base := by
  obtain ⟨hs, _, _, order, hentries⟩ := h
  rw [hentries] at he
  obtain ⟨⟨bucket, base⟩, hx, rfl⟩ := List.mem_map.mp he
  obtain ⟨p, hp⟩ := (Store.mem_iterate hs).mp hx
  exact ⟨bucket, p, base, rfl, hp⟩

/-- **The first loop adds nothing but entries.** -/
lemma Settled.firstLoop (h : Settled prim groups enc) (hlisted : Listed enc s)
    (hstore : storeFromEnc enc = .ok src) (hsrc : ∀ bucket p, src.entry bucket p = s.entry bucket p)
    {l : List CaveatPath} (hl : ∀ path ∈ l, path ∈ allowedPrefixes groups) (ht : t.WF)
    (hsub : Sub t src) : SameDefaults t (l.foldl (addPrefix prim src) t) ∧
      Sub (l.foldl (addPrefix prim src) t) src := by
  obtain ⟨hwf, hbypass, _⟩ := storeFromEnc_spec hstore
  induction l generalizing t with
  | nil => exact ⟨.refl ht, hsub⟩
  | cons path l ih =>
      have hstep : SameDefaults t (addPrefix prim src t path) ∧
          Sub (addPrefix prim src t path) src := by
        rcases addPrefix_cases src t path with heq | ⟨bucket, unenc, key, _, hb, hdec, hkey, _⟩
        · rw [heq]
          exact ⟨.refl ht, hsub⟩
        · obtain ⟨e, he, hbucket, hpath⟩ :=
            h.opened src hstore path (hl path List.mem_cons_self) bucket unenc key hb hdec hkey
          obtain ⟨bucket', p, base, rfl, hp⟩ := hlisted.entry he
          rw [← hsrc] at hp
          exact addPrefix_of_entry hwf hbypass hp hbucket hpath ht hsub
      obtain ⟨hsame, hsub'⟩ := ih (fun path hpath => hl path (List.mem_cons_of_mem _ hpath))
        hstep.1.wf hstep.2
      exact ⟨hstep.1.trans hsame, hsub'⟩

/-- The second loop keeps what is allowed. -/
lemma foldlM_keepEntry {prefixes : List CaveatPath} {l : List StoreEntry}
    (h : ∀ e ∈ l, ∃ path ∈ prefixes, path.Allows e.bucket e.encryptedPath) (t : Store) :
    l.foldlM (keepEntry prefixes) t = l.foldlM addEntry t := by
  induction l generalizing t with
  | nil => rfl
  | cons e l ih =>
      rw [List.foldlM_cons, List.foldlM_cons, keepEntry, if_pos (h e List.mem_cons_self)]
      exact bind_congr fun t' => ih (fun e he => h e (List.mem_cons_of_mem _ he)) t'

/-- **A settled access is its own limit**, whatever the order of the maps. -/
theorem Settled.limitTo (h : Settled prim groups enc) (hlisted : Listed enc s)
    (hparameters : enc.defaultEncryptionParameters = none) (hne : groups ≠ []) {apiKey : ApiKey}
    (hgroups : pathGroups prim apiKey = .ok groups) (order : HashOrder) :
    limitTo prim order enc apiKey = .ok enc := by
  obtain ⟨src, hstore, hwf, _, hkey, hcipher, hentry⟩ := hlisted.store
  obtain ⟨hs, _, _, order₀, hentries⟩ := id hlisted
  have hnew : (Store.new.setDefaultPathCipher src.defaultPathCipher).WF :=
    Store.wf_of_roots rfl
  obtain ⟨hsame, hsub⟩ := h.firstLoop hlisted hstore hentry (fun _ hpath => hpath) hnew nofun
  have hall : ∀ x ∈ s.iterate order₀, ∃ p, src.entry x.1 p = some x.2 := by
    intro x hx
    obtain ⟨p, hp⟩ := (Store.mem_iterate hs).mp hx
    exact ⟨p, (hentry x.1 p).trans hp⟩
  obtain ⟨store, hloop, hsame', hsub', hiff⟩ := foldlM_of_sub hwf _ hall hsame.wf hsub
  have hbases : ∀ bucket p, s.entry bucket p = store.entry bucket p := by
    intro bucket p
    refine Option.ext fun base => ?_
    rw [hiff]
    constructor
    · intro hp
      exact Or.inr ⟨(Store.mem_iterate hs).mpr ⟨p, hp⟩, (hentry bucket p).trans hp⟩
    · rintro (hp | ⟨_, hp⟩)
      · rw [← hentry]
        exact hsub bucket p base hp
      · rw [← hentry]
        exact hp
  refine limitTo_eq_ok.mpr ⟨groups, hgroups, Or.inr ⟨hne, src, store, hstore, ?_, ?_⟩⟩
  · rw [foldlM_keepEntry h.allowed, hentries]
    exact hloop
  · have hwalk : s.iterate order₀ = store.iterate order := by
      refine Store.iterate_eq_of_chain hs hsame'.wf hbases fun x hx y hy => ?_
      have hmem : ∀ x ∈ s.iterate order₀, entryOf x ∈ enc.storeEntries := by
        intro x hx
        rw [hentries]
        exact List.mem_map.mpr ⟨x, hx, rfl⟩
      obtain ⟨hbucket, hchain⟩ := h.chain _ (hmem x hx) _ (hmem y hy)
      exact ⟨utf8_injective hbucket, hchain⟩
    have hnone : store.defaultKey = enc.defaultKey := by
      rw [h.defaultKey, hsame'.key, hsame.key]
      rfl
    have hdefault : store.defaultPathCipher = enc.defaultPathCipher := by
      rw [hsame'.cipher, hsame.cipher]
      exact hcipher
    rw [encFromStore, hnone, hdefault, ← hwalk, ← hentries, ← hparameters]

/-! ## Written and parsed

The text is parsed to the fields, the access is limited to itself, and the comparison succeeds.
-/

namespace Grant

/-- **A grant whose text is kept**: its API key and the caveats are read, and either no caveat is
for paths or its access, as it is read, is settled. -/
def Settled (prim : AccessPrimitives) (g : Grant) : Prop :=
  ∃ mac groups, Macaroon.parse g.apiKey = .ok mac ∧ pathGroups prim ⟨mac⟩ = .ok groups ∧
    (groups = [] ∨ Access.Settled prim groups g.encAccess.reread)

/-- A grant that is parsed with a default key has no path caveat, and its text in every order. -/
lemma parse_default {serialized : String} (hkey : g.encAccess.defaultKey ≠ none)
    (hparse : parse prim order serialized = .ok g) (order' : HashOrder) :
    g.original = some serialized ∧ parse prim order' serialized = .ok g := by
  obtain ⟨hne, data, scope, hdecode, hscope, hof⟩ := parse_eq_ok.mp hparse
  obtain ⟨haddr, hapi, mac, encPb, enc, limited, hmac, hpb, hproto, hlimit, rfl⟩ :=
    ofScope_eq_ok.mp hof
  obtain ⟨groups, hgroups, ⟨hnil, rfl⟩ | ⟨_, src, store, _, hloops, rfl⟩⟩ := limitTo_eq_ok.mp hlimit
  · rw [if_pos rfl]
    have hlimit' : limitTo prim order' limited ⟨mac⟩ = .ok limited :=
      limitTo_eq_ok.mpr ⟨groups, hgroups, Or.inl ⟨hnil, rfl⟩⟩
    refine ⟨rfl, parse_eq_ok.mpr ⟨hne, data, scope, hdecode, hscope, ofScope_eq_ok.mpr ?_⟩⟩
    exact ⟨haddr, hapi, mac, encPb, limited, limited, hmac, hpb, hproto, hlimit', by rw [if_pos rfl]⟩
  · -- limited accesses have no default key
    exact absurd (limiting_loops hloops).defaultKey hkey

/-- A call drops the text that was parsed. -/
lemma original_call {call : Call} (hcall : g.call prim call = .ok g') : g'.original = none := by
  cases call with
  | overrideEncryptionKey order bucket keyPrefix key =>
      have hplace : g.overrideInPlace prim order bucket keyPrefix key = (.ok (), g') := by
        have hcall : g.overrideEncryptionKey prim order bucket keyPrefix key = .ok g' := hcall
        rw [overrideInPlace_eq, hcall]
      obtain ⟨_, _, _, _, _, rfl⟩ := overrideInPlace_ok hplace
      rfl
  | restrict order random permission prefixes =>
      obtain ⟨_, _, _, _, _, _, rfl⟩ := restrict_eq_ok.mp hcall
      rfl

/-- A settled grant that is written from its fields is echoed. -/
lemma echo_written (hprim : prim.Lawful) (hranged : Ranged g) (hsettled : g.Settled prim)
    (haddr : g.satelliteAddr ≠ "") (hkey : g.apiKey ≠ []) (order : HashOrder) :
    ∃ g', parse prim order (g.written prim) = .ok g' ∧ g'.serialize prim = .ok (g.written prim) := by
  obtain ⟨s, hlisted⟩ := hranged.listed
  have hreread : Listed g.encAccess.reread s := hlisted
  obtain ⟨t, hstore, _⟩ := hreread.store
  obtain ⟨mac, groups, hmac, hgroups, hcases⟩ := hsettled
  have hlimit : limitTo prim order g.encAccess.reread ⟨mac⟩ = .ok g.encAccess.reread := by
    by_cases hne : groups = []
    · exact limitTo_eq_ok.mpr ⟨groups, hgroups, Or.inl ⟨hne, rfl⟩⟩
    · exact (hcases.resolve_left hne).limitTo hreread rfl hne hgroups order
  refine ⟨_, (parse_written hprim haddr hkey hranged.cipher (fun e he => hlisted.cipher he)
    (fun e he => hlisted.parameters he) hstore).mpr ⟨mac, _, hmac, hlimit, rfl⟩, ?_⟩
  rw [if_pos rfl]
  rfl

/-- **Unmodified grants serialize verbatim**, if they are settled: the text of every settled grant
that is reached from a grant with only a default key is parsed, in every order of the maps, to a
grant with that text. -/
theorem parse_serialize_verbatim (hprim : prim.Lawful) (hstart : g₀.DefaultOnly prim)
    (hrun : Reached prim (fun _ _ => True) g₀ g) (hsettled : g.Settled prim) {text : String}
    (htext : g.serialize prim = .ok text) (order : HashOrder) :
    ∃ g', parse prim order text = .ok g' ∧ g'.serialize prim = .ok text := by
  have hranged : Ranged g := (Ranged.start hstart).reached hrun
  have horiginal : g.original = none ∨ parse prim order text = .ok g := by
    cases hrun with
    | call _ _ hcall => exact Or.inl (original_call hcall)
    | refl =>
        rcases hstart.original with hnone | ⟨order₀, serialized, hparse⟩
        · exact Or.inl hnone
        · obtain ⟨hsome, hagain⟩ := parse_default hstart.defaultKey hparse order
          rw [serialize, hsome, Except.ok.injEq] at htext
          rw [← htext]
          exact Or.inr hagain
  rcases horiginal with hnone | hagain
  · rw [serialize, hnone] at htext
    obtain ⟨haddr, hkey, rfl⟩ := serializeFromFields_eq_ok.mp htext
    exact echo_written hprim hranged hsettled haddr hkey order
  · exact ⟨g, hagain, htext⟩

end Grant

/-! ### Shares with two prefixes

A share of a prefix and one below it is settled.  A share of two prefixes side by side is not, and
an order of the maps is given in which its text changes.
-/

/-- A share of the sample grant. -/
def sampleShare (prefixes : List SharePrefix) : Except Error Grant :=
  defaultGrant.restrict bytePrimitives listedOrder (.ok (Vector.replicate 4 0))
    { allowDownload := true } prefixes

lemma defaultOnly_sample : defaultGrant.DefaultOnly bytePrimitives where
  defaultKey := by decide
  entries := rfl
  cipher := by
    rw [InI32]
    decide
  original := Or.inl rfl

lemma reached_sample {prefixes : List SharePrefix} {r : Grant} (h : sampleShare prefixes = .ok r) :
    Grant.Reached bytePrimitives (fun _ _ => True) defaultGrant r :=
  .call (c := .restrict listedOrder (.ok (Vector.replicate 4 0)) { allowDownload := true } prefixes)
    .refl trivial h

/-- A share is written. -/
lemma serialize_sample {prefixes : List SharePrefix} {r : Grant} (h : sampleShare prefixes = .ok r) :
    r.satelliteAddr ≠ "" ∧ r.apiKey ≠ [] ∧
      r.serialize bytePrimitives = .ok (r.written bytePrimitives) := by
  obtain ⟨_, _, _, _, _, _, rfl⟩ := Grant.restrict_eq_ok.mp h
  have haddr : defaultGrant.satelliteAddr ≠ "" := by decide
  refine ⟨haddr, List.cons_ne_nil _ _, ?_⟩
  exact Grant.serializeFromFields_eq_ok.mpr ⟨haddr, List.cons_ne_nil _ _, rfl⟩

/-- The prefixes of the caveats are those of the entries, which are a chain. -/
def chained (r : Grant) : Bool :=
  match Macaroon.parse r.apiKey with
  | .error _ => false
  | .ok mac =>
      match pathGroups bytePrimitives ⟨mac⟩ with
      | .error _ => false
      | .ok groups => r.encAccess.defaultKey = none ∧
          (∀ e ∈ r.encAccess.storeEntries, ∃ path ∈ allowedPrefixes groups,
            path.Allows e.bucket e.encryptedPath) ∧
          (∀ path ∈ allowedPrefixes groups, ∃ e ∈ r.encAccess.storeEntries,
            e.bucket = path.bucket ∧ e.encryptedPath = path.encryptedPathPrefix) ∧
          ∀ e ∈ r.encAccess.storeEntries, ∀ e' ∈ r.encAccess.storeEntries, e.bucket = e'.bucket ∧
            (components e.unencryptedPath <+: components e'.unencryptedPath ∨
              components e'.unencryptedPath <+: components e.unencryptedPath)

lemma settled_of_chained {r : Grant} (h : chained r = true) : r.Settled bytePrimitives := by
  rw [chained] at h
  split at h
  · cases h
  · rename_i mac hmac
    split at h
    · cases h
    · rename_i groups hgroups
      obtain ⟨hkey, hallowed, hopened, hchain⟩ := of_decide_eq_true h
      exact ⟨mac, groups, hmac, hgroups, Or.inr ⟨hkey, hallowed,
        fun _ _ path hpath _ _ _ _ _ _ => hopened path hpath, hchain⟩⟩

/-- A prefix and one below it. -/
theorem parse_serialize_verbatim_sample : ∃ r text r',
    sampleShare [⟨"b", "a/"⟩, ⟨"b", "a/c/"⟩] = .ok r ∧ r.serialize bytePrimitives = .ok text ∧
      Grant.parse bytePrimitives listedOrder text = .ok r' ∧
      r'.serialize bytePrimitives = .ok text := by
  have hany : (sampleShare [⟨"b", "a/"⟩, ⟨"b", "a/c/"⟩]).toOption.any chained := by decide +kernel
  obtain ⟨r, hr, hchained⟩ := (Option.any_eq_true _ _).mp hany
  rw [toOption_eq_some] at hr
  obtain ⟨_, _, htext⟩ := serialize_sample hr
  obtain ⟨r', hparse, hecho⟩ := Grant.parse_serialize_verbatim bytePrimitives_lawful
    defaultOnly_sample (reached_sample hr) (settled_of_chained hchained) htext listedOrder
  exact ⟨r, _, r', hr, htext, hparse, hecho⟩

/-- The order in which the maps are listed, backwards. -/
def reversedOrder : HashOrder where
  roots := List.reverse
  children _ _ := List.reverse
  roots_perm l := l.reverse_perm
  children_perm _ _ l := l.reverse_perm

/-- The access as it is limited in that order. -/
def limitedBackwards (r : Grant) : Except Error EncryptionAccess := do
  let mac ← Macaroon.parse r.apiKey
  limitTo bytePrimitives reversedOrder r.encAccess.reread ⟨mac⟩

/-- Different accesses are written differently. -/
lemma toProto_of_written {r r' : Grant}
    (h : r.written bytePrimitives = r'.written bytePrimitives) :
    r.encAccess.toProto = r'.encAccess.toProto := by
  have hdecode := congrArg (checkDecode bytePrimitives) h
  rw [Grant.written, Grant.written, checkDecode_checkEncode bytePrimitives_lawful,
    checkDecode_checkEncode bytePrimitives_lawful, Except.ok.injEq, Prod.mk.injEq] at hdecode
  have hscope := congrArg bytePrimitives.decodeScope hdecode.1
  have hread : ∀ scope, bytePrimitives.decodeScope (bytePrimitives.encodeScope scope) = .ok scope :=
    Sample.readAll_write Sample.scope
  rw [hread, hread, Except.ok.injEq, Pb.Scope.mk.injEq, Option.some.injEq] at hscope
  exact hscope.2.2

/-- **Two prefixes side by side are written anew**: the share is parsed, its entries change places,
and the text that is written is another. -/
theorem parse_serialize_reordered : defaultGrant.DefaultOnly bytePrimitives ∧
    ∃ r text r', sampleShare [⟨"b", "a/"⟩, ⟨"b", "c/"⟩] = .ok r ∧
      Grant.Reached bytePrimitives (fun _ _ => True) defaultGrant r ∧
      r.serialize bytePrimitives = .ok text ∧
      Grant.parse bytePrimitives reversedOrder text = .ok r' ∧
      r'.serialize bytePrimitives ≠ .ok text := by
  have hany : (sampleShare [⟨"b", "a/"⟩, ⟨"b", "c/"⟩]).toOption.any fun r =>
      (limitedBackwards r).toOption.any fun limited =>
        limited ≠ r.encAccess.reread ∧ limited.toProto ≠ r.encAccess.toProto := by decide +kernel
  obtain ⟨r, hr, hlimited⟩ := (Option.any_eq_true _ _).mp hany
  obtain ⟨limited, hlimit, hne⟩ := (Option.any_eq_true _ _).mp hlimited
  rw [toOption_eq_some] at hr hlimit
  obtain ⟨hchanged, hne⟩ := of_decide_eq_true hne
  obtain ⟨mac, hmac, hlimit⟩ := Fallible.bind_eq_ok.mp hlimit
  obtain ⟨haddr, hkey, htext⟩ := serialize_sample hr
  have hranged := (Ranged.start defaultOnly_sample).reached (reached_sample hr)
  obtain ⟨s, hlisted⟩ := hranged.listed
  have hreread : Listed r.encAccess.reread s := hlisted
  obtain ⟨t, hstore, _⟩ := hreread.store
  refine ⟨defaultOnly_sample, r, _, _, hr, reached_sample hr, htext,
    (Grant.parse_written bytePrimitives_lawful haddr hkey hranged.cipher
      (fun e he => hlisted.cipher he) (fun e he => hlisted.parameters he) hstore).mpr
        ⟨mac, limited, hmac, hlimit, rfl⟩, ?_⟩
  rw [if_neg hchanged]
  intro hsame
  obtain ⟨_, _, hwritten⟩ := Grant.serializeFromFields_eq_ok.mp hsame
  exact hne (toProto_of_written hwritten).symm

end Storj.Access
