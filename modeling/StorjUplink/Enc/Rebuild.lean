import Mathlib.Data.List.Find
import StorjUplink.Enc.Walk

/-!
# Rebuilding a store

A store is exported by a walk over its bases and rebuilt by adding them again.  What a lookup finds
depends on the entries of a store alone (`lookup_congr`), and entries that come from one store are
accepted in any order, since each agrees with all that can be there before it (`addAll_of_sub`).  So
every order of the walk and of the adds leads back to the same lookups (`rebuild`).

A grant is written down as the list of its entries and read back by adding them to an empty store,
one after the other.  The list comes from hash maps, so it may be any permutation, and an entry may
be read before or after one that lies above it.  None of this matters, and the reason is in two
halves: a lookup sees a store only through the function from paths to bases, and adding entries
that agree with each other gives, in any order, the store with those entries.

The second half needs that no add is refused on the way.  `addAll_of_sub` has it: what came out of
one store agrees in pairs, and a mapping is refused only by an entry that it does not agree with.
-/

namespace Storj.Enc

open KeyTree

/-- The same map: the same value, or none, under every key. -/
def SameMap (l m : List (Bytes × Bytes)) : Prop := ∀ k, l.lookup k = m.lookup k

/-- **The same result of a lookup**: its base, what remains of the path, and the map it reveals. -/
structure Lookup.Same (a b : Lookup) : Prop where
  base : a.base = b.base
  remaining : a.remaining = b.remaining
  revealed : Option.Rel SameMap a.revealed b.revealed

lemma Lookup.Same.refl (a : Lookup) : a.Same a := by
  refine ⟨rfl, rfl, ?_⟩
  cases a.revealed with
  | none => exact .none
  | some l => exact .some fun _ => rfl

namespace Node

variable {n m c : Node} {u e : Bytes} {unenc : Bool} {part : Bytes}

lemma unencMap_congr (hn : n.WF) (h : ∀ p, n.entry p = m.entry p)
    (hu : n.unencMap.lookup u = some e) : m.unencMap.lookup u = some e := by
  obtain ⟨p, b, hb⟩ := hn.linked.exists_entry hu
  rw [h] at hb
  exact (entry_cons.mp hb).1

/-- **The maps of a node are those of its entries.** -/
lemma sameMap (hn : n.WF) (hm : m.WF) (h : ∀ p, n.entry p = m.entry p) :
    SameMap n.unencMap m.unencMap ∧ SameMap n.encMap m.encMap := by
  have hiff : ∀ u e, n.unencMap.lookup u = some e ↔ m.unencMap.lookup u = some e :=
    fun u e => ⟨unencMap_congr hn h, unencMap_congr hm fun p => (h p).symm⟩
  refine ⟨fun u => Option.ext fun e => hiff u e, fun e => Option.ext fun u => ?_⟩
  rw [← hn.linked.inverse, ← hm.linked.inverse]
  exact hiff u e

/-- The entries below a child. -/
lemma entry_child (hu : n.unencMap.lookup u = some e) (hc : n.unenc.lookup u = some c)
    (p : Path Bytes Bytes) : n.entry ((u, e) :: p) = c.entry p := by
  rw [entry, if_pos hu, hc]
  rfl

/-- Nodes with the same entries have children with the same entries. -/
lemma child_congr (hn : n.WF) (hm : m.WF) (h : ∀ p, n.entry p = m.entry p)
    (hc : n.child unenc part = some c) :
    ∃ d, m.child unenc part = some d ∧ c.WF ∧ d.WF ∧ ∀ p, c.entry p = d.entry p := by
  obtain ⟨u, e, hside, hu, hc⟩ := (child_eq_some hn.linked).mp hc
  have hu' := unencMap_congr hn h hu
  obtain ⟨d, hd⟩ := Option.isSome_iff_exists.mp ((hm.linked.domain u).mp (by rw [hu']; rfl))
  refine ⟨d, (child_eq_some hm.linked).mpr ⟨u, e, hside, hu', hd⟩, hn.child hc, hm.child hd, ?_⟩
  intro p
  rw [← entry_child hu hc, ← entry_child hu' hd, h]

lemma child_eq_none (hn : n.WF) (hm : m.WF) (h : ∀ p, n.entry p = m.entry p)
    (hc : n.child unenc part = none) : m.child unenc part = none := by
  cases hd : m.child unenc part with
  | none => rfl
  | some d =>
      obtain ⟨c, hc', _⟩ := child_congr hm hn (fun p => (h p).symm) hd
      rw [hc] at hc'
      cases hc'

/-- **A lookup depends on the entries alone.** -/
lemma lookup_congr (hn : n.WF) (hm : m.WF) (h : ∀ p, n.entry p = m.entry p) (unenc : Bool)
    (x remaining : List Bytes) (best : Option Base) :
    (n.lookup unenc x remaining best).Same (m.lookup unenc x remaining best) := by
  have hbase : ∀ {n m : Node}, (∀ p, n.entry p = m.entry p) → n.base = m.base := fun h => h []
  induction x generalizing n m remaining best with
  | nil =>
      rw [lookup, lookup, hbase h]
      refine ⟨rfl, rfl, .some ?_⟩
      cases unenc with
      | true => exact (sameMap hn hm h).2
      | false => exact (sameMap hn hm h).1
  | cons part x ih =>
      rw [lookup, lookup, hbase h]
      cases hc : n.child unenc part with
      | none =>
          rw [child_eq_none hn hm h hc]
          exact .refl _
      | some c =>
          obtain ⟨d, hd, hcwf, hdwf, hentry⟩ := child_congr hn hm h hc
          rw [hd]
          exact ih hcwf hdwf hentry _ _

end Node

namespace Store

variable {s t : Store} {bucket : String} {p : Path Bytes Bytes} {b : Base} {m : Mapping}

/-- A bucket is there because of an entry. -/
def Inhabited (s : Store) : Prop :=
  ∀ bucket root, s.roots.lookup bucket = some root → ∃ p b, root.entry p = some b

lemma inhabited_of_roots {s : Store} (h : s.roots = []) : s.Inhabited := by
  intro bucket root hroot
  rw [h] at hroot
  cases hroot

lemma inhabited_tryAdd (hs : s.WF) (h : s.Inhabited) (m : Mapping) : (s.tryAdd m).2.Inhabited := by
  rw [tryAdd]
  cases hadd : (s.addWithCipher m.bucket m.unenc m.enc m.key m.pathCipher).1 with
  | error err =>
      rw [addWithCipher_error hadd]
      exact h
  | ok _ =>
      intro bucket root hroot
      rw [addWithCipher_snd hadd] at hroot
      dsimp only at hroot
      rw [Assoc.lookup_put] at hroot
      split_ifs at hroot with hb
      · cases hroot
        refine ⟨m.path, m.base, ?_⟩
        rw [Node.entry_add (hs.root _) (addWithCipher_fst (s := s) ▸ hadd), Mapping.path, pathOf,
          if_pos rfl, Mapping.base]
      · exact h bucket root hroot

lemma inhabited_run (hs : s.WF) (h : s.Inhabited) (ops : List Op) : (s.run ops).Inhabited := by
  induction ops generalizing s with
  | nil => exact h
  | cons op ops ih =>
      refine ih (hs.apply op) ?_
      cases op with
      | setDefaultKey key => exact h
      | setDefaultPathCipher cipher => exact h
      | setEncryptionBypass bypass => exact h
      | addWithCipher m => exact inhabited_tryAdd hs h m

/-- Where a bucket of one store has entries, so does it in another with the same ones. -/
lemma exists_root (h : ∀ bucket p, s.entry bucket p = t.entry bucket p) (hs : s.Inhabited)
    {root : Node} (hroot : s.roots.lookup bucket = some root) :
    ∃ root', t.roots.lookup bucket = some root' ∧ ∀ p, root.entry p = root'.entry p := by
  obtain ⟨p, b, hb⟩ := hs bucket root hroot
  have hsome : t.entry bucket p = some b := by
    rw [← h, entry, hroot]
    exact hb
  rw [entry] at hsome
  obtain ⟨root', hroot', _⟩ := Option.bind_eq_some_iff.mp hsome
  refine ⟨root', hroot', fun q => ?_⟩
  have hq := h bucket q
  rw [entry, entry, hroot, hroot'] at hq
  exact hq

/-- **Stores with the same entries walk to the same place.** -/
lemma walked_congr (hs : s.WF) (ht : t.WF) (his : s.Inhabited) (hit : t.Inhabited)
    (h : ∀ bucket p, s.entry bucket p = t.entry bucket p) (bucket : String) (path : Bytes)
    (unenc : Bool) : (s.walked bucket path unenc).Same (t.walked bucket path unenc) := by
  rw [walked, walked]
  cases hroot : s.roots.lookup bucket with
  | some root =>
      obtain ⟨root', hroot', hentry⟩ := exists_root h his hroot
      rw [hroot']
      exact Node.lookup_congr (hs.roots _ _ hroot) (ht.roots _ _ hroot') hentry unenc _ _ _
  | none =>
      cases hroot' : t.roots.lookup bucket with
      | none => exact .refl _
      | some root' =>
          obtain ⟨root, hsome, _⟩ := exists_root (fun b p => (h b p).symm) hit hroot'
          rw [hroot] at hsome
          cases hsome

/-- **Stores with the same entries and defaults look up alike.** -/
lemma lookup_congr (hs : s.WF) (ht : t.WF) (his : s.Inhabited) (hit : t.Inhabited)
    (h : ∀ bucket p, s.entry bucket p = t.entry bucket p) (hkey : s.defaultKey = t.defaultKey)
    (hcipher : s.defaultPathCipher = t.defaultPathCipher)
    (hbypass : s.encryptionBypass = t.encryptionBypass) (bucket : String) (path : Bytes)
    (unenc : Bool) : (s.lookup bucket path unenc).Same (t.lookup bucket path unenc) := by
  obtain ⟨hbase, hremaining, hrevealed⟩ := walked_congr hs ht his hit h bucket path unenc
  have happly : s.applyBypass = t.applyBypass := by
    funext base
    rw [applyBypass, applyBypass, hbypass]
  rw [lookup, lookup, hbase, hkey]
  cases (t.walked bucket path unenc).base with
  | some base => exact ⟨congrArg some (congrFun happly base), hremaining, hrevealed⟩
  | none =>
      cases t.defaultKey with
      | none => exact ⟨rfl, hremaining, hrevealed⟩
      | some key =>
          dsimp only
          rw [happly, defaultBase, defaultBase, hcipher]
          exact .refl _

/-! ## Adding again what was listed

Here the mappings are those of a walk.  They may be added in any order, and twice, since adding a
mapping again replaces a base by itself.
-/

/-- The arguments with which `iterate_with_cipher` calls back for a base. -/
def mappingOf (x : String × Base) : Mapping :=
  ⟨x.1, x.2.unencrypted, x.2.encrypted, x.2.key, x.2.pathCipher⟩

/-- Add mappings one after the other. -/
def addAll (s : Store) (l : List Mapping) : Store := l.foldl (fun s m => (s.tryAdd m).2) s

/-- The last of some mappings for the plaintext path of a bucket. -/
def lastAdd (l : List Mapping) (bucket : String) (unenc : Bytes) : Option Mapping :=
  l.reverse.find? fun m => m.bucket == bucket && m.unenc == unenc

/-- **What is listed**: the mappings whose base is at their path. -/
lemma mem_listed (hs : s.WF) {order : HashOrder} :
    m ∈ (s.iterate order).map mappingOf ↔ s.entry m.bucket m.path = some m.base := by
  rw [List.mem_map]
  constructor
  · rintro ⟨⟨bucket, b⟩, hmem, rfl⟩
    obtain ⟨p, hp⟩ := (mem_iterate hs).mp hmem
    obtain ⟨hplain, hcipher, hdefault⟩ := hs.placed bucket p b hp
    have hpath : (mappingOf (bucket, b)).path = p := by
      rw [Mapping.path, pathOf, mappingOf, ← hplain, ← hcipher]
      simp [List.zip_map']
    have hb : (mappingOf (bucket, b)).base = b := by
      rw [Mapping.base, mappingOf, ← hdefault]
    rw [hpath, hb]
    exact hp
  · intro h
    exact ⟨(m.bucket, m.base), (mem_iterate hs).mpr ⟨m.path, h⟩, rfl⟩

/-- A listed mapping is accepted by every store that has only entries of the same store. -/
lemma tryAdd_of_sub (hs : s.WF) (ht : t.WF)
    (hsub : ∀ bucket p b, t.entry bucket p = some b → s.entry bucket p = some b)
    (hm : s.entry m.bucket m.path = some m.base) : (t.tryAdd m).1 = .ok () := by
  refine (addWithCipher_ok_iff ht).mpr ⟨?_, ?_⟩
  · obtain ⟨hplain, hcipher, _⟩ := hs.placed _ _ _ hm
    have hplain : _ = components m.unenc := hplain
    have hcipher : _ = components m.enc := hcipher
    rw [← hplain, ← hcipher, List.length_map, List.length_map]
  · rintro q ⟨b, hb⟩
    exact hs.coherent m.bucket m.path q ⟨_, hm⟩ ⟨b, hsub m.bucket q b hb⟩

/-- What an accepted mapping leaves as it was. -/
lemma tryAdd_defaults (h : (t.tryAdd m).1 = .ok ()) : (t.tryAdd m).2.defaultKey = t.defaultKey ∧
    (t.tryAdd m).2.defaultPathCipher = t.defaultPathCipher ∧
    (t.tryAdd m).2.encryptionBypass = t.encryptionBypass := by
  rw [tryAdd, addWithCipher_snd h]
  exact ⟨rfl, rfl, rfl⟩

/-- **Listed mappings are accepted one after the other**, in any order and also twice, and leave the
entries that were there and their own. -/
lemma addAll_of_sub (hs : s.WF) (l : List Mapping)
    (hl : ∀ m ∈ l, s.entry m.bucket m.path = some m.base) (ht : t.WF) (hit : t.Inhabited)
    (hsub : ∀ bucket p b, t.entry bucket p = some b → s.entry bucket p = some b) :
    (∀ l₁ m l₂, l = l₁ ++ m :: l₂ → ((t.addAll l₁).tryAdd m).1 = .ok ()) ∧
    (t.addAll l).WF ∧ (t.addAll l).Inhabited ∧
    ((t.addAll l).defaultKey = t.defaultKey ∧
      (t.addAll l).defaultPathCipher = t.defaultPathCipher ∧
      (t.addAll l).encryptionBypass = t.encryptionBypass) ∧
    (∀ bucket p b, (t.addAll l).entry bucket p = some b → s.entry bucket p = some b) ∧
    (∀ bucket p b, t.entry bucket p = some b → (t.addAll l).entry bucket p = some b) ∧
    ∀ m ∈ l, (t.addAll l).entry m.bucket m.path = some m.base := by
  induction l generalizing t with
  | nil =>
      refine ⟨?_, ht, hit, ⟨rfl, rfl, rfl⟩, hsub, fun _ _ _ h => h, nofun⟩
      intro l₁ m l₂ h
      simp at h
  | cons m l ih =>
      have hm := hl m List.mem_cons_self
      have hok := tryAdd_of_sub hs ht hsub hm
      have hentry := entry_addWithCipher ht hok
      have hwf : (t.tryAdd m).2.WF := wf_addWithCipher ht hok
      have hsub' : ∀ bucket p b, (t.tryAdd m).2.entry bucket p = some b →
          s.entry bucket p = some b := by
        intro bucket p b hb
        rw [tryAdd, hentry] at hb
        split_ifs at hb with hp
        · cases hb
          rw [hp.1, hp.2]
          exact hm
        · exact hsub bucket p b hb
      obtain ⟨hsteps, hwf', hit', hdefaults, hback, hold, hnew⟩ :=
        ih (fun m hm => hl m (List.mem_cons_of_mem _ hm)) hwf (inhabited_tryAdd ht hit m) hsub'
      obtain ⟨hkey, hcipher, hbypass⟩ := tryAdd_defaults hok
      refine ⟨?_, hwf', hit', ⟨hdefaults.1.trans hkey, hdefaults.2.1.trans hcipher,
        hdefaults.2.2.trans hbypass⟩, hback, fun bucket p b hb => hold bucket p b ?_, ?_⟩
      · intro l₁ m' l₂ h
        cases l₁ with
        | nil =>
            cases h
            exact hok
        | cons m₁ l₁ =>
            rw [List.cons_append, List.cons.injEq] at h
            obtain ⟨rfl, h⟩ := h
            exact hsteps l₁ m' l₂ h
      · -- an entry at the same path is the same entry
        rw [tryAdd, hentry]
        split_ifs with hp
        · rw [← hsub bucket p b hb, hp.1, hp.2]
          exact hm.symm
        · exact hb
      · intro m' hm'
        rcases List.mem_cons.mp hm' with rfl | hm'
        · refine hold _ _ _ ?_
          rw [tryAdd, hentry, if_pos ⟨rfl, rfl⟩]
          rfl
        · exact hnew m' hm'

/-! ## The last mapping of a path

Of several adds for one path the last one counts.  The walk lists what is left at the end, so the
list of a run is the list of last adds, and the plaintext path alone tells which they are.
-/

/-- A mapping that was added has an entry at its path from then on. -/
lemma exists_entry_of_added (ops : List Op) (hm : m ∈ new.added ops) :
    ∃ b, (new.run ops).entry m.bucket m.path = some b := by
  have hentry := entry_run wf_new (l := []) (fun _ _ => rfl) ops m.bucket m.path
  rw [List.nil_append] at hentry
  have hfound : ((lastFor (new.added ops) m.bucket m.path)).isSome := by
    rw [lastFor, List.find?_isSome]
    exact ⟨m, List.mem_reverse.mpr hm, by simp⟩
  obtain ⟨m', hm'⟩ := Option.isSome_iff_exists.mp hfound
  exact ⟨m'.base, by rw [hentry, hm']; rfl⟩

/-- The two paths of an accepted mapping have the same number of components. -/
lemma length_of_added (hs : s.WF) (ops : List Op) (hm : m ∈ s.added ops) :
    (components m.unenc).length = (components m.enc).length := by
  induction ops generalizing s with
  | nil => cases hm
  | cons op ops ih =>
      rw [added, List.mem_append] at hm
      rcases hm with hm | hm
      · cases op with
        | setDefaultKey key => cases hm
        | setDefaultPathCipher cipher => cases hm
        | setEncryptionBypass bypass => cases hm
        | addWithCipher m' =>
            rw [addedBy] at hm
            cases hadd : (s.tryAdd m').1 with
            | error err =>
                rw [hadd] at hm
                cases hm
            | ok _ =>
                rw [hadd] at hm
                rw [List.mem_singleton] at hm
                rw [hm]
                exact ((addWithCipher_ok_iff hs).mp hadd).1
      · exact ih (hs.apply op) hm

/-- **Mappings with the same plaintext path have the same path**: a bucket never has two encrypted
paths for it. -/
lemma path_of_unenc (ops : List Op) {m' : Mapping} (hm : m ∈ new.added ops)
    (hm' : m' ∈ new.added ops) (hb : m'.bucket = m.bucket) :
    m'.unenc = m.unenc ↔ m'.path = m.path := by
  have hlen := length_of_added wf_new ops hm
  have hlen' := length_of_added wf_new ops hm'
  have hplain : ∀ {m : Mapping}, (components m.unenc).length = (components m.enc).length →
      plain m.path = components m.unenc := fun h => List.map_fst_zip h.le
  constructor
  · intro hu
    obtain ⟨b, hb₁⟩ := exists_entry_of_added ops hm
    obtain ⟨b', hb₂⟩ := exists_entry_of_added ops hm'
    rw [hb] at hb₂
    have hagree := (wf_new.run ops).coherent m.bucket m'.path m.path ⟨b', hb₂⟩ ⟨b, hb₁⟩
    have heq : m'.path.map Prod.fst = m.path.map Prod.fst :=
      (hplain hlen').trans (hu ▸ (hplain hlen).symm)
    refine (hagree.prefix_of_map side_fst ?_).eq_of_length ?_
    · rw [heq]
    · simpa using congrArg List.length heq
  · intro hp
    have heq : plain m'.path = plain m.path := by rw [hp]
    rw [hplain hlen', hplain hlen] at heq
    exact components_injective heq

/-- The last mapping for a plaintext path is the last one for the path. -/
lemma lastAdd_eq (ops : List Op) (hm : m ∈ new.added ops) :
    lastAdd (new.added ops) m.bucket m.unenc = lastFor (new.added ops) m.bucket m.path := by
  rw [lastAdd, lastFor]
  refine List.find?_congr fun m' hm' => ?_
  rw [List.mem_reverse] at hm'
  rw [Bool.eq_iff_iff, Bool.and_eq_true, Bool.and_eq_true, beq_iff_eq, beq_iff_eq, beq_iff_eq]
  exact and_congr_right (path_of_unenc ops hm hm')

lemma mem_of_lastFor {l : List Mapping} {m' : Mapping} (h : lastFor l bucket p = some m') :
    m' ∈ l ∧ m'.bucket = bucket ∧ m'.path = p := by
  have hmem := List.mem_reverse.mp (List.mem_of_find?_eq_some h)
  have hpred := List.find?_some h
  simpa [hmem] using hpred

/-- **What is listed of a run is the last mapping added for each path.** -/
lemma listed_iff (ops : List Op) (order : HashOrder) :
    m ∈ ((new.run ops).iterate order).map mappingOf ↔
      lastAdd (new.added ops) m.bucket m.unenc = some m := by
  have hentry := entry_run wf_new (l := []) (fun _ _ => rfl) ops m.bucket m.path
  rw [List.nil_append] at hentry
  rw [mem_listed (wf_new.run ops), hentry, Option.map_eq_some_iff]
  constructor
  · rintro ⟨m', hm', hb⟩
    obtain ⟨hmem, hbucket, _⟩ := mem_of_lastFor hm'
    have heq : m' = m := by
      rw [Mapping.base, Mapping.base, Base.mk.injEq] at hb
      obtain ⟨hu, he, hk, hc, _⟩ := hb
      cases m'
      cases m
      simp_all
    subst heq
    rw [lastAdd_eq ops hmem]
    exact hm'
  · intro h
    have hmem : m ∈ new.added ops := List.mem_reverse.mp (List.mem_of_find?_eq_some h)
    rw [lastAdd_eq ops hmem] at h
    exact ⟨m, h, rfl⟩

/-- **Exporting and rebuilding is the identity on lookups.**  Whatever the order of the hash maps,
a walk lists the last mapping added for each path of a bucket, once; and these are accepted again
one after the other, in any order, by a store with the same defaults, which then finds on both sides
the same base, the same remaining components and the same map. -/
theorem rebuild (ops : List Op) (order : HashOrder) :
    let s := new.run ops
    let listed := (s.iterate order).map mappingOf
    let fresh := { s with roots := [] }
    listed.Nodup ∧
    (∀ m, m ∈ listed ↔ lastAdd (new.added ops) m.bucket m.unenc = some m) ∧
    ∀ l, l.Perm listed →
      (∀ l₁ m l₂, l = l₁ ++ m :: l₂ → ((fresh.addAll l₁).tryAdd m).1 = .ok ()) ∧
      ∀ bucket path,
        ((fresh.addAll l).lookupUnencrypted bucket path).Same (s.lookupUnencrypted bucket path) ∧
        ((fresh.addAll l).lookupEncrypted bucket path).Same (s.lookupEncrypted bucket path) := by
  intro s listed fresh
  have hs : s.WF := wf_new.run ops
  have his : s.Inhabited := inhabited_run wf_new nofun ops
  refine ⟨?_, fun m => listed_iff ops order, fun l hl => ?_⟩
  · refine (List.nodup_map_iff_inj_on (nodup_iterate hs)).mpr ?_
    rintro ⟨bucket, b⟩ hb ⟨bucket', b'⟩ hb' heq
    obtain ⟨p, hp⟩ := (mem_iterate hs).mp hb
    obtain ⟨q, hq⟩ := (mem_iterate hs).mp hb'
    have hd := (hs.placed _ _ _ hp).2.2
    have hd' := (hs.placed _ _ _ hq).2.2
    rw [mappingOf, mappingOf, Mapping.mk.injEq] at heq
    cases b
    cases b'
    simp_all
  · have hfresh : fresh.WF := wf_of_roots rfl
    have hlisted : ∀ m ∈ l, s.entry m.bucket m.path = some m.base :=
      fun m hm => (mem_listed hs).mp (hl.mem_iff.mp hm)
    obtain ⟨hsteps, hwf, hit, ⟨hkey, hcipher, hbypass⟩, hback, _, hnew⟩ :=
      addAll_of_sub hs l hlisted hfresh nofun nofun
    refine ⟨hsteps, fun bucket path => ?_⟩
    have hentry : ∀ bucket p, (fresh.addAll l).entry bucket p = s.entry bucket p := by
      intro bucket p
      refine Option.ext fun b => ⟨hback bucket p b, fun hb => ?_⟩
      obtain ⟨hplain, hciph, hdefault⟩ := hs.placed bucket p b hb
      have hpath : (mappingOf (bucket, b)).path = p := by
        rw [Mapping.path, pathOf, mappingOf, ← hplain, ← hciph]
        simp [List.zip_map']
      have hbase : (mappingOf (bucket, b)).base = b := by
        rw [Mapping.base, mappingOf, ← hdefault]
      have hmem : mappingOf (bucket, b) ∈ l :=
        hl.mem_iff.mpr (List.mem_map.mpr ⟨_, (mem_iterate hs).mpr ⟨p, hb⟩, rfl⟩)
      have := hnew _ hmem
      rwa [hpath, hbase] at this
    exact ⟨lookup_congr hwf hs hit his hentry hkey hcipher hbypass bucket path true,
      lookup_congr hwf hs hit his hentry hkey hcipher hbypass bucket path false⟩

end Store

/-! ## Operations on paths

What an operation does with a store is decided by one lookup, and lookups agree.
-/

section Acting

variable {prim : PathPrimitives} {s t : Store} {bucket : String} {path : Bytes}

/-- What an operation on a path sees of a store is the base and what remains of the path. -/
lemma encryptPathBytes_congr (h : (s.lookupUnencrypted bucket path).Same
    (t.lookupUnencrypted bucket path)) : encryptPathBytes prim bucket path none s =
      encryptPathBytes prim bucket path none t := by
  rw [encryptPathBytes, encryptPathBytes]
  dsimp only
  rw [h.base, h.remaining]

lemma decryptPathBytes_congr (h : (s.lookupEncrypted bucket path).Same
    (t.lookupEncrypted bucket path)) : decryptPathBytes prim bucket path none s =
      decryptPathBytes prim bucket path none t := by
  rw [decryptPathBytes, decryptPathBytes]
  dsimp only
  rw [h.base, h.remaining]

lemma deriveContentKey_congr (h : (s.lookupUnencrypted bucket path).Same
    (t.lookupUnencrypted bucket path)) : deriveContentKey prim bucket path s =
      deriveContentKey prim bucket path t := by
  rw [deriveContentKey, deriveContentKey, derivePathKey, derivePathKey]
  dsimp only
  rw [h.base, h.remaining]

end Acting

end Storj.Enc
