import StorjUplink.Lib.Assoc
import StorjUplink.Lib.KeyTree
import StorjUplink.Enc.Path

/-!
# The encryption store

`store.rs`: a trie of encryption bases for each bucket, and a default key.  A node has its children
by plaintext component, and the plaintext and ciphertext components of its children in two maps.

`Node.add` works in place, so it returns the node as it is afterwards together with its result,
also where it fails.  `Node.at` reads a trie as a table of paths: what `add` does to it is
`add_spec`, and what the two lookups find in it is the deepest entry above a path (`lookup_spec`).
The whole store is then a flat table with longest-prefix match, `Store.refines_table`.

A mapping is added under two paths at once, the plaintext and the ciphertext, and both have to lead
to the same node.  The trie therefore has the children under their plaintext component and, beside
them, two maps between the components of the two sides.  What may go wrong is that one side leads
to a child and the other to a different one, or to none; the add is then refused, and the trie is
as it was (`add_error`), although the code works in place and may have descended several levels by
then.

`WF` is the invariant: the maps of a node are inverse to each other and a child exists because an
entry is below it.  With it the entries of a trie agree in pairs (`WF.agree`), so that either side
of a path identifies the node, and a lookup by the ciphertext is as good as one by the plaintext.
-/

namespace Storj.Enc

open KeyTree

/-- `Base`: a key with which to derive further keys, and where it is. -/
structure Base where
  unencrypted : Bytes
  encrypted : Bytes
  key : Key
  pathCipher : CipherSuite
  default : Bool
deriving DecidableEq

/-- `Node` of the trie: the children by plaintext component, the two maps between the components,
and the base if an entry ends here. -/
inductive Node where
  | mk (unenc : List (Bytes × Node)) (unencMap encMap : List (Bytes × Bytes)) (base : Option Base)

namespace Node

/-- Children by plaintext component. -/
def unenc : Node → List (Bytes × Node)
  | ⟨unenc, _, _, _⟩ => unenc

/-- Plaintext component to ciphertext component. -/
def unencMap : Node → List (Bytes × Bytes)
  | ⟨_, unencMap, _, _⟩ => unencMap

/-- Ciphertext component to plaintext component. -/
def encMap : Node → List (Bytes × Bytes)
  | ⟨_, _, encMap, _⟩ => encMap

def base : Node → Option Base
  | ⟨_, _, _, base⟩ => base

/-- `Node::default`. -/
def empty : Node := ⟨[], [], [], none⟩

def setBase (n : Node) (base : Base) : Node := ⟨n.unenc, n.unencMap, n.encMap, some base⟩

def setChild (n : Node) (u : Bytes) (child : Node) : Node :=
  ⟨Assoc.put u child n.unenc, n.unencMap, n.encMap, n.base⟩

def link (n : Node) (u e : Bytes) : Node :=
  ⟨n.unenc, Assoc.put u e n.unencMap, Assoc.put e u n.encMap, n.base⟩

/-- Another component is there already in place of this one. -/
def taken (map : List (Bytes × Bytes)) (k v : Bytes) : Bool :=
  match map.lookup k with
  | some ex => ex != v
  | none => false

/-- `Node::add`: its result, and the node afterwards. -/
def add (base : Base) : Node → List Bytes → List Bytes → Except Error Unit × Node
  | n, [], [] => (.ok (), n.setBase base)
  | n, [], _ :: _ => (.error ⟨.conflict,
      "encrypted and unencrypted paths had different number of components"⟩, n)
  | n, _ :: _, [] => (.error ⟨.conflict,
      "encrypted and unencrypted paths had different number of components"⟩, n)
  | n, u :: unenc, e :: enc =>
      if taken n.encMap e u then
        (.error ⟨.conflict, "conflicting encrypted parts for unencrypted path"⟩, n)
      else if taken n.unencMap u e then
        (.error ⟨.conflict, "conflicting encrypted parts for unencrypted path"⟩, n)
      else
        match n.unenc.lookup u with
        | some child =>
            match add base child unenc enc with
            | (.error err, child') => (.error err, n.setChild u child')
            | (.ok (), child') => (.ok (), (n.setChild u child').link u e)
        | none =>
            match add base empty unenc enc with
            | (.error err, _) => (.error err, n)
            | (.ok (), child) => (.ok (), (n.setChild u child).link u e)

end Node

/-- `Lookup`: what can be revealed at the path, the components that the base does not cover, and the
base. -/
structure Lookup where
  revealed : Option (List (Bytes × Bytes))
  remaining : List Bytes
  base : Option Base

namespace Node

/-- The child under a component, of the plaintext or of the ciphertext. -/
def child (n : Node) (unenc : Bool) (part : Bytes) : Option Node :=
  if unenc then n.unenc.lookup part
  else (n.encMap.lookup part).bind fun unencPart => n.unenc.lookup unencPart

/-- `Node::lookup`: the deepest base so far and what was left of the path there. -/
def lookup (unenc : Bool) : Node → List Bytes → List Bytes → Option Base → Lookup
  | n, [], bestRemaining, bestBase =>
      let best := if n.base.isSome || bestBase.isNone then ([], n.base)
        else (bestRemaining, bestBase)
      ⟨some (if unenc then n.encMap else n.unencMap), best.1, best.2⟩
  | n, part :: iter, bestRemaining, bestBase =>
      let best := if n.base.isSome || bestBase.isNone then (part :: iter, n.base)
        else (bestRemaining, bestBase)
      match n.child unenc part with
      | none => ⟨none, best.1, best.2⟩
      | some child => lookup unenc child iter best.1 best.2

end Node

/-- The orders in which the hash maps of a store are walked: one for its buckets and one for the
children of each node, any order of their keys.  A statement for all of these is a statement about
every seed of the hasher. -/
structure HashOrder where
  roots : List String → List String
  children : String → List Bytes → List Bytes → List Bytes
  roots_perm : ∀ l, (roots l).Perm l
  children_perm : ∀ bucket position l, (children bucket position l).Perm l

mutual

/-- `Node::iterate_with_cipher`: the bases in the order in which they are visited. -/
def Node.visit (order : HashOrder) (bucket : String) (position : List Bytes) : Node → List Base
  | ⟨unenc, _, _, base⟩ =>
      base.toList ++ (order.children bucket position (Assoc.keys unenc)).flatMap fun u =>
        ((visitAll order bucket position unenc).lookup u).getD []

def visitAll (order : HashOrder) (bucket : String) (position : List Bytes) :
    List (Bytes × Node) → List (Bytes × List Base)
  | [] => []
  | (u, n) :: l => (u, n.visit order bucket (position ++ [u])) :: visitAll order bucket position l

end

/-- `Store`: a trie for each bucket, the default key with its cipher, and the bypass. -/
structure Store where
  roots : List (String × Node)
  defaultKey : Option Key
  defaultPathCipher : CipherSuite
  encryptionBypass : Bool

namespace Store

/-- `Store::new`. -/
def new : Store := ⟨[], none, .unspecified, false⟩

/-- `Store::set_default_key`. -/
def setDefaultKey (s : Store) (key : Key) : Store := { s with defaultKey := some key }

/-- `Store::set_default_path_cipher`. -/
def setDefaultPathCipher (s : Store) (cipher : CipherSuite) : Store :=
  { s with defaultPathCipher := cipher }

/-- The trie of a bucket, an empty one if there is none. -/
def root (s : Store) (bucket : String) : Node := (s.roots.lookup bucket).getD .empty

/-- `Store::add_with_cipher`: its result, and the store afterwards.  It works on a copy of the
bucket's trie. -/
def addWithCipher (s : Store) (bucket : String) (unenc enc : Bytes) (key : Key)
    (pathCipher : CipherSuite) : Except Error Unit × Store :=
  match (s.root bucket).add ⟨unenc, enc, key, pathCipher, false⟩ (components unenc)
      (components enc) with
  | (.error err, _) => (.error err, s)
  | (.ok (), root') => (.ok (), { s with roots := Assoc.put bucket root' s.roots })

/-- `Store::add`. -/
def add (s : Store) (bucket : String) (unenc enc : Bytes) (key : Key) :
    Except Error Unit × Store :=
  s.addWithCipher bucket unenc enc key s.defaultPathCipher

/-- `Store::default_base`. -/
def defaultBase (s : Store) (key : Key) : Base := ⟨[], [], key, s.defaultPathCipher, true⟩

/-- `Store::apply_bypass`, on a base. -/
def applyBypass (s : Store) (base : Base) : Base :=
  if s.encryptionBypass then { base with pathCipher := .nullBase64Url } else base

/-- The first half of `Store::lookup`: the walk through the trie of the bucket. -/
def walked (s : Store) (bucket : String) (path : Bytes) (unenc : Bool) : Lookup :=
  match s.roots.lookup bucket with
  | some root => root.lookup unenc (components path) [] none
  | none => ⟨none, [], none⟩

/-- `Store::lookup`. -/
def lookup (s : Store) (bucket : String) (path : Bytes) (unenc : Bool) : Lookup :=
  let walked := s.walked bucket path unenc
  match walked.base, s.defaultKey with
  | none, some key => ⟨none, components path, some (s.applyBypass (s.defaultBase key))⟩
  | _, _ => { walked with base := walked.base.map s.applyBypass }

/-- `Store::lookup_unencrypted`, by the components as the caller has them. -/
def lookupUnencrypted (s : Store) (bucket : String) (path : Bytes) : Lookup :=
  s.lookup bucket path true

/-- `Store::lookup_encrypted`, by the components as the satellite has them. -/
def lookupEncrypted (s : Store) (bucket : String) (path : Bytes) : Lookup :=
  s.lookup bucket path false

/-- `Store::iterate_with_cipher`: the bases in the order in which they are visited, with their
buckets. -/
def iterate (s : Store) (order : HashOrder) : List (String × Base) :=
  (order.roots (Assoc.keys s.roots)).flatMap fun bucket =>
    match s.roots.lookup bucket with
    | some root => (root.visit order bucket []).map (bucket, ·)
    | none => []

end Store

/-! ## A trie as a table

The tree is forgotten and only the function from paths to bases is kept.  What `add` does to the
tree is one update of the function, and every other fact about tries in later modules goes through
this one.
-/

namespace Node

variable {n m c : Node} {base b : Base} {u e : Bytes} {x y : List Bytes} {p q : Path Bytes Bytes}
  {err : Error}

/-- The base at a path. -/
def entry (n : Node) : Path Bytes Bytes → Option Base
  | [] => n.base
  | (u, e) :: p =>
      if n.unencMap.lookup u = some e then (n.unenc.lookup u).bind fun child => child.entry p
      else none

/-- The node below a plaintext path. -/
def walk (n : Node) : List Bytes → Option Node
  | [] => some n
  | u :: x => (n.unenc.lookup u).bind fun child => child.walk x

/-- **What holds at one node**: the two maps are inverse to each other, their components are those
of the children, and there is something below each child. -/
structure Linked (n : Node) : Prop where
  inverse : ∀ u e, n.unencMap.lookup u = some e ↔ n.encMap.lookup e = some u
  domain : ∀ u, (n.unencMap.lookup u).isSome ↔ (n.unenc.lookup u).isSome
  nodup : (Assoc.keys n.unenc).Nodup
  inhabited : ∀ u c, n.unenc.lookup u = some c → ∃ p b, c.entry p = some b

/-- Every node of a trie is linked. -/
def WF (n : Node) : Prop := ∀ x m, n.walk x = some m → m.Linked

lemma WF.linked (h : n.WF) : n.Linked := h [] n rfl

lemma WF.child (h : n.WF) (hc : n.unenc.lookup u = some c) : c.WF := by
  intro x m hm
  refine h (u :: x) m ?_
  rw [walk, hc]
  exact hm

lemma WF.of_linked (h : n.Linked) (hc : ∀ u c, n.unenc.lookup u = some c → c.WF) : n.WF := by
  intro x m hm
  cases x with
  | nil =>
      cases hm
      exact h
  | cons u x =>
      rw [walk] at hm
      obtain ⟨c, hlookup, hm⟩ := Option.bind_eq_some_iff.mp hm
      exact hc u c hlookup x m hm

lemma wf_empty : empty.WF := by
  refine WF.of_linked ⟨fun u e => ?_, fun u => Iff.rfl, List.nodup_nil, nofun⟩ nofun
  exact ⟨nofun, nofun⟩

/-- The entries below a component. -/
lemma entry_cons : n.entry ((u, e) :: p) = some b ↔
    n.unencMap.lookup u = some e ∧ ∃ c, n.unenc.lookup u = some c ∧ c.entry p = some b := by
  rw [entry]
  by_cases h : n.unencMap.lookup u = some e
  · rw [if_pos h, Option.bind_eq_some_iff]
    exact ⟨fun hc => ⟨h, hc⟩, fun hc => hc.2⟩
  · rw [if_neg h]
    exact ⟨nofun, fun hc => absurd hc.1 h⟩

/-- A component of the maps is there because of an entry. -/
lemma Linked.exists_entry (h : n.Linked) (hu : n.unencMap.lookup u = some e) :
    ∃ p b, n.entry ((u, e) :: p) = some b := by
  obtain ⟨c, hc⟩ := Option.isSome_iff_exists.mp ((h.domain u).mp (by rw [hu]; rfl))
  obtain ⟨p, b, hb⟩ := h.inhabited u c hc
  exact ⟨p, b, entry_cons.mpr ⟨hu, c, hc, hb⟩⟩

lemma taken_eq_false {map : List (Bytes × Bytes)} {k v : Bytes} :
    taken map k v = false ↔ ∀ ex, map.lookup k = some ex → ex = v := by
  rw [taken]
  cases h : map.lookup k with
  | none => simp
  | some ex => simp

/-- The child that `add` descends into, a new one if there is none. -/
def descend (n : Node) (u : Bytes) : Node := (n.unenc.lookup u).getD empty

lemma WF.descend (h : n.WF) (u : Bytes) : (n.descend u).WF := by
  rw [Node.descend]
  cases hc : n.unenc.lookup u with
  | none => exact wf_empty
  | some c => exact h.child hc

/-- **What a successful `add` does at one node.** -/
lemma add_cons_ok : (add base n (u :: x) (e :: y)).1 = .ok () ↔
    taken n.encMap e u = false ∧ taken n.unencMap u e = false ∧
      (add base (n.descend u) x y).1 = .ok () := by
  rw [add, descend]
  cases taken n.encMap e u with
  | true => simp
  | false =>
      cases taken n.unencMap u e with
      | true => simp
      | false =>
          cases n.unenc.lookup u with
          | none =>
              rcases hadd : add base empty x y with ⟨r, c'⟩
              cases r <;> simp [hadd]
          | some c =>
              rcases hadd : add base c x y with ⟨r, c'⟩
              cases r <;> simp [hadd]

lemma add_cons_snd (h : (add base n (u :: x) (e :: y)).1 = .ok ()) :
    (add base n (u :: x) (e :: y)).2 = (n.setChild u (add base (n.descend u) x y).2).link u e := by
  obtain ⟨h₁, h₂, hr⟩ := add_cons_ok.mp h
  rw [descend] at hr ⊢
  rw [add, h₁, h₂]
  cases hc : n.unenc.lookup u with
  | none =>
      rw [hc] at hr
      rcases hadd : add base empty x y with ⟨r, c'⟩
      simp only [Option.getD_none, hadd] at hr ⊢
      subst hr
      rfl
  | some c =>
      rw [hc] at hr
      rcases hadd : add base c x y with ⟨r, c'⟩
      simp only [Option.getD_some, hadd] at hr ⊢
      subst hr
      rfl

/-- **A failed `add` changes nothing**, however deep the conflict is. -/
lemma add_error (h : (add base n x y).1 = .error err) : (add base n x y).2 = n := by
  induction x generalizing n y with
  | nil =>
      cases y with
      | nil => cases h
      | cons e y => rfl
  | cons u x ih =>
      cases y with
      | nil => rfl
      | cons e y =>
          rw [add] at h ⊢
          split_ifs at h ⊢ with h₁ h₂
          · rfl
          · rfl
          · cases hc : n.unenc.lookup u with
            | none =>
                rcases hadd : add base empty x y with ⟨r, c'⟩
                simp only [hc, hadd] at h ⊢
                cases r with
                | error err => rfl
                | ok _ => cases h
            | some c =>
                rcases hadd : add base c x y with ⟨r, c'⟩
                simp only [hc, hadd] at h ⊢
                cases r with
                | ok _ => cases h
                | error err =>
                    cases h
                    -- the child is put back as it was
                    have hc' : c' = c := by
                      have := ih (n := c) (y := y) (by rw [hadd])
                      rwa [hadd] at this
                    simp only [hc', setChild, Assoc.put_self hc]
                    cases n
                    rfl

/-- **When `add` succeeds**: the paths have the same length, and part with every entry at the same
component on both sides. -/
lemma add_ok_iff (hn : n.WF) : (add base n x y).1 = .ok () ↔
    x.length = y.length ∧ ∀ q b, n.entry q = some b → Agree (x.zip y) q := by
  induction x generalizing n y with
  | nil =>
      cases y with
      | nil => simp [add]
      | cons e y => simp [add]
  | cons u x ih =>
      cases y with
      | nil => simp [add]
      | cons e y =>
          rw [add_cons_ok, ih (hn.descend u), taken_eq_false, taken_eq_false]
          have hlink := hn.linked
          constructor
          · rintro ⟨henc, hunenc, hlen, hagree⟩
            refine ⟨by simpa using hlen, fun q b hb => ?_⟩
            cases q with
            | nil => exact Agree.nil_right _
            | cons a q =>
                obtain ⟨u', e'⟩ := a
                obtain ⟨hu', c, hc, hq⟩ := entry_cons.mp hb
                rw [List.zip_cons_cons, Agree.cons_iff]
                refine ⟨⟨?_, ?_⟩, ?_⟩
                · rintro rfl
                  exact (hunenc e' hu').symm
                · rintro rfl
                  exact (henc u' ((hlink.inverse _ _).mp hu')).symm
                · rintro ⟨⟩
                  refine hagree q b ?_
                  rw [descend, hc]
                  exact hq
          · rintro ⟨hlen, hagree⟩
            refine ⟨fun u' hu' => ?_, fun e' he' => ?_, by simpa using hlen, fun q b hb => ?_⟩
            · obtain ⟨p, b, hb⟩ := hlink.exists_entry ((hlink.inverse u' e).mpr hu')
              have := hagree _ b hb
              rw [List.zip_cons_cons, Agree.cons_iff] at this
              exact (this.1.mpr rfl).symm
            · obtain ⟨p, b, hb⟩ := hlink.exists_entry he'
              have := hagree _ b hb
              rw [List.zip_cons_cons, Agree.cons_iff] at this
              exact (this.1.mp rfl).symm
            · rw [descend] at hb
              cases hc : n.unenc.lookup u with
              | none =>
                  rw [hc] at hb
                  cases q with
                  | nil => cases hb
                  | cons a q =>
                      obtain ⟨_, _, hlookup, _⟩ := entry_cons.mp hb
                      cases hlookup
              | some c =>
                  rw [hc] at hb
                  obtain ⟨e', he'⟩ := Option.isSome_iff_exists.mp
                    ((hlink.domain u).mpr (by rw [hc]; rfl))
                  have := hagree ((u, e') :: q) b (entry_cons.mpr ⟨he', c, hc, hb⟩)
                  rw [List.zip_cons_cons, Agree.cons_iff] at this
                  have hee : e = e' := this.1.mp rfl
                  exact this.2 (by rw [hee])

@[simp] lemma entry_empty (p : Path Bytes Bytes) : empty.entry p = none := by
  cases p with
  | nil => rfl
  | cons a p => rfl

lemma lookup_unenc_link (c : Node) (u u' e : Bytes) :
    ((n.setChild u c).link u e).unenc.lookup u' = if u' = u then some c else n.unenc.lookup u' :=
  Assoc.lookup_put u u' c n.unenc

lemma lookup_unencMap_link (c : Node) (u u' e : Bytes) :
    ((n.setChild u c).link u e).unencMap.lookup u'
      = if u' = u then some e else n.unencMap.lookup u' :=
  Assoc.lookup_put u u' e n.unencMap

lemma lookup_encMap_link (c : Node) (u e e' : Bytes) :
    ((n.setChild u c).link u e).encMap.lookup e'
      = if e' = e then some u else n.encMap.lookup e' :=
  Assoc.lookup_put e e' u n.encMap

/-- What stands below the component that `add` descends into. -/
lemma entry_descend (hn : n.Linked) (hu : taken n.unencMap u e = false) :
    (n.descend u).entry q = n.entry ((u, e) :: q) := by
  rw [descend, entry]
  cases hc : n.unenc.lookup u with
  | none => simp
  | some c =>
      obtain ⟨e', he'⟩ := Option.isSome_iff_exists.mp ((hn.domain u).mpr (by rw [hc]; rfl))
      rw [taken_eq_false] at hu
      rw [he', hu e' he', if_pos rfl]
      rfl

/-- **A successful `add` sets the base of its path** and leaves all others. -/
lemma entry_add (hn : n.WF) (h : (add base n x y).1 = .ok ()) (q : Path Bytes Bytes) :
    (add base n x y).2.entry q = if q = x.zip y then some base else n.entry q := by
  induction x generalizing n y q with
  | nil =>
      cases y with
      | cons e y => cases h
      | nil =>
          cases q with
          | nil => rfl
          | cons a q => rfl
  | cons u x ih =>
      cases y with
      | nil => cases h
      | cons e y =>
          obtain ⟨henc, hunenc, hr⟩ := add_cons_ok.mp h
          rw [add_cons_snd h, List.zip_cons_cons]
          cases q with
          | nil => rfl
          | cons a q =>
              obtain ⟨u', e'⟩ := a
              rw [entry, lookup_unencMap_link, lookup_unenc_link]
              by_cases hu : u' = u
              · subst hu
                rw [if_pos rfl, if_pos rfl, Option.bind_some, ih (hn.descend u') hr]
                by_cases he : e' = e
                · subst he
                  rw [if_pos rfl, entry_descend hn.linked hunenc]
                  simp
                · have hold : n.entry ((u', e') :: q) = none := by
                    rw [entry, if_neg]
                    intro hlookup
                    exact he (taken_eq_false.mp hunenc e' hlookup)
                  rw [if_neg (by simpa using Ne.symm he), if_neg (by simp [he]), hold]
              · have hne : ¬(u', e') :: q = (u, e) :: x.zip y := by simp [hu]
                rw [if_neg hu, if_neg hu, if_neg hne, entry]

/-- **`add` keeps the trie linked.** -/
lemma wf_add (hn : n.WF) (h : (add base n x y).1 = .ok ()) : (add base n x y).2.WF := by
  induction x generalizing n y with
  | nil =>
      cases y with
      | cons e y => cases h
      | nil =>
          have hlink := hn.linked
          refine WF.of_linked ⟨hlink.inverse, hlink.domain, hlink.nodup, hlink.inhabited⟩ ?_
          intro u c hc
          exact hn.child hc
  | cons u x ih =>
      cases y with
      | nil => cases h
      | cons e y =>
          obtain ⟨henc, hunenc, hr⟩ := add_cons_ok.mp h
          rw [taken_eq_false] at henc hunenc
          have hlink := hn.linked
          rw [add_cons_snd h]
          have hwf := ih (hn.descend u) hr
          refine WF.of_linked ⟨?_, ?_, Assoc.nodup_put hlink.nodup, ?_⟩ ?_
          · intro u' e'
            rw [lookup_unencMap_link, lookup_encMap_link]
            by_cases hu : u' = u
            · subst hu
              rw [if_pos rfl]
              by_cases he : e' = e
              · rw [if_pos he, he]
                simp
              · rw [if_neg he, ← hlink.inverse]
                refine ⟨fun h => absurd (Option.some.inj h).symm he, fun h => ?_⟩
                exact absurd (hunenc e' h) he
            · rw [if_neg hu]
              by_cases he : e' = e
              · subst he
                rw [if_pos rfl, hlink.inverse]
                refine ⟨fun h => absurd (henc u' h) hu, fun h => ?_⟩
                exact absurd (Option.some.inj h).symm hu
              · rw [if_neg he, hlink.inverse]
          · intro u'
            rw [lookup_unencMap_link, lookup_unenc_link]
            by_cases hu : u' = u
            · simp [hu]
            · rw [if_neg hu, if_neg hu]
              exact hlink.domain u'
          · intro u' c hc
            rw [lookup_unenc_link] at hc
            split_ifs at hc with hu
            · cases hc
              exact ⟨x.zip y, base, by rw [entry_add (hn.descend u) hr, if_pos rfl]⟩
            · exact hlink.inhabited u' c hc
          · intro u' c hc
            rw [lookup_unenc_link] at hc
            split_ifs at hc with hu
            · cases hc
              exact hwf
            · exact hn.child hc

/-- **The entries of a trie agree.** -/
lemma WF.agree {b' : Base} (hn : n.WF) (hp : n.entry p = some b) (hq : n.entry q = some b') :
    Agree p q := by
  induction p generalizing n q with
  | nil => exact Agree.nil_left q
  | cons a p ih =>
      cases q with
      | nil => exact Agree.nil_right _
      | cons a' q =>
          obtain ⟨u, e⟩ := a
          obtain ⟨u', e'⟩ := a'
          obtain ⟨he, c, hc, hp⟩ := entry_cons.mp hp
          obtain ⟨he', c', hc', hq⟩ := entry_cons.mp hq
          rw [Agree.cons_iff]
          refine ⟨⟨?_, ?_⟩, ?_⟩
          · rintro rfl
            rw [he, Option.some.injEq] at he'
            exact he'
          · rintro rfl
            rw [hn.linked.inverse] at he he'
            rw [he, Option.some.injEq] at he'
            exact he'
          · rintro ⟨⟩
            rw [hc, Option.some.injEq] at hc'
            subst hc'
            exact ih (hn.child hc) hp hq

/-! ### Lookups

The loop goes down as long as there is a child and remembers the last base that it saw.  The same
loop serves both sides, so `side` is a parameter of its specification.
-/

/-- The side of a component that a lookup goes by. -/
def side (unenc : Bool) : Bytes × Bytes → Bytes := if unenc then Prod.fst else Prod.snd

lemma isSide (unenc : Bool) : Side (side unenc) := by
  cases unenc with
  | true => exact side_fst
  | false => exact side_snd

/-- The child under a component is the one that entries below go through. -/
lemma child_eq_some (hn : n.Linked) {unenc : Bool} {part : Bytes} :
    n.child unenc part = some c ↔ ∃ u e, side unenc (u, e) = part ∧
      n.unencMap.lookup u = some e ∧ n.unenc.lookup u = some c := by
  cases unenc with
  | true =>
      rw [child, if_pos rfl]
      constructor
      · intro hc
        obtain ⟨e, he⟩ := Option.isSome_iff_exists.mp ((hn.domain part).mpr (by rw [hc]; rfl))
        exact ⟨part, e, rfl, he, hc⟩
      · rintro ⟨u, e, rfl, _, hc⟩
        exact hc
  | false =>
      rw [child, if_neg Bool.false_ne_true, Option.bind_eq_some_iff]
      constructor
      · rintro ⟨u, hu, hc⟩
        exact ⟨u, part, rfl, (hn.inverse u part).mpr hu, hc⟩
      · rintro ⟨u, e, rfl, he, hc⟩
        exact ⟨u, (hn.inverse u e).mp he, hc⟩

/-- **The deepest entry of a trie above a path.** -/
def Deepest (n : Node) (unenc : Bool) (x : List Bytes) (p : Path Bytes Bytes) (b : Base) : Prop :=
  n.entry p = some b ∧ p.map (side unenc) <+: x ∧
    ∀ q b', n.entry q = some b' → q.map (side unenc) <+: x → q.length ≤ p.length

/-- An entry above a path is at the node itself or below the next component. -/
lemma entry_above (hn : n.Linked) {unenc : Bool} {part : Bytes} {x : List Bytes}
    (h : n.entry q = some b) (hq : q.map (side unenc) <+: part :: x) :
    q = [] ∧ n.base = some b ∨ ∃ u e q' c, q = (u, e) :: q' ∧ side unenc (u, e) = part ∧
      n.child unenc part = some c ∧ c.entry q' = some b ∧ q'.map (side unenc) <+: x := by
  cases q with
  | nil => exact Or.inl ⟨rfl, h⟩
  | cons a q =>
      obtain ⟨u, e⟩ := a
      rw [List.map_cons, List.cons_prefix_cons] at hq
      obtain ⟨he, c, hc, hb⟩ := entry_cons.mp h
      exact Or.inr ⟨u, e, q, c, rfl, hq.1, (child_eq_some hn).mpr ⟨u, e, hq.1, he, hc⟩, hb, hq.2⟩

/-- The node's own base is the deepest if there is none below. -/
lemma Deepest.here {unenc : Bool} (hb : n.base = some b)
    (h : ∀ q b', n.entry q = some b' → q.map (side unenc) <+: x → q = []) :
    n.Deepest unenc x [] b := by
  refine ⟨hb, List.nil_prefix, fun q b' hq hx => ?_⟩
  rw [h q b' hq hx]

/-- Without a base of its own and none below, a node has no entry above the path. -/
lemma not_above {unenc : Bool} (hb : n.base = none)
    (h : ∀ q b', n.entry q = some b' → q.map (side unenc) <+: x → q = []) :
    ∀ q b', n.entry q = some b' → ¬q.map (side unenc) <+: x := by
  intro q b' hq hx
  rw [h q b' hq hx, entry, hb] at hq
  cases hq

/-- The deepest entry of the child is the deepest of the node. -/
lemma Deepest.below (hn : n.Linked) {unenc : Bool} {part : Bytes}
    (hside : side unenc (u, e) = part) (he : n.unencMap.lookup u = some e)
    (hunenc : n.unenc.lookup u = some c) (h : c.Deepest unenc x p b) :
    n.Deepest unenc (part :: x) ((u, e) :: p) b := by
  obtain ⟨hp, hpx, hdeep⟩ := h
  refine ⟨entry_cons.mpr ⟨he, c, hunenc, hp⟩, ?_, ?_⟩
  · rw [List.map_cons, hside, List.cons_prefix_cons]
    exact ⟨rfl, hpx⟩
  · intro q b' hq hqx
    have hc : n.child unenc part = some c := (child_eq_some hn).mpr ⟨u, e, hside, he, hunenc⟩
    rcases entry_above hn hq hqx with ⟨rfl, _⟩ | ⟨_, _, q', c', rfl, _, hc', hq', hx⟩
    · exact Nat.zero_le _
    · rw [hc, Option.some.injEq] at hc'
      subst hc'
      exact Nat.succ_le_succ (hdeep q' b' hq' hx)

/-- Where the walk ends, only the node's own base can be above the path. -/
lemma eq_nil_of_child_eq_none (hn : n.Linked) {unenc : Bool} {part : Bytes}
    (hc : n.child unenc part = none) (hq : n.entry q = some b)
    (hx : q.map (side unenc) <+: part :: x) : q = [] := by
  rcases entry_above hn hq hx with ⟨hnil, _⟩ | ⟨_, _, _, c, _, _, hc', _⟩
  · exact hnil
  · rw [hc] at hc'
    cases hc'

/-- If the child has nothing above the rest of the path, only the node's own base can be above it.
-/
lemma eq_nil_of_child_none_above (hn : n.Linked) {unenc : Bool} {part : Bytes}
    (hc : n.child unenc part = some c)
    (hnone : ∀ q b', c.entry q = some b' → ¬q.map (side unenc) <+: x)
    (hq : n.entry q = some b) (hx : q.map (side unenc) <+: part :: x) : q = [] := by
  rcases entry_above hn hq hx with ⟨hnil, _⟩ | ⟨_, _, q', c', _, _, hc', hq', hx'⟩
  · exact hnil
  · rw [hc, Option.some.injEq] at hc'
    subst hc'
    exact absurd hx' (hnone q' b hq')

/-- **What `Node::lookup` finds**: the deepest entry with what is left of the path below it, or, if
there is none, what it was given. -/
lemma lookup_spec (hn : n.WF) (unenc : Bool) (x remaining : List Bytes) (best : Option Base) :
    (∃ p b, n.Deepest unenc x p b ∧ (n.lookup unenc x remaining best).base = some b ∧
        (n.lookup unenc x remaining best).remaining = x.drop p.length) ∨
      (∀ p b, n.entry p = some b → ¬p.map (side unenc) <+: x) ∧
        (n.lookup unenc x remaining best).base = best ∧
        (best.isSome → (n.lookup unenc x remaining best).remaining = remaining) := by
  induction x generalizing n remaining best with
  | nil =>
      have hnil : ∀ q b', n.entry q = some b' → q.map (side unenc) <+: [] → q = [] :=
        fun q _ _ hq => List.map_eq_nil_iff.mp (List.prefix_nil.mp hq)
      cases hb : n.base with
      | some b => exact Or.inl ⟨[], b, Deepest.here hb hnil, by simp [lookup, hb],
          by simp [lookup, hb]⟩
      | none =>
          refine Or.inr ⟨not_above hb hnil, ?_, ?_⟩
          · cases best <;> simp [lookup, hb]
          · cases best <;> simp [lookup, hb]
  | cons part x ih =>
      have hlink := hn.linked
      cases hc : n.child unenc part with
      | none =>
          have hnil : ∀ q b', n.entry q = some b' → q.map (side unenc) <+: part :: x → q = [] :=
            fun _ _ => eq_nil_of_child_eq_none hlink hc
          cases hb : n.base with
          | some b => exact Or.inl ⟨[], b, Deepest.here hb hnil, by simp [lookup, hb, hc],
              by simp [lookup, hb, hc]⟩
          | none =>
              refine Or.inr ⟨not_above hb hnil, ?_, ?_⟩
              · cases best <;> simp [lookup, hb, hc]
              · cases best <;> simp [lookup, hb, hc]
      | some c =>
          obtain ⟨u, e, hside, he, hunenc⟩ := (child_eq_some hlink).mp hc
          have hwf := hn.child hunenc
          -- what the search has found up to this node
          have hnext : ∀ r b, (if n.base.isSome || best.isNone then (part :: x, n.base)
              else (remaining, best)) = (r, b) →
              n.lookup unenc (part :: x) remaining best = c.lookup unenc x r b := by
            intro r b hrb
            rw [lookup, hc]
            simp only [hrb]
          rcases hbest : (if n.base.isSome || best.isNone then (part :: x, n.base)
              else (remaining, best)) with ⟨r, b⟩
          rw [hnext r b hbest]
          rcases ih hwf r b with ⟨p, b', hdeep, hbase, hrem⟩ | ⟨hnone, hbase, hrem⟩
          · exact Or.inl ⟨(u, e) :: p, b', hdeep.below hlink hside he hunenc, hbase, hrem⟩
          · have hnil : ∀ q b', n.entry q = some b' → q.map (side unenc) <+: part :: x → q = [] :=
              fun _ _ => eq_nil_of_child_none_above hlink hc hnone
            cases hb : n.base with
            | some b₀ =>
                simp only [hb, Option.isSome_some, Bool.true_or, if_true, Prod.mk.injEq] at hbest
                obtain ⟨rfl, rfl⟩ := hbest
                exact Or.inl ⟨[], b₀, Deepest.here hb hnil, hbase, hrem rfl⟩
            | none =>
                refine Or.inr ⟨not_above hb hnil, ?_, ?_⟩
                · rw [hbase]
                  cases best <;> simp_all
                · cases best <;> simp_all

end Node

/-! ## The store as a table

The tries of all buckets, with the default base below none of them.  The bypass flag changes the
cipher of the base that was found and nothing else.
-/

namespace Store

variable {s : Store} {bucket bucket' : String} {unenc enc path : Bytes} {key : Key}
  {cipher : CipherSuite} {base : Base} {p q : Path Bytes Bytes}

/-- The base at a path of a bucket. -/
def entry (s : Store) (bucket : String) (p : Path Bytes Bytes) : Option Base :=
  (s.roots.lookup bucket).bind fun root => root.entry p

/-- The bases of a bucket, and the default key for what is below none of them. -/
def table (s : Store) (bucket : String) : Table Bytes Bytes Base where
  root := s.defaultKey.map s.defaultBase
  entry := s.entry bucket

/-- The path of a pair of paths. -/
def pathOf (unenc enc : Bytes) : Path Bytes Bytes := (components unenc).zip (components enc)

/-- **What holds of every store**: its tries are linked, and each base knows where it is. -/
structure WF (s : Store) : Prop where
  nodup : (Assoc.keys s.roots).Nodup
  roots : ∀ bucket root, s.roots.lookup bucket = some root → root.WF
  placed : ∀ bucket p base, s.entry bucket p = some base →
    plain p = components base.unencrypted ∧ KeyTree.cipher p = components base.encrypted ∧
      base.default = false

lemma entry_eq (s : Store) (bucket : String) (p : Path Bytes Bytes) :
    s.entry bucket p = (s.root bucket).entry p := by
  rw [entry, root]
  cases s.roots.lookup bucket with
  | none => simp
  | some root => rfl

lemma WF.root (hs : s.WF) (bucket : String) : (s.root bucket).WF := by
  rw [Store.root]
  cases h : s.roots.lookup bucket with
  | none => exact Node.wf_empty
  | some root => exact hs.roots bucket root h

lemma addWithCipher_fst : (s.addWithCipher bucket unenc enc key cipher).1 =
    ((s.root bucket).add ⟨unenc, enc, key, cipher, false⟩ (components unenc) (components enc)).1 := by
  rw [addWithCipher]
  rcases Node.add _ (s.root bucket) (components unenc) (components enc) with ⟨r, root'⟩
  cases r with
  | error err => rfl
  | ok _ => rfl

lemma addWithCipher_snd (h : (s.addWithCipher bucket unenc enc key cipher).1 = .ok ()) :
    (s.addWithCipher bucket unenc enc key cipher).2 = { s with
      roots := Assoc.put bucket ((s.root bucket).add ⟨unenc, enc, key, cipher, false⟩
        (components unenc) (components enc)).2 s.roots } := by
  rw [addWithCipher_fst] at h
  rw [addWithCipher]
  rcases hadd : (s.root bucket).add ⟨unenc, enc, key, cipher, false⟩ (components unenc)
    (components enc) with ⟨r, root'⟩
  rw [hadd] at h
  cases r with
  | error err => cases h
  | ok _ => rfl

/-- A refused mapping changes nothing. -/
lemma addWithCipher_error {err : Error}
    (h : (s.addWithCipher bucket unenc enc key cipher).1 = .error err) :
    (s.addWithCipher bucket unenc enc key cipher).2 = s := by
  rw [addWithCipher_fst] at h
  rw [addWithCipher]
  rcases hadd : (s.root bucket).add ⟨unenc, enc, key, cipher, false⟩ (components unenc)
    (components enc) with ⟨r, root'⟩
  rw [hadd] at h
  cases r with
  | error err => rfl
  | ok _ => cases h

/-- **When a mapping is accepted.** -/
lemma addWithCipher_ok_iff (hs : s.WF) : (s.addWithCipher bucket unenc enc key cipher).1 = .ok () ↔
    (components unenc).length = (components enc).length ∧
      ∀ q, (s.table bucket).Has q → Agree (pathOf unenc enc) q := by
  rw [addWithCipher_fst, Node.add_ok_iff (hs.root bucket)]
  refine and_congr_right fun _ => ?_
  constructor
  · rintro h q ⟨b, hb⟩
    exact h q b (by rw [← entry_eq]; exact hb)
  · intro h q b hb
    exact h q ⟨b, by rw [← entry_eq] at hb; exact hb⟩

/-- **An accepted mapping sets the base of its path** and leaves all others. -/
lemma entry_addWithCipher (hs : s.WF)
    (h : (s.addWithCipher bucket unenc enc key cipher).1 = .ok ()) (bucket' : String)
    (q : Path Bytes Bytes) : (s.addWithCipher bucket unenc enc key cipher).2.entry bucket' q =
      if bucket' = bucket ∧ q = pathOf unenc enc then some ⟨unenc, enc, key, cipher, false⟩
      else s.entry bucket' q := by
  rw [addWithCipher_snd h, entry]
  dsimp only
  rw [Assoc.lookup_put]
  by_cases hb : bucket' = bucket
  · subst hb
    rw [addWithCipher_fst] at h
    rw [if_pos rfl, Option.bind_some, Node.entry_add (hs.root bucket') h, entry_eq, pathOf]
    simp
  · rw [if_neg hb, if_neg (fun h => hb h.1), entry]

lemma wf_addWithCipher (hs : s.WF) (h : (s.addWithCipher bucket unenc enc key cipher).1 = .ok ()) :
    (s.addWithCipher bucket unenc enc key cipher).2.WF where
  nodup := by
    rw [addWithCipher_snd h]
    exact Assoc.nodup_put hs.nodup
  roots bucket' root' hroot := by
    rw [addWithCipher_snd h] at hroot
    dsimp only at hroot
    rw [Assoc.lookup_put] at hroot
    split_ifs at hroot with hb
    · cases hroot
      exact Node.wf_add (hs.root bucket) (addWithCipher_fst (s := s) ▸ h)
    · exact hs.roots bucket' root' hroot
  placed bucket' q base hq := by
    rw [entry_addWithCipher hs h] at hq
    split_ifs at hq with hpath
    · cases hq
      have hlen := ((addWithCipher_ok_iff hs).mp h).1
      rw [hpath.2, pathOf]
      exact ⟨List.map_fst_zip hlen.le, List.map_snd_zip hlen.ge, rfl⟩
    · exact hs.placed bucket' q base hq

/-- A store without tries. -/
lemma wf_of_roots {s : Store} (h : s.roots = []) : s.WF where
  nodup := by
    rw [h]
    exact List.nodup_nil
  roots bucket root hroot := by
    rw [h] at hroot
    cases hroot
  placed bucket p base hp := by
    rw [entry, h] at hp
    cases hp

lemma wf_new : new.WF := wf_of_roots rfl

lemma WF.coherent (hs : s.WF) (bucket : String) : (s.table bucket).Coherent := by
  rintro p q ⟨b, hb⟩ ⟨b', hb'⟩
  have hb : s.entry bucket p = some b := hb
  have hb' : s.entry bucket q = some b' := hb'
  rw [entry_eq] at hb hb'
  exact (hs.root bucket).agree hb hb'

/-- What the walk through the trie finds: the deepest entry above the path. -/
lemma walked_spec (hs : s.WF) (bucket : String) (path : Bytes) (unenc : Bool) :
    (∃ p base, s.entry bucket p = some base ∧ p.map (Node.side unenc) <+: components path ∧
        (∀ q, (s.table bucket).Has q → q.map (Node.side unenc) <+: components path →
          q.length ≤ p.length) ∧
        (s.walked bucket path unenc).base = some base ∧
        (s.walked bucket path unenc).remaining = (components path).drop p.length) ∨
      (∀ q, (s.table bucket).Has q → ¬q.map (Node.side unenc) <+: components path) ∧
        (s.walked bucket path unenc).base = none := by
  rw [walked]
  cases hroot : s.roots.lookup bucket with
  | none =>
      refine Or.inr ⟨?_, rfl⟩
      rintro q ⟨b, hb⟩
      have hb : s.entry bucket q = some b := hb
      rw [entry, hroot] at hb
      cases hb
  | some root =>
      have hentry : ∀ q, s.entry bucket q = root.entry q := by
        intro q
        rw [entry, hroot]
        rfl
      rcases Node.lookup_spec (hs.roots bucket root hroot) unenc (components path) [] none with
        ⟨p, b, ⟨hp, hpx, hdeep⟩, hbase, hrem⟩ | ⟨hnone, hbase, _⟩
      · refine Or.inl ⟨p, b, by rw [hentry, hp], hpx, ?_, hbase, hrem⟩
        rintro q ⟨b', hb'⟩ hqx
        exact hdeep q b' (by rw [← hentry]; exact hb') hqx
      · refine Or.inr ⟨?_, hbase⟩
        rintro q ⟨b', hb'⟩
        exact hnone q b' (by rw [← hentry]; exact hb')

/-- **What a lookup finds**: the start of the path in the table, or nothing where there is none. -/
lemma lookup_spec (hs : s.WF) (bucket : String) (path : Bytes) (unenc : Bool) :
    (∃ p base, (s.table bucket).Start (Node.side unenc) (components path) p base ∧
        (s.lookup bucket path unenc).base = some (s.applyBypass base) ∧
        (s.lookup bucket path unenc).remaining = (components path).drop p.length) ∨
      (∀ p base, ¬(s.table bucket).Start (Node.side unenc) (components path) p base) ∧
        (s.lookup bucket path unenc).base = none := by
  rw [lookup]
  rcases walked_spec hs bucket path unenc with
    ⟨p, base, hp, hpx, hdeep, hbase, hrem⟩ | ⟨hnone, hbase⟩
  · refine Or.inl ⟨p, base, .entry hp hpx hdeep, ?_, ?_⟩
    · simp [hbase]
    · simp [hbase, hrem]
  · cases hkey : s.defaultKey with
    | some key =>
        refine Or.inl ⟨[], s.defaultBase key, .root ?_ hnone, ?_, ?_⟩
        · rw [table, hkey]
          rfl
        · simp [hbase]
        · simp [hbase]
    | none =>
        refine Or.inr ⟨?_, by simp [hbase]⟩
        rintro p base hstart
        cases hstart with
        | entry hp hpx hdeep => exact hnone p ⟨base, hp⟩ hpx
        | root hroot _ =>
            rw [table, hkey] at hroot
            cases hroot

end Store

/-! ## Runs of a store

Any sequence of calls, accepted or refused.  The flat table of a run is the list of its accepted
mappings, read from the end.
-/

namespace Store

/-- The arguments of `add_with_cipher`. -/
structure Mapping where
  bucket : String
  unenc : Bytes
  enc : Bytes
  key : Key
  pathCipher : CipherSuite
deriving DecidableEq

/-- The path of a mapping. -/
def Mapping.path (m : Mapping) : Path Bytes Bytes := pathOf m.unenc m.enc

/-- The base that a mapping sets. -/
def Mapping.base (m : Mapping) : Base := ⟨m.unenc, m.enc, m.key, m.pathCipher, false⟩

/-- A call on a store. -/
inductive Op where
  | setDefaultKey (key : Key)
  | setDefaultPathCipher (cipher : CipherSuite)
  | setEncryptionBypass (bypass : Bool)
  | addWithCipher (m : Mapping)

/-- The result of an `add_with_cipher` call. -/
def tryAdd (s : Store) (m : Mapping) : Except Error Unit × Store :=
  s.addWithCipher m.bucket m.unenc m.enc m.key m.pathCipher

/-- The store after a call. -/
def apply (s : Store) : Op → Store
  | .setDefaultKey key => s.setDefaultKey key
  | .setDefaultPathCipher cipher => s.setDefaultPathCipher cipher
  | .setEncryptionBypass bypass => { s with encryptionBypass := bypass }
  | .addWithCipher m => (s.tryAdd m).2

/-- The store after a sequence of calls. -/
def run (s : Store) (ops : List Op) : Store := ops.foldl apply s

/-- The mapping that a call added: its own if it was accepted, and none for the calls that set a
default or for a refused one. -/
def addedBy (s : Store) : Op → List Mapping
  | .setDefaultKey _ => []
  | .setDefaultPathCipher _ => []
  | .setEncryptionBypass _ => []
  | .addWithCipher m => match (s.tryAdd m).1 with
    | .ok () => [m]
    | .error _ => []

/-- The mappings that were added by a sequence of calls, in order. -/
def added (s : Store) : List Op → List Mapping
  | [] => []
  | op :: ops => s.addedBy op ++ (s.apply op).added ops

/-- **The flat table** of a list of mappings: the last one for an exact path. -/
def lastFor (l : List Mapping) (bucket : String) (p : Path Bytes Bytes) : Option Mapping :=
  l.reverse.find? fun m => m.bucket == bucket && m.path == p

lemma WF.apply {s : Store} (hs : s.WF) (op : Op) : (s.apply op).WF := by
  cases op with
  | setDefaultKey key => exact ⟨hs.nodup, hs.roots, hs.placed⟩
  | setDefaultPathCipher cipher => exact ⟨hs.nodup, hs.roots, hs.placed⟩
  | setEncryptionBypass bypass => exact ⟨hs.nodup, hs.roots, hs.placed⟩
  | addWithCipher m =>
      rw [Store.apply, tryAdd]
      cases h : (s.addWithCipher m.bucket m.unenc m.enc m.key m.pathCipher).1 with
      | error err =>
          rw [addWithCipher_error h]
          exact hs
      | ok _ => exact wf_addWithCipher hs h

lemma WF.run {s : Store} (hs : s.WF) (ops : List Op) : (s.run ops).WF := by
  induction ops generalizing s with
  | nil => exact hs
  | cons op ops ih => exact ih (hs.apply op)

lemma lastFor_append (l : List Mapping) (m : Mapping) (bucket : String) (p : Path Bytes Bytes) :
    lastFor (l ++ [m]) bucket p =
      if m.bucket = bucket ∧ m.path = p then some m else lastFor l bucket p := by
  rw [lastFor, List.reverse_append, List.reverse_singleton, List.singleton_append, List.find?_cons]
  by_cases h : m.bucket = bucket ∧ m.path = p
  · simp [h.1, h.2]
  · rw [if_neg h]
    have hfalse : (m.bucket == bucket && m.path == p) = false := by
      simpa using h
    rw [hfalse]
    rfl

/-- One call, on the flat table. -/
lemma entry_apply {s : Store} (hs : s.WF) {l : List Mapping}
    (hl : ∀ bucket p, s.entry bucket p = (lastFor l bucket p).map Mapping.base) (op : Op)
    (bucket : String) (p : Path Bytes Bytes) :
    (s.apply op).entry bucket p = (lastFor (l ++ s.addedBy op) bucket p).map Mapping.base := by
  cases op with
  | setDefaultKey key =>
      rw [addedBy, List.append_nil]
      exact hl bucket p
  | setDefaultPathCipher cipher =>
      rw [addedBy, List.append_nil]
      exact hl bucket p
  | setEncryptionBypass bypass =>
      rw [addedBy, List.append_nil]
      exact hl bucket p
  | addWithCipher m =>
      rw [apply, addedBy, tryAdd]
      cases h : (s.addWithCipher m.bucket m.unenc m.enc m.key m.pathCipher).1 with
      | error err =>
          rw [addWithCipher_error h]
          simpa using hl bucket p
      | ok _ =>
          dsimp only
          rw [entry_addWithCipher hs h, lastFor_append, hl]
          by_cases hpath : bucket = m.bucket ∧ p = pathOf m.unenc m.enc
          · rw [if_pos hpath, if_pos ⟨hpath.1.symm, hpath.2.symm⟩]
            rfl
          · rw [if_neg hpath, if_neg fun h => hpath ⟨h.1.symm, h.2.symm⟩]

/-- **A store is the flat table of what was added to it.** -/
lemma entry_run {s : Store} (hs : s.WF) {l : List Mapping}
    (hl : ∀ bucket p, s.entry bucket p = (lastFor l bucket p).map Mapping.base) (ops : List Op)
    (bucket : String) (p : Path Bytes Bytes) :
    (s.run ops).entry bucket p = (lastFor (l ++ s.added ops) bucket p).map Mapping.base := by
  induction ops generalizing s l with
  | nil =>
      rw [added, List.append_nil]
      exact hl bucket p
  | cons op ops ih =>
      rw [added, ← List.append_assoc]
      exact ih (hs.apply op) fun bucket p => entry_apply hs hl op bucket p

/-- Looking the path of an entry up, on either side, finds the entry. -/
lemma lookup_entry {s : Store} (hs : s.WF) {bucket : String} {path : Bytes} {base : Base}
    {p : Path Bytes Bytes} {unenc : Bool} (hp : s.entry bucket p = some base)
    (hpath : components path = p.map (Node.side unenc)) :
    (s.lookup bucket path unenc).base = some (s.applyBypass base) := by
  have hstart : (s.table bucket).Start (Node.side unenc) (components path) p base := by
    rw [hpath]
    exact Table.start_self hp
  rcases lookup_spec hs bucket path unenc with ⟨q, base', hq, hbase, _⟩ | ⟨hnone, _⟩
  · rw [hbase, (hq.unique (hs.coherent bucket) (Node.isSide unenc) hstart).2]
  · exact absurd hstart (hnone p base)

/-- **The store refines a flat table with longest-prefix match.**  A refused mapping changes
nothing, at the store and inside a trie; the last mapping added for an exact path wins; a lookup, on
either side, finds the longest path of the table above what it is given, then the default key, then
nothing; and the maps of every node are inverse to each other and lead to its children. -/
theorem refines_table (ops : List Op) :
    let s := new.run ops
    let flat : String → Table Bytes Bytes Base := fun bucket =>
      { root := s.defaultKey.map s.defaultBase
        entry := fun p => (lastFor (new.added ops) bucket p).map Mapping.base }
    (∀ m err, (s.tryAdd m).1 = .error err → (s.tryAdd m).2 = s) ∧
    (∀ bucket root, s.roots.lookup bucket = some root → ∀ base x y err,
      (root.add base x y).1 = .error err → (root.add base x y).2 = root) ∧
    (∀ bucket path unenc,
      let parts := (PathIter.new path).remainingComponents
      (∃ p base, (flat bucket).Start (Node.side unenc) parts p base ∧
          (s.lookup bucket path unenc).base = some (s.applyBypass base) ∧
          (s.lookup bucket path unenc).remaining = parts.drop p.length) ∨
        (∀ p base, ¬(flat bucket).Start (Node.side unenc) parts p base) ∧
          (s.lookup bucket path unenc).base = none) ∧
    (∀ bucket p base, (flat bucket).entry p = some base →
      (s.lookupUnencrypted bucket base.unencrypted).base = some (s.applyBypass base) ∧
      (s.lookupEncrypted bucket base.encrypted).base = some (s.applyBypass base)) ∧
    ∀ bucket root, s.roots.lookup bucket = some root → ∀ x n, root.walk x = some n →
      (∀ u e, n.unencMap.lookup u = some e ↔ n.encMap.lookup e = some u) ∧
      ∀ u, (n.unencMap.lookup u).isSome ↔ (n.unenc.lookup u).isSome := by
  intro s flat
  have hs : s.WF := wf_new.run ops
  have htable : ∀ bucket, s.table bucket = flat bucket := by
    intro bucket
    refine congrArg (Table.mk _) (funext fun p => ?_)
    have hnew : ∀ bucket p, new.entry bucket p = (lastFor [] bucket p).map Mapping.base :=
      fun _ _ => rfl
    exact entry_run wf_new hnew ops bucket p
  refine ⟨?_, ?_, ?_, ?_, ?_⟩
  · intro m err h
    exact addWithCipher_error h
  · intro bucket root _ base x y err h
    exact Node.add_error h
  · intro bucket path unenc
    rw [← htable, remainingComponents_new]
    exact lookup_spec hs bucket path unenc
  · intro bucket p base hp
    rw [← htable] at hp
    obtain ⟨hunenc, henc, _⟩ := hs.placed bucket p base hp
    exact ⟨lookup_entry hs hp hunenc.symm, lookup_entry hs hp henc.symm⟩
  · intro bucket root hroot x n hn
    have hlink := hs.roots bucket root hroot x n hn
    exact ⟨hlink.inverse, hlink.domain⟩

end Store

end Storj.Enc
