import Mathlib.Data.List.Infix
import Mathlib.Data.Nat.Find
import Mathlib.Data.Option.Basic

/-!
# Trees of derived keys

A path is a list of components, each with its plaintext and its ciphertext.  A table gives keys to
some paths; the key of any other plaintext path is derived, component by component, from the deepest
entry above it, and its ciphertext is that entry's ciphertext followed by the components sealed on
the way.

Entries may be looked up by either side, so the two sides have to determine each other: paths
`Agree` if they part at the same component on both.  In a table of paths that agree, the entry above
a path is unique on either side (`Start.unique`).

The model is a hierarchy of names with a key for each node.  The root of a namespace may have a
key, any path may have one of its own, and everything below is derived: the key of a child comes
from the key of its parent and the plaintext of the child's name.  Because the ciphertext of a
component is made with the key of its parent, the ciphertext of a path is determined by where the
derivation starts, and so two tables seal alike wherever they start alike.

This is what the lemmas about `Start` are for.  `Start.move`, `Start.of_above` and
`Start.of_deeper` compare the start of one path in two tables, and each of them is the reason that
one operation on tables keeps the meaning of the paths that it should not touch.  How a component
is sealed is a parameter (`System`); the only fact about it that is used is that what is sealed can
be opened.
-/

namespace KeyTree

variable {α β κ δ : Type*}

/-! ## Paths

A path is a list of pairs, so that a beginning of its plaintext and a beginning of its ciphertext
are the same beginning.  What two paths have to do with one another is `Agree`; on a set of paths
that agree in pairs either side may serve as the name.
-/

/-- A path: plaintext and ciphertext of each component. -/
abbrev Path (α β : Type*) := List (α × β)

/-- The plaintext of a path. -/
abbrev plain (p : Path α β) : List α := p.map Prod.fst

/-- The ciphertext of a path. -/
abbrev cipher (p : Path α β) : List β := p.map Prod.snd

lemma plain_append (p q : Path α β) : plain (p ++ q) = plain p ++ plain q := List.map_append

lemma cipher_append (p q : Path α β) : cipher (p ++ q) = cipher p ++ cipher q := List.map_append

/-- Paths that part at the same component on both sides. -/
def Agree : Path α β → Path α β → Prop
  | a :: p, b :: q => (a.1 = b.1 ↔ a.2 = b.2) ∧ (a = b → Agree p q)
  | _, _ => True

/-- A side of a component: among components that agree it determines the other one. -/
def Side (f : α × β → δ) : Prop := ∀ a b, (a.1 = b.1 ↔ a.2 = b.2) → f a = f b → a = b

lemma side_fst : Side (Prod.fst : α × β → α) := fun _ _ h hab => Prod.ext hab (h.mp hab)

lemma side_snd : Side (Prod.snd : α × β → β) := fun _ _ h hab => Prod.ext (h.mpr hab) hab

namespace Agree

variable {p q r : Path α β}

@[simp] lemma nil_left (q : Path α β) : Agree [] q := trivial

@[simp] lemma nil_right (p : Path α β) : Agree p [] := by
  cases p with
  | nil => trivial
  | cons a p => trivial

lemma cons_iff {a b : α × β} :
    Agree (a :: p) (b :: q) ↔ (a.1 = b.1 ↔ a.2 = b.2) ∧ (a = b → Agree p q) := Iff.rfl

lemma refl (p : Path α β) : Agree p p := by
  induction p with
  | nil => trivial
  | cons a p ih => exact ⟨⟨fun _ => rfl, fun _ => rfl⟩, fun _ => ih⟩

lemma symm (h : Agree p q) : Agree q p := by
  induction p generalizing q with
  | nil => exact nil_right q
  | cons a p ih =>
      cases q with
      | nil => trivial
      | cons b q =>
          rw [cons_iff] at h ⊢
          exact ⟨⟨fun hb => (h.1.mp hb.symm).symm, fun hb => (h.1.mpr hb.symm).symm⟩,
            fun hb => ih (h.2 hb.symm)⟩

lemma of_prefix_left (h : Agree p q) (hr : r <+: p) : Agree r q := by
  induction r generalizing p q with
  | nil => trivial
  | cons c r ih =>
      cases p with
      | nil => exact absurd (List.prefix_nil.mp hr) (List.cons_ne_nil _ _)
      | cons a p =>
          rw [List.cons_prefix_cons] at hr
          obtain ⟨rfl, hr⟩ := hr
          cases q with
          | nil => trivial
          | cons b q => exact ⟨h.1, fun hc => ih (h.2 hc) hr⟩

lemma of_prefix_right (h : Agree p q) (hr : r <+: q) : Agree p r := (h.symm.of_prefix_left hr).symm

/-- **On paths that agree, a prefix on one side is a prefix.** -/
lemma prefix_of_map {f : α × β → δ} (hf : Side f) (h : Agree p q) (hpq : p.map f <+: q.map f) :
    p <+: q := by
  induction p generalizing q with
  | nil => exact List.nil_prefix
  | cons a p ih =>
      cases q with
      | nil => exact absurd (List.prefix_nil.mp hpq) (List.cons_ne_nil _ _)
      | cons b q =>
          rw [List.map_cons, List.map_cons, List.cons_prefix_cons] at hpq
          have hab : a = b := hf a b h.1 hpq.1
          rw [hab, List.cons_prefix_cons]
          exact ⟨rfl, ih (h.2 hab) hpq.2⟩

/-- Paths agree if their beginnings are equal on one side whenever they are on the other. -/
lemma of_take (h : ∀ i, i ≤ p.length → i ≤ q.length →
    ((plain p).take i = (plain q).take i ↔ (cipher p).take i = (cipher q).take i)) :
    Agree p q := by
  induction p generalizing q with
  | nil => trivial
  | cons a p ih =>
      cases q with
      | nil => trivial
      | cons b q =>
          refine ⟨?_, ?_⟩
          · have h1 := h 1 (by simp) (by simp)
            simpa using h1
          · rintro rfl
            refine ih fun i hp hq => ?_
            have hi := h (i + 1) (by simpa using hp) (by simpa using hq)
            simpa using hi

end Agree

/-! ## Tables

An entry may hold a key for a path that has another entry above it.  The deepest one counts, also
where the shallower one was put in later.
-/

/-- Keys of paths, and a key for the paths below no entry. -/
structure Table (α β κ : Type*) where
  root : Option κ
  entry : Path α β → Option κ

namespace Table

variable {T : Table α β κ} {f : α × β → δ} {x : List δ} {p q : Path α β} {k l : κ}

/-- There is an entry at a path. -/
def Has (T : Table α β κ) (p : Path α β) : Prop := ∃ k, T.entry p = some k

/-- All entries agree. -/
def Coherent (T : Table α β κ) : Prop := ∀ p q, T.Has p → T.Has q → Agree p q

/-- **Where the keys below a path start**: the deepest entry above it, or the root. -/
inductive Start (T : Table α β κ) (f : α × β → δ) (x : List δ) : Path α β → κ → Prop
  | entry {p : Path α β} {k : κ} (hp : T.entry p = some k) (hx : p.map f <+: x)
      (hdeep : ∀ q, T.Has q → q.map f <+: x → q.length ≤ p.length) : Start T f x p k
  | root {k : κ} (hroot : T.root = some k) (hnone : ∀ q, T.Has q → ¬q.map f <+: x) :
      Start T f x [] k

lemma Start.isPrefix (h : T.Start f x p k) : p.map f <+: x := by
  cases h with
  | entry hp hx hdeep => exact hx
  | root hroot hnone => exact List.nil_prefix

lemma Start.deepest (h : T.Start f x p k) (hq : T.Has q) (hx : q.map f <+: x) :
    q.length ≤ p.length := by
  cases h with
  | entry hp hx' hdeep => exact hdeep q hq hx
  | root hroot hnone => exact absurd hx (hnone q hq)

lemma Start.length_le (h : T.Start f x p k) : p.length ≤ x.length := by
  have := h.isPrefix.length_le
  rwa [List.length_map] at this

/-- An entry starts its own path. -/
lemma start_self (h : T.entry p = some k) : T.Start f (p.map f) p k :=
  .entry h (List.prefix_refl _) fun q _ hq => by
    have := hq.length_le
    rwa [List.length_map, List.length_map] at this

/-- Entries above one path are comparable. -/
lemma Coherent.isPrefix (h : T.Coherent) (hf : Side f) (hp : T.Has p) (hq : T.Has q)
    (hpx : p.map f <+: x) (hqx : q.map f <+: x) (hlen : p.length ≤ q.length) : p <+: q := by
  refine (h p q hp hq).prefix_of_map hf (List.prefix_of_prefix_length_le hpx hqx ?_)
  rwa [List.length_map, List.length_map]

/-- **The start is unique.** -/
lemma Start.unique (h : T.Coherent) (hf : Side f) (hp : T.Start f x p k) (hq : T.Start f x q l) :
    p = q ∧ k = l := by
  cases hp with
  | entry hpk hpx hpd =>
      cases hq with
      | entry hql hqx hqd =>
          have hpq := h.isPrefix hf ⟨_, hpk⟩ ⟨_, hql⟩ hpx hqx (hqd p ⟨_, hpk⟩ hpx)
          have heq : p = q := hpq.eq_of_length_le (hpd q ⟨_, hql⟩ hqx)
          subst heq
          rw [hpk, Option.some.injEq] at hql
          exact ⟨rfl, hql⟩
      | root hroot hnone => exact absurd hpx (hnone p ⟨_, hpk⟩)
  | root hroot hnone =>
      cases hq with
      | entry hql hqx hqd => exact absurd hqx (hnone q ⟨_, hql⟩)
      | root hroot' hnone' =>
          rw [hroot, Option.some.injEq] at hroot'
          exact ⟨rfl, hroot'⟩

/-- Below an entry there is a start. -/
lemma exists_start (hq : T.Has q) (hqx : q.map f <+: x) : ∃ p k, T.Start f x p k := by
  classical
  -- the greatest length of an entry above the path
  have hlen : ∀ r : Path α β, r.map f <+: x → r.length ≤ x.length := by
    intro r hr
    have := hr.length_le
    rwa [List.length_map] at this
  let P : ℕ → Prop := fun n => ∃ r, T.Has r ∧ r.map f <+: x ∧ r.length = n
  have hP : P (Nat.findGreatest P x.length) :=
    Nat.findGreatest_spec (P := P) (hlen q hqx) ⟨q, hq, hqx, rfl⟩
  obtain ⟨p, ⟨k, hpk⟩, hpx, hp⟩ := hP
  refine ⟨p, k, .entry hpk hpx fun r hr hrx => ?_⟩
  rw [hp]
  exact Nat.le_findGreatest (hlen r hrx) ⟨r, hr, hrx, rfl⟩

lemma exists_start_of_root (hroot : T.root = some k) : ∃ p k, T.Start f x p k := by
  by_cases h : ∃ q, T.Has q ∧ q.map f <+: x
  · obtain ⟨q, hq, hqx⟩ := h
    exact exists_start hq hqx
  · refine ⟨[], k, .root hroot fun q hq hqx => h ⟨q, hq, hqx⟩⟩

/-- The start of a path is the start of every path between. -/
lemma Start.mono (h : T.Start f x p k) {y : List δ} (hyx : y <+: x) (hpy : p.map f <+: y) :
    T.Start f y p k := by
  cases h with
  | entry hp hx hdeep => exact .entry hp hpy fun q hq hqy => hdeep q hq (hqy.trans hyx)
  | root hroot hnone => exact .root hroot fun q hq hqy => hnone q hq (hqy.trans hyx)

/-- Where all entries above a path are above another one, both start alike. -/
lemma Start.move (h : T.Start f x p k) {y : List δ} (hy : p.map f <+: y)
    (habove : ∀ q, T.Has q → q.map f <+: y → q.map f <+: x) : T.Start f y p k := by
  cases h with
  | entry hp hx hdeep => exact .entry hp hy fun q hq hqy => hdeep q hq (habove q hq hqy)
  | root hroot hnone => exact .root hroot fun q hq hqy => hnone q hq (habove q hq hqy)

/-- **The start is decided by the entries above the path.** -/
lemma Start.of_above {T' : Table α β κ} (hroot : T'.root = T.root)
    (h : ∀ q, q.map f <+: x → T'.entry q = T.entry q) (hp : T.Start f x p k) :
    T'.Start f x p k := by
  have hhas : ∀ q, q.map f <+: x → T'.Has q → T.Has q := by
    rintro q hq ⟨l, hl⟩
    exact ⟨l, (h q hq).symm.trans hl⟩
  cases hp with
  | entry hpk hpx hdeep =>
      exact .entry ((h p hpx).trans hpk) hpx fun q hq hqx => hdeep q (hhas q hqx hq) hqx
  | root hk hnone => exact .root (hroot.trans hk) fun q hq hqx => hnone q (hhas q hqx hq) hqx

/-- A shallower entry that is put in or replaced leaves the start as it is. -/
lemma Start.of_deeper {T' : Table α β κ} {r : Path α β} (h : ∀ q, q ≠ r → T'.entry q = T.entry q)
    (hp : T.Start f x p k) (hr : r.length < p.length) : T'.Start f x p k := by
  have hne : p ≠ r := by
    rintro rfl
    exact lt_irrefl _ hr
  cases hp with
  | entry hpk hpx hdeep =>
      refine .entry ((h p hne).trans hpk) hpx ?_
      rintro q ⟨l, hl⟩ hqx
      by_cases hq : q = r
      · rw [hq]
        exact hr.le
      · exact hdeep q ⟨l, (h q hq).symm.trans hl⟩ hqx
  | root hk hnone => simp at hr

/-- Other keys in the same places. -/
def map {ι : Type*} (g : κ → ι) (T : Table α β κ) : Table α β ι where
  root := T.root.map g
  entry p := (T.entry p).map g

lemma has_map {ι : Type*} {g : κ → ι} : (T.map g).Has p ↔ T.Has p := by
  simp only [Has, map, Option.map_eq_some_iff]
  exact ⟨fun ⟨_, k, hk, _⟩ => ⟨k, hk⟩, fun ⟨k, hk⟩ => ⟨g k, k, hk, rfl⟩⟩

lemma Start.map {ι : Type*} (g : κ → ι) (h : T.Start f x p k) : (T.map g).Start f x p (g k) := by
  cases h with
  | entry hp hx hdeep =>
      exact .entry (congrArg (Option.map g) hp) hx fun q hq => hdeep q (has_map.mp hq)
  | root hroot hnone =>
      exact .root (congrArg (Option.map g) hroot) fun q hq => hnone q (has_map.mp hq)

lemma start_map {ι : Type*} {g : κ → ι} {i : ι} :
    (T.map g).Start f x p i ↔ ∃ k, T.Start f x p k ∧ g k = i := by
  constructor
  · intro h
    cases h with
    | entry hp hx hdeep =>
        obtain ⟨k, hk, rfl⟩ := Option.map_eq_some_iff.mp hp
        exact ⟨k, .entry hk hx fun q hq => hdeep q (has_map.mpr hq), rfl⟩
    | root hroot hnone =>
        obtain ⟨k, hk, rfl⟩ := Option.map_eq_some_iff.mp hroot
        exact ⟨k, .root hk fun q hq => hnone q (has_map.mpr hq), rfl⟩
  · rintro ⟨k, h, rfl⟩
    exact h.map g

lemma Coherent.map {ι : Type*} {g : κ → ι} (h : T.Coherent) : (T.map g).Coherent :=
  fun p q hp hq => h p q (has_map.mp hp) (has_map.mp hq)

end Table

/-! ## Sealing

Going down a path takes the key along.  The three functions do this for the key itself, for the
ciphertext and, in the other direction, for the plaintext, and each of them splits where the path
does.
-/

/-- How one component is sealed and opened, and how the key of the next one is derived. -/
structure System (α β κ : Type*) where
  encrypt : κ → α → Option β
  decrypt : κ → β → Option α
  derive : κ → α → κ

namespace System

variable (sys : System α β κ)

/-- The key at the end of a path. -/
def keyAt (k : κ) (x : List α) : κ := x.foldl sys.derive k

/-- Seal the components of a path. -/
def encryptAll : κ → List α → Option (List β)
  | _, [] => some []
  | k, a :: x => (sys.encrypt k a).bind fun b => (encryptAll (sys.derive k a) x).map (b :: ·)

/-- Open the components of a path. -/
def decryptAll : κ → List β → Option (List α)
  | _, [] => some []
  | k, b :: y => (sys.decrypt k b).bind fun a => (decryptAll (sys.derive k a) y).map (a :: ·)

variable {sys} {k : κ} {x x' : List α} {y y' : List β}

lemma keyAt_append : sys.keyAt k (x ++ x') = sys.keyAt (sys.keyAt k x) x' := List.foldl_append

lemma encryptAll_cons {a : α} : sys.encryptAll k (a :: x) = some y ↔
    ∃ b z, sys.encrypt k a = some b ∧ sys.encryptAll (sys.derive k a) x = some z ∧ y = b :: z := by
  simp only [encryptAll, Option.bind_eq_some_iff, Option.map_eq_some_iff]
  grind

lemma decryptAll_cons {b : β} : sys.decryptAll k (b :: y) = some x ↔
    ∃ a z, sys.decrypt k b = some a ∧ sys.decryptAll (sys.derive k a) y = some z ∧ x = a :: z := by
  simp only [decryptAll, Option.bind_eq_some_iff, Option.map_eq_some_iff]
  grind

lemma encryptAll_append : sys.encryptAll k (x ++ x') = some y ↔
    ∃ z z', sys.encryptAll k x = some z ∧ sys.encryptAll (sys.keyAt k x) x' = some z' ∧
      y = z ++ z' := by
  induction x generalizing k y with
  | nil => simp [encryptAll, keyAt]
  | cons a x ih =>
      rw [List.cons_append, encryptAll_cons]
      simp only [ih, encryptAll_cons]
      constructor
      · rintro ⟨b, _, hb, ⟨z, z', hz, hz', rfl⟩, rfl⟩
        exact ⟨b :: z, z', ⟨b, z, hb, hz, rfl⟩, hz', rfl⟩
      · rintro ⟨_, z', ⟨b, z, hb, hz, rfl⟩, hz', rfl⟩
        exact ⟨b, z ++ z', hb, ⟨z, z', hz, hz', rfl⟩, rfl⟩

lemma decryptAll_append : sys.decryptAll k (y ++ y') = some x ↔
    ∃ z z', sys.decryptAll k y = some z ∧ sys.decryptAll (sys.keyAt k z) y' = some z' ∧
      x = z ++ z' := by
  induction y generalizing k x with
  | nil => simp [decryptAll, keyAt]
  | cons b y ih =>
      rw [List.cons_append, decryptAll_cons]
      simp only [ih, decryptAll_cons]
      constructor
      · rintro ⟨a, _, ha, ⟨z, z', hz, hz', rfl⟩, rfl⟩
        exact ⟨a :: z, z', ⟨a, z, ha, hz, rfl⟩, hz', rfl⟩
      · rintro ⟨_, z', ⟨a, z, ha, hz, rfl⟩, hz', rfl⟩
        exact ⟨a, z ++ z', ha, ⟨z, z', hz, hz', rfl⟩, rfl⟩

lemma length_encryptAll (h : sys.encryptAll k x = some y) : y.length = x.length := by
  induction x generalizing k y with
  | nil =>
      cases h
      rfl
  | cons a x ih =>
      obtain ⟨b, z, _, hz, rfl⟩ := encryptAll_cons.mp h
      rw [List.length_cons, List.length_cons, ih hz]

lemma length_decryptAll (h : sys.decryptAll k y = some x) : x.length = y.length := by
  induction y generalizing k x with
  | nil =>
      cases h
      rfl
  | cons b y ih =>
      obtain ⟨a, z, _, hz, rfl⟩ := decryptAll_cons.mp h
      rw [List.length_cons, List.length_cons, ih hz]

/-- What was sealed can be opened with the same key, if that holds of one component under every key
that is derived on the way. -/
lemma decryptAll_encryptAll {P : κ → Prop} (hP : ∀ k a, P k → P (sys.derive k a))
    (hinv : ∀ k a b, P k → sys.encrypt k a = some b → sys.decrypt k b = some a) (hk : P k)
    (h : sys.encryptAll k x = some y) : sys.decryptAll k y = some x := by
  induction x generalizing k y with
  | nil =>
      cases h
      rfl
  | cons a x ih =>
      obtain ⟨b, z, hb, hz, rfl⟩ := encryptAll_cons.mp h
      exact decryptAll_cons.mpr ⟨a, x, hinv k a b hk hb, ih (hP k a hk) hz, rfl⟩

end System

/-! ## Looking paths up in a table

Sealing and opening start from what the table has above the path.  The three relations say so
without naming an entry, and since the start is unique they are functions.
-/

namespace Table

variable (sys : System α β κ) (T : Table α β κ)

/-- A path is sealed to a ciphertext. -/
def Enc (x : List α) (y : List β) : Prop :=
  ∃ p k c, T.Start Prod.fst x p k ∧ sys.encryptAll k (x.drop p.length) = some c ∧ y = cipher p ++ c

/-- A ciphertext is opened to a path. -/
def Dec (y : List β) (x : List α) : Prop :=
  ∃ p k c, T.Start Prod.snd y p k ∧ sys.decryptAll k (y.drop p.length) = some c ∧ x = plain p ++ c

/-- A path has a key. -/
def Key (x : List α) (k : κ) : Prop :=
  ∃ p l, T.Start Prod.fst x p l ∧ k = sys.keyAt l (x.drop p.length)

variable {sys T} {x : List α} {y : List β} {k : κ}

lemma Enc.length (h : T.Enc sys x y) : y.length = x.length := by
  obtain ⟨p, k, c, hp, hc, rfl⟩ := h
  have hlen := hp.length_le
  rw [List.length_append, List.length_map, System.length_encryptAll hc, List.length_drop]
  omega

lemma Dec.length (h : T.Dec sys y x) : x.length = y.length := by
  obtain ⟨p, k, c, hp, hc, rfl⟩ := h
  have hlen := hp.length_le
  rw [List.length_append, List.length_map, System.length_decryptAll hc, List.length_drop]
  omega

lemma Enc.unique (hT : T.Coherent) {y' : List β} (h : T.Enc sys x y) (h' : T.Enc sys x y') :
    y = y' := by
  obtain ⟨p, k, c, hp, hc, rfl⟩ := h
  obtain ⟨q, l, d, hq, hd, rfl⟩ := h'
  obtain ⟨rfl, rfl⟩ := hp.unique hT side_fst hq
  rw [hc, Option.some.injEq] at hd
  rw [hd]

lemma Key.unique (hT : T.Coherent) {l : κ} (h : T.Key sys x k) (h' : T.Key sys x l) : k = l := by
  obtain ⟨p, k, hp, rfl⟩ := h
  obtain ⟨q, l, hq, rfl⟩ := h'
  obtain ⟨rfl, rfl⟩ := hp.unique hT side_fst hq
  rfl

/-- Where the start is known, so is the rest. -/
lemma Start.enc_iff {p : Path α β} (hT : T.Coherent) (h : T.Start Prod.fst x p k) :
    T.Enc sys x y ↔ ∃ c, sys.encryptAll k (x.drop p.length) = some c ∧ y = cipher p ++ c := by
  constructor
  · rintro ⟨q, l, c, hq, hc, rfl⟩
    obtain ⟨rfl, rfl⟩ := h.unique hT side_fst hq
    exact ⟨c, hc, rfl⟩
  · rintro ⟨c, hc, rfl⟩
    exact ⟨p, k, c, h, hc, rfl⟩

lemma Start.dec_iff {p : Path α β} (hT : T.Coherent) (h : T.Start Prod.snd y p k) :
    T.Dec sys y x ↔ ∃ c, sys.decryptAll k (y.drop p.length) = some c ∧ x = plain p ++ c := by
  constructor
  · rintro ⟨q, l, c, hq, hc, rfl⟩
    obtain ⟨rfl, rfl⟩ := h.unique hT side_snd hq
    exact ⟨c, hc, rfl⟩
  · rintro ⟨c, hc, rfl⟩
    exact ⟨p, k, c, h, hc, rfl⟩

lemma Start.key_iff {p : Path α β} {l : κ} (hT : T.Coherent) (h : T.Start Prod.fst x p k) :
    T.Key sys x l ↔ l = sys.keyAt k (x.drop p.length) := by
  constructor
  · rintro ⟨q, m, hq, rfl⟩
    obtain ⟨rfl, rfl⟩ := h.unique hT side_fst hq
    rfl
  · rintro rfl
    exact ⟨p, k, h, rfl⟩

end Table

end KeyTree
