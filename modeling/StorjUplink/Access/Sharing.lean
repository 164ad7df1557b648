import StorjUplink.Lib.KeyTree

/-!
# Sharing a tree of keys

What restricting a grant does to the keys of one bucket, apart from bytes and formats.  A share is a
list of groups of ciphertext prefixes; a ciphertext is allowed if every group has one of its
beginnings.  The limited table keeps the allowed entries and adds an entry for each allowed prefix
that can be opened, in order, unless it disagrees with one added before (`Limit`).

Two results carry the grants.  Limiting a limited table again changes nothing (`Limit.idem`), even
where prefixes disagree or open only by accident, because every prefix was sealed below an entry
that is still there (`Origin`).  And where the entries of a table are consistent with what it
seals, the limited table seals every path it can as the old one does (`Limit.enc`).
-/

namespace Storj.Sharing

open KeyTree

variable {α β κ : Type*}

/-! ## Groups of prefixes

Each caveat with paths is a group.  The prefixes that survive are those that every group allows.
-/

section Groups

variable (le : List β → List β → Prop)

/-- Every group has a beginning of the ciphertext. -/
def Allowed (G : List (List (List β))) (y : List β) : Prop := ∀ g ∈ G, ∃ z ∈ g, le z y

open Classical in
/-- The prefixes of the groups that are allowed themselves. -/
noncomputable def retained (G : List (List (List β))) : List (List β) :=
  G.flatten.filter fun y => Allowed le G y

variable {le} {G N : List (List (List β))} {y z : List β}

lemma mem_retained : y ∈ retained le G ↔ (∃ g ∈ G, y ∈ g) ∧ Allowed le G y := by
  simp only [retained, List.mem_filter, List.mem_flatten, decide_eq_true_eq]

lemma allowed_append : Allowed le (G ++ N) y ↔ Allowed le G y ∧ Allowed le N y := by
  simp only [Allowed, List.mem_append]
  grind

lemma Allowed.trans (htrans : ∀ a b c, le a b → le b c → le a c) (h : Allowed le G y)
    (hyz : le y z) : Allowed le G z := by
  intro g hg
  obtain ⟨w, hw, hwy⟩ := h g hg
  exact ⟨w, hw, htrans w y z hwy hyz⟩

end Groups

/-! ## Adding what does not disagree

The order of the prefixes matters only where two of them disagree: the one that comes first is
kept.
-/

section Greedy

open Classical in
/-- Paths in order, without those that disagree with one before. -/
noncomputable def greedy (acc : List (Path α β)) : List (Path α β) → List (Path α β)
  | [] => acc
  | p :: l => if ∀ q ∈ acc, Agree p q then greedy (acc ++ [p]) l else greedy acc l

variable {acc l : List (Path α β)} {p q : Path α β}

lemma mem_greedy_of_mem (h : p ∈ acc) : p ∈ greedy acc l := by
  induction l generalizing acc with
  | nil => exact h
  | cons q l ih =>
      rw [greedy]
      split_ifs
      · exact ih (List.mem_append_left _ h)
      · exact ih h

lemma mem_of_mem_greedy (h : p ∈ greedy acc l) : p ∈ acc ∨ p ∈ l := by
  induction l generalizing acc with
  | nil => exact Or.inl h
  | cons q l ih =>
      rw [greedy] at h
      split_ifs at h
      · rcases ih h with h | h
        · rcases List.mem_append.mp h with h | h
          · exact Or.inl h
          · exact Or.inr (List.mem_cons.mpr (Or.inl (List.mem_singleton.mp h)))
        · exact Or.inr (List.mem_cons_of_mem _ h)
      · rcases ih h with h | h
        · exact Or.inl h
        · exact Or.inr (List.mem_cons_of_mem _ h)

/-- Paths that all agree are all added. -/
lemma greedy_of_agree (h : ∀ p ∈ acc ++ l, ∀ q ∈ acc ++ l, Agree p q) :
    greedy acc l = acc ++ l := by
  induction l generalizing acc with
  | nil => simp [greedy]
  | cons p l ih =>
      have hp : ∀ q ∈ acc, Agree p q := fun q hq => h p (by simp) q (by simp [hq])
      rw [greedy, if_pos hp, ih]
      · simp
      · simpa using h

/-- A list that lacks only paths that were not added gives the same. -/
lemma greedy_filterMap {ι : Type*} {l : List ι} {c d : ι → Option (Path α β)}
    (hsub : ∀ i ∈ l, ∀ p, d i = some p → c i = some p)
    (hacc : ∀ i ∈ l, ∀ p, c i = some p → p ∈ greedy acc (l.filterMap c) → d i = some p) :
    greedy acc (l.filterMap d) = greedy acc (l.filterMap c) := by
  induction l generalizing acc with
  | nil => rfl
  | cons i l ih =>
      have hsub' : ∀ j ∈ l, ∀ p, d j = some p → c j = some p :=
        fun j hj => hsub j (List.mem_cons_of_mem _ hj)
      cases hc : c i with
      | none =>
          have hd : d i = none := by
            cases hd : d i with
            | none => rfl
            | some p =>
                rw [hsub i List.mem_cons_self p hd] at hc
                cases hc
          rw [List.filterMap_cons_none hc] at hacc ⊢
          rw [List.filterMap_cons_none hd]
          exact ih hsub' fun j hj => hacc j (List.mem_cons_of_mem _ hj)
      | some p =>
          rw [List.filterMap_cons_some hc] at hacc ⊢
          by_cases hp : ∀ q ∈ acc, Agree p q
          · -- the path is added, so it is in the other list as well
            rw [greedy, if_pos hp] at hacc ⊢
            have hd := hacc i List.mem_cons_self p hc (mem_greedy_of_mem (by simp))
            rw [List.filterMap_cons_some hd, greedy, if_pos hp]
            exact ih hsub' fun j hj => hacc j (List.mem_cons_of_mem _ hj)
          · rw [greedy, if_neg hp] at hacc ⊢
            have hrest := ih hsub' fun j hj => hacc j (List.mem_cons_of_mem _ hj)
            cases hd : d i with
            | none =>
                rw [List.filterMap_cons_none hd]
                exact hrest
            | some q =>
                have hqp : q = p := by
                  have := hsub i List.mem_cons_self q hd
                  rw [hc, Option.some.injEq] at this
                  exact this.symm
                rw [List.filterMap_cons_some hd, hqp, greedy, if_neg hp]
                exact hrest

end Greedy

/-! ## Components of a run

What is known of ciphertexts is known of those that were made in the run.  A genuine path is made
of such components, not necessarily under the right keys.
-/

section Ideal

variable (sys : System α β κ) (I : κ → α → Prop) (K : κ → Prop) (le : List β → List β → Prop)

/-- Every component is the sealing of its plaintext under some key, one of those in `I`. -/
def Genuine (p : Path α β) : Prop := ∀ a ∈ p, ∃ k, I k a.1 ∧ sys.encrypt k a.1 = some a.2

/-- A path sealed from a key on, each component one of those in `I`. -/
def Sealed : κ → Path α β → Prop
  | _, [] => True
  | k, a :: p => I k a.1 ∧ sys.encrypt k a.1 = some a.2 ∧ Sealed (sys.derive k a.1) p

/-- **What is assumed of the sealing** of the components in `I` under the keys in `K`: a sealed
component determines its key and its plaintext, the bytes of one path begin those of another only as
whole components, and no key opens a component to something else. -/
structure Ideal : Prop where
  inverse : ∀ k a b, K k → sys.encrypt k a = some b → sys.decrypt k b = some a
  unique : ∀ k a l c b, I k a → I l c → sys.encrypt k a = some b → sys.encrypt l c = some b →
    k = l ∧ a = c
  opens : ∀ k a b l c, I k a → sys.encrypt k a = some b → K l → sys.decrypt l b = some c → c = a
  derive : ∀ k a, K k → (∃ l, I l a) → K (sys.derive k a)
  le_of_prefix : ∀ y z, y <+: z → le y z
  le_trans : ∀ x y z, le x y → le y z → le x z
  prefix_of_le : ∀ p q, Genuine sys I p → Genuine sys I q → le (cipher p) (cipher q) →
    cipher p <+: cipher q

variable {sys I K le} {p q r : Path α β} {k : κ} {x : List α} {y : List β}

lemma Genuine.append (hp : Genuine sys I p) (hq : Genuine sys I q) : Genuine sys I (p ++ q) := by
  intro a ha
  rcases List.mem_append.mp ha with ha | ha
  · exact hp a ha
  · exact hq a ha

lemma Genuine.of_prefix (hq : Genuine sys I q) (h : p <+: q) : Genuine sys I p :=
  fun a ha => hq a (h.mem ha)

lemma Genuine.of_suffix (hq : Genuine sys I q) (h : p <:+ q) : Genuine sys I p :=
  fun a ha => hq a (h.mem ha)

lemma Sealed.genuine (h : Sealed sys I k p) : Genuine sys I p := by
  induction p generalizing k with
  | nil => nofun
  | cons a p ih =>
      rintro b (_ | ⟨_, hb⟩)
      · exact ⟨k, h.1, h.2.1⟩
      · exact ih h.2.2 b hb

lemma sealed_append : Sealed sys I k (p ++ q) ↔
    Sealed sys I k p ∧ Sealed sys I (sys.keyAt k (plain p)) q := by
  induction p generalizing k with
  | nil => simp [Sealed, System.keyAt]
  | cons a p ih =>
      simp only [List.cons_append, Sealed, ih, List.map_cons, System.keyAt, List.foldl_cons,
        and_assoc]

lemma Sealed.encryptAll (h : Sealed sys I k p) : sys.encryptAll k (plain p) = some (cipher p) := by
  induction p generalizing k with
  | nil => rfl
  | cons a p ih => exact System.encryptAll_cons.mpr ⟨a.2, _, h.2.1, ih h.2.2, rfl⟩

variable (hI : Ideal sys I K le)

include hI

/-- Genuine paths are determined by their ciphertext. -/
lemma Ideal.isPrefix (hp : Genuine sys I p) (hq : Genuine sys I q)
    (h : cipher p <+: cipher q) : p <+: q := by
  induction p generalizing q with
  | nil => exact List.nil_prefix
  | cons a p ih =>
      cases q with
      | nil => exact absurd (List.prefix_nil.mp h) (List.cons_ne_nil _ _)
      | cons b q =>
          have h : a.2 = b.2 ∧ cipher p <+: cipher q := List.cons_prefix_cons.mp h
          obtain ⟨k, hk, hka⟩ := hp a List.mem_cons_self
          obtain ⟨l, hl, hlb⟩ := hq b List.mem_cons_self
          rw [← h.1] at hlb
          have hab : a = b := Prod.ext (hI.unique k a.1 l b.1 a.2 hk hl hka hlb).2 h.1
          rw [hab, List.cons_prefix_cons]
          refine ⟨rfl, ih (fun c hc => hp c (List.mem_cons_of_mem _ hc))
            (fun c hc => hq c (List.mem_cons_of_mem _ hc)) h.2⟩

lemma Ideal.eq_of_cipher (hp : Genuine sys I p) (hq : Genuine sys I q)
    (h : cipher p = cipher q) : p = q := by
  refine (hI.isPrefix hp hq (h ▸ List.prefix_refl _)).eq_of_length ?_
  have := congrArg List.length h
  rwa [List.length_map, List.length_map] at this

/-- The keys derived on the way along a genuine path are known. -/
lemma Ideal.keyAt (hp : Genuine sys I p) (hk : K k) : K (sys.keyAt k (plain p)) := by
  induction p generalizing k with
  | nil => exact hk
  | cons a p ih =>
      obtain ⟨l, hl, _⟩ := hp a List.mem_cons_self
      exact ih (fun b hb => hp b (List.mem_cons_of_mem _ hb)) (hI.derive k a.1 hk ⟨l, hl⟩)

/-- What was sealed from a key on opens with it. -/
lemma Ideal.decryptAll_sealed (h : Sealed sys I k p) (hk : K k) :
    sys.decryptAll k (cipher p) = some (plain p) := by
  induction p generalizing k with
  | nil => rfl
  | cons a p ih =>
      have hnext := ih h.2.2 (hI.derive k a.1 hk ⟨k, h.1⟩)
      exact System.decryptAll_cons.mpr ⟨a.1, plain p, hI.inverse k a.1 a.2 hk h.2.1, hnext, rfl⟩

/-- Genuine components open to their plaintext or not at all. -/
lemma Ideal.decryptAll (hp : Genuine sys I p) (hk : K k)
    (h : sys.decryptAll k (cipher p) = some x) : x = plain p := by
  induction p generalizing k x with
  | nil =>
      cases h
      rfl
  | cons a p ih =>
      obtain ⟨c, z, hc, hz, rfl⟩ := System.decryptAll_cons.mp h
      obtain ⟨l, hl, hla⟩ := hp a List.mem_cons_self
      have hca : c = a.1 := hI.opens l a.1 a.2 k c hl hla hk hc
      rw [hca] at hz ⊢
      rw [ih (fun b hb => hp b (List.mem_cons_of_mem _ hb)) (hI.derive k a.1 hk ⟨l, hl⟩) hz]
      rfl

end Ideal

/-! ## Limiting a table

The limited table is given by its entries, each with the key that the old table has for its path.
-/

section Limit

variable (sys : System α β κ) (le : List β → List β → Prop)

open Classical in
/-- The path that a table opens a ciphertext to. -/
noncomputable def candidate (T : Table α β κ) (y : List β) : Option (Path α β) :=
  if h : ∃ p, cipher p = y ∧ T.Dec sys y (plain p) then some h.choose else none

/-- The paths that are added for the prefixes of the groups. -/
noncomputable def added (T : Table α β κ) (G : List (List (List β))) : List (Path α β) :=
  greedy [] ((retained le G).filterMap (candidate sys T))

/-- **The limited table**: the entries that are allowed and those that are added, with the keys that
the old table has for their paths. -/
structure Limit (T : Table α β κ) (G : List (List (List β))) (T' : Table α β κ) : Prop where
  root_eq : T'.root = none
  entry_iff : ∀ p k, T'.entry p = some k ↔
    ((T.Has p ∧ Allowed le G (cipher p)) ∨ p ∈ added sys le T G) ∧ T.Key sys (plain p) k
  coherent : T'.Coherent

variable {sys le} {T T' : Table α β κ} {G N : List (List (List β))} {p q : Path α β} {k : κ}
  {x : List α} {y : List β}

lemma candidate_spec (h : candidate sys T y = some p) : cipher p = y ∧ T.Dec sys y (plain p) := by
  rw [candidate] at h
  split_ifs at h with hex
  cases h
  exact hex.choose_spec

/-- Opening is unique. -/
lemma dec_unique (hT : T.Coherent) {x' : List α} (h : T.Dec sys y x) (h' : T.Dec sys y x') :
    x = x' := by
  obtain ⟨p, k, c, hp, hc, rfl⟩ := h
  obtain ⟨q, l, d, hq, hd, rfl⟩ := h'
  obtain ⟨rfl, rfl⟩ := hp.unique hT side_snd hq
  rw [hc, Option.some.injEq] at hd
  rw [hd]

lemma path_ext (h : plain p = plain q) (h' : cipher p = cipher q) : p = q := by
  have hp : p = (plain p).zip (cipher p) := by simp [List.zip_map', plain, cipher]
  have hq : q = (plain q).zip (cipher q) := by simp [List.zip_map', plain, cipher]
  rw [hp, hq, h, h']

lemma candidate_eq (hT : T.Coherent) :
    candidate sys T y = some p ↔ cipher p = y ∧ T.Dec sys y (plain p) := by
  refine ⟨candidate_spec, fun h => ?_⟩
  have hex : ∃ p, cipher p = y ∧ T.Dec sys y (plain p) := ⟨p, h⟩
  rw [candidate, dif_pos hex, Option.some.injEq]
  exact path_ext (dec_unique hT hex.choose_spec.2 h.2) (hex.choose_spec.1.trans h.1.symm)

/-- What can be opened is a path with that ciphertext. -/
lemma exists_candidate (hT : T.Coherent) (h : T.Dec sys y x) :
    ∃ p, candidate sys T y = some p ∧ plain p = x := by
  refine ⟨x.zip y, (candidate_eq hT).mpr ⟨?_, ?_⟩, ?_⟩
  · exact List.map_snd_zip (by rw [h.length])
  · rw [plain, List.map_fst_zip (by rw [h.length])]
    exact h
  · exact List.map_fst_zip (by rw [h.length])

lemma mem_added (h : p ∈ added sys le T G) :
    cipher p ∈ retained le G ∧ T.Dec sys (cipher p) (plain p) := by
  rcases mem_of_mem_greedy h with h | h
  · cases h
  · obtain ⟨y, hy, hp⟩ := List.mem_filterMap.mp h
    obtain ⟨rfl, hdec⟩ := candidate_spec hp
    exact ⟨hy, hdec⟩

/-- An entry has its own key. -/
lemma key_self (h : T.entry p = some k) : T.Key sys (plain p) k := by
  refine ⟨p, k, T.start_self h, ?_⟩
  rw [List.drop_of_length_le (by simp)]
  rfl

lemma enc_self (h : T.entry p = some k) : T.Enc sys (plain p) (cipher p) := by
  refine ⟨p, k, [], T.start_self h, ?_, by simp⟩
  rw [List.drop_of_length_le (by simp)]
  rfl

lemma dec_self (h : T.entry p = some k) : T.Dec sys (cipher p) (plain p) := by
  refine ⟨p, k, [], T.start_self h, ?_, by simp⟩
  rw [List.drop_of_length_le (by simp)]
  rfl

/-- What can be opened has a key. -/
lemma exists_key (h : T.Dec sys y x) : ∃ k, T.Key sys x k := by
  obtain ⟨p, k, c, hp, hc, rfl⟩ := h
  suffices hstart : ∃ q l, T.Start Prod.fst (plain p ++ c) q l by
    obtain ⟨q, l, hq⟩ := hstart
    exact ⟨_, q, l, hq, rfl⟩
  cases hp with
  | entry hpk hx hdeep => exact Table.exists_start ⟨k, hpk⟩ (List.prefix_append _ _)
  | root hroot hnone => exact Table.exists_start_of_root hroot

namespace Limit

lemma has_iff (h : Limit sys le T G T') :
    T'.Has p ↔ (T.Has p ∧ Allowed le G (cipher p)) ∨ p ∈ added sys le T G := by
  constructor
  · rintro ⟨k, hk⟩
    exact ((h.entry_iff p k).mp hk).1
  · intro hp
    suffices hkey : ∃ k, T.Key sys (plain p) k by
      obtain ⟨k, hk⟩ := hkey
      exact ⟨k, (h.entry_iff p k).mpr ⟨hp, hk⟩⟩
    rcases hp with ⟨⟨k, hk⟩, _⟩ | hp
    · exact ⟨k, key_self hk⟩
    · exact exists_key (mem_added hp).2

lemma key (h : Limit sys le T G T') (hk : T'.entry p = some k) : T.Key sys (plain p) k :=
  ((h.entry_iff p k).mp hk).2

/-- **Confinement.**  Every entry of the limited table is allowed. -/
lemma allowed (h : Limit sys le T G T') (hp : T'.Has p) : Allowed le G (cipher p) := by
  rcases h.has_iff.mp hp with ⟨_, hp⟩ | hp
  · exact hp
  · exact (mem_retained.mp (mem_added hp).1).2

/-- Above what the limited table has an entry for, the old table has a start. -/
lemma exists_old_start (h : Limit sys le T G T') (hp : T'.Has p) (hy : cipher p <+: y) :
    ∃ q l, T.Start Prod.snd y q l := by
  rcases h.has_iff.mp hp with ⟨hp, _⟩ | hp
  · exact Table.exists_start hp hy
  · obtain ⟨q, l, c, hq, _, _⟩ := (mem_added hp).2
    cases hq with
    | entry hql hqx _ => exact Table.exists_start ⟨l, hql⟩ (hqx.trans hy)
    | root hroot _ => exact Table.exists_start_of_root hroot

/-- A limited table that would add the same paths again is its own limit. -/
lemma idem_of_added_eq (h : Limit sys le T G T') (hadded : added sys le T' G = added sys le T G) :
    Limit sys le T' G T' where
  root_eq := h.root_eq
  coherent := h.coherent
  entry_iff p k := by
    rw [hadded]
    constructor
    · intro hk
      exact ⟨Or.inl ⟨⟨k, hk⟩, h.allowed ⟨k, hk⟩⟩, key_self hk⟩
    · rintro ⟨hp, hkey⟩
      have hhas : T'.Has p := by
        rcases hp with hp | hp
        · exact hp.1
        · exact h.has_iff.mpr (Or.inr hp)
      obtain ⟨l, hl⟩ := hhas
      rw [hkey.unique h.coherent (key_self hl)]
      exact hl

end Limit

end Limit

/-! ## Runs of shares

The invariant has to survive overrides between shares.  What a prefix of an old group opens to may
have changed since, but where it was sealed from is still known.
-/

section Run

variable (sys : System α β κ) (I : κ → α → Prop) (K : κ → Prop) (le : List β → List β → Prop)

/-- The table seals a path, each component one of those in `I`. -/
def Seals (T : Table α β κ) (p : Path α β) : Prop :=
  ∃ q r k, p = q ++ r ∧ T.Start Prod.fst (plain p) q k ∧ Sealed sys I k r

/-- **Where a prefix comes from**: it was sealed below an entry, which is still there as long as it
is allowed, or below the root. -/
def Origin (T : Table α β κ) (G : List (List (List β))) (y : List β) : Prop :=
  ∃ q r k, y = cipher (q ++ r) ∧ Genuine sys I (q ++ r) ∧ Sealed sys I k r ∧
    (q = [] ∨ (Allowed le G (cipher q) → T.Has q))

/-- A prefix of a new group: the whole tree, or a path that the table seals. -/
def Fresh (T : Table α β κ) (y : List β) : Prop := y = [] ∨ ∃ p, y = cipher p ∧ Seals sys I T p

/-- **The state between two operations.** -/
structure Inv (T : Table α β κ) (G : List (List (List β))) : Prop where
  coherent : T.Coherent
  genuine : ∀ p, T.Has p → Genuine sys I p
  keys : ∀ p k, T.entry p = some k → K k
  rootKey : ∀ k, T.root = some k → K k
  root_iff : T.root ≠ none ↔ G = []
  allowed : ∀ p, T.Has p → Allowed le G (cipher p)
  origin : ∀ g ∈ G, ∀ y ∈ g, Origin sys I le T G y

variable {sys I K le} {T T' : Table α β κ} {G N : List (List (List β))} {p q : Path α β} {k : κ}
  {x : List α} {y : List β}

lemma Start.genuine (hgen : ∀ p, T.Has p → Genuine sys I p) {δ : Type*} {f : α × β → δ}
    {x : List δ} (h : T.Start f x p k) : Genuine sys I p := by
  cases h with
  | entry hp hx hdeep => exact hgen p ⟨k, hp⟩
  | root hroot hnone => nofun

lemma Seals.genuine (hgen : ∀ p, T.Has p → Genuine sys I p) (h : Seals sys I T p) :
    Genuine sys I p := by
  obtain ⟨q, r, k, rfl, hq, hr⟩ := h
  exact (Start.genuine hgen hq).append hr.genuine

lemma Seals.enc (h : Seals sys I T p) : T.Enc sys (plain p) (cipher p) := by
  obtain ⟨q, r, k, rfl, hq, hr⟩ := h
  refine ⟨q, k, cipher r, hq, ?_, by simp⟩
  rw [plain, List.map_append, List.drop_left' (by simp)]
  exact hr.encryptAll

/-- What the table seals now has an origin. -/
lemma Fresh.origin [hκ : Nonempty κ] (hgen : ∀ p, T.Has p → Genuine sys I p) (h : Fresh sys I T y) :
    Origin sys I le T G y := by
  rcases h with rfl | ⟨p, rfl, hp⟩
  · obtain ⟨k⟩ := hκ
    exact ⟨[], [], k, rfl, nofun, trivial, Or.inl rfl⟩
  · have hgenp := hp.genuine hgen
    obtain ⟨q, r, k, rfl, hq, hr⟩ := hp
    refine ⟨q, r, k, rfl, hgenp, hr, ?_⟩
    cases hq with
    | entry hq hx hdeep => exact Or.inr fun _ => ⟨k, hq⟩
    | root hroot hnone => exact Or.inl rfl

section Opening

variable (hI : Ideal sys I K le) (hgen : ∀ p, T.Has p → Genuine sys I p)
  (hkeys : ∀ p k, T.entry p = some k → K k) (hroot : ∀ k, T.root = some k → K k)

lemma Start.key {δ : Type*} {f : α × β → δ} {x : List δ} (hkeys : ∀ p k, T.entry p = some k → K k)
    (hroot : ∀ k, T.root = some k → K k) (h : T.Start f x p k) : K k := by
  cases h with
  | entry hp hx hdeep => exact hkeys p k hp
  | root hr hnone => exact hroot k hr

include hI hgen hkeys hroot in
/-- **A genuine ciphertext opens to its plaintext or not at all.** -/
lemma dec_genuine (hp : Genuine sys I p) (h : T.Dec sys (cipher p) x) : x = plain p := by
  obtain ⟨q, k, c, hq, hc, rfl⟩ := h
  have hqp : q <+: p := hI.isPrefix (Start.genuine hgen hq) hp hq.isPrefix
  obtain ⟨r, rfl⟩ := hqp
  rw [cipher, List.map_append, List.drop_left' (by simp)] at hc
  have hr : Genuine sys I r := hp.of_suffix (List.suffix_append q r)
  rw [hI.decryptAll hr (Start.key hkeys hroot hq) hc, plain, plain, plain, List.map_append]

include hI hgen hkeys hroot in
/-- The table opens what it seals. -/
lemma Seals.dec (h : Seals sys I T p) : T.Dec sys (cipher p) (plain p) := by
  have hp := h.genuine hgen
  obtain ⟨q, r, k, rfl, hq, hr⟩ := h
  have hdec := hI.decryptAll_sealed hr (Start.key hkeys hroot hq)
  refine ⟨q, k, plain r, ?_, ?_, by simp⟩
  · cases hq with
    | entry hqk hx hdeep =>
        refine .entry hqk (by simp) fun w hw hwx => ?_
        have hwp : w <+: q ++ r := hI.isPrefix (hgen w hw) hp hwx
        exact hdeep w hw (hwp.map _)
    | root hroot hnone =>
        refine .root hroot fun w hw hwx => ?_
        have hwp : w <+: [] ++ r := hI.isPrefix (hgen w hw) hp hwx
        exact hnone w hw (hwp.map _)
  · rw [cipher, List.map_append, List.drop_left' (by simp)]
    exact hdec

end Opening

section Traced

variable (sys I K) in
/-- **Everything was sealed in the run**: the entries, and the prefixes of the groups. -/
structure Traced (T : Table α β κ) (G : List (List (List β))) : Prop where
  coherent : T.Coherent
  genuine : ∀ p, T.Has p → Genuine sys I p
  keys : ∀ p k, T.entry p = some k → K k
  rootKey : ∀ k, T.root = some k → K k
  groups : ∀ g ∈ G, ∀ y ∈ g, ∃ p, y = cipher p ∧ Genuine sys I p

variable (hI : Ideal sys I K le) (htr : Traced sys I K T G)

include htr in
lemma Traced.append (hnew : ∀ g ∈ N, ∀ y ∈ g, Fresh sys I T y) : Traced sys I K T (G ++ N) where
  coherent := htr.coherent
  genuine := htr.genuine
  keys := htr.keys
  rootKey := htr.rootKey
  groups g hg y hy := by
    rcases List.mem_append.mp hg with hg | hg
    · exact htr.groups g hg y hy
    · rcases hnew g hg y hy with rfl | ⟨p, rfl, hp⟩
      · exact ⟨[], rfl, nofun⟩
      · exact ⟨p, rfl, hp.genuine htr.genuine⟩

include hI htr in
/-- A prefix of the groups opens to its own plaintext or not at all. -/
lemma Traced.candidate {g : List (List β)} (hg : g ∈ G) (hy : cipher p ∈ g)
    (hdec : T.Dec sys (cipher p) (plain p)) : Genuine sys I p := by
  obtain ⟨q, hq, hgen⟩ := htr.groups g hg _ hy
  rw [hq] at hdec
  have hplain := dec_genuine hI htr.genuine htr.keys htr.rootKey hgen hdec
  rw [path_ext hplain hq]
  exact hgen

include hI htr in
lemma Traced.genuine_added (hp : p ∈ added sys le T G) : Genuine sys I p := by
  obtain ⟨hret, hdec⟩ := mem_added hp
  obtain ⟨⟨g, hg, hy⟩, _⟩ := mem_retained.mp hret
  exact htr.candidate hI hg hy hdec

include hI htr in
/-- **A share adds nothing that was not sealed in the run.** -/
theorem Traced.limit (hlim : Limit sys le T G T') : Traced sys I K T' G := by
  have hgenuine : ∀ p, T'.Has p → Genuine sys I p := by
    intro p hp
    rcases hlim.has_iff.mp hp with ⟨hp, _⟩ | hp
    · exact htr.genuine p hp
    · exact htr.genuine_added hI hp
  refine ⟨hlim.coherent, hgenuine, fun p k hk => ?_, ?_, htr.groups⟩
  · obtain ⟨q, l, hq, rfl⟩ := hlim.key hk
    have hgen : Genuine sys I (p.drop q.length) :=
      (hgenuine p ⟨_, hk⟩).of_suffix (List.drop_suffix _ _)
    rw [plain, ← List.map_drop]
    exact hI.keyAt hgen (Start.key htr.keys htr.rootKey hq)
  · rw [hlim.root_eq]
    nofun

include hI htr in
/-- **Confinement in components.**  Below every entry of the limited table there is, for every
group, one of its prefixes, on both sides. -/
theorem Traced.confined (hlim : Limit sys le T G T') (hp : T'.Has p) {g : List (List β)}
    (hg : g ∈ G) : ∃ q, cipher q ∈ g ∧ Genuine sys I q ∧ q <+: p := by
  obtain ⟨z, hz, hle⟩ := hlim.allowed hp g hg
  obtain ⟨q, rfl, hgen⟩ := htr.groups g hg z hz
  have hgenp := (htr.limit hI hlim).genuine p hp
  exact ⟨q, hz, hgen, hI.isPrefix hgen hgenp (hI.prefix_of_le q p hgen hgenp hle)⟩

end Traced

section Limited

variable (hI : Ideal sys I K le) (hinv : Inv sys I K le T G)
  (hnew : ∀ g ∈ N, ∀ y ∈ g, Fresh sys I T y)

include hinv hnew in
lemma origin_append [Nonempty κ] {g : List (List β)} (hg : g ∈ G ++ N) (hy : y ∈ g) :
    Origin sys I le T G y := by
  rcases List.mem_append.mp hg with hg | hg
  · exact hinv.origin g hg y hy
  · exact (hnew g hg y hy).origin hinv.genuine

include hinv hnew in
/-- A retained prefix is the ciphertext of a genuine path. -/
lemma exists_origin [Nonempty κ] (hy : y ∈ retained le (G ++ N)) :
    Origin sys I le T G y := by
  obtain ⟨⟨g, hg, hyg⟩, _⟩ := mem_retained.mp hy
  exact origin_append hinv hnew hg hyg

include hinv hnew in
lemma Inv.traced [Nonempty κ] : Traced sys I K T (G ++ N) where
  coherent := hinv.coherent
  genuine := hinv.genuine
  keys := hinv.keys
  rootKey := hinv.rootKey
  groups g hg y hy := by
    obtain ⟨q, r, _, hqr, hgen, _, _⟩ := origin_append hinv hnew hg hy
    exact ⟨q ++ r, hqr, hgen⟩

/-! ### Opening in the limited table

A retained prefix `y` that the limited table opens, the old table opens as well.  The only case that
is not plain is an added entry `p₁` above `y` whose key is not the one that opened it: then some
entry `w` that was not kept stands in between.  It was refused by a new group, which has a prefix
sealed from the very key `k₀` that opened `p₁`; and from there on `y` was sealed with that key too.
-/

/-- Opening a prefix starts where opening the whole starts. -/
lemma dec_start {p₀ p₁ : Path α β} {k₀ : κ} (hT : T.Coherent) (h₀ : T.Start Prod.snd y p₀ k₀)
    (h₁ : cipher p₁ <+: y) (hlt : p₀.length < p₁.length)
    (hdec : T.Dec sys (cipher p₁) (plain p₁)) :
    T.Start Prod.snd (cipher p₁) p₀ k₀ ∧
      ∃ c, sys.decryptAll k₀ ((cipher p₁).drop p₀.length) = some c ∧ plain p₁ = plain p₀ ++ c := by
  have hpre : cipher p₀ <+: cipher p₁ := by
    refine List.prefix_of_prefix_length_le h₀.isPrefix h₁ ?_
    rw [List.length_map, List.length_map]
    exact hlt.le
  have hstart := h₀.mono h₁ hpre
  obtain ⟨q, k, c, hq, hc, heq⟩ := hdec
  obtain ⟨rfl, rfl⟩ := hq.unique hT side_snd hstart
  exact ⟨hstart, c, hc, heq⟩

/-- If the keys of the prefix start there as well, the old table opens the whole. -/
lemma dec_of_start {p₀ p₁ : Path α β} {k₀ k₁ : κ} {c d : List α} (hT : T.Coherent)
    (h₀ : T.Start Prod.snd y p₀ k₀) (h₁ : cipher p₁ <+: y) (hlt : p₀.length < p₁.length)
    (hc : sys.decryptAll k₀ ((cipher p₁).drop p₀.length) = some c)
    (hplain : plain p₁ = plain p₀ ++ c) (hkey : T.Key sys (plain p₁) k₁)
    (hstart : T.Start Prod.fst (plain p₁) p₀ k₀)
    (hd : sys.decryptAll k₁ (y.drop p₁.length) = some d) : ∃ x, T.Dec sys y x := by
  obtain ⟨q, l, hq, rfl⟩ := hkey
  obtain ⟨rfl, rfl⟩ := hq.unique hT side_fst hstart
  have hdrop : (plain p₁).drop q.length = c := by
    rw [hplain, List.drop_left' (by simp)]
  have hsplit : y.drop q.length = (cipher p₁).drop q.length ++ y.drop p₁.length := by
    obtain ⟨t, rfl⟩ := h₁
    rw [List.drop_append_of_le_length (by simpa using hlt.le), List.drop_left' (by simp)]
  rw [hdrop] at hd
  refine ⟨_, q, l, c ++ d, h₀, ?_, rfl⟩
  rw [hsplit, System.decryptAll_append]
  exact ⟨c, d, hc, hd, rfl⟩

/-- If not, there is an entry that was not kept. -/
lemma exists_between {p₀ p₁ : Path α β} {k₀ : κ} {c : List α} (h₀ : T.Start Prod.snd y p₀ k₀)
    (hplain : plain p₁ = plain p₀ ++ c) (h : ¬T.Start Prod.fst (plain p₁) p₀ k₀) :
    ∃ w, T.Has w ∧ plain w <+: plain p₁ ∧ p₀.length < w.length := by
  by_contra hno
  push Not at hno
  refine h ?_
  cases h₀ with
  | entry hp hx hdeep =>
      exact .entry hp (hplain ▸ List.prefix_append _ _) hno
  | root hroot hnone =>
      refine .root hroot fun w hw hwx => ?_
      have hlen := hno w hw hwx
      have hnil : w = [] := List.length_eq_zero_iff.mp (Nat.le_zero.mp hlen)
      rw [hnil] at hw
      exact hnone [] hw List.nil_prefix

include hI hinv hnew in
/-- The group that refused the entry has a prefix that was sealed from the key that opens. -/
lemma exists_sealed [Nonempty κ] {p₀ p₁ w : Path α β} {k₀ : κ} {c : List α}
    (hlim : Limit sys le T (G ++ N) T') (h₀ : T.Start Prod.snd y p₀ k₀) (h₁ : cipher p₁ <+: y)
    (hp₁ : p₁ ∈ added sys le T (G ++ N)) (hplain : plain p₁ = plain p₀ ++ c) (hw : T.Has w)
    (hwp : plain w <+: plain p₁) (hlt : p₀.length < w.length) :
    ∃ r, r ≠ [] ∧ p₀ ++ r <+: p₁ ∧ Sealed sys I k₀ r := by
  have hplain₀ : plain p₀ <+: plain p₁ := hplain ▸ List.prefix_append _ _
  have hgen₁ := (hinv.traced hnew).genuine_added hI hp₁
  -- the start lies above the entry on both sides
  have hp₀w : p₀ <+: w := by
    cases h₀ with
    | entry hp hx hdeep =>
        exact hinv.coherent.isPrefix side_fst ⟨k₀, hp⟩ hw hplain₀ hwp hlt.le
    | root hroot hnone => exact List.nil_prefix
  -- the entry is not above the ciphertext, so it was not kept
  have hnotle : ¬cipher w <+: cipher p₁ := fun h =>
    absurd (h₀.deepest hw (h.trans h₁)) (Nat.not_le.mpr hlt)
  have hnotkept : ¬Allowed le (G ++ N) (cipher w) := by
    intro hkept
    have hw' : T'.Has w := hlim.has_iff.mpr (Or.inl ⟨hw, hkept⟩)
    have hp₁' : T'.Has p₁ := hlim.has_iff.mpr (Or.inr hp₁)
    have hwp₁ : w <+: p₁ := (hlim.coherent w p₁ hw' hp₁').prefix_of_map side_fst hwp
    exact hnotle (hwp₁.map _)
  have hnotnew : ¬Allowed le N (cipher w) := fun h =>
    hnotkept (allowed_append.mpr ⟨hinv.allowed w hw, h⟩)
  rw [Allowed] at hnotnew
  push Not at hnotnew
  obtain ⟨g, hg, hrefuse⟩ := hnotnew
  have hallowed₁ := (mem_retained.mp (mem_added hp₁).1).2
  obtain ⟨z, hz, hzle⟩ := hallowed₁ g (List.mem_append_right _ hg)
  rcases hnew g hg z hz with rfl | ⟨px, rfl, hseals⟩
  · exact absurd (hI.le_of_prefix _ _ List.nil_prefix) (hrefuse [] hz)
  -- the prefix of that group is a whole number of components of `p₁`
  have hgenx := hseals.genuine hinv.genuine
  have hpx : px <+: p₁ := hI.isPrefix hgenx hgen₁ (hI.prefix_of_le px p₁ hgenx hgen₁ hzle)
  have hnotw : ¬px <+: w := fun h => hrefuse _ hz (hI.le_of_prefix _ _ (h.map _))
  have hp₀p₁ : p₀ <+: p₁ := by
    refine hI.isPrefix (Start.genuine hinv.genuine h₀) hgen₁ ?_
    refine List.prefix_of_prefix_length_le h₀.isPrefix h₁ ?_
    have := hplain₀.length_le
    rwa [List.length_map, List.length_map] at this ⊢
  have hp₀px : p₀ <+: px := by
    refine List.prefix_of_prefix_length_le hp₀p₁ hpx (Nat.le_of_not_lt fun h => hnotw ?_)
    exact (List.prefix_of_prefix_length_le hpx hp₀p₁ h.le).trans hp₀w
  -- so it starts at `p₀`
  obtain ⟨q, r, k, rfl, hq, hr⟩ := hseals
  have hqp₀ : q = p₀ ∧ k = k₀ := by
    have hqpx : q <+: q ++ r := List.prefix_append q r
    refine hq.unique hinv.coherent side_fst ?_
    cases h₀ with
    | entry hp hx hdeep =>
        refine .entry hp (hp₀px.map _) fun v hv hvx => ?_
        have hvq : v.length ≤ q.length := hq.deepest hv hvx
        cases hq with
        | entry hqk hqx hqd =>
            exact hvq.trans (hdeep q ⟨k, hqk⟩ (((hqpx.trans hpx).map _).trans h₁))
        | root hroot hnone => exact absurd hvx (hnone v hv)
    | root hroot hnone =>
        refine .root hroot fun v hv hvx => ?_
        cases hq with
        | entry hqk hqx hqd =>
            exact hnone q ⟨k, hqk⟩ (((hqpx.trans hpx).map _).trans h₁)
        | root hroot' hnone' => exact hnone' v hv hvx
  obtain ⟨rfl, rfl⟩ := hqp₀
  refine ⟨r, ?_, hpx, hr⟩
  rintro rfl
  rw [List.append_nil] at hnotw
  exact hnotw hp₀w

include hI hinv hnew in
/-- From a prefix that was sealed from the key that opens, the whole was sealed with it too. -/
lemma dec_of_sealed [Nonempty κ] {p₀ p₁ r : Path α β} {k₀ : κ} (h₀ : T.Start Prod.snd y p₀ k₀)
    (h₁ : cipher p₁ <+: y) (hgen₁ : Genuine sys I p₁) (hy : y ∈ retained le (G ++ N))
    (hr : r ≠ []) (hpre : p₀ ++ r <+: p₁) (hsealed : Sealed sys I k₀ r) : ∃ x, T.Dec sys y x := by
  obtain ⟨q, s, l, rfl, hgen, hs, hq⟩ := exists_origin hinv hnew hy
  have hwhole : p₀ ++ r <+: q ++ s := by
    refine hI.isPrefix (hgen₁.of_prefix hpre) hgen ((hpre.map _).trans h₁)
  -- the last component of the prefix, and what comes behind it
  obtain ⟨r, a, rfl⟩ : ∃ t a, r = t ++ [a] := ⟨_, _, (List.dropLast_append_getLast hr).symm⟩
  obtain ⟨t, ht⟩ := hwhole
  have ht' : (p₀ ++ r) ++ a :: t = q ++ s := by
    simpa using ht
  have hsealed' : Sealed sys I k₀ r ∧ Sealed sys I (sys.keyAt k₀ (plain r)) [a] :=
    sealed_append.mp hsealed
  by_cases hlen : q.length ≤ (p₀ ++ r).length
  · -- the component was sealed with the key of the prefix, and the rest from there
    obtain ⟨u, hu, hus⟩ : ∃ u, p₀ ++ r = q ++ u ∧ s = u ++ a :: t := by
      have hqpre : q <+: p₀ ++ r :=
        List.prefix_of_prefix_length_le ⟨s, ht'.symm⟩ (List.prefix_append _ (a :: t)) hlen
      obtain ⟨u, hu⟩ := hqpre
      refine ⟨u, hu.symm, ?_⟩
      rw [← hu, List.append_assoc] at ht'
      exact (List.append_cancel_left ht').symm
    rw [hus, sealed_append] at hs
    have hkey := hI.unique _ _ _ _ _ hsealed'.2.1 hs.2.1 hsealed'.2.2.1 hs.2.2.1
    have htail : Sealed sys I k₀ (r ++ a :: t) := by
      refine sealed_append.mpr ⟨hsealed'.1, ?_⟩
      rw [hkey.1]
      exact hs.2
    have hdec := hI.decryptAll_sealed htail (Start.key hinv.keys hinv.rootKey h₀)
    refine ⟨_, p₀, k₀, plain (r ++ a :: t), h₀, ?_, rfl⟩
    rw [← ht', List.append_assoc, cipher, List.map_append, List.drop_left' (by simp)]
    exact hdec
  · -- it was sealed below an entry that is deeper and allowed, so it would still be there
    exfalso
    have hpq : p₀ ++ r <+: q := by
      refine List.prefix_of_prefix_length_le (List.prefix_append _ (a :: t)) ⟨s, ht'.symm⟩ ?_
      omega
    have hp₀q : p₀ <+: q := (List.prefix_append p₀ r).trans hpq
    have hallowed : Allowed le G (cipher q) := by
      cases h₀ with
      | entry hp hx hdeep =>
          exact (hinv.allowed p₀ ⟨k₀, hp⟩).trans hI.le_trans (hI.le_of_prefix _ _ (hp₀q.map _))
      | root hroot hnone =>
          have hG : G = [] := hinv.root_iff.mp (by rw [hroot]; exact Option.some_ne_none _)
          rw [hG]
          nofun
    rcases hq with rfl | hq
    · exact hlen (Nat.zero_le _)
    · have hdeep := h₀.deepest (hq hallowed) (by simp)
      have := hpq.length_le
      rw [List.length_append] at hlen this
      omega

include hI hinv in
/-- Where the limited table starts no deeper than the old one, both start at the same entry. -/
lemma start_eq {p₀ p₁ : Path α β} {k₀ k₁ : κ} (hlim : Limit sys le T (G ++ N) T')
    (h₀ : T.Start Prod.snd y p₀ k₀) (hp₁ : T'.entry p₁ = some k₁) (h₁ : cipher p₁ <+: y)
    (hdeep₁ : ∀ q, T'.Has q → cipher q <+: y → q.length ≤ p₁.length)
    (hlen : p₁.length ≤ p₀.length) : p₁ = p₀ ∧ k₁ = k₀ := by
  cases h₀ with
  | entry hp h₀ hdeep =>
      have hpre : cipher p₁ <+: cipher p₀ := by
        refine List.prefix_of_prefix_length_le h₁ h₀ ?_
        rwa [List.length_map, List.length_map]
      have hhas₀ : T'.Has p₀ := hlim.has_iff.mpr (Or.inl ⟨⟨k₀, hp⟩,
        (hlim.allowed ⟨k₁, hp₁⟩).trans hI.le_trans (hI.le_of_prefix _ _ hpre)⟩)
      have heq : p₁ = p₀ :=
        (hlim.coherent.isPrefix side_snd ⟨k₁, hp₁⟩ hhas₀ h₁ h₀ hlen).eq_of_length_le
          (hdeep₁ p₀ hhas₀ h₀)
      subst heq
      exact ⟨rfl, (hlim.key hp₁).unique hinv.coherent (key_self hp)⟩
  | root hroot hnone =>
      have hnil : p₁ = [] := List.length_eq_zero_iff.mp (Nat.le_zero.mp hlen)
      subst hnil
      refine ⟨rfl, (hlim.key hp₁).unique hinv.coherent ⟨[], k₀, .root hroot ?_, rfl⟩⟩
      intro v hv hvx
      rw [List.map_eq_nil_iff.mp (List.prefix_nil.mp hvx)] at hv
      exact hnone [] hv List.nil_prefix

include hI hinv hnew in
/-- **What the limited table opens, the old table opens.** -/
theorem Limit.dec [Nonempty κ] (hlim : Limit sys le T (G ++ N) T')
    (hy : y ∈ retained le (G ++ N)) (h : T'.Dec sys y x) : ∃ x, T.Dec sys y x := by
  obtain ⟨p₁, k₁, d, hstart₁, hd, rfl⟩ := h
  cases hstart₁ with
  | root hroot hnone =>
      rw [hlim.root_eq] at hroot
      cases hroot
  | entry hp₁ h₁ hdeep₁ =>
      have hhas₁ : T'.Has p₁ := ⟨k₁, hp₁⟩
      -- the old table has a start above the prefix
      obtain ⟨p₀, k₀, h₀⟩ := hlim.exists_old_start hhas₁ h₁
      by_cases hlen : p₁.length ≤ p₀.length
      · -- the same entry, with the same key
        obtain ⟨rfl, rfl⟩ := start_eq hI hinv hlim h₀ hp₁ h₁ hdeep₁ hlen
        exact ⟨_, p₁, k₁, d, h₀, hd, rfl⟩
      · rw [Nat.not_le] at hlen
        have hadded : p₁ ∈ added sys le T (G ++ N) := by
          rcases hlim.has_iff.mp hhas₁ with ⟨hp, _⟩ | hp
          · exact absurd (h₀.deepest hp h₁) (Nat.not_le.mpr hlen)
          · exact hp
        obtain ⟨_, c, hc, hplain⟩ := dec_start hinv.coherent h₀ h₁ hlen (mem_added hadded).2
        by_cases hstart : T.Start Prod.fst (plain p₁) p₀ k₀
        · exact dec_of_start hinv.coherent h₀ h₁ hlen hc hplain (hlim.key hp₁) hstart hd
        · obtain ⟨w, hw, hwp, hlt⟩ := exists_between h₀ hplain hstart
          obtain ⟨r, hr, hpre, hsealed⟩ :=
            exists_sealed hI hinv hnew hlim h₀ h₁ hadded hplain hw hwp hlt
          exact dec_of_sealed hI hinv hnew h₀ h₁ ((hinv.traced hnew).genuine_added hI hadded) hy hr hpre
            hsealed

include hI hinv hnew in
/-- The limited table adds the same paths again. -/
lemma Limit.added_eq [Nonempty κ] (hlim : Limit sys le T (G ++ N) T') :
    added sys le T' (G ++ N) = added sys le T (G ++ N) := by
  refine greedy_filterMap (fun y hy p hp => ?_) fun y hy p hp hadded => ?_
  · obtain ⟨hcipher, hdec'⟩ := candidate_spec hp
    obtain ⟨x, hdec⟩ := hlim.dec hI hinv hnew hy hdec'
    obtain ⟨q, r, k, rfl, hgen, _, _⟩ := exists_origin hinv hnew hy
    have htr := (hinv.traced hnew).limit hI hlim
    have hplain' : plain p = plain (q ++ r) :=
      dec_genuine hI htr.genuine htr.keys htr.rootKey hgen hdec'
    rw [dec_genuine hI hinv.genuine hinv.keys hinv.rootKey hgen hdec, ← hplain'] at hdec
    exact (candidate_eq hinv.coherent).mpr ⟨hcipher, hdec⟩
  · obtain ⟨rfl, _⟩ := candidate_spec hp
    obtain ⟨k, hk⟩ := hlim.has_iff.mpr (Or.inr hadded)
    exact (candidate_eq hlim.coherent).mpr ⟨rfl, dec_self hk⟩

include hI hinv hnew in
/-- **Limiting again changes nothing.** -/
theorem Limit.idem [Nonempty κ] (hlim : Limit sys le T (G ++ N) T') :
    Limit sys le T' (G ++ N) T' :=
  hlim.idem_of_added_eq (hlim.added_eq hI hinv hnew)

include hI hinv hnew in
/-- **A share keeps the invariant.** -/
theorem Inv.limit [Nonempty κ] (hlim : Limit sys le T (G ++ N) T') (hne : G ++ N ≠ []) :
    Inv sys I K le T' (G ++ N) where
  coherent := hlim.coherent
  genuine := ((hinv.traced hnew).limit hI hlim).genuine
  keys := ((hinv.traced hnew).limit hI hlim).keys
  rootKey := by
    rw [hlim.root_eq]
    nofun
  root_iff := ⟨fun h => absurd hlim.root_eq h, fun h => absurd h hne⟩
  allowed p hp := hlim.allowed hp
  origin g hg y hy := by
    obtain ⟨q, r, k, heq, hgen, hr, hq⟩ := origin_append hinv hnew hg hy
    refine ⟨q, r, k, heq, hgen, hr, hq.imp_right fun hq hallowed => ?_⟩
    exact hlim.has_iff.mpr (Or.inl ⟨hq (allowed_append.mp hallowed).1, hallowed⟩)

end Limited

open Classical in
/-- The table with one more entry. -/
noncomputable def insert (T : Table α β κ) (p : Path α β) (k : κ) : Table α β κ where
  root := T.root
  entry q := if q = p then some k else T.entry q

lemma has_insert : (insert T p k).Has q ↔ q = p ∨ T.Has q := by
  rw [Table.Has, insert]
  by_cases h : q = p
  · simp [h]
  · simp [h, Table.Has]

/-- **What was sealed in the run stays so under an override** of a path that was. -/
theorem Traced.insert (htr : Traced sys I K T G) (hp : Genuine sys I p) (hk : K k)
    (hagree : ∀ q, T.Has q → Agree p q) : Traced sys I K (insert T p k) G where
  coherent q r hq hr := by
    rcases has_insert.mp hq with rfl | hq₀
    · rcases has_insert.mp hr with rfl | hr₀
      · exact Agree.refl _
      · exact hagree r hr₀
    · rcases has_insert.mp hr with rfl | hr₀
      · exact (hagree q hq₀).symm
      · exact htr.coherent q r hq₀ hr₀
  genuine q hq := by
    rcases has_insert.mp hq with rfl | hq
    · exact hp
    · exact htr.genuine q hq
  keys q l hl := by
    rw [Sharing.insert] at hl
    dsimp only at hl
    split_ifs at hl with h
    · cases hl
      exact hk
    · exact htr.keys q l hl
  rootKey := htr.rootKey
  groups := htr.groups

/-- **An override keeps the invariant.** -/
theorem Inv.insert [Nonempty κ] (hI : Ideal sys I K le) (hinv : Inv sys I K le T G)
    (hp : Seals sys I T p) (hk : K k) (hagree : ∀ q, T.Has q → Agree p q) :
    Inv sys I K le (insert T p k) G := by
  have htr := (hinv.traced (N := []) nofun).insert (hp.genuine hinv.genuine) hk hagree
  refine ⟨htr.coherent, htr.genuine, htr.keys, hinv.rootKey, hinv.root_iff, fun q hq => ?_,
    fun g hg y hy => ?_⟩
  · rcases has_insert.mp hq with rfl | hq
    · obtain ⟨a, b, l, rfl, ha, _⟩ := hp
      cases ha with
      | entry hal hx hdeep =>
          refine (hinv.allowed a ⟨l, hal⟩).trans hI.le_trans (hI.le_of_prefix _ _ ?_)
          exact (List.prefix_append a b).map _
      | root hroot hnone =>
          rw [hinv.root_iff.mp (by rw [hroot]; exact Option.some_ne_none _)]
          nofun
    · exact hinv.allowed q hq
  · obtain ⟨a, b, l, heq, hgen, hb, ha⟩ := hinv.origin g hg y hy
    exact ⟨a, b, l, heq, hgen, hb, ha.imp_right fun ha h => has_insert.mpr (Or.inr (ha h))⟩

end Run

end Storj.Sharing
