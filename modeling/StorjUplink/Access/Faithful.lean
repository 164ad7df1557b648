import StorjUplink.Access.Sharing

/-!
# Shares that seal as before

An entry of a table may disagree with what the table itself seals for the paths above it: this
happens when a key is replaced above an entry, and the components in between change.  A table is
`Consistent` if no entry does and if every prefix of its groups has an entry.  Limiting such a table
gives one that seals every path as before, if at all (`Limit.enc`), and that seals every path below
a prefix that was asked for (`Limit.exists_start`).

A user expects of a share that objects keep their names: what the share seals for a path is what
the grant sealed.  For one table this is `Limit.alike`, and its two halves need different things.
That the limited table does not seal a path in another way needs only that the entries are
consistent with the table.  That it seals the path at all needs that the prefix which was asked for
is among its entries, and this is where a disagreement between an entry and the table would lose
it.

Consistency is kept by shares.  An override breaks it if an entry lies two or more components below
the new key with no entry directly below the key on the way, and `Screened` says that this is not
so.
-/

namespace Storj.Sharing

open KeyTree

variable {α β κ : Type*} (sys : System α β κ) (I : κ → α → Prop) (K : κ → Prop)
  (le : List β → List β → Prop)

/-- **The entries are what the table seals**, and every retained prefix has one. -/
structure Consistent (T : Table α β κ) (G : List (List (List β))) : Prop where
  enc : ∀ p, T.Has p → ∀ i y, T.Enc sys ((plain p).take i) y → y = (cipher p).take i
  covered : ∀ y ∈ retained le G, ∃ p, cipher p = y ∧ T.Has p

variable {sys I K le} {T T' : Table α β κ} {G N : List (List (List β))} {p q : Path α β} {k : κ}
  {x : List α} {y : List β}

/-- Sealing the beginning of a path, from its start on, gives the beginning. -/
lemma enc_take_of_le {i : ℕ} {c : List β} (hp : T.Start Prod.fst x p k)
    (hc : sys.encryptAll k (x.drop p.length) = some c) (hi : p.length ≤ i) :
    ∃ d, T.Start Prod.fst (x.take i) p k ∧
      sys.encryptAll k ((x.take i).drop p.length) = some d ∧
      cipher p ++ d = (cipher p ++ c).take i := by
  have hpx : plain p <+: x.take i := by
    refine List.prefix_of_prefix_length_le hp.isPrefix (List.take_prefix _ _) ?_
    have := hp.length_le
    rw [List.length_map, List.length_take]
    omega
  have hlen : p.length ≤ (x.take i).length := by
    have := hpx.length_le
    rwa [List.length_map] at this
  have hsplit : x.drop p.length = (x.take i).drop p.length ++ x.drop i := by
    conv_lhs => rw [← List.take_append_drop i x, List.drop_append_of_le_length hlen]
  rw [hsplit, System.encryptAll_append] at hc
  obtain ⟨d, e, hd, he, rfl⟩ := hc
  refine ⟨d, hp.mono (List.take_prefix _ _) hpx, hd, ?_⟩
  have hd' : (cipher p ++ d).length = (x.take i).length := by
    rw [List.length_append, List.length_map, System.length_encryptAll hd, List.length_drop]
    omega
  have he' := System.length_encryptAll he
  rw [List.length_take] at hd'
  rw [List.length_drop] at he'
  rw [← List.append_assoc]
  by_cases hix : i ≤ x.length
  · rw [List.take_left' (by omega)]
  · rw [List.length_eq_zero_iff.mp (by omega : e.length = 0), List.append_nil,
      List.take_of_length_le (by omega)]

lemma take_of_map_above {δ : Type*} {f : α × β → δ} {x : List δ} {i : ℕ} (h : p.map f <+: x)
    (hi : i ≤ p.length) : x.take i = (p.take i).map f := by
  obtain ⟨t, rfl⟩ := h
  rw [List.take_append_of_le_length (by simpa using hi), List.map_take]

/-- A start that is not the root is an entry. -/
lemma Start.has {δ : Type*} {f : α × β → δ} {x : List δ} (h : T.Start f x p k)
    (hp : 0 < p.length) : T.Has p := by
  cases h with
  | entry hpk _ _ => exact ⟨k, hpk⟩
  | root _ _ => exact absurd hp (Nat.lt_irrefl 0)

/-- In a consistent table the ciphertext of the beginning of a path is the beginning of its
ciphertext. -/
lemma Consistent.enc_take (hcons : Consistent sys le T G) (hT : T.Coherent) {i : ℕ} {z : List β}
    (h : T.Enc sys x y) (hz : T.Enc sys (x.take i) z) : z = y.take i := by
  obtain ⟨p, k, c, hp, hc, rfl⟩ := h
  by_cases hi : p.length ≤ i
  · obtain ⟨d, hd, hseal, heq⟩ := enc_take_of_le hp hc hi
    rw [← heq]
    exact hz.unique hT ⟨p, k, d, hd, hseal, rfl⟩
  · -- the beginning ends above the entry
    have hhas : T.Has p := Start.has hp (by omega)
    obtain ⟨t, rfl⟩ := hp.isPrefix
    rw [List.take_append_of_le_length (by simp; omega)] at hz
    rw [hcons.enc p hhas i z hz, List.take_append_of_le_length (by simp; omega)]

/-- **Paths that a consistent table seals agree.** -/
lemma Consistent.agree (hI : Ideal sys I K le) (hcons : Consistent sys le T G) (hT : T.Coherent)
    (hgp : Genuine sys I p) (hgq : Genuine sys I q) (hp : T.Enc sys (plain p) (cipher p))
    (hq : T.Enc sys (plain q) (cipher q)) : Agree p q := by
  refine Agree.of_take fun i hip hiq => ⟨fun h => ?_, fun h => ?_⟩
  · obtain ⟨a, ka, c, ha, hc, hpc⟩ := hp
    obtain ⟨b, kb, d, hb, hd, hqd⟩ := hq
    by_cases hia : a.length ≤ i
    · obtain ⟨e, he, hseal, heq⟩ := enc_take_of_le ha hc hia
      rw [hpc, ← heq]
      exact hcons.enc_take hT ⟨b, kb, d, hb, hd, hqd⟩ ⟨a, ka, e, h ▸ he, h ▸ hseal, rfl⟩
    · by_cases hib : b.length ≤ i
      · obtain ⟨e, he, hseal, heq⟩ := enc_take_of_le hb hd hib
        rw [hqd, ← heq]
        exact (hcons.enc_take hT ⟨a, ka, c, ha, hc, hpc⟩ ⟨b, kb, e, h ▸ he, h ▸ hseal, rfl⟩).symm
      · -- both begin with entries, which agree
        have hab := hT a b (Start.has ha (by omega)) (Start.has hb (by omega))
        have hplain : plain (a.take i) = plain (b.take i) :=
          (take_of_map_above ha.isPrefix (by omega)).symm.trans
            (h.trans (take_of_map_above hb.isPrefix (by omega)))
        have htake : a.take i = b.take i := by
          have hagree := (hab.of_prefix_left (List.take_prefix i a)).of_prefix_right
            (List.take_prefix i b)
          refine (hagree.prefix_of_map side_fst ⟨[], (List.append_nil _).trans hplain⟩).eq_of_length
            ?_
          rw [List.length_take, List.length_take]
          omega
        have hpa : cipher a <+: cipher p := hpc ▸ List.prefix_append _ _
        have hqb : cipher b <+: cipher q := hqd ▸ List.prefix_append _ _
        rw [take_of_map_above hpa (by omega), take_of_map_above hqb (by omega), htake]
  · have hpre : p.take i = q.take i := by
      refine hI.eq_of_cipher (hgp.of_prefix (List.take_prefix _ _))
        (hgq.of_prefix (List.take_prefix _ _)) ?_
      rw [cipher, cipher, List.map_take, List.map_take]
      exact h
    rw [plain, plain, ← List.map_take, ← List.map_take, hpre]

section Limited

variable (hI : Ideal sys I K le) (hinv : Inv sys I K le T G) (hcons : Consistent sys le T G)
  (hnew : ∀ g ∈ N, ∀ y ∈ g, Fresh sys I T y) (hlim : Limit sys le T (G ++ N) T')

/-- What has a key at the root is sealed there. -/
lemma enc_nil (h : T.Key sys [] k) : T.Enc sys [] [] := by
  obtain ⟨p, l, hp, _⟩ := h
  have hnil : p = [] := List.length_eq_zero_iff.mp (Nat.le_zero.mp hp.length_le)
  subst hnil
  exact ⟨[], l, [], hp, rfl, rfl⟩

include hI hinv hcons hnew in
/-- The prefixes that are retained and can be opened are what the table seals. -/
lemma Consistent.enc_of_dec (hy : cipher p ∈ retained le (G ++ N)) (hgen : Genuine sys I p)
    (hdec : T.Dec sys (cipher p) (plain p)) : T.Enc sys (plain p) (cipher p) := by
  obtain ⟨⟨g, hg, hyg⟩, hallowed⟩ := mem_retained.mp hy
  rcases List.mem_append.mp hg with hg | hg
  · -- an old prefix has an entry
    have hold := mem_retained.mpr ⟨⟨g, hg, hyg⟩, (allowed_append.mp hallowed).1⟩
    obtain ⟨q, hq, l, hl⟩ := hcons.covered _ hold
    rw [← hI.eq_of_cipher (hinv.genuine q ⟨l, hl⟩) hgen hq]
    exact enc_self hl
  · rcases hnew g hg _ hyg with hnil | ⟨q, hq, hseals⟩
    · have hp : p = [] := List.map_eq_nil_iff.mp hnil
      subst hp
      obtain ⟨k, hk⟩ := exists_key hdec
      exact enc_nil hk
    · rw [hI.eq_of_cipher hgen (hseals.genuine hinv.genuine) hq]
      exact hseals.enc

include hI hinv hcons hnew hlim in
/-- The old table seals the entries of the limited one. -/
lemma Limit.enc_entry [Nonempty κ] (hp : T'.Has p) : T.Enc sys (plain p) (cipher p) := by
  rcases hlim.has_iff.mp hp with ⟨⟨k, hk⟩, _⟩ | hadded
  · exact enc_self hk
  · exact hcons.enc_of_dec hI hinv hnew (mem_added hadded).1 ((hinv.traced hnew).genuine_added hI hadded)
      (mem_added hadded).2

include hI hinv hcons hnew hlim in
/-- **Where the limited table starts, the old table starts above**, and seals up to there. -/
lemma Limit.start [Nonempty κ] {p₁ : Path α β} {k₁ : κ} (h₁ : T'.Start Prod.fst x p₁ k₁) :
    ∃ p₀ k₀ c, T.Start Prod.fst x p₀ k₀ ∧ p₀.length ≤ p₁.length ∧
      sys.encryptAll k₀ ((plain p₁).drop p₀.length) = some c ∧ cipher p₁ = cipher p₀ ++ c ∧
      k₁ = sys.keyAt k₀ ((plain p₁).drop p₀.length) := by
  cases h₁ with
  | root hroot hnone =>
      rw [hlim.root_eq] at hroot
      cases hroot
  | entry hp₁ hx hdeep =>
      have henc := hlim.enc_entry hI hinv hcons hnew ⟨k₁, hp₁⟩
      obtain ⟨p₀, k₀, c, h₀, hc, hcipher⟩ := henc
      obtain ⟨q, l, hq, hkey⟩ := hlim.key hp₁
      obtain ⟨rfl, rfl⟩ := hq.unique hinv.coherent side_fst h₀
      -- an entry below would have been kept
      have hbelow : ∀ w, T.Has w → plain w <+: x → plain w <+: plain p₁ := by
        intro w hw hwx
        by_cases hlen : w.length ≤ p₁.length
        · exact List.prefix_of_prefix_length_le hwx hx (by simpa using hlen)
        · exfalso
          have hp₁w : plain p₁ <+: plain w :=
            List.prefix_of_prefix_length_le hx hwx (by simp; omega)
          have htake : (plain w).take p₁.length = plain p₁ := by
            obtain ⟨t, ht⟩ := hp₁w
            rw [← ht, List.take_left' (by simp)]
          have hcw := hcons.enc w hw p₁.length (cipher p₁) (by
            rw [htake]
            exact ⟨q, l, c, h₀, hc, hcipher⟩)
          have hpre : cipher p₁ <+: cipher w := hcw ▸ List.take_prefix _ _
          have hw' : T'.Has w := hlim.has_iff.mpr (Or.inl ⟨hw,
            (hlim.allowed ⟨k₁, hp₁⟩).trans hI.le_trans (hI.le_of_prefix _ _ hpre)⟩)
          exact hlen (hdeep w hw' hwx)
      refine ⟨q, l, c, ?_, ?_, hc, hcipher, hkey⟩
      · cases h₀ with
        | entry hqk hqx hqdeep =>
            exact .entry hqk (hqx.trans hx) fun w hw hwx => hqdeep w hw (hbelow w hw hwx)
        | root hroot hnone =>
            exact .root hroot fun w hw hwx => hnone w hw (hbelow w hw hwx)
      · have := h₀.length_le
        rwa [List.length_map] at this

/-- What is left of a path behind the old start, cut at the new one. -/
lemma drop_split {p₀ p₁ : Path α β} (hx : plain p₁ <+: x) (hlen : p₀.length ≤ p₁.length) :
    x.drop p₀.length = (plain p₁).drop p₀.length ++ x.drop p₁.length := by
  obtain ⟨t, rfl⟩ := hx
  rw [List.drop_append_of_le_length (by simpa using hlen), List.drop_left' (by simp)]

include hI hinv hcons hnew hlim in
/-- **The limited table seals as the old one.** -/
theorem Limit.enc [Nonempty κ] (h : T'.Enc sys x y) : T.Enc sys x y := by
  obtain ⟨p₁, k₁, d, h₁, hd, rfl⟩ := h
  obtain ⟨p₀, k₀, c, h₀, hlen, hc, hcipher, rfl⟩ := hlim.start hI hinv hcons hnew h₁
  refine ⟨p₀, k₀, c ++ d, h₀, ?_, by rw [hcipher, List.append_assoc]⟩
  rw [drop_split h₁.isPrefix hlen, System.encryptAll_append]
  exact ⟨c, d, hc, hd, rfl⟩

include hI hinv hcons hnew hlim in
/-- What the old table seals, the limited one seals if it has a start. -/
theorem Limit.enc_of_start [Nonempty κ] {p₁ : Path α β} {k₁ : κ}
    (h₁ : T'.Start Prod.fst x p₁ k₁) (h : T.Enc sys x y) : T'.Enc sys x y := by
  obtain ⟨p₀, k₀, c, h₀, hlen, hc, hcipher, rfl⟩ := hlim.start hI hinv hcons hnew h₁
  obtain ⟨q, l, e, hq, he, rfl⟩ := h
  obtain ⟨rfl, rfl⟩ := hq.unique hinv.coherent side_fst h₀
  rw [drop_split h₁.isPrefix hlen, System.encryptAll_append] at he
  obtain ⟨c', d, hc', hd, rfl⟩ := he
  rw [hc, Option.some.injEq] at hc'
  subst hc'
  exact ⟨p₁, _, d, h₁, hd, by rw [hcipher, List.append_assoc]⟩

include hI hinv hcons hnew hlim in
/-- **The limited table has the keys of the old one.** -/
theorem Limit.key_of [Nonempty κ] (h : T'.Key sys x k) : T.Key sys x k := by
  obtain ⟨p₁, k₁, h₁, rfl⟩ := h
  obtain ⟨p₀, k₀, c, h₀, hlen, _, _, rfl⟩ := hlim.start hI hinv hcons hnew h₁
  exact ⟨p₀, k₀, h₀, by rw [drop_split h₁.isPrefix hlen, System.keyAt_append]⟩

include hI hinv hcons hnew in
/-- Nothing that is added disagrees. -/
lemma Consistent.added_eq [Nonempty κ] :
    added sys le T (G ++ N) = (retained le (G ++ N)).filterMap (candidate sys T) := by
  have henc : ∀ p ∈ (retained le (G ++ N)).filterMap (candidate sys T),
      Genuine sys I p ∧ T.Enc sys (plain p) (cipher p) := by
    intro p hp
    obtain ⟨y, hy, hcand⟩ := List.mem_filterMap.mp hp
    obtain ⟨rfl, hdec⟩ := candidate_spec hcand
    obtain ⟨q, r, k, hqr, hgen, _, _⟩ := exists_origin hinv hnew hy
    have hpq : p = q ++ r := by
      rw [hqr] at hdec
      exact path_ext (dec_genuine hI hinv.genuine hinv.keys hinv.rootKey hgen hdec) hqr
    rw [hpq] at hy hdec ⊢
    exact ⟨hgen, hcons.enc_of_dec hI hinv hnew hy hgen hdec⟩
  refine greedy_of_agree fun p hp q hq => ?_
  rw [List.nil_append] at hp hq
  exact hcons.agree hI hinv.coherent (henc p hp).1 (henc q hq).1 (henc p hp).2 (henc q hq).2

include hI hinv hcons hnew hlim in
/-- **A retained prefix that the table opens has an entry in the limited one.** -/
lemma Limit.has_of_dec [Nonempty κ] (hy : cipher p ∈ retained le (G ++ N))
    (hdec : T.Dec sys (cipher p) (plain p)) : T'.Has p := by
  refine hlim.has_iff.mpr (Or.inr ?_)
  rw [hcons.added_eq hI hinv hnew]
  exact List.mem_filterMap.mpr ⟨cipher p, hy, (candidate_eq hinv.coherent).mpr ⟨rfl, hdec⟩⟩

end Limited

/-- Below the start of a table the groups allow everything. -/
lemma Inv.allowed_of_start (hI : Ideal sys I K le) (hinv : Inv sys I K le T G)
    (h : T.Start Prod.fst x p k) (hy : cipher p <+: y) : Allowed le G y := by
  cases h with
  | entry hp _ _ => exact (hinv.allowed p ⟨k, hp⟩).trans hI.le_trans (hI.le_of_prefix _ _ hy)
  | root hroot _ =>
      rw [hinv.root_iff.mp (by rw [hroot]; exact Option.some_ne_none _)]
      nofun

/-- A table with a root key opens the root. -/
lemma dec_nil (h : T.root = some k) :
    T.Dec sys (cipher ([] : Path α β)) (plain ([] : Path α β)) := by
  obtain ⟨p, l, hp⟩ := Table.exists_start_of_root (T := T) (f := Prod.snd) (x := []) h
  have hnil : p = [] := List.length_eq_zero_iff.mp (Nat.le_zero.mp hp.length_le)
  subst hnil
  exact ⟨[], l, [], hp, rfl, rfl⟩

section Asked

variable {g : List (List β)} {z : List β} (hI : Ideal sys I K le) (hinv : Inv sys I K le T G)
  (hcons : Consistent sys le T G) (hnew : ∀ h ∈ [g], ∀ y ∈ h, Fresh sys I T y)
  (hlim : Limit sys le T (G ++ [g]) T')

lemma allowed_singleton (hz : z ∈ g) (h : le z y) : Allowed le [g] y := by
  intro h' hh
  rw [List.mem_singleton.mp hh]
  exact ⟨z, hz, h⟩

include hI hinv hcons hnew hlim in
/-- **The limited table has a start for every path below a prefix that was asked for.** -/
theorem Limit.exists_start [Nonempty κ] (hz : z ∈ g)
    (hx : z = [] ∨ ∃ q, z = cipher q ∧ Seals sys I T q ∧ plain q <+: x)
    (h₀ : T.Start Prod.fst x p k) : ∃ p₁ k₁, T'.Start Prod.fst x p₁ k₁ := by
  have hkept : 0 < p.length ∨ T.Has p → le z (cipher p) → ∃ p₁ k₁, T'.Start Prod.fst x p₁ k₁ := by
    intro hp hle
    have hhas : T.Has p := hp.elim (Start.has h₀) id
    have hhas' : T'.Has p := hlim.has_iff.mpr (Or.inl ⟨hhas,
      allowed_append.mpr ⟨hinv.allowed p hhas, allowed_singleton hz hle⟩⟩)
    exact Table.exists_start hhas' h₀.isPrefix
  have hwhole : z = [] → ∃ p₁ k₁, T'.Start Prod.fst x p₁ k₁ := by
    rintro rfl
    have hle : ∀ y, le [] y := fun y => hI.le_of_prefix _ _ List.nil_prefix
    cases h₀ with
    | entry hp _ _ => exact hkept (Or.inr ⟨k, hp⟩) (hle _)
    | root hroot hnone =>
        -- the root key becomes an entry of its own
        have hallowed : Allowed le (G ++ [g]) [] :=
          allowed_append.mpr ⟨hinv.allowed_of_start hI (.root hroot hnone) List.nil_prefix,
            allowed_singleton hz (hle [])⟩
        have hret : cipher ([] : Path α β) ∈ retained le (G ++ [g]) :=
          mem_retained.mpr ⟨⟨g, by simp, hz⟩, hallowed⟩
        exact Table.exists_start (hlim.has_of_dec hI hinv hcons hnew hret (dec_nil hroot))
          List.nil_prefix
  rcases hx with hnil | ⟨q, rfl, hseals, hqx⟩
  · exact hwhole hnil
  · rcases Nat.eq_zero_or_pos q.length with hq | hq
    · exact hwhole (by rw [List.length_eq_zero_iff.mp hq]; rfl)
    · by_cases hlen : q.length ≤ p.length
      · -- an entry at or below the prefix is kept
        have hqp : plain q <+: plain p :=
          List.prefix_of_prefix_length_le hqx h₀.isPrefix (by simpa using hlen)
        have htake : (plain p).take q.length = plain q := by
          obtain ⟨t, ht⟩ := hqp
          rw [← ht, List.take_left' (by simp)]
        have hcq := hcons.enc p (Start.has h₀ (by omega)) q.length (cipher q)
          (by rw [htake]; exact hseals.enc)
        exact hkept (Or.inl (by omega)) (hI.le_of_prefix _ _ (hcq ▸ List.take_prefix _ _))
      · -- the prefix itself gets an entry
        have hpq : plain p <+: plain q :=
          List.prefix_of_prefix_length_le h₀.isPrefix hqx (by simp; omega)
        have hstart := h₀.mono hqx hpq
        have hcipher : cipher p <+: cipher q := by
          obtain ⟨a, r, l, rfl, ha, _⟩ := hseals
          obtain ⟨rfl, _⟩ := ha.unique hinv.coherent side_fst hstart
          exact (List.prefix_append a r).map _
        have hret : cipher q ∈ retained le (G ++ [g]) := by
          refine mem_retained.mpr ⟨⟨g, by simp, hz⟩, allowed_append.mpr ⟨?_, ?_⟩⟩
          · exact hinv.allowed_of_start hI h₀ hcipher
          · exact allowed_singleton hz (hI.le_of_prefix _ _ (List.prefix_refl _))
        have hhas := hlim.has_of_dec hI hinv hcons hnew hret (hseals.dec hI hinv.genuine hinv.keys hinv.rootKey)
        exact Table.exists_start hhas hqx

include hI hinv hcons hnew hlim in
/-- **Below a prefix that was asked for nothing changes**: the limited table seals every path and
gives it its key as the old one. -/
theorem Limit.alike [Nonempty κ] (hz : z ∈ g)
    (hx : z = [] ∨ ∃ q, z = cipher q ∧ Seals sys I T q ∧ plain q <+: x) :
    (∀ y, T'.Enc sys x y ↔ T.Enc sys x y) ∧ ∀ k, T'.Key sys x k ↔ T.Key sys x k := by
  have hstart : ∀ p k, T.Start Prod.fst x p k → ∃ p₁ k₁, T'.Start Prod.fst x p₁ k₁ :=
    fun p k h₀ => hlim.exists_start hI hinv hcons hnew hz hx h₀
  refine ⟨fun y => ⟨hlim.enc hI hinv hcons hnew, fun h => ?_⟩,
    fun k => ⟨hlim.key_of hI hinv hcons hnew, fun h => ?_⟩⟩
  · obtain ⟨p, l, c, hp, _, _⟩ := id h
    obtain ⟨p₁, k₁, h₁⟩ := hstart p l hp
    exact hlim.enc_of_start hI hinv hcons hnew h₁ h
  · obtain ⟨p, l, hp, _⟩ := id h
    obtain ⟨p₁, k₁, h₁⟩ := hstart p l hp
    have hnew' : T'.Key sys x (sys.keyAt k₁ (x.drop p₁.length)) := ⟨p₁, k₁, h₁, rfl⟩
    rw [h.unique hinv.coherent (hlim.key_of hI hinv hcons hnew hnew')]
    exact hnew'

end Asked

section Preserved

variable (hI : Ideal sys I K le) (hinv : Inv sys I K le T G) (hcons : Consistent sys le T G)

include hI hinv hcons in
/-- **A share keeps the table consistent.** -/
theorem Consistent.limit [Nonempty κ] (hnew : ∀ g ∈ N, ∀ y ∈ g, Fresh sys I T y)
    (hlim : Limit sys le T (G ++ N) T') : Consistent sys le T' (G ++ N) where
  enc p hp i y hy := by
    have henc := hlim.enc_entry hI hinv hcons hnew hp
    exact hcons.enc_take hinv.coherent henc (hlim.enc hI hinv hcons hnew hy)
  covered y hy := by
    suffices hdec : ∃ p, cipher p = y ∧ T.Dec sys y (plain p) by
      obtain ⟨p, rfl, hp⟩ := hdec
      exact ⟨p, rfl, hlim.has_of_dec hI hinv hcons hnew hy hp⟩
    obtain ⟨⟨g, hg, hyg⟩, hallowed⟩ := mem_retained.mp hy
    have hold : ∀ h ∈ G, y ∈ h → ∃ p, cipher p = y ∧ T.Dec sys y (plain p) := by
      intro h hh hyh
      have hret := mem_retained.mpr ⟨⟨h, hh, hyh⟩, (allowed_append.mp hallowed).1⟩
      obtain ⟨p, rfl, l, hl⟩ := hcons.covered _ hret
      exact ⟨p, rfl, dec_self hl⟩
    rcases List.mem_append.mp hg with hg | hg
    · exact hold g hg hyg
    · rcases hnew g hg y hyg with rfl | ⟨p, rfl, hseals⟩
      · cases hG : G with
        | nil =>
            -- nothing was shared yet, so there is a root key
            obtain ⟨k, hk⟩ := Option.ne_none_iff_exists'.mp (hinv.root_iff.mpr hG)
            exact ⟨[], rfl, dec_nil hk⟩
        | cons h G' =>
            -- the whole tree was shared before
            have hh : h ∈ G := by simp [hG]
            obtain ⟨z, hz, hle⟩ := (allowed_append.mp hallowed).1 h hh
            obtain ⟨q, r, l, rfl, hgen, _, _⟩ := hinv.origin h hh z hz
            have hnil := hI.prefix_of_le (q ++ r) [] hgen nofun hle
            exact hold h hh (List.prefix_nil.mp hnil ▸ hz)
      · exact ⟨p, rfl, hseals.dec hI hinv.genuine hinv.keys hinv.rootKey⟩

/-- A new key above entries changes no ciphertext if those two or more components below it pass
through entries directly below it. -/
def Screened (T : Table α β κ) (x : List α) : Prop :=
  ∀ q, T.Has q → x <+: plain q → x.length + 2 ≤ q.length →
    ∃ r, T.Has r ∧ plain r = (plain q).take (x.length + 1)

/-- Paths start at the new key or where they started. -/
lemma start_insert {l : κ} (h : (Sharing.insert T p k).Start Prod.fst x q l) :
    (q = p ∧ plain p <+: x) ∨ T.Start Prod.fst x q l := by
  have hmono : ∀ w, T.Has w → (Sharing.insert T p k).Has w := fun w hw => has_insert.mpr (Or.inr hw)
  cases h with
  | entry hq hx hdeep =>
      by_cases heq : q = p
      · exact Or.inl ⟨heq, heq ▸ hx⟩
      · rw [Sharing.insert] at hq
        simp only [if_neg heq] at hq
        exact Or.inr (.entry hq hx fun w hw => hdeep w (hmono w hw))
  | root hroot hnone => exact Or.inr (.root hroot fun w hw => hnone w (hmono w hw))

/-- Where an override is screened, no part of an entry starts at the new key but its own path. -/
lemma screened_length {i : ℕ} {l : κ} (hscreen : Screened T (plain p))
    (hq : (Sharing.insert T p k).Has q)
    (h : (Sharing.insert T p k).Start Prod.fst ((plain q).take i) p l) :
    ((plain q).take i).length = p.length := by
  refine Nat.le_antisymm (Nat.le_of_not_lt fun hlt => ?_) h.length_le
  have hpq : plain p <+: plain q := h.isPrefix.trans (List.take_prefix _ _)
  rw [List.length_take, List.length_map] at hlt
  by_cases hlen : q.length ≤ p.length + 1
  · -- the whole entry, which has its own key
    have hdeep := h.deepest hq (by rw [List.take_of_length_le (by simp; omega)])
    omega
  · have hold : T.Has q := by
      rcases has_insert.mp hq with rfl | hq
      · omega
      · exact hq
    obtain ⟨r, hr, hplain⟩ := hscreen q hold hpq (by rw [List.length_map]; omega)
    rw [List.length_map] at hplain
    have hpre : plain r <+: (plain q).take i := by
      rw [hplain]
      exact List.take_prefix_take_left (by omega)
    have hdeep := h.deepest (has_insert.mpr (Or.inr hr)) hpre
    have hrlen := congrArg List.length hplain
    rw [List.length_map, List.length_take, List.length_map] at hrlen
    omega

include hinv hcons in
/-- **An override that is screened keeps the table consistent.** -/
theorem Consistent.insert (hp : Seals sys I T p) (hagree : ∀ q, T.Has q → Agree p q)
    (hscreen : Screened T (plain p)) : Consistent sys le (insert T p k) G where
  enc q hq i y hy := by
    have hold : ∀ z, T.Enc sys ((plain q).take i) z → z = (cipher q).take i := by
      intro z hz
      rcases has_insert.mp hq with rfl | hq
      · exact hcons.enc_take hinv.coherent hp.enc hz
      · exact hcons.enc q hq i z hz
    obtain ⟨p₁, k₁, c, h₁, hc, rfl⟩ := hy
    rcases start_insert h₁ with ⟨rfl, hpx⟩ | h₀
    · -- the path ends at the new key
      have hpq : p₁ <+: q := by
        rcases has_insert.mp hq with rfl | hq
        · exact List.prefix_refl _
        · exact (hagree q hq).prefix_of_map side_fst (hpx.trans (List.take_prefix _ _))
      have hlen := screened_length hscreen hq h₁
      have heq : p₁ = q.take i := by
        refine (List.prefix_of_prefix_length_le hpq (List.take_prefix i q) ?_).eq_of_length ?_
        all_goals
          rw [List.length_take] at hlen ⊢
          rw [List.length_map] at hlen
          omega
      rw [List.drop_of_length_le hlen.le] at hc
      cases hc
      rw [List.append_nil, heq, cipher, List.map_take]
    · exact hold _ ⟨p₁, k₁, c, h₀, hc, rfl⟩
  covered y hy := by
    obtain ⟨q, rfl, hq⟩ := hcons.covered y hy
    exact ⟨q, rfl, has_insert.mpr (Or.inr hq)⟩

end Preserved

end Storj.Sharing
