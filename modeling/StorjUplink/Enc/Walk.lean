import StorjUplink.Enc.Encrypt

/-!
# Walking a store

`iterate_with_cipher` lists the bases of a store bucket by bucket and node by node, in whatever
order the hash maps have.  The list has every base exactly once (`mem_iterate`, `nodup_iterate`),
so that two stores with the same bases are listed as permutations of each other (`iterate_perm`).
What is above another base is listed before it, so that the order of a chain of bases is not left
to the maps (`iterate_eq_of_chain`).

Iterating is how a store leaves the program: a grant is serialised from the walk.  So the walk must
be complete, must not repeat a base, and should depend on nothing but the store, and the last of
these it does not do.  Two walks over equal maps may differ, which is why the results are about
membership, about repetition and about order between bases that lie above one another, and end in a
permutation.

The one case in which the list is determined is a chain, where each base lies below the one before.
-/

namespace Storj.Enc

open KeyTree

namespace Node

variable {order : HashOrder} {bucket : String} {n : Node} {b : Base} {u e : Bytes}
  {position : List Bytes}

lemma lookup_visitAll (l : List (Bytes × Node)) (u : Bytes) :
    (visitAll order bucket position l).lookup u =
      (l.lookup u).map fun c => c.visit order bucket (position ++ [u]) := by
  induction l with
  | nil => rfl
  | cons x l ih =>
      obtain ⟨a, c⟩ := x
      rw [visitAll]
      by_cases h : u = a
      · subst h
        rw [List.lookup_cons_self, List.lookup_cons_self, Option.map_some]
      · rw [Assoc.lookup_cons_ne h, Assoc.lookup_cons_ne h, ih]

lemma visit_eq (n : Node) : n.visit order bucket position = n.base.toList ++
    (order.children bucket position (Assoc.keys n.unenc)).flatMap fun u =>
      ((n.unenc.lookup u).map fun c => c.visit order bucket (position ++ [u])).getD [] := by
  obtain ⟨unenc, unencMap, encMap, base⟩ := n
  rw [visit]
  simp only [lookup_visitAll]
  rfl

/-- What is listed below a node. -/
lemma mem_visit_iff : b ∈ n.visit order bucket position ↔ n.base = some b ∨
    ∃ u c, n.unenc.lookup u = some c ∧ b ∈ c.visit order bucket (position ++ [u]) := by
  rw [visit_eq, List.mem_append, Option.mem_toList]
  refine or_congr Iff.rfl ?_
  rw [List.mem_flatMap]
  constructor
  · rintro ⟨u, _, hu⟩
    cases hc : n.unenc.lookup u with
    | none =>
        rw [hc] at hu
        cases hu
    | some c =>
        rw [hc] at hu
        exact ⟨u, c, hc, hu⟩
  · rintro ⟨u, c, hc, hb⟩
    refine ⟨u, (order.children_perm _ _ _).mem_iff.mpr (Assoc.mem_keys_of_lookup hc), ?_⟩
    rw [hc]
    exact hb

lemma sizeOf_child {c : Node} (h : n.unenc.lookup u = some c) : sizeOf c < sizeOf n := by
  obtain ⟨unenc, unencMap, encMap, base⟩ := n
  obtain ⟨l₁, l₂, hl, _⟩ := List.lookup_eq_some_iff.mp h
  have hmem : (u, c) ∈ unenc := by
    have hl : unenc = l₁ ++ (u, c) :: l₂ := hl
    simp [hl]
  have hsize := List.sizeOf_lt_of_mem hmem
  simp only [Prod.mk.sizeOf_spec, mk.sizeOf_spec] at hsize ⊢
  omega

/-- **The walk lists the bases that are there.** -/
lemma mem_visit (hn : n.WF) : b ∈ n.visit order bucket position ↔ ∃ p, n.entry p = some b := by
  induction hsize : sizeOf n using Nat.strong_induction_on generalizing n position with
  | _ size ih =>
      rw [mem_visit_iff]
      constructor
      · rintro (hb | ⟨u, c, hc, hb⟩)
        · exact ⟨[], hb⟩
        · obtain ⟨p, hp⟩ := (ih _ (hsize ▸ sizeOf_child hc) (hn.child hc) rfl).mp hb
          obtain ⟨e, he⟩ := Option.isSome_iff_exists.mp
            ((hn.linked.domain u).mpr (by rw [hc]; rfl))
          exact ⟨(u, e) :: p, entry_cons.mpr ⟨he, c, hc, hp⟩⟩
      · rintro ⟨p, hp⟩
        cases p with
        | nil => exact Or.inl hp
        | cons a p =>
            obtain ⟨u, e⟩ := a
            obtain ⟨_, c, hc, hp⟩ := entry_cons.mp hp
            exact Or.inr ⟨u, c, hc, (ih _ (hsize ▸ sizeOf_child hc) (hn.child hc) rfl).mpr ⟨p, hp⟩⟩

/-- **The walk lists no base twice**, if no base is at two places. -/
lemma nodup_visit (hn : n.WF) (hinj : ∀ p q b, n.entry p = some b → n.entry q = some b → p = q) :
    (n.visit order bucket position).Nodup := by
  induction hsize : sizeOf n using Nat.strong_induction_on generalizing n position with
  | _ size ih =>
      -- where a base below a child is, seen from the node
      have hbelow : ∀ u c b, n.unenc.lookup u = some c →
          b ∈ c.visit order bucket (position ++ [u]) →
          ∃ e p, n.entry ((u, e) :: p) = some b := by
        intro u c b hc hb
        obtain ⟨p, hp⟩ := (mem_visit (hn.child hc)).mp hb
        obtain ⟨e, he⟩ := Option.isSome_iff_exists.mp
          ((hn.linked.domain u).mpr (by rw [hc]; rfl))
        exact ⟨e, p, entry_cons.mpr ⟨he, c, hc, hp⟩⟩
      rw [visit_eq, List.nodup_append]
      refine ⟨?_, List.nodup_flatMap.mpr ⟨fun u _ => ?_, ?_⟩, ?_⟩
      · cases n.base with
        | none => exact List.nodup_nil
        | some b => exact List.nodup_singleton b
      · cases hc : n.unenc.lookup u with
        | none => exact List.nodup_nil
        | some c =>
            obtain ⟨e, he⟩ := Option.isSome_iff_exists.mp
              ((hn.linked.domain u).mpr (by rw [hc]; rfl))
            refine ih _ (hsize ▸ sizeOf_child hc) (hn.child hc) (fun p q b hp hq => ?_) rfl
            have := hinj _ _ b (entry_cons.mpr ⟨he, c, hc, hp⟩) (entry_cons.mpr ⟨he, c, hc, hq⟩)
            exact (List.cons.inj this).2
      · refine ((order.children_perm _ _ _).nodup_iff.mpr hn.linked.nodup).imp fun {u v} huv => ?_
        intro b hb hb'
        dsimp only at hb hb'
        cases hc : n.unenc.lookup u with
        | none =>
            rw [hc] at hb
            cases hb
        | some c =>
            cases hd : n.unenc.lookup v with
            | none =>
                rw [hd] at hb'
                cases hb'
            | some d =>
                rw [hc] at hb
                rw [hd] at hb'
                obtain ⟨e, p, hp⟩ := hbelow u c b hc hb
                obtain ⟨e', q, hq⟩ := hbelow v d b hd hb'
                have := (List.cons.inj (hinj _ _ b hp hq)).1
                exact huv (congrArg Prod.fst this)
      · intro b hb b' hb' hbb
        subst hbb
        rw [Option.mem_toList] at hb
        obtain ⟨u, _, hu⟩ := List.mem_flatMap.mp hb'
        cases hc : n.unenc.lookup u with
        | none =>
            rw [hc] at hu
            cases hu
        | some c =>
            rw [hc] at hu
            obtain ⟨e, p, hp⟩ := hbelow u c b hc hu
            exact absurd (hinj [] _ b hb hp) (List.cons_ne_nil _ _).symm

/-- **The walk goes downwards**: no base is listed before one that is above it. -/
lemma pairwise_visit (hn : n.WF)
    (hinj : ∀ p q b, n.entry p = some b → n.entry q = some b → p = q) :
    (n.visit order bucket position).Pairwise fun b b' =>
      ∀ p q, n.entry p = some b → n.entry q = some b' → ¬q <+: p := by
  induction hsize : sizeOf n using Nat.strong_induction_on generalizing n position with
  | _ size ih =>
      -- where a base below a child is, seen from the node
      have hbelow : ∀ u c b p, n.unenc.lookup u = some c →
          b ∈ c.visit order bucket (position ++ [u]) → n.entry p = some b →
          ∃ e p', p = (u, e) :: p' ∧ c.entry p' = some b := by
        intro u c b p hc hb hp
        obtain ⟨p', hp'⟩ := (mem_visit (hn.child hc)).mp hb
        obtain ⟨e, he⟩ := Option.isSome_iff_exists.mp
          ((hn.linked.domain u).mpr (by rw [hc]; rfl))
        exact ⟨e, p', hinj _ _ b hp (entry_cons.mpr ⟨he, c, hc, hp'⟩), hp'⟩
      rw [visit_eq, List.pairwise_append]
      refine ⟨?_, List.pairwise_flatMap.mpr ⟨fun u _ => ?_, ?_⟩, ?_⟩
      · cases n.base with
        | none => exact List.Pairwise.nil
        | some b => exact List.pairwise_singleton _ b
      · cases hc : n.unenc.lookup u with
        | none => exact List.Pairwise.nil
        | some c =>
            have hchild : ∀ p q b, c.entry p = some b → c.entry q = some b → p = q := by
              intro p q b hp hq
              obtain ⟨e, he⟩ := Option.isSome_iff_exists.mp
                ((hn.linked.domain u).mpr (by rw [hc]; rfl))
              have := hinj _ _ b (entry_cons.mpr ⟨he, c, hc, hp⟩) (entry_cons.mpr ⟨he, c, hc, hq⟩)
              exact (List.cons.inj this).2
            refine (ih _ (hsize ▸ sizeOf_child hc) (hn.child hc) hchild rfl).imp_of_mem ?_
            intro b b' hb hb' hnot p q hp hq hqp
            obtain ⟨e, p', rfl, hp'⟩ := hbelow u c b p hc hb hp
            obtain ⟨e', q', rfl, hq'⟩ := hbelow u c b' q hc hb' hq
            exact hnot p' q' hp' hq' (List.cons_prefix_cons.mp hqp).2
      · -- bases below different children are not above each other
        refine ((order.children_perm _ _ _).nodup_iff.mpr hn.linked.nodup).imp fun {u v} huv => ?_
        intro b hb b' hb' p q hp hq hqp
        cases hc : n.unenc.lookup u with
        | none =>
            rw [hc] at hb
            cases hb
        | some c =>
            cases hd : n.unenc.lookup v with
            | none =>
                rw [hd] at hb'
                cases hb'
            | some d =>
                rw [hc] at hb
                rw [hd] at hb'
                obtain ⟨e, p', rfl, _⟩ := hbelow u c b p hc hb hp
                obtain ⟨e', q', rfl, _⟩ := hbelow v d b' q hd hb' hq
                exact huv (congrArg Prod.fst (List.cons_prefix_cons.mp hqp).1).symm
      · -- nothing is above the base of the node
        intro b hb b' hb' p q hp hq hqp
        rw [Option.mem_toList] at hb
        obtain rfl : p = [] := hinj p [] b hp hb
        obtain rfl := List.prefix_nil.mp hqp
        obtain ⟨u, _, hu⟩ := List.mem_flatMap.mp hb'
        cases hc : n.unenc.lookup u with
        | none =>
            rw [hc] at hu
            cases hu
        | some c =>
            rw [hc] at hu
            obtain ⟨e, q', hnil, _⟩ := hbelow u c b' [] hc hu hq
            cases hnil

end Node

namespace Store

variable {s t : Store} {order order' : HashOrder} {bucket : String} {b : Base}

/-- **A walk through the store lists its bases**, each with its bucket. -/
lemma mem_iterate (hs : s.WF) : (bucket, b) ∈ s.iterate order ↔ ∃ p, s.entry bucket p = some b := by
  rw [iterate, List.mem_flatMap]
  constructor
  · rintro ⟨bucket', _, hb⟩
    cases hroot : s.roots.lookup bucket' with
    | none =>
        rw [hroot] at hb
        cases hb
    | some root =>
        rw [hroot] at hb
        obtain ⟨b', hb', heq⟩ := List.mem_map.mp hb
        rw [Prod.mk.injEq] at heq
        obtain ⟨rfl, rfl⟩ := heq
        obtain ⟨p, hp⟩ := (Node.mem_visit (hs.roots bucket' root hroot)).mp hb'
        exact ⟨p, by rw [entry, hroot]; exact hp⟩
  · rintro ⟨p, hp⟩
    rw [entry] at hp
    obtain ⟨root, hroot, hp⟩ := Option.bind_eq_some_iff.mp hp
    refine ⟨bucket, (order.roots_perm _).mem_iff.mpr (Assoc.mem_keys_of_lookup hroot), ?_⟩
    rw [hroot]
    exact List.mem_map.mpr ⟨b, (Node.mem_visit (hs.roots bucket root hroot)).mpr ⟨p, hp⟩, rfl⟩

/-- A base is at one place only. -/
lemma WF.entry_inj (hs : s.WF) {p q : Path Bytes Bytes} (hp : s.entry bucket p = some b)
    (hq : s.entry bucket q = some b) : p = q := by
  obtain ⟨hup, hep, _⟩ := hs.placed bucket p b hp
  obtain ⟨huq, heq, _⟩ := hs.placed bucket q b hq
  have hpz : p = (plain p).zip (KeyTree.cipher p) := by simp [List.zip_map']
  have hqz : q = (plain q).zip (KeyTree.cipher q) := by simp [List.zip_map']
  rw [hpz, hqz, hup, hep, huq, heq]

/-- What is listed of a bucket is in that bucket. -/
lemma mem_root {a : String × Base} (ha : a ∈ (match s.roots.lookup bucket with
    | some root => (root.visit order bucket []).map (bucket, ·)
    | none => [])) : a.1 = bucket := by
  cases hroot : s.roots.lookup bucket with
  | none =>
      rw [hroot] at ha
      cases ha
  | some root =>
      rw [hroot] at ha
      obtain ⟨_, _, rfl⟩ := List.mem_map.mp ha
      rfl

lemma nodup_iterate (hs : s.WF) : (s.iterate order).Nodup := by
  rw [iterate, List.nodup_flatMap]
  refine ⟨fun bucket _ => ?_, ?_⟩
  · cases hroot : s.roots.lookup bucket with
    | none => exact List.nodup_nil
    | some root =>
        refine (Node.nodup_visit (hs.roots bucket root hroot) fun p q b hp hq => ?_).map
          (Prod.mk_right_injective bucket)
        have hentry : ∀ p, s.entry bucket p = root.entry p := by
          intro p
          rw [entry, hroot]
          rfl
        rw [← hentry] at hp hq
        exact hs.entry_inj hp hq
  · refine ((order.roots_perm _).nodup_iff.mpr hs.nodup).imp fun {x y} hxy => ?_
    intro a ha ha'
    exact hxy ((mem_root ha).symm.trans (mem_root ha'))

/-- **Stores with the same bases are listed alike**, up to order. -/
lemma iterate_perm (hs : s.WF) (ht : t.WF) (h : ∀ bucket p, s.entry bucket p = t.entry bucket p) :
    (s.iterate order).Perm (t.iterate order') := by
  refine (List.perm_ext_iff_of_nodup (nodup_iterate hs) (nodup_iterate ht)).mpr fun ⟨bucket, b⟩ => ?_
  rw [mem_iterate hs, mem_iterate ht]
  simp only [h]

/-- **In a bucket the walk goes downwards.** -/
lemma pairwise_iterate (hs : s.WF) : (s.iterate order).Pairwise fun x y => x.1 = y.1 →
    ∀ p q, s.entry x.1 p = some x.2 → s.entry y.1 q = some y.2 → ¬q <+: p := by
  rw [iterate, List.pairwise_flatMap]
  refine ⟨fun bucket _ => ?_, ?_⟩
  · cases hroot : s.roots.lookup bucket with
    | none => exact List.Pairwise.nil
    | some root =>
        have hentry : ∀ p, s.entry bucket p = root.entry p := by
          intro p
          rw [entry, hroot]
          rfl
        have hinj : ∀ p q b, root.entry p = some b → root.entry q = some b → p = q := by
          intro p q b hp hq
          rw [← hentry] at hp hq
          exact hs.entry_inj hp hq
        have hdown : (root.visit order bucket []).Pairwise fun b b' =>
            ∀ p q, root.entry p = some b → root.entry q = some b' → ¬q <+: p :=
          Node.pairwise_visit (hs.roots bucket root hroot) hinj
        refine List.pairwise_map.mpr (hdown.imp fun {b b'} hnot => ?_)
        intro _ p q hp hq
        rw [hentry] at hp hq
        exact hnot p q hp hq
  · refine ((order.roots_perm _).nodup_iff.mpr hs.nodup).imp fun {x y} hxy => ?_
    intro a ha b hb hab
    rw [mem_root ha, mem_root hb] at hab
    exact absurd hab hxy

/-- **A chain of bases is listed in one order only.** -/
lemma iterate_eq_of_chain (hs : s.WF) (ht : t.WF)
    (h : ∀ bucket p, s.entry bucket p = t.entry bucket p)
    (hchain : ∀ x ∈ s.iterate order, ∀ y ∈ s.iterate order, x.1 = y.1 ∧
      (components x.2.unencrypted <+: components y.2.unencrypted ∨
        components y.2.unencrypted <+: components x.2.unencrypted)) :
    s.iterate order = t.iterate order' := by
  have hperm : (s.iterate order).Perm (t.iterate order') := iterate_perm hs ht h
  -- above and not above is below, in paths as in their plaintexts
  have hpref : ∀ bucket p q b b', s.entry bucket p = some b → s.entry bucket q = some b' →
      (components b.unencrypted <+: components b'.unencrypted ↔ p <+: q) := by
    intro bucket p q b b' hp hq
    rw [← (hs.placed bucket p b hp).1, ← (hs.placed bucket q b' hq).1]
    refine ⟨fun hle => ?_, fun hle => hle.map Prod.fst⟩
    exact (hs.coherent bucket p q ⟨b, hp⟩ ⟨b', hq⟩).prefix_of_map side_fst hle
  have hsorted : ∀ {l : List (String × Base)}, (∀ x ∈ l, x ∈ s.iterate order) →
      (l.Pairwise fun x y => x.1 = y.1 → ∀ p q, s.entry x.1 p = some x.2 →
        s.entry y.1 q = some y.2 → ¬q <+: p) →
      l.Pairwise fun x y => components x.2.unencrypted <+: components y.2.unencrypted := by
    intro l hl hdown
    refine hdown.imp_of_mem fun {x y} hx hy hnot => ?_
    obtain ⟨hbucket, hxy⟩ := hchain x (hl x hx) y (hl y hy)
    obtain ⟨p, hp⟩ := (mem_iterate hs).mp (hl x hx)
    obtain ⟨q, hq⟩ := (mem_iterate hs).mp (hl y hy)
    refine hxy.resolve_right fun hyx => hnot hbucket p q hp hq ?_
    rw [← hbucket] at hq
    exact (hpref _ q p _ _ hq hp).mp hyx
  refine List.Perm.eq_of_pairwise ?_ (hsorted (fun x hx => hx) (pairwise_iterate hs))
    (hsorted (fun x hx => hperm.mem_iff.mpr hx) ?_) hperm
  · intro x y hx hy hxy hyx
    rw [← hperm.mem_iff] at hy
    obtain ⟨hbucket, _⟩ := hchain x hx y hy
    obtain ⟨p, hp⟩ := (mem_iterate hs).mp hx
    obtain ⟨q, hq⟩ := (mem_iterate hs).mp hy
    rw [← hbucket] at hq
    have hpq := (hpref _ p q _ _ hp hq).mp hxy
    have hqp := (hpref _ q p _ _ hq hp).mp hyx
    have heq : p = q := hpq.eq_of_length (Nat.le_antisymm hpq.length_le hqp.length_le)
    rw [← heq, hp, Option.some.injEq] at hq
    exact Prod.ext hbucket hq
  · refine (pairwise_iterate ht).imp fun {x y} hnot hbucket p q hp hq => ?_
    rw [h] at hp hq
    exact hnot hbucket p q hp hq

end Store

end Storj.Enc
