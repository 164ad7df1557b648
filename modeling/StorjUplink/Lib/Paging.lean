import Mathlib.Data.List.Basic
import Mathlib.Tactic.Common

/-!
# Listings in pages

A server lists entries in pages: a request has a cursor, and the page has some of the entries that
come after it.  A client keeps the entries of the last page that it has not given out yet, and asks
for the next page when there are none.  `Pages` is the contract of the server, `drain` the stream
of the client.

The entries of a page may be converted or left out, so that a page can come to nothing: the stream
still gives what is made of every entry, once and in order (`drain_pages`).  A listing that starts
at the cursor of an entry has the entries after it (`Pages.after`).

A page all of whose entries were left out says nothing about the ones behind it, so the loop asks
again from the cursor of its last entry; a page without entries ends the stream, whatever its flag
says.  That no entry is missed or seen twice is the contract's, which says for every split of the
listing what the page behind it is, and that it has an entry where there is one.  With that, enough
fuel is one unit for each entry and each page.

A contract that speaks of all splits is stronger than a run needs; a listing of two entries on two
pages meets it (`pages_pair`).
-/

namespace Paging

variable {C I O E : Type}

/-- A page of a listing. -/
structure Page (I : Type) where
  items : List I
  more : Bool

/-- The state of a stream over pages. -/
structure Stream (C O : Type) where
  cursor : C
  pending : List O
  done : Bool

/-! ## The client

The state has the cursor, the entries that are not given out yet, and whether there are more pages.
A failed request ends the stream with its error.
-/

/-- The cursor after some entries. -/
def cursorAfter (cursorOf : I → C) (start : C) (entries : List I) : C :=
  (entries.getLast?.map cursorOf).getD start

/-- The next page, with what is made of its entries. -/
def fetchPage (page : C → Except E (Page I)) (cursorOf : I → C) (convert : List I → Except E (List O))
    (cursor : C) : Except E (Stream C O) := do
  let p ← page cursor
  let pending ← convert p.items
  .ok ⟨cursorAfter cursorOf cursor p.items, pending, !p.more || p.items.isEmpty⟩

/-- **The stream to its end**: what it gives, and the error that ends it.  Every turn of its loop
is a unit of fuel. -/
def drain (fetch : C → Except E (Stream C O)) : ℕ → Stream C O → Option (List O × Option E)
  | 0, _ => none
  | fuel + 1, st =>
      match st.pending with
      | o :: pending => (drain fetch fuel { st with pending }).map fun r => (o :: r.1, r.2)
      | [] =>
          if st.done then some ([], none)
          else
            match fetch st.cursor with
            | .error e => some ([], some e)
            | .ok st => drain fetch fuel st

/-! ## The server

The entries are a list in the order of the listing.  A page is a stretch of it, and its flag is
truthful.
-/

/-- **The pages of a listing.**  The page at the cursor after some of the entries has the next
ones, at least one if there is one, and says whether there are more. -/
def Pages (page : C → Except E (Page I)) (cursorOf : I → C) (start : C) (entries : List I) : Prop :=
  ∀ before rest, entries = before ++ rest →
    ∃ p tail, page (cursorAfter cursorOf start before) = .ok p ∧ rest = p.items ++ tail ∧
      (p.items = [] → tail = []) ∧ (p.more = false → tail = [])

variable {page : C → Except E (Page I)} {cursorOf : I → C} {convert : List I → Except E (List O)}
  {start : C} {entries : List I}

@[simp] lemma cursorAfter_nil : cursorAfter cursorOf start [] = start := rfl

lemma cursorAfter_append (before items : List I) :
    cursorAfter cursorOf (cursorAfter cursorOf start before) items
      = cursorAfter cursorOf start (before ++ items) := by
  rw [cursorAfter, cursorAfter, cursorAfter, List.getLast?_append]
  cases items.getLast? with
  | none => rfl
  | some i => rfl

/-- A listing can be taken up again after any of its entries. -/
lemma Pages.after {before rest : List I} (h : Pages page cursorOf start (before ++ rest)) :
    Pages page cursorOf (cursorAfter cursorOf start before) rest := by
  intro more tail hrest
  rw [cursorAfter_append]
  exact h (before ++ more) tail (by rw [hrest, List.append_assoc])

/-- A listing of two entries, each on a page of its own. -/
lemma pages_pair {a b : I} (hstart : page start = .ok ⟨[a], true⟩)
    (hnext : page (cursorOf a) = .ok ⟨[b], false⟩) (hlast : page (cursorOf b) = .ok ⟨[], false⟩) :
    Pages page cursorOf start [a, b] := by
  intro before rest hsplit
  rcases before with _ | ⟨x, _ | ⟨y, before⟩⟩
  · exact ⟨⟨[a], true⟩, [b], hstart, hsplit.symm, by simp, by simp⟩
  · simp only [List.cons_append, List.nil_append, List.cons.injEq] at hsplit
    obtain ⟨rfl, rfl⟩ := hsplit
    exact ⟨⟨[b], false⟩, [], hnext, rfl, by simp, by simp⟩
  · simp only [List.cons_append, List.cons.injEq, List.nil_eq, List.append_eq_nil_iff] at hsplit
    obtain ⟨rfl, rfl, rfl, rfl⟩ := hsplit
    exact ⟨⟨[], false⟩, [], hlast, rfl, by simp, by simp⟩

/-- What is pending is given out first. -/
lemma drain_pending (fetch : C → Except E (Stream C O)) (cursor : C) (done : Bool) (pending : List O)
    (fuel : ℕ) :
    drain fetch (fuel + pending.length) ⟨cursor, pending, done⟩
      = (drain fetch fuel ⟨cursor, [], done⟩).map fun r => (pending ++ r.1, r.2) := by
  induction pending with
  | nil => simp
  | cons o pending ih =>
      rw [List.length_cons, ← Nat.add_assoc, drain]
      dsimp only
      rw [ih, Option.map_map]
      rfl

/-- **The stream gives what is made of every entry**, once and in order, if no entry is an error. -/
theorem drain_pages {f : I → Option O} (h : Pages page cursorOf start entries)
    (hconvert : ∀ items, items ⊆ entries → convert items = .ok (items.filterMap f)) {fuel : ℕ}
    (hfuel : 2 * entries.length + 2 ≤ fuel) :
    drain (fetchPage page cursorOf convert) fuel ⟨start, [], false⟩
      = some (entries.filterMap f, none) := by
  -- the induction is on the number of entries that are left
  induction hn : entries.length using Nat.strongRecOn generalizing entries start fuel with
  | ind n ih =>
      obtain ⟨p, tail, hpage, hsplit, hempty, hmore⟩ := h [] entries rfl
      rw [cursorAfter_nil] at hpage
      have hitems : p.items ⊆ entries := by
        rw [hsplit]
        exact List.subset_append_left _ _
      have hfetch : fetchPage page cursorOf convert start = .ok ⟨cursorAfter cursorOf start p.items,
          p.items.filterMap f, !p.more || p.items.isEmpty⟩ := by
        rw [fetchPage, hpage]
        show (do
          let pending ← convert p.items
          _) = _
        rw [hconvert _ hitems]
        rfl
      have hlength := congrArg List.length hsplit
      rw [List.length_append] at hlength
      have hgiven := List.length_filterMap_le f p.items
      obtain ⟨rest, rfl⟩ : ∃ rest, fuel = rest + (p.items.filterMap f).length + 1 :=
        ⟨fuel - (p.items.filterMap f).length - 1, by omega⟩
      rw [drain]
      dsimp only
      rw [if_neg Bool.false_ne_true, hfetch]
      dsimp only
      rw [drain_pending]
      cases hdone : (!p.more || p.items.isEmpty) with
      | true =>
          have htail : tail = [] := by
            rw [Bool.or_eq_true, Bool.not_eq_true', List.isEmpty_iff] at hdone
            exact hdone.elim hmore hempty
          obtain ⟨rest, rfl⟩ : ∃ n, rest = n + 1 := ⟨rest - 1, by omega⟩
          rw [drain, hsplit, htail, List.append_nil]
          dsimp only
          rw [if_pos rfl, Option.map_some, List.append_nil]
      | false =>
          rw [Bool.or_eq_false_iff, List.isEmpty_eq_false_iff] at hdone
          have hpos := List.length_pos_of_ne_nil hdone.2
          have hafter : Pages page cursorOf (cursorAfter cursorOf start p.items) tail :=
            Pages.after (hsplit ▸ h)
          rw [ih tail.length (by omega) hafter (fun items hsub => hconvert items (List.Subset.trans hsub ?_))
            (by omega) rfl, hsplit, List.filterMap_append]
          · rfl
          · rw [hsplit]
            exact List.subset_append_right _ _

end Paging
