import Mathlib.Algebra.Order.Ring.Nat
import Mathlib.Data.List.Perm.Basic
import StorjUplink.Lib.Assoc

/-!
# The connection pool

`ConnectionPool` of `pool.rs` keeps the idle connections of each storage node in a queue and counts
them beside the queues, and counts the connections that are handed out or being dialed.  The counts
go down by saturating subtractions, in `pop_idle` and where a `Slot` or a `Pooled` guard is dropped.

`World` puts beside the pool the guards that are alive, the clock and the number of dials so far.
What a task does under the lock is one step of it (`World.step`), and so are the end of a dial, the
drop of a guard and the passing of time, so that a list of events is an interleaving of any number
of tasks.  Two pieces of bookkeeping are not in the source: a connection carries the number and the
node of the dial it came from (`Dialed`), and `saturated` records a subtraction that saturated.

`World.Accounted` is the invariant of every run (`World.accounted_run`).
-/

namespace Storj.Pool

variable {ν T : Type}

/-! ## The idle connections

A queue for each node, with a count of all of them beside.  Popping takes the first connection that
is not stale and drops the stale ones in front of it.
-/

/-- `PoolConfig`. -/
structure PoolConfig where
  maxConnections : ℕ
  idleTimeout : ℕ

/-- `Inner`: the idle connections of each node with the time they were put back, their number, the
number in use, and the time after which an idle one is dropped. -/
structure Inner (ν T : Type) where
  idle : List (ν × List (ℕ × T))
  idleCount : ℕ
  inUse : ℕ
  idleTimeout : ℕ
  /-- Whether a saturating subtraction saturated. -/
  saturated : Bool

namespace Inner

/-- `idle_count.saturating_sub(1)`. -/
def decIdleCount (g : Inner ν T) : Inner ν T :=
  { g with idleCount := g.idleCount - 1, saturated := g.saturated || g.idleCount == 0 }

/-- `in_use.saturating_sub(1)`. -/
def decInUse (g : Inner ν T) : Inner ν T :=
  { g with inUse := g.inUse - 1, saturated := g.saturated || g.inUse == 0 }

/-- The loop of `pop_idle`: what is left of the queue, and the first connection in it that is not
stale. -/
def popLoop (now : ℕ) (g : Inner ν T) : List (ℕ × T) → Inner ν T × List (ℕ × T) × Option T
  | [] => (g, [], none)
  | (since, conn) :: slot =>
      if now - since < g.idleTimeout then (g.decIdleCount, slot, some conn)
      else popLoop now g.decIdleCount slot

variable [DecidableEq ν]

/-- `Inner::pop_idle`: the first connection of a node that has not expired.  The expired ones in
front of it are dropped, and a node whose slot is emptied is taken out of the map. -/
def popIdle (now : ℕ) (node : ν) (g : Inner ν T) : Inner ν T × Option T :=
  match g.idle.lookup node with
  | none => (g, none)
  | some slot =>
      let (g, slot, found) := g.popLoop now slot
      let idle := if slot.isEmpty then Assoc.erase node g.idle else Assoc.put node slot g.idle
      ({ g with idle := idle }, found)

/-- `Inner::push_idle`: the connection goes to the end of the slot of its node, with the time. -/
def pushIdle (now : ℕ) (node : ν) (conn : T) (g : Inner ν T) : Inner ν T :=
  let slot := (g.idle.lookup node).getD []
  { g with
    idle := Assoc.put node (slot ++ [(now, conn)]) g.idle
    idleCount := g.idleCount + 1 }

/-- `Inner::evict_one_idle`: one idle connection of the node that the hash map yields first. -/
def evictOneIdle (now : ℕ) (order : Assoc.IterOrder ν) (g : Inner ν T) : Inner ν T × Option T :=
  match order.visit (Assoc.keys g.idle) with
  | [] => (g, none)
  | key :: _ => g.popIdle now key

end Inner

/-- `Checkout`, the three decisions of the lock section. -/
inductive Checkout (T : Type) where
  | reuse (conn : T)
  | dial
  | wait

/-- What a round of `ConnectionPool::checkout` does under the lock. -/
def Inner.checkout [DecidableEq ν] (now max : ℕ) (order : Assoc.IterOrder ν) (node : ν)
    (g : Inner ν T) : Inner ν T × Checkout T :=
  match g.popIdle now node with
  | (g, some conn) => ({ g with inUse := g.inUse + 1 }, .reuse conn)
  | (g, none) =>
      if g.inUse < max then
        let g := if g.inUse + g.idleCount ≥ max then (g.evictOneIdle now order).1 else g
        ({ g with inUse := g.inUse + 1 }, .dial)
      else (g, .wait)

/-! ## Guards and waiting tasks

A guard stands for a connection in use.  Dropping it gives the connection back or lets go of its
slot.
-/

/-- A checkout that waits in `notified`. -/
structure Waiter (ν : Type) where
  node : ν
  notified : Bool

/-- `Notify`: at most one stored permit, and who waits. -/
structure Notify (ν : Type) where
  permit : Bool
  waiters : List (Waiter ν)

/-- The first waiter that was not notified yet is. -/
def notifyFirst : List (Waiter ν) → Option (List (Waiter ν))
  | [] => none
  | w :: l =>
      if w.notified then (notifyFirst l).map (w :: ·) else some ({ w with notified := true } :: l)

/-- `Notify::notify_one`: the first waiter is woken, and with none of them a permit is left. -/
def Notify.notifyOne (n : Notify ν) : Notify ν :=
  match notifyFirst n.waiters with
  | some waiters => { n with waiters := waiters }
  | none => { n with permit := true }

/-- `notified`: a stored permit ends the wait at once. -/
def Notify.wait (node : ν) (n : Notify ν) : Notify ν where
  permit := false
  waiters := n.waiters ++ [⟨node, n.permit⟩]

/-- `PoolInner`: the cap on connections, the part under the lock, and the notify. -/
structure PoolInner (ν T : Type) where
  max : ℕ
  inner : Inner ν T
  notify : Notify ν

/-- `ConnectionPool::new`, with a cap of at least one. -/
def PoolInner.new (config : PoolConfig) : PoolInner ν T where
  max := Nat.max config.maxConnections 1
  inner := ⟨[], 0, 0, config.idleTimeout, false⟩
  notify := ⟨false, []⟩

/-- `Pooled`: the guard of a connection, which is recycled unless the caller says otherwise. -/
structure Pooled (ν T : Type) where
  conn : Option T
  node : ν
  recycle : Bool

/-- `Slot`: the guard of a slot that was taken to dial, and whether a drop gives it back. -/
structure Slot (ν : Type) where
  node : ν
  armed : Bool

/-- `Slot::new`. -/
def Slot.new (node : ν) : Slot ν := ⟨node, true⟩

/-- `Slot::into_pooled`, with the slot it leaves to be dropped. -/
def Slot.intoPooled (s : Slot ν) (conn : T) : Slot ν × Pooled ν T :=
  ({ s with armed := false }, ⟨some conn, s.node, true⟩)

/-- `Slot::drop`: an armed slot is given back, and one waiting checkout is notified. -/
def Slot.drop (s : Slot ν) (p : PoolInner ν T) : PoolInner ν T :=
  if !s.armed then p
  else { p with inner := p.inner.decInUse, notify := p.notify.notifyOne }

/-- `Pooled::skip_recycle`. -/
def Pooled.skipRecycle (g : Pooled ν T) : Pooled ν T := { g with recycle := false }

/-- `Pooled::drop`: the slot is given back, a connection to be recycled goes to the idle ones, and
one waiting checkout is notified. -/
def Pooled.drop [DecidableEq ν] (now : ℕ) (g : Pooled ν T) (p : PoolInner ν T) : PoolInner ν T :=
  match g.conn with
  | none => p
  | some conn =>
      let inner := p.inner.decInUse
      let inner := if g.recycle then inner.pushIdle now g.node conn else inner
      { p with inner := inner, notify := p.notify.notifyOne }

/-! ## The tasks around the pool

Each step is a section under the lock or something that happens without it.
-/

/-- A connection with the dial that made it. -/
structure Dialed (ν T : Type) where
  serial : ℕ
  node : ν
  conn : T

/-- The pool, the clock, the number of dials that succeeded, the checkouts that are dialing and the
guards that are alive. -/
structure World (ν T : Type) where
  pool : PoolInner ν (Dialed ν T)
  now : ℕ
  dials : ℕ
  slots : List (Slot ν)
  guards : List (Pooled ν (Dialed ν T))

/-- What may happen next.  A number picks a waiter, a slot or a guard. -/
inductive Event (ν T : Type) where
  | checkout (node : ν) (order : Assoc.IterOrder ν)
  | wake (i : ℕ) (order : Assoc.IterOrder ν)
  | abandonWait (i : ℕ)
  | dialed (i : ℕ) (conn : T)
  | dialFailed (i : ℕ)
  | dialCancelled (i : ℕ)
  | skipRecycle (i : ℕ)
  | dropGuard (i : ℕ)
  | advance (elapsed : ℕ)

namespace World

/-- A new pool. -/
def new (config : PoolConfig) : World ν T := ⟨.new config, 0, 0, [], []⟩

variable [DecidableEq ν]

/-- One round of `ConnectionPool::checkout`: an idle connection is handed out, a slot is taken to
dial, or the checkout waits. -/
def poll (w : World ν T) (node : ν) (order : Assoc.IterOrder ν) : World ν T :=
  match w.pool.inner.checkout w.now w.pool.max order node with
  | (inner, .reuse conn) =>
      let (slot, guard) := (Slot.new node).intoPooled conn
      { w with pool := slot.drop { w.pool with inner := inner }, guards := w.guards ++ [guard] }
  | (inner, .dial) =>
      { w with pool := { w.pool with inner := inner }, slots := w.slots ++ [Slot.new node] }
  | (inner, .wait) =>
      { w with pool := { w.pool with inner := inner, notify := w.pool.notify.wait node } }

/-- The slot of a dial that did not make a connection is dropped. -/
def dropSlot (w : World ν T) (i : ℕ) : World ν T :=
  match w.slots[i]? with
  | none => w
  | some slot => { w with pool := slot.drop w.pool, slots := w.slots.eraseIdx i }

/-- What an event does.  An event that picks nothing does nothing. -/
def step (w : World ν T) : Event ν T → World ν T
  | .checkout node order => w.poll node order
  | .wake i order =>
      match w.pool.notify.waiters[i]? with
      | some ⟨node, true⟩ =>
          let waiters := w.pool.notify.waiters.eraseIdx i
          let notify := { w.pool.notify with waiters := waiters }
          { w with pool := { w.pool with notify := notify } }.poll node order
      | _ => w
  | .abandonWait i =>
      match w.pool.notify.waiters[i]? with
      | some waiter =>
          let notify := { w.pool.notify with waiters := w.pool.notify.waiters.eraseIdx i }
          -- a notification that was not used goes to the next waiter
          let notify := if waiter.notified then notify.notifyOne else notify
          { w with pool := { w.pool with notify := notify } }
      | none => w
  | .dialed i conn =>
      match w.slots[i]? with
      | some slot =>
          let (slot, guard) := slot.intoPooled ⟨w.dials, slot.node, conn⟩
          { w with
            pool := slot.drop w.pool
            dials := w.dials + 1
            slots := w.slots.eraseIdx i
            guards := w.guards ++ [guard] }
      | none => w
  | .dialFailed i => w.dropSlot i
  | .dialCancelled i => w.dropSlot i
  | .skipRecycle i => { w with guards := w.guards.modify i Pooled.skipRecycle }
  | .dropGuard i =>
      match w.guards[i]? with
      | some guard => { w with pool := guard.drop w.now w.pool, guards := w.guards.eraseIdx i }
      | none => w
  | .advance elapsed => { w with now := w.now + elapsed }

/-- A run. -/
def run (w : World ν T) (events : List (Event ν T)) : World ν T := events.foldl step w

end World

/-! ## What is kept of the idle connections

A dial makes one connection, and it is in one place at a time: idle, with a guard, or gone.
-/

namespace Inner

/-- The idle connections. -/
def conns (g : Inner ν T) : List T := g.idle.flatMap fun q => q.2.map Prod.snd

/-- The queues are well formed: each node has one, none is empty, the count is their total length,
what is in a queue belongs to its node, and no subtraction saturated. -/
structure WF (home : T → ν) (g : Inner ν T) : Prop where
  nodup : (Assoc.keys g.idle).Nodup
  queues : ∀ q ∈ g.idle, q.2 ≠ []
  count : g.idleCount = (g.idle.map fun q => q.2.length).sum
  placed : ∀ q ∈ g.idle, ∀ c ∈ q.2, home c.2 = q.1
  exact : g.saturated = false

variable {home : T → ν} {g : Inner ν T}

lemma WF.count_eq (h : g.WF home) : g.idleCount = g.conns.length := by
  rw [h.count, conns, List.length_flatMap]
  simp only [List.length_map]

lemma decIdleCount_of_ne (h : g.idleCount ≠ 0) :
    g.decIdleCount = { g with idleCount := g.idleCount - 1 } := by
  rw [decIdleCount, beq_eq_false_iff_ne.mpr h, Bool.or_false]

lemma decInUse_of_ne (h : g.inUse ≠ 0) : g.decInUse = { g with inUse := g.inUse - 1 } := by
  rw [decInUse, beq_eq_false_iff_ne.mpr h, Bool.or_false]

lemma WF.withInUse (h : g.WF home) (n : ℕ) : WF home { g with inUse := n } :=
  ⟨h.nodup, h.queues, h.count, h.placed, h.exact⟩

/-- What the loop of `pop_idle` leaves, when the count covers the queue. -/
lemma popLoop_spec (now : ℕ) (slot : List (ℕ × T)) (hc : slot.length ≤ g.idleCount) :
    ∃ (dropped rest : List (ℕ × T)) (found : Option (ℕ × T)),
      g.popLoop now slot = ({ g with idleCount := g.idleCount - (slot.length - rest.length) },
        rest, found.map Prod.snd) ∧
      slot = dropped ++ found.toList ++ rest ∧ (slot ≠ [] → rest.length < slot.length) := by
  induction slot generalizing g with
  | nil => exact ⟨[], [], none, by simp [popLoop], by simp, by simp⟩
  | cons x slot ih =>
      have hpos : g.idleCount ≠ 0 := by
        rw [List.length_cons] at hc
        omega
      have hdec := decIdleCount_of_ne hpos
      by_cases hx : now - x.1 < g.idleTimeout
      · refine ⟨[], slot, some x, ?_, by simp, by simp⟩
        rw [popLoop, if_pos hx, hdec, List.length_cons, Nat.add_sub_cancel_left, Option.map_some]
      · have hle : slot.length ≤ g.decIdleCount.idleCount := by
          rw [hdec]
          simp only [List.length_cons] at hc ⊢
          omega
        obtain ⟨dropped, rest, found, hloop, hslot, -⟩ := ih hle
        have hrest : rest.length ≤ slot.length := by
          rw [hslot, List.length_append]
          omega
        refine ⟨x :: dropped, rest, found, ?_, by simp [hslot], fun _ => ?_⟩
        · rw [popLoop, if_neg hx, hloop, hdec]
          congr 2
          simp only [List.length_cons]
          omega
        · rw [List.length_cons]
          omega

variable [DecidableEq ν]

/-- The queue of a node. -/
def queue (g : Inner ν T) (node : ν) : List (ℕ × T) := (g.idle.lookup node).getD []

/-- The queues of the other nodes. -/
def others (g : Inner ν T) (node : ν) : List (ν × List (ℕ × T)) := Assoc.erase node g.idle

lemma others_subset (node : ν) : g.others node ⊆ g.idle := List.filter_subset_self _

/-- The counts and the connections of a pool, taken apart at a node. -/
lemma WF.split (h : g.WF home) (node : ν) :
    g.idleCount = (g.queue node).length + ((g.others node).map fun q => q.2.length).sum ∧
    g.conns.Perm ((g.queue node).map Prod.snd
      ++ (g.others node).flatMap fun q => q.2.map Prod.snd) ∧
    ∀ x ∈ g.queue node, home x.2 = node := by
  rw [queue, others, h.count, conns]
  cases hq : g.idle.lookup node with
  | none =>
      have hnot : node ∉ Assoc.keys g.idle := by
        intro hmem
        obtain ⟨q, hqm, rfl⟩ := List.mem_map.mp hmem
        rw [(Assoc.mem_iff_lookup h.nodup).mp hqm] at hq
        cases hq
      rw [Assoc.erase_of_not_mem hnot]
      simp
  | some slot =>
      have hperm := Assoc.perm_erase h.nodup hq
      refine ⟨?_, ?_, h.placed _ ((Assoc.mem_iff_lookup h.nodup).mpr hq)⟩
      · rw [(hperm.map fun q => q.2.length).sum_nat, List.map_cons, List.sum_cons,
          Option.getD_some]
      · rw [Option.getD_some]
        exact (hperm.flatMap_right _).trans (by rw [List.flatMap_cons])

/-- A pool with another queue for a node. -/
lemma WF.put (h : g.WF home) (node : ν) (slot : List (ℕ × T)) (n m : ℕ) (hne : slot ≠ [])
    (hcount : n = slot.length + ((g.others node).map fun q => q.2.length).sum)
    (hhome : ∀ x ∈ slot, home x.2 = node) :
    WF home ⟨Assoc.put node slot g.idle, n, m, g.idleTimeout, g.saturated⟩ ∧
    (conns ⟨Assoc.put node slot g.idle, n, m, g.idleTimeout, g.saturated⟩).Perm
      (slot.map Prod.snd ++ (g.others node).flatMap fun q => q.2.map Prod.snd) := by
  have hput : (Assoc.put node slot g.idle).Perm ((node, slot) :: g.others node) :=
    Assoc.perm_put h.nodup
  refine ⟨⟨Assoc.nodup_put h.nodup, fun q hq => ?_, ?_, fun q hq => ?_, h.exact⟩, ?_⟩
  · rcases List.mem_cons.mp (hput.mem_iff.mp hq) with rfl | hq
    · exact hne
    · exact h.queues q (others_subset node hq)
  · rw [(hput.map fun q => q.2.length).sum_nat, List.map_cons, List.sum_cons]
    exact hcount
  · rcases List.mem_cons.mp (hput.mem_iff.mp hq) with rfl | hq
    · exact hhome
    · exact h.placed q (others_subset node hq)
  · exact (hput.flatMap_right _).trans (by rw [List.flatMap_cons])

/-- **`pop_idle`.**  It takes connections from the queue of the node, at least one if there is a
queue, and hands out one of them or none. -/
structure Popped (home : T → ν) (g g' : Inner ν T) (found : Option T) : Prop where
  wf : g'.WF home
  inUse_eq : g'.inUse = g.inUse
  conns_perm : ∃ dropped, g.conns.Perm (found.toList ++ dropped ++ g'.conns)

omit [DecidableEq ν] in
lemma Popped.idleCount_le {g' : Inner ν T} {found : Option T} (h : g.WF home)
    (hp : Popped home g g' found) : g'.idleCount + found.toList.length ≤ g.idleCount := by
  obtain ⟨dropped, hd⟩ := hp.conns_perm
  rw [h.count_eq, hp.wf.count_eq, hd.length_eq, List.length_append, List.length_append]
  omega

lemma popIdle_spec (h : g.WF home) (now : ℕ) (node : ν) :
    Popped home g (g.popIdle now node).1 (g.popIdle now node).2 ∧
    (∀ c ∈ (g.popIdle now node).2, home c = node) ∧
    (node ∈ Assoc.keys g.idle → (g.popIdle now node).1.idleCount < g.idleCount) := by
  obtain ⟨hcount, hconns, hhome⟩ := h.split node
  rw [popIdle]
  cases hq : g.idle.lookup node with
  | none =>
      refine ⟨⟨h, rfl, [], by simp⟩, by simp, fun hmem => ?_⟩
      obtain ⟨q, hqm, rfl⟩ := List.mem_map.mp hmem
      rw [(Assoc.mem_iff_lookup h.nodup).mp hqm] at hq
      cases hq
  | some slot =>
      have hslot : g.queue node = slot := by rw [queue, hq, Option.getD_some]
      rw [hslot] at hcount hconns hhome
      obtain ⟨dropped, rest, found, hloop, hparts, hless⟩ :=
        popLoop_spec now slot (show slot.length ≤ g.idleCount by omega)
      have hlen : rest.length < slot.length :=
        hless (h.queues _ ((Assoc.mem_iff_lookup h.nodup).mpr hq))
      have hfound : ∀ c ∈ found.map Prod.snd, home c = node := by
        intro c hc
        obtain ⟨x, hx, rfl⟩ := Option.map_eq_some_iff.mp hc
        refine hhome x ?_
        rw [hparts, hx]
        simp
      have htaken : (slot.map Prod.snd).Perm
          ((found.map Prod.snd).toList ++ dropped.map Prod.snd ++ rest.map Prod.snd) := by
        rw [hparts, List.map_append, List.map_append, Option.toList_map]
        exact List.perm_append_comm.append_right _
      simp only [hloop]
      refine ⟨?_, hfound, fun _ => by omega⟩
      by_cases hrest : rest = []
      · subst hrest
        rw [List.isEmpty_nil, if_pos rfl]
        refine ⟨⟨Assoc.nodup_erase h.nodup, fun q hq => h.queues q (others_subset node hq), ?_,
          fun q hq => h.placed q (others_subset node hq), h.exact⟩, rfl, dropped.map Prod.snd, ?_⟩
        · rw [List.length_nil, Nat.sub_zero, hcount, Nat.add_sub_cancel_left, others]
        · rw [List.map_nil, List.append_nil] at htaken
          exact hconns.trans (htaken.append_right _)
      · rw [List.isEmpty_eq_false_iff.mpr hrest, if_neg (by simp)]
        obtain ⟨hwf, hput⟩ := h.put node rest (g.idleCount - (slot.length - rest.length)) g.inUse
          hrest (by omega) (fun x hx => hhome x (hparts ▸ List.mem_append_right _ hx))
        refine ⟨hwf, rfl, dropped.map Prod.snd, ?_⟩
        refine (hconns.trans (htaken.append_right _)).trans ?_
        rw [List.append_assoc]
        exact hput.symm.append_left _

/-- `evict_one_idle` makes room if there is any to be made. -/
lemma evictOneIdle_spec (h : g.WF home) (now : ℕ) (order : Assoc.IterOrder ν) :
    Popped home g (g.evictOneIdle now order).1 (g.evictOneIdle now order).2 ∧
    (0 < g.idleCount → (g.evictOneIdle now order).1.idleCount < g.idleCount) := by
  have hperm := order.perm (Assoc.keys g.idle)
  rw [evictOneIdle]
  cases hv : order.visit (Assoc.keys g.idle) with
  | nil =>
      rw [hv] at hperm
      have hnil : g.idle = [] := by simpa [Assoc.keys] using hperm.symm.eq_nil
      refine ⟨⟨h, rfl, [], by simp⟩, fun hpos => ?_⟩
      rw [h.count, hnil] at hpos
      simp at hpos
  | cons key l =>
      have hmem : key ∈ Assoc.keys g.idle := by
        rw [← hperm.mem_iff, hv]
        exact List.mem_cons_self
      obtain ⟨hp, -, hless⟩ := popIdle_spec h now key
      exact ⟨hp, fun _ => hless hmem⟩

lemma pushIdle_spec (h : g.WF home) (now : ℕ) (node : ν) {c : T} (hc : home c = node) :
    (g.pushIdle now node c).WF home ∧ (g.pushIdle now node c).conns.Perm (c :: g.conns) := by
  obtain ⟨hcount, hconns, hhome⟩ := h.split node
  obtain ⟨hwf, hput⟩ := h.put node (g.queue node ++ [(now, c)]) (g.idleCount + 1) g.inUse
    (by simp) (by rw [hcount, List.length_append, List.length_singleton]; omega)
    (fun x hx => by
      rcases List.mem_append.mp hx with hx | hx
      · exact hhome x hx
      · rw [List.mem_singleton.mp hx]
        exact hc)
  refine ⟨hwf, hput.trans ?_⟩
  rw [List.map_append, List.append_assoc]
  exact List.perm_middle.trans (hconns.symm.cons c)

end Inner

/-- The connection that a checkout hands out. -/
def Checkout.taken : Checkout T → List T
  | .reuse conn => [conn]
  | .dial => []
  | .wait => []

/-- How many places a checkout takes. -/
def Checkout.used : Checkout T → ℕ
  | .reuse _ => 1
  | .dial => 1
  | .wait => 0

/-- **A round of `checkout`.**  The cap holds after it if it held before. -/
lemma Inner.checkout_spec [DecidableEq ν] {home : T → ν} {g : Inner ν T} {max : ℕ}
    (h : g.WF home) (hcap : g.inUse + g.idleCount ≤ max) (now : ℕ) (order : Assoc.IterOrder ν)
    (node : ν) {g' : Inner ν T} {action : Checkout T}
    (hrun : g.checkout now max order node = (g', action)) :
    g'.WF home ∧ g'.inUse = g.inUse + action.used ∧ g'.inUse + g'.idleCount ≤ max ∧
    (∀ c ∈ action.taken, home c = node) ∧
    ∃ dropped, g.conns.Perm (action.taken ++ dropped ++ g'.conns) := by
  obtain ⟨hp, hhome, -⟩ := popIdle_spec h now node
  have hle := hp.idleCount_le h
  obtain ⟨dropped, hperm⟩ := hp.conns_perm
  have hin := hp.inUse_eq
  rw [checkout] at hrun
  rcases hpop : g.popIdle now node with ⟨g₁, found⟩
  simp only [hpop] at hp hhome hle hperm hin hrun
  cases found with
  | some conn =>
      cases hrun
      refine ⟨hp.wf.withInUse _, by simp [Checkout.used, hin], ?_, ?_, dropped, hperm⟩
      · simp only [Option.toList_some, List.length_singleton] at hle ⊢
        omega
      · intro c hc
        rw [Checkout.taken, List.mem_singleton] at hc
        exact hhome c (by rw [hc]; rfl)
  | none =>
      rw [Option.toList_none, List.length_nil, Nat.add_zero] at hle
      rw [Option.toList_none, List.nil_append] at hperm
      simp only at hrun
      by_cases hroom : g₁.inUse < max
      · rw [if_pos hroom] at hrun
        obtain ⟨he, hless⟩ := evictOneIdle_spec hp.wf now order
        have hle₁ := he.idleCount_le hp.wf
        obtain ⟨evicted, heperm⟩ := he.conns_perm
        by_cases hfull : g₁.inUse + g₁.idleCount ≥ max
        · rw [if_pos hfull] at hrun
          cases hrun
          refine ⟨he.wf.withInUse _, by simp [Checkout.used, he.inUse_eq, hin], ?_,
            by simp [Checkout.taken], ?_⟩
          · have := hless (by omega)
            simp only [he.inUse_eq]
            omega
          · refine ⟨dropped ++ ((g₁.evictOneIdle now order).2.toList ++ evicted), hperm.trans ?_⟩
            rw [Checkout.taken, List.nil_append, List.append_assoc]
            exact heperm.append_left _
        · rw [if_neg hfull] at hrun
          cases hrun
          refine ⟨hp.wf.withInUse _, by simp [Checkout.used, hin], ?_, by simp [Checkout.taken],
            dropped, by simpa [Checkout.taken, conns] using hperm⟩
          simp only
          omega
      · rw [if_neg hroom] at hrun
        cases hrun
        exact ⟨hp.wf, by simp [Checkout.used, hin], by omega, by simp [Checkout.taken], dropped,
          by simpa [Checkout.taken] using hperm⟩

/-! ## The invariant

The counts are the lengths of what they count.  A subtraction would saturate only if they were not,
so it never does.
-/

namespace World

variable {w : World ν T}

/-- The connections that the live guards hold. -/
def handedOut (w : World ν T) : List (Dialed ν T) := w.guards.filterMap Pooled.conn

/-- The connections that are there. -/
def live (w : World ν T) : List (Dialed ν T) := w.pool.inner.conns ++ w.handedOut

/-- **The accounts of the pool.**

* `idle`: no queue is empty, `idle_count` is the total length of the queues, each idle connection
  lies in the queue of the node that was dialed for it, and no subtraction saturated.
* `inUse_eq`: `in_use` is the number of live guards.
* `cap`: idle connections and guards together stay within the maximum.
* `armed`, `held`: a slot that is alive will give its place back, and a guard that is alive has a
  connection, dialed for the node of the guard.
* `single`: no connection is there twice, idle or handed out. -/
structure Accounted (w : World ν T) : Prop where
  idle : w.pool.inner.WF Dialed.node
  inUse_eq : w.pool.inner.inUse = w.slots.length + w.guards.length
  cap : w.pool.inner.inUse + w.pool.inner.idleCount ≤ w.pool.max
  armed : ∀ s ∈ w.slots, s.armed = true
  held : ∀ g ∈ w.guards, ∃ c, g.conn = some c ∧ c.node = g.node
  single : (w.live.map Dialed.serial).Nodup
  fresh : ∀ c ∈ w.live, c.serial < w.dials

lemma accounted_new (config : PoolConfig) : (new config : World ν T).Accounted where
  idle := ⟨List.nodup_nil, by simp [new, PoolInner.new], rfl, by simp [new, PoolInner.new], rfl⟩
  inUse_eq := rfl
  cap := Nat.zero_le _
  armed := by simp [new]
  held := by simp [new]
  single := List.nodup_nil
  fresh := by simp [new, live, handedOut, PoolInner.new, Inner.conns]

/-- Connections may go, and the others stay single. -/
lemma Accounted.of_dropped (h : w.Accounted) {dropped l : List (Dialed ν T)}
    (hperm : w.live.Perm (dropped ++ l)) :
    (l.map Dialed.serial).Nodup ∧ ∀ c ∈ l, c.serial < w.dials := by
  constructor
  · have hnodup := (hperm.map Dialed.serial).nodup_iff.mp h.single
    rw [List.map_append] at hnodup
    exact hnodup.of_append_right
  · intro c hc
    exact h.fresh c (hperm.mem_iff.mpr (List.mem_append_right _ hc))

/-- The bookkeeping does not look at who waits. -/
lemma Accounted.withNotify (h : w.Accounted) (n : Notify ν) :
    Accounted { w with pool := { w.pool with notify := n } } :=
  ⟨h.idle, h.inUse_eq, h.cap, h.armed, h.held, h.single, h.fresh⟩

variable [DecidableEq ν]

lemma Accounted.poll (h : w.Accounted) (node : ν) (order : Assoc.IterOrder ν) :
    (w.poll node order).Accounted := by
  rcases hrun : w.pool.inner.checkout w.now w.pool.max order node with ⟨inner, action⟩
  obtain ⟨hwf, hin, hcap, hhome, dropped, hperm⟩ :=
    Inner.checkout_spec h.idle h.cap w.now order node hrun
  rw [World.poll, hrun]
  cases action with
  | reuse conn =>
      have hlive : w.live.Perm (dropped ++ (inner.conns ++ (w.handedOut ++ [conn]))) := by
        rw [live]
        refine (hperm.append_right _).trans ?_
        rw [Checkout.taken, List.append_assoc, List.append_assoc, List.singleton_append,
          ← List.append_assoc, ← List.append_assoc, ← List.append_assoc]
        exact (List.perm_append_singleton conn _).symm
      have hnew : World.live { w with
          pool := { w.pool with inner := inner }
          guards := w.guards ++ [⟨some conn, node, true⟩] }
          = inner.conns ++ (w.handedOut ++ [conn]) := by
        simp [live, handedOut]
      rw [← hnew] at hlive
      obtain ⟨hsingle, hfresh⟩ := h.of_dropped hlive
      refine ⟨hwf, ?_, hcap, h.armed, ?_, hsingle, hfresh⟩
      · simp only [Slot.new, Slot.intoPooled, Slot.drop]
        rw [List.length_append]
        simp only [Checkout.used] at hin
        simpa [h.inUse_eq, Nat.add_assoc] using hin
      · intro g hg
        rcases List.mem_append.mp hg with hg | hg
        · exact h.held g hg
        · rw [List.mem_singleton.mp hg]
          exact ⟨conn, rfl, hhome conn (by simp [Checkout.taken])⟩
  | dial =>
      have hlive : w.live.Perm (dropped ++ (inner.conns ++ w.handedOut)) := by
        rw [live, ← List.append_assoc]
        exact hperm.append_right _
      obtain ⟨hsingle, hfresh⟩ := h.of_dropped hlive
      refine ⟨hwf, ?_, hcap, ?_, h.held, hsingle, hfresh⟩
      · simp only [List.length_append, List.length_singleton, hin, Checkout.used, h.inUse_eq]
        omega
      · intro s hs
        rcases List.mem_append.mp hs with hs | hs
        · exact h.armed s hs
        · rw [List.mem_singleton.mp hs, Slot.new]
  | wait =>
      have hlive : w.live.Perm (dropped ++ (inner.conns ++ w.handedOut)) := by
        rw [live, ← List.append_assoc]
        exact hperm.append_right _
      obtain ⟨hsingle, hfresh⟩ := h.of_dropped hlive
      exact ⟨hwf, hin.trans h.inUse_eq, hcap, h.armed, h.held, hsingle, hfresh⟩

omit [DecidableEq ν] in
/-- What a slot that is alive takes with it. -/
lemma Accounted.dropSlot (h : w.Accounted) (i : ℕ) : (w.dropSlot i).Accounted := by
  rw [World.dropSlot]
  cases hs : w.slots[i]? with
  | none => exact h
  | some slot =>
      obtain ⟨hi, hget⟩ := List.getElem?_eq_some_iff.mp hs
      have harmed : slot.armed = true := h.armed slot (hget ▸ List.getElem_mem hi)
      have hpos : w.pool.inner.inUse ≠ 0 := by
        rw [h.inUse_eq]
        omega
      have hdec := Inner.decInUse_of_ne hpos
      simp only [Slot.drop, harmed, hdec, Bool.not_true, Bool.false_eq_true, if_false]
      refine ⟨h.idle.withInUse _, ?_, ?_, ?_, h.held, h.single, h.fresh⟩
      · simp only [List.length_eraseIdx_of_lt hi, h.inUse_eq]
        omega
      · have hcap := h.cap
        simp only
        omega
      · exact fun s hs => h.armed s (List.mem_of_mem_eraseIdx hs)

/-- A dial that made a connection turns its slot into a guard. -/
lemma Accounted.dialed (h : w.Accounted) (i : ℕ) (conn : T) :
    (w.step (.dialed i conn)).Accounted := by
  rw [step]
  cases hs : w.slots[i]? with
  | none => exact h
  | some slot =>
      obtain ⟨hi, -⟩ := List.getElem?_eq_some_iff.mp hs
      have hlive : World.live { w with
          dials := w.dials + 1
          slots := w.slots.eraseIdx i
          guards := w.guards ++ [⟨some ⟨w.dials, slot.node, conn⟩, slot.node, true⟩] }
          = w.live ++ [⟨w.dials, slot.node, conn⟩] := by
        simp [live, handedOut]
      refine ⟨h.idle, ?_, h.cap, ?_, ?_, ?_, ?_⟩
      · simp only [Slot.intoPooled, Slot.drop, Bool.not_false, if_true, h.inUse_eq,
          List.length_eraseIdx_of_lt hi, List.length_append, List.length_singleton]
        omega
      · exact fun s hs => h.armed s (List.mem_of_mem_eraseIdx hs)
      · intro g hg
        rcases List.mem_append.mp hg with hg | hg
        · exact h.held g hg
        · rw [List.mem_singleton.mp hg]
          exact ⟨_, rfl, rfl⟩
      · refine (congrArg (fun l => (l.map Dialed.serial).Nodup) hlive).mpr ?_
        rw [List.map_append, List.nodup_append]
        refine ⟨h.single, List.nodup_singleton _, ?_⟩
        intro a ha b hb
        obtain ⟨c, hc, rfl⟩ := List.mem_map.mp ha
        rw [List.map_singleton, List.mem_singleton] at hb
        exact hb ▸ Nat.ne_of_lt (h.fresh c hc)
      · refine (congrArg (fun l => ∀ c ∈ l, c.serial < w.dials + 1) hlive).mpr ?_
        intro c hc
        rcases List.mem_append.mp hc with hc | hc
        · exact Nat.lt_succ_of_lt (h.fresh c hc)
        · rw [List.mem_singleton.mp hc]
          exact Nat.lt_succ_self _

/-- A guard that is dropped gives its place back, and its connection if it is to be recycled. -/
lemma Accounted.dropGuard (h : w.Accounted) (i : ℕ) : (w.step (.dropGuard i)).Accounted := by
  rw [step]
  cases hg : w.guards[i]? with
  | none => exact h
  | some guard =>
      obtain ⟨hi, hget⟩ := List.getElem?_eq_some_iff.mp hg
      obtain ⟨c, hc, hnode⟩ := h.held guard (hget ▸ List.getElem_mem hi)
      have hpos : w.pool.inner.inUse ≠ 0 := by
        rw [h.inUse_eq]
        omega
      have hdec := Inner.decInUse_of_ne hpos
      have hlen : (w.guards.eraseIdx i).length = w.guards.length - 1 :=
        List.length_eraseIdx_of_lt hi
      have hcap := h.cap
      have hin := h.inUse_eq
      -- the connections of the guards, the dropped one in front
      have hhanded : w.handedOut.Perm (c :: (w.guards.eraseIdx i).filterMap Pooled.conn) := by
        rw [handedOut]
        refine ((List.getElem_cons_eraseIdx_perm hi).symm.filterMap _).trans ?_
        rw [hget, List.filterMap_cons_some hc]
      have hheld : ∀ g ∈ w.guards.eraseIdx i, ∃ c, g.conn = some c ∧ c.node = g.node :=
        fun g hg => h.held g (List.mem_of_mem_eraseIdx hg)
      simp only [Pooled.drop, hc, hdec]
      by_cases hrec : guard.recycle
      · obtain ⟨hwf, hperm⟩ := Inner.pushIdle_spec (h.idle.withInUse (w.pool.inner.inUse - 1))
          w.now guard.node hnode
        have hlive : w.live.Perm ([] ++ (Inner.conns (Inner.pushIdle w.now guard.node c
            { w.pool.inner with inUse := w.pool.inner.inUse - 1 })
            ++ (w.guards.eraseIdx i).filterMap Pooled.conn)) := by
          rw [live, List.nil_append]
          refine (hhanded.append_left _).trans (List.perm_middle.trans ?_)
          exact (hperm.append_right _).symm
        obtain ⟨hsingle, hfresh⟩ := h.of_dropped hlive
        simp only [hrec, if_true]
        refine ⟨hwf, ?_, ?_, h.armed, hheld, hsingle, hfresh⟩
        · simp only [Inner.pushIdle]
          omega
        · simp only [Inner.pushIdle]
          omega
      · have hlive : w.live.Perm ([c] ++ (w.pool.inner.conns
            ++ (w.guards.eraseIdx i).filterMap Pooled.conn)) := by
          rw [live]
          exact (hhanded.append_left _).trans List.perm_middle
        obtain ⟨hsingle, hfresh⟩ := h.of_dropped hlive
        simp only [hrec, Bool.false_eq_true, if_false]
        refine ⟨h.idle.withInUse _, ?_, ?_, h.armed, hheld, hsingle, hfresh⟩
        · simp only
          omega
        · simp only
          omega

lemma Accounted.skipRecycle (h : w.Accounted) (i : ℕ) : (w.step (.skipRecycle i)).Accounted := by
  have hconns : (w.guards.modify i Pooled.skipRecycle).filterMap Pooled.conn = w.handedOut := by
    rw [handedOut]
    generalize w.guards = l
    induction l generalizing i with
    | nil => simp
    | cons g l ih =>
        cases i with
        | zero => simp [List.modify_cons, Pooled.skipRecycle, List.filterMap_cons]
        | succ i => simp [List.filterMap_cons, ih i]
  have hlive : (w.step (.skipRecycle i)).live = w.live := by
    rw [step, live, live, handedOut, hconns]
  refine ⟨h.idle, ?_, h.cap, h.armed, ?_, ?_, ?_⟩
  · rw [step, List.length_modify]
    exact h.inUse_eq
  · intro g hg
    rw [step] at hg
    obtain ⟨j, hj⟩ := List.getElem?_of_mem hg
    rw [List.getElem?_modify] at hj
    obtain ⟨g', hg', rfl⟩ := Option.map_eq_some_iff.mp hj
    obtain ⟨c, hc, hnode⟩ := h.held g' (List.mem_of_getElem? hg')
    refine ⟨c, ?_, ?_⟩ <;> split_ifs <;> assumption
  · rw [hlive]
    exact h.single
  · rw [hlive]
    exact h.fresh

/-- **One step.** -/
lemma Accounted.step (h : w.Accounted) (e : Event ν T) : (w.step e).Accounted := by
  cases e with
  | checkout node order => exact h.poll node order
  | wake i order =>
      rw [World.step]
      split
      · exact (h.withNotify _).poll _ order
      · exact h
  | abandonWait i =>
      rw [World.step]
      split
      · exact h.withNotify _
      · exact h
  | dialed i conn => exact h.dialed i conn
  | dialFailed i => exact h.dropSlot i
  | dialCancelled i => exact h.dropSlot i
  | skipRecycle i => exact h.skipRecycle i
  | dropGuard i => exact h.dropGuard i
  | advance elapsed =>
      exact ⟨h.idle, h.inUse_eq, h.cap, h.armed, h.held, h.single, h.fresh⟩

/-- **The accounts hold in every state of every run**: whatever the tasks do, in any order. -/
theorem accounted_run (config : PoolConfig) (events : List (Event ν T)) :
    ((new config : World ν T).run events).Accounted := by
  have hrun : ∀ w : World ν T, w.Accounted → (w.run events).Accounted := by
    induction events with
    | nil => exact fun w h => h
    | cons e events ih => exact fun w h => ih (w.step e) (h.step e)
  exact hrun _ (accounted_new config)

end World

end Storj.Pool
