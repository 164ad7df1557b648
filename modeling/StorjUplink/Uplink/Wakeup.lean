import StorjUplink.Uplink.Pool

/-!
# Waiting for a connection

A checkout that finds the pool full lets go of the lock and then polls `notified`, and a guard that
is dropped lets go of the lock and then calls `notify_one`.  `Tasks` lets anything happen in
between: each lock section, each `notify_one` and each first poll of `notified` is a step of its
own (`Tasks.step`), so that a list of actions is an interleaving of any number of checkouts and
releases.  Where nothing comes in between, the two steps of a drop are `Pooled::drop`
(`run_dropGuard`) and `Slot::drop` (`run_dropSlot`), which the accounting of the pool takes as one.

A notification that finds nobody registered is stored, and a second one then changes nothing.  When
two checkouts have seen a full pool and two guards are dropped before either of them polls
`notified`, one of them stays parked beside a free slot (`parked_beside_free_slot`).  A run in
which no notification is lost that way keeps as many wake-ups outstanding as there are free slots
(`Tasks.Awake`), and nobody is forgotten in it (`no_lost_wakeup`).
-/

namespace Storj.Pool

variable {ν T : Type}

/-! ## The steps

A section under the lock, a call of `notify_one` and a poll of `notified` are steps of their own,
and those of different tasks may interleave in any way.
-/

/-- The first poll of `notified`: it takes a stored permit, or the waiter is registered.  The answer
is whether the wait is over. -/
def Notify.firstPoll (node : ν) (n : Notify ν) : Notify ν × Bool :=
  if n.permit then ({ n with permit := false }, true)
  else ({ n with waiters := n.waiters ++ [⟨node, false⟩] }, false)

/-- The lock section of `Pooled::drop`, for a guard that holds a connection. -/
def Pooled.release [DecidableEq ν] (now : ℕ) (g : Pooled ν T) (conn : T) (inner : Inner ν T) :
    Inner ν T :=
  if g.recycle then inner.decInUse.pushIdle now g.node conn else inner.decInUse

/-- The pool and its tasks.  Of the checkouts, some have seen a full pool and not polled `notified`
yet (`deciding`), some have been resumed and not looked at the pool again (`resumed`) and some dial
(`slots`); of the guards that were dropped, `releasing` have not called `notify_one` yet. -/
structure Tasks (ν T : Type) where
  pool : PoolInner ν T
  now : ℕ
  deciding : List ν
  resumed : List ν
  slots : List (Slot ν)
  guards : List (Pooled ν T)
  releasing : ℕ

/-- What a task may do next.  A number picks the task. -/
inductive Action (ν T : Type) where
  | checkout (node : ν) (order : Assoc.IterOrder ν)
  | recheck (i : ℕ) (order : Assoc.IterOrder ν)
  | firstPoll (i : ℕ)
  | resume (i : ℕ)
  | abandonWait (i : ℕ)
  | dialed (i : ℕ) (conn : T)
  | dropSlot (i : ℕ)
  | skipRecycle (i : ℕ)
  | dropGuard (i : ℕ)
  | notifyOne
  | advance (elapsed : ℕ)

namespace Tasks

/-- A new pool. -/
def new (config : PoolConfig) : Tasks ν T := ⟨.new config, 0, [], [], [], [], 0⟩

/-- A slot is dropped: the lock section of `Slot::drop`. -/
def unslot (w : Tasks ν T) (slot : Slot ν) : Tasks ν T :=
  if !slot.armed then w
  else
    { w with
      pool := { w.pool with inner := w.pool.inner.decInUse }
      releasing := w.releasing + 1 }

/-- `notify_one`. -/
def notify (w : Tasks ν T) : Tasks ν T :=
  { w with pool := { w.pool with notify := w.pool.notify.notifyOne } }

variable [DecidableEq ν]

/-- The lock section of a round of `ConnectionPool::checkout`.  A task that has to wait has not
parked yet when the section ends, and that gap is what the step relation makes visible. -/
def look (w : Tasks ν T) (node : ν) (order : Assoc.IterOrder ν) : Tasks ν T :=
  match w.pool.inner.checkout w.now w.pool.max order node with
  | (inner, .reuse conn) =>
      let (slot, guard) := (Slot.new node).intoPooled conn
      { w with pool := { w.pool with inner }, guards := w.guards ++ [guard] }.unslot slot
  | (inner, .dial) =>
      { w with pool := { w.pool with inner }, slots := w.slots ++ [Slot.new node] }
  | (inner, .wait) =>
      { w with pool := { w.pool with inner }, deciding := w.deciding ++ [node] }

/-- One step.  An action that picks nothing does nothing.  A checkout goes from the lock to the
first poll, and from being resumed back to the lock, without giving up control, so that it can be
abandoned only while it is registered. -/
def step (w : Tasks ν T) : Action ν T → Tasks ν T
  | .checkout node order => w.look node order
  | .recheck i order =>
      match w.resumed[i]? with
      | some node => { w with resumed := w.resumed.eraseIdx i }.look node order
      | none => w
  | .firstPoll i =>
      match w.deciding[i]? with
      | some node =>
          let (notify, ended) := w.pool.notify.firstPoll node
          { w with
            pool := { w.pool with notify }
            deciding := w.deciding.eraseIdx i
            resumed := if ended then w.resumed ++ [node] else w.resumed }
      | none => w
  | .resume i =>
      match w.pool.notify.waiters[i]? with
      | some ⟨node, true⟩ =>
          let notify := { w.pool.notify with waiters := w.pool.notify.waiters.eraseIdx i }
          { w with pool := { w.pool with notify }, resumed := w.resumed ++ [node] }
      | _ => w
  | .abandonWait i =>
      match w.pool.notify.waiters[i]? with
      | some waiter =>
          let notify := { w.pool.notify with waiters := w.pool.notify.waiters.eraseIdx i }
          let w := { w with pool := { w.pool with notify } }
          -- a notification that was not used goes to the next waiter
          if waiter.notified then w.notify else w
      | none => w
  | .dialed i conn =>
      match w.slots[i]? with
      | some slot =>
          let (slot, guard) := slot.intoPooled conn
          { w with slots := w.slots.eraseIdx i, guards := w.guards ++ [guard] }.unslot slot
      | none => w
  | .dropSlot i =>
      match w.slots[i]? with
      | some slot => { w with slots := w.slots.eraseIdx i }.unslot slot
      | none => w
  | .skipRecycle i => { w with guards := w.guards.modify i Pooled.skipRecycle }
  | .dropGuard i =>
      match w.guards[i]? with
      | some ⟨some conn, node, recycle⟩ =>
          let inner := Pooled.release w.now ⟨some conn, node, recycle⟩ conn w.pool.inner
          { w with
            pool := { w.pool with inner }
            guards := w.guards.eraseIdx i
            releasing := w.releasing + 1 }
      | _ => w
  | .notifyOne =>
      if w.releasing = 0 then w else { w with releasing := w.releasing - 1 }.notify
  | .advance elapsed => { w with now := w.now + elapsed }

/-- The state after a list of actions. -/
def run (w : Tasks ν T) (actions : List (Action ν T)) : Tasks ν T := actions.foldl step w

/-- **A guard that is dropped with nothing in between** changes the pool as `Pooled::drop` does. -/
theorem run_dropGuard {w : Tasks ν T} {i : ℕ} {guard : Pooled ν T} (hguard : w.guards[i]? = some guard)
    (hconn : guard.conn ≠ none) :
    (w.run [.dropGuard i, .notifyOne]).pool = guard.drop w.now w.pool := by
  obtain ⟨conn, node, recycle⟩ := guard
  cases conn with
  | none => exact absurd rfl hconn
  | some conn => simp [run, step, hguard, notify, Pooled.drop, Pooled.release]

/-- So does a slot that is dropped, as `Slot::drop`. -/
theorem run_dropSlot {w : Tasks ν T} {i : ℕ} {slot : Slot ν} (hslot : w.slots[i]? = some slot)
    (harmed : slot.armed) : (w.run [.dropSlot i, .notifyOne]).pool = slot.drop w.pool := by
  simp [run, step, hslot, unslot, harmed, notify, Slot.drop]

/-! ## Wake-ups

A wake-up is a stored permit, a task that was notified and has not looked yet, or a notification
that is still to be made.
-/

/-- The checkouts that wait and were not notified. -/
def parked (w : Tasks ν T) : ℕ := w.pool.notify.waiters.countP fun waiter => !waiter.notified

/-- The checkouts that were woken or resumed and have yet to look at the pool again. -/
def woken (w : Tasks ν T) : ℕ := w.pool.notify.waiters.countP (·.notified) + w.resumed.length

/-- A stored permit, as a number. -/
def permits (w : Tasks ν T) : ℕ := w.pool.notify.permit.toNat

/-- The slots that are free. -/
def free (w : Tasks ν T) : ℕ := w.pool.max - w.pool.inner.inUse

/-- **A lost wake-up**: a checkout is parked although a slot is free, and there is neither a stored
permit nor a checkout that was woken and has yet to look. -/
def LostWakeup (w : Tasks ν T) : Prop :=
  0 < w.parked ∧ w.pool.inner.inUse < w.pool.max ∧ w.permits = 0 ∧ w.woken = 0

instance (w : Tasks ν T) : Decidable w.LostWakeup :=
  inferInstanceAs (Decidable (_ ∧ _ ∧ _ ∧ _))

/-- The wake-ups under way: the permit, who was woken, and the releases that have yet to notify. -/
def outstanding (w : Tasks ν T) : ℕ := w.permits + w.woken + w.releasing

/-- A notification changes nothing: nobody is parked and a permit is stored. -/
def Coalesces (w : Tasks ν T) : Prop := w.parked = 0 ∧ w.permits = 1

/-- A notification that changes nothing is not missed: at most one checkout has yet to register,
which the permit is for, or more wake-ups are under way than slots are free. -/
def Spare (w : Tasks ν T) : Prop :=
  w.Coalesces → w.deciding.length ≤ 1 ∨ w.free < w.outstanding

instance (w : Tasks ν T) : Decidable w.Spare :=
  inferInstanceAs (Decidable (_ ∧ _ → _ ∨ _))

/-- **The condition on a step**: it notifies, for a release or for a waiter that goes away, only
where the notification is not missed. -/
def Keeps (w : Tasks ν T) : Action ν T → Prop
  | .notifyOne => 0 < w.releasing → w.Spare
  | .abandonWait i => w.pool.notify.waiters[i]?.any (·.notified) = true → w.Spare
  | _ => True

instance (w : Tasks ν T) : (a : Action ν T) → Decidable (w.Keeps a)
  | .notifyOne => inferInstanceAs (Decidable (_ → w.Spare))
  | .abandonWait _ => inferInstanceAs (Decidable (_ → w.Spare))
  | .checkout _ _ | .recheck _ _ | .firstPoll _ | .resume _ | .dialed _ _ | .dropSlot _
  | .skipRecycle _ | .dropGuard _ | .advance _ => .isTrue trivial

/-- Every step of a run meets the condition. -/
def RunKeeps : Tasks ν T → List (Action ν T) → Prop
  | _, [] => True
  | w, a :: l => w.Keeps a ∧ RunKeeps (w.step a) l

instance RunKeeps.instDecidable : ∀ (w : Tasks ν T) (l : List (Action ν T)),
    Decidable (w.RunKeeps l)
  | _, [] => .isTrue trivial
  | w, a :: l => @instDecidableAnd _ _ _ (RunKeeps.instDecidable (w.step a) l)

end Tasks

/-! ## What a lock section does to the count

Taking a slot uses a wake-up up or finds one to spare; freeing one owes one.
-/

namespace Inner

variable {g : Inner ν T}

lemma popLoop_inUse (now : ℕ) (slot : List (ℕ × T)) : (g.popLoop now slot).1.inUse = g.inUse := by
  induction slot generalizing g with
  | nil => rfl
  | cons x slot ih =>
      rw [popLoop]
      split_ifs
      · rfl
      · exact ih

variable [DecidableEq ν]

lemma popIdle_inUse (now : ℕ) (node : ν) : (g.popIdle now node).1.inUse = g.inUse := by
  rw [popIdle]
  split
  · rfl
  · exact popLoop_inUse now _

lemma evictOneIdle_inUse (now : ℕ) (order : Assoc.IterOrder ν) :
    (g.evictOneIdle now order).1.inUse = g.inUse := by
  rw [evictOneIdle]
  split
  · rfl
  · exact popIdle_inUse now _

/-- A round of `checkout` takes one slot, or none where no slot is free. -/
lemma checkout_inUse (now max : ℕ) (order : Assoc.IterOrder ν) (node : ν) :
    (g.checkout now max order node).1.inUse
        = g.inUse + (g.checkout now max order node).2.used ∧
      ((g.checkout now max order node).2 = .wait → max ≤ g.inUse) := by
  have hpop := popIdle_inUse (g := g) now node
  rw [checkout]
  cases hg : g.popIdle now node with
  | mk g' found =>
      rw [hg] at hpop
      simp only at hpop
      cases found with
      | some conn => exact ⟨congrArg (· + 1) hpop, by simp⟩
      | none =>
          simp only
          split_ifs with hfree hevict
          · exact ⟨congrArg (· + 1) ((evictOneIdle_inUse now order).trans hpop), by simp⟩
          · exact ⟨congrArg (· + 1) hpop, by simp⟩
          · exact ⟨hpop, fun _ => hpop ▸ Nat.le_of_not_lt hfree⟩

end Inner

lemma Pooled.release_inUse [DecidableEq ν] (now : ℕ) (g : Pooled ν T) (conn : T)
    (inner : Inner ν T) : (g.release now conn inner).inUse = inner.inUse - 1 := by
  rw [Pooled.release]
  split_ifs <;> rfl

/-- A notification wakes one waiter, unless all were notified. -/
lemma countP_notifyFirst : ∀ l : List (Waiter ν),
    match notifyFirst l with
    | none => l.countP (fun waiter => !waiter.notified) = 0
    | some l' =>
        l'.countP (fun waiter => !waiter.notified) + 1 = l.countP (fun waiter => !waiter.notified) ∧
          l'.countP (·.notified) = l.countP (·.notified) + 1
  | [] => rfl
  | ⟨node, true⟩ :: l => by
      have ih := countP_notifyFirst l
      rw [notifyFirst, if_pos rfl]
      cases hl : notifyFirst l with
      | none =>
          rw [hl] at ih
          simpa using ih
      | some l' =>
          rw [hl] at ih
          simpa using ih
  | ⟨node, false⟩ :: l => by
      rw [notifyFirst, if_neg nofun]
      simp

lemma countP_eraseIdx {α : Type} (p : α → Bool) {l : List α} {i : ℕ} {x : α}
    (h : l[i]? = some x) : (l.eraseIdx i).countP p + (p x).toNat = l.countP p := by
  obtain ⟨hi, rfl⟩ := List.getElem?_eq_some_iff.mp h
  rw [← (List.getElem_cons_eraseIdx_perm hi).countP_eq, List.countP_cons]
  cases p l[i] <;> rfl

/-! ## The invariant

The free slots are counted against the wake-ups that are under way.
-/

namespace Tasks

variable {w : Tasks ν T}

/-- All but the wake-ups under way and `missing` others: those who wait or are about to have a
permit for them, or a slot that is free has a wake-up. -/
structure Covered (missing : ℕ) (w : Tasks ν T) : Prop where
  served : w.deciding.length + w.parked ≤ w.permits ∨ w.free ≤ w.outstanding + missing
  stored : w.permits = 1 → w.parked = 0

/-- **The invariant**: every free slot has a wake-up under way, or nobody needs one. -/
abbrev Awake (w : Tasks ν T) : Prop := w.Covered 0

lemma permits_le (w : Tasks ν T) : w.permits ≤ 1 := Bool.toNat_le _

lemma awake_new (config : PoolConfig) : (new config : Tasks ν T).Awake where
  served := .inl (Nat.le_refl _)
  stored := nofun

/-- What is needed is as well covered as before, and what is free has as many wake-ups. -/
lemma Covered.of_le {w' : Tasks ν T} {m m' : ℕ} (h : w.Covered m)
    (hneed : w'.deciding.length + w'.parked + w.permits ≤ w.deciding.length + w.parked + w'.permits)
    (hfree : w'.free + (w.outstanding + m) ≤ w.free + (w'.outstanding + m'))
    (hstored : w'.permits = 1 → w'.parked = 0) : w'.Covered m' := by
  refine ⟨?_, hstored⟩
  rcases h.served with hserved | hcovered
  · left
    omega
  · right
    omega

/-- A drop of an armed slot or of a guard frees at most one slot, and will notify. -/
lemma Awake.release (h : w.Awake) {inner : Inner ν T}
    (hinner : inner.inUse = w.pool.inner.inUse - 1) (slots : List (Slot ν))
    (guards : List (Pooled ν T)) :
    Awake { w with pool := { w.pool with inner }, slots, guards, releasing := w.releasing + 1 } := by
  refine h.of_le (Nat.le_refl _) ?_ h.stored
  simp only [free, outstanding, permits, woken, hinner]
  omega

lemma Awake.unslot (h : w.Awake) (slot : Slot ν) : (w.unslot slot).Awake := by
  rw [Tasks.unslot]
  split_ifs
  · exact h
  · have hinner : w.pool.inner.decInUse.inUse = w.pool.inner.inUse - 1 := rfl
    exact h.release hinner w.slots w.guards

/-- **A notification** is one more wake-up, unless it changes nothing. -/
lemma Covered.notify (h : w.Covered 1)
    (hspare : w.Coalesces → w.deciding.length ≤ 1 ∨ w.free ≤ w.outstanding) : w.notify.Awake := by
  have hcount := countP_notifyFirst w.pool.notify.waiters
  have hle := w.permits_le
  obtain ⟨hserved, hstored⟩ := h
  cases hfirst : notifyFirst w.pool.notify.waiters with
  | some waiters =>
      -- One waiter is woken.
      rw [hfirst] at hcount
      have hnotify : w.notify = { w with pool := { w.pool with
          notify := { w.pool.notify with waiters := waiters } } } := by
        simp only [Tasks.notify, Notify.notifyOne, hfirst]
      rw [hnotify]
      constructor <;>
        simp only [parked, permits, free, outstanding, woken] at hserved hstored hle ⊢ <;> omega
  | none =>
      -- The permit is stored, and may have been before.
      rw [hfirst] at hcount
      have hnotify : w.notify = { w with pool := { w.pool with
          notify := { w.pool.notify with permit := true } } } := by
        simp only [Tasks.notify, Notify.notifyOne, hfirst]
      rw [hnotify]
      simp only [Coalesces, parked, permits, free, outstanding, woken] at hcount hserved hle hspare
      refine ⟨?_, fun _ => hcount⟩
      simp only [parked, permits, free, outstanding, woken, Bool.toNat_true]
      omega

variable [DecidableEq ν]

/-- **A round of `checkout`** takes a slot, so it makes up for one missing wake-up. -/
lemma Covered.look (h : w.Covered 1) (node : ν) (order : Assoc.IterOrder ν) :
    (w.look node order).Awake := by
  have hspec := w.pool.inner.checkout_inUse w.now w.pool.max order node
  obtain ⟨hserved, hstored⟩ := h
  have hfree : ∀ {inner : Inner ν T}, inner.inUse = w.pool.inner.inUse + 1 →
      w.deciding.length + w.parked ≤ w.permits ∨
        w.pool.max - inner.inUse ≤ w.outstanding := by
    intro inner hinner
    simp only [free] at hserved
    omega
  rw [Tasks.look]
  cases hround : w.pool.inner.checkout w.now w.pool.max order node with
  | mk inner action =>
      rw [hround] at hspec
      obtain ⟨hused, hwait⟩ := hspec
      cases action with
      | reuse conn => exact ⟨hfree hused, hstored⟩
      | dial => exact ⟨hfree hused, hstored⟩
      | wait =>
          -- No slot is free.
          refine ⟨.inr ?_, hstored⟩
          have hfull := hwait rfl
          simp only [free] at hused ⊢
          rw [hused, Nat.sub_eq_zero_of_le (Nat.le_add_right_of_le hfull)]
          exact Nat.zero_le _

omit [DecidableEq ν] in
/-- Taking one wake-up away leaves one missing. -/
lemma Awake.recheck (h : w.Awake) {i : ℕ} (hi : i < w.resumed.length) :
    Covered 1 { w with resumed := w.resumed.eraseIdx i } := by
  refine h.of_le (Nat.le_refl _) ?_ h.stored
  simp only [free, outstanding, permits, woken, List.length_eraseIdx_of_lt hi]
  omega

omit [DecidableEq ν] in
lemma Awake.weaken (h : w.Awake) : w.Covered 1 :=
  h.of_le (Nat.le_refl _) (by omega) h.stored

/-- **The first poll** takes the permit, or makes a checkout that was about to wait a parked one. -/
lemma Awake.firstPoll (h : w.Awake) (i : ℕ) : (w.step (.firstPoll i)).Awake := by
  rw [Tasks.step]
  split
  · next node hget =>
    obtain ⟨hi, -⟩ := List.getElem?_eq_some_iff.mp hget
    have hlen := List.length_eraseIdx_of_lt hi
    have hstored := h.stored
    cases hpermit : w.pool.notify.permit with
    | true =>
        simp only [Notify.firstPoll, hpermit, if_true]
        refine h.of_le ?_ ?_ nofun
        · simp only [parked, permits, hpermit, Bool.toNat_true, hlen]
          omega
        · simp only [free, outstanding, permits, woken, hpermit, Bool.toNat_true,
            Bool.toNat_false, List.length_append, List.length_singleton]
          omega
    | false =>
        simp only [Notify.firstPoll, hpermit, Bool.false_eq_true, if_false]
        refine h.of_le ?_ ?_ nofun
        · simp only [parked, permits, hpermit, List.countP_append, List.countP_singleton, hlen,
            Bool.not_false, if_true]
          omega
        · simp only [free, outstanding, permits, woken, hpermit, List.countP_append,
            List.countP_singleton, Bool.false_eq_true, if_false]
          omega
  · exact h

/-- A waiter that was notified is resumed. -/
lemma Awake.resume (h : w.Awake) (i : ℕ) : (w.step (.resume i)).Awake := by
  rw [Tasks.step]
  split
  · next node hget =>
    have hparked := countP_eraseIdx (fun waiter => !waiter.notified) hget
    have hwoken := countP_eraseIdx (·.notified) hget
    simp only [Bool.not_true, Bool.toNat_false, Bool.toNat_true] at hparked hwoken
    have hstored := h.stored
    simp only [permits, parked] at hstored
    refine h.of_le ?_ ?_ ?_
    · simp only [parked, permits]
      omega
    · simp only [free, outstanding, permits, woken, List.length_append, List.length_singleton]
      omega
    · simp only [parked, permits]
      omega
  · exact h

/-- A waiter that was notified hands the notification on when it goes away. -/
lemma Awake.abandonWait (h : w.Awake) {i : ℕ} (ha : w.Keeps (.abandonWait i)) :
    (w.step (.abandonWait i)).Awake := by
  rw [Tasks.step]
  split
  · next waiter hget =>
    obtain ⟨node, notified⟩ := waiter
    have hparked := countP_eraseIdx (fun waiter => !waiter.notified) hget
    have hwoken := countP_eraseIdx (·.notified) hget
    have hstored := h.stored
    simp only [permits, parked] at hstored
    cases notified with
    | false =>
        simp only [Bool.not_false, Bool.toNat_false, Bool.toNat_true] at hparked hwoken
        simp only [Bool.false_eq_true, if_false]
        refine h.of_le ?_ ?_ ?_
        · simp only [parked, permits]
          omega
        · simp only [free, outstanding, permits, woken]
          omega
        · simp only [parked, permits]
          omega
    | true =>
        simp only [Bool.not_true, Bool.toNat_false, Bool.toNat_true] at hparked hwoken
        simp only [if_true]
        refine Covered.notify (h.of_le ?_ ?_ ?_) ?_
        · simp only [parked, permits]
          omega
        · simp only [free, outstanding, permits, woken]
          omega
        · simp only [parked, permits]
          omega
        · have hspare := ha (by rw [hget]; rfl)
          simp only [Spare, Coalesces, parked, permits, free, outstanding, woken] at hspare ⊢
          omega
  · exact h

/-- A release notifies. -/
lemma Awake.notifyOne (h : w.Awake) (ha : w.Keeps .notifyOne) : (w.step .notifyOne).Awake := by
  rw [Tasks.step]
  split_ifs with hnone
  · exact h
  · refine Covered.notify (h.of_le (Nat.le_refl _) ?_ h.stored) ?_
    · simp only [free, outstanding, permits, woken]
      omega
    · have hspare := ha (Nat.pos_of_ne_zero hnone)
      simp only [Spare, Coalesces, parked, permits, free, outstanding, woken] at hspare ⊢
      omega

/-- **One step** keeps every free slot covered, if it meets the condition. -/
lemma Awake.step (h : w.Awake) {a : Action ν T} (ha : w.Keeps a) : (w.step a).Awake := by
  cases a with
  | checkout node order => exact h.weaken.look node order
  | recheck i order =>
      rw [Tasks.step]
      split
      · next node hget =>
        exact (h.recheck (List.getElem?_eq_some_iff.mp hget).1).look node order
      · exact h
  | firstPoll i => exact h.firstPoll i
  | resume i => exact h.resume i
  | abandonWait i => exact h.abandonWait ha
  | dialed i conn =>
      rw [Tasks.step]
      split
      · exact ⟨h.served, h.stored⟩
      · exact h
  | dropSlot i =>
      rw [Tasks.step]
      split
      · next slot hget =>
        exact Awake.unslot (w := { w with slots := w.slots.eraseIdx i }) ⟨h.served, h.stored⟩ slot
      · exact h
  | skipRecycle i => exact ⟨h.served, h.stored⟩
  | dropGuard i =>
      rw [Tasks.step]
      split
      · exact h.release (Pooled.release_inUse _ _ _ _) _ _
      · exact h
  | notifyOne => exact h.notifyOne ha
  | advance elapsed => exact ⟨h.served, h.stored⟩

/-- **A run** keeps every free slot covered, if its steps meet the condition. -/
lemma Awake.run {actions : List (Action ν T)} (h : w.Awake) (hkeeps : w.RunKeeps actions) :
    (w.run actions).Awake := by
  induction actions generalizing w with
  | nil => exact h
  | cons a actions ih => exact ih (h.step hkeeps.1) hkeeps.2

/-- **Nobody is forgotten** where no notification is missed: in every run whose steps meet the
condition, in every state in which no release is between its lock section and its `notify_one`. -/
theorem no_lost_wakeup (config : PoolConfig) {actions : List (Action ν T)}
    (hkeeps : (new config : Tasks ν T).RunKeeps actions)
    (hreleasing : ((new config : Tasks ν T).run actions).releasing = 0) :
    ¬ ((new config : Tasks ν T).run actions).LostWakeup := by
  rintro ⟨hparked, hfree, hpermits, hwoken⟩
  rcases ((awake_new config).run hkeeps).served with hserved | hcovered
  · omega
  · rw [outstanding, hpermits, hwoken, hreleasing, free] at hcovered
    omega

/-- Connections are visited as they are listed. -/
def listedFirst : Assoc.IterOrder ℕ := ⟨id, fun _ => .refl _⟩

/-- Three checkouts of a pool of two, and a release that wakes the third. -/
def wakesOne : List (Action ℕ Unit) :=
  [.checkout 1 listedFirst, .dialed 0 (), .checkout 2 listedFirst, .dialed 0 (),
    .checkout 3 listedFirst, .firstPoll 0, .dropGuard 0, .notifyOne, .resume 0]

theorem no_lost_wakeup_wakesOne :
    (new ⟨2, 10⟩ : Tasks ℕ Unit).RunKeeps wakesOne ∧
      ((new ⟨2, 10⟩ : Tasks ℕ Unit).run wakesOne).releasing = 0 ∧
      ¬ ((new ⟨2, 10⟩ : Tasks ℕ Unit).run wakesOne).LostWakeup :=
  ⟨by decide, by decide, no_lost_wakeup ⟨2, 10⟩ (by decide) (by decide)⟩

/-- Two connections of a pool of two go back while two checkouts that saw it full have not polled
`notified` yet. -/
def losesOne : List (Action ℕ Unit) :=
  [.checkout 1 listedFirst, .dialed 0 (), .checkout 2 listedFirst, .dialed 0 (),
    .checkout 3 listedFirst, .checkout 4 listedFirst, .dropGuard 0, .notifyOne, .dropGuard 0,
    .notifyOne, .firstPoll 0, .firstPoll 0, .recheck 0 listedFirst]

/-- The second checkout stays parked: a slot is free, there is no permit and nobody was woken, and
no release has yet to notify. -/
theorem parked_beside_free_slot :
    ((new ⟨2, 10⟩ : Tasks ℕ Unit).run losesOne).LostWakeup ∧
      ((new ⟨2, 10⟩ : Tasks ℕ Unit).run losesOne).releasing = 0 := by
  decide

end Tasks

end Storj.Pool
