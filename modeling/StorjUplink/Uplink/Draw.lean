import StorjUplink.Uplink.Orders

/-!
# Orders for a piece that is read

A storage node sends as far as the largest order goes and then waits for a larger one.  So
`download_once` of `piecestore.rs` has to order before it waits: were everything ordered received,
both sides would wait until the timeout.

The call is a machine that runs from one wait to the next (`Session.untilWait`).  `Drawing` is its
state between two messages, and `Drawing.topUp` is the point: the top-up looks at half a step, a
step is never below one, so behind it more is ordered than received.

The range is ordered in steps.  The node may send up to the largest amount ordered, in chunks of
any size, and the call orders more as soon as half a step is left, so that the node need not wait.
If the order arrives late nothing is lost; what must not happen is that the call waits for bytes
that it has not ordered.

At the end the call has ordered the range and nothing beyond it.  A stream that ends before the
range is complete is an error, and bytes behind the range are cut off.
-/

namespace Storj.Piecestore

open MachineInt

/-! ## The call

The variables of the source and the messages that were sent.  A wait is where the model asks for
the next reply.
-/

/-- `piece_download_request::Chunk`. -/
structure DownloadRange where
  offset : ℤ
  chunkSize : ℤ
deriving DecidableEq, Repr

/-- `PieceDownloadRequest`: the first message of a download carries the limit and the range, every
one an order. -/
structure PieceDownloadRequest where
  limit : Option OrderLimit
  order : Option Order
  chunk : Option DownloadRange
  maximumChunkSize : ℤ
deriving DecidableEq, Repr

/-- What a wait gives: a response, with the data of its chunk if it has one, the end of the stream,
or an error of the connection or the decoding. -/
inductive Reply (ε : Type) where
  | response (chunk : Option (List UInt8))
  | closed
  | failed (e : ε)
deriving DecidableEq, Repr

/-- Where a call stands.  A stream that is closed early is a "short piece download". -/
inductive Standing (ε : Type) where
  | waiting
  | returned (data : List UInt8)
  | short
  | failed (e : ε)
deriving DecidableEq, Repr

/-- The variables of `download_once`, and the messages that it has sent. -/
structure DownloadState (ε : Type) where
  step : ℤ
  allocated : ℤ
  out : List UInt8
  sent : List PieceDownloadRequest
  standing : Standing ε
deriving DecidableEq, Repr

/-- The first message: the limit, the range, and an order for the first step. -/
def Session.rangeRequest (s : Session) (offset size allocated : ℤ) : PieceDownloadRequest where
  limit := some s.limit
  order := some (s.signedOrder allocated)
  chunk := some ⟨offset, size⟩
  maximumChunkSize := s.config.maximumChunkSize

/-- A later message, which only orders more. -/
def Session.orderRequest (s : Session) (allocated : ℤ) : PieceDownloadRequest where
  limit := none
  order := some (s.signedOrder allocated)
  chunk := none
  maximumChunkSize := 0

/-- `send_msg`, which ends the download where it fails. -/
def DownloadState.sendMsg {ε : Type} (st : DownloadState ε)
    (send : PieceDownloadRequest → Except ε Unit) (m : PieceDownloadRequest) : DownloadState ε :=
  match send m with
  | .error e => { st with standing := .failed e }
  | .ok () => { st with sent := st.sent ++ [m] }

/-- Whether the node may run out of allocation. -/
def DownloadState.low {ε : Type} (st : DownloadState ε) (size : ℤ) : Bool :=
  st.allocated < size ∧ st.allocated - st.out.length ≤ st.step.tdiv 2

/-- The state with one more step ordered. -/
def Session.allocate {ε : Type} (s : Session) (size : ℤ) (st : DownloadState ε) :
    DownloadState ε :=
  { st with
    step := nextOrderStep st.step s.config.maximumStep
    allocated := min (satI64 (st.allocated + nextOrderStep st.step s.config.maximumStep)) size }

/-- The top-up of a turn of the loop. -/
def Session.topUp {ε : Type} (s : Session) (send : PieceDownloadRequest → Except ε Unit)
    (size : ℤ) (st : DownloadState ε) : DownloadState ε :=
  if st.low size then
    (s.allocate size st).sendMsg send (s.orderRequest (s.allocate size st).allocated)
  else st

/-- The loop up to its next wait, or to the end of the call. -/
def Session.untilWait {ε : Type} (s : Session) (send : PieceDownloadRequest → Except ε Unit)
    (size : ℤ) (st : DownloadState ε) : DownloadState ε :=
  if (st.out.length : ℤ) < size then s.topUp send size st
  else { st with standing := .returned (st.out.take size.toNat) }

/-- The loop from a wait to the next: a chunk is appended and more is ordered if it is time to, the
end of the stream leaves the download short, and a failure ends it. -/
def Session.receive {ε : Type} (s : Session) (send : PieceDownloadRequest → Except ε Unit)
    (size : ℤ) (st : DownloadState ε) (reply : Reply ε) : DownloadState ε :=
  match st.standing, reply with
  | .waiting, .response chunk =>
      s.untilWait send size { st with out := st.out ++ chunk.getD [] }
  | .waiting, .closed => { st with standing := .short }
  | .waiting, .failed e => { st with standing := .failed e }
  | _, _ => st

/-- What is ordered first. -/
def Session.firstAllocation (s : Session) (size : ℤ) : ℤ := min size (max s.config.initialStep 1)

/-- The state in front of the first message. -/
def Session.fresh {ε : Type} (s : Session) (size : ℤ) : DownloadState ε :=
  ⟨max s.config.initialStep 1, s.firstAllocation size, [], [], .waiting⟩

/-- `download_once` up to its first wait. -/
def Session.startDownload {ε : Type} (s : Session) (send : PieceDownloadRequest → Except ε Unit)
    (offset size : ℤ) : DownloadState ε :=
  let st := (s.fresh size).sendMsg send (s.rangeRequest offset size (s.firstAllocation size))
  if st.standing matches .waiting then s.untilWait send size st else st

/-- `download_once` on the replies of a node. -/
def Session.downloadOnce {ε : Type} (s : Session) (send : PieceDownloadRequest → Except ε Unit)
    (offset size : ℤ) (replies : List (Reply ε)) : DownloadState ε :=
  replies.foldl (s.receive send size) (s.startDownload send offset size)

/-! ## The account of a download

What an observer sees: the amounts of the orders, and the bytes of the replies.
-/

/-- The data of a reply. -/
def Reply.data {ε : Type} : Reply ε → List UInt8
  | .response chunk => chunk.getD []
  | _ => []

/-- The concatenation of the chunks of replies. -/
def received {ε : Type} (replies : List (Reply ε)) : List UInt8 := replies.flatMap Reply.data

/-- The amounts ordered by messages. -/
def drawn (sent : List PieceDownloadRequest) : List ℤ :=
  sent.filterMap fun m => m.order.map Order.amount

/-- **A node that keeps to the orders**: its chunks are not empty, and with each of them it has sent
at most the largest amount ordered by then.  What it replies in between is free. -/
def Session.Obeyed {ε : Type} (s : Session) (send : PieceDownloadRequest → Except ε Unit)
    (offset size : ℤ) (replies : List (Reply ε)) : Prop :=
  ∀ pre data post, replies = pre ++ .response (some data) :: post →
    data ≠ [] ∧ ∃ amount ∈ drawn (s.downloadOnce send offset size pre).sent,
      ((received pre).length : ℤ) + data.length ≤ amount

/-- **The account of a download.**  The orders go up, to the size at most; where the call waits the
last one is beyond what has arrived; and when it returns, everything is ordered and what it returns
is what has arrived. -/
structure Drawn {ε : Type} (size : ℤ) (replies : List (Reply ε)) (st : DownloadState ε) :
    Prop where
  ascending : (drawn st.sent).Pairwise (· < ·)
  amount_le : ∀ amount ∈ drawn st.sent, amount ≤ size
  waiting : st.standing = .waiting →
    ∃ amount ∈ (drawn st.sent).getLast?, ((received replies).length : ℤ) < amount
  returned : ∀ data, st.standing = .returned data →
    (drawn st.sent).getLast? = some size ∧ data = received replies ∧ (data.length : ℤ) = size

/-! ## The loop

The top-up is the only place where something is ordered after the start.
-/

/-- **The state between two messages of a download.** -/
structure Drawing {ε : Type} (size : ℤ) (st : DownloadState ε) : Prop where
  ascending : (drawn st.sent).Pairwise (· < ·)
  last : (drawn st.sent).getLast? = some st.allocated
  amount_le : ∀ amount ∈ drawn st.sent, amount ≤ st.allocated
  out_le : (st.out.length : ℤ) ≤ st.allocated
  allocated_le : st.allocated ≤ size
  step_pos : 1 ≤ st.step

section Download

variable {ε : Type} {s : Session} {send : PieceDownloadRequest → Except ε Unit} {offset size : ℤ}
  {st : DownloadState ε}

lemma received_append (pre post : List (Reply ε)) :
    received (pre ++ post) = received pre ++ received post :=
  List.flatMap_append

lemma drawn_orderRequest (sent : List PieceDownloadRequest) (amount : ℤ) :
    drawn (sent ++ [s.orderRequest amount]) = drawn sent ++ [amount] := by
  rw [drawn, List.filterMap_append]
  rfl

lemma nextOrderStep_pos {step maximum : ℤ} (hstep : 1 ≤ step) (hmax : 1 ≤ maximum) :
    1 ≤ nextOrderStep step maximum := by
  rw [nextOrderStep, satI64_nonneg (by omega), i64Max, Int.tdiv_eq_ediv_of_nonneg (by omega)]
  omega

/-- More is ordered than before, up to the size. -/
lemma Drawing.allocated_lt (h : Drawing size st) (hmax : 1 ≤ s.config.maximumStep)
    (hrange : size ≤ i64Max) (hlow : st.allocated < size) :
    st.allocated < (s.allocate size st).allocated := by
  have hstep := nextOrderStep_pos h.step_pos hmax
  have hout := h.out_le
  show st.allocated < min (satI64 (st.allocated + _)) size
  rw [satI64_nonneg (by omega)]
  omega

/-- The order of a top-up. -/
lemma Drawing.order (h : Drawing size st) (hmax : 1 ≤ s.config.maximumStep)
    (hrange : size ≤ i64Max) (hlow : st.allocated < size) :
    Drawing size { s.allocate size st with
      sent := st.sent ++ [s.orderRequest (s.allocate size st).allocated] } := by
  have hlt := h.allocated_lt hmax hrange hlow
  exact
    { ascending := by
        rw [drawn_orderRequest, List.pairwise_append]
        refine ⟨h.ascending, List.pairwise_singleton _ _, ?_⟩
        intro x hx y hy
        rw [List.mem_singleton] at hy
        rw [hy]
        exact lt_of_le_of_lt (h.amount_le x hx) hlt
      last := by
        rw [drawn_orderRequest, List.getLast?_concat]
      amount_le := by
        intro amount hamount
        rw [drawn_orderRequest, List.mem_append, List.mem_singleton] at hamount
        rcases hamount with hamount | rfl
        · exact ((h.amount_le amount hamount).trans_lt hlt).le
        · exact le_refl _
      out_le := h.out_le.trans hlt.le
      allocated_le := min_le_right _ _
      step_pos := nextOrderStep_pos h.step_pos hmax }

/-- **The top-up.**  Behind it the call has failed, with the orders it had, or more is ordered than
received. -/
theorem Drawing.topUp (h : Drawing size st) (hmax : 1 ≤ s.config.maximumStep)
    (hrange : size ≤ i64Max) (hout : (st.out.length : ℤ) < size) (hwait : st.standing = .waiting)
    (send : PieceDownloadRequest → Except ε Unit) :
    (∃ e, (s.topUp send size st).standing = .failed e ∧ (s.topUp send size st).sent = st.sent ∧
        ∃ m, send m = .error e) ∨
      (Drawing size (s.topUp send size st) ∧ (s.topUp send size st).standing = .waiting ∧
        (s.topUp send size st).out = st.out ∧
        ((s.topUp send size st).out.length : ℤ) < (s.topUp send size st).allocated) := by
  rw [Session.topUp]
  split_ifs with hlow
  · rw [DownloadState.low, decide_eq_true_eq] at hlow
    rw [DownloadState.sendMsg]
    cases hsend : send (s.orderRequest (s.allocate size st).allocated) with
    | error e => exact Or.inl ⟨e, rfl, rfl, _, hsend⟩
    | ok _ =>
        refine Or.inr ⟨h.order hmax hrange hlow.1, hwait, rfl, ?_⟩
        exact h.out_le.trans_lt (h.allocated_lt hmax hrange hlow.1)
  · -- either everything is ordered, or more than half a step is left
    refine Or.inr ⟨h, hwait, rfl, ?_⟩
    have hstep := h.step_pos
    have hle := h.allocated_le
    rw [DownloadState.low, decide_eq_true_eq, not_and, Int.tdiv_eq_ediv_of_nonneg (by omega)]
      at hlow
    omega

end Download

/-- **The state of a call on replies.**  Errors come from the connection or from the replies. -/
structure Tracked {ε : Type} (send : PieceDownloadRequest → Except ε Unit) (size : ℤ)
    (replies : List (Reply ε)) (st : DownloadState ε) : Prop where
  ascending : (drawn st.sent).Pairwise (· < ·)
  amount_le : ∀ amount ∈ drawn st.sent, amount ≤ size
  waiting : st.standing = .waiting →
    Drawing size st ∧ st.out = received replies ∧ (st.out.length : ℤ) < st.allocated
  returned : ∀ data, st.standing = .returned data →
    (drawn st.sent).getLast? = some size ∧ data = received replies ∧ (data.length : ℤ) = size
  short : st.standing = .short → .closed ∈ replies
  failed : ∀ e, st.standing = .failed e → (∃ m, send m = .error e) ∨ .failed e ∈ replies

section Run

variable {ε : Type} {s : Session} {send : PieceDownloadRequest → Except ε Unit} {offset size : ℤ}
  {st : DownloadState ε} {replies : List (Reply ε)} {reply : Reply ε}

/-- A call that ends in an error keeps the account of its orders. -/
lemma Tracked.of_failed {e : ε} (hstanding : st.standing = .failed e)
    (hascending : (drawn st.sent).Pairwise (· < ·)) (hle : ∀ amount ∈ drawn st.sent, amount ≤ size)
    (hfailed : (∃ m, send m = .error e) ∨ .failed e ∈ replies) : Tracked send size replies st where
  ascending := hascending
  amount_le := hle
  waiting := by simp [hstanding]
  returned := by simp [hstanding]
  short := by simp [hstanding]
  failed := by
    intro e' he'
    rw [hstanding, Standing.failed.injEq] at he'
    rw [← he']
    exact hfailed

/-- A call that ends with the stream closed early keeps it as well. -/
lemma Tracked.of_short (hstanding : st.standing = .short)
    (hascending : (drawn st.sent).Pairwise (· < ·)) (hle : ∀ amount ∈ drawn st.sent, amount ≤ size)
    (hclosed : .closed ∈ replies) : Tracked send size replies st where
  ascending := hascending
  amount_le := hle
  waiting := by simp [hstanding]
  returned := by simp [hstanding]
  short := fun _ => hclosed
  failed := by simp [hstanding]

lemma Drawing.amount_le_size (h : Drawing size st) : ∀ amount ∈ drawn st.sent, amount ≤ size :=
  fun amount hamount => (h.amount_le amount hamount).trans h.allocated_le

/-- A call that waits with more ordered than received. -/
lemma Tracked.of_waiting (h : Drawing size st) (hwait : st.standing = .waiting)
    (hout : st.out = received replies) (hlt : (st.out.length : ℤ) < st.allocated) :
    Tracked send size replies st where
  ascending := h.ascending
  amount_le := h.amount_le_size
  waiting := fun _ => ⟨h, hout, hlt⟩
  returned := by simp [hwait]
  short := by simp [hwait]
  failed := by simp [hwait]

/-- The loop up to its next wait. -/
lemma Drawing.untilWait (h : Drawing size st) (hmax : 1 ≤ s.config.maximumStep)
    (hrange : size ≤ i64Max) (hwait : st.standing = .waiting) (hout : st.out = received replies) :
    Tracked send size replies (s.untilWait send size st) := by
  rw [Session.untilWait]
  split_ifs with hlt
  · rcases h.topUp hmax hrange hlt hwait send with
      ⟨e, hstanding, hsent, herror⟩ | ⟨hdrawing, hstanding, hsame, hless⟩
    · refine Tracked.of_failed hstanding ?_ ?_ (Or.inl herror)
      · rw [hsent]
        exact h.ascending
      · rw [hsent]
        exact h.amount_le_size
    · exact Tracked.of_waiting hdrawing hstanding (hsame.trans hout) hless
  · -- what is received is ordered, and what is ordered is asked for
    have hle := h.out_le
    have hsize := h.allocated_le
    have hall : st.out.take size.toNat = st.out := List.take_of_length_le (by omega)
    exact
      { ascending := h.ascending
        amount_le := h.amount_le_size
        waiting := by simp
        returned := by
          intro data hdata
          rw [Standing.returned.injEq, hall] at hdata
          subst hdata
          refine ⟨?_, hout, by omega⟩
          rw [h.last]
          congr 1
          omega
        short := by simp
        failed := by simp }

/-- The state before the first wait. -/
lemma Tracked.start (hmax : 1 ≤ s.config.maximumStep) (hsize : 1 ≤ size) (hrange : size ≤ i64Max) :
    Tracked send size [] (s.startDownload send offset size) := by
  rw [Session.startDownload, DownloadState.sendMsg]
  cases hsend : send (s.rangeRequest offset size (s.firstAllocation size)) with
  | error e =>
      exact Tracked.of_failed rfl (by simp [drawn, Session.fresh]) (by simp [drawn, Session.fresh])
        (Or.inl ⟨_, hsend⟩)
  | ok _ =>
      let first : DownloadState ε :=
        { s.fresh size with sent := [s.rangeRequest offset size (s.firstAllocation size)] }
      have hdrawing : Drawing size first :=
        { ascending := List.pairwise_singleton _ _
          last := rfl
          amount_le := by
            intro amount hamount
            exact (List.mem_singleton.mp hamount).le
          out_le := by
            show ((0 : ℕ) : ℤ) ≤ min size (max s.config.initialStep 1)
            omega
          allocated_le := min_le_left _ _
          step_pos := le_max_right _ _ }
      exact hdrawing.untilWait hmax hrange rfl rfl

/-- A chunk that is ordered. -/
lemma Drawing.arrive (h : Drawing size st) {chunk : List UInt8}
    (hle : (st.out.length : ℤ) + chunk.length ≤ st.allocated) :
    Drawing size { st with out := st.out ++ chunk } where
  ascending := h.ascending
  last := h.last
  amount_le := h.amount_le
  out_le := by
    rw [List.length_append]
    push_cast
    exact hle
  allocated_le := h.allocated_le
  step_pos := h.step_pos

/-- Behind the last byte there is no room for a chunk. -/
lemma Tracked.data_eq_nil (h : Tracked send size replies st) {data : List UInt8}
    (hstanding : st.standing = .returned data)
    (hobeyed : ∀ more, reply = .response (some more) → more ≠ [] ∧
      ∃ amount ∈ drawn st.sent, ((received replies).length : ℤ) + more.length ≤ amount) :
    reply.data = [] := by
  obtain ⟨-, hdata, hlength⟩ := h.returned data hstanding
  cases reply with
  | response chunk =>
      cases chunk with
      | none => rfl
      | some more =>
          obtain ⟨hne, amount, hamount, hle⟩ := hobeyed more rfl
          have hpos := List.length_pos_iff.mpr hne
          have hsize := h.amount_le amount hamount
          rw [← hdata] at hle
          omega
  | closed => rfl
  | failed e => rfl

/-- **Step.** -/
theorem Tracked.receive (h : Tracked send size replies st) (hmax : 1 ≤ s.config.maximumStep)
    (hrange : size ≤ i64Max)
    (hobeyed : ∀ data, reply = .response (some data) → data ≠ [] ∧
      ∃ amount ∈ drawn st.sent, ((received replies).length : ℤ) + data.length ≤ amount) :
    Tracked send size (replies ++ [reply]) (s.receive send size st reply) := by
  have hreceived : received (replies ++ [reply]) = received replies ++ reply.data := by
    rw [received_append]
    simp [received]
  cases hstanding : st.standing with
  | waiting =>
      obtain ⟨hdrawing, hout, hlt⟩ := h.waiting hstanding
      cases reply with
      | response chunk =>
          have hle : (st.out.length : ℤ) + (chunk.getD []).length ≤ st.allocated := by
            cases chunk with
            | none =>
                simp only [Option.getD_none, List.length_nil]
                omega
            | some data =>
                obtain ⟨-, amount, hamount, hle⟩ := hobeyed data rfl
                rw [← hout] at hle
                exact hle.trans (hdrawing.amount_le amount hamount)
          have hreceive : s.receive send size st (.response chunk)
              = s.untilWait send size { st with out := st.out ++ chunk.getD [] } := by
            simp only [Session.receive, hstanding]
          rw [hreceive]
          refine (hdrawing.arrive hle).untilWait hmax hrange hstanding ?_
          rw [hreceived, ← hout]
          rfl
      | closed =>
          simp only [Session.receive, hstanding]
          exact Tracked.of_short rfl h.ascending h.amount_le (by simp)
      | failed e =>
          simp only [Session.receive, hstanding]
          exact Tracked.of_failed rfl h.ascending h.amount_le (Or.inr (by simp))
  | returned data =>
      simp only [Session.receive, hstanding]
      exact
        { ascending := h.ascending
          amount_le := h.amount_le
          waiting := by simp [hstanding]
          returned := by
            intro data' hdata'
            rw [hreceived, h.data_eq_nil hstanding hobeyed, List.append_nil]
            exact h.returned data' hdata'
          short := by simp [hstanding]
          failed := by simp [hstanding] }
  | short =>
      simp only [Session.receive, hstanding]
      refine Tracked.of_short hstanding h.ascending h.amount_le ?_
      exact List.mem_append_left _ (h.short hstanding)
  | failed e =>
      simp only [Session.receive, hstanding]
      refine Tracked.of_failed hstanding h.ascending h.amount_le ?_
      exact (h.failed e hstanding).imp_right (List.mem_append_left _)

/-- A node that keeps to the orders did so before. -/
lemma obeyed_left {pre post : List (Reply ε)} (h : s.Obeyed send offset size (pre ++ post)) :
    s.Obeyed send offset size pre := by
  intro first data rest heq
  refine h first data (rest ++ post) ?_
  rw [heq, List.append_assoc, List.cons_append]

/-- **Run.** -/
theorem tracked_downloadOnce (hmax : 1 ≤ s.config.maximumStep) (hsize : 1 ≤ size)
    (hrange : size ≤ i64Max) (hobeyed : s.Obeyed send offset size replies) :
    Tracked send size replies (s.downloadOnce send offset size replies) := by
  induction replies using List.reverseRecOn with
  | nil => exact Tracked.start hmax hsize hrange
  | append_singleton pre reply ih =>
      have hpre := ih (obeyed_left hobeyed)
      have hreply : ∀ data, reply = .response (some data) → data ≠ [] ∧
          ∃ amount ∈ drawn (s.downloadOnce send offset size pre).sent,
            ((received pre).length : ℤ) + data.length ≤ amount := by
        intro data hdata
        exact hobeyed pre data [] (by rw [hdata])
      rw [Session.downloadOnce, List.foldl_append]
      exact hpre.receive hmax hrange hreply

/-- **Download order accounting never deadlocks.**  With a node that keeps to the orders, the orders
go up to the size of the range and no further; wherever the call waits, more is ordered than has
arrived; when it returns, the whole range is ordered, and it returns as many bytes, those that
arrived.  And it does return once they have arrived, if nothing fails. -/
theorem downloadOnce_drawn (hmax : 1 ≤ s.config.maximumStep) (hsize : 1 ≤ size)
    (hrange : size ≤ i64Max) (hobeyed : s.Obeyed send offset size replies) :
    Drawn size replies (s.downloadOnce send offset size replies) ∧
      ((∀ m, send m = .ok ()) → (∀ reply ∈ replies, ∃ chunk, reply = .response chunk) →
        size ≤ (received replies).length →
        (s.downloadOnce send offset size replies).standing = .returned (received replies)) := by
  have h := tracked_downloadOnce hmax hsize hrange hobeyed
  refine ⟨?_, fun hsend hresponses hall => ?_⟩
  · exact
      { ascending := h.ascending
        amount_le := h.amount_le
        waiting := by
          intro hwait
          obtain ⟨hdrawing, hout, hlt⟩ := h.waiting hwait
          rw [← hout]
          exact ⟨_, hdrawing.last, hlt⟩
        returned := h.returned }
  · cases hstanding : (s.downloadOnce send offset size replies).standing with
    | waiting =>
        obtain ⟨hdrawing, hout, hlt⟩ := h.waiting hstanding
        have hle := hdrawing.allocated_le
        rw [hout] at hlt
        omega
    | returned data => rw [(h.returned data hstanding).2.1]
    | short =>
        obtain ⟨chunk, hchunk⟩ := hresponses _ (h.short hstanding)
        cases hchunk
    | failed e =>
        rcases h.failed e hstanding with ⟨m, herror⟩ | hmem
        · rw [hsend m] at herror
          cases herror
        · obtain ⟨chunk, hchunk⟩ := hresponses _ hmem
          cases hchunk

end Run

/-! ## What a download returns

A node may send less than was asked for, and then the call is an error; or more, and then the rest
is cut off.  So what the call returns has the size that was asked for, whether the node keeps to
the orders or not; and nothing else can be said of it, because any bytes of this size are what some
node sends. -/

section Returned

variable {ε : Type} {s : Session} {send : PieceDownloadRequest → Except ε Unit} {offset size : ℤ}
  {st : DownloadState ε}

/-- What is returned has the size of the range. -/
def DownloadState.ReturnsSize (st : DownloadState ε) (size : ℤ) : Prop :=
  ∀ data, st.standing = .returned data → data.length = size.toNat

lemma DownloadState.returnsSize_of_waiting (hwait : st.standing = .waiting) :
    st.ReturnsSize size := by
  intro data hdata
  rw [hwait] at hdata
  cases hdata

lemma DownloadState.ReturnsSize.sendMsg (h : st.ReturnsSize size) (m : PieceDownloadRequest) :
    (st.sendMsg send m).ReturnsSize size := by
  rw [DownloadState.sendMsg]
  cases send m with
  | ok _ => exact h
  | error e =>
      intro data hdata
      cases hdata

/-- **Step**, up to the next wait. -/
lemma Session.returnsSize_untilWait (hwait : st.standing = .waiting) :
    (s.untilWait send size st).ReturnsSize size := by
  have hsame : st.ReturnsSize size := DownloadState.returnsSize_of_waiting hwait
  rw [Session.untilWait]
  split_ifs with hmore
  · rw [Session.topUp]
    split_ifs with hlow
    · have hnext : (s.allocate size st).ReturnsSize size := hsame
      exact hnext.sendMsg _
    · exact hsame
  · intro data hdata
    cases hdata
    rw [List.length_take]
    omega

/-- **Run.** -/
lemma Session.returnsSize_downloadOnce (replies : List (Reply ε)) :
    (s.downloadOnce send offset size replies).ReturnsSize size := by
  induction replies using List.reverseRecOn with
  | nil =>
      have hfresh : ((s.fresh size).sendMsg send
          (s.rangeRequest offset size (s.firstAllocation size))).ReturnsSize size :=
        (DownloadState.returnsSize_of_waiting rfl).sendMsg _
      rw [Session.downloadOnce, List.foldl_nil, Session.startDownload]
      generalize (s.fresh size).sendMsg send _ = st at hfresh ⊢
      cases hstanding : st.standing with
      | waiting => exact s.returnsSize_untilWait hstanding
      | returned data => exact hfresh
      | short => exact hfresh
      | failed e => exact hfresh
  | append_singleton replies reply ih =>
      rw [Session.downloadOnce, List.foldl_append, List.foldl_cons, List.foldl_nil,
        ← Session.downloadOnce]
      generalize s.downloadOnce send offset size replies = st at ih ⊢
      rw [Session.receive.eq_def]
      split
      · next hwait => exact s.returnsSize_untilWait hwait
      · intro data hdata
        cases hdata
      · intro data hdata
        cases hdata
      · exact ih

end Returned

/-- A connection that takes every message. -/
def takesOrders : PieceDownloadRequest → Except Unit Unit := fun _ => .ok ()

/-- The first message of a download is sent, and the call waits if it has to. -/
lemma startDownload_takesOrders (s : Session) (offset : ℤ) {size : ℤ} (hsize : 0 < size) :
    (s.startDownload takesOrders offset size).standing = .waiting ∧
      (s.startDownload takesOrders offset size).out = [] := by
  have hlt : (([] : List UInt8).length : ℤ) < size := hsize
  rw [Session.startDownload, DownloadState.sendMsg, takesOrders, Session.fresh]
  dsimp only
  rw [if_pos rfl, Session.untilWait, if_pos hlt, Session.topUp]
  split_ifs with hlow
  · exact ⟨rfl, rfl⟩
  · exact ⟨rfl, rfl⟩

/-- **Any bytes of the size of the range** are returned, if a node sends them. -/
lemma exists_returned (s : Session) (offset : ℤ) {size : ℤ} {data : List UInt8}
    (hdata : data.length = size.toNat) : ∃ replies,
    (s.downloadOnce takesOrders offset size replies).standing = .returned data := by
  by_cases hsize : 0 < size
  · obtain ⟨hwait, hout⟩ := startDownload_takesOrders s offset hsize
    refine ⟨[.response (some data)], ?_⟩
    rw [Session.downloadOnce, List.foldl_cons, List.foldl_nil, Session.receive.eq_def, hwait]
    dsimp only
    rw [hout, List.nil_append, Option.getD_some, Session.untilWait, if_neg (by dsimp only; omega),
      List.take_of_length_le hdata.le]
  · obtain rfl : data = [] := List.length_eq_zero_iff.mp (by omega)
    refine ⟨[], ?_⟩
    have hge : ¬(([] : List UInt8).length : ℤ) < size := hsize
    rw [Session.downloadOnce, List.foldl_nil, Session.startDownload, DownloadState.sendMsg,
      takesOrders, Session.fresh]
    dsimp only
    rw [if_pos rfl, Session.untilWait, if_neg hge, List.take_nil]

/-- Three bytes in two chunks. -/
def sampleReplies : List (Reply Unit) := [.response (some [7]), .response (some [8, 9])]

/-- The second chunk is only ordered with the first one at hand. -/
lemma sampleReplies_obeyed :
    (sampleSession ⟨2, 2, 3, 1⟩ 5).Obeyed takesOrders 0 3 sampleReplies := by
  intro pre data post heq
  rcases pre with - | ⟨first, - | ⟨second, pre⟩⟩
  · obtain ⟨rfl, -⟩ : data = [7] ∧ post = [.response (some [8, 9])] := by
      simpa [sampleReplies, eq_comm] using heq
    exact ⟨by decide, 2, by decide, by decide⟩
  · obtain ⟨rfl, rfl, -⟩ : first = .response (some [7]) ∧ data = [8, 9] ∧ post = [] := by
      simpa [sampleReplies, eq_comm] using heq
    exact ⟨by decide, 3, by decide, by decide⟩
  · simp [sampleReplies] at heq

/-- Three bytes, with orders for two and for three of them. -/
theorem downloadOnce_drawn_sample :
    Drawn 3 sampleReplies
        ((sampleSession ⟨2, 2, 3, 1⟩ 5).downloadOnce takesOrders 0 3 sampleReplies) ∧
      ((sampleSession ⟨2, 2, 3, 1⟩ 5).downloadOnce takesOrders 0 3 sampleReplies).standing
        = .returned [7, 8, 9] := by
  obtain ⟨hdrawn, hreturns⟩ :=
    downloadOnce_drawn (by decide) (by decide) (by decide) sampleReplies_obeyed
  refine ⟨hdrawn, hreturns (fun _ => rfl) ?_ (by decide)⟩
  intro reply hreply
  simp only [sampleReplies, List.mem_cons, List.not_mem_nil, or_false] at hreply
  rcases hreply with rfl | rfl
  · exact ⟨_, rfl⟩
  · exact ⟨_, rfl⟩

end Storj.Piecestore
