import StorjUplink.Lib.MachineInt
import Mathlib.Data.List.Induction
import Mathlib.Data.List.TakeDrop
import Mathlib.Order.Defs.LinearOrder

/-!
# Orders for a piece

A storage node takes and gives bytes only as far as signed orders go, each of which replaces the one
before.  `upload_once` and `download_once` of `piecestore.rs` order in steps that grow by half up to
a maximum (`next_order_step`); this module has the messages and the upload.

`Sending` relates the messages sent to what is left of the piece: the chunks are the beginning of
the data, and the last order covers them.  A turn of the loop keeps it (`Sending.turn`).  The one
plain addition of the loop, `offset + order_step`, leaves the `i64` range only for pieces of more
than two fifths of it.

The first message has the limit and an order, and a later one has an order where its chunk would
reach beyond what is ordered.  Each order is signed and has the total amount, so the node keeps the
largest.  At the end comes the hash of the whole piece.  An empty piece has a message of its own.

`Accounted` is what holds of the messages that were sent when a call has ended, well or not: the
chunks are a beginning of the data without gaps, the orders go up, and every byte was covered by an
order before or with the message that carries it.
-/

namespace Storj.Piecestore

open MachineInt

/-! ## Messages

The messages with the fields that the two loops fill in.
-/

/-- `OrderLimit`, with what the two loops read of it. -/
structure OrderLimit where
  serialNumber : List UInt8
  pieceId : List UInt8
  limit : ℤ
deriving DecidableEq, Repr

/-- `Order`: how much of a limit the node may use, signed by the uplink. -/
structure Order where
  serialNumber : List UInt8
  amount : ℤ
  uplinkSignature : List UInt8
deriving DecidableEq, Repr

/-- `PieceHash`; its timestamp is the creation of the limit. -/
structure PieceHash where
  pieceId : List UInt8
  hash : List UInt8
  pieceSize : ℤ
  signature : List UInt8
  hashAlgorithm : ℤ
deriving DecidableEq, Repr

/-- `Chunk` of an upload. -/
structure Chunk where
  offset : ℤ
  data : List UInt8
deriving DecidableEq, Repr

/-- `PieceUploadRequest`: limit and hash algorithm go into the first message, an order into those
that need one, the hash of the piece into the last. -/
structure PieceUploadRequest where
  limit : Option OrderLimit
  hashAlgorithm : ℤ
  order : Option Order
  chunk : Option Chunk
  done : Option PieceHash
deriving DecidableEq, Repr

/-- `PieceHashAlgo`. -/
inductive PieceHashAlgo where
  | sha256
  | blake3
deriving DecidableEq, Repr

/-- `PieceHashAlgo::to_i32`. -/
def PieceHashAlgo.toI32 : PieceHashAlgo → ℤ
  | .sha256 => 0
  | .blake3 => 1

/-- `Config`, the part of it that the orders are cut by. -/
structure Config where
  uploadBufferSize : ℕ
  initialStep : ℤ
  maximumStep : ℤ
  maximumChunkSize : ℤ
deriving DecidableEq, Repr

/-- `Config::default`. -/
def Config.default : Config := ⟨64 * 1024, 256 * 1024, 550 * 1024, 16 * 1024⟩

/-- `next_order_step`. -/
def nextOrderStep (previous maximum : ℤ) : ℤ := min ((satI64 (previous * 3)).tdiv 2) maximum

/-- Why a call ends before it is through: an error of the connection, or a panic. -/
inductive Stop (ε : Type) where
  | error (e : ε)
  | panicked
deriving DecidableEq, Repr

/-- What a call has at hand: the limit and the piece key, which signs. -/
structure Session where
  config : Config
  hashAlgo : PieceHashAlgo
  limit : OrderLimit
  signOrder : Order → List UInt8
  signHash : PieceHash → List UInt8

/-- `signed_order`: the signature is over the order with an empty signature. -/
def Session.signedOrder (s : Session) (amount : ℤ) : Order :=
  let order : Order := ⟨s.limit.serialNumber, amount, []⟩
  { order with uplinkSignature := s.signOrder order }

/-- `signed_uplink_hash`: the signature is over the hash with an empty signature. -/
def Session.signedUplinkHash (s : Session) (digest : List UInt8) (size : ℤ) : PieceHash :=
  let hash : PieceHash := ⟨s.limit.pieceId, digest, size, [], s.hashAlgo.toI32⟩
  { hash with signature := s.signHash hash }

/-! ## Upload

The step to the next message is cut into small functions, one for each variable of the loop.
-/

/-- The variables of the loop of `upload_once`: how far the data is sent, how far it is ordered, the
step of the orders, and whether a message was sent yet. -/
structure UploadState where
  offset : ℤ
  orderedSoFar : ℤ
  orderStep : ℤ
  first : Bool
deriving DecidableEq, Repr

/-- `upload_buffer_size.max(1)`. -/
def Session.buf (s : Session) : ℕ := max s.config.uploadBufferSize 1

/-- The message of an empty piece: the limit and the hash of nothing, without an order and without a
chunk. -/
def Session.emptyRequest (s : Session) (digest : List UInt8) : PieceUploadRequest where
  limit := some s.limit
  hashAlgorithm := s.hashAlgo.toI32
  order := none
  chunk := none
  done := some (s.signedUplinkHash digest 0)

/-- The size of the next chunk. -/
def Session.chunkSize (s : Session) (rest : List UInt8) : ℕ := min rest.length s.buf

/-- The end of the next chunk. -/
def Session.chunkEnd (s : Session) (rest : List UInt8) (st : UploadState) : ℤ :=
  st.offset + s.chunkSize rest

/-- Whether the next message has an order. -/
def Session.orders (s : Session) (rest : List UInt8) (st : UploadState) : Bool :=
  s.chunkEnd rest st > st.orderedSoFar

/-- What is ordered with the next message. -/
def Session.ordered (s : Session) (rest : List UInt8) (st : UploadState) : ℤ :=
  if s.orders rest st then min (st.offset + st.orderStep) s.limit.limit else st.orderedSoFar

/-- The next message: a chunk, an order when the chunk reaches past what is ordered, and the hash
when nothing is left after it. -/
def Session.request (s : Session) (digest rest : List UInt8) (st : UploadState) :
    PieceUploadRequest where
  limit := if st.first then some s.limit else none
  hashAlgorithm := if st.first then s.hashAlgo.toI32 else 0
  order := if s.orders rest st then some (s.signedOrder (s.ordered rest st)) else none
  chunk := some ⟨st.offset, rest.take (s.chunkSize rest)⟩
  done := if rest.drop (s.chunkSize rest) = [] then
    some (s.signedUplinkHash digest (s.chunkEnd rest st)) else none

/-- The variables behind the next message. -/
def Session.next (s : Session) (rest : List UInt8) (st : UploadState) : UploadState where
  offset := s.chunkEnd rest st
  orderedSoFar := s.ordered rest st
  orderStep := if s.orders rest st then nextOrderStep st.orderStep s.config.maximumStep
    else st.orderStep
  first := false

/-- Whether an addition of a turn of the loop leaves the range. -/
def Session.overflows (s : Session) (rest : List UInt8) (st : UploadState) : Bool :=
  s.chunkEnd rest st > i64Max ∨ s.orders rest st ∧ st.offset + st.orderStep > i64Max

/-- The loop of `upload_once`: the messages sent, and why it ended early if it did.  `send` is the
connection. -/
def Session.uploadLoop {ε : Type} (s : Session) (send : PieceUploadRequest → Except ε Unit)
    (digest rest : List UInt8) (st : UploadState) : List PieceUploadRequest × Option (Stop ε) :=
  if _h : rest = [] then ([], none)
  else if s.overflows rest st then ([], some .panicked)
  else
    match send (s.request digest rest st) with
    | .error e => ([], some (.error e))
    | .ok () =>
        let r := s.uploadLoop send digest (rest.drop (s.chunkSize rest)) (s.next rest st)
        (s.request digest rest st :: r.1, r.2)
termination_by rest.length
decreasing_by
  have hlen := List.length_pos_iff.mpr _h
  rw [List.length_drop, Session.chunkSize, Session.buf]
  omega

/-- `upload_once` up to its last message, with the messages that were sent and the error that ended
it early. -/
def Session.uploadOnce {ε : Type} (s : Session) (send : PieceUploadRequest → Except ε Unit)
    (data digest : List UInt8) : List PieceUploadRequest × Option (Stop ε) :=
  if data = [] then
    match send (s.emptyRequest digest) with
    | .error e => ([], some (.error e))
    | .ok () => ([s.emptyRequest digest], none)
  else s.uploadLoop send digest data ⟨0, 0, s.config.initialStep, true⟩

/-! ### The account of an upload

Read from the messages alone, without the state of the loop.
-/

/-- The chunks of messages. -/
def chunks (msgs : List PieceUploadRequest) : List Chunk := msgs.filterMap fun m => m.chunk

/-- The bytes of messages. -/
def sentData (msgs : List PieceUploadRequest) : List UInt8 := (chunks msgs).flatMap Chunk.data

/-- The amounts ordered by messages. -/
def amounts (msgs : List PieceUploadRequest) : List ℤ :=
  msgs.filterMap fun m => m.order.map Order.amount

/-- **The account of messages sent** for a piece.  The chunks are not empty, each begins where
those before it end, and together they are a beginning of the data; the orders go up, to the limit
at most, and the last one covers the chunks; the limit and the algorithm are in the first message
only, and the hash, with the size of the data, is in the one that completes it. -/
structure Accounted (s : Session) (data : List UInt8) (msgs : List PieceUploadRequest) : Prop where
  data_eq : sentData msgs <+: data
  chunk : ∀ pre m post, msgs = pre ++ m :: post → ∀ c ∈ m.chunk,
    c.data ≠ [] ∧ c.offset = ((sentData pre).length : ℤ) ∧
      ∃ amount ∈ (amounts (pre ++ [m])).getLast?, c.offset + c.data.length ≤ amount
  ascending : (amounts msgs).Pairwise (· < ·)
  amount_le : ∀ amount ∈ amounts msgs, amount ≤ s.limit.limit
  header : ∀ pre m post, msgs = pre ++ m :: post →
    if pre = [] then m.limit = some s.limit ∧ m.hashAlgorithm = s.hashAlgo.toI32
    else m.limit = none ∧ m.hashAlgorithm = 0
  done : ∀ pre m post, msgs = pre ++ m :: post →
    if sentData (pre ++ [m]) = data then post = [] ∧ ∃ hash, m.done = some hash ∧
      hash.pieceSize = (data.length : ℤ)
    else m.done = none

/-! ### Lists of messages

What one more message adds to the chunks, the bytes and the amounts.
-/

section Messages

variable {msgs : List PieceUploadRequest} {m : PieceUploadRequest}

lemma sentData_append (msgs rest : List PieceUploadRequest) :
    sentData (msgs ++ rest) = sentData msgs ++ sentData rest := by
  rw [sentData, chunks, List.filterMap_append, List.flatMap_append]
  rfl

lemma sentData_single {c : Chunk} (h : m.chunk = some c) : sentData [m] = c.data := by
  simp [sentData, chunks, h]

lemma amounts_append (msgs rest : List PieceUploadRequest) :
    amounts (msgs ++ rest) = amounts msgs ++ amounts rest := by
  rw [amounts, List.filterMap_append]
  rfl

lemma amounts_single : amounts [m] = (m.order.map Order.amount).toList := by
  cases horder : m.order with
  | none => simp [amounts, horder]
  | some order => simp [amounts, horder]

/-- A message of a list with one more at its end is that one or stands before it. -/
lemma append_single_cases {pre post : List PieceUploadRequest} {x : PieceUploadRequest}
    (h : msgs ++ [m] = pre ++ x :: post) :
    (post = [] ∧ pre = msgs ∧ x = m) ∨ ∃ rest, post = rest ++ [m] ∧ msgs = pre ++ x :: rest := by
  cases post using List.reverseRecOn with
  | nil =>
      obtain ⟨rfl, hx⟩ := List.append_inj' h rfl
      exact Or.inl ⟨rfl, rfl, (List.singleton_inj.mp hx).symm⟩
  | append_singleton rest y =>
      rw [← List.cons_append, ← List.append_assoc] at h
      obtain ⟨hmsgs, hy⟩ := List.append_inj' h rfl
      exact Or.inr ⟨rest, by rw [List.singleton_inj.mp hy], hmsgs⟩

lemma single_cases {pre post : List PieceUploadRequest} {x : PieceUploadRequest}
    (h : [m] = pre ++ x :: post) : pre = [] ∧ x = m ∧ post = [] := by
  have happend : [] ++ [m] = pre ++ x :: post := h
  rcases append_single_cases happend with ⟨hpost, hpre, hx⟩ | ⟨rest, -, hnil⟩
  · exact ⟨hpre, hx, hpost⟩
  · simp at hnil

end Messages

/-! ### The steps of the orders

A step grows by half up to the maximum.  It stays positive and in the range of its type.
-/

/-- The buffer and the steps of a configuration that can order what it sends. -/
structure Config.Valid (c : Config) : Prop where
  buffer_pos : 1 ≤ c.uploadBufferSize
  initial : (c.uploadBufferSize : ℤ) ≤ c.initialStep ∧ c.initialStep ≤ i64Max
  maximum : (c.uploadBufferSize : ℤ) ≤ c.maximumStep ∧ c.maximumStep ≤ i64Max

/-- The next step is at most half as long again, and reaches the buffer or half the range. -/
lemma nextOrderStep_bounds {step maximum b : ℤ} (hb : 1 ≤ b) (hstep : min b (2 ^ 62 - 1) ≤ step)
    (hmax : b ≤ maximum) :
    min b (2 ^ 62 - 1) ≤ nextOrderStep step maximum ∧ 2 * nextOrderStep step maximum ≤ 3 * step ∧
      nextOrderStep step maximum ≤ 2 ^ 62 - 1 := by
  rw [nextOrderStep, satI64_nonneg (by omega), i64Max, Int.tdiv_eq_ediv_of_nonneg (by omega)]
  omega

/-! ### The loop

Step by step: the data that is left gets shorter with each message, so the loop ends.
-/

/-- **The state between two messages of an upload**: the messages sent, the variables of the loop
and what is left of the piece. -/
structure Sending (s : Session) (data : List UInt8) (msgs : List PieceUploadRequest)
    (st : UploadState) (rest : List UInt8) : Prop where
  accounted : Accounted s data msgs
  split : data = sentData msgs ++ rest
  offset_eq : st.offset = ((sentData msgs).length : ℤ)
  ordered_eq : st.orderedSoFar = (amounts msgs).getLast?.getD 0
  ordered_max : ∀ amount ∈ amounts msgs, amount ≤ st.orderedSoFar
  first_iff : st.first = true ↔ msgs = []
  /-- Every chunk but the last fills the buffer. -/
  reach : st.offset = 0 ∨ (s.buf : ℤ) ≤ st.offset ∨ rest = []
  step_start : st.offset = 0 → (s.buf : ℤ) ≤ st.orderStep
  step_low : min (s.buf : ℤ) (2 ^ 62 - 1) ≤ st.orderStep
  step_high : st.orderStep ≤ i64Max
  /-- Before the limit is reached a step is at most half as long again as what was ordered. -/
  growth : (st.offset = 0 ∧ st.orderedSoFar = 0) ∨ s.limit.limit ≤ st.orderedSoFar ∨
    2 * st.orderStep ≤ 3 * st.orderedSoFar

section Upload

variable {s : Session} {data digest rest : List UInt8} {msgs : List PieceUploadRequest}
  {st : UploadState}

lemma Accounted.nil : Accounted s data [] where
  data_eq := by simp [sentData, chunks]
  chunk := by simp
  ascending := by simp [amounts]
  amount_le := by simp [amounts]
  header := by simp
  done := by simp

/-- The state before the first message. -/
lemma Sending.start (hvalid : s.config.Valid) (data : List UInt8) :
    Sending s data [] ⟨0, 0, s.config.initialStep, true⟩ data := by
  have hbuf : (s.buf : ℤ) ≤ s.config.initialStep := by
    have hpos := hvalid.buffer_pos
    have hinitial := hvalid.initial.1
    rw [Session.buf]
    omega
  exact
    { accounted := Accounted.nil
      split := rfl
      offset_eq := rfl
      ordered_eq := rfl
      ordered_max := by simp [amounts]
      first_iff := by simp
      reach := Or.inl rfl
      step_start := fun _ => hbuf
      step_low := le_trans (min_le_left _ _) hbuf
      step_high := hvalid.initial.2
      growth := Or.inl ⟨rfl, rfl⟩ }

/-- The next chunk ends in the data. -/
lemma Sending.chunkEnd_le (h : Sending s data msgs st rest) :
    s.chunkEnd rest st ≤ data.length := by
  rw [Session.chunkEnd, Session.chunkSize, h.offset_eq, h.split, List.length_append]
  push_cast
  omega

/-- An order covers the chunk that it is sent with. -/
lemma Sending.covers (h : Sending s data msgs st rest) (hrest : rest ≠ [])
    (hdata : (data.length : ℤ) ≤ i64Max) : s.chunkEnd rest st ≤ st.offset + st.orderStep := by
  have hend := h.chunkEnd_le
  have hreach := h.reach
  have hstart := h.step_start
  have hlow := h.step_low
  rw [i64Max] at hdata
  simp only [hrest, or_false] at hreach
  rw [Session.chunkEnd, Session.chunkSize] at hend ⊢
  omega

/-- **No overflow** up to two fifths of the range. -/
lemma Sending.not_overflows (h : Sending s data msgs st rest)
    (hlimit : (data.length : ℤ) ≤ s.limit.limit) (hsmall : 5 * (data.length : ℤ) ≤ 2 * i64Max) :
    s.overflows rest st = false := by
  have hend := h.chunkEnd_le
  have hhigh := h.step_high
  have hgrowth := h.growth
  have hoffset := h.offset_eq
  have hle : st.offset ≤ data.length := by
    rw [h.offset_eq, h.split, List.length_append]
    push_cast
    omega
  rw [i64Max] at hsmall hhigh
  rw [Session.overflows, decide_eq_false_iff_not, i64Max, Session.orders, decide_eq_true_eq]
  omega

lemma chunkSize_pos (hrest : rest ≠ []) : 0 < s.chunkSize rest := by
  have hlen := List.length_pos_iff.mpr hrest
  rw [Session.chunkSize, Session.buf]
  omega

lemma length_take_chunkSize (s : Session) (rest : List UInt8) :
    (rest.take (s.chunkSize rest)).length = s.chunkSize rest := by
  rw [List.length_take, Session.chunkSize]
  omega

/-- What is ordered reaches the end of the next chunk. -/
lemma Sending.chunkEnd_le_ordered (h : Sending s data msgs st rest) (hrest : rest ≠ [])
    (hlimit : (data.length : ℤ) ≤ s.limit.limit) (hdata : (data.length : ℤ) ≤ i64Max) :
    s.chunkEnd rest st ≤ s.ordered rest st := by
  rw [Session.ordered]
  split_ifs with horders
  · exact le_min (h.covers hrest hdata) (h.chunkEnd_le.trans hlimit)
  · rw [Session.orders, decide_eq_true_eq] at horders
    exact not_lt.mp horders

/-- The amounts ordered after the next message. -/
lemma amounts_request : amounts (msgs ++ [s.request digest rest st])
    = amounts msgs ++ if s.orders rest st then [s.ordered rest st] else [] := by
  rw [amounts_append, amounts_single]
  congr 1
  cases horders : s.orders rest st with
  | true => simp [Session.request, horders, Session.signedOrder]
  | false => simp [Session.request, horders]

/-- The bytes sent after the next message. -/
lemma sentData_request : sentData (msgs ++ [s.request digest rest st])
    = sentData msgs ++ rest.take (s.chunkSize rest) := by
  rw [sentData_append, sentData_single rfl]

/-- The last order after the next message. -/
lemma Sending.latest (h : Sending s data msgs st rest) (hrest : rest ≠ []) :
    s.ordered rest st ∈ (amounts (msgs ++ [s.request digest rest st])).getLast? := by
  rw [amounts_request, Session.ordered]
  by_cases horders : s.orders rest st = true
  · rw [if_pos horders, if_pos horders, List.getLast?_concat]
    rfl
  · rw [if_neg horders, if_neg horders, List.append_nil]
    rw [Session.orders, decide_eq_true_eq] at horders
    -- nothing is ordered before the first chunk, which is not empty
    have hpos := chunkSize_pos hrest (s := s)
    have hoffset := h.offset_eq
    have hordered := h.ordered_eq
    rw [Session.chunkEnd] at horders
    cases hlast : (amounts msgs).getLast? with
    | none =>
        rw [hlast, Option.getD_none] at hordered
        omega
    | some amount =>
        rw [hlast, Option.getD_some] at hordered
        rw [hordered]
        rfl

/-- While something is left, no message has completed the data. -/
lemma Sending.incomplete (h : Sending s data msgs st rest) (hrest : rest ≠ [])
    {pre post : List PieceUploadRequest} (hmsgs : msgs = pre ++ post) : sentData pre ≠ data := by
  intro heq
  have hlen := congrArg List.length h.split
  have hpos := List.length_pos_iff.mpr hrest
  rw [hmsgs, sentData_append, List.length_append, List.length_append, heq] at hlen
  omega

/-- The account with one more message. -/
lemma Sending.accounted_request (h : Sending s data msgs st rest) (hrest : rest ≠ [])
    (hlimit : (data.length : ℤ) ≤ s.limit.limit) (hdata : (data.length : ℤ) ≤ i64Max) :
    Accounted s data (msgs ++ [s.request digest rest st]) where
  data_eq := by
    rw [sentData_request, h.split, List.prefix_append_right_inj]
    exact List.take_prefix _ _
  chunk pre m post hmsgs c hc := by
    rcases append_single_cases hmsgs with ⟨-, rfl, rfl⟩ | ⟨rest', -, hold⟩
    · obtain rfl := (Option.some.inj hc).symm
      have hpos := chunkSize_pos hrest (s := s)
      have hlen := length_take_chunkSize s rest
      refine ⟨?_, h.offset_eq, _, h.latest hrest, ?_⟩
      · intro hnil
        have hnil : rest.take (s.chunkSize rest) = [] := hnil
        rw [hnil, List.length_nil] at hlen
        omega
      · rw [hlen]
        exact h.chunkEnd_le_ordered hrest hlimit hdata
    · exact h.accounted.chunk pre m rest' hold c hc
  ascending := by
    rw [amounts_request]
    split_ifs with horders
    · rw [List.pairwise_append]
      refine ⟨h.accounted.ascending, List.pairwise_singleton _ _, ?_⟩
      intro x hx y hy
      rw [List.mem_singleton] at hy
      have hle := h.ordered_max x hx
      have hend := h.chunkEnd_le_ordered hrest hlimit hdata
      rw [Session.orders, decide_eq_true_eq] at horders
      omega
    · rw [List.append_nil]
      exact h.accounted.ascending
  amount_le amount hamount := by
    rw [amounts_request, List.mem_append] at hamount
    rcases hamount with hamount | hamount
    · exact h.accounted.amount_le amount hamount
    · split_ifs at hamount with horders
      · rw [List.mem_singleton] at hamount
        rw [hamount, Session.ordered, if_pos horders]
        exact min_le_right _ _
      · cases hamount
  header pre m post hmsgs := by
    rcases append_single_cases hmsgs with ⟨-, rfl, rfl⟩ | ⟨rest', -, hold⟩
    · cases hfirst : st.first with
      | true =>
          rw [if_pos (h.first_iff.mp hfirst)]
          simp [Session.request, hfirst]
      | false =>
          have hne : pre ≠ [] := by
            rw [Ne, ← h.first_iff, hfirst]
            simp
          rw [if_neg hne]
          simp [Session.request, hfirst]
    · exact h.accounted.header pre m rest' hold
  done pre m post hmsgs := by
    rcases append_single_cases hmsgs with ⟨hpost, rfl, rfl⟩ | ⟨rest', -, hold⟩
    · have hiff : sentData (pre ++ [s.request digest rest st]) = data
          ↔ rest.drop (s.chunkSize rest) = [] := by
        rw [sentData_request, h.split, List.append_cancel_left_eq, List.take_eq_self_iff,
          List.drop_eq_nil_iff]
      split_ifs with hcomplete
      · have hend : s.chunkEnd rest st = data.length := by
          have hlen := congrArg List.length hcomplete
          rw [sentData_request, List.length_append, length_take_chunkSize] at hlen
          rw [Session.chunkEnd, h.offset_eq, ← hlen]
          push_cast
          rfl
        refine ⟨hpost, s.signedUplinkHash digest (s.chunkEnd rest st), ?_, hend⟩
        rw [Session.request, if_pos (hiff.mp hcomplete)]
      · rw [Session.request, if_neg (mt hiff.mpr hcomplete)]
    · have hnot : sentData (pre ++ [m]) ≠ data := by
        have hsplit : msgs = (pre ++ [m]) ++ rest' := by
          rw [hold]
          simp
        exact h.incomplete hrest hsplit
      have hdone := h.accounted.done pre m rest' hold
      rw [if_neg hnot] at hdone ⊢
      exact hdone

/-- **Step.** -/
theorem Sending.turn (h : Sending s data msgs st rest) (hvalid : s.config.Valid) (hrest : rest ≠ [])
    (digest : List UInt8) (hlimit : (data.length : ℤ) ≤ s.limit.limit)
    (hdata : (data.length : ℤ) ≤ i64Max) :
    Sending s data (msgs ++ [s.request digest rest st]) (s.next rest st)
      (rest.drop (s.chunkSize rest)) := by
  have hbuf : 1 ≤ (s.buf : ℤ) ∧ (s.buf : ℤ) ≤ s.config.maximumStep := by
    have hpos := hvalid.buffer_pos
    have hmax := hvalid.maximum.1
    rw [Session.buf]
    omega
  have hbounds := nextOrderStep_bounds hbuf.1 h.step_low hbuf.2
  have hpos := chunkSize_pos hrest (s := s)
  have hoffset := h.offset_eq
  refine
    { accounted := h.accounted_request hrest hlimit hdata
      split := ?_
      offset_eq := ?_
      ordered_eq := ?_
      ordered_max := ?_
      first_iff := by simp [Session.next]
      reach := ?_
      step_start := ?_
      step_low := ?_
      step_high := ?_
      growth := ?_ }
  · rw [sentData_request, List.append_assoc, List.take_append_drop]
    exact h.split
  · rw [sentData_request, List.length_append, length_take_chunkSize, Session.next,
      Session.chunkEnd, hoffset]
    push_cast
    rfl
  · rw [h.latest hrest]
    rfl
  · intro amount hamount
    have hend := h.chunkEnd_le_ordered hrest hlimit hdata
    rw [amounts_request, List.mem_append] at hamount
    show amount ≤ s.ordered rest st
    rcases hamount with hamount | hamount
    · have hle := h.ordered_max amount hamount
      by_cases horders : s.orders rest st = true
      · rw [Session.orders, decide_eq_true_eq] at horders
        omega
      · rw [Session.ordered, if_neg horders]
        exact hle
    · split_ifs at hamount with horders
      · rw [List.mem_singleton] at hamount
        exact hamount.le
      · cases hamount
  · -- a chunk that is shorter than the buffer is the last one
    show s.chunkEnd rest st = 0 ∨ (s.buf : ℤ) ≤ s.chunkEnd rest st ∨ _
    rw [Session.chunkEnd, List.drop_eq_nil_iff, Session.chunkSize]
    omega
  · intro hzero
    have hzero : s.chunkEnd rest st = 0 := hzero
    rw [Session.chunkEnd] at hzero
    omega
  · rw [Session.next]
    split_ifs
    · exact hbounds.1
    · exact h.step_low
  · have hhigh := h.step_high
    simp only [Session.next]
    split_ifs
    · rw [i64Max]
      omega
    · exact hhigh
  · have hgrowth := h.growth
    right
    simp only [Session.next, Session.ordered]
    split_ifs with horders
    · -- either the limit clips the order, or the order is a step or more
      omega
    · -- something was ordered before
      rw [Session.orders, decide_eq_true_eq, Session.chunkEnd] at horders
      omega

/-- **Run.**  Whatever the connection does, the messages sent are accounted for; a run that ends by
itself has sent everything; and a run without overflow does not panic. -/
theorem Sending.run {ε : Type} (send : PieceUploadRequest → Except ε Unit) (digest : List UInt8)
    (h : Sending s data msgs st rest) (hvalid : s.config.Valid)
    (hlimit : (data.length : ℤ) ≤ s.limit.limit) (hdata : (data.length : ℤ) ≤ i64Max) :
    Accounted s data (msgs ++ (s.uploadLoop send digest rest st).1) ∧
      ((s.uploadLoop send digest rest st).2 = none →
        sentData (msgs ++ (s.uploadLoop send digest rest st).1) = data) ∧
      (5 * (data.length : ℤ) ≤ 2 * i64Max →
        (s.uploadLoop send digest rest st).2 ≠ some .panicked) := by
  fun_induction Session.uploadLoop s send digest rest st generalizing msgs with
  | case1 st =>
      refine ⟨by rw [List.append_nil]; exact h.accounted, fun _ => ?_, by simp⟩
      rw [List.append_nil]
      exact (h.split.trans (List.append_nil _)).symm
  | case2 rest st hrest hover =>
      refine ⟨by rw [List.append_nil]; exact h.accounted, by simp, fun hsmall => ?_⟩
      rw [h.not_overflows hlimit hsmall] at hover
      cases hover
  | case3 rest st hrest hover e hsend =>
      exact ⟨by rw [List.append_nil]; exact h.accounted, by simp, by simp⟩
  | case4 rest st hrest hover hsend r =>
      rename_i ih
      have hnext := ih (h.turn hvalid hrest digest hlimit hdata)
      rwa [List.append_assoc, List.singleton_append] at hnext

/-- The message of an empty piece. -/
lemma accounted_empty : Accounted s [] [s.emptyRequest digest] where
  data_eq := by simp [sentData, chunks, Session.emptyRequest]
  chunk pre m post hmsgs c hc := by
    obtain ⟨rfl, rfl, rfl⟩ := single_cases hmsgs
    cases hc
  ascending := by simp [amounts, Session.emptyRequest]
  amount_le := by simp [amounts, Session.emptyRequest]
  header pre m post hmsgs := by
    obtain ⟨rfl, rfl, rfl⟩ := single_cases hmsgs
    simp [Session.emptyRequest]
  done pre m post hmsgs := by
    obtain ⟨rfl, rfl, rfl⟩ := single_cases hmsgs
    simp [sentData, chunks, Session.emptyRequest, Session.signedUplinkHash]

/-- **Upload order accounting.**  Whatever the connection does, the messages that `upload_once` has
sent are accounted for, and when the loop is through they hold the whole piece.  The loop does not
panic for pieces of up to two fifths of the `i64` range, whatever the steps. -/
theorem uploadOnce_accounted {ε : Type} {s : Session} {data : List UInt8} (digest : List UInt8)
    (send : PieceUploadRequest → Except ε Unit) (hvalid : s.config.Valid)
    (hlimit : (data.length : ℤ) ≤ s.limit.limit) (hrange : s.limit.limit ≤ i64Max) :
    Accounted s data (s.uploadOnce send data digest).1 ∧
      ((s.uploadOnce send data digest).2 = none →
        sentData (s.uploadOnce send data digest).1 = data ∧
          (s.uploadOnce send data digest).1 ≠ []) ∧
      (5 * (data.length : ℤ) ≤ 2 * i64Max →
        (s.uploadOnce send data digest).2 ≠ some .panicked) := by
  rw [Session.uploadOnce]
  by_cases hempty : data = []
  · rw [if_pos hempty, hempty]
    cases send (s.emptyRequest digest) with
    | error e => exact ⟨Accounted.nil, by simp, by simp⟩
    | ok _ =>
        refine ⟨accounted_empty, fun _ => ⟨?_, by simp⟩, by simp⟩
        simp [sentData, chunks, Session.emptyRequest]
  · rw [if_neg hempty]
    obtain ⟨haccounted, hall, hpanic⟩ := (Sending.start hvalid data).run send digest hvalid
      hlimit (hlimit.trans hrange)
    rw [List.nil_append] at haccounted hall
    refine ⟨haccounted, fun hend => ⟨hall hend, fun hnil => hempty ?_⟩, hpanic⟩
    rw [← hall hend, hnil]
    rfl

end Upload

/-- A session for a piece of at most `limit` bytes, with signatures that are empty. -/
def sampleSession (config : Config) (limit : ℤ) : Session where
  config := config
  hashAlgo := .blake3
  limit := ⟨[1], [2], limit⟩
  signOrder := fun _ => []
  signHash := fun _ => []

/-- A connection that takes every message. -/
def takesAll : PieceUploadRequest → Except Unit Unit := fun _ => .ok ()

/-- Five bytes in chunks of two. -/
theorem uploadOnce_accounted_sample :
    Accounted (sampleSession ⟨2, 2, 3, 1⟩ 5) [1, 2, 3, 4, 5]
        ((sampleSession ⟨2, 2, 3, 1⟩ 5).uploadOnce takesAll [1, 2, 3, 4, 5] []).1 ∧
      ((sampleSession ⟨2, 2, 3, 1⟩ 5).uploadOnce takesAll [1, 2, 3, 4, 5] []).2
        ≠ some .panicked := by
  have hvalid : (sampleSession ⟨2, 2, 3, 1⟩ 5).config.Valid := ⟨by decide, by decide, by decide⟩
  have hlimit : (([1, 2, 3, 4, 5] : List UInt8).length : ℤ)
      ≤ (sampleSession ⟨2, 2, 3, 1⟩ 5).limit.limit := by decide
  obtain ⟨haccounted, -, hpanic⟩ := uploadOnce_accounted [] takesAll hvalid hlimit (by decide)
  exact ⟨haccounted, hpanic (by decide)⟩

/-! ### A piece that is too large

The one addition that is not guarded.  Only a piece near the end of the `i64` range reaches it.
-/

lemma uploadLoop_panic {ε : Type} {s : Session} {send : PieceUploadRequest → Except ε Unit}
    {digest rest : List UInt8} {st : UploadState} (hrest : rest ≠ [])
    (hover : s.overflows rest st = true) :
    s.uploadLoop send digest rest st = ([], some .panicked) := by
  rw [Session.uploadLoop, dif_neg hrest, if_pos hover]

lemma uploadLoop_send {ε : Type} {s : Session} {send : PieceUploadRequest → Except ε Unit}
    {digest rest : List UInt8} {st : UploadState} (hrest : rest ≠ [])
    (hover : s.overflows rest st = false) (hsend : send (s.request digest rest st) = .ok ()) :
    (s.uploadLoop send digest rest st).2
      = (s.uploadLoop send digest (rest.drop (s.chunkSize rest)) (s.next rest st)).2 := by
  conv_lhs => rw [Session.uploadLoop]
  rw [dif_neg hrest, if_neg (Bool.eq_false_iff.mp hover), hsend]

/-- A buffer and steps of six quintillion bytes. -/
def hugeConfig : Config := ⟨6 * 10 ^ 18, 6 * 10 ^ 18, 6 * 10 ^ 18, 1⟩

/-- A session with them, for a piece of one byte more. -/
def hugeSession : Session := sampleSession hugeConfig (6 * 10 ^ 18 + 1)

/-- The variables in front of its first message. -/
def hugeStart : UploadState := ⟨0, 0, 6 * 10 ^ 18, true⟩

section Huge

variable {data : List UInt8}

lemma chunkSize_huge (hlen : data.length = 6 * 10 ^ 18 + 1) :
    hugeSession.chunkSize data = 6 * 10 ^ 18 := by
  have hbuf : hugeSession.buf = 6 * 10 ^ 18 := rfl
  rw [Session.chunkSize, hbuf, hlen]
  omega

/-- The first order is for the buffer. -/
lemma orders_huge (hsize : hugeSession.chunkSize data = 6 * 10 ^ 18) :
    hugeSession.orders data hugeStart = true := by
  rw [Session.orders, Session.chunkEnd, hsize]
  decide

lemma next_huge (hsize : hugeSession.chunkSize data = 6 * 10 ^ 18) :
    hugeSession.next data hugeStart = ⟨6 * 10 ^ 18, 6 * 10 ^ 18, 2 ^ 62 - 1, false⟩ := by
  rw [Session.next, Session.ordered, orders_huge hsize, Session.chunkEnd, hsize]
  decide

lemma overflows_huge_first (hsize : hugeSession.chunkSize data = 6 * 10 ^ 18) :
    hugeSession.overflows data hugeStart = false := by
  rw [Session.overflows, Session.chunkEnd, hsize, orders_huge hsize]
  decide

/-- The second order would be beyond the range. -/
lemma overflows_huge_second (hrest : hugeSession.chunkSize data = 1) :
    hugeSession.overflows data ⟨6 * 10 ^ 18, 6 * 10 ^ 18, 2 ^ 62 - 1, false⟩ = true := by
  rw [Session.overflows, Session.orders, Session.chunkEnd, hrest]
  decide

lemma uploadOnce_huge (hlen : data.length = 6 * 10 ^ 18 + 1) :
    (hugeSession.uploadOnce takesAll data []).2 = some .panicked := by
  have hsize := chunkSize_huge hlen
  have hne : data ≠ [] := by
    rintro rfl
    rw [List.length_nil] at hlen
    omega
  have hlast : (data.drop (hugeSession.chunkSize data)).length = 1 := by
    rw [List.length_drop, hsize, hlen]
    omega
  have hrest : data.drop (hugeSession.chunkSize data) ≠ [] := by
    intro hnil
    rw [hnil] at hlast
    cases hlast
  have hone : hugeSession.chunkSize (data.drop (hugeSession.chunkSize data)) = 1 := by
    have hbuf : hugeSession.buf = 6 * 10 ^ 18 := rfl
    rw [Session.chunkSize, hbuf, hlast]
    omega
  have hstart : hugeSession.uploadOnce takesAll data []
      = hugeSession.uploadLoop takesAll [] data hugeStart := by
    rw [Session.uploadOnce, if_neg hne]
    rfl
  rw [hstart, uploadLoop_send hne (overflows_huge_first hsize) rfl, next_huge hsize,
    uploadLoop_panic hrest (overflows_huge_second hone)]

end Huge

/-- A valid configuration and a piece within its limit for which the order overflows. -/
theorem uploadOnce_overflow :
    hugeSession.config.Valid ∧
      ((List.replicate (6 * 10 ^ 18 + 1) (0 : UInt8)).length : ℤ) ≤ hugeSession.limit.limit ∧
      (hugeSession.uploadOnce takesAll
        (List.replicate (6 * 10 ^ 18 + 1) 0) []).2 = some .panicked := by
  refine ⟨⟨by decide, by decide, by decide⟩, ?_, uploadOnce_huge List.length_replicate⟩
  rw [List.length_replicate]
  decide

end Storj.Piecestore
