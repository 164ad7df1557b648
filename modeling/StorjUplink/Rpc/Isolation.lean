import StorjUplink.Rpc.Call

/-!
# Responses on a reused connection

RPCs are made one after another on one connection.  Packets of earlier streams may still be in the
buffer, in the assembler or in the queue when a call starts; both loops that wait for an answer pass
them over.

The proof has two layers.  `scan` is what a waiting call does to the list of packets that are still
to be delivered, wherever they are: a call over a connection in the middle of a stream is a scan of
the queue and of the packets behind it (`Flow.awaitMessage`).  Over lists, a scan that meets no
later stream returns the first answer of its own stream and leaves the others.

`Session` bundles what the result holds under.  The peer cannot answer an RPC before it is opened:
of the packets of later RPCs, no byte is read before.  The ids are naturals here and `u64` in the
source; those of a session of fewer than `2 ^ 64` RPCs fit (`Session.nextStreamId_le`).
-/

namespace Storj.Rpc

open Stateful

/-! ## RPCs, one after another

An RPC is one call of `invoke`, or a stream with calls on it.  It ends before the next one begins,
well or with an error.
-/

/-- A call on an open stream. -/
inductive StreamCall where
  | sendMsg (data : List UInt8)
  | recvMsg
  | closeSend
  | closeStream
deriving DecidableEq, Repr

/-- One RPC: `invoke`, or `open_stream` and calls on the stream. -/
inductive RpcCall where
  | unary (rpc request : List UInt8)
  | streaming (rpc : List UInt8) (calls : List StreamCall)
deriving DecidableEq, Repr

/-- What `invoke` or `recv_msg` returns. -/
abbrev Reply := Except Stop (List UInt8)

/-- A call on the handle with a number, with what its receive returns. -/
def StreamCall.run (i : ℕ) (call : StreamCall) (s : Link) : List Reply × Link :=
  match s.streams[i]? with
  | none => ([], s)
  | some stream =>
      match call with
      | .sendMsg data => ([], (Rpc.sendMsg i stream data s).2)
      | .recvMsg => ([(Rpc.recvMsg stream s).1], (Rpc.recvMsg stream s).2)
      | .closeSend => ([], (Rpc.closeSend i stream s).2)
      | .closeStream => ([], (Rpc.closeStream i stream s).2)

/-- Calls on a handle, one after the other, with the replies that they give. -/
def runStream (i : ℕ) : List StreamCall → Link → List Reply × Link
  | [], s => ([], s)
  | call :: calls, s =>
      let r := call.run i s
      let rs := runStream i calls r.2
      (r.1 ++ rs.1, rs.2)

/-- An RPC, with what its receives return: the answer of a unary call, or the replies to the calls
on a stream that was opened. -/
def RpcCall.run : RpcCall → Link → List Reply × Link
  | .unary rpc request, s => ([(invoke rpc request s).1], (invoke rpc request s).2)
  | .streaming rpc calls, s =>
      match openStream rpc s with
      | (.error _, t) => ([], t)
      | (.ok (), t) => runStream s.streams.length calls t

/-- The state after some RPCs. -/
def Link.after (s : Link) (rpcs : List RpcCall) : Link := rpcs.foldl (fun s r => (r.run s).2) s

/-! ## What the replies should be

A function of the packets of one stream and of how often the RPC waits.  Packets of other streams
do not occur in it.
-/

/-- The packets of one stream. -/
def ownPackets (streamId : ℕ) (ps : List Packet) : List Packet :=
  ps.filter fun pkt => pkt.streamId = streamId

/-- What a receive returns for an answer; without one the stream is over. -/
def replyOf : Option (Except CallError (List UInt8)) → Reply
  | some (.ok data) => .ok data
  | some (.error e) => .error (.error e)
  | none => .error (.error (.conn .closed))

/-- What so many receives return. -/
def repliesTo : List (Except CallError (List UInt8)) → ℕ → List Reply
  | _, 0 => []
  | answers, n + 1 => replyOf answers.head? :: repliesTo answers.tail n

/-- How often an RPC waits for an answer. -/
def RpcCall.receives : RpcCall → ℕ
  | .unary _ _ => 1
  | .streaming _ calls => calls.count .recvMsg

/-- The replies that an RPC gets from the packets of its own stream. -/
def RpcCall.replies (call : RpcCall) (own : List Packet) : List Reply :=
  repliesTo (own.filterMap answerOf) call.receives

/-! ## Waiting for an answer is a scan

The queue, the buffer and the bytes to come are one list of packets, and waiting goes through it
from the front.
-/

/-- What a waiting call does to the packets that are still to be delivered. -/
def scan (streamId : ℕ) : List Packet → Reply × List Packet
  | [] => (.error (.error (.conn .closed)), [])
  | pkt :: rest =>
      if pkt.streamId ≠ streamId then
        if pkt.streamId < streamId then scan streamId rest
        else (.error (.error (.unexpectedStream pkt.streamId streamId)), rest)
      else
        match answerOf pkt with
        | some (.ok data) => (.ok data, rest)
        | some (.error e) => (.error (.error e), rest)
        | none => scan streamId rest

/-- The answers of one stream. -/
def answers (streamId : ℕ) (l : List Packet) : List (Except CallError (List UInt8)) :=
  (ownPackets streamId l).filterMap answerOf

lemma answers_cons_ne {streamId : ℕ} {pkt : Packet} (l : List Packet) (h : pkt.streamId ≠ streamId) :
    answers streamId (pkt :: l) = answers streamId l := by
  simp [answers, ownPackets, h]

lemma answers_cons_self {streamId : ℕ} {pkt : Packet} (l : List Packet)
    (h : pkt.streamId = streamId) :
    answers streamId (pkt :: l) = (answerOf pkt).toList ++ answers streamId l := by
  cases hans : answerOf pkt with
  | none => simp [answers, ownPackets, h, hans]
  | some r => simp [answers, ownPackets, h, hans]

/-- **A scan that meets no later stream** returns the first answer of its own stream. -/
lemma scan_spec (streamId : ℕ) (l : List Packet) :
    ∃ used, l = used ++ (scan streamId l).2 ∧ ((∀ pkt ∈ used, pkt.streamId ≤ streamId) →
      (scan streamId l).1 = replyOf (answers streamId l).head? ∧
      answers streamId (scan streamId l).2 = (answers streamId l).tail) := by
  induction l with
  | nil => exact ⟨[], rfl, fun _ => ⟨rfl, rfl⟩⟩
  | cons pkt l ih =>
      obtain ⟨used, hl, hspec⟩ := ih
      -- a packet that is passed over adds nothing
      have hpass : scan streamId (pkt :: l) = scan streamId l →
          answers streamId (pkt :: l) = answers streamId l →
          ∃ used, pkt :: l = used ++ (scan streamId (pkt :: l)).2 ∧
            ((∀ pkt ∈ used, pkt.streamId ≤ streamId) →
              (scan streamId (pkt :: l)).1 = replyOf (answers streamId (pkt :: l)).head? ∧
              answers streamId (scan streamId (pkt :: l)).2 = (answers streamId (pkt :: l)).tail) := by
        intro hscan hans
        refine ⟨pkt :: used, ?_, fun hle => ?_⟩
        · rw [hscan, List.cons_append, ← hl]
        · rw [hscan, hans]
          exact hspec fun q hq => hle q (List.mem_cons_of_mem _ hq)
      by_cases hid : pkt.streamId = streamId
      · cases hans : answerOf pkt with
        | none =>
            refine hpass ?_ ?_
            · simp [scan, hid, hans]
            · simp [answers_cons_self l hid, hans]
        | some r =>
            have hscan : scan streamId (pkt :: l) = (replyOf (some r), l) := by
              cases r with
              | ok data => simp [scan, hid, hans, replyOf]
              | error e => simp [scan, hid, hans, replyOf]
            rw [hscan, answers_cons_self l hid, hans]
            exact ⟨[pkt], rfl, fun _ => ⟨rfl, rfl⟩⟩
      · by_cases hlt : pkt.streamId < streamId
        · refine hpass ?_ (answers_cons_ne l hid)
          simp [scan, hid, hlt]
        · have hscan : (scan streamId (pkt :: l)).2 = l := by
            simp [scan, hid, hlt]
          refine ⟨[pkt], by rw [hscan]; rfl, fun hle => ?_⟩
          have := hle pkt List.mem_cons_self
          omega

namespace Conn

/-- A call that is not dropped reads as `read_packet` does. -/
lemma readPacketCut_none (c : Conn) :
    c.readPacketCut none = (some c.readPacketLoop.1, c.readPacketLoop.2, none) := by
  fun_induction readPacketLoop c with
  | case1 c e d hparse =>
      rw [readPacketCut]
      split <;> simp_all
  | case2 c pkt d hparse =>
      rw [readPacketCut]
      split <;> simp_all
  | case3 c d hparse hsame e d' hfill =>
      rw [readPacketCut]
      split
      · simp_all
      · simp_all
      · next d₁ hparse₁ =>
          obtain rfl : d₁ = d := by simp_all
          rw [dif_pos hsame, if_neg nofun]
          split <;> simp_all
  | case4 c d hparse hsame d' hfill ih =>
      rw [readPacketCut]
      split
      · simp_all
      · simp_all
      · next d₁ hparse₁ =>
          obtain rfl : d₁ = d := by simp_all
          rw [dif_pos hsame, if_neg nofun]
          split <;> simp_all
  | case5 c d hparse hsame ih =>
      rw [readPacketCut]
      split <;> simp_all

lemma awaitMessage_of_error {c d : Conn} {streamId : ℕ} {budget b : Option ℕ} {e : Error}
    (hread : c.readPacketWithin budget = (some (.error e), d, b)) :
    c.awaitMessage streamId budget = (.error (.error (.conn e)), d) := by
  rw [awaitMessage]
  split <;> simp_all

/-- The loop after a packet was read. -/
lemma awaitMessage_of_ok {c d : Conn} {streamId : ℕ} {budget b : Option ℕ} {pkt : Packet}
    (hread : c.readPacketWithin budget = (some (.ok pkt), d, b)) :
    c.awaitMessage streamId budget =
      if pkt.streamId ≠ streamId then
        if pkt.streamId < streamId then d.awaitMessage streamId b
        else (.error (.error (.unexpectedStream pkt.streamId streamId)), d)
      else
        match answerOf pkt with
        | some (.ok data) => (.ok data, d)
        | some (.error e) => (.error (.error e), d)
        | none => d.awaitMessage streamId b := by
  rw [awaitMessage]
  split
  · simp_all
  · simp_all
  · next pkt' d' b' hread' =>
      rw [hread] at hread'
      cases hread'
      rfl

end Conn

namespace Flow

variable {split : ℕ} {c : Conn} {fs : List Frame} {ps : List Packet}

/-- **Reading a packet** takes the first of those that are still to be delivered, and says that the
stream is closed where there are none. -/
lemma readPacketWithin (h : Flow split [] c fs ps) (hh : ∀ ev ∈ c.io, ev.Healthy) :
    ∃ d fs' ps', Flow split [] d fs' ps' ∧ d.io <:+ c.io ∧
      ((∃ pkt, c.readPacketWithin none = (some (.ok pkt), d, none) ∧
          c.pending ++ ps = pkt :: (d.pending ++ ps')) ∨
        (c.readPacketWithin none = (some (.error .closed), d, none) ∧
          c.pending ++ ps = [] ∧ d.pending ++ ps' = [])) := by
  cases hpend : c.pending with
  | cons pkt rest =>
      refine ⟨{ c with pending := rest }, fs, ps, ⟨h.bytes, h.expects, h.frames, h.packets⟩,
        List.suffix_refl _, Or.inl ⟨pkt, ?_, rfl⟩⟩
      rw [Conn.readPacketWithin, hpend]
  | nil =>
      have hread : c.readPacketWithin none = (some c.readPacketLoop.1, c.readPacketLoop.2, none) := by
        rw [Conn.readPacketWithin, hpend]
        exact c.readPacketCut_none
      obtain ⟨d, fs', hsuf, hd, ⟨pkt, ps', rfl, heq, hflow⟩ | ⟨e, heq, -, hflow, hend⟩⟩ :=
        h.readPacketLoop
      · rw [hpend] at hd
        refine ⟨d, fs', ps', hflow, hsuf, Or.inl ⟨pkt, ?_, ?_⟩⟩
        · rw [hread, heq]
        · rw [hd, List.nil_append, List.nil_append]
      · obtain ⟨rfl, rfl⟩ := hend hh rfl
        rw [hpend] at hd
        refine ⟨d, fs', [], hflow, hsuf, Or.inr ⟨?_, rfl, ?_⟩⟩
        · rw [hread, heq]
        · rw [hd, List.nil_append]

/-- **Waiting for an answer is a scan** of the packets that are still to be delivered. -/
theorem awaitMessage (h : Flow split [] c fs ps) (hh : ∀ ev ∈ c.io, ev.Healthy) (streamId : ℕ) :
    ∃ d fs' ps', Flow split [] d fs' ps' ∧ d.io <:+ c.io ∧
      c.awaitMessage streamId none = ((scan streamId (c.pending ++ ps)).1, d) ∧
      d.pending ++ ps' = (scan streamId (c.pending ++ ps)).2 := by
  generalize hl : c.pending ++ ps = l
  induction l generalizing c fs ps with
  | nil =>
      obtain ⟨d, fs', ps', hflow, hsuf, ⟨pkt, -, hcons⟩ | ⟨hread, -, hnil⟩⟩ := h.readPacketWithin hh
      · rw [hl] at hcons
        cases hcons
      · exact ⟨d, fs', ps', hflow, hsuf, Conn.awaitMessage_of_error hread, hnil⟩
  | cons pkt l ih =>
      obtain ⟨d, fs', ps', hflow, hsuf, ⟨pkt', hread, hcons⟩ | ⟨-, hnil, -⟩⟩ :=
        h.readPacketWithin hh
      · rw [hl] at hcons
        obtain ⟨rfl, rfl⟩ := List.cons.inj hcons
        -- the call goes on where the packet is passed over
        obtain ⟨g, gs, qs, hgflow, hgsuf, hgeq, hgrest⟩ :=
          ih hflow (fun ev hev => hh ev (hsuf.mem hev)) rfl
        rw [Conn.awaitMessage_of_ok hread, scan]
        by_cases hid : pkt.streamId = streamId
        · rw [if_neg (not_not_intro hid), if_neg (not_not_intro hid)]
          cases answerOf pkt with
          | none => exact ⟨g, gs, qs, hgflow, hgsuf.trans hsuf, hgeq, hgrest⟩
          | some r =>
              cases r with
              | ok data => exact ⟨d, fs', ps', hflow, hsuf, rfl, rfl⟩
              | error e => exact ⟨d, fs', ps', hflow, hsuf, rfl, rfl⟩
        · rw [if_pos hid, if_pos hid]
          by_cases hlt : pkt.streamId < streamId
          · rw [if_pos hlt, if_pos hlt]
            exact ⟨g, gs, qs, hgflow, hgsuf.trans hsuf, hgeq, hgrest⟩
          · rw [if_neg hlt, if_neg hlt]
            exact ⟨d, fs', ps', hflow, hsuf, rfl, rfl⟩
      · rw [hl] at hnil
        cases hnil

end Flow

/-! ## What has been read

A peer that has not seen a request cannot have answered it, so packets of later streams lie behind
everything that an RPC reads.
-/

section Lengths

variable {split : ℕ}

/-- A frame with more data is not shorter. -/
lemma length_frame_le (pkt : Packet) {done done' : Bool} {data data' : List UInt8}
    (h : data.length ≤ data'.length) :
    (pkt.frame done data).encode.length ≤ (pkt.frame done' data').encode.length := by
  have hlen := length_appendVarint_mono h
  simp only [Frame.encode_eq, Packet.frame, List.length_append, List.length_singleton]
  omega

/-- What is left of a packet takes no more bytes than the packet. -/
lemma length_frames_le {n : ℕ} {hn : 0 < n} (pkt : Packet) {rest data : List UInt8}
    (h : rest.length ≤ data.length) :
    ((pkt.frames n hn rest).flatMap Frame.encode).length
      ≤ ((pkt.frames n hn data).flatMap Frame.encode).length := by
  fun_induction Packet.frames n hn pkt rest generalizing data with
  | case1 rest hlong ih =>
      have hdata : data.length > n := by omega
      have hdrop : (rest.drop n).length ≤ (data.drop n).length := by
        rw [List.length_drop, List.length_drop]
        omega
      have hhead : (pkt.frame false (rest.take n)).encode.length
          ≤ (pkt.frame false (data.take n)).encode.length :=
        length_frame_le pkt (by rw [List.length_take, List.length_take]; omega)
      have htail := ih hdrop
      conv_rhs => rw [Packet.frames, if_pos hdata]
      rw [List.flatMap_cons, List.flatMap_cons, List.length_append, List.length_append]
      exact Nat.add_le_add hhead htail
  | case2 rest hshort =>
      rw [Packet.frames, List.flatMap_singleton]
      split_ifs with hdata
      · rw [List.flatMap_cons, List.length_append]
        refine le_trans (length_frame_le pkt ?_) (Nat.le_add_right _ _)
        rw [List.length_take]
        omega
      · rw [List.flatMap_singleton]
        exact length_frame_le pkt h

lemma length_wire (ps : List Packet) :
    (wire split ps).length = (ps.map fun pkt => ((pkt.frames (splitSize split) (splitSize_pos split)
      pkt.data).flatMap Frame.encode).length).sum := by
  rw [wire_eq, framesOf, List.flatMap_assoc, List.length_flatMap]

lemma length_wire_append (ps qs : List Packet) :
    (wire split (ps ++ qs)).length = (wire split ps).length + (wire split qs).length := by
  simp only [length_wire, List.map_append, List.sum_append]

/-- No packet is empty on the wire. -/
lemma length_wire_singleton_pos (split : ℕ) (pkt : Packet) : 0 < (wire split [pkt]).length := by
  rw [wire_eq, framesOf, List.flatMap_singleton]
  have hne : pkt.frames (splitSize split) (splitSize_pos split) pkt.data ≠ [] :=
    Packet.frames_ne_nil pkt.data
  obtain ⟨fr, t, hfr⟩ := List.exists_cons_of_ne_nil hne
  rw [hfr, List.flatMap_cons, List.length_append]
  have := List.length_pos_of_ne_nil fr.encode_ne_nil
  omega

lemma length_wire_filter_le (split : ℕ) (p : Packet → Bool) (ps : List Packet) :
    (wire split (ps.filter p)).length ≤ (wire split ps).length := by
  induction ps with
  | nil => exact le_rfl
  | cons pkt ps ih =>
      rw [← List.singleton_append, List.filter_append, length_wire_append, length_wire_append]
      refine Nat.add_le_add ?_ ih
      rw [List.filter_singleton]
      cases p pkt with
      | true => exact le_rfl
      | false => exact Nat.zero_le _

/-- The frames that are still to come are no more than those of the packets. -/
lemma Expects.length_le {a : PacketAssembler} {fs : List Frame} {ps : List Packet}
    (h : Expects split a fs ps) : (fs.flatMap Frame.encode).length ≤ (wire split ps).length := by
  cases h with
  | between hmax hcur hasc => rw [wire_eq]
  | @inside pkt got rest ps hold hdata hasc =>
      have hrest : rest.length ≤ pkt.data.length := by
        rw [hdata, List.length_append]
        exact Nat.le_add_left _ _
      have hhead : ((pkt.frames (splitSize split) (splitSize_pos split) rest).flatMap
          Frame.encode).length ≤ ((pkt.frames (splitSize split) (splitSize_pos split)
            pkt.data).flatMap Frame.encode).length := length_frames_le pkt hrest
      have hcons : framesOf split (pkt :: ps) = pkt.frames (splitSize split) (splitSize_pos split)
          pkt.data ++ framesOf split ps := List.flatMap_cons
      rw [wire_eq, hcons, List.flatMap_append, List.length_append, List.flatMap_append,
        List.length_append]
      exact Nat.add_le_add_right hhead _

/-- **What was taken was sent.**  Where no byte behind the packets of the streams below `next` is
read, no packet of the other streams is taken. -/
lemma Flow.taken_lt {c : Conn} {fs : List Frame} {gone qs : List Packet} {next total : ℕ}
    (h : Flow split [] c fs qs)
    (hasc : (gone ++ (c.pending ++ qs)).Pairwise
      fun p q => idLess p.streamId p.messageId q.streamId q.messageId)
    (htotal : total = (wire split (gone ++ (c.pending ++ qs))).length)
    (hread : total ≤ (ioBytes c.io).length
      + (wire split ((gone ++ (c.pending ++ qs)).filter fun pkt => pkt.streamId < next)).length) :
    ∀ pkt ∈ gone, pkt.streamId < next := by
  intro pkt hpkt
  by_contra hge
  obtain ⟨a, b, rfl⟩ := List.append_of_mem hpkt
  -- of the packets from this one on, none is of a stream below `next`
  have hlater : ∀ q ∈ pkt :: (b ++ (c.pending ++ qs)), ¬q.streamId < next := by
    rw [List.append_assoc, List.pairwise_append, List.cons_append, List.pairwise_cons] at hasc
    intro q hq
    rcases List.mem_cons.mp hq with rfl | hq
    · exact hge
    · have hlt := hasc.2.1.1 q hq
      simp only [idLess, decide_eq_true_eq] at hlt
      omega
  have hfilter : ((a ++ pkt :: b) ++ (c.pending ++ qs)).filter (fun pkt => pkt.streamId < next)
      = a.filter fun pkt => pkt.streamId < next := by
    rw [List.append_assoc, List.cons_append, List.filter_append]
    have hnil : (pkt :: (b ++ (c.pending ++ qs))).filter (fun pkt => pkt.streamId < next) = [] := by
      rw [List.filter_eq_nil_iff]
      intro q hq
      simpa using hlater q hq
    rw [hnil, List.append_nil]
  have hio : (ioBytes c.io).length ≤ (wire split qs).length := by
    have hbytes := congrArg List.length h.bytes
    rw [List.length_append, List.append_nil] at hbytes
    have := h.expects.length_le
    omega
  have hle := length_wire_filter_le split (fun pkt => pkt.streamId < next) a
  have hpos := length_wire_singleton_pos split pkt
  rw [hfilter] at hread
  rw [← List.singleton_append, ← List.append_assoc] at htotal
  simp only [length_wire_append] at htotal
  omega

end Lengths

/-! ## Writes that succeed

The result is about replies; a connection that fails to write is poisoned and makes no further RPC.
-/

/-- A poll of a transport whose writes succeed. -/
def WriteEvent.Succeeds (e : WriteEvent) : Prop := e = .pending ∨ ∃ n, 0 < n ∧ e = .ready n

/-- Whatever is to be written is written. -/
lemma writeAll_succeeds {events : List WriteEvent} (h : ∀ e ∈ events, e.Succeeds)
    (buf : List UInt8) : (writeAll events buf).1 = .done ∧
      ∀ e ∈ (writeAll events buf).2.2, e.Succeeds := by
  induction events generalizing buf with
  | nil => exact ⟨rfl, h⟩
  | cons e rest ih =>
      have hrest : ∀ e ∈ rest, e.Succeeds := fun e he => h e (List.mem_cons_of_mem _ he)
      cases hempty : buf.isEmpty with
      | true =>
          rw [List.isEmpty_iff] at hempty
          subst hempty
          cases e <;> exact ⟨rfl, h⟩
      | false =>
          rcases h e List.mem_cons_self with rfl | ⟨n, hn, rfl⟩
          · simp only [writeAll, hempty, Bool.false_eq_true, if_false]
            exact ih hrest buf
          · simp only [writeAll, hempty, Bool.false_eq_true, if_false, hn.ne']
            exact ih hrest (buf.drop n)

lemma flushAll_succeeds {events : List WriteEvent} (h : ∀ e ∈ events, e.Succeeds) :
    (flushAll events).1 = .done ∧ ∀ e ∈ (flushAll events).2, e.Succeeds := by
  induction events with
  | nil => exact ⟨rfl, h⟩
  | cons e rest ih =>
      have hrest : ∀ e ∈ rest, e.Succeeds := fun e he => h e (List.mem_cons_of_mem _ he)
      rcases h e List.mem_cons_self with rfl | ⟨n, hn, rfl⟩
      · exact ih hrest
      · exact ⟨rfl, hrest⟩

/-- **The connection between two operations of a session**, with the packets that are still to be
delivered. -/
structure Serving (split : ℕ) (s : Link) (l : List Packet) : Prop where
  flow : ∃ fs qs, Flow split [] s.conn fs qs ∧ s.conn.pending ++ qs = l
  reads : ∀ ev ∈ s.conn.io, ev.Healthy
  writes : ∀ e ∈ s.out, e.Succeeds
  dropRead : s.dropRead = none

/-- **What operations of the stream `k` do** that receive `n` times: they leave a suffix of the
packets, write packets of their stream, and return its answers unless they take packets of a later
one. -/
structure Progress (split k n : ℕ) (s : Link) (l : List Packet) (replies : List Reply) (t : Link)
    (l' : List Packet) : Prop where
  serving : Serving split t l'
  next : t.nextStreamId = s.nextStreamId
  ids : t.streams.map RpcStream.streamId = s.streams.map RpcStream.streamId
  written : ∃ pkts, t.requested = s.requested ++ pkts ∧ ∀ pkt ∈ pkts, pkt.streamId = k
  used : ∃ used, l = used ++ l' ∧ ((∀ pkt ∈ used, pkt.streamId ≤ k) →
    replies = repliesTo (answers k l) n ∧ answers k l' = (answers k l).drop n)

lemma repliesTo_add (as : List (Except CallError (List UInt8))) (m n : ℕ) :
    repliesTo as (m + n) = repliesTo as m ++ repliesTo (as.drop m) n := by
  induction m generalizing as with
  | zero => simp [repliesTo]
  | succ m ih =>
      rw [Nat.add_right_comm, repliesTo, repliesTo, ih, List.cons_append, List.drop_tail]

namespace Progress

variable {split k m n : ℕ} {s t u : Link} {l l' l'' : List Packet} {rs rs' : List Reply}

lemma trans (h : Progress split k m s l rs t l') (h' : Progress split k n t l' rs' u l'') :
    Progress split k (m + n) s l (rs ++ rs') u l'' where
  serving := h'.serving
  next := h'.next.trans h.next
  ids := h'.ids.trans h.ids
  written := by
    obtain ⟨pkts, hreq, hid⟩ := h.written
    obtain ⟨pkts', hreq', hid'⟩ := h'.written
    refine ⟨pkts ++ pkts', by rw [hreq', hreq, List.append_assoc], fun pkt hpkt => ?_⟩
    exact (List.mem_append.mp hpkt).elim (hid pkt) (hid' pkt)
  used := by
    obtain ⟨used, hl, hspec⟩ := h.used
    obtain ⟨used', hl', hspec'⟩ := h'.used
    refine ⟨used ++ used', by rw [hl, hl', List.append_assoc], fun hle => ?_⟩
    obtain ⟨hrs, hrest⟩ := hspec fun pkt hpkt => hle pkt (List.mem_append_left _ hpkt)
    obtain ⟨hrs', hrest'⟩ := hspec' fun pkt hpkt => hle pkt (List.mem_append_right _ hpkt)
    rw [hrest] at hrs' hrest'
    rw [hrs, hrs', repliesTo_add, hrest', List.drop_drop]
    exact ⟨rfl, rfl⟩

/-- An operation that takes no packet. -/
lemma of_same (hs : Serving split t l) (hnext : t.nextStreamId = s.nextStreamId)
    (hids : t.streams.map RpcStream.streamId = s.streams.map RpcStream.streamId)
    {pkts : List Packet} (hreq : t.requested = s.requested ++ pkts)
    (hid : ∀ pkt ∈ pkts, pkt.streamId = k) : Progress split k 0 s l [] t l :=
  ⟨hs, hnext, hids, ⟨pkts, hreq, hid⟩, [], rfl, fun _ => ⟨rfl, rfl⟩⟩

end Progress

section Operations

variable {split k : ℕ} {s : Link} {l : List Packet}

/-- `write_packet_data`. -/
lemma Serving.writePacketData (h : Serving split s l) {pkt : Packet} (hk : pkt.streamId = k) :
    ∃ t, Rpc.writePacketData pkt s = (.ok (), t) ∧ t.requested = s.requested ++ [pkt] ∧
      Progress split k 0 s l [] t l := by
  let u : Link := { s with requested := s.requested ++ [pkt] }
  have hstart : Rpc.writePacketData pkt s = writeRaw (appendPacket [] pkt s.splitSize) u := rfl
  obtain ⟨hdone, hout⟩ := writeAll_succeeds h.writes (appendPacket [] pkt s.splitSize)
  rcases writeRaw_spec (appendPacket [] pkt s.splitSize) u with ⟨-, heq⟩ | ⟨hne, -⟩
  · refine ⟨_, hstart.trans heq, rfl, .of_same ⟨h.flow, h.reads, hout, h.dropRead⟩ rfl rfl rfl ?_⟩
    intro q hq
    rw [List.mem_singleton] at hq
    rw [hq]
    exact hk
  · exact absurd hdone hne

/-- `flush`. -/
lemma Serving.flush (h : Serving split s l) (k : ℕ) :
    ∃ t, Rpc.flush s = (.ok (), t) ∧ Progress split k 0 s l [] t l := by
  obtain ⟨hdone, hout⟩ := flushAll_succeeds h.writes
  rcases flush_spec s with ⟨-, heq⟩ | ⟨hne, -⟩
  · exact ⟨_, heq, .of_same ⟨h.flow, h.reads, hout, h.dropRead⟩ rfl rfl (List.append_nil _).symm
      nofun⟩
  · exact absurd hdone hne

/-- The loop that waits for an answer. -/
lemma Serving.receive (h : Serving split s l) (k : ℕ) :
    ∃ t l', Rpc.receive k s = ((scan k l).1, t) ∧ Progress split k 1 s l [(scan k l).1] t l' := by
  obtain ⟨fs, qs, hflow, rfl⟩ := h.flow
  obtain ⟨d, fs', qs', hflow', hsuf, heq, hrest⟩ := hflow.awaitMessage h.reads k
  obtain ⟨used, hl, hspec⟩ := scan_spec k (s.conn.pending ++ qs)
  refine ⟨{ s with conn := d }, _, ?_, ⟨⟨⟨fs', qs', hflow', hrest⟩, ?_, h.writes, h.dropRead⟩, rfl,
    rfl, ⟨[], (List.append_nil _).symm, nofun⟩, used, hl, fun hle => ?_⟩⟩
  · simp only [Rpc.receive, h.dropRead, heq]
  · exact fun ev hev => h.reads ev (hsuf.mem hev)
  · obtain ⟨hreply, hans⟩ := hspec hle
    exact ⟨by rw [hreply]; rfl, by rw [hans, List.drop_one]⟩

/-- `drain_ready`. -/
lemma Serving.drain (h : Serving split s l) (k : ℕ) :
    ∃ r t, Rpc.drain s = (.ok r, t) ∧ Progress split k 0 s l [] t l := by
  obtain ⟨fs, qs, hflow, rfl⟩ := h.flow
  obtain ⟨r, d, fs', qs', heq, hsuf, hqueue, hflow', -⟩ :=
    hflow.drainReadyLoop (s.conn.pending.map fun pkt => pkt.data.length).sum
  refine ⟨r, { s with conn := d }, ?_, .of_same ⟨⟨fs', qs', hflow', hqueue⟩, ?_, h.writes,
    h.dropRead⟩ rfl rfl (List.append_nil _).symm nofun⟩
  · simp only [Rpc.drain, Conn.drainReady, heq]
  · exact fun ev hev => h.reads ev (hsuf.mem hev)

/-- `send_kind`. -/
lemma Serving.sendKind (h : Serving split s l) (i : ℕ) {stream : RpcStream}
    (hk : stream.streamId = k) (kind : Kind) (data : List UInt8) :
    ∃ t, Rpc.sendKind i stream kind data s = (.ok (), t) ∧ Progress split k 0 s l [] t l := by
  let u : Link := { s with streams := s.streams.modify i RpcStream.bump }
  have hu : Serving split u l := ⟨h.flow, h.reads, h.writes, h.dropRead⟩
  have hids : u.streams.map RpcStream.streamId = s.streams.map RpcStream.streamId := by
    refine List.ext_getElem? fun j => ?_
    rw [List.getElem?_map, List.getElem?_map, List.getElem?_modify]
    cases s.streams[j]? with
    | none => rfl
    | some stream =>
        by_cases hj : i = j
        · simp [hj, RpcStream.bump]
        · simp [hj]
  have hbump : Progress split k 0 s l [] u l :=
    .of_same hu rfl hids (List.append_nil _).symm nofun
  let pkt : Packet := ⟨stream.streamId, stream.bump.nextMessageId, kind, false, data⟩
  obtain ⟨t, heq, -, hprog⟩ := hu.writePacketData (show pkt.streamId = k from hk)
  exact ⟨t, heq, hbump.trans hprog⟩

/-- `close_send` and `close_stream`. -/
lemma Serving.sendKind_flush (h : Serving split s l) (i : ℕ) {stream : RpcStream}
    (hk : stream.streamId = k) (kind : Kind) (data : List UInt8) :
    ∃ t, (Rpc.sendKind i stream kind data >>= fun _ => Rpc.flush) s = (.ok (), t) ∧
      Progress split k 0 s l [] t l := by
  obtain ⟨t, heq, hprog⟩ := h.sendKind i hk kind data
  obtain ⟨u, heq', hprog'⟩ := hprog.serving.flush k
  exact ⟨u, by rw [bind_of_ok heq, heq'], hprog.trans hprog'⟩

/-- `send_msg`, whatever it returns. -/
lemma Serving.sendMsg (h : Serving split s l) (i : ℕ) {stream : RpcStream}
    (hk : stream.streamId = k) (data : List UInt8) :
    ∃ r t, Rpc.sendMsg i stream data s = (r, t) ∧ Progress split k 0 s l [] t l := by
  obtain ⟨drained, t, heq, hprog⟩ := h.drain k
  rw [Rpc.sendMsg, bind_of_ok heq, get_bind]
  cases peerTerminated t.conn.pending stream.streamId with
  | some e => exact ⟨_, t, rfl, hprog⟩
  | none =>
      cases drained with
      | error e => exact ⟨_, t, rfl, hprog⟩
      | ok u =>
          obtain ⟨u, heq', hprog'⟩ := hprog.serving.sendKind_flush i hk .message data
          exact ⟨_, u, heq', hprog.trans hprog'⟩

/-- **A call on a stream.** -/
lemma Serving.streamCall (h : Serving split s l) {i : ℕ}
    (hi : (s.streams.map RpcStream.streamId)[i]? = some k) (call : StreamCall) :
    ∃ t l', (call.run i s).2 = t ∧
      Progress split k ([call].count .recvMsg) s l (call.run i s).1 t l' := by
  rw [List.getElem?_map, Option.map_eq_some_iff] at hi
  obtain ⟨stream, hstream, hk⟩ := hi
  cases call with
  | sendMsg data =>
      obtain ⟨r, t, heq, hprog⟩ := h.sendMsg i hk data
      refine ⟨t, l, ?_, ?_⟩
      · simp only [StreamCall.run, hstream, heq]
      · simp only [StreamCall.run, hstream]
        exact hprog
  | recvMsg =>
      obtain ⟨t, l', heq, hprog⟩ := h.receive stream.streamId
      rw [hk] at heq hprog
      refine ⟨t, l', ?_, ?_⟩
      · simp only [StreamCall.run, hstream, Rpc.recvMsg, hk, heq]
      · simp only [StreamCall.run, hstream, Rpc.recvMsg, hk, heq]
        exact hprog
  | closeSend =>
      obtain ⟨t, heq, hprog⟩ := h.sendKind_flush i hk .closeSend []
      refine ⟨t, l, ?_, ?_⟩
      · simp only [StreamCall.run, hstream, Rpc.closeSend, heq]
      · simp only [StreamCall.run, hstream]
        exact hprog
  | closeStream =>
      obtain ⟨t, heq, hprog⟩ := h.sendKind_flush i hk .close []
      refine ⟨t, l, ?_, ?_⟩
      · simp only [StreamCall.run, hstream, Rpc.closeStream, heq]
      · simp only [StreamCall.run, hstream]
        exact hprog

/-- **Calls on a stream.** -/
lemma Serving.runStream (h : Serving split s l) {i : ℕ}
    (hi : (s.streams.map RpcStream.streamId)[i]? = some k) (calls : List StreamCall) :
    ∃ l', Progress split k (calls.count .recvMsg) s l (Rpc.runStream i calls s).1
      (Rpc.runStream i calls s).2 l' := by
  induction calls generalizing s l with
  | nil => exact ⟨l, .of_same h rfl rfl (List.append_nil _).symm nofun⟩
  | cons call calls ih =>
      obtain ⟨t, l', rfl, hprog⟩ := h.streamCall hi call
      obtain ⟨l'', hprog'⟩ := ih hprog.serving (by rw [hprog.ids]; exact hi)
      have hcount : (call :: calls).count .recvMsg
          = [call].count .recvMsg + calls.count .recvMsg := by
        rw [← List.count_append, List.singleton_append]
      rw [hcount]
      exact ⟨l'', hprog.trans hprog'⟩

/-- Writing packets and then flushing. -/
lemma Serving.close (h : Serving split s l) {pkt : Packet} (hk : pkt.streamId = k)
    (data : List UInt8) :
    ∃ t, (Rpc.writePacketData pkt >>= fun _ => Rpc.flush >>= fun _ => pure data) s
        = ((.ok data : Reply), t) ∧ Progress split k 0 s l [] t l := by
  obtain ⟨t, heq, -, hprog⟩ := h.writePacketData hk
  obtain ⟨u, heq', hprog'⟩ := hprog.serving.flush k
  exact ⟨u, by rw [bind_of_ok heq, bind_of_ok heq', pure_apply], hprog.trans hprog'⟩

/-- `invoke` behind its first packet. -/
lemma Serving.invokeRest (h : Serving split s l) {request close half : Packet}
    (hrequest : request.streamId = k) (hhalf : half.streamId = k) (hclose : close.streamId = k) :
    ∃ t l' r, (do
        Rpc.writePacketData request
        Rpc.writePacketData half
        Rpc.flush
        let data ← Rpc.receive k
        Rpc.writePacketData close
        Rpc.flush
        return data : Call (List UInt8)) s = (r, t) ∧ Progress split k 1 s l [r] t l' := by
  obtain ⟨t₁, heq₁, -, hprog₁⟩ := h.writePacketData hrequest
  obtain ⟨t₂, heq₂, -, hprog₂⟩ := hprog₁.serving.writePacketData hhalf
  obtain ⟨t₃, heq₃, hprog₃⟩ := hprog₂.serving.flush k
  obtain ⟨t₄, l', heq₄, hprog₄⟩ := hprog₃.serving.receive k
  have hprog := ((hprog₁.trans hprog₂).trans hprog₃).trans hprog₄
  rw [bind_of_ok heq₁, bind_of_ok heq₂, bind_of_ok heq₃]
  cases hr : (scan k l).1 with
  | error e =>
      rw [hr] at heq₄ hprog
      exact ⟨t₄, l', _, bind_of_error heq₄, hprog⟩
  | ok data =>
      rw [hr] at heq₄ hprog
      obtain ⟨t₅, heq₅, hprog₅⟩ := hprog.serving.close hclose data
      exact ⟨t₅, l', _, (bind_of_ok heq₄).trans heq₅, hprog.trans hprog₅⟩

end Operations

/-- **What an RPC does** that finds the packets `l` and leaves the packets `l'`: it takes the next
stream id, writes packets of that stream from its `INVOKE` on, and gets the answers of the stream
unless it takes packets of a later one. -/
structure RpcCall.Done (split : ℕ) (call : RpcCall) (s : Link) (l l' : List Packet) : Prop where
  serving : Serving split (call.run s).2 l'
  next : (call.run s).2.nextStreamId = s.nextStreamId + 1
  written : ∃ pkt pkts, (call.run s).2.requested = s.requested ++ pkt :: pkts ∧
    pkt.kind = .invoke ∧ ∀ q ∈ pkt :: pkts, q.streamId = s.nextStreamId
  used : ∃ used, l = used ++ l' ∧ ((∀ pkt ∈ used, pkt.streamId ≤ s.nextStreamId) →
    (call.run s).1 = repliesTo (answers s.nextStreamId l) call.receives)

/-- An RPC that has written its `INVOKE`. -/
lemma RpcCall.Done.of_progress {split : ℕ} {call : RpcCall} {s t v : Link} {l l' : List Packet}
    {rs : List Reply} {pkt : Packet} {pkts : List Packet} (hrun : call.run s = (rs, v))
    (hnext : t.nextStreamId = s.nextStreamId + 1)
    (hreq : t.requested = s.requested ++ pkt :: pkts) (hkind : pkt.kind = .invoke)
    (hids : ∀ q ∈ pkt :: pkts, q.streamId = s.nextStreamId)
    (hprog : Progress split s.nextStreamId call.receives t l rs v l') : call.Done split s l l' where
  serving := by
    rw [hrun]
    exact hprog.serving
  next := by
    rw [hrun]
    exact hprog.next.trans hnext
  written := by
    obtain ⟨qs, hreq', hids'⟩ := hprog.written
    refine ⟨pkt, pkts ++ qs, ?_, hkind, fun q hq => ?_⟩
    · rw [hrun, hreq', hreq, List.append_assoc, List.cons_append]
    · rw [← List.cons_append, List.mem_append] at hq
      exact hq.elim (hids q) (hids' q)
  used := by
    obtain ⟨used, hl, hspec⟩ := hprog.used
    refine ⟨used, hl, fun hle => ?_⟩
    rw [hrun]
    exact (hspec hle).1

/-- **One RPC.** -/
theorem Serving.rpc {split : ℕ} {s : Link} {l : List Packet} (h : Serving split s l)
    (call : RpcCall) : ∃ l', call.Done split s l l' := by
  let u : Link := { s with nextStreamId := s.nextStreamId + 1 }
  have hnew : newStreamId s = (.ok s.nextStreamId, u) := rfl
  have hu : Serving split u l := ⟨h.flow, h.reads, h.writes, h.dropRead⟩
  cases call with
  | unary rpc request =>
      let pkt : Packet := ⟨s.nextStreamId, 1, .invoke, false, rpc⟩
      obtain ⟨t, heq, hreq, hprog⟩ := hu.writePacketData (show pkt.streamId = s.nextStreamId from rfl)
      obtain ⟨v, l', r, heq', hprog'⟩ := hprog.serving.invokeRest
        (show (Packet.mk s.nextStreamId 2 .message false request).streamId = s.nextStreamId from rfl)
        (show (Packet.mk s.nextStreamId 3 .closeSend false []).streamId = s.nextStreamId from rfl)
        (show (Packet.mk s.nextStreamId 4 .close false []).streamId = s.nextStreamId from rfl)
      have hrun : invoke rpc request s = (r, v) := by
        rw [invoke, bind_of_ok hnew, bind_of_ok heq]
        exact heq'
      refine ⟨l', .of_progress ?_ hprog.next hreq rfl ?_ hprog'⟩
      · rw [RpcCall.run, hrun]
      · rintro q (_ | ⟨_, ⟨⟩⟩)
        rfl
  | streaming rpc calls =>
      let pkt : Packet := ⟨s.nextStreamId, 1, .invoke, false, rpc⟩
      obtain ⟨t, heq, hreq, hprog⟩ := hu.writePacketData (show pkt.streamId = s.nextStreamId from rfl)
      obtain ⟨v, heq', hprog'⟩ := hprog.serving.flush s.nextStreamId
      let w : Link := { v with streams := v.streams ++ [⟨s.nextStreamId, 1⟩] }
      have hw : Serving split w l :=
        ⟨hprog'.serving.flow, hprog'.serving.reads, hprog'.serving.writes, hprog'.serving.dropRead⟩
      have hopen : openStream rpc s = (.ok (), w) := by
        rw [openStream, bind_of_ok hnew]
        exact (bind_of_ok heq).trans ((bind_of_ok heq').trans rfl)
      -- the new handle is the last one
      have hids : v.streams.map RpcStream.streamId = s.streams.map RpcStream.streamId :=
        hprog'.ids.trans hprog.ids
      have hlen : v.streams.length = s.streams.length := by
        rw [← List.length_map RpcStream.streamId, hids, List.length_map]
      have hhandle : (w.streams.map RpcStream.streamId)[s.streams.length]? = some s.nextStreamId := by
        simp [w, ← hlen]
      obtain ⟨l', hprog''⟩ := hw.runStream hhandle calls
      obtain ⟨qs, hreq', hids'⟩ := hprog'.written
      have hreqw : w.requested = s.requested ++ pkt :: qs := by
        show v.requested = _
        rw [hreq', hreq, List.append_assoc, List.singleton_append]
      have hnextw : w.nextStreamId = s.nextStreamId + 1 := hprog'.next.trans hprog.next
      refine ⟨l', .of_progress ?_ hnextw hreqw rfl ?_ hprog''⟩
      · rw [RpcCall.run, hopen]
      · rintro q (_ | ⟨_, hq⟩)
        · rfl
        · exact hids' q hq

/-! ## Sessions

The number of RPCs is not bounded; the ids are fresh because each RPC takes the next one.
-/

/-- The state after the first `n` RPCs. -/
def stateAt (rpcs : List RpcCall) (io : List Event) (out : List WriteEvent) (n : ℕ) : Link :=
  (Link.new io out).after (rpcs.take n)

/-- **A session**: RPCs made one after another on a new connection, over a transport that works,
with the packets that arrive. -/
structure Session (rpcs : List RpcCall) (io : List Event) (out : List WriteEvent) (split : ℕ)
    (ps : List Packet) : Prop where
  writes : ∀ e ∈ out, e.Succeeds
  reads : ∀ ev ∈ io, ev.Healthy
  bytes : ioBytes io = wire split ps
  packets : ∀ pkt ∈ ps, pkt.Fits
  start : ∀ pkt ∈ ps.head?, idLess pkt.streamId pkt.messageId 1 1 = false
  ascending : ps.Pairwise fun p q => idLess p.streamId p.messageId q.streamId q.messageId
  /-- What is read while `n` RPCs are opened is of their streams. -/
  opened : ∀ n ≤ rpcs.length, (ioBytes io).length ≤ (ioBytes (stateAt rpcs io out n).conn.io).length
    + (wire split (ps.filter fun pkt => pkt.streamId ≤ n)).length

namespace Session

variable {rpcs : List RpcCall} {io : List Event} {out : List WriteEvent} {split : ℕ}
  {ps : List Packet}

lemma stateAt_succ {n : ℕ} (hn : n < rpcs.length) :
    stateAt rpcs io out (n + 1) = (rpcs[n].run (stateAt rpcs io out n)).2 := by
  rw [stateAt, stateAt, List.take_add_one, Link.after, Link.after, List.foldl_append,
    List.getElem?_eq_getElem hn]
  rfl

/-- **Run.**  Between two RPCs the next stream id counts the RPCs, and is larger than those that
were written. -/
lemma between (h : Session rpcs io out split ps) {n : ℕ} (hn : n ≤ rpcs.length) :
    (stateAt rpcs io out n).nextStreamId = n + 1 ∧
    (∀ q ∈ (stateAt rpcs io out n).requested, q.streamId < n + 1) ∧
    ∃ gone l, ps = gone ++ l ∧ Serving split (stateAt rpcs io out n) l := by
  induction n with
  | zero =>
      refine ⟨rfl, nofun, [], ps, rfl, ⟨_, ps, .start h.packets h.start h.ascending ?_, rfl⟩,
        h.reads, h.writes, rfl⟩
      rw [List.append_nil]
      exact h.bytes
  | succ n ih =>
      obtain ⟨hnext, hold, gone, l, hps, hserving⟩ := ih (Nat.le_of_succ_le hn)
      obtain ⟨l', hdone⟩ := hserving.rpc rpcs[n]
      obtain ⟨used, hl, -⟩ := hdone.used
      obtain ⟨pkt, pkts, hreq, -, hids⟩ := hdone.written
      rw [stateAt_succ hn]
      refine ⟨by rw [hdone.next, hnext], fun q hq => ?_, gone ++ used, l', ?_, hdone.serving⟩
      · rw [hreq, List.mem_append] at hq
        rcases hq with hq | hq
        · exact Nat.lt_succ_of_lt (hold q hq)
        · rw [hids q hq, hnext]
          exact Nat.lt_succ_self _
      · rw [hps, hl, List.append_assoc]

/-- The id of every RPC of a session fits its `u64`, if their number does. -/
lemma nextStreamId_le (h : Session rpcs io out split ps) (hfew : rpcs.length < 2 ^ 64) {n : ℕ}
    (hn : n < rpcs.length) : (stateAt rpcs io out n).nextStreamId < 2 ^ 64 := by
  rw [(h.between hn.le).1]
  omega

/-- What was taken is of RPCs that are opened. -/
lemma gone_lt (h : Session rpcs io out split ps) {n : ℕ} (hn : n ≤ rpcs.length)
    {gone l : List Packet} (hps : ps = gone ++ l)
    (hserving : Serving split (stateAt rpcs io out n) l) :
    ∀ pkt ∈ gone, pkt.streamId < n + 1 := by
  obtain ⟨fs, qs, hflow, rfl⟩ := hserving.flow
  have hread := h.opened n hn
  have htotal : (ioBytes io).length = (wire split ps).length := by
    rw [h.bytes]
  rw [hps] at htotal
  refine hflow.taken_lt (hps ▸ h.ascending) htotal ?_
  simp only [← hps, Nat.lt_succ_iff]
  exact hread

/-- The answers of a stream that is not opened yet are all still to come. -/
lemma answers_eq {n : ℕ} {gone l : List Packet} (hgone : ∀ pkt ∈ gone, pkt.streamId < n + 1) :
    answers (n + 1) (gone ++ l) = answers (n + 1) l := by
  have hnil : ownPackets (n + 1) gone = [] := by
    rw [ownPackets, List.filter_eq_nil_iff]
    intro pkt hpkt
    have := hgone pkt hpkt
    simp only [decide_eq_true_eq]
    omega
  rw [answers, answers, ownPackets, List.filter_append]
  rw [ownPackets] at hnil
  rw [hnil, List.nil_append]
  rfl

/-- **An RPC gets the answers of its own stream.** -/
lemma replies_eq (h : Session rpcs io out split ps) {n : ℕ} (hn : n < rpcs.length) :
    (rpcs[n].run (stateAt rpcs io out n)).1 = rpcs[n].replies (ownPackets (n + 1) ps) := by
  obtain ⟨hnext, -, gone, l, hps, hserving⟩ := h.between hn.le
  obtain ⟨l', hdone⟩ := hserving.rpc rpcs[n]
  obtain ⟨used, hl, hspec⟩ := hdone.used
  have hsplit : ps = (gone ++ used) ++ l' := by
    rw [hps, hl, List.append_assoc]
  have hgone := h.gone_lt hn.le hps hserving
  have hused := h.gone_lt hn hsplit (stateAt_succ hn ▸ hdone.serving)
  rw [hnext] at hspec
  rw [hspec fun pkt hpkt => Nat.lt_succ_iff.mp (hused pkt (List.mem_append_right _ hpkt)),
    ← answers_eq hgone, ← hps]
  rfl

end Session

/-- A message that is returned was sent on the stream. -/
lemma mem_repliesTo {as : List (Except CallError (List UInt8))} {n : ℕ} {data : List UInt8}
    (h : .ok data ∈ repliesTo as n) : .ok data ∈ as := by
  induction n generalizing as with
  | zero => cases h
  | succ n ih =>
      rcases List.mem_cons.mp h with hhead | htail
      · cases as with
        | nil => cases hhead
        | cons a as =>
            cases a with
            | error e => cases hhead
            | ok d =>
                cases hhead
                exact List.mem_cons_self
      · exact List.mem_of_mem_tail (ih htail)

/-- Only a `MESSAGE` returns data. -/
lemma answerOf_ok {pkt : Packet} {data : List UInt8} (h : answerOf pkt = some (.ok data)) :
    pkt.kind = .message ∧ pkt.data = data := by
  rw [answerOf] at h
  split_ifs at h with hkind
  · cases h
    exact ⟨hkind, rfl⟩
  all_goals cases h

/-- **Responses on a reused connection are isolated.**  Each RPC of a session writes packets of a
stream id of its own, larger than those before.  What its receives return is a function of the
packets of that stream: another session with the same packets of the stream, and any others, gives
the same replies, and no message is one that was sent on another stream. -/
theorem Session.response_isolation {rpcs : List RpcCall} {io : List Event} {out : List WriteEvent}
    {split : ℕ} {ps : List Packet} (h : Session rpcs io out split ps) {n : ℕ}
    (hn : n < rpcs.length) :
    let s := stateAt rpcs io out n
    let replies := (rpcs[n].run s).1
    (∃ pkt pkts, (stateAt rpcs io out (n + 1)).requested = s.requested ++ pkt :: pkts ∧
      pkt.kind = .invoke ∧ (∀ q ∈ pkt :: pkts, q.streamId = n + 1) ∧
      ∀ q ∈ s.requested, q.streamId < n + 1) ∧
    replies = rpcs[n].replies (ownPackets (n + 1) ps) ∧
    (∀ data, .ok data ∈ replies →
      ∃ pkt ∈ ps, pkt.streamId = n + 1 ∧ pkt.kind = .message ∧ pkt.data = data) ∧
    ∀ io' out' split' ps', Session rpcs io' out' split' ps' →
      ownPackets (n + 1) ps' = ownPackets (n + 1) ps →
      (rpcs[n].run (stateAt rpcs io' out' n)).1 = replies := by
  intro s replies
  have hreplies : replies = rpcs[n].replies (ownPackets (n + 1) ps) := h.replies_eq hn
  refine ⟨?_, hreplies, fun data hdata => ?_, fun io' out' split' ps' h' hown => ?_⟩
  · obtain ⟨hnext, hold, gone, l, hps, hserving⟩ := h.between hn.le
    obtain ⟨l', hdone⟩ := hserving.rpc rpcs[n]
    obtain ⟨pkt, pkts, hreq, hkind, hids⟩ := hdone.written
    rw [hnext] at hids
    rw [stateAt_succ hn]
    exact ⟨pkt, pkts, hreq, hkind, hids, hold⟩
  · rw [hreplies] at hdata
    obtain ⟨pkt, hpkt, hans⟩ := List.mem_filterMap.mp (mem_repliesTo hdata)
    rw [ownPackets, List.mem_filter] at hpkt
    obtain ⟨hkind, hd⟩ := answerOf_ok hans
    exact ⟨pkt, hpkt.1, by simpa using hpkt.2, hkind, hd⟩
  · rw [h'.replies_eq hn, hown]
    exact hreplies.symm

/-- A message of the first stream arrives late, in front of the answer to the second RPC. -/
theorem Session.isolation_late_message :
    let rpcs : List RpcCall := [.streaming [97] [.closeStream], .unary [98] [99]]
    let io : List Event := [.bytes [5, 1, 1], .notReady, .bytes [1, 7, 5, 2, 1, 1, 8]]
    ((RpcCall.unary [98] [99]).run (stateAt rpcs io [] 1)).1 = [.ok [8]] := by
  intro rpcs io
  let late : Packet := ⟨1, 1, .message, false, [7]⟩
  let answer : Packet := ⟨2, 1, .message, false, [8]⟩
  have hframes : framesOf 64 [late, answer] = [late.frame true [7], answer.frame true [8]] := by
    rw [framesOf, List.flatMap_cons, List.flatMap_cons, List.flatMap_nil, Packet.frames,
      if_neg (by decide), Packet.frames, if_neg (by decide)]
    rfl
  have hwire : ioBytes io = wire 64 [late, answer] := by
    rw [wire_eq, hframes]
    simp only [List.flatMap_cons, List.flatMap_nil, Frame.encode_eq, Packet.frame, late, answer,
      List.length_cons, List.length_nil, Nat.zero_add,
      show appendVarint 1 = [1] from appendVarint_of_lt (by decide),
      show appendVarint 2 = [2] from appendVarint_of_lt (by decide)]
    decide
  have hsession : Session rpcs io [] 64 [late, answer] := by
    refine ⟨by simp, by simp [io, Event.Healthy], hwire, fun pkt hpkt => ?_, by decide, by decide, ?_⟩
    · rcases List.mem_pair.mp hpkt with rfl | rfl
      · exact ⟨by decide, by decide, by decide, by decide⟩
      · exact ⟨by decide, by decide, by decide, by decide⟩
    · intro n hn
      have hcases : n = 0 ∨ n = 1 ∨ n = 2 := by
        simp only [rpcs, List.length_cons, List.length_nil] at hn
        omega
      rcases hcases with rfl | rfl | rfl
      · exact Nat.le_add_right _ _
      · exact Nat.le_add_right (ioBytes io).length _
      · rw [hwire]
        exact Nat.le_add_left _ _
  exact (hsession.response_isolation (n := 1) (by decide)).2.1

end Storj.Rpc
