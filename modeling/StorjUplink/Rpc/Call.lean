import StorjUplink.Lib.Stateful
import StorjUplink.Rpc.Conn

/-!
# Calls over a connection

`conn.rs` above its read side: packets are written under the `poisoned` flag, `invoke` writes a
request and waits for its answer, and `open_stream`, `send_msg` and `recv_msg` do the same for a
stream of messages.

A call may end at any of its awaits.  A write or a flush takes what the transport does from a list
of `WriteEvent`s; where the list is over, the transport takes everything.  A read takes its events
from the connection as before, and `dropRead` says after how many reads the call is dropped where it
waits for the next one.  `sent` and `requested` are not in the source: the bytes that the transport
took, and the packets that were to be written.

The stream and message ids are 64 bits wide in the source; no run uses them up, and they are
naturals here.  The text of a remote error is kept as the bytes that were sent.
-/

namespace Storj.Rpc

/-! ## Kinds and errors

What a packet says to a call that waits for it.  A packet that is neither an answer nor an error
for the call is passed over.
-/

/-- `Kind::INVOKE`. -/
def Kind.invoke : Kind := ⟨1⟩

/-- `Kind::MESSAGE`. -/
def Kind.message : Kind := ⟨2⟩

/-- `Kind::ERROR`. -/
def Kind.error : Kind := ⟨3⟩

/-- `Kind::CANCEL`. -/
def Kind.cancel : Kind := ⟨4⟩

/-- `Kind::CLOSE`. -/
def Kind.close : Kind := ⟨5⟩

/-- `Kind::CLOSE_SEND`. -/
def Kind.closeSend : Kind := ⟨6⟩

/-- `Error`: what reading packets gives, and what the packets say. -/
inductive CallError where
  | conn (e : Error)
  | remote (code : ℕ) (message : List UInt8)
  | unexpectedKind (kind : Kind)
  | unexpectedStream (got expected : ℕ)
deriving DecidableEq, Repr

/-- How a call ends without a value: with an error, or because its future was dropped. -/
inductive Stop where
  | error (e : CallError)
  | dropped
deriving DecidableEq, Repr

/-- `u64::from_be_bytes`. -/
def beBytes (b : List UInt8) : ℕ := b.foldl (fun n x => n * 256 + x.toNat) 0

/-- `unmarshal_error`: eight bytes of code and the message, or no code where there are fewer. -/
def unmarshalError (data : List UInt8) : ℕ × List UInt8 :=
  if data.length < 8 then (0, data) else (beBytes (data.take 8), data.drop 8)

/-- `Error::Remote` of an `ERROR` packet. -/
def remoteError (data : List UInt8) : CallError :=
  .remote (unmarshalError data).1 (unmarshalError data).2

/-- The error of a `CANCEL` packet. -/
def canceled : CallError := .remote 0 "canceled".toUTF8.toList

/-- What a packet of the awaited stream answers, if it is not passed over. -/
def answerOf (pkt : Packet) : Option (Except CallError (List UInt8)) :=
  if pkt.kind = .message then some (.ok pkt.data)
  else if pkt.kind = .error then some (.error (remoteError pkt.data))
  else if pkt.kind = .close ∨ pkt.kind = .closeSend then some (.error (.conn .closed))
  else if pkt.kind = .cancel then some (.error canceled)
  else if pkt.control then none
  else some (.error (.unexpectedKind pkt.kind))

/-- `peer_terminated`, over the queue: the first queued packet of the stream that ends it, and what
a call on the stream then returns.  Packets of other streams are passed over and stay queued. -/
def peerTerminated (pending : List Packet) (streamId : ℕ) : Option CallError :=
  (pending.filter fun pkt => pkt.streamId = streamId).findSome? fun pkt =>
    if pkt.kind = .error then some (remoteError pkt.data)
    else if pkt.kind = .close then some (.conn .closed)
    else if pkt.kind = .cancel then some canceled
    else none

/-! ## Reading under a budget

A future may be dropped at any of its awaits.  For reading it is enough to say after how many reads
that is.
-/

namespace Conn

/-- The loop of `read_packet` in a call that is dropped where it waits after so many reads. -/
def readPacketCut (budget : Option ℕ) (c : Conn) : Option (Except Error Packet) × Conn × Option ℕ :=
  match _hparse : c.parseOne with
  | (.error e, d) => (some (.error e), d, budget)
  | (.ok (some pkt), d) => (some (.ok pkt), d, budget)
  | (.ok none, d) =>
      if _hsame : d.unparsed.length = c.unparsed.length then
        if budget = some 0 then
          match d.prepareRead with
          | (.error e, d') => (some (.error e), d', budget)
          | (.ok (), d') => (none, d', budget)
        else
          match _hfill : d.fill with
          | (.error e, d') => (some (.error e), d', budget)
          | (.ok (), d') => readPacketCut (budget.map (· - 1)) d'
      else readPacketCut budget d
termination_by (c.io.length, c.unparsed.length)
decreasing_by
  · have hlt := fill_io_length_lt _hfill
    rw [parseOne_io _hparse] at hlt
    exact Prod.Lex.left _ _ hlt
  · rw [parseOne_io _hparse]
    exact Prod.Lex.right _ (parseOne_length_lt _hparse (Or.inr _hsame))

/-- `read_packet` in such a call: the queue first, the transport after it. -/
def readPacketWithin (budget : Option ℕ) (c : Conn) :
    Option (Except Error Packet) × Conn × Option ℕ :=
  match c.pending with
  | pkt :: rest => (some (.ok pkt), { c with pending := rest }, budget)
  | [] => c.readPacketCut budget

/-- A packet is taken from what is there. -/
lemma readPacketCut_lt {budget budget' : Option ℕ} {c d : Conn} {pkt : Packet}
    (h : c.readPacketCut budget = (some (.ok pkt), d, budget')) :
    Prod.Lex (· < ·) (· < ·) (d.io.length, d.unparsed.length) (c.io.length, c.unparsed.length) := by
  fun_induction readPacketCut budget c with
  | case1 budget c e d' hparse => cases h
  | case2 budget c pkt' d' hparse =>
      cases h
      rw [parseOne_io hparse]
      exact Prod.Lex.right _ (parseOne_length_lt hparse (Or.inl Option.isSome_some))
  | case3 c d' hparse hsame e d'' hprep => cases h
  | case4 c d' hparse hsame d'' hprep => cases h
  | case5 budget c d' hparse hsame hzero e d'' hfill => cases h
  | case6 budget c d' hparse hsame hzero d'' hfill ih =>
      have hlt := fill_io_length_lt hfill
      rw [parseOne_io hparse] at hlt
      rcases Prod.lex_iff.mp (ih h) with hio | ⟨hio, -⟩
      · exact Prod.Lex.left _ _ (hio.trans hlt)
      · exact Prod.Lex.left _ _ (lt_of_eq_of_lt hio hlt)
  | case7 budget c d' hparse hsame ih =>
      have hlt := parseOne_length_lt hparse (Or.inr hsame)
      have hih := ih h
      rw [parseOne_io hparse] at hih
      rcases Prod.lex_iff.mp hih with hio | ⟨hio, hun⟩
      · exact Prod.Lex.left _ _ hio
      · simp only at hio hun
        exact Prod.lex_iff.mpr (Or.inr ⟨hio, hun.trans hlt⟩)

/-- What the loops over packets go down in. -/
lemma readPacketWithin_lt {budget budget' : Option ℕ} {c d : Conn} {pkt : Packet}
    (h : c.readPacketWithin budget = (some (.ok pkt), d, budget')) :
    Prod.Lex (· < ·) (Prod.Lex (· < ·) (· < ·))
      (d.io.length, d.unparsed.length, d.pending.length)
      (c.io.length, c.unparsed.length, c.pending.length) := by
  rw [readPacketWithin] at h
  cases hp : c.pending with
  | cons pkt' rest =>
      rw [hp] at h
      cases h
      exact Prod.Lex.right _ (Prod.Lex.right _ (Nat.lt_succ_self _))
  | nil =>
      rw [hp] at h
      rcases Prod.lex_iff.mp (readPacketCut_lt h) with hio | ⟨hio, hun⟩
      · exact Prod.Lex.left _ _ hio
      · simp only at hio hun
        rw [hio]
        exact Prod.Lex.right _ (Prod.Lex.left _ _ hun)

/-- The loop of `invoke` and of `recv_msg`: packets of earlier streams are passed over. -/
def awaitMessage (streamId : ℕ) (budget : Option ℕ) (c : Conn) :
    Except Stop (List UInt8) × Conn :=
  match _hread : c.readPacketWithin budget with
  | (none, d, _) => (.error .dropped, d)
  | (some (.error e), d, _) => (.error (.error (.conn e)), d)
  | (some (.ok pkt), d, budget') =>
      if pkt.streamId ≠ streamId then
        if pkt.streamId < streamId then awaitMessage streamId budget' d
        else (.error (.error (.unexpectedStream pkt.streamId streamId)), d)
      else
        match answerOf pkt with
        | some (.ok data) => (.ok data, d)
        | some (.error e) => (.error (.error e), d)
        | none => awaitMessage streamId budget' d
termination_by (c.io.length, c.unparsed.length, c.pending.length)
decreasing_by
  · exact readPacketWithin_lt _hread
  · exact readPacketWithin_lt _hread

end Conn

/-! ## Writing

The flag is raised before the first byte and taken down after the last one, so it is up wherever a
write stops in between.
-/

/-- What one poll of a write or of a flush gives, or the drop of the call that waits for it. -/
inductive WriteEvent where
  | ready (n : ℕ)
  | pending
  | elapsed
  | failed (text : String)
  | dropped
deriving DecidableEq, Repr

/-- How a write or a flush ends. -/
inductive WriteEnd where
  | done
  | elapsed
  | failed (text : String)
  | dropped
deriving DecidableEq, Repr

/-- `write_all`, with the bytes that the transport took.  A transport that takes no byte of a buffer
that is not empty is an error; a deadline, a failure or a dropped future leaves a beginning of the
buffer written. -/
def writeAll : List WriteEvent → List UInt8 → WriteEnd × List UInt8 × List WriteEvent
  | [], buf => (.done, buf, [])
  | e :: rest, buf =>
      if buf.isEmpty then (.done, [], e :: rest)
      else
        match e with
        | .ready n =>
            if n = 0 then (.failed "write zero", [], rest)
            else
              let r := writeAll rest (buf.drop n)
              (r.1, buf.take n ++ r.2.1, r.2.2)
        | .pending => writeAll rest buf
        | .elapsed => (.elapsed, [], rest)
        | .failed text => (.failed text, [], rest)
        | .dropped => (.dropped, [], rest)

/-- The flush of the transport, over the same events as a write: it is over at the first event that
is not a wait. -/
def flushAll : List WriteEvent → WriteEnd × List WriteEvent
  | [] => (.done, [])
  | .ready _ :: rest => (.done, rest)
  | .pending :: rest => flushAll rest
  | .elapsed :: rest => (.elapsed, rest)
  | .failed text :: rest => (.failed text, rest)
  | .dropped :: rest => (.dropped, rest)

/-- `RpcStream`.  The message id, a `u64`, counts the packets that were sent on the stream. -/
structure RpcStream where
  streamId : ℕ
  nextMessageId : ℕ
deriving DecidableEq, Repr

/-- `Conn`, with its write side.  The next stream id, a `u64`, counts the RPCs of the connection. -/
structure Link where
  conn : Conn
  nextStreamId : ℕ
  splitSize : ℕ
  out : List WriteEvent
  /-- The handles that the callers hold. -/
  streams : List RpcStream
  /-- After how many reads the call is dropped. -/
  dropRead : Option ℕ
  /-- The bytes that the transport took. -/
  sent : List UInt8
  /-- The packets that were to be written. -/
  requested : List Packet

/-- `Conn::new`: stream ids start at 1, and nothing is written or queued. -/
def Link.new (io : List Event) (out : List WriteEvent) : Link :=
  ⟨.new io, 1, defaultSplitSize, out, [], none, [], []⟩

/-- `is_poisoned`. -/
def Link.isPoisoned (s : Link) : Bool := s.conn.poisoned

/-- Set the flag. -/
def Link.setPoisoned (b : Bool) (s : Link) : Link := { s with conn := { s.conn with poisoned := b } }

/-- A call. -/
abbrev Call := Stateful Link Stop

open Stateful

/-- `timed`, over the end of what it waits for. -/
def timed : WriteEnd → Call Unit
  | .done => pure ()
  | .elapsed => do
      modify (Link.setPoisoned true)
      fail (.error (.conn timedOut))
  | .failed text => do
      modify (Link.setPoisoned true)
      fail (.error (.conn (.io text)))
  | .dropped => fail .dropped

/-- `io.write_all` under `timed`, with the bytes that went out noted. -/
def timedWrite (buf : List UInt8) : Call Unit := do
  let r := writeAll (← get).out buf
  modify fun s => { s with out := r.2.2, sent := s.sent ++ r.2.1 }
  timed r.1

/-- `io.flush` under `timed`. -/
def timedFlush : Call Unit := do
  let r := flushAll (← get).out
  modify fun s => { s with out := r.2 }
  timed r.1

/-- `write_raw`: the connection is poisoned for the time of the write, so that a write that is cut
off leaves it so. -/
def writeRaw (buf : List UInt8) : Call Unit := do
  let was := (← get).isPoisoned
  modify (Link.setPoisoned true)
  timedWrite buf
  modify (Link.setPoisoned was)

/-- `flush`: poisoned for its time, as a write is. -/
def flush : Call Unit := do
  let was := (← get).isPoisoned
  modify (Link.setPoisoned true)
  timedFlush
  modify (Link.setPoisoned was)

/-- `write_packet_data`: the frames of the packet in one write, without a flush. -/
def writePacketData (pkt : Packet) : Call Unit := do
  let split := (← get).splitSize
  modify fun s => { s with requested := s.requested ++ [pkt] }
  writeRaw (appendPacket [] pkt split)

/-- `write_packet`: the frames of the packet, and a flush. -/
def writePacket (pkt : Packet) : Call Unit := do
  writePacketData pkt
  flush

/-! ## Calls

Each call is its sequence of awaits, in `Stateful`.  A timeout and a dropped future end it in the
middle with the state as it is.
-/

/-- A loop that reads, as part of a call. -/
def receive (streamId : ℕ) : Call (List UInt8) := fun s =>
  let r := s.conn.awaitMessage streamId s.dropRead
  (r.1, { s with conn := r.2 })

/-- The stream id of a new RPC. -/
def newStreamId : Call ℕ := do
  let streamId := (← get).nextStreamId
  modify fun s => { s with nextStreamId := s.nextStreamId + 1 }
  return streamId

/-- `invoke`, the unary call: three packets under one new stream id, the answer, and the packet that
closes the stream. -/
def invoke (rpc request : List UInt8) : Call (List UInt8) := do
  let streamId ← newStreamId
  writePacketData ⟨streamId, 1, .invoke, false, rpc⟩
  writePacketData ⟨streamId, 2, .message, false, request⟩
  writePacketData ⟨streamId, 3, .closeSend, false, []⟩
  flush
  let data ← receive streamId
  writePacketData ⟨streamId, 4, .close, false, []⟩
  flush
  return data

/-- `next_message_id += 1` of a handle. -/
def RpcStream.bump (stream : RpcStream) : RpcStream :=
  { stream with nextMessageId := stream.nextMessageId + 1 }

/-- `send_kind` on the handle with a number. -/
def sendKind (i : ℕ) (stream : RpcStream) (kind : Kind) (data : List UInt8) : Call Unit := do
  modify fun s => { s with streams := s.streams.modify i RpcStream.bump }
  writePacketData ⟨stream.streamId, stream.bump.nextMessageId, kind, false, data⟩

/-- `open_stream`.  The handle exists once the call is through. -/
def openStream (rpc : List UInt8) : Call Unit := do
  let stream : RpcStream := ⟨← newStreamId, 0⟩
  writePacketData ⟨stream.streamId, stream.bump.nextMessageId, .invoke, false, rpc⟩
  flush
  modify fun s => { s with streams := s.streams ++ [stream.bump] }

/-- `drain_ready`, as part of a call; its result is looked at later. -/
def drain : Call (Except Error Unit) := fun s =>
  let r := s.conn.drainReady
  (.ok r.1, { s with conn := r.2 })

/-- `send_msg`: what has come in is drained first, so that an end that the peer has sent already is
reported in place of a write. -/
def sendMsg (i : ℕ) (stream : RpcStream) (data : List UInt8) : Call Unit := do
  let drained ← drain
  match peerTerminated (← get).conn.pending stream.streamId with
  | some e => fail (.error e)
  | none =>
      match drained with
      | .error e => fail (.error (.conn e))
      | .ok () =>
          sendKind i stream .message data
          flush

/-- `close_send`: the packet that ends the own side of the stream, and a flush. -/
def closeSend (i : ℕ) (stream : RpcStream) : Call Unit := do
  sendKind i stream .closeSend []
  flush

/-- `close_stream`: the packet that ends the stream, and a flush. -/
def closeStream (i : ℕ) (stream : RpcStream) : Call Unit := do
  sendKind i stream .close []
  flush

/-- `recv_msg`. -/
def recvMsg (stream : RpcStream) : Call (List UInt8) := receive stream.streamId

/-! ## Runs of calls

A caller picks a call and a handle; how the call ends is part of the run.
-/

/-- What a caller may ask for.  A number picks a handle. -/
inductive CallOp where
  | writePacket (pkt : Packet)
  | invoke (rpc request : List UInt8)
  | openStream (rpc : List UInt8)
  | sendMsg (i : ℕ) (data : List UInt8)
  | recvMsg (i : ℕ)
  | closeSend (i : ℕ)
  | closeStream (i : ℕ)

/-- A call, and after how many reads it is dropped. -/
structure Action where
  op : CallOp
  dropRead : Option ℕ

/-- A call on a handle, if there is one. -/
def onStream (i : ℕ) (call : RpcStream → Call (Option (List UInt8))) :
    Call (Option (List UInt8)) := do
  match (← get).streams[i]? with
  | none => return none
  | some stream => call stream

/-- A call, with the message that it returns.  The drop of its future at a read await is set up
before it runs. -/
def perform (a : Action) : Call (Option (List UInt8)) := do
  modify fun s => { s with dropRead := a.dropRead }
  match a.op with
  | .writePacket pkt => do
      writePacket pkt
      return none
  | .invoke rpc request => do
      let data ← invoke rpc request
      return some data
  | .openStream rpc => do
      openStream rpc
      return none
  | .sendMsg i data => onStream i fun stream => do
      sendMsg i stream data
      return none
  | .recvMsg i => onStream i fun stream => do
      let data ← recvMsg stream
      return some data
  | .closeSend i => onStream i fun stream => do
      closeSend i stream
      return none
  | .closeStream i => onStream i fun stream => do
      closeStream i stream
      return none

/-- The state after a run of calls, each of which ended in some way. -/
def Link.run (s : Link) (actions : List Action) : Link :=
  actions.foldl (fun s a => (perform a s).2) s

/-! ## The flag

Only a write that went through takes it down.
-/

section Poisoned

variable {c d : Conn}

lemma Conn.poisoned_consume (c : Conn) (n : ℕ) : (c.consume n).poisoned = c.poisoned := by
  rw [Conn.consume]
  split_ifs
  · rfl
  · rfl

lemma Conn.poisoned_parseOne {r : Except Error (Option Packet)} (h : c.parseOne = (r, d)) :
    d.poisoned = c.poisoned := by
  rw [Conn.parseOne] at h
  split at h
  · cases h
    rfl
  · cases h
    rfl
  · dsimp only at h
    split at h
    · cases h
      exact c.poisoned_consume _
    · cases h
      exact c.poisoned_consume _

lemma Conn.poisoned_prepareRead {r : Except Error Unit} (h : c.prepareRead = (r, d)) :
    d.poisoned = c.poisoned := by
  rw [Conn.prepareRead] at h
  split_ifs at h
  · cases h
    rfl
  · cases h
    rfl
  · cases h
    rfl
  · cases h
    rfl

/-- Reading never takes the flag down. -/
lemma Conn.poisoned_fill {r : Except Error Unit} (h : c.fill = (r, d)) (hc : c.poisoned = true) :
    d.poisoned = true := by
  rw [Conn.fill] at h
  rcases hp : c.prepareRead with ⟨_ | _, d'⟩
  · rw [hp] at h
    cases h
    exact (Conn.poisoned_prepareRead hp).trans hc
  · have hd := (Conn.poisoned_prepareRead hp).trans hc
    rw [hp] at h
    simp only at h
    split at h
    · cases h
      rfl
    · split_ifs at h
      · cases h
        exact hd
      · cases h
        exact hd

lemma Conn.poisoned_readPacketCut (budget : Option ℕ) (h : c.poisoned = true) :
    (c.readPacketCut budget).2.1.poisoned = true := by
  fun_induction Conn.readPacketCut budget c with
  | case1 budget c e d hparse => exact (Conn.poisoned_parseOne hparse).trans h
  | case2 budget c pkt d hparse => exact (Conn.poisoned_parseOne hparse).trans h
  | case3 c d hparse hsame e d' hprep =>
      exact (Conn.poisoned_prepareRead hprep).trans ((Conn.poisoned_parseOne hparse).trans h)
  | case4 c d hparse hsame d' hprep =>
      exact (Conn.poisoned_prepareRead hprep).trans ((Conn.poisoned_parseOne hparse).trans h)
  | case5 budget c d hparse hsame hzero e d' hfill =>
      exact Conn.poisoned_fill hfill ((Conn.poisoned_parseOne hparse).trans h)
  | case6 budget c d hparse hsame hzero d' hfill ih =>
      exact ih (Conn.poisoned_fill hfill ((Conn.poisoned_parseOne hparse).trans h))
  | case7 budget c d hparse hsame ih => exact ih ((Conn.poisoned_parseOne hparse).trans h)

lemma Conn.poisoned_readPacketWithin (budget : Option ℕ) (h : c.poisoned = true) :
    (c.readPacketWithin budget).2.1.poisoned = true := by
  rw [Conn.readPacketWithin]
  split
  · exact h
  · exact Conn.poisoned_readPacketCut budget h

lemma Conn.poisoned_awaitMessage (streamId : ℕ) (budget : Option ℕ) (h : c.poisoned = true) :
    (c.awaitMessage streamId budget).2.poisoned = true := by
  fun_induction Conn.awaitMessage streamId budget c with
  | case1 budget c d b hread =>
      have := Conn.poisoned_readPacketWithin budget h
      rwa [hread] at this
  | case2 budget c e d b hread =>
      have := Conn.poisoned_readPacketWithin budget h
      rwa [hread] at this
  | case3 budget c pkt d b hread hne hlt ih =>
      have := Conn.poisoned_readPacketWithin budget h
      rw [hread] at this
      exact ih this
  | case4 budget c pkt d b hread hne hlt =>
      have := Conn.poisoned_readPacketWithin budget h
      rwa [hread] at this
  | case5 budget c pkt d b hread heq data hans =>
      have := Conn.poisoned_readPacketWithin budget h
      rwa [hread] at this
  | case6 budget c pkt d b hread heq e hans =>
      have := Conn.poisoned_readPacketWithin budget h
      rwa [hread] at this
  | case7 budget c pkt d b hread heq hans ih =>
      have := Conn.poisoned_readPacketWithin budget h
      rw [hread] at this
      exact ih this

lemma Conn.poisoned_drainReadyLoop (queuedBytes : ℕ) (h : c.poisoned = true) :
    (c.drainReadyLoop queuedBytes).2.poisoned = true := by
  fun_induction Conn.drainReadyLoop c queuedBytes with
  | case1 c queued hfull => exact h
  | case2 c queued hfull e d hparse => exact (Conn.poisoned_parseOne hparse).trans h
  | case3 c queued hfull pkt d hparse ih => exact ih ((Conn.poisoned_parseOne hparse).trans h)
  | case4 c queued hfull d hparse hsame e d' hprep =>
      exact (Conn.poisoned_prepareRead hprep).trans ((Conn.poisoned_parseOne hparse).trans h)
  | case5 c queued hfull d hparse hsame d' hprep rest hpoll =>
      exact (Conn.poisoned_prepareRead hprep).trans ((Conn.poisoned_parseOne hparse).trans h)
  | case6 c queued hfull d hparse hsame d' hprep e rest hpoll => rfl
  | case7 c queued hfull d hparse hsame d' hprep b rest hpoll hb =>
      exact (Conn.poisoned_prepareRead hprep).trans ((Conn.poisoned_parseOne hparse).trans h)
  | case8 c queued hfull d hparse hsame d' hprep b rest hpoll hb ih =>
      exact ih ((Conn.poisoned_prepareRead hprep).trans ((Conn.poisoned_parseOne hparse).trans h))
  | case9 c queued hfull d hparse hsame ih => exact ih ((Conn.poisoned_parseOne hparse).trans h)

end Poisoned

/-! ## What is on the wire

The bytes that the transport took are compared with the frames of the packets that were to be
written.
-/

/-- What the transport took is whole: the packets that were to be written, frame by frame. -/
def Link.Whole (s : Link) : Prop :=
  s.isPoisoned = false → s.sent = (framesOf s.splitSize s.requested).flatMap Frame.encode

/-- From a state to a later one: what was whole stays whole, and the flag stays up. -/
structure Link.Leads (s t : Link) : Prop where
  whole : s.Whole → t.Whole
  poisoned : s.isPoisoned = true → t.isPoisoned = true

lemma Link.Leads.refl (s : Link) : s.Leads s := ⟨id, id⟩

lemma Link.Leads.trans (s t u : Link) (h : s.Leads t) (h' : t.Leads u) : s.Leads u :=
  ⟨h'.whole ∘ h.whole, h'.poisoned ∘ h.poisoned⟩

/-- A change that leaves the wire alone. -/
lemma Link.Leads.of_same {s t : Link} (hsplit : t.splitSize = s.splitSize) (hsent : t.sent = s.sent)
    (hreq : t.requested = s.requested) (hpois : s.isPoisoned = true → t.isPoisoned = true) :
    s.Leads t := by
  refine ⟨fun h ht => ?_, hpois⟩
  rw [hsent, hsplit, hreq]
  refine h ?_
  cases hs : s.isPoisoned with
  | false => rfl
  | true =>
      rw [hpois hs] at ht
      cases ht

/-- A poisoned state is fine. -/
lemma Link.Leads.of_poisoned {s t : Link} (h : t.isPoisoned = true) : s.Leads t := by
  refine ⟨fun _ ht => ?_, fun _ => h⟩
  rw [h] at ht
  cases ht

/-- A write that ended well wrote everything. -/
lemma writeAll_done {events : List WriteEvent} {buf : List UInt8}
    (h : (writeAll events buf).1 = .done) : (writeAll events buf).2.1 = buf := by
  induction events generalizing buf with
  | nil => rfl
  | cons e rest ih =>
      by_cases hempty : buf = []
      · subst hempty
        cases e <;> rfl
      · have hcons : buf.isEmpty = false := by simpa using hempty
        cases e with
        | ready n =>
            by_cases hn : n = 0
            · simp [writeAll, hcons, hn] at h
            · simp only [writeAll, hcons, hn, Bool.false_eq_true, if_false] at h ⊢
              rw [ih h, List.take_append_drop]
        | pending =>
            simp only [writeAll, hcons, Bool.false_eq_true, if_false] at h ⊢
            exact ih h
        | elapsed => simp [writeAll, hcons] at h
        | failed text => simp [writeAll, hcons] at h
        | dropped => simp [writeAll, hcons] at h

/-- `timed` under the flag. -/
lemma timed_spec (e : WriteEnd) (s : Link) (h : s.isPoisoned = true) :
    (e = .done ∧ timed e s = (.ok (), s)) ∨
    (e ≠ .done ∧ ∃ stop t, timed e s = (.error stop, t) ∧ t.isPoisoned = true) := by
  cases e with
  | done => exact Or.inl ⟨rfl, rfl⟩
  | elapsed => exact Or.inr ⟨nofun, _, _, rfl, rfl⟩
  | failed text => exact Or.inr ⟨nofun, _, _, rfl, rfl⟩
  | dropped => exact Or.inr ⟨nofun, _, _, rfl, h⟩

/-- **`write_raw`.**  It writes everything and restores the flag, or leaves it up. -/
lemma writeRaw_spec (buf : List UInt8) (s : Link) :
    ((writeAll s.out buf).1 = .done ∧ writeRaw buf s
      = (.ok (), { s with out := (writeAll s.out buf).2.2, sent := s.sent ++ buf })) ∨
    ((writeAll s.out buf).1 ≠ .done ∧
      ∃ stop t, writeRaw buf s = (.error stop, t) ∧ t.isPoisoned = true) := by
  let u : Link := { s.setPoisoned true with
    out := (writeAll s.out buf).2.2, sent := s.sent ++ (writeAll s.out buf).2.1 }
  have hstart : writeRaw buf s
      = (timed (writeAll s.out buf).1 >>= fun _ => modify (Link.setPoisoned s.isPoisoned)) u := rfl
  rcases timed_spec (writeAll s.out buf).1 u rfl with ⟨hdone, heq⟩ | ⟨hne, stop, t, heq, ht⟩
  · refine Or.inl ⟨hdone, ?_⟩
    rw [hstart, bind_of_ok heq, modify_apply]
    simp only [u, writeAll_done hdone]
    rfl
  · exact Or.inr ⟨hne, stop, t, by rw [hstart, bind_of_error heq], ht⟩

/-- **`flush`.**  It restores the flag, or leaves it up. -/
lemma flush_spec (s : Link) :
    ((flushAll s.out).1 = .done ∧ flush s = (.ok (), { s with out := (flushAll s.out).2 })) ∨
    ((flushAll s.out).1 ≠ .done ∧
      ∃ stop t, flush s = (.error stop, t) ∧ t.isPoisoned = true) := by
  let u : Link := { s.setPoisoned true with out := (flushAll s.out).2 }
  have hstart : flush s
      = (timed (flushAll s.out).1 >>= fun _ => modify (Link.setPoisoned s.isPoisoned)) u := rfl
  rcases timed_spec (flushAll s.out).1 u rfl with ⟨hdone, heq⟩ | ⟨hne, stop, t, heq, ht⟩
  · refine Or.inl ⟨hdone, ?_⟩
    rw [hstart, bind_of_ok heq, modify_apply]
    rfl
  · exact Or.inr ⟨hne, stop, t, by rw [hstart, bind_of_error heq], ht⟩

/-! ## Every call leads to a state that is whole or poisoned

One lemma for each call, put together with the rule for sequences.
-/

section Keeps

/-- Sequences of calls. -/
lemma keeps_bind {α β : Type} {m : Call α} {f : α → Call β} (hm : Keeps Link.Leads m)
    (hf : ∀ a, Keeps Link.Leads (f a)) : Keeps Link.Leads (m >>= f) :=
  Keeps.bind Link.Leads.trans hm hf

lemma keeps_pure {α : Type} (a : α) : Keeps Link.Leads (pure a : Call α) :=
  Keeps.pure Link.Leads.refl a

/-- A change that leaves the wire and the flag alone. -/
lemma keeps_modify {f : Link → Link} (hsplit : ∀ s, (f s).splitSize = s.splitSize)
    (hsent : ∀ s, (f s).sent = s.sent) (hreq : ∀ s, (f s).requested = s.requested)
    (hpois : ∀ s, (f s).isPoisoned = s.isPoisoned) :
    Keeps Link.Leads (modify f : Call Unit) := fun s =>
  .of_same (hsplit s) (hsent s) (hreq s) fun h => (hpois s).trans h

lemma keeps_flush : Keeps Link.Leads flush := by
  intro s
  rcases flush_spec s with ⟨-, heq⟩ | ⟨-, stop, t, heq, ht⟩
  · rw [heq]
    exact .of_same rfl rfl rfl id
  · rw [heq]
    exact .of_poisoned ht

/-- The bytes of one more packet. -/
lemma flatMap_framesOf_append (split : ℕ) (ps : List Packet) (pkt : Packet) :
    (framesOf split (ps ++ [pkt])).flatMap Frame.encode
      = (framesOf split ps).flatMap Frame.encode ++ appendPacket [] pkt split := by
  rw [appendPacket, appendPacketLoop_eq, List.nil_append]
  simp only [framesOf, List.flatMap_append, List.flatMap_singleton]

/-- **A packet is written whole, or the connection is poisoned.** -/
lemma keeps_writePacketData (pkt : Packet) : Keeps Link.Leads (writePacketData pkt) := by
  intro s
  let u : Link := { s with requested := s.requested ++ [pkt] }
  have hstart : writePacketData pkt s = writeRaw (appendPacket [] pkt s.splitSize) u := rfl
  rw [hstart]
  rcases writeRaw_spec (appendPacket [] pkt s.splitSize) u with ⟨-, heq⟩ | ⟨-, stop, t, heq, ht⟩
  · rw [heq]
    refine ⟨fun hwhole ht => ?_, id⟩
    show s.sent ++ _ = (framesOf s.splitSize (s.requested ++ [pkt])).flatMap Frame.encode
    rw [flatMap_framesOf_append, ← hwhole ht]
  · rw [heq]
    exact .of_poisoned ht

lemma keeps_writePacket (pkt : Packet) : Keeps Link.Leads (writePacket pkt) :=
  keeps_bind (keeps_writePacketData pkt) fun _ => keeps_flush

lemma keeps_receive (streamId : ℕ) : Keeps Link.Leads (receive streamId) := fun s =>
  .of_same rfl rfl rfl (Conn.poisoned_awaitMessage streamId s.dropRead)

lemma keeps_drain : Keeps Link.Leads drain := fun _ =>
  .of_same rfl rfl rfl (Conn.poisoned_drainReadyLoop _)

lemma keeps_newStreamId : Keeps Link.Leads newStreamId := fun _ => .of_same rfl rfl rfl id

lemma keeps_invoke (rpc request : List UInt8) : Keeps Link.Leads (invoke rpc request) :=
  keeps_bind keeps_newStreamId fun _ =>
  keeps_bind (keeps_writePacketData _) fun _ =>
  keeps_bind (keeps_writePacketData _) fun _ =>
  keeps_bind (keeps_writePacketData _) fun _ =>
  keeps_bind keeps_flush fun _ =>
  keeps_bind (keeps_receive _) fun _ =>
  keeps_bind (keeps_writePacketData _) fun _ =>
  keeps_bind keeps_flush fun _ => keeps_pure _

lemma keeps_sendKind (i : ℕ) (stream : RpcStream) (kind : Kind) (data : List UInt8) :
    Keeps Link.Leads (sendKind i stream kind data) :=
  keeps_bind (keeps_modify (fun _ => rfl) (fun _ => rfl) (fun _ => rfl) fun _ => rfl) fun _ =>
  keeps_writePacketData _

lemma keeps_openStream (rpc : List UInt8) : Keeps Link.Leads (openStream rpc) :=
  keeps_bind keeps_newStreamId fun _ =>
  keeps_bind (keeps_writePacketData _) fun _ =>
  keeps_bind keeps_flush fun _ =>
  keeps_modify (fun _ => rfl) (fun _ => rfl) (fun _ => rfl) fun _ => rfl

lemma keeps_sendMsg (i : ℕ) (stream : RpcStream) (data : List UInt8) :
    Keeps Link.Leads (sendMsg i stream data) := by
  refine keeps_bind keeps_drain fun drained => keeps_bind (Keeps.get Link.Leads.refl) fun s => ?_
  cases peerTerminated s.conn.pending stream.streamId with
  | some e => exact Keeps.fail Link.Leads.refl _
  | none =>
      cases drained with
      | error e => exact Keeps.fail Link.Leads.refl _
      | ok u => exact keeps_bind (keeps_sendKind i stream _ _) fun _ => keeps_flush

lemma keeps_closeSend (i : ℕ) (stream : RpcStream) : Keeps Link.Leads (closeSend i stream) :=
  keeps_bind (keeps_sendKind i stream _ _) fun _ => keeps_flush

lemma keeps_closeStream (i : ℕ) (stream : RpcStream) : Keeps Link.Leads (closeStream i stream) :=
  keeps_bind (keeps_sendKind i stream _ _) fun _ => keeps_flush

lemma keeps_onStream (i : ℕ) {call : RpcStream → Call (Option (List UInt8))}
    (h : ∀ stream, Keeps Link.Leads (call stream)) : Keeps Link.Leads (onStream i call) := by
  refine keeps_bind (Keeps.get Link.Leads.refl) fun s => ?_
  cases s.streams[i]? with
  | none => exact keeps_pure none
  | some stream => exact h stream

/-- **Step.** -/
theorem keeps_perform (a : Action) : Keeps Link.Leads (perform a) := by
  refine keeps_bind
    (keeps_modify (fun _ => rfl) (fun _ => rfl) (fun _ => rfl) fun _ => rfl) fun _ => ?_
  cases a.op with
  | writePacket pkt => exact keeps_bind (keeps_writePacket pkt) fun _ => keeps_pure _
  | invoke rpc request => exact keeps_bind (keeps_invoke rpc request) fun _ => keeps_pure _
  | openStream rpc => exact keeps_bind (keeps_openStream rpc) fun _ => keeps_pure _
  | sendMsg i data =>
      exact keeps_onStream i fun stream =>
        keeps_bind (keeps_sendMsg i stream data) fun _ => keeps_pure _
  | recvMsg i =>
      exact keeps_onStream i fun stream =>
        keeps_bind (keeps_receive stream.streamId) fun _ => keeps_pure _
  | closeSend i =>
      exact keeps_onStream i fun stream =>
        keeps_bind (keeps_closeSend i stream) fun _ => keeps_pure _
  | closeStream i =>
      exact keeps_onStream i fun stream =>
        keeps_bind (keeps_closeStream i stream) fun _ => keeps_pure _

end Keeps

/-- **Run.** -/
theorem Link.leads_run (s : Link) (actions : List Action) : s.Leads (s.run actions) := by
  induction actions generalizing s with
  | nil => exact .refl s
  | cons a actions ih => exact .trans _ _ _ (keeps_perform a s) (ih _)

/-- The frames of a packet hold its data, and the last one alone is marked done. -/
lemma Packet.frames_parts {n : ℕ} {hn : 0 < n} (pkt : Packet) (data : List UInt8) :
    ∃ (parts : List (List UInt8)) (last : List UInt8),
      pkt.frames n hn data = parts.map (pkt.frame false) ++ [pkt.frame true last] ∧
        parts.flatten ++ last = data := by
  fun_induction Packet.frames n hn pkt data with
  | case1 data h ih =>
      obtain ⟨parts, last, hframes, hdata⟩ := ih
      refine ⟨data.take n :: parts, last, by rw [hframes]; rfl, ?_⟩
      rw [List.flatten_cons, List.append_assoc, hdata, List.take_append_drop]
  | case2 data h => exact ⟨[], data, rfl, rfl⟩

/-- **A half-written connection is always poisoned.**  Whatever calls are made and wherever each of
them fails or is dropped: while the flag is down, the transport took exactly the frames of the
packets that were to be written, each packet up to the frame that is marked done; and the flag never
comes down. -/
theorem Link.poisoned_or_whole (io : List Event) (out : List WriteEvent) (actions : List Action) :
    let s := (Link.new io out).run actions
    (s.isPoisoned = false →
      s.sent = (framesOf s.splitSize s.requested).flatMap Frame.encode ∧
      ∀ pkt ∈ s.requested, ∃ (parts : List (List UInt8)) (last : List UInt8),
        pkt.frames (Rpc.splitSize s.splitSize) (splitSize_pos _) pkt.data
            = parts.map (pkt.frame false) ++ [pkt.frame true last] ∧
          parts.flatten ++ last = pkt.data) ∧
    ∀ later, s.isPoisoned = true → (s.run later).isPoisoned = true := by
  intro s
  have hstart : (Link.new io out).Whole := fun _ => rfl
  refine ⟨fun hs => ⟨((Link.new io out).leads_run actions).whole hstart hs, ?_⟩, ?_⟩
  · exact fun pkt _ => pkt.frames_parts pkt.data
  · exact fun later => (s.leads_run later).poisoned

end Storj.Rpc
