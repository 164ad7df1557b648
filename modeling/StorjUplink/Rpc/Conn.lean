import StorjUplink.Rpc.Frame

/-!
# The read side of a connection

`conn.rs`: bytes come from the transport in any portions, `parse_one` takes one frame at a time
from the front of the buffer, and packets go to `read_packet` directly or through the queue that
`drain_ready` fills.  The transport is the list of what its reads give, one event each.

`Flow` says what a connection holds in the middle of a stream: the bytes in the buffer and those to
come are the frames that its assembler expects.  Every operation keeps it, and takes packets only
from the front of those that are still to be delivered.

A portion of bytes may end anywhere, in a varint, in a header or in the data of a frame, and there
may be many frames in one portion.  Parsing leaves an incomplete frame where it is.  The buffer has
a limit, and reading stops at it; that a valid stream never makes the reader stop for good is a
matter of arithmetic between the limit and the size of a frame.

Two calls take packets.  `read_packet` returns the next one, from the queue or from the stream, and
waits if there is none.  `drain_ready` takes what is there without waiting, up to a number and an
amount, and leaves it in the queue.  In any order of the two, packets come out in the order in
which they were sent.
-/

namespace Storj.Rpc

open Incremental Varint

/-- `MAX_BUFFERED`. -/
def maxBuffered : ℕ := maxPacketSize + 32

/-- `PENDING_HIGH_WATER_BYTES`. -/
def pendingHighWaterBytes : ℕ := maxPacketSize

/-- `MAX_PENDING_PACKETS`. -/
def maxPendingPackets : ℕ := 256

/-- `Error`, what reading packets gives of it: a frame that does not parse, the two ends of the
transport (inside a packet and between packets), and a failure of the transport. -/
inductive Error where
  | frame (e : FrameError)
  | truncated
  | closed
  | io (text : String)
deriving DecidableEq, Repr

/-- `timed_out`. -/
def timedOut : Error := .io "rpc operation timed out"

/-- What one poll of the transport gives.  No bytes is the end of the stream, and so is the end of
the list of events. -/
inductive Event where
  | bytes (b : List UInt8)
  | notReady
  | elapsed
  | failed (text : String)
deriving DecidableEq, Repr

/-- `Conn`, its read side: the transport, the assembler, the buffer with the position up to which it
is parsed, the queue of packets that were drained early, and the mark of a connection that may not
be read on. -/
structure Conn where
  io : List Event
  assembler : PacketAssembler
  buf : List UInt8
  pos : ℕ
  pending : List Packet
  poisoned : Bool
deriving DecidableEq, Repr

/-- `read_buf` under the deadline of `timed`.  Events at which nothing has come are waited through;
with no event left the transport is at its end. -/
def awaitRead : List Event → Except Error (List UInt8) × List Event
  | [] => (.ok [], [])
  | .bytes b :: rest => (.ok b, rest)
  | .notReady :: rest => awaitRead rest
  | .elapsed :: rest => (.error timedOut, rest)
  | .failed text :: rest => (.error (.io text), rest)

/-- One poll of `read_buf`, which no deadline bounds: it gives up at the first event at which
nothing has come. -/
def pollRead : List Event → Option (Except Error (List UInt8)) × List Event
  | [] => (some (.ok []), [])
  | .bytes b :: rest => (some (.ok b), rest)
  | .notReady :: rest => (none, rest)
  | .elapsed :: rest => (none, rest)
  | .failed text :: rest => (some (.error (.io text)), rest)

namespace Conn

/-- `Conn::new`. -/
def new (io : List Event) : Conn := ⟨io, .default, [], 0, [], false⟩

/-- `unparsed`. -/
def unparsed (c : Conn) : List UInt8 := c.buf.drop c.pos

/-- `consume`: the position moves on, and a buffer that is used up is cleared. -/
def consume (c : Conn) (n : ℕ) : Conn :=
  let pos := c.pos + n
  if pos = c.buf.length then { c with buf := [], pos := 0 } else { c with pos := pos }

/-- `prepare_read`: the parsed bytes leave the buffer, and what is left must be within its bound. -/
def prepareRead (c : Conn) : Except Error Unit × Conn :=
  let c := if c.pos > 0 then { c with buf := c.buf.drop c.pos, pos := 0 } else c
  if c.buf.length > maxBuffered then (.error (.frame .overflow), c) else (.ok (), c)

/-- `eof_error`. -/
def eofError (c : Conn) : Error :=
  if c.buf.isEmpty ∧ ¬c.assembler.current.isSome then .closed else .truncated

/-- `parse_one`: one frame off the buffer, through the assembler.  `none` is a frame that is not all
there, or one that does not complete its packet. -/
def parseOne (c : Conn) : Except Error (Option Packet) × Conn :=
  match parseFrame c.unparsed with
  | .error e => (.error (.frame e), c)
  | .ok none => (.ok none, c)
  | .ok (some (fr, consumed)) =>
      let c := c.consume consumed
      match c.assembler.push fr with
      | (.error e, a) => (.error (.frame e), { c with assembler := a })
      | (.ok pkt, a) => (.ok pkt, { c with assembler := a })

/-- `fill`: one read into the buffer.  A read that fails poisons the connection, the end of the
transport does not. -/
def fill (c : Conn) : Except Error Unit × Conn :=
  match c.prepareRead with
  | (.error e, c) => (.error e, c)
  | (.ok (), c) =>
      match awaitRead c.io with
      | (.error e, rest) => (.error e, { c with io := rest, poisoned := true })
      | (.ok b, rest) =>
          if b.isEmpty then (.error c.eofError, { c with io := rest })
          else (.ok (), { c with io := rest, buf := c.buf ++ b })

/-! ### What the loops go down in

A turn of a loop either takes an event of the transport or shortens the buffer.
-/

lemma unparsed_consume_length_le (c : Conn) (n : ℕ) :
    (c.consume n).unparsed.length ≤ c.unparsed.length - n := by
  rw [consume]
  split_ifs with h
  · exact Nat.zero_le _
  · simp only [unparsed, List.length_drop]
    omega

lemma io_consume (c : Conn) (n : ℕ) : (c.consume n).io = c.io := by
  rw [consume]
  split_ifs
  · rfl
  · rfl

/-- A frame is never empty. -/
lemma parseFrame_pos {buf : List UInt8} {fr : Frame} {n : ℕ}
    (h : parseFrame buf = .ok (some (fr, n))) : 0 < n ∧ 0 < buf.length := by
  cases buf with
  | nil => cases h
  | cons header rest =>
      refine ⟨?_, Nat.succ_pos _⟩
      rw [parseFrame_eq, andThen] at h
      simp only [readHeader] at h
      split at h
      · cases h
      · cases h
      · cases h
        omega

section Measure

variable {c d : Conn}

lemma parseOne_io {r : Except Error (Option Packet)} (h : c.parseOne = (r, d)) : d.io = c.io := by
  rw [parseOne] at h
  split at h
  · cases h
    rfl
  · cases h
    rfl
  · dsimp only at h
    split at h
    · cases h
      exact io_consume _ _
    · cases h
      exact io_consume _ _

/-- A parse that gives a packet, or that changes the length of the buffer, makes it shorter. -/
lemma parseOne_length_lt {r : Option Packet} (h : c.parseOne = (.ok r, d))
    (hr : r.isSome ∨ d.unparsed.length ≠ c.unparsed.length) :
    d.unparsed.length < c.unparsed.length := by
  rw [parseOne] at h
  split at h
  · cases h
  · cases h
    simp at hr
  · next fr n hframe =>
      have hpos := parseFrame_pos hframe
      have hle := c.unparsed_consume_length_le n
      dsimp only at h
      split at h
      · cases h
      · cases h
        show (c.consume n).unparsed.length < _
        omega

lemma prepareRead_io {r : Except Error Unit} (h : c.prepareRead = (r, d)) : d.io = c.io := by
  rw [prepareRead] at h
  split_ifs at h
  · cases h
    rfl
  · cases h
    rfl
  · cases h
    rfl
  · cases h
    rfl

/-- Bytes come only from an event. -/
lemma awaitRead_length_lt {io rest : List Event} {b : List UInt8}
    (h : awaitRead io = (.ok b, rest)) (hb : b ≠ []) : rest.length < io.length := by
  induction io with
  | nil =>
      cases h
      exact absurd rfl hb
  | cons ev io ih =>
      cases ev with
      | notReady => exact Nat.lt_succ_of_lt (ih h)
      | bytes b =>
          cases h
          exact Nat.lt_succ_self _
      | elapsed => cases h
      | failed text => cases h

lemma fill_io_length_lt (h : c.fill = (.ok (), d)) : d.io.length < c.io.length := by
  rw [fill] at h
  split at h
  · cases h
  · next hprep =>
      split at h
      · cases h
      · next b rest hread =>
          split_ifs at h with hb
          · cases h
          · cases h
            rw [← prepareRead_io hprep]
            exact awaitRead_length_lt hread (by simpa using hb)

lemma pollRead_length_lt {io rest : List Event} {b : List UInt8}
    (h : pollRead io = (some (.ok b), rest)) (hb : b ≠ []) : rest.length < io.length := by
  cases io with
  | nil =>
      cases h
      exact absurd rfl hb
  | cons ev io =>
      cases ev with
      | bytes b =>
          cases h
          exact Nat.lt_succ_self _
      | notReady => cases h
      | elapsed => cases h
      | failed text => cases h

end Measure

/-! ### The loops

`read_packet` parses before it reads, and `drain_ready` polls once more after it has parsed
everything.
-/

/-- The loop of `read_packet`: frames are parsed until a packet is complete, and the transport is
read when no frame could be taken off the buffer.  It ends because each round uses up an event or
bytes of the buffer. -/
def readPacketLoop (c : Conn) : Except Error Packet × Conn :=
  match _hparse : c.parseOne with
  | (.error e, d) => (.error e, d)
  | (.ok (some pkt), d) => (.ok pkt, d)
  | (.ok none, d) =>
      if _hsame : d.unparsed.length = c.unparsed.length then
        match _hfill : d.fill with
        | (.error e, d') => (.error e, d')
        | (.ok (), d') => readPacketLoop d'
      else readPacketLoop d
termination_by (c.io.length, c.unparsed.length)
decreasing_by
  · have hlt := fill_io_length_lt _hfill
    rw [parseOne_io _hparse] at hlt
    exact Prod.Lex.left _ _ hlt
  · rw [parseOne_io _hparse]
    exact Prod.Lex.right _ (parseOne_length_lt _hparse (Or.inr _hsame))

/-- `read_packet`: a packet that was queued goes first. -/
def readPacket (c : Conn) : Except Error Packet × Conn :=
  match c.pending with
  | pkt :: rest => (.ok pkt, { c with pending := rest })
  | [] => c.readPacketLoop

/-- The loops of `drain_ready` in one: packets are queued as they are completed, up to the marks on
their number and their bytes, and the transport is read for as long as it has bytes at hand. -/
def drainReadyLoop (c : Conn) (queuedBytes : ℕ) : Except Error Unit × Conn :=
  if queuedBytes ≥ pendingHighWaterBytes ∨ c.pending.length ≥ maxPendingPackets then (.ok (), c)
  else
    match _hparse : c.parseOne with
    | (.error e, d) => (.error e, d)
    | (.ok (some pkt), d) =>
        drainReadyLoop { d with pending := d.pending ++ [pkt] } (queuedBytes + pkt.data.length)
    | (.ok none, d) =>
        if _hsame : d.unparsed.length = c.unparsed.length then
          match _hprep : d.prepareRead with
          | (.error e, d') => (.error e, d')
          | (.ok (), d') =>
              match _hpoll : pollRead d'.io with
              | (none, rest) => (.ok (), { d' with io := rest })
              | (some (.error e), rest) => (.error e, { d' with io := rest, poisoned := true })
              | (some (.ok b), rest) =>
                  if _hb : b.isEmpty then (.error d'.eofError, { d' with io := rest })
                  else drainReadyLoop { d' with io := rest, buf := d'.buf ++ b } queuedBytes
        else drainReadyLoop d queuedBytes
termination_by (c.io.length, c.unparsed.length)
decreasing_by
  · have hlt := parseOne_length_lt _hparse (Or.inl Option.isSome_some)
    rw [parseOne_io _hparse]
    exact Prod.Lex.right _ hlt
  · have hlt := pollRead_length_lt _hpoll (by simpa using _hb)
    rw [prepareRead_io _hprep, parseOne_io _hparse] at hlt
    exact Prod.Lex.left _ _ hlt
  · rw [parseOne_io _hparse]
    exact Prod.Lex.right _ (parseOne_length_lt _hparse (Or.inr _hsame))

/-- `drain_ready`, which starts to count at the bytes that are queued already. -/
def drainReady (c : Conn) : Except Error Unit × Conn :=
  c.drainReadyLoop (c.pending.map fun pkt => pkt.data.length).sum

end Conn

/-! ## The transport

Bytes, nothing yet, an error, or the end.  A healthy transport has no errors, and its end is the
end of the list.
-/

/-- The bytes of an event. -/
def Event.data : Event → List UInt8
  | .bytes b => b
  | _ => []

/-- The bytes that the transport still gives. -/
def ioBytes (io : List Event) : List UInt8 := io.flatMap Event.data

/-- An event of a transport that works: bytes, or nothing yet. -/
def Event.Healthy (ev : Event) : Prop := ev = .notReady ∨ ∃ b, b ≠ [] ∧ ev = .bytes b

section Transport

variable {io rest : List Event}

/-- A read takes its bytes from the front.  A healthy transport ends only when it has no more. -/
lemma awaitRead_ok {b : List UInt8} (h : awaitRead io = (.ok b, rest)) :
    rest <:+ io ∧ b ++ ioBytes rest = ioBytes io ∧
      (b = [] → (∀ ev ∈ io, ev.Healthy) → ioBytes io = []) := by
  induction io with
  | nil =>
      cases h
      exact ⟨List.suffix_refl _, rfl, fun _ _ => rfl⟩
  | cons ev io ih =>
      cases ev with
      | notReady =>
          obtain ⟨hsuf, hbytes, hend⟩ := ih h
          refine ⟨hsuf.trans (List.suffix_cons _ _), hbytes, fun hb hh => ?_⟩
          exact hend hb fun ev hev => hh ev (List.mem_cons_of_mem _ hev)
      | bytes b =>
          cases h
          refine ⟨List.suffix_cons _ _, rfl, fun hb hh => ?_⟩
          rcases hh _ List.mem_cons_self with h | ⟨_, hne, h⟩
          · cases h
          · cases h
            exact absurd hb hne
      | elapsed => cases h
      | failed text => cases h

/-- A read that fails takes no bytes. -/
lemma awaitRead_error {e : Error} (h : awaitRead io = (.error e, rest)) :
    rest <:+ io ∧ ioBytes rest = ioBytes io ∧ (∃ text, e = .io text) ∧
      ¬∀ ev ∈ io, ev.Healthy := by
  induction io with
  | nil => cases h
  | cons ev io ih =>
      cases ev with
      | notReady =>
          obtain ⟨hsuf, hbytes, htext, hsick⟩ := ih h
          refine ⟨hsuf.trans (List.suffix_cons _ _), hbytes, htext, fun hh => hsick ?_⟩
          exact fun ev hev => hh ev (List.mem_cons_of_mem _ hev)
      | bytes b => cases h
      | elapsed =>
          cases h
          refine ⟨List.suffix_cons _ _, rfl, ⟨_, rfl⟩, fun hh => ?_⟩
          rcases hh _ List.mem_cons_self with h | ⟨_, _, h⟩
          · cases h
          · cases h
      | failed text =>
          cases h
          refine ⟨List.suffix_cons _ _, rfl, ⟨_, rfl⟩, fun hh => ?_⟩
          rcases hh _ List.mem_cons_self with h | ⟨_, _, h⟩
          · cases h
          · cases h

/-- A poll takes its bytes from the front, and none if it gives none. -/
lemma pollRead_bytes {r : Option (Except Error (List UInt8))} (h : pollRead io = (r, rest)) :
    rest <:+ io ∧ ∃ b, b ++ ioBytes rest = ioBytes io ∧
      (r = some (.ok b) ∨ b = [] ∧ (r = none ∨ ∃ text, r = some (.error (.io text)))) := by
  cases io with
  | nil =>
      cases h
      exact ⟨List.suffix_refl _, [], rfl, Or.inl rfl⟩
  | cons ev io =>
      cases ev with
      | bytes b =>
          cases h
          exact ⟨List.suffix_cons _ _, b, rfl, Or.inl rfl⟩
      | notReady =>
          cases h
          exact ⟨List.suffix_cons _ _, [], rfl, Or.inr ⟨rfl, Or.inl rfl⟩⟩
      | elapsed =>
          cases h
          exact ⟨List.suffix_cons _ _, [], rfl, Or.inr ⟨rfl, Or.inl rfl⟩⟩
      | failed text =>
          cases h
          exact ⟨List.suffix_cons _ _, [], rfl, Or.inr ⟨rfl, Or.inr ⟨text, rfl⟩⟩⟩

end Transport

/-! ## A connection in the middle of a stream

Whatever call comes next, the connection knows the same: what is in the buffer, what the assembler
holds and what is queued are one beginning of what the peer has sent.
-/

/-- **The connection in the middle of a stream** that lacks `missing` at its end: the frames that
are still to be parsed, and the packets that they make. -/
structure Flow (split : ℕ) (missing : List UInt8) (c : Conn) (fs : List Frame) (ps : List Packet) :
    Prop where
  bytes : c.unparsed ++ (ioBytes c.io ++ missing) = fs.flatMap Frame.encode
  expects : Expects split c.assembler fs ps
  frames : ∀ fr ∈ fs, fr.Valid
  packets : ∀ pkt ∈ ps, pkt.Fits

/-- The buffer holds no whole frame. -/
def Waiting (c : Conn) (fs : List Frame) : Prop :=
  (fs = [] ∧ c.unparsed = []) ∨ ∃ fr t, fs = fr :: t ∧ c.unparsed.length < fr.encode.length

namespace Conn

lemma unparsed_consume (c : Conn) (n : ℕ) : (c.consume n).unparsed = c.unparsed.drop n := by
  rw [consume]
  split_ifs with h
  · rw [unparsed, unparsed, List.drop_drop, h, List.drop_length]
    rfl
  · rw [unparsed, unparsed, List.drop_drop]

lemma assembler_consume (c : Conn) (n : ℕ) : (c.consume n).assembler = c.assembler := by
  rw [consume]
  split_ifs
  · rfl
  · rfl

lemma pending_consume (c : Conn) (n : ℕ) : (c.consume n).pending = c.pending := by
  rw [consume]
  split_ifs
  · rfl
  · rfl

lemma eofError_ne_frame (c : Conn) (fe : FrameError) : c.eofError ≠ .frame fe := by
  rw [eofError]
  split_ifs
  · nofun
  · nofun

/-- What is compacted is what was not parsed. -/
lemma prepareRead_eq {c : Conn} (h : c.unparsed.length ≤ maxBuffered) :
    c.prepareRead = (.ok (), { c with buf := c.unparsed, pos := 0 }) := by
  rw [prepareRead]
  by_cases hpos : c.pos > 0
  · rw [if_pos hpos]
    exact if_neg (Nat.not_lt.mpr h)
  · have hzero : c.pos = 0 := by omega
    have hbuf : c.unparsed = c.buf := by
      rw [unparsed, hzero, List.drop_zero]
    rw [hbuf] at h ⊢
    rw [if_neg hpos, if_neg (Nat.not_lt.mpr h), ← hzero]

end Conn

namespace Flow

variable {split : ℕ} {missing : List UInt8} {c : Conn} {fs : List Frame} {ps : List Packet}

/-- A new connection. -/
lemma start (hfits : ∀ pkt ∈ ps, pkt.Fits)
    (hstart : ∀ pkt ∈ ps.head?, idLess pkt.streamId pkt.messageId 1 1 = false)
    (hasc : ps.Pairwise fun p q => idLess p.streamId p.messageId q.streamId q.messageId)
    {io : List Event} (hio : ioBytes io ++ missing = wire split ps) :
    Flow split missing (Conn.new io) (framesOf split ps) ps :=
  ⟨hio.trans (wire_eq split ps), .start (.of_pairwise hstart hasc), valid_framesOf hfits, hfits⟩

/-- A part of a frame is never too much for the buffer. -/
lemma length_le (h : Flow split missing c fs ps) (hwait : Waiting c fs) :
    c.unparsed.length ≤ maxBuffered := by
  rcases hwait with ⟨_, hnil⟩ | ⟨fr, t, rfl, hlt⟩
  · rw [hnil]
    exact Nat.zero_le _
  · have := (h.frames fr List.mem_cons_self).length_encode_le
    rw [maxBuffered]
    omega

/-- At the end of a whole stream there are no more packets. -/
lemma packets_nil (h : Flow split missing c fs ps) (hwait : Waiting c fs)
    (hend : ioBytes c.io ++ missing = []) : ps = [] := by
  rcases hwait with ⟨rfl, _⟩ | ⟨fr, t, rfl, hlt⟩
  · exact h.expects.nil
  · have hbytes := h.bytes
    rw [hend, List.append_nil] at hbytes
    rw [hbytes, List.flatMap_cons, List.length_append] at hlt
    omega

/-- A whole stream ends between two packets. -/
lemma eofError (h : Flow split missing c fs ps) (hwait : Waiting c fs)
    (hend : ioBytes c.io ++ missing = []) (rest : List Event) (poisoned : Bool) :
    (Conn.mk rest c.assembler c.unparsed 0 c.pending poisoned).eofError = .closed := by
  rcases hwait with ⟨rfl, hnil⟩ | ⟨fr, t, rfl, hlt⟩
  · exact if_pos ⟨by simp [hnil], by simp [h.expects.current_nil]⟩
  · have hbytes := h.bytes
    rw [hend, List.append_nil] at hbytes
    rw [hbytes, List.flatMap_cons, List.length_append] at hlt
    omega

/-- **One parse.**  It waits, or takes the next frame, and a packet with it if the frame was the
last of one. -/
lemma parseOne (h : Flow split missing c fs ps) :
    (c.parseOne = (.ok none, c) ∧ Waiting c fs) ∨
    ∃ d fs', d.io = c.io ∧ d.pending = c.pending ∧ d.unparsed.length < c.unparsed.length ∧
      ((c.parseOne = (.ok none, d) ∧ Flow split missing d fs' ps) ∨
        ∃ pkt ps', ps = pkt :: ps' ∧ c.parseOne = (.ok (some pkt), d) ∧
          Flow split missing d fs' ps') := by
  rcases Reads.next (fun fr hfr => reads_frame (h.frames fr hfr)) rfl h.bytes with
    ⟨fr, t, rfl, hparse, hpre, hrest⟩ | ⟨hparse, hwait⟩
  · right
    have hflow : ∀ a qs, Expects split a t qs → (∀ pkt ∈ qs, pkt.Fits) →
        Flow split missing { c.consume fr.encode.length with assembler := a } t qs := by
      intro a qs hexp hqs
      refine ⟨?_, hexp, fun g hg => h.frames g (List.mem_cons_of_mem _ hg), hqs⟩
      show (c.consume fr.encode.length).unparsed ++ (ioBytes (c.consume _).io ++ missing) = _
      rw [c.unparsed_consume, c.io_consume]
      exact hrest
    have hlt : (c.consume fr.encode.length).unparsed.length < c.unparsed.length := by
      have hpos := List.length_pos_of_ne_nil fr.encode_ne_nil
      have hle := hpre.length_le
      rw [c.unparsed_consume, List.length_drop]
      omega
    obtain ⟨a, ⟨hpush, hexp⟩ | ⟨pkt, qs, rfl, hpush, hexp⟩⟩ := h.expects.step h.packets
    · refine ⟨{ c.consume fr.encode.length with assembler := a }, t, c.io_consume _,
        c.pending_consume _, hlt, Or.inl ⟨?_, hflow a ps hexp h.packets⟩⟩
      simp only [Conn.parseOne, hparse, c.assembler_consume, hpush]
    · refine ⟨{ c.consume fr.encode.length with assembler := a }, t, c.io_consume _,
        c.pending_consume _, hlt, Or.inr ⟨pkt, qs, rfl, ?_,
          hflow a qs hexp fun q hq => h.packets q (List.mem_cons_of_mem _ hq)⟩⟩
      simp only [Conn.parseOne, hparse, c.assembler_consume, hpush]
  · left
    refine ⟨?_, hwait⟩
    simp only [Conn.parseOne, hparse]

lemma parseOne_ne_error (h : Flow split missing c fs ps) {e : Error} {d : Conn}
    (hparse : c.parseOne = (.error e, d)) : False := by
  rcases h.parseOne with ⟨heq, _⟩ | ⟨_, _, _, _, _, ⟨heq, _⟩ | ⟨_, _, _, heq, _⟩⟩ <;>
  · rw [hparse] at heq
    cases heq

lemma parseOne_some (h : Flow split missing c fs ps) {pkt : Packet} {d : Conn}
    (hparse : c.parseOne = (.ok (some pkt), d)) :
    d.io = c.io ∧ d.pending = c.pending ∧
      ∃ fs' ps', ps = pkt :: ps' ∧ Flow split missing d fs' ps' := by
  rcases h.parseOne with ⟨heq, _⟩ | ⟨_, fs', hio, hpend, _, ⟨heq, _⟩ | ⟨_, ps', hps, heq, hflow⟩⟩ <;>
  rw [hparse] at heq <;> cases heq
  exact ⟨hio, hpend, fs', ps', hps, hflow⟩

/-- A parse that leaves the length of the buffer leaves the connection. -/
lemma parseOne_same (h : Flow split missing c fs ps) {d : Conn}
    (hparse : c.parseOne = (.ok none, d)) (hsame : d.unparsed.length = c.unparsed.length) :
    d = c ∧ Waiting c fs := by
  rcases h.parseOne with ⟨heq, hwait⟩ | ⟨_, _, _, _, hlt, ⟨heq, _⟩ | ⟨_, _, _, heq, _⟩⟩ <;>
  rw [hparse] at heq <;> cases heq
  · exact ⟨rfl, hwait⟩
  · omega

lemma parseOne_none (h : Flow split missing c fs ps) {d : Conn}
    (hparse : c.parseOne = (.ok none, d)) (hsame : ¬d.unparsed.length = c.unparsed.length) :
    d.io = c.io ∧ d.pending = c.pending ∧ ∃ fs', Flow split missing d fs' ps := by
  rcases h.parseOne with ⟨heq, _⟩ | ⟨_, fs', hio, hpend, _, ⟨heq, hflow⟩ | ⟨_, _, _, heq, _⟩⟩ <;>
  rw [hparse] at heq <;> cases heq
  · exact absurd rfl hsame
  · exact ⟨hio, hpend, fs', hflow⟩

/-- The connection after a read that gave `b` and left `rest`. -/
lemma read (h : Flow split missing c fs ps) (poisoned : Bool) {rest : List Event} {b : List UInt8}
    (hbytes : b ++ ioBytes rest = ioBytes c.io) :
    Flow split missing ⟨rest, c.assembler, c.unparsed ++ b, 0, c.pending, poisoned⟩ fs ps := by
  refine ⟨?_, h.expects, h.frames, h.packets⟩
  show (c.unparsed ++ b) ++ (ioBytes rest ++ missing) = _
  rw [List.append_assoc, ← List.append_assoc b, hbytes]
  exact h.bytes

/-- `fill` where the buffer waits.  It fails only on the transport, and on a healthy one only at the
end of the stream, between two packets. -/
lemma fill (h : Flow split missing c fs ps) (hwait : Waiting c fs)
    {r : Except Error Unit} {d : Conn} (hfill : c.fill = (r, d)) :
    d.io <:+ c.io ∧ d.pending = c.pending ∧ Flow split missing d fs ps ∧
      ∀ e, r = .error e → (∀ fe, e ≠ .frame fe) ∧
        ((∀ ev ∈ c.io, ev.Healthy) → missing = [] → ps = [] ∧ e = .closed) := by
  have hprep := Conn.prepareRead_eq (h.length_le hwait)
  rcases hread : awaitRead c.io with ⟨e | b, rest⟩
  · obtain ⟨hsuf, hbytes, ⟨text, rfl⟩, hsick⟩ := awaitRead_error hread
    have hflow := h.read true (b := []) hbytes
    simp only [Conn.fill, hprep, hread] at hfill
    cases hfill
    rw [List.append_nil] at hflow
    refine ⟨hsuf, rfl, hflow, fun e he => ?_⟩
    cases he
    exact ⟨nofun, fun hh _ => absurd hh hsick⟩
  · obtain ⟨hsuf, hbytes, hend⟩ := awaitRead_ok hread
    have hflow := h.read c.poisoned hbytes
    simp only [Conn.fill, hprep, hread, List.isEmpty_iff] at hfill
    by_cases hb : b = []
    · subst hb
      rw [if_pos rfl] at hfill
      cases hfill
      rw [List.append_nil] at hflow
      refine ⟨hsuf, rfl, hflow, fun e he => ?_⟩
      cases he
      refine ⟨fun fe => Conn.eofError_ne_frame _ fe, fun hh hm => ?_⟩
      have hnil : ioBytes c.io ++ missing = [] := by
        rw [hend rfl hh, hm, List.append_nil]
      exact ⟨h.packets_nil hwait hnil, h.eofError hwait hnil c.io c.poisoned⟩
    · rw [if_neg hb] at hfill
      cases hfill
      exact ⟨hsuf, rfl, hflow, nofun⟩

/-- **`read_packet` without a queue** gives the next packet, or fails on the transport. -/
theorem readPacketLoop (h : Flow split missing c fs ps) :
    ∃ d fs', d.io <:+ c.io ∧ d.pending = c.pending ∧
      ((∃ pkt ps', ps = pkt :: ps' ∧ c.readPacketLoop = (.ok pkt, d) ∧
          Flow split missing d fs' ps') ∨
        (∃ e, c.readPacketLoop = (.error e, d) ∧ (∀ fe, e ≠ .frame fe) ∧
          Flow split missing d fs' ps ∧
          ((∀ ev ∈ c.io, ev.Healthy) → missing = [] → ps = [] ∧ e = .closed))) := by
  fun_induction Conn.readPacketLoop c generalizing fs with
  | case1 c e d hparse => exact (h.parseOne_ne_error hparse).elim
  | case2 c pkt d hparse =>
      obtain ⟨hio, hpend, fs', ps', hps, hflow⟩ := h.parseOne_some hparse
      exact ⟨d, fs', hio ▸ List.suffix_refl _, hpend, Or.inl ⟨pkt, ps', hps, rfl, hflow⟩⟩
  | case3 c d hparse hsame e d' hfill =>
      obtain ⟨rfl, hwait⟩ := h.parseOne_same hparse hsame
      obtain ⟨hsuf, hpend, hflow, herror⟩ := h.fill hwait hfill
      obtain ⟨hframe, hend⟩ := herror e rfl
      exact ⟨d', fs, hsuf, hpend, Or.inr ⟨e, rfl, hframe, hflow, hend⟩⟩
  | case4 c d hparse hsame d' hfill ih =>
      obtain ⟨rfl, hwait⟩ := h.parseOne_same hparse hsame
      obtain ⟨hsuf, hpend, hflow, _⟩ := h.fill hwait hfill
      obtain ⟨g, fs', hsuf', hpend', hout⟩ := ih hflow
      refine ⟨g, fs', hsuf'.trans hsuf, hpend'.trans hpend, hout.imp_right ?_⟩
      rintro ⟨e, heq, hframe, hflow', hend⟩
      exact ⟨e, heq, hframe, hflow', fun hh => hend fun ev hev => hh ev (hsuf.mem hev)⟩
  | case5 c d hparse hsame ih =>
      obtain ⟨hio, hpend, fs', hflow⟩ := h.parseOne_none hparse hsame
      obtain ⟨g, fs'', hsuf, hpend', hout⟩ := ih hflow
      rw [hio] at hsuf hout
      exact ⟨g, fs'', hsuf, hpend'.trans hpend, hout⟩

/-- One poll of the transport where the buffer waits. -/
lemma poll (h : Flow split missing c fs ps) (hwait : Waiting c fs) {d : Conn}
    {r : Option (Except Error (List UInt8))} {rest : List Event}
    (hprep : c.prepareRead = (.ok (), d)) (hpoll : pollRead d.io = (r, rest)) :
    rest <:+ c.io ∧ d.pending = c.pending ∧ ∃ b,
      (r = some (.ok b) ∨ b = [] ∧ (r = none ∨ ∃ text, r = some (.error (.io text)))) ∧
      ∀ poisoned,
        Flow split missing ⟨rest, d.assembler, d.buf ++ b, d.pos, d.pending, poisoned⟩ fs ps := by
  rw [Conn.prepareRead_eq (h.length_le hwait)] at hprep
  cases hprep
  obtain ⟨hsuf, b, hbytes, hr⟩ := pollRead_bytes hpoll
  exact ⟨hsuf, rfl, b, hr, fun poisoned => h.read poisoned hbytes⟩

/-- **`drain_ready`** moves packets to the end of the queue. -/
theorem drainReadyLoop (h : Flow split missing c fs ps) (queuedBytes : ℕ) :
    ∃ r d fs' ps', c.drainReadyLoop queuedBytes = (r, d) ∧ d.io <:+ c.io ∧
      d.pending ++ ps' = c.pending ++ ps ∧ Flow split missing d fs' ps' ∧
      ∀ e, r = .error e → ∀ fe, e ≠ .frame fe := by
  fun_induction Conn.drainReadyLoop c queuedBytes generalizing fs ps with
  | case1 c queued hfull => exact ⟨_, c, fs, ps, rfl, List.suffix_refl _, rfl, h, nofun⟩
  | case2 c queued hfull e d hparse => exact (h.parseOne_ne_error hparse).elim
  | case3 c queued hfull pkt d hparse ih =>
      obtain ⟨hio, hpend, fs', ps', rfl, hflow⟩ := h.parseOne_some hparse
      have hflow' : Flow split missing { d with pending := d.pending ++ [pkt] } fs' ps' :=
        ⟨hflow.bytes, hflow.expects, hflow.frames, hflow.packets⟩
      obtain ⟨r, g, gs, qs, heq, hsuf, hqueue, hout⟩ := ih hflow'
      refine ⟨r, g, gs, qs, heq, hio ▸ hsuf, ?_, hout⟩
      rw [hqueue, List.append_assoc, List.singleton_append, hpend]
  | case4 c queued hfull d hparse hsame e d' hprep =>
      obtain ⟨rfl, hwait⟩ := h.parseOne_same hparse hsame
      rw [Conn.prepareRead_eq (h.length_le hwait)] at hprep
      cases hprep
  | case5 c queued hfull d hparse hsame d' hprep rest hpoll =>
      obtain ⟨rfl, hwait⟩ := h.parseOne_same hparse hsame
      obtain ⟨hsuf, hpend, b, hr | ⟨rfl, _⟩, hflow⟩ := h.poll hwait hprep hpoll
      · cases hr
      · have hflow := hflow d'.poisoned
        rw [List.append_nil] at hflow
        exact ⟨_, _, fs, ps, rfl, hsuf, congrArg (· ++ ps) hpend, hflow, nofun⟩
  | case6 c queued hfull d hparse hsame d' hprep e rest hpoll =>
      obtain ⟨rfl, hwait⟩ := h.parseOne_same hparse hsame
      obtain ⟨hsuf, hpend, b, hr | ⟨rfl, hr | ⟨text, hr⟩⟩, hflow⟩ := h.poll hwait hprep hpoll
      · cases hr
      · cases hr
      · cases hr
        have hflow := hflow true
        rw [List.append_nil] at hflow
        refine ⟨_, _, fs, ps, rfl, hsuf, congrArg (· ++ ps) hpend, hflow, fun e he => ?_⟩
        cases he
        nofun
  | case7 c queued hfull d hparse hsame d' hprep b rest hpoll hb =>
      obtain ⟨rfl, hwait⟩ := h.parseOne_same hparse hsame
      obtain ⟨hsuf, hpend, b', hr | ⟨_, hr | ⟨text, hr⟩⟩, hflow⟩ := h.poll hwait hprep hpoll
      · cases hr
        have hflow := hflow d'.poisoned
        rw [List.isEmpty_iff.mp hb, List.append_nil] at hflow
        refine ⟨_, _, fs, ps, rfl, hsuf, congrArg (· ++ ps) hpend, hflow, fun e he => ?_⟩
        cases he
        exact fun fe => d'.eofError_ne_frame fe
      · cases hr
      · cases hr
  | case8 c queued hfull d hparse hsame d' hprep b rest hpoll hb ih =>
      obtain ⟨rfl, hwait⟩ := h.parseOne_same hparse hsame
      obtain ⟨hsuf, hpend, b', hr | ⟨_, hr | ⟨text, hr⟩⟩, hflow⟩ := h.poll hwait hprep hpoll
      · cases hr
        obtain ⟨r, g, gs, qs, heq, hsuf', hqueue, hout⟩ := ih (hflow d'.poisoned)
        exact ⟨r, g, gs, qs, heq, hsuf'.trans hsuf, hqueue.trans (congrArg (· ++ ps) hpend), hout⟩
      · cases hr
      · cases hr
  | case9 c queued hfull d hparse hsame ih =>
      obtain ⟨hio, hpend, fs', hflow⟩ := h.parseOne_none hparse hsame
      obtain ⟨r, g, gs, qs, heq, hsuf, hqueue, hout⟩ := ih hflow
      exact ⟨r, g, gs, qs, heq, hio ▸ hsuf, hpend ▸ hqueue, hout⟩

end Flow

/-! ## Runs

The two calls in any order, over any portions, and packets are delivered from the front of what was
sent.
-/

/-- What a caller does with the read side. -/
inductive Op where
  | readPacket
  | drainReady
deriving DecidableEq, Repr

/-- One operation, with the packet that it delivers.  Draining delivers none: what it completes goes
into the queue. -/
def Conn.step (c : Conn) : Op → Except Error (Option Packet) × Conn
  | .readPacket =>
      match c.readPacket with
      | (.ok pkt, d) => (.ok (some pkt), d)
      | (.error e, d) => (.error e, d)
  | .drainReady =>
      match c.drainReady with
      | (.ok (), d) => (.ok none, d)
      | (.error e, d) => (.error e, d)

/-- A run of operations, with the answer of each in the order of the calls. -/
def Conn.run : Conn → List Op → List (Except Error (Option Packet)) × Conn
  | c, [] => ([], c)
  | c, op :: ops =>
      let out := c.step op
      let outs := out.2.run ops
      (out.1 :: outs.1, outs.2)

/-- The packet of one outcome. -/
def packetOf (r : Except Error (Option Packet)) : List Packet := (r.toOption.join).toList

/-- The packets that a run delivers. -/
def delivered (rs : List (Except Error (Option Packet))) : List Packet := rs.flatMap packetOf

namespace Flow

variable {split : ℕ} {missing : List UInt8} {c : Conn} {fs : List Frame} {ps : List Packet}

/-- **Step.**  What an operation delivers comes from the front of what is still to be delivered, and
`read_packet` delivers if there is something and the stream is whole. -/
lemma step (h : Flow split missing c fs ps) (op : Op) :
    ∃ fs' ps', Flow split missing (c.step op).2 fs' ps' ∧ (c.step op).2.io <:+ c.io ∧
      packetOf (c.step op).1 ++ ((c.step op).2.pending ++ ps') = c.pending ++ ps ∧
      (∀ fe, (c.step op).1 ≠ .error (.frame fe)) ∧
      ((∀ ev ∈ c.io, ev.Healthy) → missing = [] →
        packetOf (c.step op).1 = (c.pending ++ ps).take ([op].count .readPacket)) := by
  cases op with
  | readPacket =>
      have hcount : [Op.readPacket].count .readPacket = 1 := rfl
      rw [hcount, Conn.step, Conn.readPacket]
      cases hpend : c.pending with
      | cons pkt rest =>
          exact ⟨fs, ps, ⟨h.bytes, h.expects, h.frames, h.packets⟩, List.suffix_refl _, rfl, nofun,
            fun _ _ => rfl⟩
      | nil =>
          obtain ⟨d, fs', hsuf, hd, ⟨pkt, ps', rfl, heq, hflow⟩ | ⟨e, heq, hframe, hflow, hend⟩⟩ :=
            h.readPacketLoop
          · rw [hpend] at hd
            simp only [heq]
            refine ⟨fs', ps', hflow, hsuf, ?_, nofun, fun _ _ => rfl⟩
            rw [hd]
            rfl
          · rw [hpend] at hd
            simp only [heq]
            refine ⟨fs', ps, hflow, hsuf, ?_, ?_, fun hh hm => ?_⟩
            · rw [hd]
              rfl
            · intro fe he
              cases he
              exact hframe fe rfl
            · rw [(hend hh hm).1]
              rfl
  | drainReady =>
      have hcount : [Op.drainReady].count .readPacket = 0 := rfl
      obtain ⟨r, d, fs', ps', heq, hsuf, hqueue, hflow, hframe⟩ :=
        h.drainReadyLoop (c.pending.map fun pkt => pkt.data.length).sum
      rw [hcount, List.take_zero, Conn.step, Conn.drainReady, heq]
      cases r with
      | ok u => exact ⟨fs', ps', hflow, hsuf, hqueue, nofun, fun _ _ => rfl⟩
      | error e =>
          refine ⟨fs', ps', hflow, hsuf, hqueue, ?_, fun _ _ => rfl⟩
          intro fe he
          cases he
          exact hframe _ rfl fe rfl

/-- **Run.** -/
theorem run (h : Flow split missing c fs ps) (ops : List Op) :
    ∃ fs' ps', Flow split missing (c.run ops).2 fs' ps' ∧
      delivered (c.run ops).1 ++ ((c.run ops).2.pending ++ ps') = c.pending ++ ps ∧
      (∀ r ∈ (c.run ops).1, ∀ fe, r ≠ .error (.frame fe)) ∧
      ((∀ ev ∈ c.io, ev.Healthy) → missing = [] →
        delivered (c.run ops).1 = (c.pending ++ ps).take (ops.count .readPacket)) := by
  induction ops generalizing c fs ps with
  | nil =>
      refine ⟨fs, ps, h, rfl, ?_, fun _ _ => by simp [delivered, Conn.run]⟩
      rintro r ⟨⟩
  | cons op ops ih =>
      obtain ⟨fs₁, ps₁, h₁, hsuf, hqueue₁, hframe₁, hall₁⟩ := h.step op
      obtain ⟨fs₂, ps₂, h₂, hqueue₂, hframe₂, hall₂⟩ := ih h₁
      have hdelivered : delivered (c.run (op :: ops)).1
          = packetOf (c.step op).1 ++ delivered ((c.step op).2.run ops).1 := rfl
      refine ⟨fs₂, ps₂, h₂, ?_, ?_, fun hh hm => ?_⟩
      · rw [hdelivered, ← hqueue₁, ← hqueue₂, List.append_assoc]
        rfl
      · rintro r (_ | ⟨_, hr⟩)
        · exact hframe₁
        · exact hframe₂ r hr
      · have hhead := hall₁ hh hm
        have htail := hall₂ (fun ev hev => hh ev (hsuf.mem hev)) hm
        have hdrop : (c.pending ++ ps).drop ([op].count .readPacket)
            = (c.step op).2.pending ++ ps₁ := by
          rw [hhead] at hqueue₁
          exact List.append_cancel_left ((List.take_append_drop _ _).trans hqueue₁.symm)
        rw [hdelivered, hhead, htail, ← hdrop, ← List.take_add, ← List.count_append,
          List.singleton_append]

end Flow

/-- **No packet is lost, none is invented.**  Packets are written with any split size, their bytes
arrive in any portions, and the reader calls `read_packet` and `drain_ready` in any order.  It gets
a prefix of the packets and never a frame error; where the whole stream arrives over a transport
that works, each `read_packet` delivers the next packet until there are no more. -/
theorem Conn.delivers_sent {split : ℕ} {ps : List Packet} (hvalid : ∀ pkt ∈ ps, pkt.Valid)
    (hstart : ∀ pkt ∈ ps.head?, idLess pkt.streamId pkt.messageId 1 1 = false)
    (hasc : ps.Pairwise fun p q => idLess p.streamId p.messageId q.streamId q.messageId)
    {io : List Event} {missing : List UInt8} (hio : ioBytes io ++ missing = wire split ps)
    (ops : List Op) :
    delivered ((Conn.new io).run ops).1 <+: ps ∧
    (∀ r ∈ ((Conn.new io).run ops).1, ∀ fe, r ≠ .error (.frame fe)) ∧
    ((∀ ev ∈ io, ev.Healthy) → missing = [] →
      delivered ((Conn.new io).run ops).1 = ps.take (ops.count .readPacket)) := by
  have hflow : Flow split missing (Conn.new io) (framesOf split ps) ps :=
    .start (fun pkt hpkt => (hvalid pkt hpkt).fits) hstart hasc hio
  obtain ⟨fs', ps', _, hqueue, hframe, hall⟩ := hflow.run ops
  exact ⟨⟨_, hqueue⟩, hframe, hall⟩

/-- Two packets, the first in two frames, in portions that cut a header and the data. -/
theorem Conn.delivers_two :
    let p : Packet := ⟨1, 1, ⟨2⟩, false, [7, 8, 9]⟩
    let q : Packet := ⟨1, 2, ⟨6⟩, true, []⟩
    let io : List Event := [.bytes [4], .notReady, .bytes [1, 1, 2, 7], .bytes [8, 5, 1, 1, 1, 9],
      .notReady, .bytes [141, 1, 2, 0]]
    delivered ((Conn.new io).run [.drainReady, .readPacket, .drainReady, .readPacket]).1
      = [p, q] := by
  intro p q io
  have hvalid : ∀ pkt ∈ [p, q], pkt.Valid := by
    intro pkt hpkt
    rw [List.mem_pair] at hpkt
    rcases hpkt with rfl | rfl
    · exact ⟨by decide, by decide, by decide, by decide⟩
    · exact ⟨by decide, by decide, by decide, by decide⟩
  have hframes : framesOf 2 [p, q] = [p.frame false [7, 8], p.frame true [9], q.frame true []] := by
    rw [framesOf, List.flatMap_cons, List.flatMap_cons, List.flatMap_nil, Packet.frames,
      if_pos (by decide), Packet.frames, if_neg (by decide), Packet.frames, if_neg (by decide)]
    rfl
  have hwire : ioBytes io ++ [] = wire 2 [p, q] := by
    rw [wire_eq, hframes]
    simp only [List.flatMap_cons, List.flatMap_nil, Frame.encode_eq, Packet.frame, p, q,
      List.length_cons, List.length_nil, Nat.zero_add, Nat.reduceAdd,
      show appendVarint 0 = [0] from appendVarint_of_lt (by decide),
      show appendVarint 1 = [1] from appendVarint_of_lt (by decide),
      show appendVarint 2 = [2] from appendVarint_of_lt (by decide)]
    decide
  have hhealthy : ∀ ev ∈ io, ev.Healthy := by
    simp [io, Event.Healthy]
  exact (Conn.delivers_sent hvalid (by decide) (by decide) hwire
    [.drainReady, .readPacket, .drainReady, .readPacket]).2.2 hhealthy rfl

end Storj.Rpc
