import StorjUplink.Lib.Incremental
import StorjUplink.Lib.Varint

/-!
# DRPC frames and packets

`frame.rs`: a packet is cut into frames, a frame is a header byte, three varints and the data.  The
reader parses one frame at a time from the front of a buffer and puts packets together again.

`parse_frame` keeps the contract of an incremental parser with `append_frame` (`reads_frame`): the
contract of a varint (`reads_varint`), three times, between a header byte and a run of known
length.  The assembler is followed through the frames of a list of packets by `Expects`: what it
holds and the frames still to come are the packets still to come.

A frame has in its header byte whether it is the last of its packet, a control bit, and the kind.
The three varints are the two ids and the length.  The reader refuses what no writer makes: a
varint that goes on behind its tenth byte, and a length over the limit for a packet; and it waits
where the buffer ends before the frame does, which is different from an error.

For a list of packets with ids that go up, however large the frames are cut, parsing gives the
frames back and assembling gives the packets back.  The two halves are separate results here, and
the connection uses them together.
-/

namespace Storj.Rpc

open Incremental Varint

/-- `MAX_PACKET_SIZE`. -/
def maxPacketSize : ℕ := 4 * 2 ^ 20

/-- `DEFAULT_SPLIT_SIZE`. -/
def defaultSplitSize : ℕ := 64 * 1024

/-- `Kind`: six bits of the header; unknown values are kept. -/
structure Kind where
  code : UInt8
deriving DecidableEq, Repr

/-- `Frame`, as `parse_frame` returns it, with the data copied out of the buffer. -/
structure Frame where
  streamId : ℕ
  messageId : ℕ
  kind : Kind
  done : Bool
  control : Bool
  data : List UInt8
deriving DecidableEq, Repr

/-- `Packet`, what the frames of one message id are put together to. -/
structure Packet where
  streamId : ℕ
  messageId : ℕ
  kind : Kind
  control : Bool
  data : List UInt8
deriving DecidableEq, Repr

/-- `FrameError`, the four ways in which bytes are no frame or a frame does not follow the frames
before it. -/
inductive FrameError where
  | varintTooLong
  | monotonicity
  | kindChange
  | overflow
deriving DecidableEq, Repr

/-- `Kind::from_header`. -/
def Kind.fromHeader (header : UInt8) : Kind := ⟨(header &&& 0b01111110) >>> 1⟩

/-- `Kind::to_header_bits`. -/
def Kind.toHeaderBits (k : Kind) : UInt8 := (k.code &&& 0b00111111) <<< 1

/-! ## Varints

Seven bits to a byte, at most ten bytes.  What the tenth byte would put above the word is shifted
out.
-/

/-- `append_varint`: seven bits a byte, the low ones first, with the high bit on every byte but the
last. -/
def appendVarint (x : ℕ) : List UInt8 :=
  if x ≥ 128 then (UInt8.ofNat x &&& 127 ||| 128) :: appendVarint (x >>> 7)
  else [UInt8.ofNat x]
termination_by x
decreasing_by
  rw [Nat.shiftRight_eq_div_pow]
  omega

/-- The loop of `read_varint`, over the bytes that are left, with the bytes read, the value so far
and the shift.  Bits past the sixty-fourth are dropped, as the shift of the source drops them. -/
def readVarintLoop : List UInt8 → ℕ → ℕ → ℕ → Except FrameError (Option (ℕ × ℕ))
  | [], _, _, _ => .ok none
  | b :: rest, i, out, shift =>
      if shift ≥ 64 then .error .varintTooLong
      else
        let val := b.toNat
        let out := out ||| ((val &&& 127) <<< shift) % 2 ^ 64
        if val < 128 then .ok (some (out, i + 1))
        else if shift + 7 ≥ 64 then .error .varintTooLong
        else readVarintLoop rest (i + 1) out (shift + 7)

/-- `read_varint`. -/
def readVarint (buf : List UInt8) : Except FrameError (Option (ℕ × ℕ)) := readVarintLoop buf 0 0 0

/-! ## Frames

The writer appends to a buffer.  The data of a packet is cut at the split size, and an empty packet
is one frame without data.
-/

/-- The header byte of `append_frame_parts`: the kind, with the bits for the last frame and for
control. -/
def frameHeader (kind : Kind) (done control : Bool) : UInt8 :=
  let header := kind.toHeaderBits
  let header := if done then header ||| 0b00000001 else header
  if control then header ||| 0b10000000 else header

/-- `append_frame_parts`: the header, the two ids and the length as varints, and the data. -/
def appendFrameParts (buf : List UInt8) (streamId messageId : ℕ) (kind : Kind) (done control : Bool)
    (data : List UInt8) : List UInt8 :=
  buf ++ [frameHeader kind done control] ++ appendVarint streamId ++ appendVarint messageId
    ++ appendVarint data.length ++ data

/-- `append_frame`. -/
def appendFrame (buf : List UInt8) (fr : Frame) : List UInt8 :=
  appendFrameParts buf fr.streamId fr.messageId fr.kind fr.done fr.control fr.data

/-- The loop of `append_packet_data`: a frame for each full piece of the data, and a last one,
marked done, for what is left. -/
def appendPacketLoop (n : ℕ) (hn : 0 < n) (buf : List UInt8) (pkt : Packet) (data : List UInt8) :
    List UInt8 :=
  if data.length > n then
    appendPacketLoop n hn
      (appendFrameParts buf pkt.streamId pkt.messageId pkt.kind false pkt.control (data.take n))
      pkt (data.drop n)
  else appendFrameParts buf pkt.streamId pkt.messageId pkt.kind true pkt.control data
termination_by data.length
decreasing_by
  rw [List.length_drop]
  omega

/-- The frame size that a split size stands for. -/
def splitSize (split : ℕ) : ℕ := if split = 0 then defaultSplitSize else split

lemma splitSize_pos (split : ℕ) : 0 < splitSize split := by
  rw [splitSize]
  split_ifs with h
  · decide
  · omega

/-- `append_packet`: the frames of a packet, with the split size that `0` stands for put in. -/
def appendPacket (buf : List UInt8) (pkt : Packet) (split : ℕ) : List UInt8 :=
  appendPacketLoop (splitSize split) (splitSize_pos split) buf pkt pkt.data

/-- `parse_frame`: the header byte, the two ids, the length and the data.  `none` asks for more
bytes; the frame comes with the bytes that it takes up. -/
def parseFrame (buf : List UInt8) : Except FrameError (Option (Frame × ℕ)) :=
  match buf with
  | [] => .ok none
  | header :: _ =>
      match readVarint (buf.drop 1) with
      | .error e => .error e
      | .ok none => .ok none
      | .ok (some (streamId, n₁)) =>
          match readVarint (buf.drop (1 + n₁)) with
          | .error e => .error e
          | .ok none => .ok none
          | .ok (some (messageId, n₂)) =>
              match readVarint (buf.drop (1 + n₁ + n₂)) with
              | .error e => .error e
              | .ok none => .ok none
              | .ok (some (len, n₃)) =>
                  let offset := 1 + n₁ + n₂ + n₃
                  if len > maxPacketSize then .error .overflow
                  else if buf.length - offset < len then .ok none
                  else .ok (some (
                    { streamId, messageId
                      kind := Kind.fromHeader header
                      done := header &&& 0b00000001 ≠ 0
                      control := header &&& 0b10000000 ≠ 0
                      data := (buf.drop offset).take len }, offset + len))

/-! ## Packets

The assembler keeps the ids and the data of the packet that is under way.
-/

/-- `PacketAssembler`: the last id that was seen, the packet that is being put together, and the
bound on its data. -/
structure PacketAssembler where
  lastStream : ℕ
  lastMessage : ℕ
  current : Option Packet
  maxData : ℕ
deriving DecidableEq, Repr

/-- `PacketAssembler::default`. -/
def PacketAssembler.default : PacketAssembler := ⟨1, 1, none, maxPacketSize⟩

/-- `id_less`: the order of ids, by stream and then by message. -/
def idLess (aStream aMessage bStream bMessage : ℕ) : Bool :=
  aStream < bStream ∨ aStream = bStream ∧ aMessage < bMessage

/-- The end of `push`: the size check, and the packet if the frame was its last. -/
def PacketAssembler.finish (a : PacketAssembler) (done : Bool) :
    Except FrameError (Option Packet) × PacketAssembler :=
  let len := (a.current.map fun p => p.data.length).getD 0
  if len > a.maxData then (.error .overflow, a)
  else if done then
    (.ok a.current, { a with lastMessage := min (a.lastMessage + 1) (2 ^ 64 - 1), current := none })
  else (.ok none, a)

/-- `push`: a frame with ids below the last ones is refused, one that goes on with the current
packet is appended to it if the kind and the size allow it, and one with other ids starts a packet.
-/
def PacketAssembler.push (a : PacketAssembler) (fr : Frame) :
    Except FrameError (Option Packet) × PacketAssembler :=
  if idLess fr.streamId fr.messageId a.lastStream a.lastMessage then (.error .monotonicity, a)
  else
    let fresh : PacketAssembler := { a with
      lastStream := fr.streamId
      lastMessage := fr.messageId
      current := some ⟨fr.streamId, fr.messageId, fr.kind, fr.control, fr.data⟩ }
    match a.current with
    | none => fresh.finish fr.done
    | some pkt =>
        if ¬(fr.streamId = a.lastStream ∧ fr.messageId = a.lastMessage) then fresh.finish fr.done
        else if pkt.kind ≠ fr.kind then (.error .kindChange, a)
        else
          let pkt := { pkt with control := pkt.control || fr.control }
          if pkt.data.length + fr.data.length > a.maxData then
            (.error .overflow, { a with current := some pkt })
          else
            { a with current := some { pkt with data := pkt.data ++ fr.data } }.finish fr.done

/-! ## Reading varints

A whole varint is read whatever follows, and a beginning of one makes the parser wait.
-/

lemma appendVarint_of_lt {x : ℕ} (h : x < 128) : appendVarint x = [UInt8.ofNat x] := by
  rw [appendVarint, if_neg (by omega)]

lemma appendVarint_of_ge {x : ℕ} (h : 128 ≤ x) :
    appendVarint x = (UInt8.ofNat x &&& 127 ||| 128) :: appendVarint (x / 128) := by
  rw [appendVarint, if_pos h, Nat.shiftRight_eq_div_pow]

lemma appendVarint_ne_nil (x : ℕ) : appendVarint x ≠ [] := by
  rw [appendVarint]
  split_ifs
  · exact List.cons_ne_nil _ _
  · exact List.cons_ne_nil _ _

/-- The loop on a whole varint. -/
lemma readVarintLoop_append {x out shift : ℕ} (h : Reading x out shift) (hs : shift < 64)
    (tail : List UInt8) (i : ℕ) :
    readVarintLoop (appendVarint x ++ tail) i out shift
      = .ok (some (out + x * 2 ^ shift, i + (appendVarint x).length)) := by
  induction x using Nat.strong_induction_on generalizing out shift i with
  | _ x ih =>
      by_cases hx : x < 128
      · have hval : (UInt8.ofNat x).toNat = x := by
          rw [UInt8.toNat_ofNat', Nat.mod_eq_of_lt (by omega)]
        have hlow : x &&& 127 = x := by
          rw [show 127 = 2 ^ 7 - 1 from rfl, Nat.and_two_pow_sub_one_eq_mod]
          omega
        rw [appendVarint_of_lt hx, List.singleton_append, readVarintLoop, if_neg (by omega), hval]
        dsimp only
        rw [if_pos hx, hlow, or_shift h.out_lt h.mul_lt, List.length_singleton]
      · obtain ⟨hs', hor, hnext⟩ := h.next (by omega)
        have hlow : (x % 128 + 128) &&& 127 = x % 128 := by
          rw [show 127 = 2 ^ 7 - 1 from rfl, Nat.and_two_pow_sub_one_eq_mod]
          omega
        have hsum : out + x % 128 * 2 ^ shift + x / 128 * 2 ^ (shift + 7) = out + x * 2 ^ shift := by
          conv_rhs => rw [← Nat.div_add_mod x 128]
          rw [Nat.pow_add]
          ring
        rw [appendVarint_of_ge (by omega), List.cons_append, readVarintLoop, if_neg (by omega),
          toNat_more]
        dsimp only
        rw [if_neg (by omega), if_neg (by omega), hlow, hor,
          ih (x / 128) (by omega) hnext hs' (i + 1), hsum, List.length_cons]
        congr 3
        omega

/-- The loop on a varint that ends too early. -/
lemma readVarintLoop_prefix {x out shift : ℕ} (h : Reading x out shift) (hs : shift < 64)
    {u : List UInt8} (hu : u <+: appendVarint x) (hne : u ≠ appendVarint x) (i : ℕ) :
    readVarintLoop u i out shift = .ok none := by
  induction x using Nat.strong_induction_on generalizing out shift u i with
  | _ x ih =>
      cases u with
      | nil => rfl
      | cons b u =>
          by_cases hx : x < 128
          · rw [appendVarint_of_lt hx, List.cons_prefix_cons] at hu
            obtain ⟨rfl, hu⟩ := hu
            rw [List.prefix_nil] at hu
            subst hu
            exact absurd (appendVarint_of_lt hx).symm hne
          · rw [appendVarint_of_ge (by omega)] at hu hne
            rw [List.cons_prefix_cons] at hu
            obtain ⟨rfl, hu⟩ := hu
            obtain ⟨hs', hor, hnext⟩ := h.next (by omega)
            have hlow : (x % 128 + 128) &&& 127 = x % 128 := by
              rw [show 127 = 2 ^ 7 - 1 from rfl, Nat.and_two_pow_sub_one_eq_mod]
              omega
            rw [readVarintLoop, if_neg (by omega), toNat_more]
            dsimp only
            rw [if_neg (by omega), if_neg (by omega), hlow, hor]
            exact ih (x / 128) (by omega) hnext hs' hu (fun h => hne (by rw [h])) (i + 1)

/-- **Varints are read back.** -/
theorem reads_varint {x : ℕ} (h : x < 2 ^ 64) : Reads readVarint (appendVarint x) x where
  found tail := by
    have hreading : Reading x 0 0 := ⟨by decide, by simpa using h⟩
    rw [readVarint, readVarintLoop_append hreading (by decide)]
    simp
  waits u hu hne := readVarintLoop_prefix ⟨by decide, by simpa using h⟩ (by decide) hu hne 0

/-- A varint of a number below `128 ^ k` has at most `k` bytes. -/
lemma length_appendVarint_le {k x : ℕ} (hk : 0 < k) (h : x < 128 ^ k) :
    (appendVarint x).length ≤ k := by
  induction k generalizing x with
  | zero => omega
  | succ k ih =>
      by_cases hx : x < 128
      · rw [appendVarint_of_lt hx, List.length_singleton]
        omega
      · have hk : 0 < k := by
          rcases Nat.eq_zero_or_pos k with rfl | hk
          · omega
          · exact hk
        have hdiv : x / 128 < 128 ^ k := by
          rw [Nat.div_lt_iff_lt_mul (by decide), ← Nat.pow_succ]
          exact h
        rw [appendVarint_of_ge (by omega), List.length_cons]
        exact Nat.succ_le_succ (ih hk hdiv)

/-- A longer number is not written shorter. -/
lemma length_appendVarint_mono {x y : ℕ} (h : x ≤ y) :
    (appendVarint x).length ≤ (appendVarint y).length := by
  induction y using Nat.strong_induction_on generalizing x with
  | _ y ih =>
      by_cases hx : x < 128
      · rw [appendVarint_of_lt hx, List.length_singleton]
        exact List.length_pos_of_ne_nil (appendVarint_ne_nil y)
      · rw [appendVarint_of_ge (not_lt.mp hx), appendVarint_of_ge ((not_lt.mp hx).trans h),
          List.length_cons, List.length_cons]
        exact Nat.succ_le_succ (ih (y / 128) (by omega) (Nat.div_le_div_right h))

/-! ## Reading frames

The header and the data are parsers like the varints, and the frame is the five of them in
sequence.
-/

/-- The bytes of one frame. -/
def Frame.encode (fr : Frame) : List UInt8 := appendFrame [] fr

lemma Frame.encode_eq (fr : Frame) :
    fr.encode = [frameHeader fr.kind fr.done fr.control] ++ (appendVarint fr.streamId
      ++ (appendVarint fr.messageId ++ (appendVarint fr.data.length ++ fr.data))) := by
  simp only [Frame.encode, appendFrame, appendFrameParts, List.nil_append, List.append_assoc]

/-- A frame that the writer of packets makes. -/
structure Frame.Valid (fr : Frame) : Prop where
  stream_lt : fr.streamId < 2 ^ 64
  message_lt : fr.messageId < 2 ^ 64
  kind_lt : fr.kind.code < 64
  data_le : fr.data.length ≤ maxPacketSize

/-- The header byte keeps its three parts. -/
lemma frameHeader_parts {kind : Kind} (h : kind.code < 64) (done control : Bool) :
    let header := frameHeader kind done control
    Kind.fromHeader header = kind ∧ (header &&& 0b00000001 ≠ 0 ↔ done = true) ∧
      (header &&& 0b10000000 ≠ 0 ↔ control = true) := by
  have htable : ∀ n < 64, ∀ done control : Bool,
      let header := frameHeader ⟨UInt8.ofNat n⟩ done control
      Kind.fromHeader header = ⟨UInt8.ofNat n⟩ ∧ (header &&& 0b00000001 ≠ 0 ↔ done = true) ∧
        (header &&& 0b10000000 ≠ 0 ↔ control = true) := by
    decide +kernel
  have hkind : kind = ⟨UInt8.ofNat kind.code.toNat⟩ := by
    rw [UInt8.ofNat_toNat]
  rw [hkind]
  exact htable kind.code.toNat h done control

/-- The header byte, as a parser. -/
def readHeader : Parser UInt8 FrameError UInt8
  | [] => .ok none
  | header :: _ => .ok (some (header, 1))

/-- The data behind the header and the varints, as a parser. -/
def readData (header : UInt8) (streamId messageId len : ℕ) : Parser UInt8 FrameError Frame :=
  fun buf =>
    if len > maxPacketSize then .error .overflow
    else if buf.length < len then .ok none
    else .ok (some (
      { streamId, messageId
        kind := Kind.fromHeader header
        done := header &&& 0b00000001 ≠ 0
        control := header &&& 0b10000000 ≠ 0
        data := buf.take len }, len))

/-- `parse_frame` is its five parts, one after the other. -/
lemma parseFrame_eq : parseFrame = andThen readHeader fun header =>
    andThen readVarint fun streamId => andThen readVarint fun messageId =>
      andThen readVarint fun len => readData header streamId messageId len := by
  funext buf
  cases buf with
  | nil => rfl
  | cons header rest =>
      simp only [parseFrame, andThen, readHeader, readData, List.drop_drop, List.length_drop]
      rcases readVarint ((header :: rest).drop 1) with e | (_ | ⟨streamId, n₁⟩)
      · rfl
      · rfl
      · dsimp only
        rcases readVarint ((header :: rest).drop (1 + n₁)) with e | (_ | ⟨messageId, n₂⟩)
        · rfl
        · rfl
        · dsimp only
          rcases readVarint ((header :: rest).drop (1 + n₁ + n₂)) with e | (_ | ⟨len, n₃⟩)
          · rfl
          · rfl
          · dsimp only
            by_cases hlen : len > maxPacketSize
            · rw [if_pos hlen, if_pos hlen]
            · rw [if_neg hlen, if_neg hlen]
              by_cases hbuf : (header :: rest).length - (1 + n₁ + n₂ + n₃) < len
              · rw [if_pos hbuf, if_pos hbuf]
              · rw [if_neg hbuf, if_neg hbuf]
                simp only [Nat.add_assoc]

lemma reads_header (header : UInt8) : Reads readHeader [header] header where
  found tail := rfl
  waits u hu hne := by
    cases u with
    | nil => rfl
    | cons b u =>
        rw [List.cons_prefix_cons, List.prefix_nil] at hu
        obtain ⟨rfl, rfl⟩ := hu
        exact absurd rfl hne

lemma reads_data {fr : Frame} (h : fr.Valid) :
    Reads (readData (frameHeader fr.kind fr.done fr.control) fr.streamId fr.messageId
      fr.data.length) fr.data fr where
  found tail := by
    obtain ⟨hkind, hdone, hcontrol⟩ := frameHeader_parts h.kind_lt fr.done fr.control
    have hlen := h.data_le
    rw [readData, if_neg (by omega), if_neg (by rw [List.length_append]; omega),
      List.take_left]
    simp only [hkind, hdone, hcontrol, Bool.decide_eq_true]
  waits u hu hne := by
    have hlt : u.length < fr.data.length := by
      refine lt_of_le_of_ne hu.length_le fun heq => hne (hu.eq_of_length heq)
    have hlen := h.data_le
    rw [readData, if_neg (by omega), if_pos hlt]

/-- **Frames are read back.** -/
theorem reads_frame {fr : Frame} (h : fr.Valid) : Reads parseFrame fr.encode fr := by
  have hlen : fr.data.length < 2 ^ 64 := lt_of_le_of_lt h.data_le (by decide)
  rw [parseFrame_eq, fr.encode_eq]
  exact (reads_header _).andThen ((reads_varint h.stream_lt).andThen
    ((reads_varint h.message_lt).andThen ((reads_varint hlen).andThen (reads_data h))))

/-- A frame has at most 25 bytes in front of its data. -/
lemma Frame.Valid.length_encode_le {fr : Frame} (h : fr.Valid) :
    fr.encode.length ≤ maxPacketSize + 25 := by
  have h10 : 2 ^ 64 ≤ 128 ^ 10 := by decide
  have h4 : maxPacketSize < 128 ^ 4 := by decide
  have hstream := length_appendVarint_le (k := 10) (by decide) (lt_of_lt_of_le h.stream_lt h10)
  have hmessage := length_appendVarint_le (k := 10) (by decide) (lt_of_lt_of_le h.message_lt h10)
  have hdata := length_appendVarint_le (k := 4) (by decide) (lt_of_le_of_lt h.data_le h4)
  have hle := h.data_le
  rw [fr.encode_eq]
  simp only [List.length_append, List.length_singleton]
  omega

lemma Frame.encode_ne_nil (fr : Frame) : fr.encode ≠ [] := by
  rw [fr.encode_eq]
  exact List.cons_ne_nil _ _

/-! ## The frames of packets

The loop that cuts a packet is a recursion on what is left of its data.
-/

/-- The frame of a packet with some of its data. -/
def Packet.frame (pkt : Packet) (done : Bool) (data : List UInt8) : Frame :=
  ⟨pkt.streamId, pkt.messageId, pkt.kind, done, pkt.control, data⟩

/-- The frames that the loop writes for what is left of a packet. -/
def Packet.frames (n : ℕ) (hn : 0 < n) (pkt : Packet) (data : List UInt8) : List Frame :=
  if data.length > n then
    pkt.frame false (data.take n) :: pkt.frames n hn (data.drop n)
  else [pkt.frame true data]
termination_by data.length
decreasing_by
  rw [List.length_drop]
  omega

/-- A packet that the sender may write. -/
structure Packet.Valid (pkt : Packet) : Prop where
  stream_lt : pkt.streamId < 2 ^ 64
  message_lt : pkt.messageId < 2 ^ 64 - 1
  kind_lt : pkt.kind.code < 64
  data_le : pkt.data.length ≤ maxPacketSize

/-- A packet that the receiver takes: its ids are 64 bits wide and its data is not too long. -/
structure Packet.Fits (pkt : Packet) : Prop where
  stream_lt : pkt.streamId < 2 ^ 64
  message_lt : pkt.messageId < 2 ^ 64
  kind_lt : pkt.kind.code < 64
  data_le : pkt.data.length ≤ maxPacketSize

lemma Packet.Valid.fits {pkt : Packet} (h : pkt.Valid) : pkt.Fits :=
  ⟨h.stream_lt, h.message_lt.trans (by decide), h.kind_lt, h.data_le⟩

/-- The bytes of packets, one after the other. -/
def wire (split : ℕ) (ps : List Packet) : List UInt8 :=
  ps.foldl (fun buf pkt => appendPacket buf pkt split) []

section Frames

variable {n : ℕ} {hn : 0 < n} {pkt : Packet}

lemma Packet.frames_ne_nil (data : List UInt8) : pkt.frames n hn data ≠ [] := by
  rw [Packet.frames]
  split_ifs
  · exact List.cons_ne_nil _ _
  · exact List.cons_ne_nil _ _

lemma appendFrameParts_eq (buf : List UInt8) (pkt : Packet) (done : Bool) (data : List UInt8) :
    appendFrameParts buf pkt.streamId pkt.messageId pkt.kind done pkt.control data
      = buf ++ (pkt.frame done data).encode := by
  simp only [Frame.encode, Packet.frame, appendFrame, appendFrameParts, List.nil_append,
    List.append_assoc]

lemma appendPacketLoop_eq (buf data : List UInt8) :
    appendPacketLoop n hn buf pkt data = buf ++ (pkt.frames n hn data).flatMap Frame.encode := by
  fun_induction appendPacketLoop n hn buf pkt data with
  | case1 buf data h ih =>
      rw [ih, appendFrameParts_eq, List.append_assoc]
      conv_rhs => rw [Packet.frames, if_pos h, List.flatMap_cons]
  | case2 buf data h => rw [appendFrameParts_eq, Packet.frames, if_neg h, List.flatMap_singleton]

lemma Packet.Fits.frames (h : pkt.Fits) {data : List UInt8} (hd : data.length ≤ maxPacketSize) :
    ∀ fr ∈ pkt.frames n hn data, fr.Valid := by
  have hframe : ∀ done d, d.length ≤ maxPacketSize → (pkt.frame done d).Valid := fun done d hd =>
    ⟨h.stream_lt, h.message_lt, h.kind_lt, hd⟩
  fun_induction Packet.frames n hn pkt data with
  | case1 data hlong ih =>
      rw [List.length_drop] at ih
      rintro fr (_ | ⟨_, hfr⟩)
      · exact hframe _ _ (by rw [List.length_take]; omega)
      · exact ih (by omega) fr hfr
  | case2 data hshort =>
      intro fr hfr
      rw [List.mem_singleton] at hfr
      rw [hfr]
      exact hframe _ _ hd

end Frames

/-- The frames of packets, one after the other. -/
def framesOf (split : ℕ) (ps : List Packet) : List Frame :=
  ps.flatMap fun pkt => pkt.frames (splitSize split) (splitSize_pos split) pkt.data

lemma wire_eq (split : ℕ) (ps : List Packet) :
    wire split ps = (framesOf split ps).flatMap Frame.encode := by
  have hloop : ∀ buf, ps.foldl (fun buf pkt => appendPacket buf pkt split) buf
      = buf ++ (framesOf split ps).flatMap Frame.encode := by
    induction ps with
    | nil => simp [framesOf]
    | cons pkt ps ih =>
        intro buf
        rw [List.foldl_cons, ih, appendPacket, appendPacketLoop_eq, List.append_assoc]
        simp only [framesOf, List.flatMap_cons, List.flatMap_append]
  exact hloop []

lemma valid_framesOf {split : ℕ} {ps : List Packet} (h : ∀ pkt ∈ ps, pkt.Fits) :
    ∀ fr ∈ framesOf split ps, fr.Valid := by
  intro fr hfr
  rw [framesOf, List.mem_flatMap] at hfr
  obtain ⟨pkt, hpkt, hfr⟩ := hfr
  exact (h pkt hpkt).frames (h pkt hpkt).data_le fr hfr

/-! ## The assembler

What it expects is stated from the side of the sender: the frames that are still to come.
-/

/-- Packets whose ids go up, from an id on. -/
def Ascends : ℕ → ℕ → List Packet → Prop
  | _, _, [] => True
  | stream, message, pkt :: ps =>
      idLess pkt.streamId pkt.messageId stream message = false ∧
        Ascends pkt.streamId (pkt.messageId + 1) ps

lemma Ascends.of_pairwise {stream message : ℕ} {ps : List Packet}
    (h0 : ∀ pkt ∈ ps.head?, idLess pkt.streamId pkt.messageId stream message = false)
    (h : ps.Pairwise fun p q => idLess p.streamId p.messageId q.streamId q.messageId) :
    Ascends stream message ps := by
  induction ps generalizing stream message with
  | nil => trivial
  | cons pkt ps ih =>
      rw [List.pairwise_cons] at h
      refine ⟨h0 pkt rfl, ih ?_ h.2⟩
      intro q hq
      have hlt := h.1 q (List.mem_of_mem_head? hq)
      simp only [idLess, decide_eq_true_eq, decide_eq_false_iff_not] at hlt ⊢
      omega

/-- From a lower id on. -/
lemma Ascends.mono {stream message lower : ℕ} {ps : List Packet} (h : Ascends stream message ps)
    (hle : lower ≤ message) : Ascends stream lower ps := by
  cases ps with
  | nil => trivial
  | cons pkt ps =>
      refine ⟨?_, h.2⟩
      have hid := h.1
      simp only [idLess, decide_eq_false_iff_not] at hid ⊢
      omega

/-- The assembler holds the first data of a packet. -/
structure PacketAssembler.Holds (a : PacketAssembler) (pkt : Packet) (got : List UInt8) : Prop where
  maxData_eq : a.maxData = maxPacketSize
  current_eq : a.current = some { pkt with data := got }
  stream_eq : a.lastStream = pkt.streamId
  message_eq : a.lastMessage = pkt.messageId

/-- **What the assembler waits for**: the frames that are still to come, and the packets that it
gives out for them.  Either the frames are those of whole packets, or it holds the beginning of
one. -/
inductive Expects (split : ℕ) : PacketAssembler → List Frame → List Packet → Prop
  | between {a : PacketAssembler} {ps : List Packet} (hmax : a.maxData = maxPacketSize)
      (hcur : a.current = none) (hasc : Ascends a.lastStream a.lastMessage ps) :
      Expects split a (framesOf split ps) ps
  | inside {a : PacketAssembler} {pkt : Packet} {got rest : List UInt8} {ps : List Packet}
      (hold : a.Holds pkt got) (hdata : pkt.data = got ++ rest)
      (hasc : Ascends pkt.streamId (pkt.messageId + 1) ps) :
      Expects split a
        (pkt.frames (splitSize split) (splitSize_pos split) rest ++ framesOf split ps) (pkt :: ps)

namespace PacketAssembler

variable {a : PacketAssembler} {pkt : Packet} {got piece : List UInt8} {done : Bool}

/-- The first frame of a packet. -/
lemma push_first (hmax : a.maxData = maxPacketSize) (hcur : a.current = none)
    (hid : idLess pkt.streamId pkt.messageId a.lastStream a.lastMessage = false) :
    ∃ b : PacketAssembler, b.Holds pkt piece ∧ a.push (pkt.frame done piece) = b.finish done := by
  refine ⟨{ a with
    lastStream := pkt.streamId
    lastMessage := pkt.messageId
    current := some { pkt with data := piece } }, ⟨hmax, rfl, rfl, rfl⟩, ?_⟩
  simp [push, Packet.frame, hid, hcur]

/-- Another frame of the packet. -/
lemma Holds.push (h : a.Holds pkt got) (hlen : got.length + piece.length ≤ maxPacketSize) :
    ∃ b : PacketAssembler, b.Holds pkt (got ++ piece) ∧
      a.push (pkt.frame done piece) = b.finish done := by
  refine ⟨{ a with current := some { pkt with data := got ++ piece } },
    ⟨h.maxData_eq, rfl, h.stream_eq, h.message_eq⟩, ?_⟩
  have hid : idLess pkt.streamId pkt.messageId pkt.streamId pkt.messageId = false := by
    simp [idLess]
  have hfits : ¬got.length + piece.length > a.maxData := by
    rw [h.maxData_eq]
    omega
  simp [PacketAssembler.push, Packet.frame, hid, h.current_eq, h.stream_eq, h.message_eq, hfits]

lemma Holds.finish_more (h : a.Holds pkt got) (hlen : got.length ≤ maxPacketSize) :
    a.finish false = (.ok none, a) := by
  have hfits : ¬got.length > maxPacketSize := by omega
  simp [finish, h.current_eq, h.maxData_eq, hfits]

lemma Holds.finish_done {split : ℕ} {ps : List Packet} (h : a.Holds pkt pkt.data)
    (hfits : pkt.Fits) (hasc : Ascends pkt.streamId (pkt.messageId + 1) ps) :
    ∃ b : PacketAssembler, a.finish true = (.ok (some pkt), b) ∧
      Expects split b (framesOf split ps) ps := by
  have hlen : ¬pkt.data.length > maxPacketSize := Nat.not_lt.mpr hfits.data_le
  refine ⟨{ a with lastMessage := min (a.lastMessage + 1) (2 ^ 64 - 1), current := none }, ?_, ?_⟩
  · simp only [finish, h.current_eq, h.maxData_eq, Option.map_some, Option.getD_some, if_neg hlen,
      if_pos]
  · refine .between h.maxData_eq rfl ?_
    rw [h.stream_eq]
    refine hasc.mono ?_
    rw [h.message_eq]
    exact Nat.min_le_left _ _

end PacketAssembler

namespace Expects

variable {split : ℕ} {a : PacketAssembler} {fs : List Frame} {ps : List Packet}

/-- The assembler in front of the first packet. -/
lemma start (h : Ascends 1 1 ps) : Expects split .default (framesOf split ps) ps :=
  between rfl rfl h

/-- Without frames there are no packets. -/
lemma nil (h : Expects split a [] ps) : ps = [] := by
  generalize hfs : [] = l at h
  cases h with
  | between hmax hcur hasc =>
      cases ps with
      | nil => rfl
      | cons pkt ps =>
          rw [framesOf, List.flatMap_cons, eq_comm, List.append_eq_nil_iff] at hfs
          exact absurd hfs.1 (Packet.frames_ne_nil _)
  | inside hold hdata hasc =>
      rw [eq_comm, List.append_eq_nil_iff] at hfs
      exact absurd hfs.1 (Packet.frames_ne_nil _)

/-- Without frames there is no packet in the assembler. -/
lemma current_nil (h : Expects split a [] ps) : a.current = none := by
  generalize hfs : [] = l at h
  cases h with
  | between hmax hcur hasc => exact hcur
  | inside hold hdata hasc =>
      rw [eq_comm, List.append_eq_nil_iff] at hfs
      exact absurd hfs.1 (Packet.frames_ne_nil _)

/-- What the next frame does: the assembler goes on, or gives out the first of the packets. -/
def Step (split : ℕ) (a : PacketAssembler) (fr : Frame) (fs : List Frame) (ps : List Packet) :
    Prop :=
  ∃ b, (a.push fr = (.ok none, b) ∧ Expects split b fs ps) ∨
    ∃ pkt qs, ps = pkt :: qs ∧ a.push fr = (.ok (some pkt), b) ∧ Expects split b fs qs

/-- A frame of a packet, given what `push` does before it ends. -/
lemma step_frames {fr : Frame} {pkt : Packet} {got rest : List UInt8} (hfits : pkt.Fits)
    (hdata : pkt.data = got ++ rest) (hasc : Ascends pkt.streamId (pkt.messageId + 1) ps)
    (hpush : ∀ done piece, piece <+: rest → ∃ b : PacketAssembler, b.Holds pkt (got ++ piece) ∧
      a.push (pkt.frame done piece) = b.finish done)
    (hfs : pkt.frames (splitSize split) (splitSize_pos split) rest ++ framesOf split ps = fr :: fs) :
    Step split a fr fs (pkt :: ps) := by
  rw [Packet.frames] at hfs
  by_cases hlong : rest.length > splitSize split
  · rw [if_pos hlong, List.cons_append, List.cons.injEq] at hfs
    obtain ⟨rfl, rfl⟩ := hfs
    obtain ⟨b, hb, heq⟩ := hpush false (rest.take (splitSize split)) (List.take_prefix _ _)
    have hsplit : pkt.data = (got ++ rest.take (splitSize split)) ++ rest.drop (splitSize split) := by
      rw [List.append_assoc, List.take_append_drop]
      exact hdata
    have hlen : (got ++ rest.take (splitSize split)).length ≤ maxPacketSize := by
      refine le_trans ?_ hfits.data_le
      conv_rhs => rw [hsplit, List.length_append]
      exact Nat.le_add_right _ _
    rw [hb.finish_more hlen] at heq
    exact ⟨b, Or.inl ⟨heq, .inside hb hsplit hasc⟩⟩
  · rw [if_neg hlong, List.singleton_append, List.cons.injEq] at hfs
    obtain ⟨rfl, rfl⟩ := hfs
    obtain ⟨b, hb, heq⟩ := hpush true rest (List.prefix_refl _)
    rw [← hdata] at hb
    obtain ⟨c, hc, hexp⟩ := hb.finish_done hfits hasc
    exact ⟨c, Or.inr ⟨pkt, ps, rfl, heq.trans hc, hexp⟩⟩

/-- **Step.** -/
theorem step {fr : Frame} (h : Expects split a (fr :: fs) ps) (hfits : ∀ pkt ∈ ps, pkt.Fits) :
    Step split a fr fs ps := by
  generalize hfs : fr :: fs = l at h
  cases h with
  | between hmax hcur hasc =>
      cases ps with
      | nil => cases hfs
      | cons pkt ps =>
          rw [framesOf, List.flatMap_cons] at hfs
          refine step_frames (hfits pkt List.mem_cons_self) (List.nil_append _).symm hasc.2 ?_
            hfs.symm
          intro done piece _
          exact PacketAssembler.push_first hmax hcur hasc.1
  | @inside pkt got rest ps hold hdata hasc =>
      refine step_frames (hfits pkt List.mem_cons_self) hdata hasc ?_ hfs.symm
      intro done piece hpiece
      refine hold.push (le_trans ?_ (hfits pkt List.mem_cons_self).data_le)
      rw [hdata, List.length_append]
      exact Nat.add_le_add_left hpiece.length_le _

end Expects

end Storj.Rpc
