import Mathlib.Algebra.Order.Ring.Nat
import Mathlib.Data.List.Basic
import Mathlib.Data.List.Infix
import Mathlib.Data.List.Range
import Mathlib.Logic.Function.Basic
import Mathlib.Tactic.Common

/-!
# Noise records

`noise.rs`, its record stream: `poll_write` encrypts one record and keeps it until the transport has
taken all of it, `poll_read` collects a header and a body and decrypts, and both share the `failed`
flag.  Records are numbered by nonces that nobody sends.

Everything is a poll: a future that is dropped between two polls leaves the state where it was, so
abandoned polls are runs like any other.  What the transport does within a poll is a list of events;
where the list is over, the transport is not ready.

Six fields are not in the source: the bytes that the transport took and gave, whether it came to its
end, the plaintext that was accepted and delivered, and the records that were made.  An ideal AEAD
looks at the last: it opens what was made under its key and nonce and nothing else.

The results come in three parts.  The sending half counts its records by its nonces and loses none
of their bytes; the receiving half reads whole records and the beginning of one for as long as it
has not failed; and the two ends together keep both invariants through any run of polls.  A failure
has a reason: an honest run, whose transport gives what it took and stays open inside of a record,
has none.
-/

namespace Storj.Noise

/-- `MAX_PLAIN`. -/
def maxPlain : ℕ := 65535

/-- `TAG`. -/
def tag : ℕ := 16

/-- `MAX_RECORD`. -/
def maxRecord : ℕ := maxPlain + tag

/-- `u64::MAX`, the nonce that is never used. -/
def maxNonce : ℕ := 2 ^ 64 - 1

/-! ## The AEAD

One key for each direction.  What was made under it is a list, and the ideal cipher opens its
elements, each under its own nonce, and nothing else.
-/

/-- A record before it is encrypted: its nonce and its plaintext. -/
abbrev Sealed := ℕ × List UInt8

/-- **An ideal AEAD**, under one key.  It opens a ciphertext only under the nonce that it was made
for; `made` is what was made so far. -/
structure IdealAead where
  encrypt : ℕ → List UInt8 → List UInt8
  decrypt : List Sealed → ℕ → List UInt8 → Option (List UInt8)
  length_encrypt : ∀ n p, (encrypt n p).length = p.length + tag
  decrypt_made : ∀ made n p, (n, p) ∈ made → decrypt made n (encrypt n p) = some p
  made_of_decrypt : ∀ made n c p, decrypt made n c = some p → (n, p) ∈ made ∧ c = encrypt n p

/-! ## Records

A length in a header, then the sealed body.  A header with an impossible length is refused before
the body is read.
-/

/-- `io::Error`, as the stream returns it: bad records and bad tags, a peer that takes or sends
nothing more, and what the transport reports. -/
inductive NoiseError where
  | invalid (text : String)
  | decrypt
  | writeZero
  | unexpectedEof
  | io (text : String)
deriving DecidableEq, Repr

/-- `header`: the type byte, and the length in three bytes. -/
def header (len : ℕ) : List UInt8 :=
  [0x80, UInt8.ofNat (len >>> 16), UInt8.ofNat (len >>> 8), UInt8.ofNat len]

/-- `record_len`: the type byte and three bytes of length, which must lie between the tag and the
largest record. -/
def recordLen : List UInt8 → Except NoiseError ℕ
  | [h₀, h₁, h₂, h₃] =>
      let len := (h₁.toNat <<< 16) ||| (h₂.toNat <<< 8) ||| h₃.toNat
      if h₀ ≠ 0x80 ∨ ¬(tag ≤ len ∧ len ≤ maxRecord) then
        .error (.invalid "invalid Noise record header or length")
      else .ok len
  | _ => .error (.invalid "invalid Noise record header or length")

/-- The bytes of a record. -/
def IdealAead.record (aead : IdealAead) (m : Sealed) : List UInt8 :=
  header (m.2.length + tag) ++ aead.encrypt m.1 m.2

/-! ## The stream

All fields of the source, and the six that record what happened.  A poll that has failed once
leaves the flag up.
-/

/-- `Poll<io::Result<_>>`. -/
inductive Poll (α : Type) where
  | pending
  | ready (r : Except NoiseError α)

/-- One `poll_write` of the transport, or one `poll_flush`. -/
inductive WriteEvent where
  | ready (n : ℕ)
  | pending
  | failed (text : String)
deriving DecidableEq, Repr

/-- One `poll_read` of the transport.  No bytes are the end of the stream. -/
inductive ReadEvent where
  | bytes (b : List UInt8)
  | pending
  | failed (text : String)
deriving DecidableEq, Repr

/-- `NoiseStream`.  Of the buffer `read`, the part up to `read_pos`. -/
structure NoiseStream where
  sendNonce : ℕ
  recvNonce : ℕ
  write : List UInt8
  written : ℕ
  read : List UInt8
  readTarget : ℕ
  plain : List UInt8
  plainPos : ℕ
  failed : Bool
  eof : Bool
  /-- The bytes that the transport took. -/
  sent : List UInt8
  /-- The bytes that the transport gave. -/
  received : List UInt8
  /-- The transport came to its end. -/
  ended : Bool
  /-- The plaintext that `poll_write` accepted. -/
  accepted : List UInt8
  /-- The plaintext that `poll_read` delivered. -/
  delivered : List UInt8
  /-- The records that were made. -/
  made : List Sealed

namespace NoiseStream

/-- `established`, with the payload of the handshake that `finish` and `accept` put into `plain`. -/
def established (payload : List UInt8) : NoiseStream where
  sendNonce := 0
  recvNonce := 0
  write := []
  written := 0
  read := []
  readTarget := 4
  plain := payload
  plainPos := 0
  failed := false
  eof := false
  sent := []
  received := []
  ended := false
  accepted := []
  delivered := []
  made := []

/-- Set `failed` and return an error. -/
def fail {α : Type} (s : NoiseStream) (e : NoiseError) : Poll α × NoiseStream :=
  (.ready (.error e), { s with failed := true })

/-- The error of a stream that has failed. -/
def connectionFailed : NoiseError := .invalid "Noise connection failed"

/-- The record is out. -/
def clearWrite (s : NoiseStream) : NoiseStream := { s with write := [], written := 0 }

/-- The transport took some bytes of the record. -/
def advance (s : NoiseStream) (n : ℕ) : NoiseStream :=
  { s with
    written := s.written + n
    sent := s.sent ++ (s.write.drop s.written).take n }

/-- The loop of `drain_write`.  The transport takes no more than it is given. -/
def drainLoop : List WriteEvent → NoiseStream → Poll Unit × NoiseStream
  | [], s => if s.written < s.write.length then (.pending, s) else (.ready (.ok ()), s.clearWrite)
  | event :: rest, s =>
      if s.written < s.write.length then
        match event with
        | .pending => (.pending, s)
        | .failed text => s.fail (.io text)
        | .ready n =>
            if min n (s.write.length - s.written) = 0 then s.fail .writeZero
            else drainLoop rest (s.advance (min n (s.write.length - s.written)))
      else (.ready (.ok ()), s.clearWrite)

/-- `drain_write`: a failed stream stays failed, any other writes what is in its buffer. -/
def drainWrite (events : List WriteEvent) (s : NoiseStream) : Poll Unit × NoiseStream :=
  if s.failed then (.ready (.error connectionFailed), s) else drainLoop events s

/-- The record of a plaintext goes into the write buffer, under the next nonce.  What was accepted
and what was made are kept beside it, for the statements. -/
def putRecord (aead : IdealAead) (s : NoiseStream) (p : List UInt8) : NoiseStream :=
  { s with
    write := aead.record (s.sendNonce, p)
    sendNonce := s.sendNonce + 1
    accepted := s.accepted ++ p
    made := s.made ++ [(s.sendNonce, p)] }

/-- `ready!(…)?`: what follows a part that is through. -/
def andThen {α : Type} (r : Poll Unit × NoiseStream) (next : NoiseStream → Poll α × NoiseStream) :
    Poll α × NoiseStream :=
  match r with
  | (.pending, s) => (.pending, s)
  | (.ready (.error e), s) => (.ready (.error e), s)
  | (.ready (.ok ()), s) => next s

/-- `poll_write`: the buffer is drained first, then at most one record of the plaintext is made.  At
the last nonce the stream fails instead. -/
def pollWrite (aead : IdealAead) (buf : List UInt8) (events : List WriteEvent) (s : NoiseStream) :
    Poll ℕ × NoiseStream :=
  andThen (s.drainWrite events) fun s =>
    if buf.isEmpty then (.ready (.ok 0), s)
    else if s.sendNonce = maxNonce then s.fail (.invalid "Noise nonce exhausted")
    else (.ready (.ok (min buf.length maxPlain)), s.putRecord aead (buf.take maxPlain))

/-- The flush or the shutdown of the transport. -/
def transportEnd (event : WriteEvent) (s : NoiseStream) : Poll Unit × NoiseStream :=
  match event with
  | .pending => (.pending, s)
  | .failed text => s.fail (.io text)
  | .ready _ => (.ready (.ok ()), s)

/-- `poll_flush`, over what the flush of the transport gives. -/
def pollFlush (events : List WriteEvent) (flush : WriteEvent) (s : NoiseStream) :
    Poll Unit × NoiseStream :=
  andThen (s.drainWrite events) (transportEnd flush)

/-- `poll_shutdown`, over what the shutdown of the transport gives. -/
def pollShutdown (events : List WriteEvent) (flush shutdown : WriteEvent) (s : NoiseStream) :
    Poll Unit × NoiseStream :=
  andThen (s.pollFlush events flush) (transportEnd shutdown)

/-- What the transport gave is in the buffer. -/
def take (s : NoiseStream) (b : List UInt8) : NoiseStream :=
  { s with read := s.read ++ b, received := s.received ++ b }

/-- A header is read. -/
def expectBody (s : NoiseStream) (len : ℕ) : NoiseStream := { s with readTarget := len, read := [] }

/-- A record is decrypted: its plaintext is there to be read, and the next header is awaited. -/
def accept (s : NoiseStream) (p : List UInt8) : NoiseStream :=
  { s with
    recvNonce := s.recvNonce + 1
    plain := p
    plainPos := 0
    read := []
    readTarget := 4 }

/-- Plaintext is put into the caller's buffer. -/
def deliver (s : NoiseStream) (n : ℕ) : NoiseStream :=
  { s with
    plainPos := s.plainPos + n
    delivered := s.delivered ++ (s.plain.drop s.plainPos).take n }

/-- What `poll_read` does with plaintext that is there, and at the end of the stream. -/
def offer (room : ℕ) (s : NoiseStream) : Option (Poll ℕ × NoiseStream) :=
  if s.plainPos < s.plain.length then
    some (.ready (.ok (min room (s.plain.length - s.plainPos))),
      s.deliver (min room (s.plain.length - s.plainPos)))
  else if s.eof then some (.ready (.ok 0), s)
  else none

/-- The loop of `poll_read`.  The transport gives no more than there is room for.  What a failed
decryption leaves in `plain` is never looked at. -/
def readLoop (aead : IdealAead) (made : List Sealed) (room : ℕ) :
    List ReadEvent → NoiseStream → Poll ℕ × NoiseStream
  | [], s => (s.offer room).getD (.pending, s)
  | event :: rest, s =>
      match s.offer room with
      | some r => r
      | none =>
          match event with
          | .pending => (.pending, s)
          | .failed text => s.fail (.io text)
          | .bytes b =>
              let got := b.take (s.readTarget - s.read.length)
              if got.isEmpty then
                let s := { s with ended := true }
                if s.read.isEmpty ∧ s.readTarget = 4 then (.ready (.ok 0), { s with eof := true })
                else s.fail .unexpectedEof
              else
                let s := s.take got
                if s.read.length < s.readTarget then readLoop aead made room rest s
                else if s.readTarget = 4 then
                  match recordLen s.read with
                  | .ok len => readLoop aead made room rest (s.expectBody len)
                  | .error e => s.fail e
                else if s.recvNonce = maxNonce then s.fail (.invalid "Noise nonce exhausted")
                else
                  match aead.decrypt made s.recvNonce s.read with
                  | none => s.fail .decrypt
                  | some p =>
                      if p.isEmpty then (.pending, s.accept p)
                      else readLoop aead made room rest (s.accept p)

/-- `poll_read`, into a buffer with so much room. -/
def pollRead (aead : IdealAead) (made : List Sealed) (room : ℕ) (events : List ReadEvent)
    (s : NoiseStream) : Poll ℕ × NoiseStream :=
  if s.failed then (.ready (.error connectionFailed), s)
  else if room = 0 then (.ready (.ok 0), s)
  else s.readLoop aead made room events

end NoiseStream

/-! ## Two streams

The bytes that one end gives to its transport need not be those that the other one gets.
-/

/-- The two ends. -/
inductive Side where
  | initiator
  | responder
deriving DecidableEq, Repr

/-- The peer. -/
def Side.other : Side → Side
  | .initiator => .responder
  | .responder => .initiator

lemma Side.other_ne (x : Side) : x.other ≠ x := by
  cases x
  · nofun
  · nofun

@[simp] lemma Side.other_other (x : Side) : x.other.other = x := by
  cases x
  · rfl
  · rfl

/-- A poll of one end, with what its transport does. -/
inductive Op where
  | write (buf : List UInt8) (events : List WriteEvent)
  | flush (events : List WriteEvent) (flush : WriteEvent)
  | shutdown (events : List WriteEvent) (flush shutdown : WriteEvent)
  | read (room : ℕ) (events : List ReadEvent)

/-- The transport goes on: it takes at least one byte, or is not ready. -/
def WriteEvent.GoesOn : WriteEvent → Prop
  | .ready n => 0 < n
  | .pending => True
  | .failed _ => False

/-- A poll whose transport has no error.  It may be slow, and give and take as little as it likes.
-/
def Op.Smooth : Op → Prop
  | .write _ events => ∀ e ∈ events, e.GoesOn
  | .flush events last => (∀ e ∈ events, e.GoesOn) ∧ ∀ text, last ≠ .failed text
  | .shutdown events last close => (∀ e ∈ events, e.GoesOn) ∧ (∀ text, last ≠ .failed text) ∧
      ∀ text, close ≠ .failed text
  | .read _ events => ∀ text, .failed text ∉ events

/-- Both ends. -/
abbrev World := Side → NoiseStream

/-- A number for every result. -/
def Poll.zero : Poll Unit → Poll ℕ
  | .pending => .pending
  | .ready (.ok ()) => .ready (.ok 0)
  | .ready (.error e) => .ready (.error e)

/-- One poll of a stream whose peer made the records `made`. -/
def NoiseStream.poll (aead peer : IdealAead) (made : List Sealed) (op : Op) (s : NoiseStream) :
    Poll ℕ × NoiseStream :=
  match op with
  | .write buf events => s.pollWrite aead buf events
  | .flush events flush => ((s.pollFlush events flush).1.zero, (s.pollFlush events flush).2)
  | .shutdown events flush shutdown =>
      ((s.pollShutdown events flush shutdown).1.zero, (s.pollShutdown events flush shutdown).2)
  | .read room events => s.pollRead peer made room events

/-- Established streams. -/
def World.established (payload : Side → List UInt8) : World := fun x => .established (payload x)

/-- One poll of one end.  Each direction has its own key, which is named after the end that sends
with it. -/
def World.poll (aead : Side → IdealAead) (w : World) (x : Side) (op : Op) : Poll ℕ × World :=
  let r := (w x).poll (aead x) (aead x.other) (w x.other).made op
  (r.1, Function.update w x r.2)

/-- A run of polls, each at one of the two ends. -/
def World.run (aead : Side → IdealAead) (w : World) (steps : List (Side × Op)) : World :=
  steps.foldl (fun w step => (w.poll aead step.1 step.2).2) w

/-! ## Headers are read as they are written

A constant byte and three bytes of length, and only lengths that a record can have.
-/

lemma length_header (len : ℕ) : (header len).length = 4 := rfl

/-- The length that three bytes say. -/
lemma length_of_bytes (h₁ h₂ h₃ : UInt8) :
    (h₁.toNat <<< 16) ||| (h₂.toNat <<< 8) ||| h₃.toNat
      = h₁.toNat * 65536 + h₂.toNat * 256 + h₃.toNat := by
  have hb₂ := h₂.toNat_lt
  have hb₃ := h₃.toNat_lt
  have hlow : h₂.toNat <<< 8 < 2 ^ 16 := by
    rw [Nat.shiftLeft_eq]
    omega
  have hsum : h₁.toNat <<< 16 + h₂.toNat <<< 8 = (h₁.toNat * 256 + h₂.toNat) <<< 8 := by
    simp only [Nat.shiftLeft_eq]
    omega
  rw [← Nat.shiftLeft_add_eq_or_of_lt hlow, hsum, ← Nat.shiftLeft_add_eq_or_of_lt hb₃,
    Nat.shiftLeft_eq]
  omega

/-- A header that is accepted is the header of its length. -/
lemma header_of_recordLen {h : List UInt8} {len : ℕ} (hlen : recordLen h = .ok len) :
    h = header len ∧ tag ≤ len ∧ len ≤ maxRecord := by
  unfold recordLen at hlen
  split at hlen
  · next h₀ h₁ h₂ h₃ =>
      simp only [length_of_bytes] at hlen
      split_ifs at hlen with hbad
      cases hlen
      rw [not_or, not_not, not_not] at hbad
      have hb₂ := h₂.toNat_lt
      have hb₃ := h₃.toNat_lt
      have hb₁ := h₁.toNat_lt
      refine ⟨?_, hbad.2⟩
      rw [hbad.1, header]
      simp only [List.cons.injEq, ← UInt8.toNat_inj, UInt8.toNat_ofNat', Nat.shiftRight_eq_div_pow]
      refine ⟨trivial, ?_, ?_, ?_, trivial⟩
      · omega
      · omega
      · omega
  · cases hlen

lemma header_inj {m n : ℕ} (hm : m ≤ maxRecord) (hn : n ≤ maxRecord) (h : header m = header n) :
    m = n := by
  rw [maxRecord, maxPlain, tag] at hm hn
  simp only [header, List.cons.injEq, ← UInt8.toNat_inj, UInt8.toNat_ofNat',
    Nat.shiftRight_eq_div_pow] at h
  omega

/-- A result that is an error. -/
def Poll.IsError {α : Type} (r : Poll α) : Prop := ∃ e, r = .ready (.error e)

/-! ## What each half of a stream leaves alone

Reading does not touch the fields of writing and the other way round, apart from the flag that both
look at.
-/

namespace NoiseStream

/-- The receiving half is the same, and a stream that has failed stays failed. -/
structure SameRecv (s t : NoiseStream) : Prop where
  recvNonce : t.recvNonce = s.recvNonce
  read : t.read = s.read
  readTarget : t.readTarget = s.readTarget
  plain : t.plain = s.plain
  plainPos : t.plainPos = s.plainPos
  eof : t.eof = s.eof
  received : t.received = s.received
  ended : t.ended = s.ended
  delivered : t.delivered = s.delivered
  failed : s.failed = true → t.failed = true

lemma SameRecv.refl (s : NoiseStream) : SameRecv s s :=
  ⟨rfl, rfl, rfl, rfl, rfl, rfl, rfl, rfl, rfl, id⟩

lemma SameRecv.trans {s t u : NoiseStream} (h : SameRecv s t) (h' : SameRecv t u) : SameRecv s u :=
  ⟨h'.recvNonce.trans h.recvNonce, h'.read.trans h.read, h'.readTarget.trans h.readTarget,
    h'.plain.trans h.plain, h'.plainPos.trans h.plainPos, h'.eof.trans h.eof,
    h'.received.trans h.received, h'.ended.trans h.ended, h'.delivered.trans h.delivered,
    h'.failed ∘ h.failed⟩

lemma SameRecv.fail (s : NoiseStream) : SameRecv s { s with failed := true } :=
  ⟨rfl, rfl, rfl, rfl, rfl, rfl, rfl, rfl, rfl, fun _ => rfl⟩

/-- The sending half is the same. -/
structure SameSend (s t : NoiseStream) : Prop where
  sendNonce : t.sendNonce = s.sendNonce
  write : t.write = s.write
  written : t.written = s.written
  sent : t.sent = s.sent
  accepted : t.accepted = s.accepted
  made : t.made = s.made

lemma SameSend.refl (s : NoiseStream) : SameSend s s := ⟨rfl, rfl, rfl, rfl, rfl, rfl⟩

lemma SameSend.trans {s t u : NoiseStream} (h : SameSend s t) (h' : SameSend t u) : SameSend s u :=
  ⟨h'.sendNonce.trans h.sendNonce, h'.write.trans h.write, h'.written.trans h.written,
    h'.sent.trans h.sent, h'.accepted.trans h.accepted, h'.made.trans h.made⟩

/-! ### The sending half

The nonce is the number of records made, and a record that is not yet out stays in the buffer until
it is.
-/

/-- **The sending half**: the nonces count the records, the records hold what was accepted, and the
transport took all of them up to what is left of the last one. -/
structure Sends (aead : IdealAead) (s : NoiseStream) : Prop where
  nonces : s.made.map Prod.fst = List.range s.made.length
  next : s.sendNonce = s.made.length
  bound : s.sendNonce ≤ maxNonce
  accepted : s.accepted = s.made.flatMap Prod.snd
  sizes : ∀ m ∈ s.made, m.2.length ≤ maxPlain
  out : s.sent ++ s.write.drop s.written = (s.made.map aead.record).flatten

/-- **What a poll of the sending half does**: the receiving half is left alone, the invariant is
kept, and a stream that fails says so. -/
structure SendStep (aead : IdealAead) {α : Type} (s : NoiseStream) (r : Poll α × NoiseStream) :
    Prop where
  recv : SameRecv s r.2
  sends : Sends aead s → Sends aead r.2
  grows : s.made <+: r.2.made
  error : s.failed = false → r.2.failed = true → r.1.IsError

section Sending

variable {aead : IdealAead} {α β : Type} {s t : NoiseStream}

lemma SendStep.refl (r : Poll α) : SendStep aead s (r, s) :=
  ⟨.refl s, id, List.prefix_refl _, fun h h' => by rw [h] at h'; cases h'⟩

lemma SendStep.fail (e : NoiseError) : SendStep aead s (s.fail e : Poll α × NoiseStream) :=
  ⟨.fail s, fun h => ⟨h.nonces, h.next, h.bound, h.accepted, h.sizes, h.out⟩, List.prefix_refl _,
    fun _ _ => ⟨e, rfl⟩⟩

/-- One step that goes on, and what follows. -/
lemma SendStep.trans {a : Poll α} {r : Poll β × NoiseStream} (h : SendStep aead s (a, t))
    (hfailed : t.failed = s.failed) (h' : SendStep aead t r) : SendStep aead s r :=
  ⟨h.recv.trans h'.recv, h'.sends ∘ h.sends, h.grows.trans h'.grows,
    fun hs => h'.error (hfailed.trans hs)⟩

lemma SendStep.advance (n : ℕ) (r : Poll α) : SendStep aead s (r, s.advance n) := by
  refine ⟨⟨rfl, rfl, rfl, rfl, rfl, rfl, rfl, rfl, rfl, id⟩, fun h => ?_, List.prefix_refl _,
    fun h h' => ?_⟩
  · refine ⟨h.nonces, h.next, h.bound, h.accepted, h.sizes, ?_⟩
    show (s.sent ++ (s.write.drop s.written).take n) ++ s.write.drop (s.written + n) = _
    rw [List.append_assoc, ← List.drop_drop, List.take_append_drop]
    exact h.out
  · have : (s.advance n).failed = s.failed := rfl
    rw [this, h] at h'
    cases h'

lemma SendStep.clearWrite (hdone : ¬s.written < s.write.length) (r : Poll α) :
    SendStep aead s (r, s.clearWrite) := by
  refine ⟨⟨rfl, rfl, rfl, rfl, rfl, rfl, rfl, rfl, rfl, id⟩, fun h => ?_, List.prefix_refl _,
    fun h h' => ?_⟩
  · have hout := h.out
    rw [List.drop_of_length_le (not_lt.mp hdone)] at hout
    exact ⟨h.nonces, h.next, h.bound, h.accepted, h.sizes, hout⟩
  · have : s.clearWrite.failed = s.failed := rfl
    rw [this, h] at h'
    cases h'

/-- The loop of `drain_write`. -/
lemma drainLoop_spec (aead : IdealAead) (events : List WriteEvent) (s : NoiseStream) :
    SendStep aead s (s.drainLoop events) := by
  fun_induction drainLoop events s with
  | case1 s hlt => exact .refl _
  | case2 s hge => exact .clearWrite hge _
  | case3 rest s hlt => exact .refl _
  | case4 rest s hlt text => exact .fail _
  | case5 rest s hlt n hzero => exact .fail _
  | case6 rest s hlt n hpos ih =>
      exact (SendStep.advance _ (Poll.pending : Poll Unit)).trans rfl ih
  | case7 event rest s hge => exact .clearWrite hge _

/-- A drain that is through leaves nothing behind. -/
lemma drainLoop_done {events : List WriteEvent}
    (h : (s.drainLoop events).1 = .ready (.ok ())) :
    (s.drainLoop events).2.write = [] ∧ (s.drainLoop events).2.written = 0 := by
  fun_induction drainLoop events s with
  | case1 s hlt => cases h
  | case2 s hge => exact ⟨rfl, rfl⟩
  | case3 rest s hlt => cases h
  | case4 rest s hlt text => cases h
  | case5 rest s hlt n hzero => cases h
  | case6 rest s hlt n hpos ih => exact ih h
  | case7 event rest s hge => exact ⟨rfl, rfl⟩

/-- `drain_write`. -/
lemma drainWrite_spec (aead : IdealAead) (events : List WriteEvent) (s : NoiseStream) :
    SendStep aead s (s.drainWrite events) := by
  rw [drainWrite]
  split_ifs
  · exact .refl _
  · exact drainLoop_spec aead events s

lemma drainWrite_done {events : List WriteEvent}
    (h : (s.drainWrite events).1 = .ready (.ok ())) :
    (s.drainWrite events).2.write = [] ∧ (s.drainWrite events).2.written = 0 := by
  rw [drainWrite] at h ⊢
  split_ifs at h ⊢
  · cases h
  · exact drainLoop_done h

/-- A record is made where the one before is out. -/
lemma SendStep.putRecord {p : List UInt8} (hnonce : s.sendNonce ≠ maxNonce)
    (hp : p.length ≤ maxPlain) (hwrite : s.write = []) (hwritten : s.written = 0) (r : Poll α) :
    SendStep aead s (r, s.putRecord aead p) := by
  refine ⟨⟨rfl, rfl, rfl, rfl, rfl, rfl, rfl, rfl, rfl, id⟩, fun h => ?_, List.prefix_append _ _,
    fun h h' => ?_⟩
  · have hbound := h.bound
    refine ⟨?_, ?_, ?_, ?_, ?_, ?_⟩
    · show (s.made ++ [(s.sendNonce, p)]).map Prod.fst = _
      rw [List.map_append, h.nonces]
      show List.range s.made.length ++ [s.sendNonce] = List.range (s.made ++ [_]).length
      rw [List.length_append, List.length_singleton, List.range_succ, h.next]
    · show s.sendNonce + 1 = (s.made ++ [_]).length
      rw [List.length_append, List.length_singleton, h.next]
    · show s.sendNonce + 1 ≤ maxNonce
      omega
    · show s.accepted ++ p = (s.made ++ [(s.sendNonce, p)]).flatMap Prod.snd
      rw [List.flatMap_append, List.flatMap_singleton, h.accepted]
    · intro m hm
      rcases List.mem_append.mp hm with hm | hm
      · exact h.sizes m hm
      · rw [List.mem_singleton] at hm
        rw [hm]
        exact hp
    · have hout := h.out
      rw [hwrite, hwritten, List.drop_nil, List.append_nil] at hout
      show s.sent ++ (aead.record (s.sendNonce, p)).drop s.written
        = ((s.made ++ [(s.sendNonce, p)]).map aead.record).flatten
      rw [hwritten, List.drop_zero, List.map_append, List.flatten_append, hout]
      simp
  · have : (s.putRecord aead p).failed = s.failed := rfl
    rw [this, h] at h'
    cases h'

/-- `ready!(…)?`. -/
lemma SendStep.andThen {r : Poll Unit × NoiseStream} {next : NoiseStream → Poll α × NoiseStream}
    (h : SendStep aead s r) (hnext : r.1 = .ready (.ok ()) → SendStep aead r.2 (next r.2)) :
    SendStep aead s (NoiseStream.andThen r next) := by
  -- a part that is through has not failed
  have hfailed : r.1 = .ready (.ok ()) → s.failed = false → r.2.failed = false := by
    intro hok hs
    cases hr : r.2.failed with
    | false => rfl
    | true =>
        obtain ⟨e, he⟩ := h.error hs hr
        rw [hok] at he
        cases he
  obtain ⟨r, t⟩ := r
  match r, h, hnext, hfailed with
  | .pending, h, _, _ =>
      refine ⟨h.recv, h.sends, h.grows, fun hs ht => ?_⟩
      obtain ⟨e, he⟩ := h.error hs ht
      cases he
  | .ready (.error e), h, _, _ => exact ⟨h.recv, h.sends, h.grows, fun _ _ => ⟨e, rfl⟩⟩
  | .ready (.ok ()), h, hnext, hfailed =>
      have h' := hnext rfl
      exact ⟨h.recv.trans h'.recv, h'.sends ∘ h.sends, h.grows.trans h'.grows,
        fun hs => h'.error (hfailed rfl hs)⟩

/-- **`poll_write`.** -/
lemma pollWrite_spec (aead : IdealAead) (buf : List UInt8) (events : List WriteEvent)
    (s : NoiseStream) : SendStep aead s (s.pollWrite aead buf events) := by
  refine (drainWrite_spec aead events s).andThen fun hok => ?_
  obtain ⟨hwrite, hwritten⟩ := drainWrite_done hok
  split_ifs with hbuf hnonce
  · exact .refl _
  · exact .fail _
  · refine .putRecord hnonce ?_ hwrite hwritten _
    rw [List.length_take]
    exact Nat.min_le_left _ _

lemma transportEnd_spec (event : WriteEvent) (s : NoiseStream) :
    SendStep aead s (s.transportEnd event) := by
  cases event with
  | pending => exact .refl _
  | failed text => exact .fail _
  | ready n => exact .refl _

/-- **`poll_flush`.** -/
lemma pollFlush_spec (aead : IdealAead) (events : List WriteEvent) (flush : WriteEvent)
    (s : NoiseStream) : SendStep aead s (s.pollFlush events flush) :=
  (drainWrite_spec aead events s).andThen fun _ => transportEnd_spec flush _

/-- **`poll_shutdown`.** -/
lemma pollShutdown_spec (aead : IdealAead) (events : List WriteEvent) (flush shutdown : WriteEvent)
    (s : NoiseStream) : SendStep aead s (s.pollShutdown events flush shutdown) :=
  (pollFlush_spec aead events flush s).andThen fun _ => transportEnd_spec shutdown _

/-- A flush that is through leaves nothing behind. -/
lemma write_pollFlush {events : List WriteEvent} {flush : WriteEvent}
    (h : (s.pollFlush events flush).1 = .ready (.ok ())) :
    (s.pollFlush events flush).2.write = [] := by
  rw [pollFlush] at h ⊢
  rcases hr : s.drainWrite events with ⟨r, t⟩
  have hdone : r = .ready (.ok ()) → t.write = [] := by
    intro hok
    have hboth := drainWrite_done (by rw [hr, hok] : (s.drainWrite events).1 = .ready (.ok ()))
    rw [hr] at hboth
    exact hboth.1
  rw [hr] at h
  match r, h, hdone with
  | .pending, h, _ => cases h
  | .ready (.error e), h, _ => cases h
  | .ready (.ok ()), h, hdone =>
      cases flush with
      | pending => cases h
      | failed text => cases h
      | ready n => exact hdone rfl

end Sending

/-! ### The receiving half

As long as it has not failed it has read whole records and part of one more.  What it has decrypted
is the plaintext of these, delivered or still in its buffer.
-/

/-- What is there of the record that is being read. -/
def begun (s : NoiseStream) : List UInt8 :=
  (if s.readTarget = 4 then [] else header s.readTarget) ++ s.read

/-- **A stream that has not failed** read whole records of its peer and the beginning of a record.
-/
structure Live (aead : IdealAead) (made : List Sealed) (s : NoiseStream) : Prop where
  received : s.received = ((made.take s.recvNonce).map aead.record).flatten ++ s.begun
  target : s.readTarget = 4 ∨ (tag ≤ s.readTarget ∧ s.readTarget ≤ maxRecord)
  room : s.read.length < s.readTarget
  ended : s.ended = true → s.eof = true ∧ s.begun = []

/-- **The receiving half**, whose peer made the records `made`: what is delivered and what is left
of `plain` is the plaintext of the records that were read. -/
structure Receives (aead : IdealAead) (made : List Sealed) (payload : List UInt8) (s : NoiseStream) :
    Prop where
  count : s.recvNonce ≤ made.length
  plain : s.delivered ++ s.plain.drop s.plainPos
    = payload ++ (made.take s.recvNonce).flatMap Prod.snd
  intact : ((made.take s.recvNonce).map aead.record).flatten <+: s.received
  live : s.failed = false → s.Live aead made

section Receiving

variable {aead : IdealAead} {made : List Sealed} {payload : List UInt8} {s t : NoiseStream}

/-- The sending half does not matter. -/
lemma Receives.of_same (h : Receives aead made payload s) (hsame : SameRecv s t) :
    Receives aead made payload t := by
  have hbegun : t.begun = s.begun := by
    rw [begun, begun, hsame.readTarget, hsame.read]
  refine ⟨?_, ?_, ?_, fun ht => ?_⟩
  · rw [hsame.recvNonce]
    exact h.count
  · rw [hsame.delivered, hsame.plain, hsame.plainPos, hsame.recvNonce]
    exact h.plain
  · rw [hsame.received, hsame.recvNonce]
    exact h.intact
  · have hs : s.failed = false := by
      cases hs : s.failed with
      | false => rfl
      | true =>
          rw [hsame.failed hs] at ht
          cases ht
    have hlive := h.live hs
    refine ⟨?_, ?_, ?_, ?_⟩
    · rw [hsame.received, hsame.recvNonce, hbegun]
      exact hlive.received
    · rw [hsame.readTarget]
      exact hlive.target
    · rw [hsame.read, hsame.readTarget]
      exact hlive.room
    · rw [hsame.ended, hsame.eof, hbegun]
      exact hlive.ended

/-- More records of the peer do not matter. -/
lemma Receives.mono {more : List Sealed} (h : Receives aead made payload s) (hpre : made <+: more) :
    Receives aead more payload s := by
  have htake : more.take s.recvNonce = made.take s.recvNonce := by
    obtain ⟨rest, rfl⟩ := hpre
    rw [List.take_append_of_le_length h.count]
  refine ⟨h.count.trans hpre.length_le, ?_, ?_, fun hs => ?_⟩
  · rw [htake]
    exact h.plain
  · rw [htake]
    exact h.intact
  · have hlive := h.live hs
    refine ⟨?_, hlive.target, hlive.room, hlive.ended⟩
    rw [htake]
    exact hlive.received

/-- A stream that fails, whatever bytes it took before. -/
lemma Receives.fail (h : Receives aead made payload s) (hsame : t.recvNonce = s.recvNonce)
    (hplain : t.plain = s.plain) (hpos : t.plainPos = s.plainPos)
    (hdelivered : t.delivered = s.delivered) (hreceived : s.received <+: t.received) :
    Receives aead made payload { t with failed := true } := by
  refine ⟨hsame ▸ h.count, ?_, ?_, nofun⟩
  · show t.delivered ++ t.plain.drop t.plainPos = _ ++ (made.take t.recvNonce).flatMap _
    rw [hdelivered, hplain, hpos, hsame]
    exact h.plain
  · show ((made.take t.recvNonce).map _).flatten <+: t.received
    rw [hsame]
    exact h.intact.trans hreceived

/-- Plaintext is delivered. -/
lemma Receives.deliver (h : Receives aead made payload s) (n : ℕ) :
    Receives aead made payload (s.deliver n) := by
  refine ⟨h.count, ?_, h.intact, fun hs => ?_⟩
  · show (s.delivered ++ (s.plain.drop s.plainPos).take n) ++ s.plain.drop (s.plainPos + n) = _
    rw [List.append_assoc, ← List.drop_drop, List.take_append_drop]
    exact h.plain
  · have hlive := h.live hs
    exact ⟨hlive.received, hlive.target, hlive.room, hlive.ended⟩

/-- Bytes of a record that is not complete yet. -/
lemma Receives.take (h : Receives aead made payload s) (hs : s.failed = false) (heof : s.eof = false)
    {b : List UInt8} (hroom : (s.read ++ b).length < s.readTarget) :
    Receives aead made payload (s.take b) := by
  have hlive := h.live hs
  refine ⟨h.count, h.plain, h.intact.trans (List.prefix_append _ _), fun _ => ?_⟩
  refine ⟨?_, hlive.target, hroom, fun hended => ?_⟩
  · show s.received ++ b = _ ++ ((if s.readTarget = 4 then [] else header s.readTarget)
      ++ (s.read ++ b))
    rw [hlive.received, begun, List.append_assoc, List.append_assoc]
    rfl
  · have := (hlive.ended hended).1
    rw [heof] at this
    cases this

/-- A header is complete. -/
lemma Receives.expectBody (h : Receives aead made payload s) (hs : s.failed = false)
    (heof : s.eof = false) (htarget : s.readTarget = 4) {b : List UInt8} {len : ℕ}
    (hlen : recordLen (s.read ++ b) = .ok len) :
    Receives aead made payload ((s.take b).expectBody len) := by
  have hlive := h.live hs
  obtain ⟨hheader, hle, hge⟩ := header_of_recordLen hlen
  have hne : len ≠ 4 := by
    rw [tag] at hle
    omega
  refine ⟨h.count, h.plain, h.intact.trans (List.prefix_append _ _), fun _ => ?_⟩
  refine ⟨?_, Or.inr ⟨hle, hge⟩, lt_of_lt_of_le Nat.one_pos (by rw [tag] at hle; show 1 ≤ len; omega),
    fun hended => ?_⟩
  · show s.received ++ b = _ ++ ((if len = 4 then [] else header len) ++ [])
    rw [hlive.received, begun, if_pos htarget, if_neg hne, List.nil_append, List.append_nil,
      List.append_assoc, hheader]
    rfl
  · have := (hlive.ended hended).1
    rw [heof] at this
    cases this

/-- **A record is complete.**  What decrypts is the record of the peer that is next. -/
lemma Receives.accept (hnonces : made.map Prod.fst = List.range made.length)
    (h : Receives aead made payload s) (hs : s.failed = false) (heof : s.eof = false)
    (htarget : s.readTarget ≠ 4) {b p : List UInt8}
    (hlen : (s.read ++ b).length = s.readTarget) (hplain : s.plain.length ≤ s.plainPos)
    (hdec : aead.decrypt made s.recvNonce (s.read ++ b) = some p) :
    Receives aead made payload ((s.take b).accept p) := by
  have hlive := h.live hs
  obtain ⟨hmem, hcipher⟩ := aead.made_of_decrypt made _ _ _ hdec
  -- the nonce is the place of the record
  obtain ⟨i, hi, hmade⟩ := List.getElem_of_mem hmem
  have hidx : i = s.recvNonce := by
    have hfst : (made.map Prod.fst)[i]? = some s.recvNonce := by
      rw [List.getElem?_map, List.getElem?_eq_getElem hi, hmade]
      rfl
    rw [hnonces, List.getElem?_range hi] at hfst
    exact Option.some.inj hfst
  subst hidx
  have htake : made.take (s.recvNonce + 1) = made.take s.recvNonce ++ [(s.recvNonce, p)] := by
    rw [List.take_add_one, List.getElem?_eq_getElem hi, hmade]
    rfl
  have hrecord : aead.record (s.recvNonce, p) = header s.readTarget ++ (s.read ++ b) := by
    rw [IdealAead.record, ← hcipher, ← aead.length_encrypt s.recvNonce p, ← hcipher, hlen]
  have hreceived : s.received ++ b
      = ((made.take (s.recvNonce + 1)).map aead.record).flatten := by
    rw [htake, List.map_append, List.flatten_append, hlive.received, begun, if_neg htarget]
    simp [hrecord]
  refine ⟨hi, ?_, ?_, fun _ => ?_⟩
  · show s.delivered ++ p.drop 0 = payload ++ (made.take (s.recvNonce + 1)).flatMap Prod.snd
    have hold := h.plain
    rw [List.drop_of_length_le hplain, List.append_nil] at hold
    rw [List.drop_zero, htake, List.flatMap_append, List.flatMap_singleton, hold, List.append_assoc]
  · show _ <+: s.received ++ b
    rw [hreceived]
    exact List.prefix_refl _
  · refine ⟨?_, Or.inl rfl, Nat.succ_pos 3, fun hended => ?_⟩
    · show s.received ++ b = ((made.take (s.recvNonce + 1)).map aead.record).flatten ++ []
      rw [List.append_nil, hreceived]
    · have := (hlive.ended hended).1
      rw [heof] at this
      cases this

/-- The end of the stream between two records. -/
lemma Receives.end_between (h : Receives aead made payload s) (hs : s.failed = false)
    (hread : s.read = []) (htarget : s.readTarget = 4) :
    Receives aead made payload { s with ended := true, eof := true } := by
  have hlive := h.live hs
  refine ⟨h.count, h.plain, h.intact, fun _ => ⟨hlive.received, hlive.target, hlive.room, ?_⟩⟩
  refine fun _ => ⟨rfl, ?_⟩
  show (if s.readTarget = 4 then [] else header s.readTarget) ++ s.read = []
  rw [if_pos htarget, hread]
  rfl

/-- **What a poll of the receiving half does**: the sending half is left alone, the invariant is
kept, and a stream that fails says so. -/
structure RecvStep (aead : IdealAead) (made : List Sealed) (payload : List UInt8) (s : NoiseStream)
    (r : Poll ℕ × NoiseStream) : Prop where
  receives : Receives aead made payload r.2
  send : SameSend s r.2
  error : r.2.failed = true → r.1.IsError

lemma RecvStep.of_live {r : Poll ℕ} (h : Receives aead made payload t) (hsend : SameSend s t)
    (ht : t.failed = false) : RecvStep aead made payload s (r, t) := by
  refine ⟨h, hsend, fun hf => ?_⟩
  rw [ht] at hf
  cases hf

/-- The stream fails, whatever bytes it took before. -/
lemma RecvStep.fail (h : Receives aead made payload s) (hsend : SameSend s t)
    (hnonce : t.recvNonce = s.recvNonce) (hplain : t.plain = s.plain) (hpos : t.plainPos = s.plainPos)
    (hdelivered : t.delivered = s.delivered) (hreceived : s.received <+: t.received)
    (e : NoiseError) : RecvStep aead made payload s (t.fail e) :=
  ⟨h.fail hnonce hplain hpos hdelivered hreceived,
    ⟨hsend.sendNonce, hsend.write, hsend.written, hsend.sent, hsend.accepted, hsend.made⟩,
    fun _ => ⟨e, rfl⟩⟩

/-- What `poll_read` does without the transport. -/
lemma offer_spec {room : ℕ} {r : Poll ℕ × NoiseStream} (h : Receives aead made payload s)
    (hs : s.failed = false) (hr : s.offer room = some r) : RecvStep aead made payload s r := by
  rw [offer] at hr
  split_ifs at hr with hplain heof
  · cases hr
    exact .of_live (h.deliver _) ⟨rfl, rfl, rfl, rfl, rfl, rfl⟩ hs
  · cases hr
    exact .of_live h (.refl s) hs

lemma offer_none {room : ℕ} (hr : s.offer room = none) :
    s.plain.length ≤ s.plainPos ∧ s.eof = false := by
  rw [offer] at hr
  split_ifs at hr with hplain heof
  exact ⟨not_lt.mp hplain, by simpa using heof⟩

/-- **The loop of `poll_read`.** -/
lemma readLoop_spec (hnonces : made.map Prod.fst = List.range made.length) (room : ℕ)
    (events : List ReadEvent) (h : Receives aead made payload s) (hs : s.failed = false) :
    RecvStep aead made payload s (s.readLoop aead made room events) := by
  induction events generalizing s with
  | nil =>
      rw [readLoop]
      cases hr : s.offer room with
      | some r => exact offer_spec h hs hr
      | none => exact .of_live h (.refl s) hs
  | cons event rest ih =>
      unfold readLoop
      cases hr : s.offer room with
      | some r => exact offer_spec h hs hr
      | none =>
          obtain ⟨hplain, heof⟩ := offer_none hr
          cases event with
          | pending => exact .of_live h (.refl s) hs
          | failed text => exact .fail h (.refl s) rfl rfl rfl rfl (List.prefix_refl _) _
          | bytes b =>
              have hread := (h.live hs).room
              -- a step that goes on
              have hgo : ∀ u : NoiseStream, Receives aead made payload u → u.failed = false →
                  SameSend s u → RecvStep aead made payload s (u.readLoop aead made room rest) := by
                intro u hu huf hsend
                have hstep := ih hu huf
                exact ⟨hstep.receives, hsend.trans hstep.send, hstep.error⟩
              dsimp only
              generalize hgot : b.take (s.readTarget - s.read.length) = got
              have hle : got.length ≤ s.readTarget - s.read.length := by
                rw [← hgot, List.length_take]
                exact Nat.min_le_left _ _
              have hstop : ∀ e, RecvStep aead made payload s ((s.take got).fail e) := fun e =>
                .fail (t := s.take got) h ⟨rfl, rfl, rfl, rfl, rfl, rfl⟩ rfl rfl rfl rfl
                  (List.prefix_append _ _) e
              split_ifs with hempty hbetween hmore htarget hnonce
              · simp only [List.isEmpty_iff] at hbetween
                exact .of_live (h.end_between hs hbetween.1 hbetween.2)
                  ⟨rfl, rfl, rfl, rfl, rfl, rfl⟩ hs
              · exact .fail (t := { s with ended := true }) h ⟨rfl, rfl, rfl, rfl, rfl, rfl⟩ rfl rfl
                  rfl rfl (List.prefix_refl _) _
              · exact hgo _ (h.take hs heof hmore) hs ⟨rfl, rfl, rfl, rfl, rfl, rfl⟩
              · cases hlen : recordLen (s.take got).read with
                | ok len =>
                    exact hgo _ (h.expectBody hs heof htarget hlen) hs ⟨rfl, rfl, rfl, rfl, rfl, rfl⟩
                | error e => exact hstop e
              · exact hstop _
              · have hfull : (s.read ++ got).length = s.readTarget := by
                  have : ¬(s.read ++ got).length < s.readTarget := hmore
                  rw [List.length_append] at this ⊢
                  omega
                cases hdec : aead.decrypt made (s.take got).recvNonce (s.take got).read with
                | none => exact hstop .decrypt
                | some p =>
                    have hacc := h.accept hnonces hs heof htarget hfull hplain hdec
                    dsimp only
                    split_ifs with hp
                    · exact .of_live hacc ⟨rfl, rfl, rfl, rfl, rfl, rfl⟩ hs
                    · exact hgo _ hacc hs ⟨rfl, rfl, rfl, rfl, rfl, rfl⟩

/-- **`poll_read`.** -/
lemma pollRead_spec (hnonces : made.map Prod.fst = List.range made.length) (room : ℕ)
    (events : List ReadEvent) (h : Receives aead made payload s) :
    RecvStep aead made payload s (s.pollRead aead made room events) := by
  rw [pollRead]
  split_ifs with hfailed hroom
  · exact ⟨h, .refl s, fun _ => ⟨_, rfl⟩⟩
  · exact .of_live h (.refl s) (by simpa using hfailed)
  · exact readLoop_spec hnonces room events h (by simpa using hfailed)

end Receiving

/-! ### Bytes that are not the peer's

If the bytes deviate from the records of the peer, the first record that does is not opened.
-/

/-- A header is there, and the body too if the header is good. -/
def Complete (b : List UInt8) : Prop :=
  4 ≤ b.length ∧ ∀ len, recordLen (b.take 4) = .ok len → 4 + len ≤ b.length

/-- **A deviation**: after the first `k` records, a complete record that is not the next one. -/
def Deviates (records : List (List UInt8)) (received : List UInt8) (k : ℕ) : Prop :=
  ∃ b, received = (records.take k).flatten ++ b ∧ Complete b ∧
    ∀ r, records[k]? = some r → ¬r <+: b

/-- The stream came to its end inside of a record. -/
def Cut (records : List (List UInt8)) (s : NoiseStream) : Prop :=
  s.ended = true ∧ ∀ k, s.received ≠ (records.take k).flatten

section Deviations

variable {aead : IdealAead} {made : List Sealed} {payload : List UInt8} {s : NoiseStream}

/-- The header of a record is accepted. -/
lemma recordLen_header {len : ℕ} (hle : tag ≤ len) (hge : len ≤ maxRecord) :
    recordLen (header len) = .ok len := by
  have hmax : len < 2 ^ 24 := lt_of_le_of_lt hge (by decide)
  simp only [header, recordLen, length_of_bytes]
  simp only [UInt8.toNat_ofNat', Nat.shiftRight_eq_div_pow]
  have hlen : len / 2 ^ 16 % 2 ^ 8 * 65536 + len / 2 ^ 8 % 2 ^ 8 * 256 + len % 2 ^ 8 = len := by
    omega
  rw [hlen, if_neg]
  rintro (hbad | hbad)
  · exact hbad rfl
  · exact hbad ⟨hle, hge⟩

/-- No record is complete in what is begun. -/
lemma Live.not_record_prefix (h : s.Live aead made) {m : Sealed} (hm : m.2.length ≤ maxPlain) :
    ¬aead.record m <+: s.begun := by
  intro hpre
  have hlen := hpre.length_le
  have henc := aead.length_encrypt m.1 m.2
  rw [IdealAead.record, List.length_append, length_header, henc, begun] at hlen
  by_cases htarget : s.readTarget = 4
  · have hroom := h.room
    rw [if_pos htarget, List.nil_append] at hlen
    rw [tag] at hlen
    omega
  · have hroom := h.room
    obtain ⟨hle, hge⟩ := h.target.resolve_left htarget
    rw [begun, if_neg htarget, IdealAead.record] at hpre
    obtain ⟨rest, hrest⟩ := hpre
    rw [List.append_assoc] at hrest
    have hheader := (List.append_inj hrest rfl).1
    have htag : m.2.length + tag ≤ maxRecord := Nat.add_le_add_right hm tag
    have heq := header_inj htag hge hheader
    rw [if_neg htarget, List.length_append, length_header] at hlen
    omega

lemma Live.not_complete (h : s.Live aead made) : ¬Complete s.begun := by
  rintro ⟨hfour, hbody⟩
  have hroom := h.room
  by_cases htarget : s.readTarget = 4
  · rw [begun, if_pos htarget, List.nil_append] at hfour
    omega
  · obtain ⟨hle, hge⟩ := h.target.resolve_left htarget
    have htake : s.begun.take 4 = header s.readTarget := by
      rw [begun, if_neg htarget]
      rfl
    have hlen := hbody s.readTarget (by rw [htake, recordLen_header hle hge])
    rw [begun, if_neg htarget, List.length_append, length_header] at hlen
    omega

/-- The record behind the first `k`, where more than `k` are there. -/
lemma record_beginning {records : List (List UInt8)} {j k : ℕ} {b : List UInt8} (hk : k < j)
    (hj : j ≤ records.length)
    (h : (records.take j).flatten <+: (records.take k).flatten ++ b) :
    ∃ r, records[k]? = some r ∧ r <+: b := by
  have hlt : k < records.length := lt_of_lt_of_le hk hj
  refine ⟨records[k], List.getElem?_eq_getElem hlt, ?_⟩
  have hnext : records.take (k + 1) = records.take k ++ [records[k]] := by
    rw [List.take_add_one, List.getElem?_eq_getElem hlt]
    rfl
  have hpre : (records.take (k + 1)).flatten <+: (records.take j).flatten := by
    obtain ⟨rest, hrest⟩ := List.take_prefix_take_left (l := records) hk
    rw [← hrest, List.flatten_append]
    exact List.prefix_append _ _
  have hboth := hpre.trans h
  rw [hnext, List.flatten_append, List.flatten_singleton] at hboth
  exact (List.prefix_append_right_inj _).mp hboth

lemma Live.not_next (h : s.Live aead made) (hsizes : ∀ m ∈ made, m.2.length ≤ maxPlain) :
    ¬∃ r, (made.map aead.record)[s.recvNonce]? = some r ∧ r <+: s.begun := by
  rintro ⟨r, hr, hpre⟩
  rw [List.getElem?_map, Option.map_eq_some_iff] at hr
  obtain ⟨m, hm, rfl⟩ := hr
  exact h.not_record_prefix (hsizes m (List.mem_of_getElem? hm)) hpre

/-- **A deviation makes the stream fail**, and no record behind it is read. -/
lemma Receives.deviates (h : Receives aead made payload s)
    (hsizes : ∀ m ∈ made, m.2.length ≤ maxPlain) {k : ℕ}
    (hdev : Deviates (made.map aead.record) s.received k) :
    s.failed = true ∧ s.recvNonce ≤ k := by
  obtain ⟨b, hreceived, hcomplete, hwrong⟩ := hdev
  have hcount : s.recvNonce ≤ (made.map aead.record).length := by
    rw [List.length_map]
    exact h.count
  have hintact := h.intact
  rw [List.map_take, hreceived] at hintact
  have hle : s.recvNonce ≤ k := by
    by_contra hlt
    obtain ⟨r, hr, hpre⟩ := record_beginning (not_le.mp hlt) hcount hintact
    exact hwrong r hr hpre
  refine ⟨?_, hle⟩
  by_contra hs
  have hlive := h.live (by simpa using hs)
  have hbytes := hlive.received
  rw [List.map_take, hreceived] at hbytes
  by_cases hlast : s.recvNonce < min k (made.map aead.record).length
  · -- the next record would be complete in what is begun
    have hpre : ((made.map aead.record).take (min k (made.map aead.record).length)).flatten
        <+: ((made.map aead.record).take s.recvNonce).flatten ++ s.begun := by
      rw [← hbytes, ← List.take_eq_take_min]
      exact List.prefix_append _ _
    exact hlive.not_next hsizes (record_beginning hlast (Nat.min_le_right _ _) hpre)
  · have hsame : (made.map aead.record).take s.recvNonce = (made.map aead.record).take k := by
      rw [List.take_eq_take_min, List.take_eq_take_min (i := k)]
      congr 1
      omega
    rw [hsame] at hbytes
    rw [List.append_cancel_left hbytes] at hcomplete
    exact hlive.not_complete hcomplete

/-- A stream that ends inside of a record has failed. -/
lemma Receives.cut (h : Receives aead made payload s) (hcut : Cut (made.map aead.record) s) :
    s.failed = true := by
  obtain ⟨hended, hwhole⟩ := hcut
  by_contra hs
  have hlive := h.live (by simpa using hs)
  have hreceived := hlive.received
  rw [(hlive.ended hended).2, List.append_nil, List.map_take] at hreceived
  exact hwhole _ hreceived

/-- What the peer sent was read, so all of its records were. -/
lemma Receives.all (h : Receives aead made payload s)
    (hsizes : ∀ m ∈ made, m.2.length ≤ maxPlain) (hs : s.failed = false)
    (hreceived : s.received = (made.map aead.record).flatten) :
    s.delivered ++ s.plain.drop s.plainPos = payload ++ made.flatMap Prod.snd := by
  have hlive := h.live hs
  have hcount : s.recvNonce = made.length := by
    by_contra hne
    have hlt : s.recvNonce < (made.map aead.record).length := by
      have := h.count
      rw [List.length_map]
      omega
    have hpre : ((made.map aead.record).take (made.map aead.record).length).flatten
        <+: ((made.map aead.record).take s.recvNonce).flatten ++ s.begun := by
      rw [List.take_length, ← hreceived, ← List.map_take, ← hlive.received]
    exact hlive.not_next hsizes (record_beginning hlt le_rfl hpre)
  rw [h.plain, hcount, List.take_length]

end Deviations

/-! ### Streams that nothing disturbs

A stream fails only for a reason.  If the transport has no error, gives a beginning of the records
of the peer and does not end inside of one of them, and nonces are left to send with, then a poll
of a stream that has not failed leaves it so: every header that it completes is that of a record,
and every body opens, because it is the ciphertext of the record that is next. -/

section Undisturbed

variable {aead peer : IdealAead} {made : List Sealed} {payload : List UInt8} {s : NoiseStream}

/-- What comes next, where the bytes are a beginning of the records. -/
lemma Live.next_prefix (h : s.Live aead made) {b : List UInt8}
    (hb : s.received ++ b <+: (made.map aead.record).flatten) :
    s.begun ++ b <+: ((made.drop s.recvNonce).map aead.record).flatten := by
  have hsplit : (made.map aead.record).flatten = ((made.take s.recvNonce).map aead.record).flatten
      ++ ((made.drop s.recvNonce).map aead.record).flatten := by
    rw [← List.flatten_append, ← List.map_append, List.take_append_drop]
  rw [h.received, hsplit, List.append_assoc] at hb
  exact (List.prefix_append_right_inj _).mp hb

/-- The record that is next, where there are bytes of it. -/
lemma exists_next {k : ℕ} {b : List UInt8} (hb : b ≠ [])
    (hpre : b <+: ((made.drop k).map aead.record).flatten) :
    ∃ m rest, made[k]? = some m ∧ b <+: aead.record m ++ rest := by
  cases hnext : made.drop k with
  | nil =>
      rw [hnext] at hpre
      exact absurd (List.prefix_nil.mp hpre) hb
  | cons m rest =>
      rw [hnext, List.map_cons, List.flatten_cons] at hpre
      refine ⟨m, _, ?_, hpre⟩
      rw [← List.head?_drop, hnext]
      rfl

/-- **A header of the peer is accepted.** -/
lemma Live.header_accepted (h : s.Live aead made) (hsizes : ∀ m ∈ made, m.2.length ≤ maxPlain)
    (htarget : s.readTarget = 4) {b : List UInt8} (hlen : (s.read ++ b).length = 4)
    (hb : s.received ++ b <+: (made.map aead.record).flatten) :
    ∃ len, recordLen (s.read ++ b) = .ok len := by
  have hpre := h.next_prefix hb
  rw [begun, if_pos htarget, List.nil_append] at hpre
  have hne : s.read ++ b ≠ [] := List.length_pos_iff.mp (by omega)
  obtain ⟨m, rest, hm, hpre⟩ := exists_next hne hpre
  refine ⟨m.2.length + tag, ?_⟩
  rw [IdealAead.record, List.append_assoc] at hpre
  have hheader : s.read ++ b = header (m.2.length + tag) :=
    (List.prefix_of_prefix_length_le hpre (List.prefix_append _ _) hlen.le).eq_of_length
      (hlen.trans (length_header _).symm)
  rw [hheader]
  exact recordLen_header (Nat.le_add_left _ _)
    (Nat.add_le_add_right (hsizes m (List.mem_of_getElem? hm)) tag)

/-- **A record of the peer opens**, under a nonce that is not the last one. -/
lemma Live.record_opens (h : s.Live aead made) (hnonces : made.map Prod.fst = List.range made.length)
    (hbound : made.length ≤ maxNonce) (hsizes : ∀ m ∈ made, m.2.length ≤ maxPlain)
    (htarget : s.readTarget ≠ 4) {b : List UInt8} (hlen : (s.read ++ b).length = s.readTarget)
    (hb : s.received ++ b <+: (made.map aead.record).flatten) :
    s.recvNonce ≠ maxNonce ∧ ∃ p, aead.decrypt made s.recvNonce (s.read ++ b) = some p := by
  have hpre := h.next_prefix hb
  rw [begun, if_neg htarget, List.append_assoc] at hpre
  have hne : header s.readTarget ++ (s.read ++ b) ≠ [] := List.cons_ne_nil _ _
  obtain ⟨m, rest, hm, hpre⟩ := exists_next hne hpre
  obtain ⟨hlt, hget⟩ := List.getElem?_eq_some_iff.mp hm
  -- the nonce of the record is its place
  have hfst : m.1 = s.recvNonce := by
    have hplace : (made.map Prod.fst)[s.recvNonce]? = some m.1 := by
      rw [List.getElem?_map, hm]
      rfl
    rw [hnonces, List.getElem?_range hlt] at hplace
    exact (Option.some.inj hplace).symm
  refine ⟨by omega, m.2, ?_⟩
  obtain ⟨tail, htail⟩ := hpre
  rw [IdealAead.record, List.append_assoc (header _), List.append_assoc (header _)] at htail
  obtain ⟨hheader, hbody⟩ := List.append_inj htail rfl
  have hmax : m.2.length + tag ≤ maxRecord :=
    Nat.add_le_add_right (hsizes m (List.mem_of_getElem? hm)) tag
  have hsize := header_inj (h.target.resolve_left htarget).2 hmax hheader
  have henc := aead.length_encrypt m.1 m.2
  have hcipher : s.read ++ b = aead.encrypt m.1 m.2 :=
    (List.append_inj hbody (by rw [hlen, henc, hsize])).1
  rw [hcipher, hfst]
  exact aead.decrypt_made made s.recvNonce m.2 (hfst ▸ List.mem_of_getElem? hm)

/-- What was read ends with a record only if nothing is begun. -/
lemma Live.begun_eq_nil (h : s.Live aead made) (hsizes : ∀ m ∈ made, m.2.length ≤ maxPlain)
    {k : ℕ} (hk : s.received = ((made.map aead.record).take k).flatten) : s.begun = [] := by
  have hbytes := h.received
  rw [hk, List.map_take] at hbytes
  by_cases hlt : s.recvNonce < min k (made.map aead.record).length
  · have hpre : ((made.map aead.record).take (min k (made.map aead.record).length)).flatten
        <+: ((made.map aead.record).take s.recvNonce).flatten ++ s.begun := by
      rw [← hbytes, ← List.take_eq_take_min]
    exact absurd (record_beginning hlt (Nat.min_le_right _ _) hpre) (h.not_next hsizes)
  · have hfew : ((made.map aead.record).take k).length ≤ s.recvNonce := by
      rw [List.length_take]
      omega
    have hpre : (made.map aead.record).take k <+: (made.map aead.record).take s.recvNonce := by
      rw [List.take_eq_take_min]
      exact List.take_prefix_take_left (by omega)
    obtain ⟨rest, hrest⟩ := hpre
    have hlen := congrArg List.length hbytes
    rw [← hrest, List.flatten_append, List.length_append, List.length_append] at hlen
    exact List.length_eq_zero_iff.mp (by omega)

/-- **The loop of `poll_read`** over a transport without an error, that gives the bytes of the
peer. -/
lemma readLoop_alive (hnonces : made.map Prod.fst = List.range made.length)
    (hbound : made.length ≤ maxNonce) (hsizes : ∀ m ∈ made, m.2.length ≤ maxPlain) (room : ℕ)
    {events : List ReadEvent} (hevents : ∀ text, .failed text ∉ events)
    (h : Receives aead made payload s) (hs : s.failed = false)
    (hgiven : (s.readLoop aead made room events).2.received <+: (made.map aead.record).flatten)
    (hcut : ¬Cut (made.map aead.record) (s.readLoop aead made room events).2) :
    (s.readLoop aead made room events).2.failed = false := by
  have hoffer : ∀ (s : NoiseStream) r, s.failed = false → s.offer room = some r →
      r.2.failed = false := by
    intro s r hs hr
    rw [offer] at hr
    split_ifs at hr
    · cases hr
      exact hs
    · cases hr
      exact hs
  induction events generalizing s with
  | nil =>
      rw [readLoop]
      cases hr : s.offer room with
      | some r => exact hoffer s r hs hr
      | none => exact hs
  | cons event rest ih =>
      have hrest : ∀ text, .failed text ∉ rest := fun text hmem =>
        hevents text (List.mem_cons_of_mem _ hmem)
      unfold readLoop at hgiven hcut ⊢
      cases hr : s.offer room with
      | some r => exact hoffer s r hs hr
      | none =>
          rw [hr] at hgiven hcut
          obtain ⟨hplain, heof⟩ := offer_none hr
          cases event with
          | pending => exact hs
          | failed text => exact absurd List.mem_cons_self (hevents text)
          | bytes b =>
              have hlive := h.live hs
              have hread := hlive.room
              dsimp only at hgiven hcut ⊢
              generalize hgot : b.take (s.readTarget - s.read.length) = got at hgiven hcut ⊢
              have hle : got.length ≤ s.readTarget - s.read.length := by
                rw [← hgot, List.length_take]
                exact Nat.min_le_left _ _
              have hfull : ¬(s.read ++ got).length < s.readTarget →
                  (s.read ++ got).length = s.readTarget := by
                rw [List.length_append]
                omega
              split_ifs at hgiven hcut ⊢ with hempty hbetween hmore htarget hnonce
              · exact hs
              · -- the end inside of a record
                refine absurd ⟨rfl, fun k hk => hbetween ?_⟩ hcut
                have hnil := hlive.begun_eq_nil hsizes hk
                rw [begun, List.append_eq_nil_iff] at hnil
                refine ⟨List.isEmpty_iff.mpr hnil.2, ?_⟩
                by_contra hne
                rw [if_neg hne] at hnil
                exact List.cons_ne_nil _ _ hnil.1
              · exact ih hrest (h.take hs heof hmore) hs hgiven hcut
              · cases hlen : recordLen (s.take got).read with
                | ok len =>
                    rw [hlen] at hgiven hcut
                    exact ih hrest (h.expectBody hs heof htarget hlen) hs hgiven hcut
                | error e =>
                    rw [hlen] at hgiven
                    obtain ⟨len, hok⟩ := hlive.header_accepted hsizes htarget
                      ((hfull hmore).trans htarget) hgiven
                    have herr : recordLen (s.read ++ got) = .error e := hlen
                    rw [hok] at herr
                    cases herr
              · exact absurd hnonce
                  (hlive.record_opens hnonces hbound hsizes htarget (hfull hmore) hgiven).1
              · cases hdec : aead.decrypt made (s.take got).recvNonce (s.take got).read with
                | none =>
                    rw [hdec] at hgiven
                    obtain ⟨-, p, hp⟩ :=
                      hlive.record_opens hnonces hbound hsizes htarget (hfull hmore) hgiven
                    have hnone : aead.decrypt made s.recvNonce (s.read ++ got) = none := hdec
                    rw [hp] at hnone
                    cases hnone
                | some p =>
                    rw [hdec] at hgiven hcut
                    have hacc := h.accept hnonces hs heof htarget (hfull hmore) hplain hdec
                    dsimp only at hgiven hcut ⊢
                    split_ifs at hgiven hcut ⊢ with hp
                    · exact hs
                    · exact ih hrest hacc hs hgiven hcut

/-- Bytes that were read and plaintext that was delivered, by number. -/
def progress (s : NoiseStream) : ℕ := s.received.length + s.delivered.length

lemma progress_take (s : NoiseStream) (b : List UInt8) :
    (s.take b).progress = s.progress + b.length := by
  show (s.received ++ b).length + s.delivered.length = _
  rw [List.length_append, progress]
  omega

lemma progress_le_take (s : NoiseStream) (b : List UInt8) : s.progress ≤ (s.take b).progress := by
  rw [progress_take]
  exact Nat.le_add_right _ _

lemma progress_offer {room : ℕ} {r : Poll ℕ × NoiseStream} (hr : s.offer room = some r) :
    s.progress ≤ r.2.progress ∧ (0 < room → s.eof = false → s.progress < r.2.progress) := by
  rw [offer] at hr
  split_ifs at hr with hplain heof
  · cases hr
    have hlen : (s.deliver (min room (s.plain.length - s.plainPos))).progress
        = s.progress + min room (s.plain.length - s.plainPos) := by
      show s.received.length + (s.delivered ++ _).length = _
      rw [List.length_append, List.length_take, List.length_drop, progress]
      omega
    dsimp only
    omega
  · cases hr
    refine ⟨le_rfl, fun _ hopen => ?_⟩
    rw [heof] at hopen
    cases hopen

/-- The loop of `poll_read` gives nothing back. -/
lemma progress_readLoop (aead : IdealAead) (made : List Sealed) (room : ℕ)
    (events : List ReadEvent) (s : NoiseStream) :
    s.progress ≤ (s.readLoop aead made room events).2.progress := by
  fun_induction readLoop aead made room events s with
  | case1 s =>
      cases hr : s.offer room with
      | some r => exact (progress_offer hr).1
      | none => exact le_rfl
  | case2 event rest s r hr => exact (progress_offer hr).1
  | case3 rest s hr => exact le_rfl
  | case4 rest s hr text => exact le_rfl
  | case5 rest s hr b got hempty u hbetween => exact le_rfl
  | case6 rest s hr b got hempty u hbetween => exact le_rfl
  | case7 rest s hr b got hempty u hmore ih => exact (progress_le_take s got).trans ih
  | case8 rest s hr b got hempty u hmore htarget len hlen ih =>
      exact (progress_le_take s got).trans ih
  | case9 rest s hr b got hempty u hmore htarget e hlen => exact progress_le_take s got
  | case10 rest s hr b got hempty u hmore htarget hnonce => exact progress_le_take s got
  | case11 rest s hr b got hempty u hmore htarget hnonce hdec => exact progress_le_take s got
  | case12 rest s hr b got hempty u hmore htarget hnonce p hdec hp => exact progress_le_take s got
  | case13 rest s hr b got hempty u hmore htarget hnonce p hdec hp ih =>
      exact (progress_le_take s got).trans ih

/-- **A read goes on** where there is room, and the transport has bytes. -/
lemma progress_lt_readLoop (hread : s.read.length < s.readTarget) (hopen : s.eof = false)
    {room : ℕ} (hroom : 0 < room) {b : List UInt8} (hb : b ≠ []) (rest : List ReadEvent) :
    s.progress < (s.readLoop aead made room (.bytes b :: rest)).2.progress := by
  unfold readLoop
  cases hr : s.offer room with
  | some r => exact (progress_offer hr).2 hroom hopen
  | none =>
      have hlen := List.length_pos_iff.mpr hb
      have hpos : 0 < (b.take (s.readTarget - s.read.length)).length := by
        rw [List.length_take]
        omega
      dsimp only
      generalize b.take (s.readTarget - s.read.length) = got at hpos
      have htake : s.progress < (s.take got).progress := by
        rw [progress_take]
        omega
      have hne : ¬got.isEmpty := by
        rw [List.isEmpty_iff]
        exact List.length_pos_iff.mp hpos
      rw [if_neg hne]
      split_ifs with hmore htarget hnonce
      · exact htake.trans_le (progress_readLoop aead made room rest _)
      · cases recordLen (s.take got).read with
        | ok len =>
            exact htake.trans_le (progress_readLoop aead made room rest ((s.take got).expectBody len))
        | error e => exact htake
      · exact htake
      · cases aead.decrypt made (s.take got).recvNonce (s.take got).read with
        | none => exact htake
        | some p =>
            dsimp only
            split_ifs with hp
            · exact htake
            · exact htake.trans_le (progress_readLoop aead made room rest ((s.take got).accept p))

/-- A drain over a transport that goes on. -/
lemma drainLoop_alive {events : List WriteEvent} (hevents : ∀ e ∈ events, e.GoesOn)
    (hs : s.failed = false) : (s.drainLoop events).2.failed = false := by
  fun_induction drainLoop events s with
  | case1 s hlt => exact hs
  | case2 s hge => exact hs
  | case3 rest s hlt => exact hs
  | case4 rest s hlt text => exact absurd (hevents _ List.mem_cons_self) id
  | case5 rest s hlt n hzero =>
      have hpos : 0 < n := hevents _ List.mem_cons_self
      omega
  | case6 rest s hlt n hpos ih => exact ih (fun e he => hevents e (List.mem_cons_of_mem _ he)) hs
  | case7 event rest s hge => exact hs

lemma drainWrite_alive {events : List WriteEvent} (hevents : ∀ e ∈ events, e.GoesOn)
    (hs : s.failed = false) : (s.drainWrite events).2.failed = false := by
  rw [drainWrite, if_neg (by rw [hs]; exact Bool.false_ne_true)]
  exact drainLoop_alive hevents hs

/-- `ready!(…)?`, where neither part fails. -/
lemma andThen_alive {α : Type} {r : Poll Unit × NoiseStream}
    {next : NoiseStream → Poll α × NoiseStream} (hr : r.2.failed = false)
    (hnext : r.1 = .ready (.ok ()) → (next r.2).2.failed = false) :
    (andThen r next).2.failed = false := by
  obtain ⟨r, t⟩ := r
  cases r with
  | pending => exact hr
  | ready r =>
      cases r with
      | error e => exact hr
      | ok _ => exact hnext rfl

lemma transportEnd_alive {event : WriteEvent} (hevent : ∀ text, event ≠ .failed text)
    (hs : s.failed = false) : (s.transportEnd event).2.failed = false := by
  cases event with
  | pending => exact hs
  | failed text => exact absurd rfl (hevent text)
  | ready n => exact hs

lemma pollFlush_alive {events : List WriteEvent} {flush : WriteEvent}
    (hevents : ∀ e ∈ events, e.GoesOn) (hflush : ∀ text, flush ≠ .failed text)
    (hs : s.failed = false) : (s.pollFlush events flush).2.failed = false :=
  andThen_alive (drainWrite_alive hevents hs) fun _ =>
    transportEnd_alive hflush (drainWrite_alive hevents hs)

/-- **A poll that nothing disturbs** leaves a stream that has not failed as one that has not. -/
lemma poll_alive (hnonces : made.map Prod.fst = List.range made.length)
    (hbound : made.length ≤ maxNonce) (hsizes : ∀ m ∈ made, m.2.length ≤ maxPlain)
    (hrecv : Receives peer made payload s) (hs : s.failed = false) {op : Op} (hop : op.Smooth)
    (hnonce : (s.poll aead peer made op).2.sendNonce < maxNonce)
    (hgiven : (s.poll aead peer made op).2.received <+: (made.map peer.record).flatten)
    (hcut : ¬Cut (made.map peer.record) (s.poll aead peer made op).2) :
    (s.poll aead peer made op).2.failed = false := by
  cases op with
  | write buf events =>
      have hdrain := drainWrite_alive hop hs
      rw [poll, pollWrite] at hnonce ⊢
      generalize s.drainWrite events = r at hnonce hdrain ⊢
      obtain ⟨r, t⟩ := r
      refine andThen_alive hdrain fun hr => ?_
      obtain rfl : r = .ready (.ok ()) := hr
      dsimp only [andThen] at hnonce hdrain ⊢
      split_ifs at hnonce ⊢ with hbuf hlast
      · exact hdrain
      · -- a stream without nonces would be left without nonces
        have : t.sendNonce < maxNonce := hnonce
        omega
      · exact hdrain
  | flush events flush => exact pollFlush_alive hop.1 hop.2 hs
  | shutdown events flush shutdown =>
      have hflush := pollFlush_alive hop.1 hop.2.1 hs
      exact andThen_alive hflush fun _ => transportEnd_alive hop.2.2 hflush
  | read room events =>
      rw [poll, pollRead, if_neg (by rw [hs]; exact Bool.false_ne_true)] at hgiven hcut ⊢
      split_ifs at hgiven hcut ⊢ with hroom
      · exact hs
      · exact readLoop_alive hnonces hbound hsizes room hop hrecv hs hgiven hcut

end Undisturbed

/-! ### One poll

Both halves at once, for either end.
-/

section Polls

variable {aead peer : IdealAead} {made : List Sealed} {payload : List UInt8} {s : NoiseStream}

/-- **One poll of a stream** keeps both halves, and says so where the stream fails. -/
lemma poll_spec (hnonces : made.map Prod.fst = List.range made.length) (op : Op)
    (hsends : Sends aead s) (hrecv : Receives peer made payload s) :
    let r := s.poll aead peer made op
    Sends aead r.2 ∧ Receives peer made payload r.2 ∧ s.made <+: r.2.made := by
  cases op with
  | write buf events =>
      have h := pollWrite_spec aead buf events s
      exact ⟨h.sends hsends, hrecv.of_same h.recv, h.grows⟩
  | flush events flush =>
      have h := pollFlush_spec aead events flush s
      exact ⟨h.sends hsends, hrecv.of_same h.recv, h.grows⟩
  | shutdown events flush shutdown =>
      have h := pollShutdown_spec aead events flush shutdown s
      exact ⟨h.sends hsends, hrecv.of_same h.recv, h.grows⟩
  | read room events =>
      have h := pollRead_spec hnonces room events hrecv
      refine ⟨?_, h.receives, h.send.made ▸ List.prefix_refl _⟩
      obtain ⟨hnext, hwrite, hwritten, hsent, haccepted, hmade⟩ := h.send
      show Sends aead (s.pollRead peer made room events).2
      refine ⟨?_, ?_, ?_, ?_, ?_, ?_⟩
      · rw [hmade]
        exact hsends.nonces
      · rw [hnext, hmade]
        exact hsends.next
      · rw [hnext]
        exact hsends.bound
      · rw [haccepted, hmade]
        exact hsends.accepted
      · rw [hmade]
        exact hsends.sizes
      · rw [hsent, hwrite, hwritten, hmade]
        exact hsends.out

/-- **A stream that has failed** answers every poll with an error and stays as it is. -/
lemma poll_of_failed (hs : s.failed = true) (op : Op) :
    (s.poll aead peer made op).1.IsError ∧ (s.poll aead peer made op).2 = s := by
  have hdrain : ∀ events, s.drainWrite events = (.ready (.error connectionFailed), s) := by
    intro events
    rw [drainWrite, if_pos hs]
  cases op with
  | write buf events =>
      simp only [poll, pollWrite, hdrain, andThen]
      exact ⟨⟨_, rfl⟩, trivial⟩
  | flush events flush =>
      simp only [poll, pollFlush, hdrain, andThen, Poll.zero]
      exact ⟨⟨_, rfl⟩, trivial⟩
  | shutdown events flush shutdown =>
      simp only [poll, pollShutdown, pollFlush, hdrain, andThen, Poll.zero]
      exact ⟨⟨_, rfl⟩, trivial⟩
  | read room events =>
      simp only [poll, pollRead, if_pos hs]
      exact ⟨⟨_, rfl⟩, trivial⟩

end Polls

end NoiseStream

/-! ## Both ends

The records made by one end are those that the other one may open, and more of them never hurt.
-/

namespace World

variable {aead : Side → IdealAead} {payload : Side → List UInt8}

/-- **The invariant of both ends.** -/
def Inv (aead : Side → IdealAead) (payload : Side → List UInt8) (w : World) : Prop :=
  ∀ x, (w x).Sends (aead x) ∧ (w x).Receives (aead x.other) (w x.other).made (payload x)

lemma inv_established : Inv aead payload (World.established payload) := by
  intro x
  refine ⟨⟨rfl, rfl, Nat.zero_le _, rfl, nofun, rfl⟩, ⟨le_rfl, ?_, List.prefix_refl _, fun _ => ?_⟩⟩
  · exact (List.append_nil _).symm
  · exact ⟨rfl, Or.inl rfl, Nat.succ_pos 3, nofun⟩

/-- **Step.** -/
lemma Inv.poll {w : World} (h : Inv aead payload w) (x : Side) (op : Op) :
    Inv aead payload (w.poll aead x op).2 := by
  obtain ⟨hsends, hrecv⟩ := h x
  obtain ⟨hsends', hrecv'⟩ := h x.other
  have hstep := NoiseStream.poll_spec hsends'.nonces op hsends hrecv
  intro y
  by_cases hy : y = x
  · subst hy
    simp only [World.poll, Function.update_self, Function.update_of_ne y.other_ne]
    exact ⟨hstep.1, hstep.2.1⟩
  · obtain rfl : y = x.other := by
      cases x <;> cases y <;> simp_all [Side.other]
    rw [Side.other_other] at hrecv'
    simp only [World.poll, Function.update_of_ne x.other_ne, Side.other_other, Function.update_self]
    exact ⟨hsends', hrecv'.mono hstep.2.2⟩

/-- **Run.** -/
theorem Inv.run {w : World} (h : Inv aead payload w) (steps : List (Side × Op)) :
    Inv aead payload (w.run aead steps) := by
  induction steps generalizing w with
  | nil => exact h
  | cons step steps ih => exact ih (h.poll step.1 step.2)

lemma poll_self (w : World) (x : Side) (op : Op) :
    (w.poll aead x op).2 x = ((w x).poll (aead x) (aead x.other) (w x.other).made op).2 :=
  Function.update_self _ _ _

/-- An end that has failed stays as it is. -/
lemma run_of_failed {w : World} {x : Side} (hx : (w x).failed = true) (steps : List (Side × Op)) :
    w.run aead steps x = w x := by
  induction steps generalizing w with
  | nil => rfl
  | cons step steps ih =>
      have hstep : (w.poll aead step.1 step.2).2 x = w x := by
        by_cases hside : step.1 = x
        · rw [hside, poll_self]
          exact (NoiseStream.poll_of_failed hx step.2).2
        · exact Function.update_of_ne (Ne.symm hside) _ _
      have hrun : w.run aead (step :: steps) = (w.poll aead step.1 step.2).2.run aead steps := rfl
      rw [hrun, ih (by rw [hstep]; exact hx), hstep]

/-- **Nothing disturbs** the stream from `x` to its peer: the transport gave the peer a beginning of
what it took, it did not end inside of a record, and the peer has nonces left to send with. -/
structure Undisturbed (aead : Side → IdealAead) (w : World) (x : Side) : Prop where
  received : (w x.other).received <+: (w x).sent
  whole : ¬NoiseStream.Cut ((w x).made.map (aead x).record) (w x.other)
  nonces : (w x.other).sendNonce < maxNonce

/-- **An honest run** for the stream from `x`: the transport of its peer has no error, and nothing
disturbs the stream at any moment. -/
structure Honest (aead : Side → IdealAead) (w : World) (x : Side) (steps : List (Side × Op)) :
    Prop where
  smooth : ∀ op, (x.other, op) ∈ steps → op.Smooth
  undisturbed : ∀ before after, steps = before ++ after → Undisturbed aead (w.run aead before) x

lemma Honest.tail {w : World} {x : Side} {step : Side × Op} {steps : List (Side × Op)}
    (h : Honest aead w x (step :: steps)) :
    Honest aead (w.poll aead step.1 step.2).2 x steps := by
  refine ⟨fun op hop => h.smooth op (List.mem_cons_of_mem _ hop), fun before after hsplit => ?_⟩
  exact h.undisturbed (step :: before) after (by rw [hsplit, List.cons_append])

/-- **Step**: one poll of either end of an honest run. -/
lemma Inv.poll_alive {w : World} (h : Inv aead payload w) {x y : Side} {op : Op}
    (hsmooth : x.other = y → op.Smooth) (hafter : Undisturbed aead (w.poll aead y op).2 x)
    (halive : (w x.other).failed = false) : ((w.poll aead y op).2 x.other).failed = false := by
  by_cases hy : x.other = y
  · subst hy
    obtain ⟨hsends, -⟩ := h x
    obtain ⟨-, hrecv⟩ := h x.other
    obtain ⟨hreceived, hwhole, hnonces⟩ := hafter
    have hsame : (w.poll aead x.other op).2 x = w x := Function.update_of_ne x.other_ne.symm _ _
    rw [hsame, poll_self, Side.other_other] at hreceived hwhole
    rw [poll_self, Side.other_other] at hnonces ⊢
    rw [Side.other_other] at hrecv
    -- what the transport took are the records up to what is left of the last one
    have hsent : (w x).sent <+: ((w x).made.map (aead x).record).flatten := ⟨_, hsends.out⟩
    exact NoiseStream.poll_alive hsends.nonces (hsends.next ▸ hsends.bound) hsends.sizes hrecv halive
      (hsmooth rfl) hnonces (hreceived.trans hsent) hwhole
  · have hsame : (w.poll aead y op).2 x.other = w x.other := Function.update_of_ne hy _ _
    rw [hsame]
    exact halive

/-- **Run**: in an honest run the receiver does not fail. -/
lemma Inv.run_alive {w : World} (h : Inv aead payload w) {x : Side} {steps : List (Side × Op)}
    (hhonest : Honest aead w x steps) (halive : (w x.other).failed = false) :
    (w.run aead steps x.other).failed = false := by
  induction steps generalizing w with
  | nil => exact halive
  | cons step steps ih =>
      obtain ⟨y, op⟩ := step
      refine ih (h.poll y op) hhonest.tail (h.poll_alive (fun hy => ?_) ?_ halive)
      · exact hhonest.smooth op (hy ▸ List.mem_cons_self)
      · exact hhonest.undisturbed [(y, op)] steps rfl

/-- What is left of the plaintext goes into a buffer with room for it. -/
lemma delivered_read (w : World) (x : Side) (hx : (w x).failed = false) {room : ℕ}
    (hroom : (w x).plain.length < room) :
    ((w.poll aead x (.read room [])).2 x).delivered
      = (w x).delivered ++ (w x).plain.drop (w x).plainPos := by
  have hpos : room ≠ 0 := by omega
  rw [poll_self]
  simp only [NoiseStream.poll, NoiseStream.pollRead, hx, Bool.false_eq_true, if_false, hpos,
    NoiseStream.readLoop, NoiseStream.offer]
  split_ifs with hplain heof
  · show (w x).delivered ++ ((w x).plain.drop (w x).plainPos).take (min room _) = _
    rw [List.take_of_length_le]
    rw [List.length_drop]
    omega
  · rw [List.drop_of_length_le (not_lt.mp hplain), List.append_nil]
    rfl
  · rw [List.drop_of_length_le (not_lt.mp hplain), List.append_nil]
    rfl

/-- **Noise record streams.**  Whatever two established streams are polled with and whatever bytes
their transports give them: the receiver delivers a prefix of what the sender accepted, and all of
it once the sender is flushed and its bytes are read, unless the receiver failed.  In an honest run
it does not fail, and every read that finds bytes takes some or delivers some, so that it comes to
all of it.  The nonces go up and stay below the last one.  Where the bytes deviate from the
sender's records or are cut inside of one, nothing behind the records before is delivered, the poll
that meets the deviation or the cut returns an error, and so does every poll after it. -/
theorem record_streams (aead : Side → IdealAead) (payload : Side → List UInt8)
    (steps : List (Side × Op)) (x : Side) :
    let w := (World.established payload).run aead steps
    let s := w x
    let t := w x.other
    let records := s.made.map (aead x).record
    (t.delivered <+: payload x.other ++ s.accepted) ∧
    (s.write = [] → t.received = s.sent → t.failed = false → ∀ room > t.plain.length,
      ((w.poll aead x.other (.read room [])).2 x.other).delivered
        = payload x.other ++ s.accepted) ∧
    (Honest aead (.established payload) x steps → t.failed = false ∧
      (s.write = [] → t.received = s.sent → ∀ room > t.plain.length,
        ((w.poll aead x.other (.read room [])).2 x.other).delivered
          = payload x.other ++ s.accepted) ∧
      (t.eof = false → ∀ room > 0, ∀ b ≠ [], ∀ rest,
        t.progress < ((w.poll aead x.other (.read room (.bytes b :: rest))).2 x.other).progress)) ∧
    (∀ events flush, (s.pollFlush events flush).1 = .ready (.ok ()) →
      (s.pollFlush events flush).2.write = []) ∧
    ((s.made.map Prod.fst).Pairwise (· < ·) ∧ ∀ m ∈ s.made, m.1 < maxNonce) ∧
    (∀ k, NoiseStream.Deviates records t.received k →
      t.failed = true ∧ t.delivered <+: payload x.other ++ (s.made.take k).flatMap Prod.snd) ∧
    (NoiseStream.Cut records t → t.failed = true) ∧
    (∀ room events,
      let r := w.poll aead x.other (.read room events)
      (∃ k, NoiseStream.Deviates records (r.2 x.other).received k) ∨
        NoiseStream.Cut records (r.2 x.other) → r.1.IsError) ∧
    (t.failed = true → ∀ later op,
      w.run aead later x.other = t ∧ ((w.run aead later).poll aead x.other op).1.IsError) := by
  intro w s t records
  have hinv : Inv aead payload w := inv_established.run steps
  obtain ⟨hsends, -⟩ := hinv x
  obtain ⟨-, hrecv⟩ := hinv x.other
  rw [Side.other_other] at hrecv
  have hpref : ∀ k, t.recvNonce ≤ k →
      t.delivered <+: payload x.other ++ (s.made.take k).flatMap Prod.snd := by
    intro k hk
    obtain ⟨rest, hrest⟩ := List.take_prefix_take_left hk (l := s.made)
    refine List.IsPrefix.trans ⟨_, hrecv.plain⟩ ?_
    rw [← hrest, List.flatMap_append, ← List.append_assoc]
    exact List.prefix_append _ _
  have hall : s.write = [] → t.received = s.sent → t.failed = false → ∀ room > t.plain.length,
      ((w.poll aead x.other (.read room [])).2 x.other).delivered
        = payload x.other ++ s.accepted := by
    intro hwrite hreceived hfailed room hroom
    have hout := hsends.out
    rw [hwrite, List.drop_nil, List.append_nil] at hout
    rw [delivered_read w x.other hfailed hroom, hsends.accepted]
    exact hrecv.all hsends.sizes hfailed (hreceived.trans hout)
  refine ⟨?_, hall, ?_, ?_, ?_, ?_, ?_, ?_, ?_⟩
  · have := hpref s.made.length hrecv.count
    rwa [List.take_length, ← hsends.accepted] at this
  · intro hhonest
    have halive : t.failed = false := inv_established.run_alive hhonest rfl
    refine ⟨halive, fun hwrite hreceived => hall hwrite hreceived halive, ?_⟩
    intro hopen room hroom b hb rest
    rw [poll_self]
    show _ < (t.pollRead _ _ room _).2.progress
    rw [NoiseStream.pollRead, if_neg (by rw [halive]; exact Bool.false_ne_true),
      if_neg (Nat.pos_iff_ne_zero.mp hroom)]
    exact NoiseStream.progress_lt_readLoop (hrecv.live halive).room hopen hroom hb rest
  · exact fun events flush h => NoiseStream.write_pollFlush h
  · rw [hsends.nonces]
    refine ⟨List.pairwise_lt_range, fun m hm => ?_⟩
    have hmem : m.1 ∈ s.made.map Prod.fst := List.mem_map_of_mem hm
    rw [hsends.nonces, List.mem_range, ← hsends.next] at hmem
    exact lt_of_lt_of_le hmem hsends.bound
  · intro k hdev
    obtain ⟨hfailed, hk⟩ := hrecv.deviates hsends.sizes hdev
    exact ⟨hfailed, hpref k hk⟩
  · exact fun hcut => hrecv.cut hcut
  · intro room events r hbad
    -- the poll left the sender alone, and its receiver half says whether it failed
    have hstep := NoiseStream.pollRead_spec hsends.nonces room events hrecv
    have hself : r.2 x.other = (t.pollRead (aead x) s.made room events).2 := by
      rw [poll_self, Side.other_other]
      rfl
    have hresult : r.1 = (t.pollRead (aead x) s.made room events).1 := by
      show ((w x.other).poll _ (aead x.other.other) (w x.other.other).made _).1 = _
      rw [Side.other_other]
      rfl
    rw [hresult]
    rw [hself] at hbad
    refine hstep.error ?_
    rcases hbad with ⟨k, hdev⟩ | hcut
    · exact (hstep.receives.deviates hsends.sizes hdev).1
    · exact hstep.receives.cut hcut
  · intro hfailed later op
    have hsame : w.run aead later x.other = t := run_of_failed hfailed later
    refine ⟨hsame, (NoiseStream.poll_of_failed ?_ op).1⟩
    rw [hsame]
    exact hfailed

/-- A table of what was made: a ciphertext opens where its nonce and text are in the table.  It
meets the laws of `IdealAead`, and computes. -/
def tableAead : IdealAead where
  encrypt _ p := p ++ List.replicate tag 0
  decrypt made n c :=
    (made.find? fun m => decide (m.1 = n) && decide (m.2 ++ List.replicate tag 0 = c)).map Prod.snd
  length_encrypt _ p := by
    rw [List.length_append, List.length_replicate]
  decrypt_made made n p hmem := by
    have hsome : (made.find? fun m => decide (m.1 = n) &&
        decide (m.2 ++ List.replicate tag 0 = p ++ List.replicate tag 0)).isSome := by
      rw [List.find?_isSome]
      exact ⟨(n, p), hmem, by simp⟩
    obtain ⟨m, hm⟩ := Option.isSome_iff_exists.mp hsome
    have hfound := List.find?_some hm
    simp only [Bool.and_eq_true, decide_eq_true_eq, List.append_cancel_right_eq] at hfound
    rw [hm, Option.map_some, hfound.2]
  made_of_decrypt made n c p hdec := by
    obtain ⟨m, hm, rfl⟩ := Option.map_eq_some_iff.mp hdec
    have hfound := List.find?_some hm
    simp only [Bool.and_eq_true, decide_eq_true_eq] at hfound
    exact ⟨hfound.1 ▸ List.mem_of_find?_eq_some hm, hfound.2.symm⟩

/-- A record in two writes and three reads, which nothing disturbs, and then the same record again.
-/
theorem record_streams_replayed :
    let record : List UInt8 := tableAead.record (0, [1, 2, 3])
    let steps : List (Side × Op) := [(.initiator, .write [1, 2, 3] []),
      (.initiator, .flush [.ready 5, .pending] .pending), (.initiator, .flush [.ready 100] (.ready 0)),
      (.responder, .read 8 [.bytes (record.take 2), .bytes (record.drop 2), .bytes (record.drop 4)])]
    let w := (World.established fun _ => []).run (fun _ => tableAead) steps
    (w .responder).failed = false ∧ (w .responder).delivered = [1, 2, 3] ∧
      (w.poll (fun _ => tableAead) .responder
        (.read 8 [.bytes (record.take 4), .bytes (record.drop 4)])).1.IsError := by
  intro record steps w
  have h := record_streams (fun _ => tableAead) (fun _ => []) steps .initiator
  have hmoments : ∀ n ≤ 4,
      let u := (World.established fun _ => []).run (fun _ => tableAead) (steps.take n)
      (u .responder).received <+: (u .initiator).sent ∧ (u .responder).ended = false ∧
        (u .responder).sendNonce < maxNonce := by
    decide
  have hhonest : Honest (fun _ => tableAead) (.established fun _ => []) .initiator steps := by
    refine ⟨fun op hop => ?_, fun before after hsplit => ?_⟩
    · obtain rfl : op = .read 8
          [.bytes (record.take 2), .bytes (record.drop 2), .bytes (record.drop 4)] := by
        simpa [steps, Side.other] using hop
      intro text hmem
      simp at hmem
    · have hbefore : steps.take before.length = before := by
        rw [hsplit, List.take_left]
      have hfew : before.length ≤ 4 := by
        have hlen : 4 = (before ++ after).length := congrArg List.length hsplit
        rw [hlen, List.length_append]
        exact Nat.le_add_right _ _
      obtain ⟨hreceived, hopen, hnonces⟩ := hmoments before.length hfew
      rw [hbefore] at hreceived hopen hnonces
      refine ⟨hreceived, fun hcut => ?_, hnonces⟩
      exact Bool.false_ne_true (hopen.symm.trans hcut.1)
  refine ⟨(h.2.2.1 hhonest).1, by decide,
    h.2.2.2.2.2.2.2.1 8 [.bytes (record.take 4), .bytes (record.drop 4)]
      (Or.inl ⟨1, record, by decide, ⟨by decide, fun len hlen => ?_⟩, fun r hr => ?_⟩)⟩
  · have hnineteen : recordLen (record.take 4) = .ok 19 := by decide
    rw [hnineteen] at hlen
    cases hlen
    decide
  · have hnone : (none : Option (List UInt8)) = some r := hr
    cases hnone

end World

end Storj.Noise
