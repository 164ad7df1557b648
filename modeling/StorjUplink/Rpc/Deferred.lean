import StorjUplink.Rpc.Noise

/-!
# The deferred Noise handshake

`DeferredNoise` of `transport.rs` puts off the dial until there is something to send: the first
`poll_write` hands its bytes to the connect closure as the payload of the handshake and reports them
as accepted, with nothing connected yet.  Every other call, and every later write, drives the future
the closure returned and goes on to the transport it resolves to.

The four fields can hold sixteen combinations and the code is in one of four of them; `Phase` names
these, and the code never leaves them (`step_toNoise`).  What the wrapper did to its surroundings is
kept in a log, and `Phase.Log` says for each phase what the log is.

The future, the transport and everything they depend on are parameters.  A call comes with what its
surroundings are like at that moment, so every timing is a run.
-/

namespace Storj.Noise

/-! ## The payload

The first message of the handshake carries the early data, and its size is limited by that of a
Noise message.
-/

/-- `MAX_EARLY_DATA`: the first handshake message has 96 bytes without it. -/
def maxEarlyData : ℕ := 65535 - 96

/-- `HEADER`. -/
def preamble : List UInt8 := "DRPC!N!1".toUTF8.toList

/-- `Initiator`, with the handshake state of the Noise library. -/
structure Initiator (H : Type) where
  hs : H
  message : List UInt8

section Initiator

variable {H : Type} (writeMessage : H → List UInt8 → Except String (List UInt8 × H))

/-- `set_payload`: the first handshake message, with the early data as its payload.  Data beyond the
limit is refused before the handshake is touched. -/
def Initiator.setPayload (self : Initiator H) (payload : List UInt8) :
    Except NoiseError (Initiator H) :=
  if payload.length > maxEarlyData then .error (.invalid "Noise early payload too large")
  else
    match writeMessage self.hs payload with
    | .error text => .error (.invalid text)
    | .ok (body, hs) => .ok { hs, message := preamble ++ header body.length ++ body }

/-- A handshake that has sent nothing: it takes every payload with which its message, 96 bytes
longer, is no longer than a Noise message may be. -/
def Initiator.Fresh (self : Initiator H) : Prop :=
  ∀ payload : List UInt8, payload.length + 96 ≤ 65535 →
    ∃ sent, writeMessage self.hs payload = .ok sent

/-- A payload of at most `MAX_EARLY_DATA` bytes is accepted. -/
lemma Initiator.setPayload_ok {self : Initiator H} (hfresh : self.Fresh writeMessage)
    {payload : List UInt8} (hlen : payload.length ≤ maxEarlyData) :
    ∃ initiator, self.setPayload writeMessage payload = .ok initiator := by
  have hfits : payload.length + 96 ≤ 65535 := by
    unfold maxEarlyData at hlen
    omega
  obtain ⟨⟨body, hs⟩, hsent⟩ := hfresh payload hfits
  refine ⟨⟨hs, preamble ++ header body.length ++ body⟩, ?_⟩
  rw [setPayload, if_neg (not_lt.mpr hlen), hsent]

end Initiator

/-! ## The wrapper

Four optional fields, of which the code moves values from one to the next.  A call that is not
ready leaves them as they are after the polls that it made.
-/

/-- What the wrapper does to its surroundings. -/
inductive Effect where
  /-- The connect closure is called. -/
  | started (payload : List UInt8)
  /-- The connect future resolves to an error. -/
  | failed
  /-- A write reaches the connected transport, which accepts these bytes. -/
  | wrote (bytes : List UInt8)
deriving DecidableEq, Repr

/-- The code that the wrapper polls: the connect future `F` and the transport `T`, under
circumstances `Ω`. -/
structure Surroundings (Ω F T : Type) where
  poll : Ω → F → Poll T × F
  pollWrite : Ω → T → List UInt8 → Poll ℕ × T
  pollFlush : Ω → T → Poll Unit × T
  pollShutdown : Ω → T → Poll Unit × T
  /-- With the room left in the buffer; the bytes are what is put into it. -/
  pollRead : Ω → T → ℕ → Poll (List UInt8) × T

/-- `DeferredNoise`: the closure that starts the connection, its future, the connected transport,
and the mark of a failure.  At most one of them is there. -/
structure DeferredNoise (F T : Type) where
  start : Option (List UInt8 → F)
  pending : Option F
  connected : Option T
  failed : Bool

/-- What a call comes to: `none` if it panics. -/
structure Turn (F T α : Type) where
  result : Option (Poll α)
  self : DeferredNoise F T
  effects : List Effect

namespace DeferredNoise

variable {Ω F T α : Type} (io : Surroundings Ω F T) (ω : Ω)

/-- The wrapper that `dial_noise_with_options` returns when early data is enabled. -/
def new (start : List UInt8 → F) : DeferredNoise F T where
  start := some start
  pending := none
  connected := none
  failed := false

/-- `poll_connect`: a failed wrapper stays failed; one that has not started starts without early
data; and a pending connection is polled once. -/
def pollConnect (self : DeferredNoise F T) : Poll Unit × DeferredNoise F T × List Effect :=
  if self.failed then (.ready (.error (.io "Noise connection failed")), self, [])
  else
    let (self, effects) : DeferredNoise F T × List Effect := match self.start with
      | some start => ({ self with start := none, pending := some (start []) }, [.started []])
      | none => (self, [])
    match self.pending with
    | some pending =>
        match io.poll ω pending with
        | (.pending, pending) => (.pending, { self with pending := some pending }, effects)
        | (.ready (.ok transport), _) =>
            (.ready (.ok ()), { self with connected := some transport, pending := none }, effects)
        | (.ready (.error error), _) =>
            (.ready (.error error), { self with failed := true, pending := none },
              effects ++ [.failed])
    | none => (.ready (.ok ()), self, effects)

/-- The end of every entry point: `ready!(self.poll_connect(cx))?`, then the same call on the
transport, where `expect("connected")` panics if there is none. -/
def forward (self : DeferredNoise F T) (call : T → Poll α × T) (effect : Poll α → List Effect) :
    Turn F T α :=
  match self.pollConnect io ω with
  | (.pending, self, effects) => ⟨some .pending, self, effects⟩
  | (.ready (.error error), self, effects) => ⟨some (.ready (.error error)), self, effects⟩
  | (.ready (.ok ()), self, effects) =>
      match self.connected with
      | none => ⟨none, self, effects⟩
      | some transport =>
          let (result, transport) := call transport
          ⟨some result, { self with connected := some transport }, effects ++ effect result⟩

/-- The bytes that a write took. -/
def taken (data : List UInt8) : Poll ℕ → List UInt8
  | .ready (.ok n) => data.take n
  | _ => []

/-- `poll_write`: the first bytes written start the connection and travel as its early data,
everything after them goes to the connected transport. -/
def pollWrite (self : DeferredNoise F T) (data : List UInt8) : Turn F T ℕ :=
  if data.isEmpty then ⟨some (.ready (.ok 0)), self, []⟩
  else
    match self.start with
    | some start =>
        let n := min data.length maxEarlyData
        ⟨some (.ready (.ok n)),
          { self with start := none, pending := some (start (data.take n)) },
          [.started (data.take n)]⟩
    | none =>
        self.forward io ω (fun transport => io.pollWrite ω transport data)
          fun result => [.wrote (taken data result)]

/-- `poll_flush`: of the connection first, of the transport when it is there. -/
def pollFlush (self : DeferredNoise F T) : Turn F T Unit :=
  self.forward io ω (io.pollFlush ω) fun _ => []

/-- `poll_shutdown`: of the connection first, of the transport when it is there. -/
def pollShutdown (self : DeferredNoise F T) : Turn F T Unit :=
  self.forward io ω (io.pollShutdown ω) fun _ => []

/-- `poll_read`, with the room left in the buffer. -/
def pollRead (self : DeferredNoise F T) (remaining : ℕ) : Turn F T (List UInt8) :=
  if remaining = 0 then ⟨some (.ready (.ok [])), self, []⟩
  else self.forward io ω (fun transport => io.pollRead ω transport remaining) fun _ => []

end DeferredNoise

/-! ## Runs

The replies and the effects of every call are recorded, so that what was accepted can be compared
with what was sent.
-/

/-- A call of the wrapper. -/
inductive Call where
  | write (data : List UInt8)
  | flush
  | shutdown
  | read (remaining : ℕ)
deriving DecidableEq, Repr

/-- A call that is not answered at once for want of bytes or room. -/
def Call.NonEmpty : Call → Prop
  | .write data => data ≠ []
  | .read remaining => remaining ≠ 0
  | _ => True

/-- What the caller gets. -/
inductive Reply where
  | wrote (result : Poll ℕ)
  | done (result : Poll Unit)
  | got (result : Poll (List UInt8))
  | panicked

def Reply.IsError : Reply → Prop
  | .wrote result => result.IsError
  | .done result => result.IsError
  | .got result => result.IsError
  | .panicked => False

/-- A call, the reply to it and what it did. -/
structure Entry where
  call : Call
  reply : Reply
  effects : List Effect

/-- The bytes that `poll_write` reported as accepted. -/
def Entry.accepted (e : Entry) : List UInt8 :=
  match e.call, e.reply with
  | .write data, .wrote result => DeferredNoise.taken data result
  | _, _ => []

section Run

variable {Ω F T : Type} (io : Surroundings Ω F T)

/-- One call, with the entry that it leaves in the log.  A turn without a result is a panic of the
wrapper, which the entry records. -/
def DeferredNoise.step (self : DeferredNoise F T) (ω : Ω) (call : Call) :
    Entry × DeferredNoise F T :=
  match call with
  | .write data =>
      let turn := self.pollWrite io ω data
      (⟨call, turn.result.elim .panicked .wrote, turn.effects⟩, turn.self)
  | .flush =>
      let turn := self.pollFlush io ω
      (⟨call, turn.result.elim .panicked .done, turn.effects⟩, turn.self)
  | .shutdown =>
      let turn := self.pollShutdown io ω
      (⟨call, turn.result.elim .panicked .done, turn.effects⟩, turn.self)
  | .read remaining =>
      let turn := self.pollRead io ω remaining
      (⟨call, turn.result.elim .panicked .got, turn.effects⟩, turn.self)

/-- The calls in order, each with its circumstances. -/
def DeferredNoise.run (self : DeferredNoise F T) : List (Ω × Call) → List Entry
  | [] => []
  | (ω, call) :: calls =>
      let (entry, self) := self.step io ω call
      entry :: self.run calls

end Run

/-! ## The phases

Not started, dialing with a payload on its way, connected, and failed.  Each has the fields that
the code leaves there, and a log.
-/

/-- **The phases of the wrapper.** -/
inductive Phase (F T : Type) where
  | idle (start : List UInt8 → F)
  | dialing (future : F)
  | connected (transport : T)
  | failed

/-- The fields in each phase. -/
def Phase.toNoise {F T : Type} : Phase F T → DeferredNoise F T
  | .idle start => DeferredNoise.new start
  | .dialing future => ⟨none, some future, none, false⟩
  | .connected transport => ⟨none, none, some transport, false⟩
  | .failed => ⟨none, none, none, true⟩

/-- **What has happened by each phase**: nothing, one start, one start and then writes, or one start
and its failure. -/
inductive Phase.Log {F T : Type} : Phase F T → List Effect → Prop
  | idle (start : List UInt8 → F) : Log (.idle start) []
  | dialing (future : F) {payload : List UInt8} (hlen : payload.length ≤ maxEarlyData) :
      Log (.dialing future) [.started payload]
  | connected (transport : T) {payload : List UInt8} (hlen : payload.length ≤ maxEarlyData)
      (writes : List (List UInt8)) :
      Log (.connected transport) (.started payload :: writes.map .wrote)
  | failed {payload : List UInt8} (hlen : payload.length ≤ maxEarlyData) :
      Log .failed [.started payload, .failed]

/-- The payloads of the connect closure. -/
@[simp] def Effect.payload : Effect → List UInt8
  | .started payload => payload
  | _ => []

/-- What the connected transport accepted. -/
@[simp] def Effect.carried : Effect → List UInt8
  | .wrote bytes => bytes
  | _ => []

@[simp] def Effect.isStart : Effect → Bool
  | .started _ => true
  | _ => false

/-- The bytes on their way to the peer: as a payload or through the transport. -/
def Effect.bytes (effect : Effect) : List UInt8 := effect.payload ++ effect.carried

/-- Writes start nothing, and what they send the transport accepted. -/
lemma writes_stream (writes : List (List UInt8)) :
    (writes.map Effect.wrote).countP Effect.isStart = 0 ∧
      (writes.map Effect.wrote).flatMap Effect.payload = [] ∧
      (writes.map Effect.wrote).flatMap Effect.bytes
        = (writes.map Effect.wrote).flatMap Effect.carried := by
  induction writes with
  | nil => exact ⟨rfl, rfl, rfl⟩
  | cons w writes ih =>
      obtain ⟨hstarts, hpayload, hbytes⟩ := ih
      refine ⟨?_, ?_, ?_⟩
      · rw [List.map_cons, List.countP_cons_of_neg (by simp), hstarts]
      · rw [List.map_cons, List.flatMap_cons, hpayload]
        rfl
      · rw [List.map_cons, List.flatMap_cons, List.flatMap_cons, hbytes]
        rfl

section Log

variable {F T : Type} {p : Phase F T} {log : List Effect} (h : p.Log log)

include h

lemma Phase.Log.eq_failed (hfailed : .failed ∈ log) : p = .failed := by
  cases h with
  | failed => rfl
  | _ => simp at hfailed

/-- What every log says: one start at most, with a payload that is not too long, and all else that
is sent goes through the transport after it. -/
lemma Phase.Log.stream : log.countP Effect.isStart ≤ 1 ∧
    (log.flatMap Effect.payload).length ≤ maxEarlyData ∧
    log.flatMap Effect.bytes = log.flatMap Effect.payload ++ log.flatMap Effect.carried := by
  cases h with
  | idle start => exact ⟨Nat.zero_le _, Nat.zero_le _, rfl⟩
  | dialing future hlen => exact ⟨le_rfl, by simpa using hlen, by simp [Effect.bytes]⟩
  | connected transport hlen writes =>
      obtain ⟨hstarts, hpayload, hbytes⟩ := writes_stream writes
      refine ⟨?_, ?_, ?_⟩
      · rw [List.countP_cons, hstarts]
        exact le_rfl
      · rw [List.flatMap_cons, hpayload, List.append_nil]
        exact hlen
      · rw [List.flatMap_cons, List.flatMap_cons, List.flatMap_cons, hpayload, hbytes,
          List.append_nil, Effect.bytes, List.append_assoc]
  | failed hlen => exact ⟨le_rfl, by simpa using hlen, by simp [Effect.bytes]⟩

end Log

section Phases

variable {Ω F T α : Type} (io : Surroundings Ω F T) (ω : Ω)

/-- Where `poll_connect` leaves the wrapper. -/
def Phase.After : Poll Unit → Phase F T → Prop
  | .pending, _ => True
  | .ready (.error _), p => p = .failed
  | .ready (.ok _), p => ∃ transport, p = .connected transport

/-- Polling the future. -/
lemma pollConnect_dialing (future : F) {payload : List UInt8}
    (hlen : payload.length ≤ maxEarlyData) :
    ∃ (result : Poll Unit) (p' : Phase F T) (effects : List Effect),
      (Phase.dialing future).toNoise.pollConnect io ω = (result, p'.toNoise, effects) ∧
      p'.Log (.started payload :: effects) ∧ effects.flatMap Effect.bytes = [] ∧
      p'.After result := by
  rcases hpoll : io.poll ω future with ⟨result, future'⟩
  cases result with
  | pending =>
      refine ⟨.pending, .dialing future', [], ?_, .dialing future' hlen, rfl, trivial⟩
      simp only [DeferredNoise.pollConnect, Phase.toNoise, hpoll]
      rfl
  | ready result =>
      cases result with
      | ok transport =>
          refine ⟨.ready (.ok ()), .connected transport, [], ?_, .connected transport hlen [], rfl,
            transport, rfl⟩
          simp only [DeferredNoise.pollConnect, Phase.toNoise, hpoll]
          rfl
      | error error =>
          refine ⟨.ready (.error error), .failed, [.failed], ?_, .failed hlen, rfl, rfl⟩
          simp only [DeferredNoise.pollConnect, Phase.toNoise, hpoll]
          rfl

/-- From the start, the closure is called first. -/
lemma pollConnect_idle (start : List UInt8 → F) {result : Poll Unit} {self : DeferredNoise F T}
    {effects : List Effect}
    (h : (Phase.dialing (start [])).toNoise.pollConnect io ω = (result, self, effects)) :
    (Phase.idle start).toNoise.pollConnect io ω = (result, self, .started [] :: effects) := by
  simp only [DeferredNoise.pollConnect, Phase.toNoise, DeferredNoise.new] at h ⊢
  rcases hpoll : io.poll ω (start []) with ⟨answer, future⟩
  rw [hpoll] at h
  rcases answer with _ | (error | transport)
  all_goals
    cases h
    rfl

/-- **`poll_connect` in each phase.**  It sends nothing, and a wrapper that has failed stays so. -/
lemma pollConnect_toNoise {p : Phase F T} {log : List Effect} (h : p.Log log) :
    ∃ (result : Poll Unit) (p' : Phase F T) (effects : List Effect),
      p.toNoise.pollConnect io ω = (result, p'.toNoise, effects) ∧
      p'.Log (log ++ effects) ∧ effects.flatMap Effect.bytes = [] ∧ p'.After result ∧
      (p = .failed → p' = .failed ∧ ∃ error, result = .ready (.error error)) := by
  have hempty : ([] : List UInt8).length ≤ maxEarlyData := Nat.zero_le _
  cases h with
  | idle start =>
      obtain ⟨result, p', effects, hpoll, hlog, hbytes, hafter⟩ :=
        pollConnect_dialing io ω (start []) hempty
      exact ⟨result, p', .started [] :: effects, pollConnect_idle io ω start hpoll, hlog, hbytes,
        hafter, by simp⟩
  | dialing future hlen =>
      obtain ⟨result, p', effects, hpoll, hlog, hbytes, hafter⟩ :=
        pollConnect_dialing io ω future hlen
      exact ⟨result, p', effects, hpoll, hlog, hbytes, hafter, by simp⟩
  | connected transport hlen writes =>
      refine ⟨.ready (.ok ()), .connected transport, [], rfl, ?_, rfl, ⟨transport, rfl⟩, by simp⟩
      rw [List.append_nil]
      exact .connected transport hlen writes
  | failed hlen =>
      exact ⟨.ready (.error _), .failed, [], rfl, .failed hlen, rfl, rfl, fun _ => ⟨rfl, _, rfl⟩⟩

lemma Phase.Log.write {transport : T} {log : List Effect}
    (h : (Phase.connected (F := F) transport).Log log) (transport' : T)
    (writes : List (List UInt8)) :
    (Phase.connected (F := F) transport').Log (log ++ writes.map .wrote) := by
  cases h with
  | connected _ hlen before =>
      rw [List.cons_append, ← List.map_append]
      exact .connected transport' hlen (before ++ writes)

/-- **The end of every entry point, in each phase.**  The transport is there when it is called. -/
lemma forward_toNoise {p : Phase F T} {log : List Effect} (h : p.Log log) (call : T → Poll α × T)
    {effect : Poll α → List Effect}
    (hwrites : ∀ result, ∃ writes : List (List UInt8), effect result = writes.map .wrote)
    (hquiet : ∀ result, (∀ a, result ≠ .ready (.ok a)) →
      (effect result).flatMap Effect.bytes = []) :
    ∃ (result : Poll α) (p' : Phase F T) (effects : List Effect),
      p.toNoise.forward io ω call effect = ⟨some result, p'.toNoise, effects⟩ ∧
      p'.Log (log ++ effects) ∧
      effects.flatMap Effect.bytes = (effect result).flatMap Effect.bytes ∧
      (p = .failed → p' = .failed ∧ result.IsError) := by
  obtain ⟨result, p', effects, hconnect, hlog, hbytes, hafter, hfailed⟩ :=
    pollConnect_toNoise io ω h
  unfold DeferredNoise.forward
  rw [hconnect]
  cases result with
  | pending =>
      refine ⟨.pending, p', effects, rfl, hlog, ?_, fun hp => ?_⟩
      · rw [hbytes, hquiet .pending (by simp)]
      · obtain ⟨-, error, herror⟩ := hfailed hp
        exact absurd herror (by simp)
  | ready result =>
      cases result with
      | error error =>
          refine ⟨.ready (.error error), p', effects, rfl, hlog, ?_, fun _ => ⟨hafter, error, rfl⟩⟩
          rw [hbytes, hquiet (.ready (.error error)) (by simp)]
      | ok _ =>
          obtain ⟨transport, rfl⟩ := hafter
          rcases hcall : call transport with ⟨result, transport'⟩
          obtain ⟨writes, heffect⟩ := hwrites result
          refine ⟨result, .connected transport', effects ++ effect result, ?_, ?_, ?_, fun hp => ?_⟩
          · simp only [Phase.toNoise, hcall]
          · rw [← List.append_assoc, heffect]
            exact hlog.write transport' writes
          · rw [List.flatMap_append, hbytes, List.nil_append]
          · obtain ⟨-, error, herror⟩ := hfailed hp
            exact absurd herror (by simp)

/-- A call that only goes through to the transport. -/
lemma forward_quiet {p : Phase F T} {log : List Effect} (h : p.Log log) (call : T → Poll α × T) :
    ∃ (result : Poll α) (p' : Phase F T) (effects : List Effect),
      p.toNoise.forward io ω call (fun _ => []) = ⟨some result, p'.toNoise, effects⟩ ∧
      p'.Log (log ++ effects) ∧ effects.flatMap Effect.bytes = [] ∧
      (p = .failed → p' = .failed ∧ result.IsError) :=
  forward_toNoise io ω h call (fun _ => ⟨[], rfl⟩) fun _ _ => rfl

lemma flatMap_wrote (data : List UInt8) (result : Poll ℕ) :
    [Effect.wrote (DeferredNoise.taken data result)].flatMap Effect.bytes
      = DeferredNoise.taken data result := by
  simp [Effect.bytes, Effect.payload, Effect.carried]

/-- A write that goes through to the transport. -/
lemma forward_write {p : Phase F T} {log : List Effect} (h : p.Log log) (data : List UInt8) :
    ∃ (result : Poll ℕ) (p' : Phase F T) (effects : List Effect),
      p.toNoise.forward io ω (fun transport => io.pollWrite ω transport data)
        (fun result => [.wrote (DeferredNoise.taken data result)])
          = ⟨some result, p'.toNoise, effects⟩ ∧
      p'.Log (log ++ effects) ∧
      effects.flatMap Effect.bytes = DeferredNoise.taken data result ∧
      (p = .failed → p' = .failed ∧ result.IsError) := by
  have hquiet : ∀ result : Poll ℕ, (∀ n, result ≠ .ready (.ok n)) →
      [Effect.wrote (DeferredNoise.taken data result)].flatMap Effect.bytes = [] := by
    intro result hresult
    rw [flatMap_wrote]
    rcases result with _ | (error | n)
    · rfl
    · rfl
    · exact absurd rfl (hresult n)
  obtain ⟨result, p', effects, hforward, hlog, hbytes, hfailed⟩ :=
    forward_toNoise io ω h (fun transport => io.pollWrite ω transport data)
      (fun result => ⟨[DeferredNoise.taken data result], rfl⟩) hquiet
  exact ⟨result, p', effects, hforward, hlog, hbytes.trans (flatMap_wrote data result), hfailed⟩

/-- `poll_write` in each phase. -/
lemma pollWrite_toNoise {p : Phase F T} {log : List Effect} (h : p.Log log) {data : List UInt8}
    (hdata : data ≠ []) :
    ∃ (result : Poll ℕ) (p' : Phase F T) (effects : List Effect),
      p.toNoise.pollWrite io ω data = ⟨some result, p'.toNoise, effects⟩ ∧
      p'.Log (log ++ effects) ∧
      effects.flatMap Effect.bytes = DeferredNoise.taken data result ∧
      (p = .failed → p' = .failed ∧ result.IsError) := by
  have hnonempty : ¬data.isEmpty := by simpa using hdata
  unfold DeferredNoise.pollWrite
  rw [if_neg hnonempty]
  cases h with
  | idle start =>
      -- the first write is the payload
      have hlen : (data.take (min data.length maxEarlyData)).length ≤ maxEarlyData := by
        rw [List.length_take]
        omega
      refine ⟨_, .dialing (start (data.take (min data.length maxEarlyData))), _, rfl,
        .dialing _ hlen, ?_, by simp⟩
      simp [Effect.bytes, Effect.payload, Effect.carried, DeferredNoise.taken]
  | dialing future hlen => exact forward_write io ω (.dialing future hlen) data
  | connected transport hlen writes =>
      exact forward_write io ω (.connected transport hlen writes) data
  | failed hlen => exact forward_write io ω (.failed hlen) data

/-- **One call of the wrapper**, from a phase with its log: it does not panic, what it reports as
accepted is what it sent on, and a wrapper that has failed reports errors. -/
structure Phase.Moves (p : Phase F T) (log : List Effect) (e : Entry) (p' : Phase F T) : Prop where
  log' : p'.Log (log ++ e.effects)
  not_panicked : e.reply ≠ .panicked
  accepted_eq : e.accepted = e.effects.flatMap Effect.bytes
  failed : p = .failed → p' = .failed ∧ (e.call.NonEmpty → e.reply.IsError)

/-- A call that is answered, with an error after a failure. -/
lemma Phase.Moves.of_answered {p p' : Phase F T} {log : List Effect} {e : Entry}
    (hlog : p'.Log (log ++ e.effects)) (hreply : e.reply ≠ .panicked)
    (hbytes : e.effects.flatMap Effect.bytes = e.accepted)
    (hfailed : p = .failed → p' = .failed ∧ e.reply.IsError) : p.Moves log e p' where
  log' := hlog
  not_panicked := hreply
  accepted_eq := hbytes.symm
  failed hp := ⟨(hfailed hp).1, fun _ => (hfailed hp).2⟩

/-- A call that is answered at once leaves everything as it is. -/
lemma Phase.Moves.of_empty {p : Phase F T} {log : List Effect} (h : p.Log log) {e : Entry}
    (heffects : e.effects = []) (hreply : e.reply ≠ .panicked) (haccepted : e.accepted = [])
    (hempty : ¬e.call.NonEmpty) : p.Moves log e p where
  log' := by rwa [heffects, List.append_nil]
  not_panicked := hreply
  accepted_eq := by rw [heffects, haccepted, List.flatMap_nil]
  failed hp := ⟨hp, fun hne => absurd hne hempty⟩

/-- **The code never leaves the phases.** -/
theorem step_toNoise {p : Phase F T} {log : List Effect} (h : p.Log log) (call : Call) :
    ∃ (e : Entry) (p' : Phase F T), p.toNoise.step io ω call = (e, p'.toNoise) ∧
      p.Moves log e p' := by
  cases call with
  | write data =>
      by_cases hdata : data = []
      · subst hdata
        exact ⟨⟨.write [], .wrote (.ready (.ok 0)), []⟩, p, rfl,
          .of_empty h rfl (by simp) rfl (not_not.mpr rfl)⟩
      · obtain ⟨result, p', effects, hwrite, hlog, hbytes, hfailed⟩ :=
          pollWrite_toNoise io ω h hdata
        refine ⟨⟨.write data, .wrote result, effects⟩, p', ?_,
          .of_answered hlog (by simp) hbytes hfailed⟩
        simp only [DeferredNoise.step, hwrite]
        rfl
  | flush =>
      obtain ⟨result, p', effects, hflush, hlog, hbytes, hfailed⟩ :=
        forward_quiet io ω h (io.pollFlush ω)
      refine ⟨⟨.flush, .done result, effects⟩, p', ?_, .of_answered hlog (by simp) hbytes hfailed⟩
      simp only [DeferredNoise.step, DeferredNoise.pollFlush, hflush]
      rfl
  | shutdown =>
      obtain ⟨result, p', effects, hshutdown, hlog, hbytes, hfailed⟩ :=
        forward_quiet io ω h (io.pollShutdown ω)
      refine ⟨⟨.shutdown, .done result, effects⟩, p', ?_,
        .of_answered hlog (by simp) hbytes hfailed⟩
      simp only [DeferredNoise.step, DeferredNoise.pollShutdown, hshutdown]
      rfl
  | read remaining =>
      by_cases hroom : remaining = 0
      · subst hroom
        exact ⟨⟨.read 0, .got (.ready (.ok [])), []⟩, p, rfl,
          .of_empty h rfl (by simp) rfl (not_not.mpr rfl)⟩
      · obtain ⟨result, p', effects, hread, hlog, hbytes, hfailed⟩ :=
          forward_quiet io ω h fun transport => io.pollRead ω transport remaining
        refine ⟨⟨.read remaining, .got result, effects⟩, p', ?_,
          .of_answered hlog (by simp) hbytes hfailed⟩
        simp only [DeferredNoise.step, DeferredNoise.pollRead, if_neg hroom, hread]
        rfl

end Phases

/-! ## Whole runs

One call keeps the phase and its log in step.  What the log says about bytes is then the theorem.
-/

section Runs

variable {Ω F T : Type} (io : Surroundings Ω F T) {p : Phase F T} {log : List Effect}
  (h : p.Log log) (calls : List (Ω × Call))

include h

lemma run_cons_toNoise (ω : Ω) (call : Call) :
    ∃ (e : Entry) (p' : Phase F T),
      p.toNoise.run io ((ω, call) :: calls) = e :: p'.toNoise.run io calls ∧ p.Moves log e p' := by
  obtain ⟨e, p', hstep, hmoves⟩ := step_toNoise io ω h call
  refine ⟨e, p', ?_, hmoves⟩
  rw [DeferredNoise.run, hstep]

lemma run_log : ∃ p' : Phase F T,
    p'.Log (log ++ (p.toNoise.run io calls).flatMap Entry.effects) := by
  induction calls generalizing p log with
  | nil =>
      refine ⟨p, ?_⟩
      rwa [DeferredNoise.run, List.flatMap_nil, List.append_nil]
  | cons c calls ih =>
      obtain ⟨e, p', hrun, hmoves⟩ := run_cons_toNoise io h calls c.1 c.2
      rw [hrun, List.flatMap_cons, ← List.append_assoc]
      exact ih hmoves.log'

lemma run_not_panicked : ∀ e ∈ p.toNoise.run io calls, e.reply ≠ .panicked := by
  induction calls generalizing p log with
  | nil => simp [DeferredNoise.run]
  | cons c calls ih =>
      obtain ⟨e, p', hrun, hmoves⟩ := run_cons_toNoise io h calls c.1 c.2
      rw [hrun, List.forall_mem_cons]
      exact ⟨hmoves.not_panicked, ih hmoves.log'⟩

lemma run_accepted : (p.toNoise.run io calls).flatMap Entry.accepted
    = ((p.toNoise.run io calls).flatMap Entry.effects).flatMap Effect.bytes := by
  induction calls generalizing p log with
  | nil => rfl
  | cons c calls ih =>
      obtain ⟨e, p', hrun, hmoves⟩ := run_cons_toNoise io h calls c.1 c.2
      rw [hrun, List.flatMap_cons, List.flatMap_cons, List.flatMap_append, hmoves.accepted_eq,
        ih hmoves.log']

/-- After a failure, nothing but errors. -/
lemma run_failed (hp : p = .failed) :
    ∀ e ∈ p.toNoise.run io calls, e.call.NonEmpty → e.reply.IsError := by
  induction calls generalizing p log with
  | nil => simp [DeferredNoise.run]
  | cons c calls ih =>
      obtain ⟨e, p', hrun, hmoves⟩ := run_cons_toNoise io h calls c.1 c.2
      rw [hrun, List.forall_mem_cons]
      exact ⟨(hmoves.failed hp).2, ih hmoves.log' (hmoves.failed hp).1⟩

lemma run_pairwise : (p.toNoise.run io calls).Pairwise fun e e' =>
    .failed ∈ e.effects → e'.call.NonEmpty → e'.reply.IsError := by
  induction calls generalizing p log with
  | nil => exact List.Pairwise.nil
  | cons c calls ih =>
      obtain ⟨e, p', hrun, hmoves⟩ := run_cons_toNoise io h calls c.1 c.2
      rw [hrun]
      refine .cons (fun e' he' hfailed => ?_) (ih hmoves.log')
      have hphase : p' = .failed := hmoves.log'.eq_failed (List.mem_append_right log hfailed)
      exact run_failed io hmoves.log' calls hphase e' he'

end Runs

/-- **The deferred start keeps the byte stream intact.** -/
theorem deferredNoise_stream {Ω F T H : Type} (io : Surroundings Ω F T) (start : List UInt8 → F)
    (calls : List (Ω × Call)) {writeMessage : H → List UInt8 → Except String (List UInt8 × H)}
    {initiator : Initiator H} (hfresh : initiator.Fresh writeMessage) :
    let trace := (DeferredNoise.new start).run io calls
    let effects := trace.flatMap Entry.effects
    let payload := effects.flatMap Effect.payload
    effects.countP Effect.isStart ≤ 1 ∧
      trace.flatMap Entry.accepted = payload ++ effects.flatMap Effect.carried ∧
      payload.length ≤ maxEarlyData ∧
      (∃ sent, initiator.setPayload writeMessage payload = .ok sent) ∧
      (∀ e ∈ trace, e.reply ≠ .panicked) ∧
      trace.Pairwise fun e e' => .failed ∈ e.effects → e'.call.NonEmpty → e'.reply.IsError := by
  intro trace effects payload
  have h0 : (Phase.idle (T := T) start).Log [] := .idle start
  obtain ⟨p, hlog⟩ := run_log io h0 calls
  obtain ⟨hstarts, hlen, hbytes⟩ := hlog.stream
  refine ⟨hstarts, ?_, hlen, initiator.setPayload_ok writeMessage hfresh hlen, ?_, ?_⟩
  · exact (run_accepted io h0 calls).trans hbytes
  · exact run_not_panicked io h0 calls
  · exact run_pairwise io h0 calls

/-- A write before anything is connected, a flush that fails, and a write after it. -/
theorem deferredNoise_stream_failed :
    let io : Surroundings (Poll Unit) Unit Unit :=
      { poll := fun ω _ => (ω, ())
        pollWrite := fun _ _ data => (.ready (.ok data.length), ())
        pollFlush := fun _ _ => (.ready (.ok ()), ())
        pollShutdown := fun _ _ => (.ready (.ok ()), ())
        pollRead := fun _ _ _ => (.ready (.ok []), ()) }
    let calls := [(.pending, .write [1, 2]), (.pending, .flush),
      (.ready (.error (.io "connection refused")), .flush), (.pending, .write [3])]
    let trace := (DeferredNoise.new fun _ => ()).run io calls
    (trace.map Entry.effects = [[.started [1, 2]], [], [.failed], []]) ∧
      trace.flatMap Entry.accepted = [1, 2] ∧
      trace.Pairwise fun e e' => .failed ∈ e.effects → e'.call.NonEmpty → e'.reply.IsError := by
  intro io calls trace
  have hfresh : Initiator.Fresh
      (fun (_ : Unit) payload => if payload.length + 96 ≤ 65535 then
        .ok (List.replicate 96 0 ++ payload, ()) else .error "input error")
      ⟨(), []⟩ := fun payload hlen => ⟨_, if_pos hlen⟩
  have hstream := deferredNoise_stream io (fun _ => ()) calls hfresh
  exact ⟨rfl, hstream.2.1, hstream.2.2.2.2.2⟩

end Storj.Noise
