import StorjUplink.Client.Error
import StorjUplink.Lib.Machine
import StorjUplink.Lib.MachineInt

/-!
# Reading a download

`Download` of `upload.rs`, as its reader sees it: a producer sends decrypted segments through a
channel, and `poll_read` hands them out and counts in `remaining` what the producer still owes.
When the channel ends with a segment missing, `poll_read` returns an error.

`Session` puts beside the download what was delivered and whether a read returned an error.  In
every run the bytes delivered, the bytes in the buffer and the bytes owed are the promised total
(`Session.Sound`), so an end of file means that all was delivered; but the channel is dropped also
by an error, and a read without a channel is an end of file (`eof_honest`).

The reader drops the channel at an error and at the end, and from then on a read is an end of file.
That is all right after the last byte and wrong after an error, and the code does not tell the two
apart: `complete` is set in either case.  `eof_honest` gives the exact line, at each read of every
run.

Segments are vectors, so they are not longer than the address space allows.  The bytes that are
owed are counted in a signed number, which more bytes than were promised take below zero; the end
of the channel is then an error as well.
-/

namespace Storj.Client

open MachineInt

/-- What `poll_recv` can find: the results that were sent, and whether the producer is gone. -/
structure Channel where
  queue : List (Except Error (List UInt8))
  closed : Bool

/-- `Download`, without its telemetry and the object's data. -/
structure DownloadReader where
  complete : Bool
  buf : List UInt8
  pos : ℕ
  rx : Option Channel
  remaining : ℤ

/-- The error of a download whose channel ends too early. -/
def missingSegmentData : Error := ⟨.protocol, "download missing segment data"⟩

namespace DownloadReader

/-- `Download::streaming`: nothing has come, and `total` bytes are promised. -/
def streaming (total : ℤ) : DownloadReader where
  complete := false
  buf := []
  pos := 0
  rx := some ⟨[], false⟩
  remaining := total

/-- `cancel`. -/
def cancel (d : DownloadReader) : DownloadReader := { d with rx := none }

/-- The branch of `poll_read_inner` that hands out what is in the buffer. -/
def serve (cap : ℕ) (d : DownloadReader) : List UInt8 × DownloadReader :=
  let n := min cap (d.buf.length - d.pos)
  let out := (d.buf.drop d.pos).take n
  let d := { d with pos := d.pos + n }
  (out, if d.pos = d.buf.length ∧ d.remaining = 0 then { d with complete := true } else d)

/-- The loop of `poll_read_inner` on a channel, with room for `cap` bytes.  It stops, which `none`
says, if the bytes owed do not fit their type. -/
def receive (cap : ℕ) (closed : Bool) : List (Except Error (List UInt8)) → DownloadReader →
    Option (Poll (Except Error (List UInt8)) × DownloadReader)
  | [], d =>
      if d.pos < d.buf.length then
        let (out, d) := serve cap { d with rx := some ⟨[], closed⟩ }
        some (.ready (.ok out), d)
      else if closed then
        let d := d.cancel
        if d.remaining ≠ 0 then some (.ready (.error missingSegmentData), d)
        else some (.ready (.ok []), { d with complete := true })
      else some (.pending, { d with rx := some ⟨[], closed⟩ })
  | item :: queue, d =>
      if d.pos < d.buf.length then
        let (out, d) := serve cap { d with rx := some ⟨item :: queue, closed⟩ }
        some (.ready (.ok out), d)
      else
        match item with
        | .error e => some (.ready (.error e), d.cancel)
        | .ok segment =>
            let remaining := d.remaining - satI64 segment.length
            if remaining < i64Min then none
            else receive cap closed queue { d with remaining, buf := segment, pos := 0 }

/-- `poll_read`, into a buffer with room for `cap` bytes: the bytes that it puts there.  An end of
file is a read of no bytes. -/
def pollRead (cap : ℕ) (d : DownloadReader) :
    Option (Poll (Except Error (List UInt8)) × DownloadReader) :=
  if cap = 0 then some (.ready (.ok []), d)
  else
    match d.rx with
    | some channel => receive cap channel.closed channel.queue d
    | none =>
        if d.pos < d.buf.length then
          let (out, d) := serve cap d
          some (.ready (.ok out), d)
        else some (.ready (.ok []), { d with complete := true })

end DownloadReader

/-! ## Runs

The producer pushes results and goes; the reader reads into a buffer of any size, zero included.
-/

/-- The bytes that a read added. -/
def delivered : Poll (Except Error (List UInt8)) → List UInt8
  | .ready (.ok out) => out
  | _ => []

@[simp] lemma delivered_ok (out : List UInt8) : delivered (.ready (.ok out)) = out := rfl

@[simp] lemma delivered_error (e : Error) : delivered (.ready (.error e)) = [] := rfl

@[simp] lemma delivered_pending : delivered .pending = [] := rfl

/-- A read returned an error. -/
def isError : Poll (Except Error (List UInt8)) → Bool
  | .ready (.error _) => true
  | _ => false

/-- A download, what it has delivered, and whether a read returned an error. -/
structure Session where
  reader : DownloadReader
  out : List UInt8
  erred : Bool

/-- What the producer and the reader do.  A segment is a vector, which is not longer than the
address space allows. -/
inductive Event where
  | send (segment : List UInt8) (hfits : segment.length ≤ isizeMax)
  | fail (e : Error)
  | close
  | pollRead (cap : ℕ)

namespace Session

/-- A new download. -/
def start (total : ℤ) : Session := ⟨.streaming total, [], false⟩

/-- Something is sent, unless the reader has dropped the channel or the producer is gone. -/
def push (s : Session) (item : Except Error (List UInt8)) : Session :=
  match s.reader.rx with
  | some ⟨queue, false⟩ =>
      { s with reader := { s.reader with rx := some ⟨queue ++ [item], false⟩ } }
  | _ => s

/-- One event: the task sends a segment, fails or closes its channel, or the caller polls for bytes.
-/
def step (s : Session) : Event → Option Session
  | .send segment _ => some (s.push (.ok segment))
  | .fail e => some (s.push (.error e))
  | .close =>
      match s.reader.rx with
      | some channel =>
          some { s with reader := { s.reader with rx := some { channel with closed := true } } }
      | none => some s
  | .pollRead cap =>
      (s.reader.pollRead cap).map fun r => ⟨r.2, s.out ++ delivered r.1, s.erred || isError r.1⟩

/-! ## The invariant

An equation between the bytes delivered, the buffer and the bytes owed, and what is known of a
download without a channel.
-/

/-- Every segment in a queue fits. -/
def Fits (queue : List (Except Error (List UInt8))) : Prop :=
  ∀ segment, .ok segment ∈ queue → segment.length ≤ isizeMax

/-- **Nothing is lost**: what was delivered, what is in the buffer and what is owed are the total;
and without a channel all was delivered, or a read returned an error. -/
structure Sound (total : ℤ) (s : Session) : Prop where
  pos_le : s.reader.pos ≤ s.reader.buf.length
  total_eq : s.out.length + (s.reader.buf.length - s.reader.pos : ℕ) + s.reader.remaining = total
  fits : ∀ channel, s.reader.rx = some channel → Fits channel.queue
  gone : s.reader.rx = none → s.reader.pos = s.reader.buf.length ∧
    (s.erred = true ∨ s.reader.remaining = 0)
  erred : s.erred = true → s.reader.rx = none

lemma sound_start (total : ℤ) : (start total).Sound total where
  pos_le := le_rfl
  total_eq := by simp [start, DownloadReader.streaming]
  fits channel h := by
    cases h
    nofun
  gone := nofun
  erred := nofun

end Session

/-! ## One read

Every way out of a read, with what it does to the equation.
-/

open Session

/-- What a read does that answers `r` and leaves `d`, of a download that had delivered `out` and
whose flag was `complete`. -/
structure ReadOutcome (total : ℤ) (out : List UInt8) (complete : Bool)
    (r : Poll (Except Error (List UInt8))) (d : DownloadReader) : Prop where
  sound : Sound total ⟨d, out ++ delivered r, isError r⟩
  eof : r = .ready (.ok []) → (out.length : ℤ) = total
  sets : d.complete = true → complete = true ∨ ((out ++ delivered r).length : ℤ) = total

namespace DownloadReader

variable {total : ℤ} {out : List UInt8} {cap : ℕ} {d : DownloadReader}

/-- The buffer loses what a read hands out, and a read hands out at least one byte. -/
lemma outcome_serve {channel : Channel} (hcap : 0 < cap) (hpos : d.pos < d.buf.length)
    (htotal : out.length + (d.buf.length - d.pos : ℕ) + d.remaining = total)
    (hrx : d.rx = some channel) (hfits : Fits channel.queue) :
    ReadOutcome total out d.complete (.ready (.ok (serve cap d).1)) (serve cap d).2 := by
  obtain ⟨complete, buf, pos, rx, remaining⟩ := d
  simp only at hpos htotal hrx
  subst hrx
  have hlen : ((buf.drop pos).take (min cap (buf.length - pos))).length
      = min cap (buf.length - pos) := by
    rw [List.length_take, List.length_drop, min_assoc, min_self]
  have hsum : ((out ++ (buf.drop pos).take (min cap (buf.length - pos))).length : ℤ)
      + (buf.length - (pos + min cap (buf.length - pos)) : ℕ) + remaining = total := by
    rw [List.length_append, hlen]
    omega
  refine ⟨⟨?_, ?_, ?_, ?_, nofun⟩, ?_, ?_⟩
  · simp only [serve]
    split <;> (simp only; omega)
  · simp only [serve, delivered_ok]
    split <;> exact hsum
  · intro c hc
    have hc' : c = channel := by
      simp only [serve] at hc
      split at hc <;> exact (Option.some.inj hc).symm
    exact hc' ▸ hfits
  · intro hnone
    simp only [serve] at hnone
    split at hnone <;> cases hnone
  · intro heof
    simp only [serve, Poll.ready.injEq, Except.ok.injEq] at heof
    have hzero : min cap (buf.length - pos) = 0 := by rw [← hlen, heof, List.length_nil]
    omega
  · intro hcomplete
    simp only [serve] at hcomplete
    split at hcomplete
    · next hdone =>
      obtain ⟨hend, howed⟩ := hdone
      refine .inr ?_
      simp only [serve, delivered_ok]
      omega
    · exact .inl hcomplete

/-- A read that fails drops the channel. -/
lemma outcome_error (hend : d.pos = d.buf.length)
    (htotal : out.length + (d.buf.length - d.pos : ℕ) + d.remaining = total) (e : Error) :
    ReadOutcome total out d.complete (.ready (.error e)) d.cancel where
  sound :=
    { pos_le := hend.le
      total_eq := by rwa [delivered_error, List.append_nil]
      fits := nofun
      gone := fun _ => ⟨hend, .inl rfl⟩
      erred := fun _ => rfl }
  eof := nofun
  sets h := .inl h

/-- **The loop** keeps the account: a segment that is taken moves from what is owed to the buffer.
-/
lemma outcome_receive {closed : Bool} {r : Poll (Except Error (List UInt8))} {d' : DownloadReader}
    (hcap : 0 < cap) : ∀ {queue : List (Except Error (List UInt8))} {d : DownloadReader},
    d.pos ≤ d.buf.length → out.length + (d.buf.length - d.pos : ℕ) + d.remaining = total →
    Fits queue → receive cap closed queue d = some (r, d') → ReadOutcome total out d.complete r d'
  | [], d, hpos, htotal, hfits, h => by
      rw [receive] at h
      split at h
      · next hlt =>
        cases h
        exact outcome_serve (d := { d with rx := some ⟨[], closed⟩ }) hcap hlt htotal rfl hfits
      · next hge =>
        have hend : d.pos = d.buf.length := by omega
        split at h
        · simp only at h
          split at h
          · cases h
            exact outcome_error hend htotal _
          · next howed =>
            have hzero : d.remaining = 0 := not_not.mp howed
            have hall : (out.length : ℤ) = total := by
              rw [hend, Nat.sub_self] at htotal
              omega
            cases h
            refine ⟨⟨hpos, ?_, nofun, fun _ => ⟨hend, .inr hzero⟩, nofun⟩, fun _ => hall,
              fun _ => .inr ?_⟩
            · rwa [delivered_ok, List.append_nil]
            · rwa [delivered_ok, List.append_nil]
        · cases h
          refine ⟨⟨hpos, ?_, ?_, nofun, nofun⟩, nofun, .inl⟩
          · rwa [delivered_pending, List.append_nil]
          · intro channel hchannel
            cases hchannel
            exact hfits
  | item :: queue, d, hpos, htotal, hfits, h => by
      rw [receive.eq_def] at h
      simp only at h
      split at h
      · next hlt =>
        cases h
        exact outcome_serve (d := { d with rx := some ⟨item :: queue, closed⟩ }) hcap hlt htotal
          rfl hfits
      · next hge =>
        have hend : d.pos = d.buf.length := by omega
        cases item with
        | error e =>
            cases h
            exact outcome_error hend htotal e
        | ok segment =>
            have hsegment : satI64 segment.length = segment.length :=
              satI64_natCast (hfits segment List.mem_cons_self)
            simp only [hsegment] at h
            split at h
            · cases h
            · refine outcome_receive (d := { d with
                remaining := d.remaining - segment.length, buf := segment, pos := 0 }) hcap
                (Nat.zero_le _) ?_ (fun t ht => hfits t (List.mem_cons_of_mem _ ht)) h
              simp only [hend, Nat.sub_self, Nat.sub_zero] at htotal ⊢
              omega

/-- Whether a read assigns `complete`: it is the flag that the read leaves when it finds it clear.
-/
def setsComplete (cap : ℕ) (d : DownloadReader) : Bool :=
  match pollRead cap { d with complete := false } with
  | some (_, d) => d.complete
  | none => false

/-- No branch looks at `complete`. -/
lemma receive_complete {closed : Bool} (b : Bool) : ∀ (queue : List (Except Error (List UInt8)))
    (d : DownloadReader), (receive cap closed queue { d with complete := b }).map Prod.fst
      = (receive cap closed queue d).map Prod.fst
  | [], d => by
      rw [receive, receive]
      simp only [serve, cancel]
      by_cases howed : d.remaining = 0
      · simp only [howed, ne_eq, not_true_eq_false, if_false]
        split_ifs <;> rfl
      · simp only [howed, ne_eq, not_false_eq_true, if_true]
        split_ifs <;> rfl
  | .error e :: queue, d => by
      rw [receive, receive]
      simp only [serve]
      by_cases hlt : d.pos < d.buf.length
      · rw [if_pos hlt, if_pos hlt]
        rfl
      · rw [if_neg hlt, if_neg hlt]
        rfl
  | .ok segment :: queue, d => by
      rw [receive, receive]
      simp only [serve]
      by_cases hlt : d.pos < d.buf.length
      · rw [if_pos hlt, if_pos hlt]
        rfl
      · rw [if_neg hlt, if_neg hlt]
        by_cases hmin : d.remaining - satI64 segment.length < i64Min
        · rw [if_pos hmin, if_pos hmin]
        · rw [if_neg hmin, if_neg hmin]
          exact receive_complete b queue
            { d with remaining := d.remaining - satI64 segment.length, buf := segment, pos := 0 }

lemma pollRead_complete (b : Bool) (d : DownloadReader) :
    (pollRead cap { d with complete := b }).map Prod.fst = (pollRead cap d).map Prod.fst := by
  obtain ⟨complete, buf, pos, rx, remaining⟩ := d
  rw [pollRead, pollRead]
  by_cases hcap : cap = 0
  · rw [if_pos hcap, if_pos hcap]
    rfl
  rw [if_neg hcap, if_neg hcap]
  cases rx with
  | some channel =>
      exact receive_complete b channel.queue ⟨complete, buf, pos, some channel, remaining⟩
  | none =>
      by_cases hlt : pos < buf.length
      · simp only [serve, if_pos hlt]
        rfl
      · simp only [if_neg hlt, Option.map_some]

end DownloadReader

namespace Session

open DownloadReader

variable {total : ℤ} {cap : ℕ} {s : Session}

/-- Before the first error, a read does what it should. -/
lemma outcome_pollRead (hs : s.Sound total) (herred : s.erred = false) (hcap : 0 < cap)
    {b : Bool} {r : Poll (Except Error (List UInt8))} {d : DownloadReader}
    (h : pollRead cap { s.reader with complete := b } = some (r, d)) :
    ReadOutcome total s.out b r d := by
  obtain ⟨⟨complete, buf, pos, rx, remaining⟩, out, erred⟩ := s
  rw [pollRead, if_neg hcap.ne'] at h
  cases rx with
  | some channel =>
      exact outcome_receive (d := ⟨b, buf, pos, some channel, remaining⟩) hcap hs.pos_le
        hs.total_eq (hs.fits channel rfl) h
  | none =>
      obtain ⟨hend, herr | hzero⟩ := hs.gone rfl
      · rw [herred] at herr
        cases herr
      simp only at hend hzero
      have hall : (out.length : ℤ) = total := by
        have htotal := hs.total_eq
        simp only [hend, hzero, Nat.sub_self] at htotal
        omega
      simp only [hend, lt_irrefl, if_false] at h
      cases h
      refine ⟨⟨le_rfl, ?_, nofun, fun _ => ⟨rfl, .inr hzero⟩, nofun⟩, fun _ => hall,
        fun _ => .inr ?_⟩
      · simp only [delivered_ok, List.append_nil, Nat.sub_self, hzero]
        omega
      · rwa [delivered_ok, List.append_nil]

/-- After an error, every read is an end of file. -/
lemma pollRead_of_erred (hs : s.Sound total) (herred : s.erred = true) (hcap : 0 < cap) :
    s.reader.pollRead cap = some (.ready (.ok []), { s.reader with complete := true }) := by
  have hrx := hs.erred herred
  rw [pollRead, if_neg hcap.ne', hrx]
  simp only
  rw [if_neg (hs.gone hrx).1.not_lt, hrx]

/-! ## Runs of reads

An end of file is looked at in the state that a run has reached.
-/

/-- Sending adds to the queue only. -/
lemma Sound.push (hs : s.Sound total) {item : Except Error (List UInt8)}
    (hitem : ∀ segment, item = .ok segment → segment.length ≤ isizeMax) :
    (s.push item).Sound total := by
  rw [Session.push]
  split
  · next queue hrx =>
    refine ⟨hs.pos_le, hs.total_eq, ?_, nofun, ?_⟩
    · intro channel hchannel segment hsegment
      cases hchannel
      rcases List.mem_append.mp hsegment with hold | hnew
      · exact hs.fits _ hrx segment hold
      · exact hitem segment (List.mem_singleton.mp hnew).symm
    · intro herred
      rw [hs.erred herred] at hrx
      cases hrx
  · exact hs

lemma Sound.step (hs : s.Sound total) {event : Event} {t : Session}
    (h : s.step event = some t) : t.Sound total := by
  cases event with
  | send segment hfits =>
      cases h
      refine hs.push fun t ht => ?_
      cases ht
      exact hfits
  | fail e =>
      cases h
      exact hs.push nofun
  | close =>
      rw [Session.step] at h
      cases hrx : s.reader.rx with
      | none =>
          rw [hrx] at h
          cases h
          exact hs
      | some channel =>
          rw [hrx] at h
          cases h
          refine ⟨hs.pos_le, hs.total_eq, ?_, nofun, ?_⟩
          · intro c hc
            cases hc
            exact hs.fits channel hrx
          · intro herred
            rw [hs.erred herred] at hrx
            cases hrx
  | pollRead cap =>
      rw [Session.step, Option.map_eq_some_iff] at h
      obtain ⟨⟨r, d⟩, hread, rfl⟩ := h
      rcases Nat.eq_zero_or_pos cap with rfl | hcap
      · rw [pollRead, if_pos rfl] at hread
        cases hread
        simpa [isError] using hs
      · cases herred : s.erred with
        | false => exact (outcome_pollRead hs herred hcap hread).sound
        | true =>
            -- The channel is gone, and the read changes nothing but `complete`.
            rw [pollRead_of_erred hs herred hcap] at hread
            cases hread
            rw [delivered_ok, List.append_nil]
            exact ⟨hs.pos_le, hs.total_eq, hs.fits,
              fun hrx => ⟨(hs.gone hrx).1, .inl rfl⟩, fun _ => hs.erred herred⟩

lemma sound_of_run {events : List Event} (h : Machine.run step (start total) events = some s) :
    s.Sound total :=
  Machine.run_induction (fun _ _ _ hs ht => hs.step ht) (sound_start total) h

/-- **An end of file is honest exactly until the first error.**  At a read with room for bytes, in
any state that a download of `total` bytes reaches: that an end of file and the setting of
`complete` mean that exactly `total` bytes were delivered, and that no end of file follows an error,
holds if and only if no earlier read returned an error. -/
theorem eof_honest {total : ℤ} {events : List Event} {s : Session}
    (hrun : Machine.run step (start total) events = some s) {cap : ℕ} (hcap : 0 < cap)
    {r : Poll (Except Error (List UInt8))} {d : DownloadReader}
    (hread : s.reader.pollRead cap = some (r, d)) :
    ((r = .ready (.ok []) ∨ s.reader.setsComplete cap = true →
        ((s.out ++ delivered r).length : ℤ) = total) ∧
      (s.erred = true → r ≠ .ready (.ok []))) ↔ s.erred = false := by
  have hs := sound_of_run hrun
  constructor
  · rintro ⟨-, hafter⟩
    by_contra herred
    rw [Bool.not_eq_false] at herred
    rw [pollRead_of_erred hs herred hcap] at hread
    cases hread
    exact hafter herred rfl
  · intro herred
    refine ⟨?_, fun h => absurd (herred.symm.trans h) nofun⟩
    rintro (heof | hsets)
    · rw [heof, delivered_ok, List.append_nil]
      exact (outcome_pollRead hs herred hcap hread).eof heof
    · -- The read with the flag cleared answers the same.
      rw [setsComplete] at hsets
      split at hsets
      · next r' d' hclear =>
        have hsame := @pollRead_complete cap false s.reader
        rw [hclear, hread] at hsame
        obtain rfl : r' = r := Option.some.inj hsame
        rcases (outcome_pollRead hs herred hcap hclear).sets hsets with hflag | htotal
        · cases hflag
        · exact htotal
      · cases hsets

/-- A download of three bytes whose channel ends after two. -/
def truncated : List Event :=
  [.send [1, 2] (by decide), .close, .pollRead 8]

theorem eof_honest_truncated :
    ∃ s r d, Machine.run step (start 3) truncated = some s ∧ s.reader.pollRead 8 = some (r, d) ∧
      (((r = .ready (.ok []) ∨ s.reader.setsComplete 8 = true →
        ((s.out ++ delivered r).length : ℤ) = 3) ∧
      (s.erred = true → r ≠ .ready (.ok []))) ↔ s.erred = false) :=
  ⟨_, _, _, rfl, rfl, @eof_honest 3 truncated _ rfl 8 (by decide) _ _ rfl⟩

/-- The read after the error is an end of file, and sets `complete`, with two bytes of three
delivered. -/
theorem eof_after_error :
    ∃ s d, Machine.run step (start 3) (truncated ++ [.pollRead 8]) = some s ∧
      s.reader.pollRead 8 = some (.ready (.ok []), d) ∧ s.erred = true ∧
      s.reader.setsComplete 8 = true ∧ s.out.length = 2 :=
  ⟨_, _, rfl, rfl, rfl, rfl, rfl⟩

end Session

end Storj.Client
