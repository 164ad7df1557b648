import StorjUplink.Client.Download
import StorjUplink.Client.Reader

/-!
# Draining a download

`download_segments` ends with a `Download`: a body that is there, or a channel that a producer
fills with decrypted segments, and the number of bytes that the reader is promised.
`Download.read` is what comes of it in the end.  It is an error if a segment is one, and also if
the segments are not as many bytes as were promised: `poll_read` finds bytes missing when the
channel ends.

`Download.Drains` says the same of the reader itself, read by read: whatever the producer got done
and however the reads fall between, every byte that is read is the next one of the body, no read is
an error, none waits once the producer is through, and an end of file comes after the last byte
only.  `drains_of_read` connects the two.  Its invariant, `Draining`, says what is still owed: what
was delivered, what is in the buffer and the segments owed are the body.
-/

namespace Storj.Client

open MachineInt DownloadReader

/-! ## A download and its reader

The feed of a producer ends with an error or with the end of the channel.  What a reader gets is
stated twice: as a value, and over all runs.
-/

/-- What is put into a channel: a result or, when the producer goes, nothing more. -/
abbrev Fed := Option (Except Error (List UInt8))

/-- What an event puts into the channel. -/
def Event.fed : Event → Option Fed
  | .send segment _ => some (some (.ok segment))
  | .fail e => some (some (.error e))
  | .close => some none
  | .pollRead _ => none

/-- What the producer of a download puts into the channel, to the end. -/
def Download.feed : Download → List Fed
  | .buffered _ => []
  | .streaming sent _ => sent.map some ++ [none]

/-- `Download::new`: a download whose bytes are all in its buffer, without a task behind it. -/
def DownloadReader.new (buf : List UInt8) : DownloadReader where
  complete := false
  buf := buf
  pos := 0
  rx := none
  remaining := 0

/-- A download before the first read. -/
def Download.session : Download → Session
  | .buffered buf => ⟨.new buf, [], false⟩
  | .streaming _ total => .start total

/-- What a reader gets in the end: the segments up to the first error, if they are as many bytes as
were promised. -/
def Download.read : Download → Except Error (List UInt8)
  | .buffered buf => .ok buf
  | .streaming sent total =>
      match sent.mapM id with
      | .error e => .error e
      | .ok segments =>
          if (segments.flatten.length : ℤ) = total then .ok segments.flatten
          else .error missingSegmentData

/-- **A download drains to its body.**  In every run in which the producer does its part, as far as
it got: no read was an error, what was delivered is a beginning of the body, and the next read with
room returns.  It waits only for a producer that is not through, and is an end of file only when the
whole body was delivered. -/
def Download.Drains (d : Download) (body : List UInt8) : Prop :=
  ∀ events s, Machine.run Session.step d.session events = some s →
    events.filterMap Event.fed <+: d.feed →
    s.erred = false ∧ s.out <+: body ∧
      ∀ cap > 0, ∃ r reader, s.reader.pollRead cap = some (r, reader) ∧ isError r = false ∧
        (r = .pending → events.filterMap Event.fed ≠ d.feed) ∧
        (r = .ready (.ok []) → s.out = body)

/-! ## What is owed

Between two reads the bytes of the body are in three places, in this order: delivered, in the
buffer, and still in the channel or to come.
-/

/-- **What is owed**: `fed` of the `feed` was put into the channel, and the segments `owed` are to
be read before the channel ends.  Some of them are in the queue, and the others are still to be
fed. -/
structure Draining (feed : List Fed) (body : List UInt8) (s : Session) (fed : List Fed)
    (owed : List (List UInt8)) : Prop where
  erred : s.erred = false
  body_eq : s.out ++ s.reader.buf.drop s.reader.pos ++ owed.flatten = body
  remaining : s.reader.remaining = owed.flatten.length
  gone : s.reader.rx = none → owed = [] ∧ fed = feed
  channel : ∀ queue closed, s.reader.rx = some ⟨queue, closed⟩ → ∃ queued future,
    queue = queued.map .ok ∧ owed = queued ++ future ∧
      fed ++ (future.map fun segment => some (.ok segment)) ++ (if closed then [] else [none])
        = feed ∧
      (closed = true → future = [])

/-- What a read of a download that drains answers and leaves. -/
structure Drained (feed : List Fed) (body out : List UInt8) (fed : List Fed)
    (r : Poll (Except Error (List UInt8))) (reader : DownloadReader) : Prop where
  fine : isError r = false
  pending : r = .pending → fed ≠ feed
  eof : r = .ready (.ok []) → out = body
  next : ∃ owed, Draining feed body ⟨reader, out ++ delivered r, false⟩ fed owed

section Reads

variable {feed fed : List Fed} {body out : List UInt8} {owed : List (List UInt8)} {cap : ℕ}
  {d : DownloadReader}

lemma serve_fields (cap : ℕ) (d : DownloadReader) :
    (serve cap d).2.buf = d.buf ∧ (serve cap d).2.pos = d.pos + min cap (d.buf.length - d.pos) ∧
      (serve cap d).2.rx = d.rx ∧ (serve cap d).2.remaining = d.remaining := by
  rw [serve]
  dsimp only
  split_ifs
  · exact ⟨rfl, rfl, rfl, rfl⟩
  · exact ⟨rfl, rfl, rfl, rfl⟩

/-- A read out of the buffer. -/
lemma Draining.serve (h : Draining feed body ⟨d, out, false⟩ fed owed) (hcap : 0 < cap)
    (hpos : d.pos < d.buf.length) :
    Drained feed body out fed (.ready (.ok (serve cap d).1)) (serve cap d).2 := by
  obtain ⟨hbuf, hnext, hrx, hremaining⟩ := serve_fields cap d
  have hout : (DownloadReader.serve cap d).1
      = (d.buf.drop d.pos).take (min cap (d.buf.length - d.pos)) := rfl
  refine ⟨rfl, (fun h => by cases h), fun heof => ?_, owed, ⟨rfl, ?_, ?_, ?_, ?_⟩⟩
  · -- at least one byte was read
    have hnil : (DownloadReader.serve cap d).1 = [] := Except.ok.inj (Poll.ready.inj heof)
    have hlen := congrArg List.length (hout.symm.trans hnil)
    rw [List.length_take, List.length_drop, List.length_nil] at hlen
    omega
  · rw [← h.body_eq, delivered_ok, hout, hbuf, hnext, ← List.drop_drop, List.append_assoc out,
      List.take_append_drop]
  · exact hremaining.trans h.remaining
  · intro hnone
    exact h.gone (hrx.symm.trans hnone)
  · intro queue closed hchannel
    exact h.channel queue closed (hrx.symm.trans hchannel)

/-- **The loop of `poll_read`** on a channel. -/
lemma Draining.receive (hfits : (body.length : ℤ) ≤ i64Max) (hcap : 0 < cap) {closed : Bool}
    {future : List (List UInt8)}
    (hfeed : fed ++ (future.map fun segment => some (.ok segment))
      ++ (if closed then [] else [none]) = feed) (hlast : closed = true → future = [])
    (queued : List (List UInt8)) (d : DownloadReader)
    (hbody : out ++ d.buf.drop d.pos ++ (queued ++ future).flatten = body)
    (hremaining : d.remaining = (queued ++ future).flatten.length) :
    ∃ r reader, receive cap closed (queued.map .ok) d = some (r, reader) ∧
      Drained feed body out fed r reader := by
  -- with the queue put back, the download is as it was
  have hback : ∀ (queued : List (List UInt8)) (d : DownloadReader),
      out ++ d.buf.drop d.pos ++ (queued ++ future).flatten = body →
      d.remaining = (queued ++ future).flatten.length →
      Draining feed body ⟨{ d with rx := some ⟨queued.map .ok, closed⟩ }, out, false⟩ fed
        (queued ++ future) := by
    intro queued d hbody hremaining
    refine ⟨rfl, hbody, hremaining, (fun h => by cases h), fun queue c hchannel => ?_⟩
    cases hchannel
    exact ⟨queued, future, rfl, rfl, hfeed, hlast⟩
  induction queued generalizing d with
  | nil =>
      rw [List.map_nil, DownloadReader.receive]
      split_ifs with hpos hclosed
      · exact ⟨_, _, rfl, (hback [] d hbody hremaining).serve hcap hpos⟩
      · -- the channel is at its end, and nothing is owed
        have hnone := hlast hclosed
        rw [hnone, List.append_nil, List.flatten_nil, List.append_nil,
          List.drop_of_length_le (not_lt.mp hpos), List.append_nil] at hbody
        rw [hnone, List.append_nil, List.flatten_nil, List.length_nil, Nat.cast_zero] at hremaining
        rw [hnone, List.map_nil, List.append_nil, if_pos hclosed, List.append_nil] at hfeed
        dsimp only
        rw [if_neg (by rw [DownloadReader.cancel]; exact not_not.mpr hremaining)]
        refine ⟨_, _, rfl, rfl, (fun h => by cases h), fun _ => hbody, [],
          ⟨rfl, ?_, hremaining, fun _ => ⟨rfl, hfeed⟩, (fun _ _ hopen => by cases hopen)⟩⟩
        show out ++ [] ++ d.buf.drop d.pos ++ [] = body
        rw [List.drop_of_length_le (not_lt.mp hpos), List.append_nil, List.append_nil,
          List.append_nil]
        exact hbody
      · refine ⟨_, _, rfl, rfl, fun _ hall => ?_, (fun h => by cases h), [] ++ future, ?_⟩
        · rw [if_neg hclosed, List.append_assoc, ← hall] at hfeed
          have hlen := congrArg List.length hfeed
          rw [List.length_append, List.length_append, List.length_singleton] at hlen
          omega
        · rw [delivered_pending, List.append_nil]
          exact hback [] d hbody hremaining
  | cons segment queued ih =>
      rw [List.map_cons, DownloadReader.receive]
      split_ifs with hpos
      · exact ⟨_, _, rfl, (hback (segment :: queued) d hbody hremaining).serve hcap hpos⟩
      · -- the next segment goes into the buffer
        rw [List.cons_append, List.flatten_cons, List.drop_of_length_le (not_lt.mp hpos),
          List.append_nil, ← List.append_assoc] at hbody
        rw [List.cons_append, List.flatten_cons, List.length_append, Nat.cast_add] at hremaining
        have hlen := congrArg List.length hbody
        rw [List.length_append, List.length_append] at hlen
        have hsat : satI64 segment.length = segment.length :=
          satI64_of_nonneg (Int.natCast_nonneg _) (by omega)
        have hleft : d.remaining - satI64 segment.length
            = ((queued ++ future).flatten.length : ℤ) := by
          rw [hsat, hremaining]
          omega
        dsimp only
        rw [hleft, if_neg (by rw [i64Min]; omega)]
        exact ih _ hbody rfl

/-- **A read.** -/
lemma Draining.pollRead (hfits : (body.length : ℤ) ≤ i64Max)
    (h : Draining feed body ⟨d, out, false⟩ fed owed) (hcap : 0 < cap) :
    ∃ r reader, d.pollRead cap = some (r, reader) ∧ Drained feed body out fed r reader := by
  rw [DownloadReader.pollRead, if_neg hcap.ne']
  cases hrx : d.rx with
  | some channel =>
      obtain ⟨queue, closed⟩ := channel
      obtain ⟨queued, future, rfl, rfl, hfeed, hlast⟩ := h.channel queue closed hrx
      exact Draining.receive hfits hcap hfeed hlast queued d h.body_eq h.remaining
  | none =>
      dsimp only
      split_ifs with hpos
      · exact ⟨_, _, rfl, h.serve hcap hpos⟩
      · obtain ⟨rfl, hall⟩ := h.gone hrx
        have hbody : out = body := by
          have := h.body_eq
          rwa [List.drop_of_length_le (not_lt.mp hpos), List.append_nil, List.flatten_nil,
            List.append_nil] at this
        refine ⟨_, _, rfl, rfl, (fun h => by cases h), fun _ => hbody, [],
          ⟨rfl, ?_, h.remaining, fun _ => ⟨rfl, hall⟩, (fun _ _ hopen => by cases hopen)⟩⟩
        rw [delivered_ok, List.append_nil]
        exact h.body_eq

end Reads

/-! ## Runs

The producer and the reader take turns as they like.  What the producer feeds is a beginning of its
feed, so that it is always the next segment that is owed, or the end when none is. -/

section Runs

variable {feed fed : List Fed} {body : List UInt8} {owed : List (List UInt8)} {s t : Session}

/-- Where there is more to feed, the channel is open. -/
lemma Draining.next_fed (h : Draining feed body s fed owed) {x : Fed} (hx : fed ++ [x] <+: feed) :
    ∃ queued future, s.reader.rx = some ⟨queued.map .ok, false⟩ ∧ owed = queued ++ future ∧
      [x] <+: (future.map fun segment => some (.ok segment)) ++ [none] ∧
      fed ++ (future.map fun segment => some (.ok segment)) ++ [none] = feed := by
  have hmore : fed ≠ feed := by
    rintro rfl
    have hlen := hx.length_le
    rw [List.length_append, List.length_singleton] at hlen
    omega
  cases hrx : s.reader.rx with
  | none => exact absurd (h.gone hrx).2 hmore
  | some channel =>
      obtain ⟨queue, closed⟩ := channel
      obtain ⟨queued, future, rfl, howed, hfeed, hlast⟩ := h.channel queue closed hrx
      cases closed with
      | true =>
          rw [hlast rfl, List.map_nil, List.append_nil, if_pos rfl, List.append_nil] at hfeed
          exact absurd hfeed hmore
      | false =>
          rw [if_neg Bool.false_ne_true] at hfeed
          refine ⟨queued, future, rfl, howed, ?_, hfeed⟩
          rw [← hfeed, List.append_assoc] at hx
          exact (List.prefix_append_right_inj fed).mp hx

/-- **Step.** -/
lemma Draining.step (hfits : (body.length : ℤ) ≤ i64Max) (h : Draining feed body s fed owed)
    {event : Event} (ht : s.step event = some t) (hfed : fed ++ event.fed.toList <+: feed) :
    ∃ owed', Draining feed body t (fed ++ event.fed.toList) owed' := by
  obtain ⟨d, out, erred⟩ := s
  obtain rfl : erred = false := h.erred
  cases event with
  | send segment hsegment =>
      obtain ⟨queued, future, hrx, rfl, hnext, hfeed⟩ := h.next_fed hfed
      cases future with
      | nil => exact absurd (List.cons_prefix_cons.mp hnext).1 fun h => by cases h
      | cons first future =>
          obtain rfl : segment = first := by
            have heq : some (.ok segment) = (some (.ok first) : Fed) :=
              (List.cons_prefix_cons.mp hnext).1
            exact Except.ok.inj (Option.some.inj heq)
          have hpush : t
              = ⟨{ d with rx := some ⟨queued.map .ok ++ [.ok segment], false⟩ }, out, false⟩ := by
            rw [Session.step, Session.push] at ht
            dsimp only at hrx ht
            rw [hrx] at ht
            exact (Option.some.inj ht).symm
          rw [hpush]
          refine ⟨queued ++ segment :: future, rfl, h.body_eq, h.remaining, (fun h => by cases h),
            fun queue c hc => ?_⟩
          cases hc
          refine ⟨queued ++ [segment], future, ?_, ?_, ?_, (fun h => by cases h)⟩
          · rw [List.map_append, List.map_singleton]
          · rw [List.append_assoc, List.singleton_append]
          · rw [← hfeed, List.map_cons, if_neg Bool.false_ne_true]
            simp [Event.fed]
  | fail e =>
      obtain ⟨queued, future, -, -, hnext, -⟩ := h.next_fed hfed
      cases future with
      | nil => exact absurd (List.cons_prefix_cons.mp hnext).1 fun h => by cases h
      | cons first future =>
          have heq : some (.error e) = (some (.ok first) : Fed) :=
            (List.cons_prefix_cons.mp hnext).1
          cases heq
  | close =>
      obtain ⟨queued, future, hrx, rfl, hnext, hfeed⟩ := h.next_fed hfed
      cases future with
      | cons first future => exact absurd (List.cons_prefix_cons.mp hnext).1 fun h => by cases h
      | nil =>
          have hclose : t = ⟨{ d with rx := some ⟨queued.map .ok, true⟩ }, out, false⟩ := by
            rw [Session.step] at ht
            dsimp only at hrx ht
            rw [hrx] at ht
            exact (Option.some.inj ht).symm
          rw [hclose]
          refine ⟨queued ++ [], rfl, h.body_eq, h.remaining, (fun h => by cases h),
            fun queue c hc => ?_⟩
          cases hc
          refine ⟨queued, [], rfl, rfl, ?_, fun _ => rfl⟩
          rw [← hfeed, if_pos rfl]
          simp [Event.fed]
  | pollRead cap =>
      rw [show (Event.pollRead cap).fed.toList = [] from rfl, List.append_nil]
      rw [Session.step, Option.map_eq_some_iff] at ht
      obtain ⟨⟨r, reader⟩, hread, rfl⟩ := ht
      rcases Nat.eq_zero_or_pos cap with rfl | hcap
      · rw [DownloadReader.pollRead, if_pos rfl] at hread
        cases hread
        refine ⟨owed, rfl, ?_, h.remaining, h.gone, h.channel⟩
        rw [delivered_ok, List.append_nil]
        exact h.body_eq
      · obtain ⟨r', reader', hread', hdrained⟩ := h.pollRead hfits hcap
        have hsame : (r', reader') = (r, reader) := Option.some.inj (hread'.symm.trans hread)
        cases hsame
        rw [hdrained.fine]
        exact hdrained.next

/-- **Run.** -/
lemma Draining.run (hfits : (body.length : ℤ) ≤ i64Max) (h : Draining feed body s fed owed)
    {events : List Event} (ht : Machine.run Session.step s events = some t)
    (hfed : fed ++ events.filterMap Event.fed <+: feed) :
    ∃ owed', Draining feed body t (fed ++ events.filterMap Event.fed) owed' := by
  induction events generalizing s fed owed with
  | nil =>
      cases ht
      rw [List.filterMap_nil, List.append_nil]
      exact ⟨owed, h⟩
  | cons event events ih =>
      have hcons : (event :: events).filterMap Event.fed
          = event.fed.toList ++ events.filterMap Event.fed := by
        rw [List.filterMap_cons]
        cases event.fed with
        | none => rfl
        | some x => rfl
      rw [hcons, ← List.append_assoc] at hfed ⊢
      rw [Machine.run_cons, Option.bind_eq_some_iff] at ht
      obtain ⟨u, hu, ht⟩ := ht
      obtain ⟨owed', hnext⟩ := h.step hfits hu ((List.prefix_append _ _).trans hfed)
      exact ih hnext ht hfed

lemma mapM_id_eq_ok {sent : List (Except Error (List UInt8))} {segments : List (List UInt8)}
    (h : sent.mapM id = .ok segments) : sent = segments.map .ok := by
  induction sent generalizing segments with
  | nil =>
      cases h
      rfl
  | cons item sent ih =>
      rw [List.mapM_cons] at h
      cases item with
      | error e => cases h
      | ok segment =>
          cases hrest : sent.mapM id with
          | error e =>
              rw [hrest] at h
              cases h
          | ok rest =>
              rw [hrest] at h
              cases h
              rw [List.map_cons, ← ih hrest]

/-- A download that reads well begins with its body owed. -/
lemma Download.draining_session {d : Download} (h : d.read = .ok body) :
    ∃ owed, Draining d.feed body d.session [] owed := by
  cases d with
  | buffered buf =>
      cases h
      exact ⟨[], rfl, List.append_nil _, rfl, fun _ => ⟨rfl, rfl⟩, (fun _ _ hopen => by cases hopen)⟩
  | streaming sent total =>
      rw [Download.read] at h
      cases hsent : sent.mapM id with
      | error e =>
          rw [hsent] at h
          cases h
      | ok segments =>
          rw [hsent] at h
          dsimp only at h
          split_ifs at h with htotal
          cases h
          refine ⟨segments, rfl, rfl, htotal.symm, (fun h => by cases h),
            fun queue closed hchannel => ?_⟩
          cases hchannel
          refine ⟨[], segments, rfl, rfl, ?_, (fun h => by cases h)⟩
          rw [Download.feed, mapM_id_eq_ok hsent, List.map_map]
          rfl

/-- **A download that reads well drains to its body.** -/
theorem Download.drains_of_read {d : Download} (h : d.read = .ok body)
    (hfits : (body.length : ℤ) ≤ i64Max) : d.Drains body := by
  intro events s hrun hfed
  obtain ⟨owed, hstart⟩ := d.draining_session h
  obtain ⟨owed', hnow⟩ := hstart.run hfits hrun hfed
  rw [List.nil_append] at hnow
  obtain ⟨d', out, erred⟩ := s
  obtain rfl : erred = false := hnow.erred
  refine ⟨rfl, ?_, fun cap hcap => ?_⟩
  · rw [← hnow.body_eq, List.append_assoc]
    exact List.prefix_append _ _
  · obtain ⟨r, reader, hread, hdrained⟩ := hnow.pollRead hfits hcap
    exact ⟨r, reader, hread, hdrained.fine, hdrained.pending, hdrained.eof⟩

end Runs

end Storj.Client
