import StorjUplink.Client.Error
import StorjUplink.Lib.Machine
import StorjUplink.Lib.MachineInt

/-!
# Uploads, segment by segment

`UploadInner` of `upload.rs` collects what is written in a buffer of one segment.  When a write
finds the buffer full it hands the buffer to a background task that commits it as the next segment,
and goes on filling the empty buffer; a second full buffer waits until the task has ended.
`commit_upload` and `commit_part` of `project.rs` wait for the task, commit what is left as the
last segment and, for an object, send `CommitObject`.

The background task may end at any time, also inside a poll, well or badly.  `World` puts beside
the upload what happened outside it: the segments that `commit_one_segment` committed, whether one
of its calls failed, and the bytes that `poll_write` reported as accepted.  An arithmetic overflow
or a task that panicked ends the run, which is `none` below.

The invariant (`World.Sound`) is one equation: the committed segments, the segment in flight and
the buffer, laid end to end, are the accepted bytes.  It breaks only together with `broken`, and
then the upload is poisoned or will be at its next look at the task (`World.Inv`).
-/

namespace Storj.Client

open MachineInt

/-! ## The upload

The fields and the small functions on them, with the two that may panic returning none.
-/

/-- `MAX_SEGMENT_SIZE`. -/
def maxSegmentSize : ℕ := 64 * 1024 * 1024

/-- `i32::MAX`. -/
def i32Max : ℤ := 2 ^ 31 - 1

/-- `FlushedSegment`. -/
structure FlushedSegment where
  index : ℤ
  plainSize : ℤ
deriving DecidableEq, Repr

/-- `SegmentCommit`: what differs from segment to segment. -/
structure SegmentCommit where
  partNumber : ℤ
  index : ℤ
  plain : List UInt8
  encryptedEtag : List UInt8
deriving DecidableEq, Repr

/-- How a call of `commit_one_segment` ends. -/
inductive Outcome where
  | committed
  | failed (e : Error)
  | panicked
deriving DecidableEq, Repr

/-- The task that `spawn_flush_segment` spawns, as its handle sees it. -/
inductive Flush where
  | running (job : SegmentCommit)
  | finished (result : Except Error FlushedSegment)
  | panicked

/-- `UploadInner`: what is buffered, the counters of the segments that went out, the flush that may
be running, and the error that every later call returns. -/
structure UploadInner where
  plaintext : List UInt8
  nextSegment : ℤ
  totalPlain : ℤ
  lastSegmentPlain : ℤ
  pendingFlush : Option Flush
  partNumber : ℤ
  etag : Option (List UInt8)
  custom : List (String × String)
  failed : Option (ErrorKind × String)

namespace UploadInner

/-- `failed_error`: the error of an upload that failed, with its kind and the text of the first
failure. -/
def failedError (u : UploadInner) : Option Error :=
  u.failed.map fun f => ⟨f.1, "upload failed earlier: " ++ f.2⟩

/-- `poison`: the first error is kept, later ones change nothing. -/
def poison (u : UploadInner) (e : Error) : UploadInner :=
  if u.failed.isNone then { u with failed := some (e.kind, e.toText) } else u

/-- `apply_flush`: the counters after a segment went out.  `none` is the panic of an addition that
overflows. -/
def applyFlush (u : UploadInner) (flushed : FlushedSegment) : Option UploadInner :=
  if flushed.index + 1 > i32Max ∨ u.totalPlain + flushed.plainSize > i64Max then none
  else some { u with
    nextSegment := max u.nextSegment (flushed.index + 1)
    totalPlain := u.totalPlain + flushed.plainSize
    lastSegmentPlain := flushed.plainSize }

/-- `poll_pending_flush`.  There is no state after a panic: the source has taken the handle by
then, and has not poisoned the upload, so that a caller who catches the unwinding could go on
without the segment.  That is not modelled; a run ends with the panic. -/
def pollPendingFlush (u : UploadInner) : Option (Poll (Except Error Unit) × UploadInner) :=
  match u.failedError with
  | some e => some (.ready (.error e), u)
  | none =>
      match u.pendingFlush with
      | none => some (.ready (.ok ()), u)
      | some (.running _) => some (.pending, u)
      | some .panicked => none
      | some (.finished (.error e)) =>
          some (.ready (.error e), poison { u with pendingFlush := none } e)
      | some (.finished (.ok flushed)) =>
          (applyFlush { u with pendingFlush := none } flushed).map fun u => (.ready (.ok ()), u)

/-- `spawn_flush_segment`: a full segment leaves the buffer for a background task, unless one is
running. -/
def spawnFlushSegment (u : UploadInner) : UploadInner :=
  if u.pendingFlush.isSome ∨ u.plaintext.length < maxSegmentSize then u
  else { u with
    plaintext := u.plaintext.drop maxSegmentSize
    pendingFlush := some (.running
      ⟨u.partNumber, u.nextSegment, u.plaintext.take maxSegmentSize, []⟩) }

end UploadInner

/-- `i64::try_from(plain.len())`, what `commit_one_segment` returns when it succeeds. -/
def lastPlain (plain : List UInt8) : ℤ := satI64 plain.length

/-! ## The upload and its surroundings

What the world does between and inside polls is an argument of the operations.
-/

/-- The upload, and what happened outside it. -/
structure World where
  inner : UploadInner
  committed : List SegmentCommit
  broken : Bool
  accepted : List UInt8

namespace World

/-- The background task ends: its segment is committed, or it is lost and the upload is broken from
then on. -/
def background (w : World) (outcome : Outcome) : World :=
  match w.inner.pendingFlush with
  | some (.running job) =>
      match outcome with
      | .committed =>
          { w with
            inner := { w.inner with
              pendingFlush := some (.finished (.ok ⟨job.index, lastPlain job.plain⟩)) }
            committed := w.committed ++ [job] }
      | .failed e =>
          { w with
            inner := { w.inner with pendingFlush := some (.finished (.error e)) }
            broken := true }
      | .panicked =>
          { w with
            inner := { w.inner with pendingFlush := some .panicked }
            broken := true }
  | _ => w

/-- The background task may end before the next look at it. -/
def backgroundOpt (w : World) (event : Option Outcome) : World :=
  match event with
  | some outcome => w.background outcome
  | none => w

@[simp] lemma background_plaintext (w : World) (o : Outcome) :
    (w.background o).inner.plaintext = w.inner.plaintext := by
  rw [background]
  split
  · cases o with
    | committed => rfl
    | failed e => rfl
    | panicked => rfl
  · rfl

@[simp] lemma backgroundOpt_plaintext (w : World) (o : Option Outcome) :
    (w.backgroundOpt o).inner.plaintext = w.inner.plaintext := by
  cases o with
  | none => rfl
  | some o => exact w.background_plaintext o

end World

namespace UploadInner

/-- What a look at the task can find. -/
inductive Look (u : UploadInner) : Poll (Except Error Unit) → UploadInner → Prop
  | failed (e : Error) (h : u.failed.isSome) : Look u (.ready (.error e)) u
  | idle (h : u.failed = none) (hp : u.pendingFlush = none) : Look u (.ready (.ok ())) u
  | busy (job : SegmentCommit) (h : u.failed = none) (hp : u.pendingFlush = some (.running job)) :
      Look u .pending u
  | bad (e : Error) (h : u.failed = none) (hp : u.pendingFlush = some (.finished (.error e))) :
      Look u (.ready (.error e))
        { u with pendingFlush := none, failed := some (e.kind, e.toText) }
  | good (f : FlushedSegment) (u' : UploadInner) (h : u.failed = none)
      (hp : u.pendingFlush = some (.finished (.ok f)))
      (hu : applyFlush { u with pendingFlush := none } f = some u') : Look u (.ready (.ok ())) u'

lemma look_of_pollPendingFlush {u u' : UploadInner} {r : Poll (Except Error Unit)}
    (h : u.pollPendingFlush = some (r, u')) : u.Look r u' := by
  rw [pollPendingFlush] at h
  cases hf : u.failed with
  | some f =>
      rw [failedError, hf] at h
      cases h
      exact .failed _ (by rw [hf]; rfl)
  | none =>
      have hfe : u.failedError = none := by
        rw [failedError, hf]
        rfl
      rw [hfe] at h
      cases hp : u.pendingFlush with
      | none =>
          rw [hp] at h
          cases h
          exact .idle hf hp
      | some flush =>
          rw [hp] at h
          cases flush with
          | running job =>
              cases h
              exact .busy job hf hp
          | panicked => cases h
          | finished result =>
              cases result with
              | error e =>
                  simp only [Option.some.injEq, Prod.mk.injEq] at h
                  obtain ⟨rfl, rfl⟩ := h
                  rw [poison, if_pos (by simp [hf])]
                  exact .bad e hf hp
              | ok f =>
                  obtain ⟨v, hv, heq⟩ := Option.map_eq_some_iff.mp h
                  simp only [Prod.mk.injEq] at heq
                  obtain ⟨rfl, rfl⟩ := heq
                  exact .good f v hf hp hv

/-- A flush that was applied changed the counters only. -/
lemma applyFlush_eq_some {u u' : UploadInner} {f : FlushedSegment}
    (h : u.applyFlush f = some u') :
    u' = { u with
      nextSegment := max u.nextSegment (f.index + 1)
      totalPlain := u.totalPlain + f.plainSize
      lastSegmentPlain := f.plainSize } := by
  rw [applyFlush] at h
  split_ifs at h
  cases h
  rfl

/-- Looking at the task leaves the buffer alone. -/
lemma pollPendingFlush_plaintext {u u' : UploadInner} {r : Poll (Except Error Unit)}
    (h : u.pollPendingFlush = some (r, u')) : u'.plaintext = u.plaintext := by
  cases look_of_pollPendingFlush h with
  | failed e h => rfl
  | idle h hp => rfl
  | busy job h hp => rfl
  | bad e h hp => rfl
  | good f u' h hp hu => rw [applyFlush_eq_some hu]

end UploadInner

namespace World

/-- The loop of `poll_write_inner`.  `events i` says whether the task ends before the `i`-th look at
it. -/
def pollWriteLoop (buf : List UInt8) (events : ℕ → Option Outcome) (i : ℕ) (w : World) :
    Option (Poll (Except Error ℕ) × World) :=
  match _hpoll : (w.backgroundOpt (events i)).inner.pollPendingFlush with
  | none => none
  | some (.ready (.error e), u) =>
      some (.ready (.error e), { w.backgroundOpt (events i) with inner := u })
  | some (r, u) =>
      if r = .pending ∧ maxSegmentSize ≤ u.plaintext.length then
        some (.pending, { w.backgroundOpt (events i) with inner := u })
      else if hfull : maxSegmentSize ≤ u.plaintext.length ∧ u.pendingFlush.isNone then
        pollWriteLoop buf events (i + 1)
          { w.backgroundOpt (events i) with inner := u.spawnFlushSegment }
      else
        let room := maxSegmentSize - u.plaintext.length
        if room = 0 then some (.pending, { w.backgroundOpt (events i) with inner := u })
        else
          let n := min buf.length room
          some (.ready (.ok n), { w.backgroundOpt (events i) with
            inner := { u with plaintext := u.plaintext ++ buf.take n }
            accepted := (w.backgroundOpt (events i)).accepted ++ buf.take n })
termination_by w.inner.plaintext.length
decreasing_by
  have hsame := UploadInner.pollPendingFlush_plaintext _hpoll
  rw [backgroundOpt_plaintext] at hsame
  obtain ⟨hfull, hnone⟩ := hfull
  rw [UploadInner.spawnFlushSegment, if_neg (by
    rw [Option.isNone_iff_eq_none] at hnone
    rw [hnone]
    simpa using hfull), List.length_drop, ← hsame]
  have : 0 < maxSegmentSize := by decide
  omega

/-- `poll_write`: an empty buffer is done at once, without a look at the upload. -/
def pollWrite (buf : List UInt8) (events : ℕ → Option Outcome) (w : World) :
    Option (Poll (Except Error ℕ) × World) :=
  if buf = [] then some (.ready (.ok 0), w) else pollWriteLoop buf events 0 w

/-- `poll_flush`: one look at the background task, which may end right before it. -/
def pollFlush (event : Option Outcome) (w : World) :
    Option (Poll (Except Error Unit) × World) :=
  (w.backgroundOpt event).inner.pollPendingFlush.map fun r =>
    (r.1, { w.backgroundOpt event with inner := r.2 })

end World

/-- What a caller, or the world around it, does to an upload before the commit. -/
inductive Op where
  | pollWrite (buf : List UInt8) (events : ℕ → Option Outcome)
  | pollFlush (event : Option Outcome)
  | background (outcome : Outcome)
  | setCustomMetadata (custom : List (String × String))
  | setEtag (etag : List UInt8)

/-- `verify_custom_metadata`: no key is empty, and neither keys nor values hold a NUL. -/
def verifyCustomMetadata : List (String × String) → Except Error Unit
  | [] => .ok ()
  | (key, value) :: rest =>
      if key = "" then .error ⟨.metadataInvalid, "custom metadata contains an empty key"⟩
      else if '\x00' ∈ key.toList ∨ '\x00' ∈ value.toList then
        .error ⟨.metadataInvalid, "custom metadata contains a NUL byte"⟩
      else verifyCustomMetadata rest

namespace World

/-- One operation. -/
def step (w : World) : Op → Option World
  | .pollWrite buf events => (w.pollWrite buf events).map Prod.snd
  | .pollFlush event => (w.pollFlush event).map Prod.snd
  | .background outcome => some (w.background outcome)
  | .setCustomMetadata custom =>
      match verifyCustomMetadata custom with
      | .error _ => some w
      | .ok () => some { w with inner := { w.inner with custom } }
  | .setEtag etag =>
      if w.inner.etag.isSome then some w
      else some { w with inner := { w.inner with etag := some etag } }

/-- A new upload: `upload_object` with part number 0, `upload_part` with its own. -/
def init (partNumber : ℤ) : World where
  inner :=
    { plaintext := [], nextSegment := 0, totalPlain := 0, lastSegmentPlain := 0
      pendingFlush := none, partNumber, etag := none, custom := [], failed := none }
  committed := []
  broken := false
  accepted := []

/-! ## Commits

A commit waits for the task that is running, and a failed task ends it with an error.
-/

/-- What a commit meets outside: how the task ends if it is still running, how the last call of
`commit_one_segment` ends, and what the calls for `CommitObject` return. -/
structure CommitEnv where
  flush : Outcome
  segment : Outcome
  encryptUserData : List (String × String) → ℤ → ℤ → ℤ → Except Error (List UInt8)
  commitObject : Except Error Unit

/-- The `CommitObject` request, as far as the upload determines it. -/
structure CommitObject where
  segmentSize : ℤ
  lastSegmentSize : ℤ
  numberOfSegments : ℤ
  user : List UInt8

/-- `apply_flush` in a commit. -/
def flushed (w : World) (f : FlushedSegment) : Except Stop Unit × World :=
  match w.inner.applyFlush f with
  | none => (.error .panicked, w)
  | some u => (.ok (), { w with inner := u })

/-- `handle.await??`, and `apply_flush` on what it returned.  A task that has panicked takes the
caller with it. -/
def awaitFlush (outcome : Outcome) (w : World) : Except Stop Unit × World :=
  let w := w.background outcome
  let rest := { w with inner := { w.inner with pendingFlush := none } }
  match w.inner.pendingFlush with
  | none => (.ok (), w)
  | some (.finished (.ok f)) => rest.flushed f
  | some (.finished (.error e)) => (.error (.error e), rest)
  -- a task that was running has just ended
  | some (.running _) | some .panicked => (.error .panicked, rest)

/-- The last segment: what is left in the buffer, or the only segment of an empty upload. -/
def commitLast (etag : List UInt8) (outcome : Outcome) (w : World) : Except Stop Unit × World :=
  if w.inner.plaintext ≠ [] ∨ w.inner.nextSegment = 0 then
    let job : SegmentCommit := ⟨w.inner.partNumber, w.inner.nextSegment, w.inner.plaintext, etag⟩
    let rest := { w with inner := { w.inner with plaintext := [] } }
    match outcome with
    | .committed =>
        { rest with committed := w.committed ++ [job] }.flushed ⟨job.index, lastPlain job.plain⟩
    | .failed e => (.error (.error e), { rest with broken := true })
    | .panicked => (.error .panicked, { rest with broken := true })
  else (.ok (), w)

/-- The part that `commit_upload` and `commit_part` share. -/
def finishSegments (env : CommitEnv) (etag : List UInt8) (w : World) : Except Stop Unit × World :=
  match w.awaitFlush env.flush with
  | (.error stop, w) => (.error stop, w)
  | (.ok (), w) => w.commitLast etag env.segment

/-- How a commit ends: the state, the `CommitObject` request if it was sent, and the content length
of the returned object. -/
structure Committed where
  world : World
  sent : Option CommitObject
  result : Except Stop ℤ

/-- `commit_upload`: what is buffered goes out as the last segment, then the object is committed.
An earlier failure, bad metadata or a segment that fails ends it before the commit is sent. -/
def commitUpload (env : CommitEnv) (w : World) : Committed :=
  match w.inner.failedError with
  | some e => ⟨w, none, .error (.error e)⟩
  | none =>
      match verifyCustomMetadata w.inner.custom with
      | .error e => ⟨w, none, .error (.error e)⟩
      | .ok () =>
          match w.finishSegments env [] with
          | (.error stop, w) => ⟨w, none, .error stop⟩
          | (.ok (), w) =>
              match env.encryptUserData w.inner.custom maxSegmentSize w.inner.lastSegmentPlain
                w.inner.nextSegment with
              | .error e => ⟨w, none, .error (.error e)⟩
              | .ok user =>
                  ⟨w, some ⟨maxSegmentSize, w.inner.lastSegmentPlain, w.inner.nextSegment, user⟩,
                    match env.commitObject with
                    | .error e => .error (.error e)
                    | .ok () => .ok w.inner.totalPlain⟩

/-- `commit_part`: what is buffered goes out as the last segment, with the ETag on it. -/
def commitPart (env : CommitEnv) (w : World) : Except Stop Unit × World :=
  match w.inner.failedError with
  | some e => (.error (.error e), w)
  | none => w.finishSegments env (w.inner.etag.getD [])

/-! ## The invariant

The counters are compared with the number of committed segments.  A flush that has ended and was
not looked at yet is one segment that the counters do not have.
-/

/-- The counters after `n` full segments. -/
structure Counted (u : UploadInner) (n : ℕ) : Prop where
  next_eq : u.nextSegment = n
  total_eq : u.totalPlain = n * maxSegmentSize
  last_eq : u.lastSegmentPlain = if n = 0 then 0 else (maxSegmentSize : ℤ)

/-- The segment in flight. -/
def inFlight : Option Flush → List UInt8
  | some (.running job) => job.plain
  | _ => []

@[simp] lemma inFlight_none : inFlight none = [] := rfl

/-- The counters agree with the committed segments, less one whose flush is not applied yet. -/
def Tracks (u : UploadInner) (n : ℕ) : Option Flush → Prop
  | none => Counted u n
  | some (.running job) => Counted u n ∧ job.index = n ∧ job.plain.length = maxSegmentSize ∧
      job.partNumber = u.partNumber
  | some (.finished (.ok f)) => ∃ m, n = m + 1 ∧ Counted u m ∧ f = ⟨m, maxSegmentSize⟩
  | _ => False

/-- An upload none of whose segments failed. -/
structure Sound (w : World) (p : ℤ) : Prop where
  part_eq : w.inner.partNumber = p
  failed_eq : w.inner.failed = none
  index_eq : w.committed.map SegmentCommit.index
    = (List.range w.committed.length).map fun i : ℕ => (i : ℤ)
  full : ∀ job ∈ w.committed, job.plain.length = maxSegmentSize
  part : ∀ job ∈ w.committed, job.partNumber = p
  room : w.inner.plaintext.length ≤ maxSegmentSize
  content : w.committed.flatMap SegmentCommit.plain ++ inFlight w.inner.pendingFlush
    ++ w.inner.plaintext = w.accepted
  tracks : Tracks w.inner w.committed.length w.inner.pendingFlush

/-- An upload one of whose segments failed knows it, or finds out when it looks at the task. -/
def Poisoned (w : World) : Prop :=
  w.inner.failed.isSome ∨ (∃ e, w.inner.pendingFlush = some (.finished (.error e))) ∨
    w.inner.pendingFlush = some .panicked

/-- The invariant of every run. -/
def Inv (w : World) (p : ℤ) : Prop := if w.broken then w.Poisoned else w.Sound p

variable {p : ℤ}

lemma Inv.of_sound {w : World} (hb : w.broken = false) (h : w.Sound p) : w.Inv p := by
  rw [Inv, hb]
  exact h

lemma Inv.of_poisoned {w : World} (hb : w.broken = true) (h : w.Poisoned) : w.Inv p := by
  rw [Inv, hb]
  exact h

lemma Inv.sound {w : World} (h : w.Inv p) (hb : w.broken = false) : w.Sound p := by
  rw [Inv, hb] at h
  exact h

lemma Inv.poisoned {w : World} (h : w.Inv p) (hb : w.broken = true) : w.Poisoned := by
  rw [Inv, hb] at h
  exact h

lemma maxSegmentSize_pos : 0 < maxSegmentSize := by decide

lemma sound_init (partNumber : ℤ) : (init partNumber).Sound partNumber where
  part_eq := rfl
  failed_eq := rfl
  index_eq := rfl
  full := by simp [init]
  part := by simp [init]
  room := Nat.zero_le _
  content := rfl
  tracks := ⟨rfl, by simp [init], rfl⟩

/-- The size of a full segment fits. -/
lemma lastPlain_full {plain : List UInt8} (h : plain.length ≤ maxSegmentSize) :
    lastPlain plain = plain.length := by
  rw [lastPlain, satI64_natCast]
  have hmax : maxSegmentSize ≤ isizeMax := by decide
  omega

/-- One more segment at the end of the log. -/
lemma index_snoc {log : List SegmentCommit} {job : SegmentCommit}
    (h : log.map SegmentCommit.index = (List.range log.length).map fun i : ℕ => (i : ℤ))
    (hjob : job.index = log.length) :
    (log ++ [job]).map SegmentCommit.index
      = (List.range (log ++ [job]).length).map fun i : ℕ => (i : ℤ) := by
  rw [List.map_append, h, List.length_append, List.length_singleton, List.range_succ,
    List.map_append, List.map_singleton, List.map_singleton, hjob]

/-! ## What the background task does

It ends once, and well or badly.
-/

/-- A task that ends well moves its segment from the flight to the log; one that ends badly leaves
the upload poisoned. -/
lemma Inv.background {w : World} (h : w.Inv p) (o : Outcome) : (w.background o).Inv p := by
  cases hp : w.inner.pendingFlush with
  | none =>
      rw [World.background, hp]
      exact h
  | some flush =>
      cases flush with
      | finished r =>
          rw [World.background, hp]
          exact h
      | panicked =>
          rw [World.background, hp]
          exact h
      | running job =>
          cases hb : w.broken with
          | true =>
              have hfailed : w.inner.failed.isSome := by
                rcases h.poisoned hb with hf | ⟨e, he⟩ | hpanic
                · exact hf
                · rw [hp] at he
                  cases he
                · rw [hp] at hpanic
                  cases hpanic
              rw [World.background, hp]
              cases o with
              | committed => exact .of_poisoned hb (Or.inl hfailed)
              | failed e => exact .of_poisoned rfl (Or.inl hfailed)
              | panicked => exact .of_poisoned rfl (Or.inl hfailed)
          | false =>
              have hs := h.sound hb
              rw [World.background, hp]
              cases o with
              | failed e => exact .of_poisoned rfl (Or.inr (Or.inl ⟨e, rfl⟩))
              | panicked => exact .of_poisoned rfl (Or.inr (Or.inr rfl))
              | committed =>
                  have htracks := hs.tracks
                  rw [hp] at htracks
                  obtain ⟨hcount, hidx, hlen, hpart⟩ := htracks
                  have hcontent := hs.content
                  rw [hp] at hcontent
                  refine .of_sound hb ⟨hs.part_eq, hs.failed_eq, index_snoc hs.index_eq hidx, ?_, ?_, hs.room,
                    ?_, ?_⟩
                  · intro j hj
                    rcases List.mem_append.mp hj with hj | hj
                    · exact hs.full j hj
                    · rw [List.mem_singleton.mp hj]
                      exact hlen
                  · intro j hj
                    rcases List.mem_append.mp hj with hj | hj
                    · exact hs.part j hj
                    · rw [List.mem_singleton.mp hj, hpart, hs.part_eq]
                  · show (w.committed ++ [job]).flatMap SegmentCommit.plain ++ [] ++ _ = _
                    rw [List.flatMap_append, List.flatMap_singleton, List.append_nil]
                    exact hcontent
                  · refine ⟨w.committed.length, by simp, ⟨hcount.1, hcount.2, hcount.3⟩, ?_⟩
                    rw [hidx, lastPlain_full hlen.le, hlen]

lemma Inv.backgroundOpt {w : World} (h : w.Inv p) (o : Option Outcome) : (w.backgroundOpt o).Inv p := by
  cases o with
  | none => exact h
  | some o => exact h.background o

/-! ## Looking at the task

A look takes the result of a task that has ended into the counters, or poisons the upload.
-/

/-- The counters after one more full segment. -/
lemma Counted.applyFlush {u u' : UploadInner} {m : ℕ} (h : Counted u m)
    (hu : u.applyFlush ⟨m, maxSegmentSize⟩ = some u') : Counted u' (m + 1) := by
  rw [UploadInner.applyFlush_eq_some hu]
  refine ⟨?_, ?_, ?_⟩
  · show max u.nextSegment ((m : ℤ) + 1) = _
    rw [h.next_eq]
    push_cast
    omega
  · show u.totalPlain + maxSegmentSize = _
    rw [h.total_eq]
    push_cast
    ring
  · rw [if_neg (Nat.succ_ne_zero m)]

/-- A flush that is found finished is counted. -/
lemma Sound.applyFlush {w : World} (h : w.Sound p) {f : FlushedSegment} {u : UploadInner}
    (hp : w.inner.pendingFlush = some (.finished (.ok f)))
    (hu : UploadInner.applyFlush { w.inner with pendingFlush := none } f = some u) :
    { w with inner := u }.Sound p ∧ u.pendingFlush = none := by
  have htracks := h.tracks
  have hcontent := h.content
  rw [hp] at htracks hcontent
  obtain ⟨m, hm, hcount, rfl⟩ := htracks
  have hbefore : Counted { w.inner with pendingFlush := none } m :=
    ⟨hcount.1, hcount.2, hcount.3⟩
  have hcount' := hbefore.applyFlush hu
  rw [← hm] at hcount'
  have hsame := UploadInner.applyFlush_eq_some hu
  subst hsame
  exact ⟨⟨h.part_eq, h.failed_eq, h.index_eq, h.full, h.part, h.room, hcontent, hcount'⟩, rfl⟩

/-- An upload that shows no sign of a failure had none. -/
lemma Inv.not_broken {w : World} (h : w.Inv p) (hf : w.inner.failed = none)
    (hbad : ∀ e, w.inner.pendingFlush ≠ some (.finished (.error e)))
    (hpanic : w.inner.pendingFlush ≠ some .panicked) : w.broken = false := by
  cases hb : w.broken with
  | false => rfl
  | true =>
      rcases h.poisoned hb with hfail | ⟨e, he⟩ | hp
      · simp [hf] at hfail
      · exact absurd he (hbad e)
      · exact absurd hp hpanic

/-- **A look at the task keeps the invariant**; if it reports no error, the upload is sound. -/
lemma Inv.look {w : World} (h : w.Inv p) {r : Poll (Except Error Unit)} {u : UploadInner}
    (hlook : w.inner.Look r u) : { w with inner := u }.Inv p ∧ ((∀ e, r ≠ .ready (.error e)) →
      w.broken = false ∧ { w with inner := u }.Sound p) := by
  cases hlook with
  | failed e hf => exact ⟨h, fun hr => absurd rfl (hr e)⟩
  | idle hf hp =>
      have hb := h.not_broken hf (by simp [hp]) (by simp [hp])
      exact ⟨h, fun _ => ⟨hb, h.sound hb⟩⟩
  | busy job hf hp =>
      have hb := h.not_broken hf (by simp [hp]) (by simp [hp])
      exact ⟨h, fun _ => ⟨hb, h.sound hb⟩⟩
  | bad e hf hp =>
      refine ⟨.of_poisoned ?_ (Or.inl rfl), fun hr => absurd rfl (hr e)⟩
      show w.broken = true
      by_contra hb
      have htracks := (h.sound (by simpa using hb)).tracks
      rw [hp] at htracks
      exact htracks
  | good f u hf hp hu =>
      have hb := h.not_broken hf (by simp [hp]) (by simp [hp])
      have hs := ((h.sound hb).applyFlush hp hu).1
      exact ⟨.of_sound hb hs, fun _ => ⟨hb, hs⟩⟩

/-! ## Writing

A write fills the buffer, or hands it to a task and goes on; in either case what is accepted is at
the end of what is not yet committed.
-/

/-- The counters and the part number are all that is tracked. -/
lemma Tracks.congr {u u' : UploadInner} {n : ℕ} {flush : Option Flush} (h : Tracks u n flush)
    (hnext : u'.nextSegment = u.nextSegment) (htotal : u'.totalPlain = u.totalPlain)
    (hlast : u'.lastSegmentPlain = u.lastSegmentPlain) (hpart : u'.partNumber = u.partNumber) :
    Tracks u' n flush := by
  have hcount : ∀ {m : ℕ}, Counted u m → Counted u' m := fun hc =>
    ⟨hnext.trans hc.1, htotal.trans hc.2, hlast.trans hc.3⟩
  cases flush with
  | none => exact hcount h
  | some flush =>
      cases flush with
      | running job =>
          obtain ⟨hc, hidx, hlen, hp⟩ := h
          exact ⟨hcount hc, hidx, hlen, hp.trans hpart.symm⟩
      | panicked => exact h
      | finished result =>
          cases result with
          | error e => exact h
          | ok f =>
              obtain ⟨m, hm, hc, hf⟩ := h
              exact ⟨m, hm, hcount hc, hf⟩

/-- Metadata and entity tag are not part of the invariant. -/
lemma Inv.setMeta {w : World} (h : w.Inv p) (custom : List (String × String))
    (etag : Option (List UInt8)) : { w with inner := { w.inner with custom, etag } }.Inv p := by
  cases hb : w.broken with
  | true => exact .of_poisoned rfl (h.poisoned hb)
  | false =>
      have hs := h.sound hb
      exact .of_sound rfl ⟨hs.part_eq, hs.failed_eq, hs.index_eq, hs.full, hs.part, hs.room, hs.content,
        hs.tracks.congr rfl rfl rfl rfl⟩

/-- A full buffer goes into flight. -/
lemma Sound.spawn {w : World} (h : w.Sound p) (hfull : maxSegmentSize ≤ w.inner.plaintext.length)
    (hp : w.inner.pendingFlush = none) :
    { w with inner := w.inner.spawnFlushSegment }.Sound p := by
  have hlen : w.inner.plaintext.length = maxSegmentSize := le_antisymm h.room hfull
  have htracks := h.tracks
  have hcontent := h.content
  rw [hp] at htracks hcontent
  rw [UploadInner.spawnFlushSegment, if_neg (by simpa [hp] using hfull)]
  have htake : w.inner.plaintext.take maxSegmentSize = w.inner.plaintext :=
    List.take_of_length_le h.room
  have hdrop : w.inner.plaintext.drop maxSegmentSize = [] := List.drop_of_length_le h.room
  rw [htake, hdrop]
  refine ⟨h.part_eq, h.failed_eq, h.index_eq, h.full, h.part, Nat.zero_le _, ?_, ?_⟩
  · simpa [inFlight] using hcontent
  · exact ⟨⟨htracks.1, htracks.2, htracks.3⟩, htracks.next_eq, hlen, rfl⟩

/-- Accepted bytes go to the end of the buffer. -/
lemma Sound.write {w : World} (h : w.Sound p) (buf : List UInt8) {n : ℕ}
    (hn : n ≤ maxSegmentSize - w.inner.plaintext.length) (hbuf : n ≤ buf.length) :
    { w with
      inner := { w.inner with plaintext := w.inner.plaintext ++ buf.take n }
      accepted := w.accepted ++ buf.take n }.Sound p := by
  refine ⟨h.part_eq, h.failed_eq, h.index_eq, h.full, h.part, ?_, ?_, ?_⟩
  · have hroom := h.room
    show (w.inner.plaintext ++ buf.take n).length ≤ _
    rw [List.length_append, List.length_take]
    omega
  · show _ ++ _ ++ (w.inner.plaintext ++ buf.take n) = w.accepted ++ buf.take n
    rw [← h.content]
    simp only [List.append_assoc]
  · exact h.tracks.congr rfl rfl rfl rfl

/-- **A poll of `poll_write` keeps the invariant.** -/
lemma Inv.pollWriteLoop {buf : List UInt8} {events : ℕ → Option Outcome} {i : ℕ} {w w' : World}
    {r : Poll (Except Error ℕ)} (h : w.Inv p)
    (hrun : w.pollWriteLoop buf events i = some (r, w')) : w'.Inv p := by
  induction hlen : w.inner.plaintext.length using Nat.strong_induction_on generalizing i w with
  | _ n ih =>
      have hbg := h.backgroundOpt (events i)
      rw [World.pollWriteLoop] at hrun
      split at hrun
      · cases hrun
      · next e u hpoll =>
          cases hrun
          exact (hbg.look (UploadInner.look_of_pollPendingFlush hpoll)).1
      · next r' u hne hpoll =>
          have hplain := UploadInner.pollPendingFlush_plaintext hpoll
          rw [backgroundOpt_plaintext] at hplain
          obtain ⟨hb, hs⟩ := (hbg.look (UploadInner.look_of_pollPendingFlush hpoll)).2
            fun e he => hne e (by rw [he])
          dsimp only at hrun
          split_ifs at hrun with hwait hspawn hroom
          · cases hrun
            exact .of_sound hb hs
          · -- the buffer goes into flight, and the loop goes round with an empty one
            obtain ⟨hfull, hnone⟩ := hspawn
            have hspawned : World.Inv { w.backgroundOpt (events i) with
                inner := u.spawnFlushSegment } p :=
              .of_sound hb (hs.spawn hfull (Option.isNone_iff_eq_none.mp hnone))
            refine ih _ ?_ hspawned hrun rfl
            have hpos := maxSegmentSize_pos
            show u.spawnFlushSegment.plaintext.length < n
            rw [UploadInner.spawnFlushSegment, if_neg (by
              rw [Option.isNone_iff_eq_none] at hnone
              simpa [hnone] using hfull), List.length_drop, ← hlen, ← hplain]
            omega
          · cases hrun
            exact .of_sound hb hs
          · cases hrun
            exact .of_sound hb (hs.write buf (Nat.min_le_right _ _) (Nat.min_le_left _ _))

/-- **Every operation keeps the invariant.** -/
theorem Inv.step {w w' : World} (h : w.Inv p) {op : Op} (hstep : w.step op = some w') : w'.Inv p := by
  cases op with
  | pollWrite buf events =>
      obtain ⟨⟨r, w''⟩, hrun, rfl⟩ := Option.map_eq_some_iff.mp hstep
      rw [World.pollWrite] at hrun
      split_ifs at hrun with hnil
      · cases hrun
        exact h
      · exact h.pollWriteLoop hrun
  | pollFlush event =>
      obtain ⟨⟨r, w''⟩, hrun, rfl⟩ := Option.map_eq_some_iff.mp hstep
      obtain ⟨⟨r', u⟩, hpoll, heq⟩ := Option.map_eq_some_iff.mp hrun
      cases heq
      exact ((h.backgroundOpt event).look (UploadInner.look_of_pollPendingFlush hpoll)).1
  | background outcome =>
      cases hstep
      exact h.background outcome
  | setCustomMetadata custom =>
      rw [World.step] at hstep
      split at hstep
      · cases hstep
        exact h
      · cases hstep
        exact h.setMeta custom w.inner.etag
  | setEtag etag =>
      rw [World.step] at hstep
      split_ifs at hstep
      · cases hstep
        exact h
      · cases hstep
        exact h.setMeta w.inner.custom (some etag)

/-! ## Committing

At the end there is no task and no buffer, so all accepted bytes are in committed segments.
-/

/-- The segments of an upload: the bytes cut into segments, all full but the last, none empty
except the only segment of no bytes. -/
structure Partition (p : ℤ) (segments : List SegmentCommit) (data : List UInt8) : Prop where
  part : ∀ s ∈ segments, s.partNumber = p
  index_eq : segments.map SegmentCommit.index
    = (List.range segments.length).map fun i : ℕ => (i : ℤ)
  plain_eq : segments.flatMap SegmentCommit.plain = data
  full : ∀ s ∈ segments.dropLast, s.plain.length = maxSegmentSize
  last : data ≠ [] → ∃ s, segments.getLast? = some s ∧ s.plain ≠ []
  empty : data = [] → segments.length = 1

/-- The counters of an upload whose segments are all committed. -/
structure Totals (u : UploadInner) (segments : List SegmentCommit) (data : List UInt8) : Prop where
  next_eq : u.nextSegment = segments.length
  total_eq : u.totalPlain = data.length
  last_eq : segments.getLast?.map (fun s => (s.plain.length : ℤ)) = some u.lastSegmentPlain

@[simp] lemma background_failed (w : World) (o : Outcome) :
    (w.background o).inner.failed = w.inner.failed := by
  rw [background]
  split
  · cases o with
    | committed => rfl
    | failed e => rfl
    | panicked => rfl
  · rfl

@[simp] lemma background_accepted (w : World) (o : Outcome) :
    (w.background o).accepted = w.accepted := by
  rw [background]
  split
  · cases o with
    | committed => rfl
    | failed e => rfl
    | panicked => rfl
  · rfl

/-- Waiting for the task, when it reports success. -/
lemma Inv.awaitFlush {w w' : World} (h : w.Inv p) (hf : w.inner.failed = none) {o : Outcome}
    (hrun : w.awaitFlush o = (.ok (), w')) :
    w'.broken = false ∧ w'.Sound p ∧ w'.inner.pendingFlush = none ∧ w'.accepted = w.accepted := by
  have hinv := h.background o
  rw [← background_failed w o] at hf
  rw [← background_accepted w o]
  rw [World.awaitFlush] at hrun
  dsimp only at hrun
  generalize w.background o = v at hinv hf hrun ⊢
  cases hp : v.inner.pendingFlush with
  | none =>
      rw [hp] at hrun
      cases hrun
      have hb := hinv.not_broken hf (by simp [hp]) (by simp [hp])
      exact ⟨hb, hinv.sound hb, hp, rfl⟩
  | some flush =>
      rw [hp] at hrun
      cases flush with
      | running job => cases hrun
      | panicked => cases hrun
      | finished result =>
          cases result with
          | error e => cases hrun
          | ok f =>
              have hb := hinv.not_broken hf (by simp [hp]) (by simp [hp])
              dsimp only at hrun
              rw [flushed] at hrun
              split at hrun
              · cases hrun
              · next u hu =>
                  cases hrun
                  obtain ⟨hs, hnone⟩ := (hinv.sound hb).applyFlush hp hu
                  exact ⟨hb, hs, hnone, rfl⟩

/-- All segments of a sound upload with an empty buffer are full. -/
lemma Sound.length_accepted {w : World} (h : w.Sound p) (hp : w.inner.pendingFlush = none) :
    w.accepted.length = w.committed.length * maxSegmentSize + w.inner.plaintext.length := by
  have hsum : ∀ l : List SegmentCommit, (∀ job ∈ l, job.plain.length = maxSegmentSize) →
      (l.flatMap SegmentCommit.plain).length = l.length * maxSegmentSize := by
    intro l
    induction l with
    | nil => simp
    | cons job l ih =>
        intro hall
        rw [List.flatMap_cons, List.length_append, hall job List.mem_cons_self,
          ih fun j hj => hall j (List.mem_cons_of_mem _ hj), List.length_cons, Nat.succ_mul,
          Nat.add_comm]
  have hcontent := h.content
  rw [hp] at hcontent
  rw [← hcontent, List.length_append, List.length_append, hsum _ h.full, inFlight_none,
    List.length_nil, Nat.add_zero]

section Last

variable {w : World} (h : w.Sound p) (hp : w.inner.pendingFlush = none)

include h hp

/-- Without a task, the bytes accepted are those committed and the buffer. -/
lemma Sound.settled : w.committed.flatMap SegmentCommit.plain ++ w.inner.plaintext = w.accepted := by
  have hcontent := h.content
  rwa [hp, inFlight_none, List.append_nil] at hcontent

/-- And the counters are those of the segments committed. -/
lemma Sound.counted : Counted w.inner w.committed.length := by
  have htracks := h.tracks
  rwa [hp] at htracks

/-- The buffer as the last segment, also an empty one if there is no segment yet. -/
lemma Sound.partition_concat {s : SegmentCommit} (hs : s.partNumber = w.inner.partNumber)
    (hindex : s.index = w.inner.nextSegment) (hplain : s.plain = w.inner.plaintext)
    (hlast : w.inner.plaintext ≠ [] ∨ w.inner.nextSegment = 0) :
    Partition p (w.committed ++ [s]) w.accepted := by
  have hcontent := h.settled hp
  have hlen := h.length_accepted hp
  refine ⟨?_, index_snoc h.index_eq (hindex.trans (h.counted hp).next_eq), ?_, ?_, ?_, ?_⟩
  · intro t ht
    rcases List.mem_append.mp ht with ht | ht
    · exact h.part t ht
    · rw [List.mem_singleton.mp ht, hs]
      exact h.part_eq
  · rw [List.flatMap_append, List.flatMap_singleton, hplain]
    exact hcontent
  · rw [List.dropLast_concat]
    exact h.full
  · intro hne
    refine ⟨s, List.getLast?_concat, ?_⟩
    rw [hplain]
    rcases hlast with hbuf | hzero
    · exact hbuf
    · -- the first segment of bytes that are there
      rw [(h.counted hp).next_eq] at hzero
      have hnil : w.committed = [] := List.length_eq_zero_iff.mp (by omega)
      rw [hnil, List.flatMap_nil, List.nil_append] at hcontent
      rw [hcontent]
      exact hne
  · intro hnil
    rw [hnil, List.length_nil] at hlen
    have hpos := maxSegmentSize_pos
    have hzero : w.committed.length * maxSegmentSize = 0 := by omega
    rcases Nat.mul_eq_zero.mp hzero with h0 | h0
    · rw [List.length_append, h0, List.length_singleton]
    · omega

/-- Every byte went out with a full segment. -/
lemma Sound.partition_full (hbuf : w.inner.plaintext = []) (hnext : w.inner.nextSegment ≠ 0) :
    Partition p w.committed w.accepted ∧ Totals w.inner w.committed w.accepted := by
  have htracks := h.counted hp
  have hcontent := h.settled hp
  have hlen := h.length_accepted hp
  have hpos := maxSegmentSize_pos
  rw [hbuf, List.append_nil] at hcontent
  have hsome : w.committed.length ≠ 0 := by
    intro h0
    rw [htracks.next_eq, h0] at hnext
    exact hnext rfl
  obtain ⟨s, hs⟩ : ∃ s, w.committed.getLast? = some s := by
    rw [← Option.isSome_iff_exists, List.getLast?_isSome]
    intro hnil
    rw [hnil] at hsome
    exact hsome rfl
  have hfull := h.full s (List.mem_of_getLast? hs)
  refine ⟨⟨h.part, h.index_eq, hcontent, ?_, ?_, ?_⟩, htracks.next_eq, ?_, ?_⟩
  · intro t ht
    exact h.full t (List.dropLast_subset _ ht)
  · intro _
    refine ⟨s, hs, fun hnil => ?_⟩
    rw [hnil, List.length_nil] at hfull
    omega
  · intro hnil
    rw [hnil, hbuf, List.length_nil, Nat.add_zero] at hlen
    rcases Nat.mul_eq_zero.mp hlen.symm with h0 | h0
    · exact absurd h0 hsome
    · omega
  · rw [htracks.total_eq, hlen, hbuf, List.length_nil]
    push_cast
    ring
  · rw [hs, htracks.last_eq, if_neg hsome, Option.map_some, hfull]

/-- The last segment is what is left in the buffer. -/
lemma Sound.commitLast {w' : World} {etag : List UInt8} {o : Outcome}
    (hrun : w.commitLast etag o = (.ok (), w')) :
    w'.broken = w.broken ∧ w'.accepted = w.accepted ∧
      Partition p w'.committed w.accepted ∧ Totals w'.inner w'.committed w.accepted := by
  rw [World.commitLast] at hrun
  split_ifs at hrun with hlast
  · cases o with
    | failed e => cases hrun
    | panicked => cases hrun
    | committed =>
        dsimp only at hrun
        rw [flushed] at hrun
        split at hrun
        · cases hrun
        · next u hu =>
            cases hrun
            have hcounters := UploadInner.applyFlush_eq_some hu
            subst hcounters
            have htracks := h.counted hp
            have hplain := lastPlain_full h.room
            have hlen := h.length_accepted hp
            refine ⟨rfl, rfl, h.partition_concat hp rfl rfl rfl hlast, ?_, ?_, ?_⟩
            · show max w.inner.nextSegment (w.inner.nextSegment + 1) = _
              rw [htracks.next_eq, List.length_append, List.length_singleton]
              push_cast
              omega
            · show w.inner.totalPlain + lastPlain w.inner.plaintext = _
              rw [htracks.total_eq, hplain, hlen]
              push_cast
              ring
            · rw [List.getLast?_concat]
              exact congrArg some hplain.symm
  · cases hrun
    rw [not_or, not_not] at hlast
    exact ⟨rfl, rfl, h.partition_full hp hlast.1 hlast.2⟩

end Last

/-- What both commits have done when they report success. -/
lemma Inv.finishSegments {w w' : World} (h : w.Inv p) (hf : w.inner.failed = none)
    {env : CommitEnv} {etag : List UInt8} (hrun : w.finishSegments env etag = (.ok (), w')) :
    w'.broken = false ∧ Partition p w'.committed w.accepted ∧
      Totals w'.inner w'.committed w.accepted := by
  rw [World.finishSegments] at hrun
  split at hrun
  · cases hrun
  · next v hv =>
      obtain ⟨hb, hs, hp, hacc⟩ := h.awaitFlush hf hv
      obtain ⟨hb', -, hpart, htotals⟩ := hs.commitLast hp hrun
      rw [hacc] at hpart htotals
      exact ⟨hb'.trans hb, hpart, htotals⟩

/-- The invariant of every run of a new upload. -/
theorem inv_of_run {ops : List Op} {w : World}
    (hrun : Machine.run World.step (init p) ops = some w) : w.Inv p :=
  Machine.run_induction (P := fun w => w.Inv p) (fun _ _ _ h hstep => h.step hstep)
    (.of_sound rfl (sound_init p)) hrun

lemma failed_eq_none_of_failedError {u : UploadInner} (h : u.failedError = none) :
    u.failed = none := by
  rw [UploadInner.failedError, Option.map_eq_none_iff] at h
  exact h

/-- **Nothing is lost or duplicated.**  However an upload was written and however its background
tasks ended: if `CommitObject` is sent, the committed segments are the accepted bytes cut into
segments `0, 1, …`, and the counters in the request and in the returned object are theirs; if a
segment failed, it is not sent.  The same holds of a part whose commit succeeds. -/
theorem commit_segments {ops : List Op} {w : World}
    (hrun : Machine.run World.step (init p) ops = some w) (env : CommitEnv) :
    (∀ req, (w.commitUpload env).sent = some req →
      Partition p (w.commitUpload env).world.committed w.accepted ∧
      Totals (w.commitUpload env).world.inner (w.commitUpload env).world.committed w.accepted ∧
      req.segmentSize = maxSegmentSize ∧
      req.numberOfSegments = (w.commitUpload env).world.inner.nextSegment ∧
      req.lastSegmentSize = (w.commitUpload env).world.inner.lastSegmentPlain ∧
      ∀ n, (w.commitUpload env).result = .ok n → n = w.accepted.length) ∧
    ((w.commitUpload env).world.broken = true → (w.commitUpload env).sent = none) ∧
    ((w.commitPart env).1 = .ok () →
      Partition p (w.commitPart env).2.committed w.accepted ∧
      Totals (w.commitPart env).2.inner (w.commitPart env).2.committed w.accepted) ∧
    ((w.commitPart env).2.broken = true → (w.commitPart env).1 ≠ .ok ()) := by
  have h := inv_of_run hrun
  have hsent : ∀ req, (w.commitUpload env).sent = some req →
      (w.commitUpload env).world.broken = false ∧
      Partition p (w.commitUpload env).world.committed w.accepted ∧
      Totals (w.commitUpload env).world.inner (w.commitUpload env).world.committed w.accepted ∧
      req.segmentSize = maxSegmentSize ∧
      req.numberOfSegments = (w.commitUpload env).world.inner.nextSegment ∧
      req.lastSegmentSize = (w.commitUpload env).world.inner.lastSegmentPlain ∧
      ∀ n, (w.commitUpload env).result = .ok n → n = w.accepted.length := by
    intro req
    rw [commitUpload]
    split
    · intro hreq
      cases hreq
    · next hfail =>
        split
        · intro hreq
          cases hreq
        · split
          · intro hreq
            cases hreq
          · next v hv =>
              obtain ⟨hb, hpart, htotals⟩ :=
                h.finishSegments (failed_eq_none_of_failedError hfail) hv
              split
              · intro hreq
                cases hreq
              · intro hreq
                cases hreq
                refine ⟨hb, hpart, htotals, rfl, rfl, rfl, ?_⟩
                intro n hn
                dsimp only at hn
                split at hn
                · cases hn
                · cases hn
                  exact htotals.total_eq
  have hpart : (w.commitPart env).1 = .ok () →
      (w.commitPart env).2.broken = false ∧
      Partition p (w.commitPart env).2.committed w.accepted ∧
      Totals (w.commitPart env).2.inner (w.commitPart env).2.committed w.accepted := by
    rw [commitPart]
    split
    · intro hok
      cases hok
    · next hfail =>
        intro hok
        exact h.finishSegments (failed_eq_none_of_failedError hfail) (Prod.ext hok rfl)
  refine ⟨fun req hreq => (hsent req hreq).2, ?_, fun hok => (hpart hok).2, ?_⟩
  · intro hb
    cases hs : (w.commitUpload env).sent with
    | none => rfl
    | some req =>
        rw [(hsent req hs).1] at hb
        cases hb
  · intro hb hok
    rw [(hpart hok).1] at hb
    cases hb

/-- A write into a buffer with room for it, with no segment in flight. -/
lemma pollWrite_room {w : World} (hf : w.inner.failed = none) (hp : w.inner.pendingFlush = none)
    {buf : List UInt8} (hbuf : buf ≠ [])
    (hroom : w.inner.plaintext.length + buf.length ≤ maxSegmentSize) :
    w.pollWrite buf (fun _ => none) = some (.ready (.ok buf.length), { w with
      inner := { w.inner with plaintext := w.inner.plaintext ++ buf }
      accepted := w.accepted ++ buf }) := by
  have hpos : 0 < buf.length := List.length_pos_iff.mpr hbuf
  have hpoll : (w.backgroundOpt none).inner.pollPendingFlush
      = some (.ready (.ok ()), w.inner) := by
    show w.inner.pollPendingFlush = _
    rw [UploadInner.pollPendingFlush, UploadInner.failedError, hf, hp]
    rfl
  rw [pollWrite, if_neg hbuf, pollWriteLoop]
  split
  · next h => simp [hpoll] at h
  · next h => simp [hpoll] at h
  · next h =>
      rw [hpoll] at h
      cases h
      have hmin : min buf.length (maxSegmentSize - w.inner.plaintext.length) = buf.length := by
        omega
      dsimp only
      rw [if_neg (by omega), dif_neg (by omega), if_neg (by omega), hmin, List.take_length]
      rfl

/-- A write beside a running task, into a buffer with room. -/
lemma pollWriteLoop_busy {w : World} {job : SegmentCommit} (hf : w.inner.failed = none)
    (hp : w.inner.pendingFlush = some (.running job)) {buf : List UInt8} (hbuf : buf ≠ []) (i : ℕ)
    (hroom : w.inner.plaintext.length + buf.length ≤ maxSegmentSize) :
    w.pollWriteLoop buf (fun _ => none) i = some (.ready (.ok buf.length), { w with
      inner := { w.inner with plaintext := w.inner.plaintext ++ buf }
      accepted := w.accepted ++ buf }) := by
  have hpos : 0 < buf.length := List.length_pos_iff.mpr hbuf
  have hpoll : (w.backgroundOpt none).inner.pollPendingFlush = some (.pending, w.inner) := by
    show w.inner.pollPendingFlush = _
    rw [UploadInner.pollPendingFlush, UploadInner.failedError, hf, hp]
    rfl
  rw [pollWriteLoop]
  split
  · next h => simp [hpoll] at h
  · next h => simp [hpoll] at h
  · next h =>
      rw [hpoll] at h
      cases h
      have hmin : min buf.length (maxSegmentSize - w.inner.plaintext.length) = buf.length := by
        omega
      dsimp only
      rw [if_neg (by omega), dif_neg (by omega), if_neg (by omega), hmin, List.take_length]
      rfl

/-- A write that finds the buffer full hands it to a task. -/
lemma pollWrite_full {w : World} (hf : w.inner.failed = none) (hp : w.inner.pendingFlush = none)
    (hlen : w.inner.plaintext.length = maxSegmentSize) {buf : List UInt8} (hbuf : buf ≠ [])
    (hsmall : buf.length ≤ maxSegmentSize) :
    w.pollWrite buf (fun _ => none) = some (.ready (.ok buf.length), { w with
      inner := { w.inner with
        plaintext := buf
        pendingFlush := some (.running
          ⟨w.inner.partNumber, w.inner.nextSegment, w.inner.plaintext, []⟩) }
      accepted := w.accepted ++ buf }) := by
  have hpoll : (w.backgroundOpt none).inner.pollPendingFlush
      = some (.ready (.ok ()), w.inner) := by
    show w.inner.pollPendingFlush = _
    rw [UploadInner.pollPendingFlush, UploadInner.failedError, hf, hp]
    rfl
  have hspawn : w.inner.spawnFlushSegment = { w.inner with
      plaintext := []
      pendingFlush := some (.running
        ⟨w.inner.partNumber, w.inner.nextSegment, w.inner.plaintext, []⟩) } := by
    rw [UploadInner.spawnFlushSegment, if_neg (by simp [hp, hlen]), ← hlen, List.drop_length,
      List.take_length]
  rw [pollWrite, if_neg hbuf, pollWriteLoop]
  split
  · next h => simp [hpoll] at h
  · next h => simp [hpoll] at h
  · next h =>
      rw [hpoll] at h
      cases h
      dsimp only
      rw [if_neg (by simp), dif_pos ⟨hlen.ge, by rw [hp]; rfl⟩, hspawn]
      -- the task runs now, and the buffer is empty
      have hroom : ([] : List UInt8).length + buf.length ≤ maxSegmentSize := by
        rw [List.length_nil, Nat.zero_add]
        exact hsmall
      refine pollWriteLoop_busy ?_ rfl hbuf _ ?_
      · exact hf
      · exact hroom

/-- Sixty-four mebibytes. -/
def wholeSegment : List UInt8 := List.replicate maxSegmentSize 0

lemma length_wholeSegment : wholeSegment.length = maxSegmentSize := List.length_replicate

/-- An upload with one segment committed in the background, and a byte after it. -/
def flushedWorld (segment : List UInt8) : World :=
  { init 0 with
    inner := { (init 0).inner with
      plaintext := [1]
      pendingFlush := some (.finished (.ok ⟨0, maxSegmentSize⟩)) }
    committed := [⟨0, 0, segment, []⟩]
    accepted := segment ++ [1] }

/-- A write past the first segment starts its flush, and the flush ends well. -/
lemma run_flushedWorld {segment : List UInt8} (hlen : segment.length = maxSegmentSize) :
    Machine.run World.step (init 0) [.pollWrite segment fun _ => none,
      .pollWrite [1] fun _ => none, .background .committed] = some (flushedWorld segment) := by
  have hne : segment ≠ [] := by
    rintro rfl
    exact maxSegmentSize_pos.ne hlen
  have hroom : (init 0).inner.plaintext.length + segment.length ≤ maxSegmentSize := by
    rw [hlen]
    exact (Nat.zero_add _).le
  rw [Machine.run_cons, step, pollWrite_room rfl rfl hne hroom]
  show Machine.run World.step _ _ = _
  rw [Machine.run_cons, step, pollWrite_full rfl rfl hlen (List.cons_ne_nil 1 []) maxSegmentSize_pos]
  show Machine.run World.step _ _ = _
  rw [Machine.run_cons, step, background]
  have hlast : (maxSegmentSize : ℤ) = lastPlain segment := by rw [lastPlain_full hlen.le, hlen]
  rw [flushedWorld, hlast]
  rfl

/-- The commit of that upload: the byte is its second segment. -/
lemma sent_flushedWorld (segment : List UInt8) : ∃ req,
    ((flushedWorld segment).commitUpload
      ⟨.committed, .committed, fun _ _ _ _ => .ok [], .ok ()⟩).sent = some req ∧
    req.numberOfSegments = 2 ∧ req.lastSegmentSize = 1 :=
  ⟨_, rfl, rfl, rfl⟩

/-- A segment goes out behind the write of one more byte, and the byte makes the second. -/
theorem commit_segments_two_segments : ∃ w, Machine.run World.step (init 0)
      [.pollWrite wholeSegment fun _ => none, .pollWrite [1] fun _ => none,
        .background .committed] = some w ∧
    (∃ req, (w.commitUpload ⟨.committed, .committed, fun _ _ _ _ => .ok [], .ok ()⟩).sent
      = some req ∧ req.numberOfSegments = 2 ∧ req.lastSegmentSize = 1) ∧
    Partition 0 (w.commitUpload ⟨.committed, .committed, fun _ _ _ _ => .ok [],
      .ok ()⟩).world.committed (wholeSegment ++ [1]) := by
  have hrun := run_flushedWorld length_wholeSegment
  obtain ⟨req, hreq, hnumber, hlast⟩ := sent_flushedWorld wholeSegment
  have hsent := (commit_segments hrun
    ⟨.committed, .committed, fun _ _ _ _ => .ok [], .ok ()⟩).1 req hreq
  exact ⟨_, hrun, ⟨req, hreq, hnumber, hlast⟩, hsent.1⟩

end World

end Storj.Client
