import StorjUplink.Client.Upload

/-!
# Failed uploads

`Upload` and `PartUpload` of `upload.rs` hold an `UploadInner` until they are committed or aborted.
Once a background flush has failed and a poll has said so, `failed` is set; its documentation says
that every later write, flush, shutdown and commit returns the error.

`Handle` is either of the two with what happened outside it, and `Handle.call` is any of its
methods.  A handle that failed is frozen: no call adds to its buffer, starts a flush or sends
`CommitObject`, and writes, flushes and commits return errors (`Handle.Dead.call`).
`poll_shutdown` does not look at `failed` and always succeeds, so the documentation holds of all
methods but this one (`failure_sticky`).
-/

namespace Storj.Client

open World

/-! ## Handles

The methods of the two types, each as it begins: with the check whether the `UploadInner` is still
there.
-/

/-- `Upload`, or `PartUpload`; `taken` when the `UploadInner` was taken out for a commit or an
abort. -/
structure Handle where
  isPart : Bool
  world : World
  taken : Bool

/-- What a caller can do with a handle, and the end of its background task. -/
inductive Call where
  | pollWrite (buf : List UInt8) (events : ℕ → Option Outcome)
  | pollFlush (event : Option Outcome)
  | pollShutdown
  | setCustomMetadata (custom : List (String × String))
  | setEtag (etag : List UInt8)
  | commit (env : CommitEnv)
  | abort (event : Option Outcome) (deleted : Except Error Unit)
  | background (outcome : Outcome)

/-- What a call returns; a commit also with the `CommitObject` request, if it was sent. -/
inductive Answer where
  | wrote (r : Poll (Except Error ℕ))
  | polled (r : Poll (Except Error Unit))
  | set (r : Except Error Unit)
  | committed (r : Except Stop Unit) (sent : Option CommitObject)
  | aborted (r : Except Error Unit)
  | nothing

/-- `upload_done`. -/
def uploadDone : Error := ⟨.uploadDone, "upload done: already committed or aborted"⟩

namespace Handle

/-- A new handle. -/
def new (isPart : Bool) (partNumber : ℤ) : Handle := ⟨isPart, init partNumber, false⟩

/-- `poll_write` of the handle: after a commit or an abort it fails, before that it is the write of
the upload. -/
def pollWrite (buf : List UInt8) (events : ℕ → Option Outcome) (h : Handle) :
    Option (Answer × Handle) :=
  if h.taken then some (.wrote (.ready (.error uploadDone)), h)
  else (h.world.pollWrite buf events).map fun r => (.wrote r.1, { h with world := r.2 })

/-- `poll_flush` of the handle: after a commit or an abort it fails, before that it is the flush of
the upload. -/
def pollFlush (event : Option Outcome) (h : Handle) : Option (Answer × Handle) :=
  if h.taken then some (.polled (.ready (.error uploadDone)), h)
  else (h.world.pollFlush event).map fun r => (.polled r.1, { h with world := r.2 })

/-- `set_custom_metadata`: after a commit or an abort it fails, and metadata that does not verify is
not kept. -/
def setCustomMetadata (custom : List (String × String)) (h : Handle) : Answer × Handle :=
  if h.taken then (.set (.error uploadDone), h)
  else
    match verifyCustomMetadata custom with
    | .error e => (.set (.error e), h)
    | .ok () => (.set (.ok ()),
        { h with world := { h.world with inner := { h.world.inner with custom } } })

/-- `set_etag` of the handle, which works once. -/
def setEtag (etag : List UInt8) (h : Handle) : Answer × Handle :=
  if h.taken then (.set (.error uploadDone), h)
  else if h.world.inner.etag.isSome then (.set (.error ⟨.protocol, "etag already set"⟩), h)
  else (.set (.ok ()),
    { h with world := { h.world with inner := { h.world.inner with etag := some etag } } })

/-- `Upload::commit` and `PartUpload::commit`: the inner upload is taken whatever the outcome, so
that a second call fails. -/
def commit (env : CommitEnv) (h : Handle) : Answer × Handle :=
  if h.taken then (.committed (.error (.error uploadDone)) none, h)
  else if h.isPart then
    let r := h.world.commitPart env
    (.committed r.1 none, { h with world := r.2, taken := true })
  else
    let c := h.world.commitUpload env
    (.committed (c.result.map fun _ => ()) c.sent, { h with world := c.world, taken := true })

/-- `Upload::abort` and `PartUpload::abort`: a flush that is still running is stopped, unless it
ends before that.  An object is deleted, a part is left as it is. -/
def abort (event : Option Outcome) (deleted : Except Error Unit) (h : Handle) :
    Option (Answer × Handle) :=
  if h.taken then some (.aborted (.error uploadDone), h)
  else
    let w := h.world.backgroundOpt event
    match w.inner.pendingFlush with
    | some .panicked => none
    | _ => some (.aborted (if h.isPart then .ok () else deleted), { h with
        world := { w with inner := { w.inner with pendingFlush := none } }, taken := true })

/-- One call.  A shutdown is answered without a look at the upload. -/
def call (h : Handle) : Call → Option (Answer × Handle)
  | .pollWrite buf events => h.pollWrite buf events
  | .pollFlush event => h.pollFlush event
  | .pollShutdown => some (.polled (.ready (.ok ())), h)
  | .setCustomMetadata custom => some (h.setCustomMetadata custom)
  | .setEtag etag => some (h.setEtag etag)
  | .commit env => some (h.commit env)
  | .abort event deleted => h.abort event deleted
  | .background outcome => some (.nothing, { h with world := h.world.background outcome })

/-- The handle after a call. -/
def step (h : Handle) (c : Call) : Option Handle := (h.call c).map Prod.snd

end Handle

/-- A call returned an error. -/
def Answer.IsError : Answer → Prop
  | .wrote (.ready (.error _)) => True
  | .polled (.ready (.error _)) => True
  | .committed (.error (.error _)) _ => True
  | _ => False

/-- The `CommitObject` request that a call sent. -/
def Answer.sent : Answer → Option CommitObject
  | .committed _ sent => sent
  | _ => none

/-- The calls that are to return the error: writes of something, flushes, shutdowns and commits. -/
def Call.Reports : Call → Prop
  | .pollWrite buf _ => buf ≠ []
  | .pollFlush _ => True
  | .pollShutdown => True
  | .commit _ => True
  | _ => False

/-- The polls that look at the background task. -/
def Call.Looks : Call → Prop
  | .pollWrite _ _ => True
  | .pollFlush _ => True
  | _ => False

/-! ## Frozen handles

After a failure has been reported nothing that matters changes any more.
-/

/-- **Nothing happened to an upload** but that its metadata, its entity tag or its hold on the
`UploadInner` changed. -/
structure Frozen (h h' : Handle) : Prop where
  plaintext : h'.world.inner.plaintext = h.world.inner.plaintext
  pendingFlush : h'.world.inner.pendingFlush = h.world.inner.pendingFlush
  failed : h'.world.inner.failed = h.world.inner.failed
  committed : h'.world.committed = h.world.committed
  accepted : h'.world.accepted = h.world.accepted

lemma Frozen.refl (h : Handle) : Frozen h h := ⟨rfl, rfl, rfl, rfl, rfl⟩

lemma Frozen.trans {h₁ h₂ h₃ : Handle} (h : Frozen h₁ h₂) (h' : Frozen h₂ h₃) : Frozen h₁ h₃ :=
  ⟨h'.plaintext.trans h.plaintext, h'.pendingFlush.trans h.pendingFlush, h'.failed.trans h.failed,
    h'.committed.trans h.committed, h'.accepted.trans h.accepted⟩

namespace World

variable {w : World}

/-- Without a task nothing happens in the background. -/
lemma background_of_none (hp : w.inner.pendingFlush = none) (o : Outcome) : w.background o = w := by
  rw [background, hp]

lemma backgroundOpt_of_none (hp : w.inner.pendingFlush = none) (o : Option Outcome) :
    w.backgroundOpt o = w := by
  cases o with
  | none => rfl
  | some o => exact background_of_none hp o

/-- A failed upload says so at every look. -/
lemma pollPendingFlush_of_failed (hf : w.inner.failed.isSome) :
    ∃ e, w.inner.pollPendingFlush = some (.ready (.error e), w.inner) := by
  obtain ⟨f, hf⟩ := Option.isSome_iff_exists.mp hf
  rw [UploadInner.pollPendingFlush, UploadInner.failedError, hf]
  exact ⟨_, rfl⟩

lemma failedError_of_failed (hf : w.inner.failed.isSome) :
    ∃ e, w.inner.failedError = some e := by
  obtain ⟨f, hf⟩ := Option.isSome_iff_exists.mp hf
  rw [UploadInner.failedError, hf]
  exact ⟨_, rfl⟩

lemma pollWrite_of_failed (hf : w.inner.failed.isSome) (hp : w.inner.pendingFlush = none)
    {buf : List UInt8} (hbuf : buf ≠ []) (events : ℕ → Option Outcome) :
    ∃ e, w.pollWrite buf events = some (.ready (.error e), w) := by
  obtain ⟨e, he⟩ := pollPendingFlush_of_failed hf
  refine ⟨e, ?_⟩
  rw [pollWrite, if_neg hbuf, pollWriteLoop, backgroundOpt_of_none hp]
  split
  · next h => simp [he] at h
  · next h =>
      rw [he] at h
      cases h
      rfl
  · next hne h =>
      rw [he] at h
      cases h
      exact absurd rfl (hne e)

lemma pollFlush_of_failed (hf : w.inner.failed.isSome) (hp : w.inner.pendingFlush = none)
    (event : Option Outcome) : ∃ e, w.pollFlush event = some (.ready (.error e), w) := by
  obtain ⟨e, he⟩ := pollPendingFlush_of_failed hf
  refine ⟨e, ?_⟩
  rw [pollFlush, backgroundOpt_of_none hp, he]
  rfl

/-- A failed upload has no task. -/
def Quiet (w : World) : Prop := w.inner.failed.isSome → w.inner.pendingFlush = none

lemma Quiet.background (h : w.Quiet) (o : Outcome) : (w.background o).Quiet := by
  intro hf
  rw [background_failed] at hf
  rw [background_of_none (h hf)]
  exact h hf

lemma Quiet.backgroundOpt (h : w.Quiet) (o : Option Outcome) : (w.backgroundOpt o).Quiet := by
  cases o with
  | none => exact h
  | some o => exact h.background o

/-- A look at the task leaves no task with a failed upload, and an error means that it failed. -/
lemma Quiet.look (h : w.Quiet) {r : Poll (Except Error Unit)} {u : UploadInner}
    (hlook : w.inner.Look r u) : { w with inner := u }.Quiet ∧
      ((∃ e, r = .ready (.error e)) → u.failed.isSome) ∧
      ((∀ e, r ≠ .ready (.error e)) → u.failed = none) := by
  cases hlook with
  | failed e hf => exact ⟨h, fun _ => hf, fun hr => absurd rfl (hr e)⟩
  | idle hf hp => exact ⟨h, nofun, fun _ => hf⟩
  | busy job hf hp => exact ⟨h, nofun, fun _ => hf⟩
  | bad e hf hp => exact ⟨fun _ => rfl, fun _ => rfl, fun hr => absurd rfl (hr e)⟩
  | good f u hf hp hu =>
      have hsame := UploadInner.applyFlush_eq_some hu
      subst hsame
      exact ⟨fun _ => rfl, nofun, fun _ => hf⟩

lemma Quiet.pollWriteLoop {buf : List UInt8} {events : ℕ → Option Outcome} {i : ℕ} {w w' : World}
    {r : Poll (Except Error ℕ)} (h : w.Quiet)
    (hrun : w.pollWriteLoop buf events i = some (r, w')) :
    w'.Quiet ∧ ((∃ e, r = .ready (.error e)) → w'.inner.failed.isSome) := by
  induction hlen : w.inner.plaintext.length using Nat.strong_induction_on generalizing i w with
  | _ n ih =>
      have hbg := h.backgroundOpt (events i)
      rw [World.pollWriteLoop] at hrun
      split at hrun
      · cases hrun
      · next e u hpoll =>
          cases hrun
          obtain ⟨hq, hfail, _⟩ := hbg.look (UploadInner.look_of_pollPendingFlush hpoll)
          exact ⟨hq, fun _ => hfail ⟨e, rfl⟩⟩
      · next r' u hne hpoll =>
          have hplain := UploadInner.pollPendingFlush_plaintext hpoll
          rw [backgroundOpt_plaintext] at hplain
          obtain ⟨hq, _, hnone⟩ := hbg.look (UploadInner.look_of_pollPendingFlush hpoll)
          have hnone := hnone fun e he => hne e (by rw [he])
          dsimp only at hrun
          split_ifs at hrun with hwait hspawn hroom
          · cases hrun
            exact ⟨hq, by simp⟩
          · -- a flush is started only where nothing has failed
            refine ih _ ?_ ?_ hrun rfl
            · obtain ⟨hfull, hfree⟩ := hspawn
              have hpos := maxSegmentSize_pos
              show u.spawnFlushSegment.plaintext.length < n
              rw [UploadInner.spawnFlushSegment, if_neg (by
                rw [Option.isNone_iff_eq_none] at hfree
                simpa [hfree] using hfull), List.length_drop, ← hlen, ← hplain]
              omega
            · intro hf
              have hf : u.spawnFlushSegment.failed.isSome := hf
              rw [UploadInner.spawnFlushSegment] at hf
              split_ifs at hf
              · rw [hnone] at hf
                cases hf
              · dsimp only at hf
                rw [hnone] at hf
                cases hf
          · cases hrun
            exact ⟨hq, by simp⟩
          · cases hrun
            exact ⟨hq, by simp⟩

end World

/-- **A handle whose upload failed.** -/
structure Handle.Dead (h : Handle) : Prop where
  failed : h.world.inner.failed.isSome
  pendingFlush : h.world.inner.pendingFlush = none

namespace Handle

variable {h h' : Handle}

lemma Dead.of_frozen (hd : h.Dead) (hz : Frozen h h') : h'.Dead :=
  ⟨hz.failed ▸ hd.failed, hz.pendingFlush.trans hd.pendingFlush⟩

lemma setCustomMetadata_frozen (h : Handle) (custom : List (String × String)) :
    Frozen h (h.setCustomMetadata custom).2 ∧ (h.setCustomMetadata custom).1.sent = none := by
  rw [Handle.setCustomMetadata]
  split
  · exact ⟨.refl h, rfl⟩
  · split
    · exact ⟨.refl h, rfl⟩
    · exact ⟨⟨rfl, rfl, rfl, rfl, rfl⟩, rfl⟩

lemma setEtag_frozen (h : Handle) (etag : List UInt8) :
    Frozen h (h.setEtag etag).2 ∧ (h.setEtag etag).1.sent = none := by
  rw [Handle.setEtag]
  split_ifs
  · exact ⟨.refl h, rfl⟩
  · exact ⟨.refl h, rfl⟩
  · exact ⟨⟨rfl, rfl, rfl, rfl, rfl⟩, rfl⟩

/-- A commit of a failed upload returns before it does anything. -/
lemma Dead.commit (hd : h.Dead) (env : CommitEnv) :
    Frozen h (h.commit env).2 ∧ (h.commit env).1.sent = none ∧ (h.commit env).1.IsError := by
  obtain ⟨e, he⟩ := failedError_of_failed hd.failed
  rw [Handle.commit]
  split_ifs with htaken hpart
  · exact ⟨.refl h, rfl, trivial⟩
  · rw [commitPart, he]
    exact ⟨⟨rfl, rfl, rfl, rfl, rfl⟩, rfl, trivial⟩
  · rw [commitUpload, he]
    exact ⟨⟨rfl, rfl, rfl, rfl, rfl⟩, rfl, trivial⟩

/-- **What a call can do to a failed upload**: nothing. -/
lemma Dead.call (hd : h.Dead) (c : Call) : ∃ a h', h.call c = some (a, h') ∧ Frozen h h' ∧
    a.sent = none ∧ (c.Reports → (a.IsError ↔ c ≠ .pollShutdown)) := by
  have hfrozen : ∀ taken, Frozen h { h with taken } := fun _ => ⟨rfl, rfl, rfl, rfl, rfl⟩
  cases c with
  | pollWrite buf events =>
      rw [Handle.call, Handle.pollWrite]
      split_ifs with htaken
      · exact ⟨_, _, rfl, .refl h, rfl, fun _ => ⟨fun _ => by simp, fun _ => trivial⟩⟩
      · by_cases hbuf : buf = []
        · rw [World.pollWrite, if_pos hbuf]
          exact ⟨_, _, rfl, hfrozen _, rfl, fun hr => absurd hbuf hr⟩
        · obtain ⟨e, he⟩ := pollWrite_of_failed hd.failed hd.pendingFlush hbuf events
          rw [he]
          exact ⟨_, _, rfl, hfrozen _, rfl, fun _ => ⟨fun _ => by simp, fun _ => trivial⟩⟩
  | pollFlush event =>
      rw [Handle.call, Handle.pollFlush]
      split_ifs with htaken
      · exact ⟨_, _, rfl, .refl h, rfl, fun _ => ⟨fun _ => by simp, fun _ => trivial⟩⟩
      · obtain ⟨e, he⟩ := pollFlush_of_failed hd.failed hd.pendingFlush event
        rw [he]
        exact ⟨_, _, rfl, hfrozen _, rfl, fun _ => ⟨fun _ => by simp, fun _ => trivial⟩⟩
  | pollShutdown =>
      exact ⟨_, _, rfl, .refl h, rfl, fun _ => ⟨fun herr => herr.elim, fun hne => absurd rfl hne⟩⟩
  | setCustomMetadata custom =>
      obtain ⟨hz, hsent⟩ := setCustomMetadata_frozen h custom
      exact ⟨_, _, rfl, hz, hsent, fun hr => hr.elim⟩
  | setEtag etag =>
      obtain ⟨hz, hsent⟩ := setEtag_frozen h etag
      exact ⟨_, _, rfl, hz, hsent, fun hr => hr.elim⟩
  | commit env =>
      obtain ⟨hz, hsent, herr⟩ := hd.commit env
      exact ⟨_, _, rfl, hz, hsent, fun _ => ⟨fun _ => by simp, fun _ => herr⟩⟩
  | abort event deleted =>
      rw [Handle.call, Handle.abort]
      by_cases htaken : h.taken = true
      · rw [if_pos htaken]
        exact ⟨_, _, rfl, .refl h, rfl, fun hr => hr.elim⟩
      · rw [if_neg htaken]
        dsimp only
        rw [backgroundOpt_of_none hd.pendingFlush, hd.pendingFlush]
        exact ⟨_, _, rfl, ⟨rfl, hd.pendingFlush.symm, rfl, rfl, rfl⟩, rfl, fun hr => hr.elim⟩
  | background outcome =>
      refine ⟨_, _, rfl, ?_, rfl, fun hr => hr.elim⟩
      rw [background_of_none hd.pendingFlush]
      exact .refl h

/-- **Whole runs of a failed upload.** -/
lemma Dead.run (hd : h.Dead) (calls : List Call) :
    ∃ h', Machine.run Handle.step h calls = some h' ∧ Frozen h h' := by
  induction calls generalizing h with
  | nil => exact ⟨h, rfl, .refl h⟩
  | cons c calls ih =>
      obtain ⟨a, h₁, hcall, hz, _⟩ := hd.call c
      obtain ⟨h₂, hrun, hz'⟩ := ih (hd.of_frozen hz)
      refine ⟨h₂, ?_, hz.trans hz'⟩
      rw [Machine.run_cons, Handle.step, hcall]
      exact hrun

/-! ## How a handle fails

The failure is noticed at a look at the task, and from then on there is no task.
-/

/-- A poll of an open handle: it leaves no task with a failed upload, and an error means that it
failed. -/
lemma poll_quiet (hq : h.world.Quiet) (htaken : h.taken = false) {c : Call} (hc : c.Looks)
    {a : Answer} (hcall : h.call c = some (a, h')) :
    h'.world.Quiet ∧ (a.IsError → h'.Dead) := by
  cases c with
  | pollWrite buf events =>
      rw [Handle.call, Handle.pollWrite, htaken, if_neg Bool.false_ne_true] at hcall
      obtain ⟨⟨r, w⟩, hrun, heq⟩ := Option.map_eq_some_iff.mp hcall
      cases heq
      rw [World.pollWrite] at hrun
      split_ifs at hrun with hnil
      · cases hrun
        exact ⟨hq, fun herr => herr.elim⟩
      · obtain ⟨hq', hfail⟩ := hq.pollWriteLoop hrun
        refine ⟨hq', fun herr => ?_⟩
        have hf : w.inner.failed.isSome := by
          refine hfail ?_
          cases r with
          | pending => cases herr
          | ready r =>
              cases r with
              | error e => exact ⟨e, rfl⟩
              | ok n => cases herr
        exact ⟨hf, hq' hf⟩
  | pollFlush event =>
      rw [Handle.call, Handle.pollFlush, htaken, if_neg Bool.false_ne_true] at hcall
      obtain ⟨⟨r, w⟩, hrun, heq⟩ := Option.map_eq_some_iff.mp hcall
      cases heq
      obtain ⟨⟨r', u⟩, hpoll, heq⟩ := Option.map_eq_some_iff.mp hrun
      cases heq
      obtain ⟨hq', hfail, _⟩ :=
        (hq.backgroundOpt event).look (UploadInner.look_of_pollPendingFlush hpoll)
      refine ⟨hq', fun herr => ?_⟩
      have hf : u.failed.isSome := by
        refine hfail ?_
        cases r' with
        | pending => cases herr
        | ready r =>
            cases r with
            | error e => exact ⟨e, rfl⟩
            | ok n => cases herr
      exact ⟨hf, hq' hf⟩
  | pollShutdown => cases hc
  | setCustomMetadata custom => cases hc
  | setEtag etag => cases hc
  | commit env => cases hc
  | abort event deleted => cases hc
  | background outcome => cases hc

/-- An open handle has no task with a failed upload. -/
def Quiet (h : Handle) : Prop := h.taken = false → h.world.Quiet

/-- Nothing gives the `UploadInner` back. -/
lemma taken_of_call {c : Call} {a : Answer} (hcall : h.call c = some (a, h'))
    (htaken : h.taken = true) : h'.taken = true := by
  cases c with
  | pollWrite buf events =>
      rw [Handle.call, Handle.pollWrite, if_pos htaken] at hcall
      cases hcall
      exact htaken
  | pollFlush event =>
      rw [Handle.call, Handle.pollFlush, if_pos htaken] at hcall
      cases hcall
      exact htaken
  | pollShutdown =>
      cases hcall
      exact htaken
  | setCustomMetadata custom =>
      rw [Handle.call, Handle.setCustomMetadata, if_pos htaken] at hcall
      cases hcall
      exact htaken
  | setEtag etag =>
      rw [Handle.call, Handle.setEtag, if_pos htaken] at hcall
      cases hcall
      exact htaken
  | commit env =>
      rw [Handle.call, Handle.commit, if_pos htaken] at hcall
      cases hcall
      exact htaken
  | abort event deleted =>
      rw [Handle.call, Handle.abort, if_pos htaken] at hcall
      cases hcall
      exact htaken
  | background outcome =>
      cases hcall
      exact htaken

lemma Quiet.step (hq : h.Quiet) {c : Call} (hstep : h.step c = some h') : h'.Quiet := by
  obtain ⟨⟨a, h₁⟩, hcall, rfl⟩ := Option.map_eq_some_iff.mp hstep
  intro htaken
  have hopen : h.taken = false := by
    cases hopen : h.taken with
    | false => rfl
    | true => exact (taken_of_call hcall hopen).symm.trans htaken
  have hq := hq hopen
  cases c with
  | pollWrite buf events =>
      have hlooks : (Call.pollWrite buf events).Looks := trivial
      exact (poll_quiet hq hopen hlooks hcall).1
  | pollFlush event =>
      have hlooks : (Call.pollFlush event).Looks := trivial
      exact (poll_quiet hq hopen hlooks hcall).1
  | pollShutdown =>
      cases hcall
      exact hq
  | setCustomMetadata custom =>
      obtain ⟨hz, _⟩ := setCustomMetadata_frozen h custom
      have hafter : (h.setCustomMetadata custom).2 = h₁ := congrArg Prod.snd (Option.some.inj hcall)
      rw [hafter] at hz
      exact fun hf => hz.pendingFlush.trans (hq (hz.failed ▸ hf))
  | setEtag etag =>
      obtain ⟨hz, _⟩ := setEtag_frozen h etag
      have hafter : (h.setEtag etag).2 = h₁ := congrArg Prod.snd (Option.some.inj hcall)
      rw [hafter] at hz
      exact fun hf => hz.pendingFlush.trans (hq (hz.failed ▸ hf))
  | commit env =>
      -- a commit takes the `UploadInner`
      rw [Handle.call, Handle.commit, hopen, if_neg Bool.false_ne_true] at hcall
      split_ifs at hcall
      · cases hcall
        cases htaken
      · cases hcall
        cases htaken
  | abort event deleted =>
      rw [Handle.call, Handle.abort, hopen, if_neg Bool.false_ne_true] at hcall
      dsimp only at hcall
      split at hcall
      · cases hcall
      · cases hcall
        cases htaken
  | background outcome =>
      cases hcall
      exact hq.background outcome

end Handle

/-- **Failures are sticky, but for shutdowns.**  When a poll of an upload or a part has reported
that a flush failed, then in every later run the upload is as it was then: no byte is accepted and
no flush is started; and every next call leaves it so and sends no `CommitObject`.  Of the calls
that the documentation names, exactly the shutdowns do not return the error. -/
theorem failure_sticky {isPart : Bool} {partNumber : ℤ} {before : List Call} {h₀ h₁ : Handle}
    (hbefore : Machine.run Handle.step (.new isPart partNumber) before = some h₀)
    (hopen : h₀.taken = false) {poll : Call} (hpoll : poll.Looks) {answer : Answer}
    (hcall : h₀.call poll = some (answer, h₁)) (herror : answer.IsError) (later : List Call) :
    ∃ h₂, Machine.run Handle.step h₁ later = some h₂ ∧ Frozen h₁ h₂ ∧
      h₂.world.inner.pendingFlush = none ∧
      ∀ c, ∃ a h₃, h₂.call c = some (a, h₃) ∧ Frozen h₂ h₃ ∧ a.sent = none ∧
        (c.Reports → (a.IsError ↔ c ≠ .pollShutdown)) := by
  have hquiet : h₀.Quiet := by
    refine Machine.run_induction (P := Handle.Quiet) (fun _ _ _ h hstep => h.step hstep) ?_ hbefore
    intro _ hf
    cases hf
  have hdead : h₁.Dead := (Handle.poll_quiet (hquiet hopen) hopen hpoll hcall).2 herror
  obtain ⟨h₂, hrun, hz⟩ := hdead.run later
  have hdead₂ := hdead.of_frozen hz
  exact ⟨h₂, hrun, hz, hdead₂.pendingFlush, hdead₂.call⟩

/-! ### A failed flush

The run needs a whole segment, since a shorter buffer is not flushed before the commit.
-/

/-- The error of a flush. -/
def flushError : Error := ⟨.io, "connection reset"⟩

/-- A segment is written, the write of one more byte starts its flush, and the flush fails. -/
def failingCalls (segment : List UInt8) : List Call :=
  [.pollWrite segment fun _ => none, .pollWrite [1] fun _ => none,
    .background (.failed flushError)]

lemma failingCalls_run (isPart : Bool) {segment : List UInt8}
    (hlen : segment.length = maxSegmentSize) : ∃ h₀ h₁,
    Machine.run Handle.step (.new isPart 0) (failingCalls segment) = some h₀ ∧ h₀.taken = false ∧
      h₀.call (.pollFlush none) = some (.polled (.ready (.error flushError)), h₁) := by
  have hpos := maxSegmentSize_pos
  have hne : segment ≠ [] := by
    rintro rfl
    rw [List.length_nil] at hlen
    omega
  have hroom : (init 0).inner.plaintext.length + segment.length ≤ maxSegmentSize := by
    rw [hlen]
    exact (Nat.zero_add _).le
  have hone := pollWrite_room (w := init 0) rfl rfl hne hroom
  generalize hw₁ : ({ init 0 with
      inner := { (init 0).inner with plaintext := (init 0).inner.plaintext ++ segment }
      accepted := (init 0).accepted ++ segment } : World) = w₁ at hone
  have hw₁' : w₁.inner.failed = none ∧ w₁.inner.pendingFlush = none ∧
      w₁.inner.plaintext.length = maxSegmentSize := by
    rw [← hw₁]
    exact ⟨rfl, rfl, hlen⟩
  obtain ⟨hf₁, hp₁, hlen₁⟩ := hw₁'
  obtain ⟨w₂, htwo, hf₂, hp₂⟩ : ∃ w₂, w₁.pollWrite [1] (fun _ => none) = some (.ready (.ok 1), w₂) ∧
      w₂.inner.failed = none ∧ w₂.inner.pendingFlush
        = some (.running ⟨w₁.inner.partNumber, w₁.inner.nextSegment, w₁.inner.plaintext, []⟩) :=
    ⟨_, pollWrite_full hf₁ hp₁ hlen₁ (List.cons_ne_nil 1 []) hpos, hf₁, rfl⟩
  have hbg : w₂.background (.failed flushError) = { w₂ with
      inner := { w₂.inner with pendingFlush := some (.finished (.error flushError)) }
      broken := true } := by
    rw [background, hp₂]
  have hpoll : ∃ h₁, Handle.call ⟨isPart, w₂.background (.failed flushError), false⟩
      (.pollFlush none) = some (.polled (.ready (.error flushError)), h₁) := by
    rw [Handle.call, Handle.pollFlush, if_neg Bool.false_ne_true, World.pollFlush,
      World.backgroundOpt, hbg, UploadInner.pollPendingFlush, UploadInner.failedError]
    dsimp only
    rw [hf₂]
    exact ⟨_, rfl⟩
  obtain ⟨h₁, hpoll⟩ := hpoll
  refine ⟨⟨isPart, w₂.background (.failed flushError), false⟩, h₁, ?_, rfl, hpoll⟩
  rw [failingCalls, Machine.run_cons, Handle.step, Handle.call, Handle.pollWrite, Handle.new,
    if_neg Bool.false_ne_true, hone]
  show Machine.run Handle.step _ _ = _
  rw [Machine.run_cons, Handle.step, Handle.call, Handle.pollWrite, if_neg Bool.false_ne_true,
    htwo]
  rfl

/-- A part whose flush failed is not committed, also after a shutdown. -/
theorem failure_sticky_part : ∃ h₀ h₁ h₂ a h₃,
    Machine.run Handle.step (.new true 0) (failingCalls wholeSegment) = some h₀ ∧
    h₀.call (.pollFlush none) = some (.polled (.ready (.error flushError)), h₁) ∧
    Machine.run Handle.step h₁ [.pollShutdown] = some h₂ ∧
    h₂.call (.commit ⟨.committed, .committed, fun _ _ _ _ => .ok [], .ok ()⟩) = some (a, h₃) ∧
    a.IsError ∧ a.sent = none := by
  obtain ⟨h₀, h₁, hrun, hopen, hpoll⟩ := failingCalls_run true length_wholeSegment
  have hlooks : (Call.pollFlush none).Looks := trivial
  have herror : (Answer.polled (.ready (.error flushError))).IsError := trivial
  obtain ⟨h₂, hlater, _, _, hnext⟩ :=
    failure_sticky hrun hopen hlooks hpoll herror [.pollShutdown]
  obtain ⟨a, h₃, hcall, _, hsent, hreports⟩ :=
    hnext (.commit ⟨.committed, .committed, fun _ _ _ _ => .ok [], .ok ()⟩)
  exact ⟨h₀, h₁, h₂, a, h₃, hrun, hpoll, hlater, hcall, (hreports trivial).mpr nofun, hsent⟩

/-- **A shutdown succeeds after a failed flush has been reported.** -/
theorem shutdown_after_failure : ∃ h₀ h₁,
    Machine.run Handle.step (.new false 0) (failingCalls wholeSegment) = some h₀ ∧
    h₀.call (.pollFlush none) = some (.polled (.ready (.error flushError)), h₁) ∧
    h₁.call .pollShutdown = some (.polled (.ready (.ok ())), h₁) := by
  obtain ⟨h₀, h₁, hrun, _, hpoll⟩ := failingCalls_run false length_wholeSegment
  exact ⟨h₀, h₁, hrun, hpoll, rfl⟩

end Storj.Client
