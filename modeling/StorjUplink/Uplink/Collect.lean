import StorjUplink.Uplink.LongTail

/-!
# Long-tail download

`collect_piece_downloads` of `download.rs` starts one download for each piece that is required and a
margin beyond them.  A download that fails is replaced by the next assignment of the queue; while
pieces are missing a timer starts further ones, out of a budget of their own; and the first
`required` successes end it.  `download_pieces_long_tail` runs it over the assignments of a segment,
and `fetch_one_more` later over what it left.

The outside decides which download ends next and how, and when the timer fires: an `Event` each, so
that a list of events is an interleaving.  How a download ends is given by what `download` makes of
a value of the outside.  `launches` and `joined` are not in the source: they record what was started
and what ended.

The invariant (`Loop.Inv`) has two counts.  While the queue is not empty each failure has been
replaced, so that the downloads that run and those that succeeded are never fewer than required; and
what was started is within the required pieces, the margin or the budget of the timer, and the
failures.

A race whose downloads all come to their end (`Race`) ends itself, and with enough shares if as many
of the assignments as are required are of nodes that deliver (`collectPieceDownloads_race`): had it
run out, every assignment would have been tried, the good ones too.
-/

namespace Storj.Collect

open MachineInt Segment

/-! ## Errors and results

The failures carry the stage in which a download failed and the node, as the caller sorts and
prints them.
-/

/-- `DownloadStage`. -/
inductive DownloadStage where
  | connection
  | validation
  | transfer
deriving DecidableEq, Repr

/-- The errors of a single piece, as far as they are told apart here. -/
inductive PieceError where
  | invalidDownloadRange (offset size : ℤ) (reason : String)
  | downloadLimit (offset size limit : ℤ)
  | orderLimitSignature
  | other (text : String)
deriving DecidableEq, Repr

/-- `PieceDownloadFailure`: which piece at which node, and at which stage it failed. -/
structure PieceDownloadFailure where
  pieceNum : ℤ
  nodeId : NodeId
  stage : DownloadStage
  error : PieceError
deriving DecidableEq, Repr

/-- `PieceDownloadError`: how many pieces were required, obtained and attempted, and the failures.
-/
structure PieceDownloadError where
  required : ℕ
  obtained : ℕ
  attempted : ℕ
  offset : ℤ
  size : ℤ
  failures : List PieceDownloadFailure
deriving DecidableEq, Repr

/-- The errors of `collect_piece_downloads`. -/
inductive Error where
  | invalidDownloadRange (offset size : ℤ) (reason : String)
  | pieceDownload (e : PieceDownloadError)
  | protocol (message : String)
deriving DecidableEq, Repr

/-- The number and the bytes of a piece. -/
abbrev Share := ℤ × List UInt8

/-- `Collected`: the pieces in the order in which they came, and the assignments that were never
started. -/
structure Collected (A : Type) where
  shares : List Share
  unused : List A
deriving DecidableEq, Repr

/-- The numbers that `collect_piece_downloads` is called with; `hedging` says that `hedge_delay` is
not zero. -/
structure Plan where
  required : ℕ
  margin : ℕ
  hedging : Bool
  offset : ℤ
  size : ℤ
  required_le : required ≤ usizeMax

/-! ## The scheduler

The loop of the source with its set of running downloads.  A turn takes one event, and what it
starts comes from the front of the queue.
-/

variable {A δ : Type}

/-- A download that was started: the position of its assignment, and the assignment. -/
structure Task (A : Type) where
  position : ℕ
  assignment : A

/-- The variables of the loop of `collect_piece_downloads`. -/
structure Loop (A δ : Type) where
  queue : List A
  set : List (Task A)
  attempted : ℕ
  successes : List Share
  failures : List PieceDownloadFailure
  hedgesLeft : ℕ
  /-- The assignments that were started. -/
  launches : List A
  /-- The downloads that ended, and how. -/
  joined : List (Task A × δ)

/-- `pop_front`, `spawn` and the count of it: the next assignment in the queue is started, if there
is one. -/
def Loop.launch (s : Loop A δ) : Loop A δ :=
  match s.queue with
  | [] => s
  | asg :: queue =>
      { s with
        queue := queue
        set := s.set ++ [⟨s.attempted, asg⟩]
        attempted := s.attempted + 1
        launches := s.launches ++ [asg] }

/-- The first loop, while so many assignments are left. -/
def Loop.fill (limit : ℕ) : ℕ → Loop A δ → Loop A δ
  | 0, s => s
  | n + 1, s => if s.set.length < limit then fill limit n s.launch else s

/-- How many downloads the timer may start. -/
def hedgeBudget (required : ℕ) : ℕ := min (max ((required + 4) / 5) 2) required

/-- The variables before the loop, with the first downloads started: those required and the margin.
-/
def Loop.start (plan : Plan) (assignments : List A) : Loop A δ :=
  let s : Loop A δ := ⟨assignments, [], 0, [], [], hedgeBudget plan.required - plan.margin, [], []⟩
  s.fill (satUsize (plan.required + plan.margin)) assignments.length

/-- What may happen next: a download, by its place in the set, ends with a value or crashes, or the
timer fires. -/
inductive Event (δ : Type) where
  | joined (i : ℕ) (value : δ)
  | crashed (i : ℕ) (text : String)
  | tick

/-- Where a run stands: before its end with the variables, or at it with the result as well. -/
inductive Status (A δ : Type) where
  | running (s : Loop A δ)
  | finished (result : Except Error (Collected A)) (s : Loop A δ)

/-- The variables, wherever the run stands. -/
def Status.loop : Status A δ → Loop A δ
  | .running s => s
  | .finished _ s => s

/-- `failures.sort_by_key`. -/
def sortFailures (failures : List PieceDownloadFailure) : List PieceDownloadFailure :=
  failures.insertionSort fun a b => a.pieceNum ≤ b.pieceNum

/-- The error of a download that ran out of assignments. -/
def Loop.insufficient (plan : Plan) (s : Loop A δ) : Error :=
  .pieceDownload ⟨plan.required, s.successes.length, s.attempted, plan.offset, plan.size,
    sortFailures s.failures⟩

/-- The body of the loop, for each way in which its `select!` returns.  A hedge starts one more
download, a success may be the last that is needed, and a failure is replaced from the queue. -/
def Loop.step (download : A → δ → Except PieceDownloadFailure Share) (plan : Plan)
    (s : Loop A δ) : Event δ → Status A δ
  | .tick =>
      if plan.hedging && 0 < s.hedgesLeft && !s.queue.isEmpty then
        .running { s.launch with hedgesLeft := s.hedgesLeft - 1 }
      else .running s
  | .crashed i text =>
      match s.set[i]? with
      | none => .running s
      | some _ => .finished (.error (.protocol ("piece download join: " ++ text))) s
  | .joined i value =>
      match s.set[i]? with
      | none => .running s
      | some task =>
          let s := { s with
            set := s.set.eraseIdx i
            joined := s.joined ++ [(task, value)] }
          match download task.assignment value with
          | .ok piece =>
              let s := { s with successes := s.successes ++ [piece] }
              if plan.required ≤ s.successes.length then .finished (.ok ⟨s.successes, s.queue⟩) s
              else .running s
          | .error failure => .running { s with failures := s.failures ++ [failure] }.launch

/-- The loop, over what happens.  It ends with an error when no download is left that runs, and it
runs on when the events give out before that. -/
def collectLoop (download : A → δ → Except PieceDownloadFailure Share) (plan : Plan) :
    Loop A δ → List (Event δ) → Status A δ
  | s, [] => if s.set.isEmpty then .finished (.error (s.insufficient plan)) s else .running s
  | s, e :: events =>
      if s.set.isEmpty then .finished (.error (s.insufficient plan)) s
      else
        match s.step download plan e with
        | .running s => collectLoop download plan s events
        | .finished result s => .finished result s

/-- The variables when nothing was started. -/
def Loop.idle (assignments : List A) : Loop A δ := ⟨assignments, [], 0, [], [], 0, [], []⟩

/-- `collect_piece_downloads`: the checks on the range, the answer for an empty one, and the loop.
-/
def collectPieceDownloads (download : A → δ → Except PieceDownloadFailure Share) (plan : Plan)
    (assignments : List A) (events : List (Event δ)) : Status A δ :=
  if plan.offset < 0 ∨ plan.size < 0 ∨ i64Max < plan.offset + plan.size then
    .finished (.error (.invalidDownloadRange plan.offset plan.size "negative or overflowing range"))
      (.idle assignments)
  else if plan.size = 0 then .finished (.ok ⟨[], assignments⟩) (.idle assignments)
  else collectLoop download plan (.start plan assignments) events

/-! ## The downloads of a segment

The two callers.  Both give the scheduler the assignments that were not tried yet.
-/

/-- What the calls of `download_one_piece` give: no connection, or the result of `get_piece`. -/
inductive Fetched where
  | noConnection (e : PieceError)
  | got (result : Except PieceError (List UInt8))

/-- The stage of an error of `get_piece`. -/
def transferStage : PieceError → DownloadStage
  | .invalidDownloadRange .. => .validation
  | .downloadLimit .. => .validation
  | .orderLimitSignature => .validation
  | .other _ => .transfer

/-- `download_one_piece`, from what its calls give. -/
def downloadOnePiece (asg : PieceAssignment) : Fetched → Except PieceDownloadFailure Share
  | .noConnection e => .error ⟨asg.pieceNum, asg.nodeId, .connection, e⟩
  | .got (.ok data) => .ok (asg.pieceNum, data)
  | .got (.error e) => .error ⟨asg.pieceNum, asg.nodeId, transferStage e, e⟩

/-- `LAUNCH_MARGIN`. -/
def launchMargin : ℕ := 1

/-- `LongTailDownload`, without what only the download of a single piece reads. -/
structure LongTailDownload where
  assignments : List PieceAssignment
  /-- `rs.k`. -/
  k : ℕ
  offset : ℤ
  size : ℤ
  hedging : Bool
  k_le : k ≤ usizeMax

/-- `DownloadedPieces`: the pieces with their range, and the assignments that gave none of them. -/
structure DownloadedPieces where
  shares : List Share
  unused : List PieceAssignment
  offset : ℤ
  size : ℤ

/-- `download_pieces_long_tail`, with the assignments that were not used for the attempts after it.
It is `none` while the race runs. -/
def downloadPiecesLongTail (job : LongTailDownload) (events : List (Event Fetched)) :
    Option (Except Error DownloadedPieces) :=
  let plan : Plan := ⟨job.k, launchMargin, job.hedging, job.offset, job.size, job.k_le⟩
  match collectPieceDownloads downloadOnePiece plan job.assignments events with
  | .running _ => none
  | .finished (.error e) _ => some (.error e)
  | .finished (.ok collected) _ =>
      let unused := job.assignments.filter fun a => a.pieceNum ∉ collected.shares.map Prod.fst
      some (.ok ⟨collected.shares, unused, job.offset, job.size⟩)

/-- `DownloadedPieces::fetch_one_more`, with what it leaves of `self`; no result while it runs, or
when it was dropped. -/
def DownloadedPieces.fetchOneMore (d : DownloadedPieces) (events : List (Event Fetched)) :
    Option (Except Error (Option Share)) × DownloadedPieces :=
  if d.unused.isEmpty then (some (.ok none), d)
  else
    let plan : Plan := ⟨1, 0, false, d.offset, d.size, by decide⟩
    let drained := { d with unused := [] }
    match collectPieceDownloads downloadOnePiece plan d.unused events with
    | .running _ => (none, drained)
    | .finished (.ok collected) _ =>
        (some (.ok collected.shares.head?), { d with unused := collected.unused })
    | .finished (.error (.pieceDownload _)) _ => (some (.ok none), drained)
    | .finished (.error e) _ => (some (.error e), drained)

/-- A call of `fetch_one_more` whose piece is kept with the others. -/
def DownloadedPieces.fetchAndKeep (d : DownloadedPieces) (events : List (Event Fetched)) :
    DownloadedPieces :=
  match d.fetchOneMore events with
  | (some (.ok (some piece)), d) => { d with shares := d.shares ++ [piece] }
  | (_, d) => d

/-! ## The invariant

The counts, and that the downloads were started in the order of the queue.
-/

section

variable (download : A → δ → Except PieceDownloadFailure Share)

/-- The piece of a download that ended. -/
def obtained (x : Task A × δ) : Option Share := (download x.1.assignment x.2).toOption

/-- The failure of a download that ended. -/
def failed (x : Task A × δ) : Option PieceDownloadFailure :=
  match download x.1.assignment x.2 with
  | .ok _ => none
  | .error failure => some failure

/-- The downloads that were started, in the order of the assignments: each runs or has ended. -/
structure Loop.Ordered (assignments : List A) (s : Loop A δ) : Prop where
  order : s.launches ++ s.queue = assignments
  attempted_eq : s.attempted = s.launches.length
  positions : ((s.set ++ s.joined.map Prod.fst).map Task.position).Perm (List.range s.attempted)
  placed : ∀ t ∈ s.set ++ s.joined.map Prod.fst, s.launches[t.position]? = some t.assignment
  successes_eq : s.successes = s.joined.filterMap (obtained download)
  failures_eq : s.failures = s.joined.filterMap (failed download)

/-- **The invariant.** -/
structure Loop.Inv (plan : Plan) (assignments : List A) (s : Loop A δ) : Prop
    extends Loop.Ordered download assignments s where
  replaced : s.queue ≠ [] → plan.required ≤ s.set.length + s.successes.length
  budget : s.attempted + s.hedgesLeft
    ≤ plan.required + max plan.margin (hedgeBudget plan.required) + s.failures.length

end

variable {download : A → δ → Except PieceDownloadFailure Share} {plan : Plan}
  {assignments : List A} {s : Loop A δ}

lemma Loop.Ordered.launch (h : s.Ordered download assignments) :
    s.launch.Ordered download assignments := by
  rw [Loop.launch]
  cases hq : s.queue with
  | nil => exact h
  | cons asg queue =>
      have hlen : s.attempted = s.launches.length := h.attempted_eq
      refine ⟨?_, ?_, ?_, ?_, h.successes_eq, h.failures_eq⟩
      · rw [List.append_assoc, List.singleton_append, ← hq]
        exact h.order
      · simp only [List.length_append, List.length_singleton, hlen]
      · simp only [List.map_append, List.map_cons, List.map_nil, List.append_assoc]
        have hperm := h.positions
        rw [List.map_append] at hperm
        rw [List.range_succ]
        refine List.Perm.trans ?_ (hperm.append_right [s.attempted])
        rw [List.append_assoc]
        exact List.perm_append_comm.append_left _
      · intro t ht
        simp only [List.append_assoc, List.singleton_append, List.mem_append, List.mem_cons] at ht
        by_cases hnew : t = ⟨s.attempted, asg⟩
        · rw [hnew, hlen, List.getElem?_concat_length]
        · have hold : t ∈ s.set ++ s.joined.map Prod.fst := by
            rcases ht with ht | ht | ht
            · exact List.mem_append_left _ ht
            · exact absurd ht hnew
            · exact List.mem_append_right _ ht
          have hp := h.placed t hold
          rw [List.getElem?_append_left (List.getElem?_eq_some_iff.mp hp).1]
          exact hp

/-- What the fields of the counts become when one more download is started. -/
lemma Loop.launch_counts (s : Loop A δ) :
    s.launch.successes = s.successes ∧ s.launch.failures = s.failures ∧
    s.launch.hedgesLeft = s.hedgesLeft ∧
    ((s.queue = [] ∧ s.launch = s) ∨ (s.queue ≠ [] ∧ s.launch.attempted = s.attempted + 1 ∧
      s.launch.set.length = s.set.length + 1 ∧ s.launch.queue.length + 1 = s.queue.length)) := by
  rw [Loop.launch]
  cases hq : s.queue with
  | nil => exact ⟨rfl, rfl, rfl, Or.inl ⟨rfl, rfl⟩⟩
  | cons asg queue => exact ⟨rfl, rfl, rfl, Or.inr ⟨by simp, rfl, by simp, by simp⟩⟩

/-- The first loop starts as many downloads as it may. -/
lemma Loop.fill_spec (limit n : ℕ) (h : s.Ordered download assignments)
    (hn : s.queue.length ≤ n) (hset : s.set.length = s.attempted) (hle : s.attempted ≤ limit) :
    (s.fill limit n).Ordered download assignments ∧
    (s.fill limit n).attempted ≤ limit ∧
    ((s.fill limit n).queue ≠ [] → limit ≤ (s.fill limit n).set.length) ∧
    (s.fill limit n).hedgesLeft = s.hedgesLeft ∧ (s.fill limit n).successes = s.successes ∧
    (s.fill limit n).failures = s.failures := by
  induction n generalizing s with
  | zero =>
      have hq : s.queue = [] := List.length_eq_zero_iff.mp (Nat.le_zero.mp hn)
      exact ⟨h, hle, fun hne => absurd hq hne, rfl, rfl, rfl⟩
  | succ n ih =>
      rw [Loop.fill]
      split_ifs with hroom
      · obtain ⟨hs, hf, hh, hcase⟩ := s.launch_counts
        rcases hcase with ⟨hq, heq⟩ | ⟨-, ha, hl, hq⟩
        · rw [heq]
          exact ih h (by rw [hq]; simp) hset hle
        · obtain ⟨h1, h2, h3, h4, h5, h6⟩ := ih h.launch (by omega) (by omega) (by omega)
          exact ⟨h1, h2, h3, h4.trans hh, h5.trans hs, h6.trans hf⟩
      · exact ⟨h, hle, fun _ => Nat.le_of_not_lt hroom, rfl, rfl, rfl⟩

lemma Loop.inv_start (download : A → δ → Except PieceDownloadFailure Share) (plan : Plan)
    (assignments : List A) :
    (Loop.start plan assignments : Loop A δ).Inv download plan assignments ∧
    (Loop.start plan assignments : Loop A δ).successes = [] := by
  have hreq := plan.required_le
  have hzero : Loop.Ordered download assignments
      (⟨assignments, [], 0, [], [], hedgeBudget plan.required - plan.margin, [], []⟩ : Loop A δ) :=
    ⟨rfl, rfl, List.Perm.refl _, by simp, rfl, rfl⟩
  obtain ⟨h1, h2, h3, h4, h5, h6⟩ := Loop.fill_spec (satUsize (plan.required + plan.margin))
    assignments.length hzero (le_refl _) rfl (Nat.zero_le _)
  rw [← Loop.start] at h1 h2 h3 h4 h5 h6
  refine ⟨⟨h1, fun hq => ?_, ?_⟩, h5⟩
  · have := h3 hq
    rw [satUsize] at this
    omega
  · rw [h4, h6]
    rw [satUsize] at h2
    simp only [List.length_nil]
    omega

/-- A download that has ended leaves the set. -/
lemma Loop.Ordered.join (h : s.Ordered download assignments) {i : ℕ} {task : Task A} (value : δ)
    (hi : s.set[i]? = some task) {successes : List Share} {failures : List PieceDownloadFailure}
    (hs : successes = s.successes ++ (obtained download (task, value)).toList)
    (hf : failures = s.failures ++ (failed download (task, value)).toList) :
    Loop.Ordered download assignments
      { s with
        set := s.set.eraseIdx i
        joined := s.joined ++ [(task, value)]
        successes := successes
        failures := failures } := by
  obtain ⟨hlt, hget⟩ := List.getElem?_eq_some_iff.mp hi
  have hperm : (s.set.eraseIdx i ++ (s.joined ++ [(task, value)]).map Prod.fst).Perm
      (s.set ++ s.joined.map Prod.fst) := by
    rw [List.map_append, List.map_singleton, ← List.append_assoc]
    refine (List.perm_append_singleton _ _).trans ?_
    rw [← List.cons_append]
    exact (hget ▸ List.getElem_cons_eraseIdx_perm hlt).append_right _
  refine ⟨h.order, h.attempted_eq, (hperm.map _).trans h.positions,
    fun t ht => h.placed t (hperm.mem_iff.mp ht), ?_, ?_⟩
  · simp only [List.filterMap_append, hs, h.successes_eq]
    cases ho : obtained download (task, value) <;> simp [ho]
  · simp only [List.filterMap_append, hf, h.failures_eq]
    cases ho : failed download (task, value) <;> simp [ho]

/-- What a status promises beside the invariant: the number of pieces while the loop runs and at
either of its ends. -/
def Status.Good (plan : Plan) : Status A δ → Prop
  | .running s => 1 ≤ plan.required → s.successes.length < plan.required
  | .finished (.ok c) s =>
      c = ⟨s.successes, s.queue⟩ ∧ (1 ≤ plan.required → s.successes.length = plan.required)
  | .finished (.error (.pieceDownload e)) s =>
      s.insufficient plan = .pieceDownload e ∧ s.set = [] ∧
      (1 ≤ plan.required → s.successes.length < plan.required)
  | .finished (.error (.invalidDownloadRange ..)) _ => True
  | .finished (.error (.protocol _)) _ => True

section Step

variable (h : s.Inv download plan assignments)

include h

/-- A hedge uses up what it adds. -/
lemma Loop.Inv.hedge (hleft : 0 < s.hedgesLeft) (hqueue : s.queue ≠ []) :
    Loop.Inv download plan assignments { s.launch with hedgesLeft := s.hedgesLeft - 1 } := by
  have hbudget := h.budget
  obtain ⟨hs, hf, -, hcase⟩ := s.launch_counts
  rcases hcase with ⟨hq, -⟩ | ⟨-, ha, hl, -⟩
  · exact absurd hq hqueue
  · have hord := h.toOrdered.launch
    refine ⟨⟨hord.order, hord.attempted_eq, hord.positions, hord.placed, hord.successes_eq,
      hord.failures_eq⟩, fun _ => ?_, ?_⟩
    · have := h.replaced hqueue
      simp only [hl, hs]
      omega
    · simp only [ha, hf]
      omega

section Joined

variable {i : ℕ} {task : Task A} {value : δ} (hi : s.set[i]? = some task)

include hi

/-- A share takes the place of its download. -/
lemma Loop.Inv.succeed {piece : Share} (hd : download task.assignment value = .ok piece) :
    Loop.Inv download plan assignments
      { s with
        set := s.set.eraseIdx i
        joined := s.joined ++ [(task, value)]
        successes := s.successes ++ [piece] } := by
  obtain ⟨hlt, -⟩ := List.getElem?_eq_some_iff.mp hi
  have hlen := List.length_eraseIdx_of_lt hlt
  have hord := h.toOrdered.join value hi
    (show s.successes ++ [piece] = _ by simp [obtained, hd, Except.toOption])
    (show s.failures = _ by simp [failed, hd])
  refine ⟨hord, fun hq => ?_, h.budget⟩
  have := h.replaced hq
  simp only [hlen, List.length_append, List.length_singleton]
  omega

/-- A failure is replaced while there is an assignment left. -/
lemma Loop.Inv.fail {failure : PieceDownloadFailure}
    (hd : download task.assignment value = .error failure) :
    Loop.Inv download plan assignments
      (Loop.launch { s with
        set := s.set.eraseIdx i
        joined := s.joined ++ [(task, value)]
        failures := s.failures ++ [failure] }) := by
  obtain ⟨hlt, -⟩ := List.getElem?_eq_some_iff.mp hi
  have hbudget := h.budget
  have hord := h.toOrdered.join value hi
    (show s.successes = _ by simp [obtained, hd, Except.toOption])
    (show s.failures ++ [failure] = _ by simp [failed, hd])
  generalize hs' : ({ s with
    set := s.set.eraseIdx i
    joined := s.joined ++ [(task, value)]
    failures := s.failures ++ [failure] } : Loop A δ) = s' at hord ⊢
  obtain ⟨hs, hf, hh, hcase⟩ := s'.launch_counts
  have hset : s'.set.length + 1 = s.set.length := by
    rw [← hs']
    simp only [List.length_eraseIdx_of_lt hlt]
    omega
  have hfail : s'.failures.length = s.failures.length + 1 := by simp [← hs']
  have hsame : s'.successes = s.successes ∧ s'.attempted = s.attempted ∧
      s'.hedgesLeft = s.hedgesLeft ∧ s'.queue = s.queue := by simp [← hs']
  obtain ⟨h1, h2, h3, h4⟩ := hsame
  refine ⟨hord.launch, fun hq => ?_, ?_⟩
  · rcases hcase with ⟨hnil, heq⟩ | ⟨hne, ha, hl, -⟩
    · rw [heq] at hq
      exact absurd hnil hq
    · have := h.replaced (h4 ▸ hne)
      rw [hl, hs, h1]
      omega
  · rw [hf, hh, h3, hfail]
    rcases hcase with ⟨-, heq⟩ | ⟨-, ha, -, -⟩
    · rw [heq, h2]
      omega
    · rw [ha, h2]
      omega

end Joined

/-- **One step.** -/
lemma Loop.step_inv (hshort : 1 ≤ plan.required → s.successes.length < plan.required)
    (e : Event δ) :
    (s.step download plan e).loop.Inv download plan assignments ∧
    (s.step download plan e).Good plan := by
  cases e with
  | tick =>
      rw [Loop.step]
      split_ifs with hgo
      · simp only [Bool.and_eq_true, decide_eq_true_eq, Bool.not_eq_true',
          List.isEmpty_eq_false_iff] at hgo
        refine ⟨h.hedge hgo.1.2 hgo.2, ?_⟩
        simp only [Status.Good, s.launch_counts.1]
        exact hshort
      · exact ⟨h, hshort⟩
  | crashed i text =>
      rw [Loop.step]
      split
      · exact ⟨h, hshort⟩
      · exact ⟨h, trivial⟩
  | joined i value =>
      rw [Loop.step]
      split
      · exact ⟨h, hshort⟩
      · rename_i task hi
        cases hd : download task.assignment value with
        | ok piece =>
            simp only
            split_ifs with henough
            · refine ⟨h.succeed hi hd, rfl, fun hpos => ?_⟩
              have := hshort hpos
              simp only [List.length_append, List.length_singleton] at henough ⊢
              omega
            · exact ⟨h.succeed hi hd, fun _ => Nat.lt_of_not_le henough⟩
        | error failure =>
            refine ⟨h.fail hi hd, ?_⟩
            simp only [Status.Good, Loop.launch_counts]
            exact hshort

end Step

/-- **A whole run.** -/
lemma collectLoop_inv (h : s.Inv download plan assignments)
    (hshort : 1 ≤ plan.required → s.successes.length < plan.required) (events : List (Event δ)) :
    (collectLoop download plan s events).loop.Inv download plan assignments ∧
    (collectLoop download plan s events).Good plan := by
  induction events generalizing s with
  | nil =>
      rw [collectLoop]
      split_ifs with hset
      · exact ⟨h, rfl, List.isEmpty_iff.mp hset, hshort⟩
      · exact ⟨h, hshort⟩
  | cons e events ih =>
      rw [collectLoop]
      split_ifs with hset
      · exact ⟨h, rfl, List.isEmpty_iff.mp hset, hshort⟩
      · obtain ⟨hinv, hgood⟩ := Loop.step_inv h hshort e
        cases hstep : s.step download plan e with
        | running s' =>
            rw [hstep] at hinv hgood
            exact ih hinv hgood
        | finished result s' =>
            rw [hstep] at hinv hgood
            exact ⟨hinv, hgood⟩

/-! ## What a download collects

From the invariant to the accounts that a caller sees, at every moment and at the end.
-/

/-- Every download that ended gave a piece or a failure. -/
lemma length_joined (download : A → δ → Except PieceDownloadFailure Share)
    (l : List (Task A × δ)) :
    (l.filterMap (obtained download)).length + (l.filterMap (failed download)).length
      = l.length := by
  induction l with
  | nil => rfl
  | cons x l ih =>
      rw [List.filterMap_cons, List.filterMap_cons, obtained, failed]
      cases hd : download x.1.assignment x.2 with
      | ok piece =>
          simp only [Except.toOption, List.length_cons]
          omega
      | error failure =>
          simp only [Except.toOption, List.length_cons]
          omega

/-- The shares come from downloads of different assignments. -/
def FromDistinct (download : A → δ → Except PieceDownloadFailure Share) (assignments : List A)
    (shares : List Share) : Prop :=
  ∃ tasks : List (Task A), (tasks.map Task.position).Nodup ∧
    List.Forall₂ (fun share t => assignments[t.position]? = some t.assignment ∧
      ∃ value, download t.assignment value = .ok share) shares tasks

lemma forall₂_obtained (P : Task A → Prop) (l : List (Task A × δ)) (hP : ∀ x ∈ l, P x.1) :
    ∃ tasks : List (Task A), tasks.Sublist (l.map Prod.fst) ∧
      List.Forall₂ (fun share t => P t ∧ ∃ value, download t.assignment value = .ok share)
        (l.filterMap (obtained download)) tasks := by
  induction l with
  | nil => exact ⟨[], List.Sublist.refl _, .nil⟩
  | cons x l ih =>
      obtain ⟨tasks, hsub, hall⟩ := ih fun y hy => hP y (List.mem_cons_of_mem _ hy)
      rw [List.filterMap_cons, obtained]
      cases hd : download x.1.assignment x.2 with
      | ok piece =>
          exact ⟨x.1 :: tasks, hsub.cons_cons _, .cons ⟨hP x List.mem_cons_self, x.2, hd⟩ hall⟩
      | error failure => exact ⟨tasks, hsub.cons _, hall⟩

lemma Loop.Ordered.fromDistinct (h : s.Ordered download assignments) :
    FromDistinct download s.launches s.successes := by
  have hplaced : ∀ x ∈ s.joined, s.launches[x.1.position]? = some x.1.assignment :=
    fun x hx => h.placed x.1 (List.mem_append_right _ (List.mem_map_of_mem hx))
  obtain ⟨tasks, hsub, hall⟩ :=
    forall₂_obtained (fun t => s.launches[t.position]? = some t.assignment) s.joined hplaced
  refine ⟨tasks, ?_, h.successes_eq ▸ hall⟩
  have hnodup := h.positions.nodup_iff.mpr List.nodup_range
  rw [List.map_append] at hnodup
  exact (hsub.map _).nodup hnodup.of_append_right

lemma FromDistinct.append {shares : List Share} (h : FromDistinct download assignments shares)
    (rest : List A) : FromDistinct download (assignments ++ rest) shares := by
  obtain ⟨tasks, hnodup, hall⟩ := h
  refine ⟨tasks, hnodup, hall.imp fun share t ht => ⟨?_, ht.2⟩⟩
  rw [List.getElem?_append_left (List.getElem?_eq_some_iff.mp ht.1).1]
  exact ht.1

/-- **What a download does**, at any time and at its end.

* `order`: the assignments are started in their order, each at most once, and the queue is the rest.
* `bound`: how many are started.
* `ok`, `insufficient`: what the two ends of the loop mean. -/
structure Accounts (download : A → δ → Except PieceDownloadFailure Share) (plan : Plan)
    (assignments : List A) (r : Status A δ) : Prop where
  order : r.loop.launches ++ r.loop.queue = assignments
  bound : r.loop.launches.length
    ≤ plan.required + max plan.margin (hedgeBudget plan.required)
      + (r.loop.joined.filterMap (failed download)).length
  ok : ∀ c s, r = .finished (.ok c) s → c.shares.length = plan.required ∧
    FromDistinct download assignments c.shares ∧ c.unused = assignments.drop s.launches.length
  insufficient : ∀ e s, r = .finished (.error (.pieceDownload e)) s →
    s.launches = assignments ∧ e.required = plan.required ∧ e.obtained < plan.required ∧
    e.obtained = (s.joined.filterMap (obtained download)).length ∧
    e.failures.Perm (s.joined.filterMap (failed download)) ∧
    e.attempted = assignments.length ∧ e.obtained + e.failures.length = e.attempted

lemma collectPieceDownloads_accounts (hreq : 1 ≤ plan.required) (hsize : 0 < plan.size)
    (events : List (Event δ)) :
    Accounts download plan assignments
      (collectPieceDownloads download plan assignments events) := by
  rw [collectPieceDownloads]
  split_ifs with hrange hzero
  · exact ⟨rfl, by simp [Status.loop, Loop.idle], by simp, by simp⟩
  · omega
  · obtain ⟨hstart, hnone⟩ := Loop.inv_start download plan assignments
    obtain ⟨hinv, hgood⟩ := collectLoop_inv hstart (fun hpos => by rw [hnone]; exact hpos) events
    generalize collectLoop download plan (Loop.start plan assignments) events = r at hinv hgood
    refine ⟨hinv.order, ?_, fun c s hr => ?_, fun e s hr => ?_⟩
    · have := hinv.budget
      rw [hinv.attempted_eq, hinv.failures_eq] at this
      omega
    · subst hr
      obtain ⟨rfl, hlen⟩ := hgood
      have horder := hinv.order
      simp only [Status.loop] at horder
      refine ⟨hlen hreq, horder ▸ hinv.fromDistinct.append s.queue, ?_⟩
      rw [← horder, List.drop_left]
    · subst hr
      obtain ⟨he, hset, hshort⟩ := hgood
      cases he
      simp only [Status.loop] at hinv
      have hqueue : s.queue = [] := by
        by_contra hne
        have := hinv.replaced hne
        have := hshort hreq
        rw [hset] at *
        simp only [List.length_nil] at *
        omega
      have horder := hinv.order
      rw [hqueue, List.append_nil] at horder
      have hperm : (sortFailures s.failures).Perm s.failures := List.perm_insertionSort _ _
      have hcount := length_joined download s.joined
      have hpos := hinv.positions.length_eq
      rw [hset, List.nil_append, List.length_map, List.length_map, List.length_range] at hpos
      refine ⟨horder, rfl, hshort hreq, by rw [← hinv.successes_eq], hinv.failures_eq ▸ hperm,
        by rw [hinv.attempted_eq, horder], ?_⟩
      simp only [hperm.length_eq]
      rw [hinv.successes_eq, hinv.failures_eq, hcount, hpos]

/-- What is collected was started, and the rest is unused. -/
lemma collected_split {events : List (Event δ)} {c : Collected A}
    (h : collectPieceDownloads download plan assignments events = .finished (.ok c) s) :
    ∃ launched, launched ++ c.unused = assignments ∧ FromDistinct download launched c.shares := by
  rw [collectPieceDownloads] at h
  split_ifs at h with hrange hzero
  · cases h
  · cases h
    exact ⟨[], rfl, [], List.nodup_nil, .nil⟩
  · obtain ⟨hstart, hnone⟩ := Loop.inv_start download plan assignments
    obtain ⟨hinv, hgood⟩ := collectLoop_inv hstart (fun hpos => by rw [hnone]; exact hpos) events
    rw [h] at hinv hgood
    obtain ⟨rfl, -⟩ := hgood
    exact ⟨s.launches, hinv.order, hinv.fromDistinct⟩

/-! ## Races that end well

The outside may be honest without being quick: pieces come in any order, some fail, and the timer
fires when it likes.  As long as every download that was started comes to its end while the race
goes on, and enough of the assignments are of nodes that deliver, the race ends with enough shares,
whichever they are. -/

section Race

variable {P : A → δ → Prop}

/-- What happens next is as `P` says of the assignments and how their downloads end, and no download
crashes. -/
def Event.Meets (P : A → δ → Prop) (s : Loop A δ) : Event δ → Prop
  | .joined i value => ∀ task, s.set[i]? = some task → P task.assignment value
  | .crashed i _ => s.set[i]? = none
  | .tick => True

/-- **A race in which every download ends as `P` says**: each that was started comes to its end,
unless the race is over before. -/
def Race (download : A → δ → Except PieceDownloadFailure Share) (plan : Plan) (P : A → δ → Prop) :
    Loop A δ → List (Event δ) → Prop
  | s, [] => s.set = []
  | s, e :: events =>
      s.set = [] ∨ (e.Meets P s ∧
        ∀ s', s.step download plan e = .running s' → Race download plan P s' events)

/-- One more download leaves those that ended alone. -/
lemma Loop.joined_launch (s : Loop A δ) : s.launch.joined = s.joined := by
  rw [Loop.launch]
  cases s.queue with
  | nil => rfl
  | cons asg queue => rfl

/-- **Step.** -/
lemma Loop.step_race (download : A → δ → Except PieceDownloadFailure Share) (plan : Plan)
    (hjoined : ∀ x ∈ s.joined, P x.1.assignment x.2) {e : Event δ}
    (he : e.Meets P s) :
    (∀ x ∈ (s.step download plan e).loop.joined, P x.1.assignment x.2) ∧
      ∀ result s', s.step download plan e = .finished result s' → ∃ c, result = .ok c := by
  cases e with
  | tick =>
      rw [Loop.step]
      split_ifs with hgo
      · refine ⟨?_, nofun⟩
        show ∀ x ∈ s.launch.joined, _
        rwa [s.joined_launch]
      · exact ⟨hjoined, nofun⟩
  | crashed i text =>
      have hnone : s.set[i]? = none := he
      rw [Loop.step, hnone]
      exact ⟨hjoined, nofun⟩
  | joined i value =>
      rw [Loop.step]
      cases hi : s.set[i]? with
      | none => exact ⟨hjoined, nofun⟩
      | some task =>
          have hmore : ∀ x ∈ s.joined ++ [(task, value)], P x.1.assignment x.2 := by
            intro x hx
            rcases List.mem_append.mp hx with hx | hx
            · exact hjoined x hx
            · rw [List.mem_singleton.mp hx]
              exact he task hi
          dsimp only
          cases download task.assignment value with
          | ok piece =>
              dsimp only
              split_ifs with henough
              · refine ⟨hmore, fun result s' h => ?_⟩
                cases h
                exact ⟨_, rfl⟩
              · exact ⟨hmore, nofun⟩
          | error failure =>
              refine ⟨?_, nofun⟩
              show ∀ x ∈ (Loop.launch _).joined, _
              rwa [Loop.joined_launch]

/-- **Run.**  Such a race ends, with pieces or for want of assignments. -/
lemma collectLoop_race {events : List (Event δ)} (hjoined : ∀ x ∈ s.joined, P x.1.assignment x.2)
    (hrace : Race download plan P s events) :
    ∃ result s', collectLoop download plan s events = .finished result s' ∧
      (∀ x ∈ s'.joined, P x.1.assignment x.2) ∧
      ((∃ c, result = .ok c) ∨ result = .error (s'.insufficient plan)) := by
  induction events generalizing s with
  | nil =>
      have hset : s.set = [] := hrace
      rw [collectLoop, hset]
      exact ⟨_, s, rfl, hjoined, .inr rfl⟩
  | cons e events ih =>
      rw [collectLoop]
      split_ifs with hset
      · exact ⟨_, s, rfl, hjoined, .inr rfl⟩
      · obtain ⟨hmeets, hrest⟩ :=
          hrace.resolve_left fun hnil => hset (List.isEmpty_iff.mpr hnil)
        obtain ⟨hnext, hgood⟩ := Loop.step_race download plan hjoined hmeets
        cases hstep : s.step download plan e with
        | running s' =>
            rw [hstep] at hnext
            exact ih hnext (hrest s' hstep)
        | finished result s' =>
            rw [hstep] at hnext
            exact ⟨result, s', rfl, hnext, .inl (hgood result s' hstep)⟩

/-- When nothing runs any more, the downloads that ended are those of the assignments started. -/
lemma Loop.Ordered.joined_perm (h : s.Ordered download assignments) (hset : s.set = []) :
    (s.joined.map fun x => x.1.assignment).Perm s.launches := by
  have hpos := h.positions
  rw [hset, List.nil_append, h.attempted_eq, List.map_map] at hpos
  have hplaced : (s.joined.map fun x => some x.1.assignment)
      = (s.joined.map fun x => x.1.position).map fun i => s.launches[i]? := by
    rw [List.map_map]
    refine List.map_congr_left fun x hx => (h.placed x.1 ?_).symm
    exact List.mem_append_right _ (List.mem_map_of_mem hx)
  have hall : (List.range s.launches.length).map (fun i => s.launches[i]?)
      = s.launches.map some := by
    refine List.ext_getElem? fun i => ?_
    rw [List.getElem?_map, List.getElem?_map]
    by_cases hi : i < s.launches.length
    · rw [List.getElem?_range hi, Option.map_some, List.getElem?_eq_getElem hi, Option.map_some]
    · rw [List.getElem?_eq_none (by rw [List.length_range]; omega),
        List.getElem?_eq_none (by omega)]
      rfl
  refine (List.map_perm_map_iff (Option.some_injective A)).mp ?_
  rw [List.map_map]
  show (s.joined.map fun x => some x.1.assignment).Perm _
  rw [hplaced, ← hall]
  exact hpos.map _

lemma Loop.joined_fill (limit n : ℕ) (s : Loop A δ) : (s.fill limit n).joined = s.joined := by
  induction n generalizing s with
  | zero => rfl
  | succ n ih =>
      rw [Loop.fill]
      split_ifs with hroom
      · rw [ih, Loop.joined_launch]
      · rfl

lemma obtained_eq_some {x : Task A × δ} {share : Share} :
    obtained download x = some share ↔ download x.1.assignment x.2 = .ok share := by
  rw [obtained]
  cases download x.1.assignment x.2 with
  | ok piece => simp [Except.toOption]
  | error failure => simp [Except.toOption]

/-- **Enough nodes that deliver are enough**, in any race in which every download comes to its end.
-/
theorem collectPieceDownloads_race (hreq : 1 ≤ plan.required) (hoffset : 0 ≤ plan.offset)
    (hsize : 0 < plan.size) (hfits : plan.offset + plan.size ≤ i64Max) {live : A → Bool}
    (hlive : plan.required ≤ assignments.countP live)
    (hP : ∀ asg value, P asg value → live asg → ∃ share, download asg value = .ok share)
    {events : List (Event δ)} (hrace : Race download plan P (.start plan assignments) events) :
    ∃ c s, collectPieceDownloads download plan assignments events = .finished (.ok c) s ∧
      ∀ share ∈ c.shares, ∃ asg value, P asg value ∧ download asg value = .ok share := by
  have hstart : ∀ x ∈ (Loop.start plan assignments : Loop A δ).joined, P x.1.assignment x.2 := by
    have hnil : (Loop.start plan assignments : Loop A δ).joined = [] := Loop.joined_fill _ _ _
    rw [hnil]
    nofun
  obtain ⟨result, s, hrun, hjoined, hresult⟩ := collectLoop_race hstart hrace
  have hcollect : collectPieceDownloads download plan assignments events = .finished result s := by
    rw [collectPieceDownloads, if_neg (by omega), if_neg hsize.ne', hrun]
  obtain ⟨hinv, hnone⟩ := Loop.inv_start download plan assignments (δ := δ)
  obtain ⟨hinv, hgood⟩ := collectLoop_inv hinv (fun hpos => by rw [hnone]; exact hpos) events
  rw [hrun] at hinv hgood
  rcases hresult with ⟨c, rfl⟩ | rfl
  · refine ⟨c, s, hcollect, fun share hshare => ?_⟩
    obtain ⟨rfl, -⟩ := hgood
    have hsuccesses : s.successes = s.joined.filterMap (obtained download) := hinv.successes_eq
    have hmem : share ∈ s.successes := hshare
    rw [hsuccesses] at hmem
    obtain ⟨x, hx, hgot⟩ := List.mem_filterMap.mp hmem
    exact ⟨x.1.assignment, x.2, hjoined x hx, obtained_eq_some.mp hgot⟩
  · -- every assignment was started and ended, those of live nodes with a share
    have haccounts := @collectPieceDownloads_accounts A δ download plan assignments hreq hsize events
    obtain ⟨hlaunched, -, hfew, hobtained, -⟩ := haccounts.insufficient _ s hcollect
    have hset : s.set = [] := hgood.2.1
    have hperm : (s.joined.map fun x => x.1.assignment).Perm s.launches :=
      hinv.toOrdered.joined_perm hset
    rw [hlaunched] at hperm
    have hcount : assignments.countP live ≤ (s.joined.filterMap (obtained download)).length := by
      rw [← hperm.countP_eq, List.countP_map, List.length_filterMap_eq_countP]
      refine List.countP_mono_left fun x hx hup => ?_
      obtain ⟨share, hshare⟩ := hP _ _ (hjoined x hx) hup
      rw [obtained_eq_some.mpr hshare]
      rfl
    omega

end Race

/-! ## Pieces are collected once

A piece number belongs to one assignment, and an assignment is started once, also by the calls that
come later.
-/

lemma downloadOnePiece_ok {asg : PieceAssignment} {value : Fetched} {share : Share}
    (h : downloadOnePiece asg value = .ok share) : share.1 = asg.pieceNum := by
  rw [downloadOnePiece.eq_def] at h
  split at h
  · cases h
  · cases h
    rfl
  · cases h

/-- The numbers of the shares are those of different assignments. -/
lemma FromDistinct.nums_nodup {launched : List PieceAssignment} {shares : List Share}
    (h : FromDistinct downloadOnePiece launched shares) (hnodup : (nums launched).Nodup) :
    (shares.map Prod.fst).Nodup ∧ shares.map Prod.fst ⊆ nums launched := by
  obtain ⟨tasks, hpos, hall⟩ := h
  have hnums : shares.map Prod.fst = tasks.map fun t => t.assignment.pieceNum := by
    clear hpos
    induction hall with
    | nil => rfl
    | cons hx _ ih =>
        obtain ⟨-, value, hv⟩ := hx
        rw [List.map_cons, List.map_cons, downloadOnePiece_ok hv, ih]
  have hplaced : ∀ t ∈ tasks, (nums launched)[t.position]? = some t.assignment.pieceNum := by
    clear hpos hnums
    induction hall with
    | nil => simp
    | cons hx _ ih =>
        intro t ht
        rcases List.mem_cons.mp ht with rfl | ht
        · rw [nums, List.getElem?_map, hx.1, Option.map_some]
        · exact ih t ht
  rw [hnums]
  constructor
  · refine List.Nodup.map_on (fun t ht t' ht' heq => ?_) hpos.of_map
    have hsame : (nums launched)[t.position]? = (nums launched)[t'.position]? := by
      rw [hplaced t ht, hplaced t' ht', heq]
    have hlt : t.position < (nums launched).length :=
      (List.getElem?_eq_some_iff.mp (hplaced t ht)).1
    exact List.inj_on_of_nodup_map hpos ht ht' ((List.getElem?_inj hlt hnodup).mp hsame)
  · intro n hn
    obtain ⟨t, ht, rfl⟩ := List.mem_map.mp hn
    exact List.mem_of_getElem? (hplaced t ht)

/-- No piece was collected twice or is still to be fetched after it was collected. -/
def DownloadedPieces.Single (d : DownloadedPieces) : Prop :=
  (d.shares.map Prod.fst ++ nums d.unused).Nodup

lemma single_of_downloaded {job : LongTailDownload} {events : List (Event Fetched)}
    {d : DownloadedPieces} (hnodup : (nums job.assignments).Nodup)
    (h : downloadPiecesLongTail job events = some (.ok d)) : d.Single := by
  rw [downloadPiecesLongTail] at h
  simp only at h
  split at h
  · cases h
  · cases h
  · rename_i collected s hrun
    obtain ⟨launched, happ, hfrom⟩ := collected_split hrun
    have hl : (nums launched).Nodup := by
      rw [← happ, nums, List.map_append] at hnodup
      exact hnodup.of_append_left
    cases h
    rw [DownloadedPieces.Single, List.nodup_append]
    refine ⟨(hfrom.nums_nodup hl).1, (List.filter_sublist.map _).nodup hnodup, fun a ha b hb heq => ?_⟩
    obtain ⟨asg, hasg, rfl⟩ := List.mem_map.mp hb
    exact of_decide_eq_true (List.mem_filter.mp hasg).2 (heq ▸ ha)

lemma DownloadedPieces.Single.drained {d : DownloadedPieces} (h : d.Single) :
    Single { d with unused := [] } := by
  rw [Single] at h ⊢
  simpa using h.of_append_left

lemma DownloadedPieces.Single.fetchAndKeep {d : DownloadedPieces} (h : d.Single)
    (events : List (Event Fetched)) : (d.fetchAndKeep events).Single := by
  rw [DownloadedPieces.fetchAndKeep, DownloadedPieces.fetchOneMore]
  split_ifs with hempty
  · exact h
  · simp only
    cases hrun : collectPieceDownloads downloadOnePiece ⟨1, 0, false, d.offset, d.size, by decide⟩
        d.unused events with
    | running s => exact h.drained
    | finished result s =>
        cases result with
        | error e =>
            cases e with
            | invalidDownloadRange offset size reason => exact h.drained
            | pieceDownload e => exact h.drained
            | protocol message => exact h.drained
        | ok c =>
            obtain ⟨launched, happ, hfrom⟩ := collected_split hrun
            have hall : (d.shares.map Prod.fst ++ (nums launched ++ nums c.unused)).Nodup := by
              rw [nums, nums, ← List.map_append, happ]
              exact h
            obtain ⟨-, hsub⟩ := hfrom.nums_nodup hall.of_append_right.of_append_left
            simp only
            cases hshare : c.shares.head? with
            | none =>
                rw [Single]
                refine List.Sublist.nodup ?_ hall
                exact (List.sublist_append_right _ _).append_left _
            | some piece =>
                have hmem : piece.1 ∈ nums launched :=
                  hsub (List.mem_map_of_mem (List.mem_of_mem_head? hshare))
                rw [Single, List.map_append, List.map_singleton, List.append_assoc]
                refine List.Sublist.nodup ?_ hall
                exact ((List.singleton_sublist.mpr hmem).append_right _).append_left _

/-- **Long-tail download.**  The scheduler keeps its accounts in every run, and no piece of a
segment is collected twice, however often one more is fetched. -/
theorem long_tail_download :
    (∀ (A δ : Type) (download : A → δ → Except PieceDownloadFailure Share) (plan : Plan)
      (assignments : List A) (events : List (Event δ)), 1 ≤ plan.required → 0 < plan.size →
      Accounts download plan assignments
        (collectPieceDownloads download plan assignments events)) ∧
    ∀ (job : LongTailDownload) (events : List (Event Fetched)) (d : DownloadedPieces)
      (calls : List (List (Event Fetched))), (nums job.assignments).Nodup →
      downloadPiecesLongTail job events = some (.ok d) →
      ((calls.foldl DownloadedPieces.fetchAndKeep d).shares.map Prod.fst).Nodup := by
  refine ⟨fun A δ download plan assignments events hreq hsize =>
    collectPieceDownloads_accounts hreq hsize events, fun job events d calls hnodup h => ?_⟩
  have hsingle : ∀ d : DownloadedPieces, d.Single →
      (calls.foldl DownloadedPieces.fetchAndKeep d).Single := by
    induction calls with
    | nil => exact fun d hd => hd
    | cons events calls ih => exact fun d hd => ih _ (hd.fetchAndKeep events)
  exact (hsingle d (single_of_downloaded hnodup h)).of_append_left

section Example

/-- Four pieces, of which two are required. -/
def twoOfFour : LongTailDownload where
  assignments := [examplePiece 0 1 [], examplePiece 1 2 [], examplePiece 2 3 [],
    examplePiece 3 4 []]
  k := 2
  offset := 0
  size := 1
  hedging := true
  k_le := by decide

/-- The second piece fails, and the first and the third come in. -/
def oneFails : List (Event Fetched) :=
  [.joined 1 (.noConnection (.other "refused")), .joined 0 (.got (.ok [7])),
    .joined 0 (.got (.ok [8]))]

/-- The second piece fails again, and the fourth comes in. -/
def failsAgain : List (Event Fetched) :=
  [.joined 0 (.got (.error (.other "reset"))), .joined 0 (.got (.ok [9]))]

theorem long_tail_download_two_of_four :
    Accounts downloadOnePiece ⟨2, 1, true, 0, 1, by decide⟩ twoOfFour.assignments
      (collectPieceDownloads downloadOnePiece ⟨2, 1, true, 0, 1, by decide⟩ twoOfFour.assignments
        oneFails) ∧
    ∃ d, downloadPiecesLongTail twoOfFour oneFails = some (.ok d) ∧
      d.shares.map Prod.fst = [0, 2] ∧
      ([failsAgain].foldl DownloadedPieces.fetchAndKeep d).shares.map Prod.fst = [0, 2, 3] ∧
      (([failsAgain].foldl DownloadedPieces.fetchAndKeep d).shares.map Prod.fst).Nodup := by
  refine ⟨long_tail_download.1 _ _ _ _ _ _ (by decide) (by decide), ?_⟩
  have hrun : downloadPiecesLongTail twoOfFour oneFails = some (.ok
      ⟨[(0, [7]), (2, [8])], [examplePiece 1 2 [], examplePiece 3 4 []], 0, 1⟩) := rfl
  exact ⟨_, hrun, by decide, by decide +kernel,
    long_tail_download.2 twoOfFour oneFails _ [failsAgain] (by decide) hrun⟩

end Example

end Storj.Collect
