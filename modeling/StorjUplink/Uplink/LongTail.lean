import Mathlib.Data.List.Destutter
import Mathlib.Data.List.Sort
import StorjUplink.Lib.Fallible
import StorjUplink.Uplink.Cohort

/-!
# Long-tail upload

`upload_pieces_long_tail` of `segment.rs` uploads the pieces of a segment in up to four rounds.  A
round (`upload_round`) starts a task for each piece that is still to be uploaded and takes their
results as they come; once the successes so far meet the requirements it aborts the tasks that are
left and keeps the successes among those that had already ended.  Pieces that failed are replaced by
what the satellite answers to a retry, under a new segment id.

What the outside decides in a round is a `Round`: in which order the tasks end and how, which orders
the hash maps of each check have, and what the satellite answers.  `State.log` is not in the source:
it records each round, to say what the result has to do with them.
-/

namespace Storj.Segment

/-- The errors of the crate: those made here, and those of a connection or of the piece store, by
their text. -/
inductive Error where
  | protocol (message : String)
  | other (text : String)
deriving DecidableEq, Repr

/-- `Display` of `Error`. -/
def Error.toText : Error → String
  | .protocol message => "protocol: " ++ message
  | .other text => text

/-! ## Pieces and their assignments

An order limit without an address, or with a node id of the wrong length, is an error before a task
is started for it.
-/

/-- `NodeId`. -/
abbrev NodeId := Vector UInt8 32

/-- `NoiseInfo`. -/
structure NoiseInfo where
  proto : ℤ
  publicKey : List UInt8
deriving DecidableEq, Repr

/-- `NodeAddress`, with what decides how the node is dialed. -/
structure NodeAddress where
  address : String
  noiseInfo : Option NoiseInfo
  debounceLimit : ℤ
  features : ℕ
deriving DecidableEq, Repr

/-- `OrderLimit`, as far as this module reads it. -/
structure OrderLimit where
  serialNumber : List UInt8
  storageNodeId : List UInt8
deriving DecidableEq, Repr

/-- `AddressedOrderLimit`: the limit, the node that it is for, and the tags of the node. -/
structure AddressedOrderLimit where
  limit : Option OrderLimit
  storageNodeAddress : Option NodeAddress
  tags : Tags
deriving DecidableEq, Repr

/-- `PieceAssignment`: one piece, the limit to upload it with, and the node that it goes to. -/
structure PieceAssignment where
  pieceNum : ℤ
  limit : OrderLimit
  address : String
  nodeId : NodeId
  noiseInfo : Option NoiseInfo
  fastOpen : Bool
  tags : Tags
deriving DecidableEq, Repr

/-- `node_id_from_bytes`: a node id has exactly 32 bytes. -/
def nodeIdFromBytes (b : List UInt8) : Except Error NodeId :=
  if h : b.length = 32 then .ok ⟨b.toArray, h⟩
  else .error (.protocol "storage node id is not 32 bytes")

/-- `PieceAssignment::from_addressed`: a limit without an address, or an address without a node id
of the right length, is refused.  The piece number is the index, held at the largest `i32`. -/
def PieceAssignment.fromAddressed (idx : ℕ) (addressed : AddressedOrderLimit) :
    Except Error PieceAssignment := do
  let limit ← addressed.limit.elim (.error (.protocol "addressed order limit missing limit")) .ok
  let address ← ((addressed.storageNodeAddress.map NodeAddress.address).filter (· ≠ "")).elim
    (.error (.protocol "addressed order limit missing node address")) .ok
  let nodeId ← nodeIdFromBytes limit.storageNodeId
  return {
    pieceNum := if idx < 2 ^ 31 then idx else 2 ^ 31 - 1
    limit := limit
    address := address
    nodeId := nodeId
    fastOpen := addressed.storageNodeAddress.any fun a => a.debounceLimit ≥ 2 && a.features % 2 ≠ 0
    noiseInfo := addressed.storageNodeAddress.bind NodeAddress.noiseInfo
    tags := addressed.tags }

variable {H : Type}

/-- `SegmentPieceUploadResult`: what the satellite is told about a piece that was uploaded. -/
structure PieceResult (H : Type) where
  pieceNum : ℤ
  nodeId : List UInt8
  hash : Option H
deriving DecidableEq, Repr

/-- `LongTailUpload`, without what only the upload of a single piece reads. -/
structure LongTailUpload where
  assignments : List PieceAssignment
  segmentId : List UInt8
  /-- `rs.o`. -/
  optimal : ℕ
  cohort : Option CohortRequirements

/-- `success_tags`: the tags of the nodes of the pieces that were uploaded, by the table of
assignments. -/
def successTags (job : LongTailUpload) (successes : List (PieceResult H)) : List Tags :=
  successes.filterMap fun s =>
    (job.assignments.find? fun a => a.pieceNum = s.pieceNum).map PieceAssignment.tags

/-- `requirements_met`: the cohort requirements where there are any, and the optimal number
otherwise. -/
def requirementsMet (orders : Orders) (job : LongTailUpload) (successes : List (PieceResult H)) :
    Bool :=
  match job.cohort with
  | none => (successTags job successes).length ≥ job.optimal
  | some req => cohortValid orders req (successTags job successes)

/-! ## A round

The tasks end in an order that the outside picks.  After each success the requirements are checked,
with hash orders of that check.
-/

/-- How the task of a piece ends: `put_piece` went through or some call before it or it itself
failed, or the task was cancelled, or it panicked. -/
inductive Outcome (H : Type) where
  | finished (put : Except Error H)
  | cancelled
  | panicked (text : String)

/-- `upload_one_piece`, from what its calls gave. -/
def uploadOnePiece (asg : PieceAssignment) (put : Except Error H) :
    Except (ℤ × Error) (PieceResult H) :=
  match put with
  | .ok hash => .ok ⟨asg.pieceNum, asg.nodeId.toList, some hash⟩
  | .error e => .error (asg.pieceNum, e)

/-- A task that ended, and the orders of the check that its success is followed by. -/
structure Joined (H : Type) where
  assignment : PieceAssignment
  outcome : Outcome H
  orders : Orders

/-- The piece that a task uploaded. -/
def Joined.success (j : Joined H) : Option (PieceResult H) :=
  match j.outcome with
  | .finished put => (uploadOnePiece j.assignment put).toOption
  | _ => none

/-- The piece that a task could not upload. -/
def Joined.failure (j : Joined H) : Option (ℤ × Error) :=
  match j.outcome with
  | .finished put =>
      match uploadOnePiece j.assignment put with
      | .ok _ => none
      | .error e => some e
  | _ => none

/-- What a round has so far, and whether it stopped early. -/
structure RoundResult (H : Type) where
  successes : List (PieceResult H)
  failed : List ℤ
  errors : List (ℤ × String)
  stopped : Bool

/-- The `join_next` loop of `upload_round`, over the tasks in the order in which they end.  Once the
requirements are met the rest is aborted, and of the tasks that had ended by then the successes are
kept. -/
def joinLoop (job : LongTailUpload) (already : List (PieceResult H)) :
    RoundResult H → List (Joined H) → Except Error (RoundResult H)
  | r, [] => .ok r
  | r, j :: rest =>
      match j.outcome with
      | .finished put =>
          match uploadOnePiece j.assignment put with
          | .ok result =>
              let successes := r.successes ++ [result]
              if requirementsMet j.orders job (already ++ successes) then
                -- the rest is aborted; what had already ended well is kept
                .ok { r with
                  successes := successes ++ rest.filterMap Joined.success
                  stopped := true }
              else joinLoop job already { r with successes := successes } rest
          | .error (pieceNum, e) =>
              joinLoop job already
                { r with
                  failed := r.failed ++ [pieceNum]
                  errors := r.errors ++ [(pieceNum, e.toText)] } rest
      | .cancelled => joinLoop job already r rest
      | .panicked text => .error (.protocol ("piece upload join: " ++ text))

/-- `upload_round`, from the tasks in the order in which they end. -/
def uploadRound (job : LongTailUpload) (already : List (PieceResult H)) (joins : List (Joined H)) :
    Except Error (RoundResult H) :=
  joinLoop job already ⟨[], [], [], false⟩ joins

/-! ## The upload

Up to four rounds, and between two of them a question to the satellite about the pieces that
failed.  A retry may replace an assignment, leave a piece without one, and change the segment id.
-/

/-- What the outside decides in a round. -/
structure Round (H : Type) where
  /-- The orders of the check of the loop. -/
  check : Orders
  /-- The tasks in the order in which they end. -/
  joins : List PieceAssignment → List (Joined H)
  joins_perm : ∀ pending, ((joins pending).map Joined.assignment).Perm pending
  /-- The orders of the check after the round. -/
  after : Orders
  /-- What `retry` answers. -/
  answer : Except Error (List UInt8 × List AddressedOrderLimit)

/-- A question to the satellite and its answer. -/
structure Retry where
  segmentId : List UInt8
  failed : List ℤ
  answer : Except Error (List UInt8 × List AddressedOrderLimit)

/-- What happened in a round: the assignments and those of them that had no success, the tasks as
they ended, and the exchange with the satellite if there was one. -/
structure RoundLog (H : Type) where
  assignments : List PieceAssignment
  pending : List PieceAssignment
  joins : List (Joined H)
  stopped : Bool
  retry : Option Retry

/-- The variables of `upload_pieces_long_tail`, and the rounds so far. -/
structure State (H : Type) where
  job : LongTailUpload
  successes : List (PieceResult H)
  attempts : ℕ
  lastErrors : List (ℤ × String)
  log : List (RoundLog H)

/-- `MAX_KEPT_PIECE_ERRORS`. -/
def maxKeptPieceErrors : ℕ := 5

/-- The errors that are kept, which are the last ones. -/
def keptErrors (errors : List (ℤ × String)) : List (ℤ × String) :=
  errors.drop (errors.length - maxKeptPieceErrors)

/-- `*slot = a` at the first assignment of the piece, or `push`. -/
def putAssignment (a : PieceAssignment) (pieceNum : ℤ) :
    List PieceAssignment → List PieceAssignment
  | [] => [a]
  | x :: l => if x.pieceNum = pieceNum then a :: l else x :: putAssignment a pieceNum l

/-- A failed piece gets a new assignment, or none. -/
def replaceOne (newLimits : List AddressedOrderLimit) (assignments : List PieceAssignment)
    (pieceNum : ℤ) : Except Error (List PieceAssignment) :=
  if pieceNum < 0 then .error (.protocol "negative piece number in retry")
  else
    match (newLimits[pieceNum.toNat]?).filter (fun l => l.limit.isSome) with
    | none => .ok (assignments.filter fun x => x.pieceNum ≠ pieceNum)
    | some limit => do
        let a ← PieceAssignment.fromAddressed pieceNum.toNat limit
        return putAssignment { a with pieceNum := pieceNum } pieceNum assignments

/-- The loop over the failed pieces. -/
def replaceFailed (newLimits : List AddressedOrderLimit) :
    List PieceAssignment → List ℤ → Except Error (List PieceAssignment)
  | assignments, [] => .ok assignments
  | assignments, pieceNum :: failed => do
      replaceFailed newLimits (← replaceOne newLimits assignments pieceNum) failed

/-- The pieces that were not uploaded yet. -/
def State.pending (s : State H) : List PieceAssignment :=
  s.job.assignments.filter fun a => a.pieceNum ∉ s.successes.map PieceResult.pieceNum

/-- How a round of the loop leaves it: the loop is over, or goes on. -/
inductive Step (H : Type) where
  | done (result : Except Error Unit) (s : State H)
  | next (s : State H)

/-- The body of the loop of `upload_pieces_long_tail`, with its condition on the requirements. -/
def uploadStep (round : Round H) (s : State H) : Step H :=
  if requirementsMet round.check s.job s.successes then .done (.ok ()) s
  else
    let s := { s with attempts := s.attempts + 1 }
    let pending := s.pending
    if pending.isEmpty then .done (.ok ()) s
    else
      let joins := round.joins pending
      let entry : RoundLog H := ⟨s.job.assignments, pending, joins, false, none⟩
      match uploadRound s.job s.successes joins with
      | .error e => .done (.error e) { s with log := s.log ++ [entry] }
      | .ok r =>
          let entry := { entry with stopped := r.stopped }
          let s := { s with
            successes := s.successes ++ r.successes
            lastErrors := keptErrors (s.lastErrors ++ r.errors) }
          if requirementsMet round.after s.job s.successes then
            .done (.ok ()) { s with log := s.log ++ [entry] }
          else if r.failed.isEmpty then .done (.ok ()) { s with log := s.log ++ [entry] }
          else
            let entry := { entry with retry := some ⟨s.job.segmentId, r.failed, round.answer⟩ }
            let s := { s with log := s.log ++ [entry] }
            match round.answer with
            | .error e => .done (.error e) s
            | .ok (newId, newLimits) =>
                match replaceFailed newLimits s.job.assignments r.failed with
                | .error e => .done (.error e) s
                | .ok assignments =>
                    .next { s with
                      job := { s.job with segmentId := newId, assignments := assignments } }

/-- The loop of `upload_pieces_long_tail`, while so many more rounds may run. -/
def uploadLoop (env : ℕ → Round H) : ℕ → State H → Except Error Unit × State H
  | 0, s => (.ok (), s)
  | left + 1, s =>
      match uploadStep (env s.attempts) s with
      | .done result s => (result, s)
      | .next s => uploadLoop env left s

/-- `sort_by_key` and `dedup_by_key` on the piece number. -/
def sortPieces (successes : List (PieceResult H)) : List (PieceResult H) :=
  (successes.insertionSort fun a b => a.pieceNum ≤ b.pieceNum).destutter
    fun a b => a.pieceNum ≠ b.pieceNum

/-- The text of a failed upload, with the errors of single pieces that were kept. -/
def uploadFailure (s : State H) : String :=
  let causes := String.intercalate "; "
    (s.lastErrors.map fun e => "piece " ++ toString e.1 ++ ": " ++ e.2)
  "segment upload: " ++ toString s.successes.length ++
    " successful pieces do not meet cohort/o (o=" ++ toString s.job.optimal ++
    "); recent piece errors: [" ++ causes ++ "]"

/-- The variables at the start. -/
def State.start (job : LongTailUpload) : State H := ⟨job, [], 0, [], []⟩

/-- `upload_pieces_long_tail`, with the orders of its last check: the loop, the check on what it
uploaded, and the pieces sorted by their number. -/
def uploadPiecesLongTail (env : ℕ → Round H) (last : Orders) (job : LongTailUpload) :
    Except Error (List UInt8 × List (PieceResult H)) × State H :=
  match uploadLoop env 4 (.start job) with
  | (.error e, s) => (.error e, s)
  | (.ok (), s) =>
      if !requirementsMet last s.job s.successes then (.error (.protocol (uploadFailure s)), s)
      else (.ok (s.job.segmentId, sortPieces s.successes), s)

/-! ## A round, from outside

The loop over the results is described by what it returns for a list of them.
-/

lemma Joined.success_pieceNum {j : Joined H} {r : PieceResult H} (h : j.success = some r) :
    r.pieceNum = j.assignment.pieceNum := by
  rw [Joined.success] at h
  split at h
  · rename_i put hput
    cases put with
    | ok hash =>
        cases h
        rfl
    | error e => cases h
  · cases h

lemma Joined.failure_pieceNum {j : Joined H} {x : ℤ × Error} (h : j.failure = some x) :
    x.1 = j.assignment.pieceNum ∧ j.success = none := by
  rw [Joined.failure] at h
  rw [Joined.success]
  split at h
  · rename_i put hput
    cases put with
    | ok hash => cases h
    | error e =>
        cases h
        exact ⟨rfl, rfl⟩
  · cases h

/-- **A round.**  It returns the successes of all its tasks; the failures it reports are failures of
its tasks; and where it stopped, some of the successes met the requirements. -/
lemma joinLoop_spec {job : LongTailUpload} {already : List (PieceResult H)}
    {r r' : RoundResult H} {joins : List (Joined H)} (h : joinLoop job already r joins = .ok r') :
    r'.successes = r.successes ++ joins.filterMap Joined.success ∧
    r'.failed.Sublist (r.failed ++ (joins.filterMap Joined.failure).map Prod.fst) ∧
    (r'.stopped = true → r.stopped = true ∨ ∃ orders l,
      l.Sublist r'.successes ∧ requirementsMet orders job (already ++ l) = true) := by
  induction joins generalizing r with
  | nil =>
      cases h
      exact ⟨by simp, by simp, Or.inl⟩
  | cons j rest ih =>
      rw [joinLoop] at h
      rw [List.filterMap_cons, List.filterMap_cons]
      cases ho : j.outcome with
      | finished put =>
          cases put with
          | ok hash =>
              have hs : j.success = some ⟨j.assignment.pieceNum, j.assignment.nodeId.toList,
                  some hash⟩ := by
                simp only [Joined.success, ho, uploadOnePiece, Except.toOption]
              have hf : j.failure = none := by
                simp only [Joined.failure, ho, uploadOnePiece]
              simp only [ho, uploadOnePiece] at h
              simp only [hs, hf]
              split at h
              · rename_i hmet
                cases h
                refine ⟨by simp, List.sublist_append_left _ _, fun _ => Or.inr ⟨j.orders, _, ?_, hmet⟩⟩
                exact List.sublist_append_left _ _
              · obtain ⟨h1, h2, h3⟩ := ih h
                refine ⟨by rw [h1]; simp, h2, h3⟩
          | error e =>
              have hs : j.success = none := by
                simp only [Joined.success, ho, uploadOnePiece, Except.toOption]
              have hf : j.failure = some (j.assignment.pieceNum, e) := by
                simp only [Joined.failure, ho, uploadOnePiece]
              simp only [ho, uploadOnePiece] at h
              simp only [hs, hf]
              obtain ⟨h1, h2, h3⟩ := ih h
              exact ⟨h1, by simpa using h2, h3⟩
      | cancelled =>
          have hs : j.success = none := by simp only [Joined.success, ho]
          have hf : j.failure = none := by simp only [Joined.failure, ho]
          simp only [ho] at h
          simp only [hs, hf]
          exact ih h
      | panicked text =>
          simp only [ho] at h
          cases h

lemma uploadRound_spec {job : LongTailUpload} {already : List (PieceResult H)}
    {r : RoundResult H} {joins : List (Joined H)} (h : uploadRound job already joins = .ok r) :
    r.successes = joins.filterMap Joined.success ∧
    r.failed.Sublist ((joins.filterMap Joined.failure).map Prod.fst) ∧
    (r.stopped = true → ∃ orders l,
      l.Sublist r.successes ∧ requirementsMet orders job (already ++ l) = true) := by
  obtain ⟨h1, h2, h3⟩ := joinLoop_spec h
  refine ⟨by simpa using h1, by simpa using h2, fun hs => ?_⟩
  exact (h3 hs).resolve_left (by simp)

/-! ## New assignments

A table with a place for each piece number.
-/

/-- The piece numbers of a table. -/
abbrev nums (assignments : List PieceAssignment) : List ℤ :=
  assignments.map PieceAssignment.pieceNum

lemma nums_putAssignment {a : PieceAssignment} {n : ℤ} (ha : a.pieceNum = n)
    {l : List PieceAssignment} (h : n ∈ nums l) : nums (putAssignment a n l) = nums l := by
  induction l with
  | nil => simp at h
  | cons x l ih =>
      rw [putAssignment]
      split_ifs with hx
      · simp only [nums, List.map_cons, ha, hx]
      · rw [nums, List.map_cons, List.mem_cons] at h
        simp only [nums, List.map_cons]
        exact congrArg _ (ih (h.resolve_left (Ne.symm hx)))

/-- A piece keeps its place in the table or leaves it. -/
lemma replaceOne_spec {newLimits : List AddressedOrderLimit} {l l' : List PieceAssignment} {n : ℤ}
    (hn : n ∈ nums l) (h : replaceOne newLimits l n = .ok l') :
    (nums l').Sublist (nums l) ∧ ∀ m ∈ nums l, m ≠ n → m ∈ nums l' := by
  rw [replaceOne] at h
  split_ifs at h
  split at h
  · cases h
    refine ⟨List.filter_sublist.map _, fun m hm hne => ?_⟩
    obtain ⟨a, ha, rfl⟩ := List.mem_map.mp hm
    exact List.mem_map_of_mem (List.mem_filter.mpr ⟨ha, decide_eq_true hne⟩)
  · obtain ⟨a, -, h⟩ := Fallible.bind_eq_ok.mp h
    cases h
    rw [nums_putAssignment rfl hn]
    exact ⟨List.Sublist.refl _, fun m hm _ => hm⟩

lemma replaceFailed_spec {newLimits : List AddressedOrderLimit} {failed : List ℤ}
    {l l' : List PieceAssignment} (hnodup : failed.Nodup) (hsub : ∀ n ∈ failed, n ∈ nums l)
    (h : replaceFailed newLimits l failed = .ok l') :
    (nums l').Sublist (nums l) ∧ ∀ m ∈ nums l, m ∉ failed → m ∈ nums l' := by
  induction failed generalizing l with
  | nil =>
      cases h
      exact ⟨List.Sublist.refl _, fun m hm _ => hm⟩
  | cons n failed ih =>
      rw [List.nodup_cons] at hnodup
      rw [replaceFailed] at h
      obtain ⟨l₁, h₁, h⟩ := Fallible.bind_eq_ok.mp h
      obtain ⟨hs, hkeep⟩ := replaceOne_spec (hsub n List.mem_cons_self) h₁
      obtain ⟨hs', hkeep'⟩ := ih hnodup.2 (fun m hm =>
        hkeep m (hsub m (List.mem_cons_of_mem _ hm)) fun heq => hnodup.1 (heq ▸ hm)) h
      refine ⟨hs'.trans hs, fun m hm hnot => ?_⟩
      rw [List.mem_cons, not_or] at hnot
      exact hkeep' m (hkeep m hm hnot.1) hnot.2

/-! ## The invariant of the loop

Each success is of a piece that no earlier round uploaded, on the node that the table had for it in
its round.
-/

/-- The pieces that a round uploaded. -/
def RoundLog.uploaded (e : RoundLog H) : List (PieceResult H) := e.joins.filterMap Joined.success

/-- The segment id that a round got. -/
def RoundLog.newId (e : RoundLog H) : Option (List UInt8) :=
  e.retry.bind fun q => q.answer.toOption.map Prod.fst

/-- **What a round did.**  Its tasks are those of the pieces that were pending, each piece once,
with the assignments of that time, and the satellite was asked only about pieces that failed in it.
-/
structure RoundLog.Sound (e : RoundLog H) : Prop where
  spawned : (e.joins.map Joined.assignment).Perm e.pending
  assigned : e.pending ⊆ e.assignments
  distinct : (nums e.pending).Nodup
  asked : ∀ q ∈ e.retry, ∀ n ∈ q.failed, ∃ j ∈ e.joins, ∃ x, j.failure = some x ∧ x.1 = n

/-- A later round does not upload what an earlier one did. -/
def RoundLog.Before (e e' : RoundLog H) : Prop :=
  ∀ r ∈ e.uploaded, r.pieceNum ∉ nums e'.pending

/-- **The invariant.**  The successes are those of the rounds so far, each piece once and known to
the table of assignments. -/
structure State.Inv (job : LongTailUpload) (s : State H) : Prop where
  cohort : s.job.cohort = job.cohort
  optimal : s.job.optimal = job.optimal
  distinct : (nums s.job.assignments).Nodup
  size : s.job.assignments.length ≤ job.assignments.length
  successes_eq : s.successes = s.log.flatMap RoundLog.uploaded
  single : (s.successes.map PieceResult.pieceNum).Nodup
  known : ∀ r ∈ s.successes, r.pieceNum ∈ nums s.job.assignments
  segmentId : s.job.segmentId = ((s.log.filterMap RoundLog.newId).getLast?).getD job.segmentId
  sound : ∀ e ∈ s.log, e.Sound
  once : s.log.Pairwise RoundLog.Before
  rounds : s.log.length ≤ s.attempts

lemma State.inv_start {job : LongTailUpload} (h : (nums job.assignments).Nodup) :
    (State.start job : State H).Inv job where
  cohort := rfl
  optimal := rfl
  distinct := h
  size := le_refl _
  successes_eq := rfl
  single := List.nodup_nil
  known := by simp [State.start]
  segmentId := rfl
  sound := by simp [State.start]
  once := List.Pairwise.nil
  rounds := le_refl _

lemma State.nums_pending_sublist (s : State H) : (nums s.pending).Sublist (nums s.job.assignments) :=
  List.filter_sublist.map _

lemma State.not_done_of_pending {s : State H} {n : ℤ} (h : n ∈ nums s.pending) :
    n ∉ s.successes.map PieceResult.pieceNum := by
  obtain ⟨a, ha, rfl⟩ := List.mem_map.mp h
  exact of_decide_eq_true (List.mem_filter.mp ha).2

/-- The numbers of the pieces that tasks uploaded, among those of the tasks. -/
lemma uploaded_nums_sublist (joins : List (Joined H)) :
    ((joins.filterMap Joined.success).map PieceResult.pieceNum).Sublist
      (nums (joins.map Joined.assignment)) := by
  induction joins with
  | nil => simp
  | cons j joins ih =>
      rw [List.filterMap_cons]
      cases hj : j.success with
      | none => exact ih.cons _
      | some r =>
          simp only [nums, List.map_cons, Joined.success_pieceNum hj]
          exact ih.cons_cons _

lemma failed_nums_sublist (joins : List (Joined H)) :
    ((joins.filterMap Joined.failure).map Prod.fst).Sublist
      (nums (joins.map Joined.assignment)) := by
  induction joins with
  | nil => simp
  | cons j joins ih =>
      rw [List.filterMap_cons]
      cases hj : j.failure with
      | none => exact ih.cons _
      | some x =>
          simp only [nums, List.map_cons, (Joined.failure_pieceNum hj).1]
          exact ih.cons_cons _

/-- No piece is both uploaded and failed in a round that has each piece once. -/
lemma failed_not_uploaded {joins : List (Joined H)}
    (hnodup : (nums (joins.map Joined.assignment)).Nodup) {n : ℤ}
    (hfail : n ∈ (joins.filterMap Joined.failure).map Prod.fst) :
    n ∉ (joins.filterMap Joined.success).map PieceResult.pieceNum := by
  intro hup
  obtain ⟨x, hx, rfl⟩ := List.mem_map.mp hfail
  obtain ⟨j, hj, hjx⟩ := List.mem_filterMap.mp hx
  obtain ⟨r, hr, hnum⟩ := List.mem_map.mp hup
  obtain ⟨j', hj', hjr⟩ := List.mem_filterMap.mp hr
  obtain ⟨hx1, hnone⟩ := Joined.failure_pieceNum hjx
  have heq : j'.assignment.pieceNum = j.assignment.pieceNum := by
    rw [← Joined.success_pieceNum hjr, hnum, hx1]
  rw [nums, List.map_map] at hnodup
  have hsame : j' = j := List.inj_on_of_nodup_map hnodup hj' hj heq
  rw [hsame, hnone] at hjr
  cases hjr

/-- The state after a round whose tasks all ended. -/
def State.roundEnd (s : State H) (round : Round H) (r : RoundResult H) (retry : Option Retry) :
    State H where
  job := s.job
  successes := s.successes ++ r.successes
  attempts := s.attempts + 1
  lastErrors := keptErrors (s.lastErrors ++ r.errors)
  log := s.log ++ [⟨s.job.assignments, s.pending, round.joins s.pending, r.stopped, retry⟩]

/-- What a round of the loop can do, one constructor for each way out of its body and one for going
on. -/
inductive StepCases (round : Round H) (s : State H) : Step H → Prop
  | met : StepCases round s (.done (.ok ()) s)
  | idle : StepCases round s (.done (.ok ()) { s with attempts := s.attempts + 1 })
  | panicked (e : Error) : StepCases round s (.done (.error e)
      { s with
        attempts := s.attempts + 1
        log := s.log ++ [⟨s.job.assignments, s.pending, round.joins s.pending, false, none⟩] })
  | enough (r : RoundResult H)
      (hr : uploadRound s.job s.successes (round.joins s.pending) = .ok r) :
      StepCases round s (.done (.ok ()) (s.roundEnd round r none))
  | refused (r : RoundResult H) (e : Error) (q : Retry)
      (hr : uploadRound s.job s.successes (round.joins s.pending) = .ok r)
      (hmet : requirementsMet round.after s.job (s.successes ++ r.successes) = false) :
      StepCases round s (.done (.error e) (s.roundEnd round r (some q)))
  | again (r : RoundResult H) (newId : List UInt8) (newLimits : List AddressedOrderLimit)
      (assignments : List PieceAssignment)
      (hr : uploadRound s.job s.successes (round.joins s.pending) = .ok r)
      (hmet : requirementsMet round.after s.job (s.successes ++ r.successes) = false)
      (hnew : replaceFailed newLimits s.job.assignments r.failed = .ok assignments) :
      StepCases round s (.next
        { s.roundEnd round r (some ⟨s.job.segmentId, r.failed, .ok (newId, newLimits)⟩) with
          job := { s.job with segmentId := newId, assignments := assignments } })

lemma uploadStep_cases (round : Round H) (s : State H) :
    StepCases round s (uploadStep round s) := by
  rw [uploadStep]
  split_ifs with hcheck
  · exact .met
  simp only
  split_ifs with hpending
  · exact .idle
  change StepCases round s (match uploadRound s.job s.successes (round.joins s.pending) with
    | .error e => _
    | .ok r => _)
  cases hr : uploadRound s.job s.successes (round.joins s.pending) with
  | error e => exact .panicked e
  | ok r =>
      simp only
      by_cases hmet : requirementsMet round.after s.job (s.successes ++ r.successes) = true
      · rw [if_pos hmet]
        exact .enough r hr
      · rw [if_neg hmet]
        have hmet := Bool.eq_false_of_not_eq_true hmet
        split_ifs with hfailed
        · exact .enough r hr
        · cases hanswer : round.answer with
          | error e => exact .refused r e _ hr hmet
          | ok answer =>
              obtain ⟨newId, newLimits⟩ := answer
              simp only
              cases hnew : replaceFailed newLimits s.job.assignments r.failed with
              | error e => exact .refused r e _ hr hmet
              | ok assignments => exact .again r newId newLimits assignments hr hmet hnew

/-- **One round keeps the invariant**, with the table of assignments that it leaves. -/
lemma State.Inv.round {job : LongTailUpload} {s : State H} (h : s.Inv job) {round : Round H}
    {r : RoundResult H} (hr : uploadRound s.job s.successes (round.joins s.pending) = .ok r)
    {retry : Option Retry} (hretry : ∀ q ∈ retry, q.failed = r.failed) {job' : LongTailUpload}
    (hcohort : job'.cohort = s.job.cohort) (hoptimal : job'.optimal = s.job.optimal)
    (hsub : (nums job'.assignments).Sublist (nums s.job.assignments))
    (hkeep : ∀ m ∈ nums s.job.assignments, m ∉ r.failed → m ∈ nums job'.assignments)
    (hid : job'.segmentId
      = (RoundLog.newId ⟨s.job.assignments, s.pending, round.joins s.pending, r.stopped,
          retry⟩).getD s.job.segmentId) :
    State.Inv job { s.roundEnd round r retry with job := job' } := by
  obtain ⟨hup, hfailed, -⟩ := uploadRound_spec hr
  have hperm := round.joins_perm s.pending
  have hpending : (nums s.pending).Nodup := s.nums_pending_sublist.nodup h.distinct
  have hnums := (hperm.map PieceAssignment.pieceNum)
  have hnodup : (nums ((round.joins s.pending).map Joined.assignment)).Nodup :=
    hnums.nodup_iff.mpr hpending
  have hnew : ∀ n ∈ r.successes.map PieceResult.pieceNum, n ∈ nums s.pending := by
    intro n hn
    rw [hup] at hn
    exact hnums.mem_iff.mp ((uploaded_nums_sublist _).subset hn)
  refine ⟨hcohort.trans h.cohort, hoptimal.trans h.optimal, hsub.nodup h.distinct, ?_, ?_, ?_, ?_,
    ?_, ?_, ?_, ?_⟩
  · have hle := hsub.length_le
    rw [nums, nums, List.length_map, List.length_map] at hle
    exact hle.trans h.size
  · simp only [State.roundEnd, List.flatMap_append, List.flatMap_singleton, RoundLog.uploaded]
    rw [h.successes_eq, hup]
  · simp only [State.roundEnd]
    rw [List.map_append, List.nodup_append]
    refine ⟨h.single, ?_, fun a ha b hb heq => ?_⟩
    · rw [hup]
      exact (uploaded_nums_sublist _).nodup hnodup
    · exact State.not_done_of_pending (hnew b hb) (heq ▸ ha)
  · -- a piece that was uploaded did not fail, so it stays in the table
    intro x hx
    rcases List.mem_append.mp hx with hx | hx
    · refine hkeep _ (h.known x hx) fun hf => ?_
      have hmem := hnums.mem_iff.mp ((failed_nums_sublist _).subset (hfailed.subset hf))
      exact State.not_done_of_pending hmem (List.mem_map_of_mem hx)
    · have hmem := List.mem_map_of_mem (f := PieceResult.pieceNum) hx
      refine hkeep _ (s.nums_pending_sublist.subset (hnew _ hmem)) fun hf => ?_
      rw [hup] at hmem
      exact failed_not_uploaded hnodup (hfailed.subset hf) hmem
  · simp only [State.roundEnd, List.filterMap_append, List.filterMap_cons, List.filterMap_nil]
    rw [hid, h.segmentId]
    cases hq : RoundLog.newId ⟨s.job.assignments, s.pending, round.joins s.pending, r.stopped,
        retry⟩ with
    | none => simp
    | some id => simp
  · intro e he
    rcases List.mem_append.mp he with he | he
    · exact h.sound e he
    · rw [List.mem_singleton.mp he]
      refine ⟨hperm, List.filter_subset_self _, hpending, fun q hq n hn => ?_⟩
      rw [hretry q hq] at hn
      obtain ⟨x, hx, hxn⟩ := List.mem_map.mp (hfailed.subset hn)
      obtain ⟨j, hj, hjx⟩ := List.mem_filterMap.mp hx
      exact ⟨j, hj, x, hjx, hxn⟩
  · simp only [State.roundEnd]
    rw [List.pairwise_append]
    refine ⟨h.once, List.pairwise_singleton _ _, fun e he e' he' x hx => ?_⟩
    rw [List.mem_singleton.mp he']
    intro hmem
    refine State.not_done_of_pending hmem (List.mem_map_of_mem ?_)
    rw [h.successes_eq]
    exact List.mem_flatMap.mpr ⟨e, he, hx⟩
  · simp only [State.roundEnd, List.length_append, List.length_singleton]
    exact Nat.succ_le_succ h.rounds

/-- A round that is followed by another one. -/
lemma State.Inv.again {job : LongTailUpload} {s : State H} (h : s.Inv job) {round : Round H}
    {r : RoundResult H} (hr : uploadRound s.job s.successes (round.joins s.pending) = .ok r)
    {newLimits : List AddressedOrderLimit} {assignments : List PieceAssignment}
    (hnew : replaceFailed newLimits s.job.assignments r.failed = .ok assignments)
    (newId : List UInt8) :
    State.Inv job
      { s.roundEnd round r (some ⟨s.job.segmentId, r.failed, .ok (newId, newLimits)⟩) with
        job := { s.job with segmentId := newId, assignments := assignments } } := by
  obtain ⟨-, hfailed, -⟩ := uploadRound_spec hr
  have hnums := (round.joins_perm s.pending).map PieceAssignment.pieceNum
  have hpending := s.nums_pending_sublist
  have htasks := hfailed.trans (failed_nums_sublist _)
  have hnodup : r.failed.Nodup :=
    htasks.nodup (hnums.nodup_iff.mpr (hpending.nodup h.distinct))
  have hmem : ∀ n ∈ r.failed, n ∈ nums s.job.assignments := fun n hn =>
    hpending.subset (hnums.mem_iff.mp (htasks.subset hn))
  obtain ⟨hsub, hkeep⟩ := replaceFailed_spec hnodup hmem hnew
  exact h.round hr (by simp) rfl rfl hsub hkeep rfl

/-- The loop of `upload_pieces_long_tail` keeps the invariant. -/
lemma uploadLoop_inv {job : LongTailUpload} {env : ℕ → Round H} {left : ℕ} {s s' : State H}
    (h : s.Inv job) (hrun : uploadLoop env left s = (.ok (), s')) :
    s'.Inv job ∧ s'.attempts ≤ s.attempts + left := by
  induction left generalizing s with
  | zero =>
      cases hrun
      exact ⟨h, le_refl _⟩
  | succ left ih =>
      rw [uploadLoop] at hrun
      have hcases := uploadStep_cases (env s.attempts) s
      generalize uploadStep (env s.attempts) s = step at hcases hrun
      cases hcases with
      | met =>
          cases hrun
          exact ⟨h, Nat.le_add_right _ _⟩
      | idle =>
          cases hrun
          refine ⟨⟨h.cohort, h.optimal, h.distinct, h.size, h.successes_eq, h.single, h.known,
            h.segmentId, h.sound, h.once, Nat.le_succ_of_le h.rounds⟩, ?_⟩
          simp only
          omega
      | panicked e => cases hrun
      | enough r hr =>
          cases hrun
          refine ⟨h.round hr (by simp) rfl rfl (List.Sublist.refl _) (fun m hm _ => hm) rfl, ?_⟩
          simp only [State.roundEnd]
          omega
      | refused r e q hr hmet => cases hrun
      | again r newId newLimits assignments hr hmet hnew =>
          obtain ⟨hinv, hle⟩ := ih (h.again hr hnew newId) hrun
          refine ⟨hinv, hle.trans ?_⟩
          simp only [State.roundEnd]
          omega

/-! ## What the upload returns

The results are sorted by number.  The requirements are checked a last time, on all of them.
-/

/-- With each piece once the result is the successes in the order of their numbers. -/
lemma sortPieces_spec {l : List (PieceResult H)} (h : (l.map PieceResult.pieceNum).Nodup) :
    (sortPieces l).Perm l ∧ (sortPieces l).Pairwise fun a b => a.pieceNum < b.pieceNum := by
  let le : PieceResult H → PieceResult H → Prop := fun a b => a.pieceNum ≤ b.pieceNum
  have : Std.Total le := ⟨fun a b => le_total a.pieceNum b.pieceNum⟩
  have : IsTrans _ le := ⟨fun a b c hab hbc => le_trans hab hbc⟩
  have hperm := List.perm_insertionSort le l
  have hsorted := List.pairwise_insertionSort le l
  have hnodup := (hperm.map PieceResult.pieceNum).nodup_iff.mpr h
  have hlt : (l.insertionSort le).Pairwise fun a b => a.pieceNum < b.pieceNum := by
    have hne := List.pairwise_map.mp hnodup
    exact hsorted.imp₂ (fun a b hab hne => lt_of_le_of_ne hab hne) hne
  have hself : sortPieces l = l.insertionSort le := by
    refine List.destutter_of_isChain _ _ ?_
    exact (hlt.imp fun hab => hab.ne).isChain
  rw [hself]
  exact ⟨hperm, hlt⟩

/-- **What an upload delivers**, in terms of its rounds.

* `ascending`, `uploaded`: the results are in the order of the piece numbers, and they are exactly
  the pieces that a task uploaded in some round, each with the node of the assignment that the task
  was given.
* `checked`: the last check was made for these results and was true.
* `segmentId`: the id is that of the last answer of the satellite.
* `sound`, `once`: each round uploads pieces that were not uploaded before, each once and under the
  assignment of that time, and asks only about pieces that failed in it. -/
structure Delivered (job : LongTailUpload) (last : Orders) (s : State H) (id : List UInt8)
    (results : List (PieceResult H)) : Prop where
  ascending : results.Pairwise fun a b => a.pieceNum < b.pieceNum
  uploaded : ∀ r, r ∈ results ↔ ∃ e ∈ s.log, ∃ j ∈ e.joins, ∃ hash,
    j.outcome = .finished (.ok hash) ∧
    r = ⟨j.assignment.pieceNum, j.assignment.nodeId.toList, some hash⟩
  checked : ∃ l, l.Perm results ∧ requirementsMet last s.job l = true
  segmentId : id = ((s.log.filterMap RoundLog.newId).getLast?).getD job.segmentId
  sound : ∀ e ∈ s.log, e.Sound
  once : s.log.Pairwise RoundLog.Before
  rounds : s.log.length ≤ 4

lemma Joined.success_iff {j : Joined H} {r : PieceResult H} : j.success = some r ↔
    ∃ hash, j.outcome = .finished (.ok hash) ∧
      r = ⟨j.assignment.pieceNum, j.assignment.nodeId.toList, some hash⟩ := by
  rw [Joined.success]
  cases ho : j.outcome with
  | finished put =>
      cases put with
      | ok hash => simp [uploadOnePiece, Except.toOption, eq_comm]
      | error e => simp [uploadOnePiece, Except.toOption]
  | cancelled => simp
  | panicked text => simp

/-- The end of `upload_pieces_long_tail`. -/
lemma uploadPiecesLongTail_cases (env : ℕ → Round H) (last : Orders) (job : LongTailUpload) :
    (∃ e, uploadLoop env 4 (.start job) = (.error e, (uploadPiecesLongTail env last job).2) ∧
      (uploadPiecesLongTail env last job).1 = .error e) ∨
    ∃ s, uploadLoop env 4 (.start job) = (.ok (), s) ∧
      (uploadPiecesLongTail env last job).2 = s ∧
      (uploadPiecesLongTail env last job).1
        = if requirementsMet last s.job s.successes then .ok (s.job.segmentId, sortPieces s.successes)
          else .error (.protocol (uploadFailure s)) := by
  rw [uploadPiecesLongTail]
  rcases hrun : uploadLoop env 4 (.start job) with ⟨result, s⟩
  cases result with
  | error e => exact Or.inl ⟨e, rfl, rfl⟩
  | ok u =>
      refine Or.inr ⟨s, rfl, ?_⟩
      simp only
      cases hmet : requirementsMet last s.job s.successes with
      | true => simp
      | false => simp

/-- **The result of a long-tail upload.** -/
theorem uploadPiecesLongTail_ok {env : ℕ → Round H} {last : Orders} {job : LongTailUpload}
    {id : List UInt8} {results : List (PieceResult H)} {s : State H}
    (hdistinct : (nums job.assignments).Nodup)
    (h : uploadPiecesLongTail env last job = (.ok (id, results), s)) :
    Delivered job last s id results := by
  rcases uploadPiecesLongTail_cases env last job with ⟨e, -, herr⟩ | ⟨t, hrun, hs, hres⟩
  · rw [h] at herr
    cases herr
  · rw [h] at hs hres
    obtain rfl : s = t := hs
    obtain ⟨hinv, hattempts⟩ := uploadLoop_inv (State.inv_start hdistinct) hrun
    by_cases hmet : requirementsMet last s.job s.successes = true
    · simp only [if_pos hmet, Except.ok.injEq, Prod.mk.injEq] at hres
      obtain ⟨rfl, rfl⟩ := hres
      obtain ⟨hperm, hsorted⟩ := sortPieces_spec hinv.single
      refine ⟨hsorted, fun r => ?_, ⟨s.successes, hperm.symm, hmet⟩, hinv.segmentId, hinv.sound,
        hinv.once, hinv.rounds.trans hattempts⟩
      rw [hperm.mem_iff, hinv.successes_eq, List.mem_flatMap]
      simp only [RoundLog.uploaded, List.mem_filterMap, Joined.success_iff]
    · simp only [if_neg hmet] at hres
      cases hres

section Example

/-- Orders that visit every map as it is. -/
def plainOrders : Orders := fun _ =>
  ⟨⟨id, fun l => List.Perm.refl l⟩, ⟨id, fun l => List.Perm.refl l⟩⟩

/-- A round whose tasks end in the order of the assignments. -/
def Round.inOrder (outcome : PieceAssignment → Outcome H)
    (answer : Except Error (List UInt8 × List AddressedOrderLimit)) : Round H where
  check := plainOrders
  joins pending := pending.map fun a => ⟨a, outcome a, plainOrders⟩
  joins_perm pending := by
    rw [List.map_map, show Joined.assignment ∘ _ = id from rfl, List.map_id]
  after := plainOrders
  answer := answer

/-- A piece on the node whose id is one byte over and over. -/
def examplePiece (n : ℤ) (node : UInt8) (tags : Tags) : PieceAssignment :=
  ⟨n, ⟨[], List.replicate 32 node⟩, "127.0.0.1:7777", Vector.replicate 32 node, none, false, tags⟩

/-- Three pieces, two of which are needed. -/
def twoOfThree : LongTailUpload :=
  ⟨[examplePiece 0 1 [], examplePiece 1 2 [], examplePiece 2 3 []], [1], 2, none⟩

/-- Only the first piece goes through at first; the satellite has another node for the second piece
and none for the third. -/
def secondNode : ℕ → Round ℕ := fun i =>
  .inOrder (fun a => .finished (if a.pieceNum = 0 ∨ i = 1 then .ok 7 else .error (.other "refused")))
    (.ok ([2], [⟨none, none, []⟩,
      ⟨some ⟨[], List.replicate 32 9⟩, some ⟨"127.0.0.1:7778", none, 0, 0⟩, []⟩,
      ⟨none, none, []⟩]))

/-- The second piece is reported with the node that has it. -/
theorem uploadPiecesLongTail_second_node :
    Delivered twoOfThree plainOrders (uploadPiecesLongTail secondNode plainOrders twoOfThree).2 [2]
      [⟨0, List.replicate 32 1, some 7⟩, ⟨1, List.replicate 32 9, some 7⟩] := by
  have hrun : (uploadPiecesLongTail secondNode plainOrders twoOfThree).1
      = .ok ([2], [⟨0, List.replicate 32 1, some 7⟩, ⟨1, List.replicate 32 9, some 7⟩]) := by
    decide +kernel
  exact uploadPiecesLongTail_ok (by decide) (Prod.ext hrun rfl)

end Example

/-! ## Stopping early

Once the requirements are met the tasks that still run are aborted, but some may have ended
already, and their pieces are added.  Adding pieces is harmless where the requirements are
monotone.
-/

/-- Whether an early stop is safe: the requirements do not mix keys, and there are fewer pieces than
the count of a `Literal` can hold. -/
def StopsSafely (job : LongTailUpload) : Prop :=
  ∀ req ∈ job.cohort, unmixed req = true ∧ job.assignments.length < 2 ^ 31

lemma successTags_subperm (job : LongTailUpload) {l l' : List (PieceResult H)} (h : l.Subperm l') :
    (successTags job l).Subperm (successTags job l') := by
  obtain ⟨m, hm, hsub⟩ := h
  exact ⟨_, hm.filterMap _, hsub.filterMap _⟩

lemma length_successTags_le {job : LongTailUpload} {l : List (PieceResult H)}
    (h : (l.map PieceResult.pieceNum).Nodup) :
    (successTags job l).length ≤ job.assignments.length := by
  let found : PieceResult H → Bool := fun s =>
    (job.assignments.find? fun a => a.pieceNum = s.pieceNum).isSome
  have hlen : (successTags job l).length = (l.filter found).length := by
    rw [successTags, List.length_filterMap_eq_countP, List.countP_eq_length_filter]
    simp only [Option.isSome_map]
    rfl
  have hnodup : ((l.filter found).map PieceResult.pieceNum).Nodup :=
    (List.filter_sublist.map _).nodup h
  have hsub : (l.filter found).map PieceResult.pieceNum ⊆ nums job.assignments := by
    intro n hn
    obtain ⟨s, hs, rfl⟩ := List.mem_map.mp hn
    obtain ⟨a, ha⟩ := Option.isSome_iff_exists.mp (List.mem_filter.mp hs).2
    have hnum : a.pieceNum = s.pieceNum := by simpa using List.find?_some ha
    exact hnum ▸ List.mem_map_of_mem (List.mem_of_find?_eq_some ha)
  have hle := (List.subperm_of_subset hnodup hsub).length_le
  rw [List.length_map, nums, List.length_map] at hle
  rw [hlen]
  exact hle

/-- **Monotonicity of `requirements_met`.**  More successes never turn it to false. -/
lemma requirementsMet_mono {job : LongTailUpload} (hjob : StopsSafely job)
    {l l' : List (PieceResult H)} (h : l.Subperm l') (hnodup : (l'.map PieceResult.pieceNum).Nodup)
    (orders orders' : Orders) (hmet : requirementsMet orders job l = true) :
    requirementsMet orders' job l' = true := by
  have hsub := successTags_subperm job h
  rw [requirementsMet] at hmet ⊢
  cases hc : job.cohort with
  | none =>
      simp only [hc, ge_iff_le, decide_eq_true_eq] at hmet ⊢
      exact hmet.trans hsub.length_le
  | some req =>
      simp only [hc] at hmet ⊢
      obtain ⟨hreq, hsize⟩ := hjob req hc
      exact cohortValid_mono hsub ((length_successTags_le hnodup).trans_lt hsize) req orders orders'
        hreq hmet

lemma State.Inv.stopsSafely {job : LongTailUpload} {s : State H} (h : s.Inv job)
    (hjob : StopsSafely job) : StopsSafely s.job := by
  intro req hreq
  obtain ⟨hun, hsize⟩ := hjob req (h.cohort ▸ hreq)
  exact ⟨hun, h.size.trans_lt hsize⟩

/-- A round that stopped early leaves successes that meet the requirements. -/
lemma State.Inv.met_of_stopped {job : LongTailUpload} {s : State H} (h : s.Inv job)
    (hjob : StopsSafely job) {round : Round H} {r : RoundResult H}
    (hr : uploadRound s.job s.successes (round.joins s.pending) = .ok r) (hstop : r.stopped = true)
    (orders : Orders) : requirementsMet orders s.job (s.successes ++ r.successes) = true := by
  obtain ⟨-, -, hmet⟩ := uploadRound_spec hr
  obtain ⟨orders', l, hl, hmet⟩ := hmet hstop
  have hround : State.Inv job { s.roundEnd round r none with job := s.job } :=
    h.round hr (by simp) rfl rfl (List.Sublist.refl _) (fun m hm _ => hm) rfl
  exact requirementsMet_mono (h.stopsSafely hjob) (hl.append_left _).subperm hround.single
    orders' orders hmet

lemma uploadLoop_stopped {job : LongTailUpload} (hjob : StopsSafely job) {env : ℕ → Round H}
    {left : ℕ} {s s' : State H} {result : Except Error Unit} (h : s.Inv job)
    (hlog : ∀ e ∈ s.log, e.stopped = false) (hrun : uploadLoop env left s = (result, s'))
    (hstop : ∃ e ∈ s'.log, e.stopped = true) :
    result = .ok () ∧ s'.Inv job ∧ ∀ orders, requirementsMet orders s'.job s'.successes = true := by
  -- the entry of the last round is the one that stopped
  have hlast : ∀ {t : State H} {e : RoundLog H}, (∀ e ∈ t.log, e.stopped = false) →
      (∃ x ∈ t.log ++ [e], x.stopped = true) → e.stopped = true := by
    rintro t e ht ⟨x, hx, hxs⟩
    rcases List.mem_append.mp hx with hx | hx
    · rw [ht x hx] at hxs
      cases hxs
    · rwa [← List.mem_singleton.mp hx]
  induction left generalizing s with
  | zero =>
      cases hrun
      obtain ⟨e, he, hs⟩ := hstop
      rw [hlog e he] at hs
      cases hs
  | succ left ih =>
      rw [uploadLoop] at hrun
      have hcases := uploadStep_cases (env s.attempts) s
      generalize uploadStep (env s.attempts) s = step at hcases hrun
      cases hcases with
      | met =>
          cases hrun
          obtain ⟨e, he, hs⟩ := hstop
          rw [hlog e he] at hs
          cases hs
      | idle =>
          cases hrun
          obtain ⟨e, he, hs⟩ := hstop
          rw [hlog e he] at hs
          cases hs
      | panicked e =>
          cases hrun
          cases hlast hlog hstop
      | enough r hr =>
          cases hrun
          have hround : State.Inv job { s.roundEnd (env s.attempts) r none with job := s.job } :=
            h.round hr (by simp) rfl rfl (List.Sublist.refl _) (fun m hm _ => hm) rfl
          exact ⟨rfl, hround, h.met_of_stopped hjob hr (hlast hlog hstop)⟩
      | refused r e q hr hmet =>
          cases hrun
          rw [h.met_of_stopped hjob hr (hlast hlog hstop)] at hmet
          cases hmet
      | again r newId newLimits assignments hr hmet hnew =>
          have hgo : r.stopped = false := by
            cases hs : r.stopped with
            | false => rfl
            | true =>
                rw [h.met_of_stopped hjob hr hs] at hmet
                cases hmet
          refine ih (h.again hr hnew newId) (fun e he => ?_) hrun
          rcases List.mem_append.mp he with he | he
          · exact hlog e he
          · rw [List.mem_singleton.mp he]
            exact hgo

/-- **Stopping early is safe** where `StopsSafely` says so: once a round has stopped, the upload
returns all the pieces that were uploaded, whatever else was uploaded before the rest was aborted
and however the later checks break ties; and `requirements_met` is monotone. -/
theorem stopping_early_safe {job : LongTailUpload} (hdistinct : (nums job.assignments).Nodup)
    (hjob : StopsSafely job) :
    (∀ (env : ℕ → Round H) (last : Orders),
      (∃ e ∈ (uploadPiecesLongTail env last job).2.log, e.stopped = true) →
      ∃ id results, (uploadPiecesLongTail env last job).1 = .ok (id, results) ∧
        results.Perm (uploadPiecesLongTail env last job).2.successes) ∧
    ∀ (orders orders' : Orders) (l l' : List (PieceResult H)), l.Subperm l' →
      (l'.map PieceResult.pieceNum).Nodup → requirementsMet orders job l = true →
      requirementsMet orders' job l' = true := by
  refine ⟨fun env last hstop => ?_, fun orders orders' l l' hl hl' hmet =>
    requirementsMet_mono hjob hl hl' orders orders' hmet⟩
  have hstart : ∀ e ∈ (State.start job : State H).log, e.stopped = false := by simp [State.start]
  rcases uploadPiecesLongTail_cases env last job with ⟨e, hrun, -⟩ | ⟨s, hrun, hs, hres⟩
  · obtain ⟨herr, -⟩ := uploadLoop_stopped hjob (State.inv_start hdistinct) hstart hrun hstop
    cases herr
  · rw [hs] at hstop ⊢
    obtain ⟨-, hinv, hmet⟩ := uploadLoop_stopped hjob (State.inv_start hdistinct) hstart hrun hstop
    rw [hres, if_pos (hmet last)]
    exact ⟨_, _, rfl, (sortPieces_spec hinv.single).1⟩

section Example

/-- A piece with a value for each of two tags. -/
def taggedPiece (n : ℤ) (region owner : UInt8) : PieceAssignment :=
  examplePiece n n.toNat.toUInt8 [("region", [region]), ("owner", [owner])]

/-- One piece must be left when the largest region is withheld and from the rest the largest owner.
-/
def mixedKeys : CohortRequirements :=
  .withhold "region" 1 (some (.withhold "owner" 1 (some (.literal 1))))

/-- Three pieces of one region and owner, then four of another region. -/
def mixedJob : LongTailUpload :=
  ⟨[taggedPiece 0 1 1, taggedPiece 1 1 1, taggedPiece 2 1 1, taggedPiece 3 2 2, taggedPiece 4 2 3,
    taggedPiece 5 2 2, taggedPiece 6 2 2], [1], 5, some mixedKeys⟩

/-- Every piece goes through. -/
def allUploaded : ℕ → Round ℕ := fun _ => .inOrder (fun _ => .finished (.ok 7)) (.ok ([], []))

/-- **An early stop that is not safe.**  The first five pieces meet the requirements, and the other
two had already ended: with them the second region is the largest, and what is left of the first one
has one owner. -/
theorem stopping_early_mixed_keys :
    (nums mixedJob.assignments).Nodup ∧
    ((uploadPiecesLongTail allUploaded plainOrders mixedJob).2.log.map RoundLog.stopped = [true] ∧
    (uploadPiecesLongTail allUploaded plainOrders mixedJob).1 = .error (.protocol
      "segment upload: 7 successful pieces do not meet cohort/o (o=5); recent piece errors: []")) := by
  decide +kernel

/-- The same pieces, with one key. -/
def oneKeyJob : LongTailUpload :=
  { mixedJob with cohort := some (.withhold "owner" 1 (some (.literal 2))) }

theorem stopping_early_one_key :
    ∃ id results, (uploadPiecesLongTail allUploaded plainOrders oneKeyJob).1 = .ok (id, results) ∧
      results.Perm (uploadPiecesLongTail allUploaded plainOrders oneKeyJob).2.successes := by
  have hjob : StopsSafely oneKeyJob := by
    rintro req hreq
    cases hreq
    decide +kernel
  have hstop : (uploadPiecesLongTail allUploaded plainOrders oneKeyJob).2.log.map RoundLog.stopped
      = [true] := by
    decide +kernel
  obtain ⟨e, he, hs⟩ := List.mem_map.mp (hstop ▸ List.mem_singleton.mpr rfl)
  exact (stopping_early_safe (by decide +kernel) hjob).1 _ _ ⟨e, he, hs⟩

end Example

end Storj.Segment
