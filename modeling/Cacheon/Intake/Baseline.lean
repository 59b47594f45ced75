import Cacheon.Intake.Queue

/-!
# Evaluation stacks and baseline segments

Each arena has one evaluation stack, the incumbent its candidates are measured against.  A
reservation is measured over the stack its baseline segment names, which is bound before the
first claim and kept across restarts.
-/

namespace Cacheon

open Fallible IntakeFault

namespace Store

variable {K : IntakeHashes} (s : Store K)

/-! ### Stacks -/

/-- Reopen a stored stack. -/
def reopenStack (state : EvaluationStackState) : Intake EvaluationStackState := do
  check (state.manifest.arenaDigest = state.arenaDigest)
    (intake "evaluation stack state is malformed")
  return state

/-- The stack of an arena. -/
def evaluationStack (arena : Digest) : Intake EvaluationStackState := do
  let row ← Fallible.get (intake "evaluation stack is not initialized")
    (s.evaluationStacks.find? arena)
  reopenStack row.toEvaluationStackState

/-- The stack of an arena, if it has one. -/
def unambiguousEvaluationStack (arena : Digest) : Intake (Option EvaluationStackState) :=
  match s.evaluationStacks.find? arena with
  | some row => (reopenStack row.toEvaluationStackState).map some
  | none => .ok none

/-- The stack an operator commissions, before any crown. -/
def commissionedStack (K : IntakeHashes) (manifest : EvaluationStackManifest) (tree : Digest) :
    EvaluationStackState where
  arenaDigest := manifest.arenaDigest
  generation := 0
  manifest := manifest
  treeDigest := tree
  transitionEventId := K.stackGenesis manifest.arenaDigest (K.manifest manifest) tree

/-- Install the genesis stack of an arena, or check that it is the installed one. -/
def initializeEvaluationStackRow (manifest : EvaluationStackManifest) (tree : Digest) :
    Intake (Store K) :=
  match s.evaluationStacks.find? manifest.arenaDigest with
  | none => .ok { s with
      evaluationStacks := s.evaluationStacks.put
        { commissionedStack K manifest tree with competitionArena := s.selectedArena } }
  | some existing => do
    check (existing.competitionArena = s.selectedArena)
      (intake "commission belongs to another competition arena")
    check (existing.generation = 0 → existing.manifest = manifest ∧ existing.treeDigest = tree)
      (intake "genesis qualification names another incumbent")
    .ok s

/-! ### Segments -/

/-- The statuses of work that is still in the queue. -/
def activeStatuses : List Status :=
  [.deferred, .reserved, .fetching, .transportRetry, .published, .qualifying, .reproductionPending]

/-- The stack a reservation is measured over. -/
def reservationBaselineSegment (id : Digest) : Intake (Option EvaluationStackState) :=
  match s.segments.find? id with
  | some segment => (reopenStack segment.toEvaluationStackState).map some
  | none => .ok none

/-- A reservation and the queued reservations of its retry group. -/
def retryGroup (row : IntakeReservation) : List Digest :=
  match row.retryGroupDigest with
  | none => [row.reservationId K]
  | some group =>
    let queued := Keyed.sortBy (·.retryPosition) (s.reservations.rows.filter fun r =>
      r.status = .published ∧ r.retryGroupDigest = some group)
    row.reservationId K :: (queued.map (·.reservationId K)).filter (· ≠ row.reservationId K)

/-- The store with other segments. -/
def withSegments (t : Table BaselineSegment.reservationId) : Store K :=
  { s with segments := t }

/-- Drop the segments that name another arena; the reason then says which one was left. -/
def rebindReason (ids : List Digest) (arena : Digest) (reason : String) :
    Intake String :=
  let retired := Keyed.sortBy id ((s.segments.rows.filter fun b =>
    b.reservationId ∈ ids ∧ b.arenaDigest ≠ arena).map (·.arenaDigest))
  match retired with
  | [] => .ok reason
  | left :: _ =>
    let reason := reason ++ ":rebound_from_" ++ String.ofList (left.hex.toList.take 16)
    if reason.length ≤ 128 then .ok reason
    else .error (intake "reservation baseline rebind reason is malformed")

/-- The stack to bind: for a retry group, the one of its members that are bound already. -/
def groupSegment (grouped : Bool) (ids : List Digest) (state : EvaluationStackState) :
    Intake EvaluationStackState :=
  if !grouped then .ok state
  else match (s.segments.rows.filter (·.reservationId ∈ ids)).map (·.toEvaluationStackState) with
  | [] => .ok state
  | first :: rest => do
    check (∀ other ∈ rest, other = first)
      (intake "qualification retry group spans baseline segments")
    .ok first

/-- Bind a reservation, and its retry group, to a stack.  A segment of the stack's own arena is
kept. -/
def bindReservationBaselineSegment (id : Digest) (state : EvaluationStackState)
    (reason : String) : Intake (Store K) := do
  check (reason ≠ "" ∧ reason.length ≤ 128) (intake "reservation baseline binding is malformed")
  let row ← Fallible.get (intake "reservation baseline binding lost its reservation")
    (s.reservations.find? id)
  check (row.competitionArena = s.selectedArena)
    (intake "baseline belongs to another competition arena")
  let ids := s.retryGroup row
  let reason ← s.rebindReason ids state.arenaDigest reason
  let s := s.withSegments (s.segments.filter fun b =>
    ¬(b.reservationId ∈ ids ∧ b.arenaDigest ≠ state.arenaDigest))
  let state ← s.groupSegment row.retryGroupDigest.isSome ids state
  .ok (s.withSegments (ids.foldl (fun t id => (t.insert
    { state with reservationId := id, bindingReason := reason }).getD t) s.segments))

/-- Bind every unbound reservation of the selected competition. -/
def bindUnboundQueueToStack (state : EvaluationStackState) (reason : String) : Intake (Store K) :=
  let rows := s.reservations.rows.filter fun r =>
    r.status ∈ activeStatuses ∧ r.competitionArena = s.selectedArena ∧
      s.segments.find? (r.reservationId K) = none
  rows.foldlM (fun s r => s.bindReservationBaselineSegment (r.reservationId K) state reason) s

/-- The segment of the oldest active reservation of the selected competition. -/
def qualificationQueueBaseline : Intake (Option EvaluationStackState) :=
  match s.all.find? fun r =>
      r.status ∈ activeStatuses ∧ r.competitionArena = s.selectedArena with
  | none => .ok none
  | some row => s.reservationBaselineSegment (row.reservationId K)

/-- Install one exact genesis incumbent, or reopen the identical state. -/
def initializeEvaluationStack (manifest : EvaluationStackManifest) (tree : Digest) :
    Intake (Store K) := do
  let s ← s.initializeEvaluationStackRow manifest tree
  let state ← s.evaluationStack manifest.arenaDigest
  s.bindUnboundQueueToStack state "initialize_stack"

variable (incumbent : EvaluationStackManifest)

/-- Bind one reservation to the commissioned incumbent, unless it is already. -/
def rebindRow (tree : Digest) (r : IntakeReservation) : Intake (Store K) := do
  let prior ← s.reservationBaselineSegment (r.reservationId K)
  if prior.any fun p => K.manifest p.manifest = K.manifest incumbent ∧ p.treeDigest = tree then
    .ok s
  else
    (s.withSegments (s.segments.filter (·.reservationId ≠ r.reservationId K))
      ).bindReservationBaselineSegment (r.reservationId K)
        (commissionedStack K incumbent tree) "commissioned_incumbent"

/-! ### The commission boundary -/

/-- An order in which the database returns the rows of a query that does not ask for one. -/
structure RowOrder where
  arrange : List IntakeReservation → List IntakeReservation
  perm : ∀ rows, (arrange rows).Perm rows

/-- Work that holds no evidence yet, and no lease. -/
def Rebindable (r : IntakeReservation) : Prop :=
  r.status ∈ [.published, .transportRetry] ∧ r.competitionArena = s.selectedArena ∧
    s.leased (r.reservationId K) = false ∧ s.retained (r.reservationId K) = []

instance : DecidablePred s.Rebindable := fun r => by
  unfold Rebindable
  infer_instance

/-- The stack of the commissioned arena, installed if the arena has none. -/
def installCommission (tree : Digest) : Intake (Store K) :=
  match s.evaluationStack incumbent.arenaDigest with
  | .ok _ => .ok s
  | .error fault =>
    if fault = intake "evaluation stack is not initialized" then
      s.initializeEvaluationStack incumbent tree
    else .error fault

/-- Bind unmeasured work to the sealed commission before any claim.  The answer names the
boundary when the head of the queue drains under another stack. -/
def commissionBoundary (tree : Digest) (order : RowOrder) :
    Store K × Intake (Option (Digest × Digest × Digest)) :=
  match s.installCommission incumbent tree with
  | .error fault => (s, .error fault)
  | .ok s =>
    let rows := order.arrange (s.reservations.rows.filter s.Rebindable)
    match rows.foldlM (fun s r => s.rebindRow incumbent tree r) s with
    | .error fault => (s, .error fault)
    | .ok s => (s, do
        let required ← s.qualificationQueueBaseline
        .ok (required.bind fun r =>
          if K.manifest r.manifest = K.manifest incumbent ∧ r.treeDigest = tree then none
          else some (K.manifest incumbent, K.manifest r.manifest, r.treeDigest)))

end Store

end Cacheon
