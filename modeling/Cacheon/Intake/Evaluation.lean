import Cacheon.Intake.History

/-!
# Evaluation leases

A worker evaluates a cohort under a lease.  While the lease is active its reservations are
fenced; the result is applied in the context of the lease, which completes it.  A recoverable
store keeps a record of how far the remote work has come, and only that record can end the
lease without a result.
-/

namespace Cacheon

open Fallible IntakeFault

/-- Why a worker refuses a request before it runs. -/
inductive PreResidentFailure where
  | adapterRequestFailed
  | adapterStartFailed
deriving DecidableEq

/-- The reason a refused request is released for. -/
def PreResidentFailure.releaseReason : PreResidentFailure → String
  | .adapterRequestFailed => "worker_pre_resident:adapter_request_failed"
  | .adapterStartFailed => "worker_pre_resident:adapter_start_failed"

/-- The event that ends a lease in a state. -/
def LeaseState.event : LeaseState → LeaseEventType
  | .active => .claimed
  | .expired => .expired
  | .released => .released
  | .completed => .completed

/-- The phases that lead to a phase. -/
def RecoveryPhase.predecessors : RecoveryPhase → List RecoveryPhase
  | .prepared => [.claimed]
  | .publicationCommitted => [.prepared]
  | .requestReady => [.publicationCommitted]
  | .resultReady => [.publicationCommitted, .requestReady]
  | .evidenceImported => [.resultReady]
  | .claimed | .held => []

/-- The event of a phase. -/
def RecoveryPhase.event : RecoveryPhase → RecoveryEventType
  | .claimed => .claimed
  | .prepared => .prepared
  | .publicationCommitted => .publicationCommitted
  | .requestReady => .requestReady
  | .resultReady => .resultReady
  | .evidenceImported => .evidenceImported
  | .held => .held

/-- The lease with a later deadline. -/
def EvaluationLease.renewed (lease : EvaluationLease) (expires : ℕ)
    (h : lease.expiresBlock ≤ expires) : EvaluationLease :=
  { lease with
    expiresBlock := expires, blocks_ok := ⟨lease.blocks_ok.1, lease.blocks_ok.2.trans h⟩ }

/-- The lease after it ended. -/
def EvaluationLease.closed (lease : EvaluationLease) (state : LeaseState) (block : ℕ)
    (resultDigest : Option Digest) (reason : String) : EvaluationLease :=
  { lease with
    state := state, completedBlock := block, resultDigest := resultDigest, reason := reason }

/-- The recovery of a lease that was just claimed. -/
def EvaluationRecovery.create (block : ℕ) : EvaluationRecovery where
  createdBlock := block
  updatedBlock := block
  wellFormed := ⟨le_rfl, rfl, fun _ => rfl, fun h => absurd (List.mem_cons_self ..) h,
    by simp, by simp⟩

/-- The event that records a recovery. -/
def recoveryEvent (sequence : ℕ) (eventType : RecoveryEventType) (lease : EvaluationLease)
    (current : EvaluationRecovery) : EvaluationRecoveryEvent where
  sequence := sequence
  leaseId := lease.leaseId
  revision := current.revision
  eventType := eventType
  phase := current.phase
  resolution := current.resolution
  finalizedBlock := current.updatedBlock
  expiresBlock := lease.expiresBlock
  plan := current.plan.map fun plan => (plan.planDigest, plan.requestId)
  reason := current.reason

namespace Store

variable {K : IntakeHashes} (s : Store K)

/-- The store with other leases. -/
def withLeases (t : Table EvaluationLease.leaseId) : Store K :=
  { s with leases := t }

variable (lease : EvaluationLease) (currentBlock : ℕ)

/-- Every member still has the status it was claimed with. -/
def membersUnchanged : Prop :=
  ∀ m ∈ lease.members, (s.reservations.find? m.1).map (·.status) = some m.2

instance : Decidable (s.membersUnchanged lease) := by
  unfold membersUnchanged; infer_instance

/-- Add an event to the history of a lease. -/
def appendEvaluationLeaseEvent (eventType : LeaseEventType)
    (finalizedBlock : ℕ) (resultDigest : Option Digest) (reason : String) : Store K :=
  { s with leaseEvents := s.leaseEvents ++
      [{ leaseId := lease.leaseId
         generation := lease.generation
         eventIndex := (s.leaseStream lease.leaseId).length
         eventType := eventType
         owner := lease.owner
         members := lease.members
         finalizedBlock := finalizedBlock
         expiresBlock := lease.expiresBlock
         resultDigest := resultDigest
         reason := reason }] }

/-- End a lease, if it is active with the deadline the caller knows. -/
def endLease (state : LeaseState) (currentBlock : ℕ)
    (resultDigest : Option Digest) (reason changed : String) :
    Intake (Store K) := do
  check (∃ stored ∈ s.leases.find? lease.leaseId, stored.state = .active ∧
      stored.expiresBlock = lease.expiresBlock) (intake changed)
  let s := s.withLeases (s.leases.update (·.leaseId = lease.leaseId)
    (·.closed state currentBlock resultDigest reason) fun _ => rfl)
  .ok (s.appendEvaluationLeaseEvent lease state.event currentBlock resultDigest reason)

/-- The place of a lease among those that are due: its first member's place. -/
def leaseOrder : ArrivalKey ×ₗ Digest :=
  toLex ((lease.members.head?.bind fun m => s.reservations.find? m.1).elim
    (toLex (0, toLex (0, toLex (0, toLex ("", 0))))) (·.arrivalKey), lease.leaseId)

/-- The lease, if it is active and unchanged since the caller read it. -/
def activeEvaluationLease : Intake Unit :=
  check (lease.state = .active ∧ s.leases.find? lease.leaseId = some lease)
    (intake "evaluation lease is stale or no longer active")

/-- The recovery of a lease, if it is unresolved, unchanged since the caller read it and has a
sound history. -/
def activeRecovery : Intake EvaluationRecovery := do
  let current ← Fallible.get
    (recovery "active qualification lease has no recovery authority; HOLD") lease.recovery
  check (s.leases.find? lease.leaseId = some lease) (intake "evaluation recovery object is stale")
  check (current.resolution = .unresolved)
    (recovery "active qualification lease has a resolved recovery; HOLD")
  let _ ← s.evaluationRecoveryEvents lease
  .ok current

/-- Every active lease of the selected competition has its recovery. -/
def requireNoOrphanActiveQualification : Intake Unit :=
  (s.leases.rows.filter fun l =>
    l.state = .active ∧ l.competitionArena = s.selectedArena).forM fun l => do
      let _ ← s.activeRecovery l

/-- Expire a lease whose members are unchanged. -/
def expireLease (lease : EvaluationLease) : Intake (Store K) := do
  check (s.membersUnchanged lease)
    (intake "expired evaluation lease no longer has its exact queue state")
  s.endLease lease .expired currentBlock none "evaluation_lease_expired"
    "evaluation lease changed while expiring"

/-- Expire the leases whose deadline has passed.  A recoverable store never does. -/
def expireDueLeases : Intake (Store K) :=
  if s.recoverable then do
    s.requireNoOrphanActiveQualification
    .ok s
  else
    let due := Keyed.sortBy s.leaseOrder (s.leases.rows.filter fun l =>
      l.state = .active ∧ l.expiresBlock ≤ currentBlock)
    due.foldlM (fun s lease => s.expireLease currentBlock lease) s

/-- Expire the due leases at the finalized cursor. -/
def expireEvaluationLeases : Intake (Store K) := do
  s.requireEvaluationClock currentBlock
  s.expireDueLeases currentBlock

/-! ### Claims -/

/-- A worker name. -/
def isEvaluationOwner (owner : String) : Bool :=
  decide (1 ≤ owner.length ∧ owner.length ≤ 256) &&
    !(owner.toList.head?.any isSpace) && !(owner.toList.getLast?.any isSpace) &&
    owner.toList.all fun c => decide (32 ≤ c.toNat ∧ c.toNat ≠ 127)

/-- The reservation waits for a claim over the baseline of the queue. -/
def claimableOver (baseline : Option EvaluationStackState) (r : IntakeReservation) : Bool :=
  r.status ∈ [.published, .reproductionPending] && !s.leased (r.reservationId K) &&
    r.competitionArena = s.selectedArena &&
    baseline.all fun b =>
      (s.segments.find? (r.reservationId K)).map (·.toEvaluationStackState) = some b

/-- The oldest cohort a worker may claim.  A reproduction is claimed alone and first, a retry
group as a whole. -/
def selectEvaluationRows (bound : ℕ) (owner : String) (maxActive : ℕ) :
    Intake (List IntakeReservation) := do
  let active := s.leases.rows.filter fun l =>
    l.state = .active ∧ l.competitionArena = s.selectedArena
  if active.any (·.owner = owner) ∨ maxActive ≤ active.length then .ok []
  else
    let baseline ← s.qualificationQueueBaseline
    if baseline = none ∧
        s.evaluationStacks.rows.any (·.competitionArena = s.selectedArena) then .ok []
    else
      let rows := s.all.filter (s.claimableOver baseline)
      match rows.find? (·.status = .reproductionPending) with
      | some first => .ok [first]
      | none => match rows.head? with
        | none => .ok []
        | some first => match first.retryGroupDigest with
          | none => .ok ((rows.filter (·.retryGroupDigest = none)).take bound)
          | some group => do
            let selected := Keyed.sortBy (·.retryPosition)
              (rows.filter (·.retryGroupDigest = some group))
            let total := s.reservations.rows.countP fun r => r.status = .published ∧
              r.retryGroupDigest = some group ∧ r.competitionArena = s.selectedArena
            check (selected.length = total) (intake "qualification retry group is partially leased")
            check (selected.length ≤ bound)
              (intake "qualification retry group exceeds lease capacity")
            .ok selected

/-- The generation of the next lease of some reservations. -/
def nextLeaseGeneration (ids : List Digest) : ℕ :=
  ((s.leases.rows.filter fun l => l.reservationIds.any (· ∈ ids)).map
    (·.generation)).foldr max 0 + 1

/-- Create the recovery of a new lease. -/
def createEvaluationRecovery : Store K :=
  if s.recoverable then
    { s with
      leases := s.leases.put { lease with recovery := some (.create lease.claimedBlock) }
      recoveryEvents := s.recoveryEvents ++
        [recoveryEvent (s.recoveryEvents.length + 1) .claimed lease (.create lease.claimedBlock)] }
  else s

/-- Lease some reservations to a worker. -/
def openLease (owner : String) (currentBlock leaseBlocks : ℕ) (members : List (Digest × Status)) :
    Intake (Store K) := do
  let generation := s.nextLeaseGeneration (members.map (·.1))
  let expires := currentBlock + leaseBlocks
  if h : (∀ m ∈ members, m.2 ∈ [.published, .reproductionPending]) ∧
      (members ≠ [] ∧ (members.map (·.1)).Nodup) ∧ currentBlock < expires then do
    let lease : EvaluationLease :=
      { leaseId := K.evaluationLease generation owner members currentBlock expires
        generation := generation
        owner := owner
        members := members
        claimedBlock := currentBlock
        initialExpiresBlock := expires
        expiresBlock := expires
        competitionArena := s.selectedArena
        member_status := h.1
        members_ok := h.2.1
        blocks_ok := ⟨h.2.2, le_rfl⟩ }
    let leases ← Fallible.get (integrity "evaluation_leases") (s.leases.insert lease)
    let s := (s.withLeases leases).appendEvaluationLeaseEvent lease .claimed currentBlock none ""
    .ok (s.createEvaluationRecovery lease)
  else .error (intake "evaluation lease bounds are malformed")

/-- Claim the oldest cohort for a worker. -/
def claimEvaluationLease (owner : String) (currentBlock leaseBlocks maxMembers maxActive : ℕ) :
    Intake (Store K) := do
  check (isEvaluationOwner owner) (intake "evaluation lease owner is malformed")
  check (0 < leaseBlocks ∧ leaseBlocks ≤ s.policy.expiryBlocks ∧ 0 < maxMembers ∧
      maxMembers ≤ s.policy.maxCohort)
    (intake "evaluation lease claim bounds are malformed")
  s.requireEvaluationClock currentBlock
  let s ← s.expireDueLeases currentBlock
  let s ← s.expireStaleRows currentBlock
  check (0 < maxActive) (intake "evaluation capacity must be a positive integer")
  let selected ← s.selectEvaluationRows maxMembers owner maxActive
  if selected = [] then .ok s
  else
    s.openLease owner currentBlock leaseBlocks (selected.map fun r => (r.reservationId K, r.status))

/-! ### Recovery -/

/-- Move a recovery on to its next revision and write the event.  The lease comes with it:
`retained` is the lease with its new deadline, if that changes. -/
def transitionEvaluationRecovery (lease retained : EvaluationLease) (phase : RecoveryPhase)
    (resolution : RecoveryResolution) (eventType : RecoveryEventType) (currentBlock : ℕ)
    (reason : String) (plan : Option RequestPlan) :
    Intake (Store K × EvaluationLease) := do
  let current ← s.activeRecovery lease
  let fields : RecoveryFields :=
    { current.toRecoveryFields with
      revision := current.revision + 1
      phase := phase
      resolution := resolution
      updatedBlock := currentBlock
      plan := plan.or current.plan
      reason := reason }
  if h : fields.WellFormed then
    let updated : EvaluationLease := { retained with recovery := some ⟨fields, h⟩ }
    let event := recoveryEvent (s.recoveryEvents.length + 1) eventType updated ⟨fields, h⟩
    .ok ({ s with
      leases := s.leases.put updated
      recoveryEvents := s.recoveryEvents ++ [event] }, updated)
  else .error (recovery "evaluation recovery is malformed")

/-- Record that the remote work reached a phase.  The plan is sealed with the first one. -/
def advanceRecoveryPhase (phase : RecoveryPhase)
    (plan : Option RequestPlan) (currentBlock : ℕ) : Intake (Store K) := do
  s.requireEvaluationClock currentBlock
  check (∃ current ∈ lease.recovery, current.resolution = .unresolved ∧
      current.phase ∈ phase.predecessors ∧ currentBlock < lease.expiresBlock)
    (intake "evaluation recovery phase transition is forbidden")
  check (phase = .prepared ↔ plan.isSome)
    (intake "request plan may only bind the prepared transition")
  check (∀ p ∈ plan, p.payload ≠ "" ∧ p.payload.utf8ByteSize ≤ 4 * 1024 * 1024)
    (intake "qualification request plan is invalid")
  let (s, _) ← s.transitionEvaluationRecovery lease lease phase .unresolved
    phase.event currentBlock "" plan
  .ok s

/-- Extend a lease whose remote work goes on. -/
def renewRecoveryLease (currentBlock leaseBlocks : ℕ) : Intake (Store K) := do
  check ((∃ current ∈ lease.recovery, current.resolution = .unresolved ∧
      current.phase ≠ .held) ∧ 0 < leaseBlocks ∧ leaseBlocks ≤ s.policy.expiryBlocks)
    (intake "evaluation recovery renewal is malformed")
  s.requireEvaluationClock currentBlock
  let current ← s.activeRecovery lease
  if h : lease.expiresBlock < currentBlock + leaseBlocks then do
    let (s, _) ← s.transitionEvaluationRecovery lease (lease.renewed _ h.le) current.phase
      .unresolved .renewed currentBlock "" none
    .ok s
  else .error (intake "evaluation recovery renewal does not extend lease")

/-- Park the remote work for an operator. -/
def holdRecovery (reason : String) : Intake (Store K) := do
  s.requireEvaluationClock currentBlock
  check ((∃ current ∈ lease.recovery, current.resolution = .unresolved ∧
      current.phase ≠ .held) ∧ reason ≠ "" ∧ isRecoveryText 2048 reason)
    (intake "evaluation recovery hold is malformed")
  let (s, _) ← s.transitionEvaluationRecovery lease lease .held .unresolved .held currentBlock
    reason none
  .ok s

/-- Reopen a parked remote HOLD. -/
def reopenHold (current : EvaluationRecovery) (currentBlock : ℕ) :
    Intake (Store K × EvaluationLease) :=
  if current.phase = .held then
    s.transitionEvaluationRecovery lease lease .resultReady .unresolved .resultReady currentBlock
      "" none
  else .ok (s, lease)

/-- Extend the deadline of a remote HOLD that comes too late. -/
def renewHold (currentBlock leaseBlocks : ℕ) : Intake (Store K × EvaluationLease) :=
  if h : lease.expiresBlock ≤ currentBlock then
    s.transitionEvaluationRecovery lease
      (lease.renewed (currentBlock + leaseBlocks) (h.trans (Nat.le_add_right ..)))
      .resultReady .unresolved .renewed currentBlock "" none
  else .ok (s, lease)

/-- Commit the recovery of a lease, if the store keeps one. -/
def commitRecovery (phase : RecoveryPhase) (currentBlock : ℕ) :
    Intake (Store K × EvaluationLease) :=
  if s.recoverable then
    s.transitionEvaluationRecovery lease lease phase .committed .committed currentBlock "" none
  else .ok (s, lease)

/-- Commit the recovery of a lease and complete the lease. -/
def completeLease (phase : RecoveryPhase) (currentBlock : ℕ)
    (resultDigest : Digest) (changed : String) : Intake (Store K) := do
  let (s, lease) ← s.commitRecovery lease phase currentBlock
  s.endLease lease .completed currentBlock (some resultDigest) "" changed

/-- Turn an authenticated remote HOLD into held reservations and complete the lease. -/
def commitRemoteQualificationHold (resultDigest : Digest) (reason : String) (leaseBlocks : ℕ) :
    Intake (Store K) := do
  check ((∃ current ∈ lease.recovery, current.resolution = .unresolved ∧
      current.phase ∈ [.resultReady, .held]) ∧ startsWith remoteHoldReason reason ∧
      !(reason.toList.getLast?.any isSpace) ∧
      reason.length ≤ 2048 ∧ 0 < leaseBlocks ∧ leaseBlocks ≤ s.policy.expiryBlocks)
    (intake "remote qualification HOLD completion is malformed")
  s.requireEvaluationClock currentBlock
  let current ← s.activeRecovery lease
  check (current.phase = .held → current.reason ∈ [reason, "post_publication_no_decision"])
    (intake "remote qualification HOLD recovery changed")
  check (s.membersUnchanged lease) (intake "remote qualification HOLD changed its cohort")
  let (s, lease) ← s.reopenHold lease current currentBlock
  let (s, lease) ← s.renewHold lease currentBlock leaseBlocks
  check (s.authority = []) (intake "nested evaluation mutation authority is forbidden")
  let s ← { s with authority := lease.reservationIds }.updateReservations
    (fun r => (r.reservationId K, r.status) ∈ lease.members) fun r =>
    { r.toWork with
      status := .held
      decision := none
      reason := reason
      qualificationEvidenceDigest := some resultDigest
      retryGroupDigest := none
      retryPosition := 0
      qualificationAuthorityDigest := none }
  { s with authority := [] }.completeLease lease .resultReady currentBlock resultDigest
    "remote qualification HOLD lease changed"

/-- End a lease without a result; its reservations can be claimed again. -/
def releaseRecovery (reason : String) (releasePhase : Option RecoveryPhase) (allowExpired : Bool) :
    Intake (Store K) := do
  s.requireEvaluationClock currentBlock
  let current ← Fallible.get (intake "evaluation recovery is not exactly typed") lease.recovery
  check (current.resolution = .unresolved ∧ (currentBlock < lease.expiresBlock ∨ allowExpired))
    (intake "pre-resident recovery release is forbidden")
  s.activeEvaluationLease lease
  check (s.membersUnchanged lease) (intake "recovery lease no longer has its exact queue state")
  let (s, lease) ← s.transitionEvaluationRecovery lease lease
    (releasePhase.getD current.phase) .preResidentReleased .preResidentReleased currentBlock
    reason none
  s.endLease lease .released currentBlock none reason
    "evaluation lease changed during recovery release"

/-- The releases that do not count towards the cap. -/
def capExempt (reason : String) : Bool :=
  reason ∈ ["systemic:worker_infrastructure:worker_replaced",
    "systemic:worker_infrastructure:checkpoint_computation_changed"] ||
    "operator".toList.isPrefixOf (reason.toList.map Char.toLower)

/-- The releases of a reservation since its last completed lease that count. -/
def infrastructureReleases (id : Digest) : ℕ :=
  let events := s.leaseEvents.filter fun e => id ∈ e.members.map (·.1)
  let since := events.reverse.takeWhile (·.eventType ≠ .completed)
  since.countP fun e => e.eventType = .released ∧ !capExempt e.reason

/-- Hold a member that was released too often. -/
def capMember (s : Store K) (member : Digest × Status) : Intake (Store K) :=
  let count := s.infrastructureReleases member.1
  if count < 3 then .ok s
  else s.updateReservations (fun r => r.reservationId K = member.1 ∧ r.status = member.2)
    fun r => { r.toWork with
      status := .held
      decision := none
      reason := "systemic_release_cap:" ++ toString count }

/-- Release a lease, then hold the members that were released too often. -/
def releaseAndCap (reason : String)
    (releasePhase : Option RecoveryPhase) (allowExpired cap : Bool) :
    Store K × Option IntakeFault :=
  match s.releaseRecovery lease currentBlock reason releasePhase allowExpired with
  | .error fault => (s, some fault)
  | .ok s' => if cap then transactions capMember lease.members s' else (s', none)

/-- Requeue a request that the worker refused before it ran. -/
def releaseWorkerPreResidentRecovery
    (requestId : Digest) (failure : PreResidentFailure) : Intake (Store K) := do
  check (∃ current ∈ lease.recovery, current.phase = .requestReady ∧
      current.plan.map (·.requestId) = some requestId)
    (intake "worker pre-resident recovery release is forbidden")
  s.releaseRecovery lease currentBlock failure.releaseReason none false

/-- The hold reasons that an infrastructure failure may release. -/
def infrastructureHoldReasons : List String :=
  ["transport_hold:worker_infrastructure_result", "transport_hold:authority_changed",
    "transport_hold:published_carrier_missing"]

/-- A worker epoch: 32 lowercase hex digits. -/
def isWorkerEpoch (epoch : String) : Bool := epoch.length = 32 && epoch.toList.all Digest.isHexDigit

/-- Retire a request after an infrastructure failure.  A replaced worker retires it whatever
parked it. -/
def releaseWorkerInfrastructureRecovery (failureCode : String)
    (currentBlock : ℕ) (liveWorkerEpoch : String) : Store K × Option IntakeFault :=
  let retiredEpoch := lease.recovery.any fun r => r.plan.any fun plan =>
    isWorkerEpoch liveWorkerEpoch ∧ plan.workerEpoch ≠ liveWorkerEpoch
  let heldMigration := lease.recovery.any fun r => r.phase = .held ∧
    (retiredEpoch ∧ (failureCode = "worker_replaced" ∨ r.reason = "post_publication_no_decision") ∨
      r.reason ∈ infrastructureHoldReasons)
  if failureCode ≠ "" ∧ isRecoveryText 256 failureCode ∧
      (lease.recovery.any (·.phase = .requestReady) ∨ heldMigration) ∧
      (failureCode = "worker_replaced" → retiredEpoch) then
    s.releaseAndCap lease currentBlock ("systemic:worker_infrastructure:" ++ failureCode)
      (if heldMigration then some .requestReady else none) heldMigration
      (failureCode ∉ ["worker_replaced", "checkpoint_computation_changed"])
  else (s, some (intake "worker infrastructure recovery release is forbidden"))

/-- The reason that binds a release to the stale and the live incumbent. -/
def staleIncumbentReleaseReason (product stack tree liveStack liveTree : Digest) : String :=
  staleIncumbentReason ++
    String.intercalate ":" ([product, stack, tree, liveStack, liveTree].map Digest.hex)

/-- Retire a completed product that was measured over an old baseline. -/
def releaseStaleIncumbentQualificationRecovery
    (product : Digest) (productStack liveStack : EvaluationStackManifest)
    (productTree liveTree service : Digest) : Store K × Option IntakeFault :=
  if lease.recovery.any (·.phase ∈ [.requestReady, .resultReady, .evidenceImported]) ∧
      ¬(K.manifest productStack = K.manifest liveStack ∧ productTree = liveTree) ∧
      productStack.catalogSnapshot = liveStack.catalogSnapshot ∧
      productStack.arenaDigest = liveStack.arenaDigest ∧ service = liveStack.arenaDigest then
    s.releaseAndCap lease currentBlock
      (staleIncumbentReleaseReason product (K.manifest productStack) productTree
        (K.manifest liveStack) liveTree)
      (some .requestReady) true true
  else (s, some (intake "stale-incumbent recovery release is forbidden"))

/-! ### Results -/

/-- How many dispositions a reservation has. -/
def attempts (id : Digest) : ℕ := s.dispositions.countP (·.reservationId = id)

/-- The result may be applied at this block. -/
def requireResultReady : Intake Unit :=
  if s.recoverable then do
    let current ← s.activeRecovery lease
    check (current.phase = .evidenceImported)
      (intake "protected evaluation result requires imported evidence")
    check (currentBlock < lease.expiresBlock)
      (intake "protected evaluation result requires recovery renewal")
  else .ok ()

/-- The lease is live and its cohort is what it was when it was claimed. -/
def requireAcceptance : Intake Unit := do
  s.requireEvaluationClock currentBlock
  s.requireResultReady lease currentBlock
  s.activeEvaluationLease lease
  check (s.membersUnchanged lease) (intake "evaluation lease no longer has its exact queue state")
  check (s.authority = []) (intake "nested evaluation mutation authority is forbidden")

/-- Complete the lease, if the tables since `before` gained exactly one disposition for each of
its members. -/
def completeResult (before : Store K) (lease : EvaluationLease) (currentBlock : ℕ)
    (resultDigest : Digest) : Intake (Store K) := do
  check ((∀ id ∈ lease.reservationIds, s.attempts id = before.attempts id + 1 ∧
      (s.reservations.find? id).map (·.status) ≠ some .qualifying) ∧
      s.dispositions.length = before.dispositions.length + lease.members.length)
    (intake "evaluation result did not retain the exact cohort dispositions")
  s.completeLease lease .evidenceImported currentBlock resultDigest
    "evaluation lease changed during completion"

/-- Apply a result under its lease.  The body runs with the authority to change the members.
When it raises, or the result is not complete, the tables are what they were before, but not the
arena that the controller has selected; the authority is given back in any case. -/
def acceptUnder (resultDigest : Digest)
    (body : Store K → Store K × Option IntakeFault) : Store K × Option IntakeFault :=
  match s.requireAcceptance lease currentBlock with
  | .error fault => (s, some fault)
  | .ok () =>
    let (after, raised) := body { s with authority := lease.reservationIds }
    let rest := after.authority.filter (· ∉ lease.reservationIds)
    let result : Intake (Store K) := match raised with
      | some fault => .error fault
      | none => { after with authority := rest }.completeResult s lease currentBlock resultDigest
    match result with
    | .error fault => ({ s with selectedArena := after.selectedArena, authority := rest },
        some fault)
    | .ok s' => (s', none)

/-- The store after a transaction, and its error. -/
def committed : Intake (Store K) → Store K × Option IntakeFault
  | .ok s' => (s', none)
  | .error fault => (s, some fault)

/-- Claim the members of a lease under one authority and apply their graded batch. -/
def gradeCohort (authority service : Digest)
    (batch : QualificationIntakeBatch K) (evidenceRoot : Option String) :
    Intake (Store K) := do
  let s ← lease.reservationIds.foldlM (fun s id => s.markQualifying id authority service) s
  s.applyQualificationBatch batch currentBlock evidenceRoot

/-- Accept the graded result of a lease.  Without recovery a late result expires the due leases
instead, and that stays. -/
def acceptEvaluationResult (resultDigest : Digest)
    (body : Store K → Store K × Option IntakeFault) : Store K × Option IntakeFault :=
  if s.recoverable = false ∧ lease.expiresBlock ≤ currentBlock then
    match (do
      s.requireEvaluationClock currentBlock
      s.activeEvaluationLease lease
      s.expireDueLeases currentBlock) with
    | .error fault => (s, some fault)
    | .ok s' => (s', some (intake "evaluation result arrived after lease expiry"))
  else s.acceptUnder lease currentBlock resultDigest body

end Store

end Cacheon
