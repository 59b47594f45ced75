import Cacheon.Intake.Store

/-!
# The reservation queue

What happens to a reservation before and after it is evaluated: it is admitted, fetched,
published into a competition, demoted as a copy, held, released or expired.

* `Store.updateReservations` : the only way the rows change.  A trigger refuses to touch a row
  that an active evaluation lease fences.
* `Store.transition` : the guarded status change most operations are.
* `Store.reserveFinalized` : the admission of new arrivals.
-/

namespace Cacheon

open Fallible IntakeFault

namespace Store

variable {K : IntakeHashes} (s : Store K)

/-! ### Reading and changing rows -/

variable (id : Digest)

/-- The reservation of an id. -/
def get : Intake IntakeReservation :=
  Fallible.get (intake "unknown intake reservation") (s.reservations.find? id)

/-- The reservations in finalized order. -/
def all : List IntakeReservation := Keyed.sortBy (·.arrivalKey) s.reservations.rows

/-- An active evaluation lease holds the reservation. -/
def leased : Bool :=
  s.leases.rows.any fun l => l.state = .active && id ∈ l.reservationIds

/-- The trigger on the reservations refuses to change the row. -/
def fenced : Bool := (s.leased id || s.authority ≠ []) && id ∉ s.authority

/-- Refuse a change of a reservation that the evaluation context does not own. -/
def requireEvaluationMutationAuthority : Intake Unit := do
  check (s.authority ≠ [] → id ∈ s.authority)
    (intake "evaluation result context forbids non-member mutation")
  check (s.leased id → id ∈ s.authority) leaseFences

/-- The store with other reservations. -/
def withReservations (t : Table (IntakeReservation.reservationId K)) : Store K :=
  { s with reservations := t }

/-- The store with some reservations changed. -/
def mapReservations (p : IntakeReservation → Prop) [DecidablePred p]
    (f : IntakeReservation → Work) : Store K :=
  s.withReservations (s.reservations.update p (fun r => r.withWork (f r)) fun _ => rfl)

abbrev mapReservation (f : IntakeReservation → Work) : Store K :=
  s.mapReservations (fun r => r.reservationId K = id) f

/-- Change the rows that satisfy a predicate, unless one of them is fenced. -/
def updateReservations (p : IntakeReservation → Prop) [DecidablePred p]
    (f : IntakeReservation → Work) : Intake (Store K) := do
  check (∀ r ∈ s.reservations.rows, p r → s.fenced (r.reservationId K) = false)
    (integrity "active evaluation lease fences reservation")
  return s.mapReservations p f

/-- Change one row. -/
def updateReservation (f : IntakeReservation → Work) : Intake (Store K) :=
  s.updateReservations (fun r => r.reservationId K = id) f

/-- Run one transaction for each element.  An error stops the walk and leaves what was committed
before it. -/
def transactions {α : Type} (f : Store K → α → Intake (Store K)) :
    List α → Store K → Store K × Option IntakeFault
  | [], s => (s, none)
  | a :: rest, s => match f s a with
    | .error fault => (s, some fault)
    | .ok s' => transactions f rest s'

/-- A guarded status change. -/
def transition (expected : List Status) (status : Status)
    (decision : Option QualificationDecision) (reason : String) :
    Intake (Store K) := do
  check (reason.length ≤ 2048) (intake "intake transition is malformed")
  s.requireEvaluationMutationAuthority id
  let row ← s.get id
  check (row.status ∈ expected)
    (intake ("intake transition from '" ++ row.status.value ++ "' is forbidden"))
  s.updateReservation id fun r =>
    { r.toWork with
      status := status, decision := decision, reason := reason
      qualificationEvidenceDigest := none }

/-! ### Expiry -/

/-- The reason of an automatic expiry. -/
def automaticExpiryReason : String := "finalized_block_sla_expired"

/-- The retained qualifications of a reservation. -/
def retained : List RetainedQualification :=
  s.qualifications.rows.filter (·.qualification.reservationDigest = id)

/-- The block a reservation's deadline counts from. -/
def slaStart (r : IntakeReservation) : ℕ :=
  match s.slaResets.find? (r.reservationId K) with
  | some reset => reset.resetBlock
  | none => r.block

/-- The deadline of a reservation's unresolved work has passed. -/
def stale (threshold : ℕ) (r : IntakeReservation) : Bool :=
  r.status ∈ Status.expirable && !s.leased (r.reservationId K) &&
    (decide (s.slaStart r ≤ threshold) && (s.retained (r.reservationId K)).isEmpty ||
      (s.retained (r.reservationId K)).any fun q =>
        q.reproductionIndex = 0 ∧ 0 < q.retainedBlock ∧ q.retainedBlock ≤ threshold)

/-- Expire the unresolved work whose deadline has passed. -/
def expireStaleRows (currentBlock : ℕ) : Intake (Store K) :=
  if currentBlock < s.policy.expiryBlocks then .ok s
  else do
    check (∀ r ∈ s.reservations.rows, r.status = .reproductionPending →
        (s.retained (r.reservationId K)).map (·.reproductionIndex) = [0])
      (intake "reproduction-pending authority is inconsistent")
    check (∀ q ∈ s.qualifications.rows, q.retainedBlock ≤ currentBlock)
      (intake "retained qualification block is not finalized")
    s.updateReservations (fun r => s.stale (currentBlock - s.policy.expiryBlocks) r = true)
      fun r => { r.toWork with
        status := .expired, decision := some .noDecision, reason := automaticExpiryReason }

/-- Expire one reservation by an operator's decision. -/
def expire (currentBlock : ℕ) (reason : String) : Intake (Store K) := do
  let row ← s.get id
  check (reason ≠ "") (intake "explicit expiry requires an operator reason")
  check (row.block + s.policy.expiryBlocks ≤ currentBlock)
    (intake "reservation is not old enough for explicit expiry")
  s.transition id Status.expirable .expired (some .noDecision) reason

/-! ### Admission -/

/-- How many reservations take up a slot of the queue. -/
def pendingCount : ℕ := s.reservations.rows.countP (·.status ∈ Status.pending)

/-- Give the free slots of the queue to the oldest deferred reservations. -/
def activateDeferredRows : Intake (Store K) :=
  let ids := ((s.all.filter (·.status = .deferred)).take
    (s.policy.maxPending - s.pendingCount)).map (·.reservationId K)
  s.updateReservations (fun r => r.status = .deferred ∧ r.reservationId K ∈ ids)
    fun r => { r.toWork with status := .reserved, reason := "" }

/-- The epoch a block is admitted in; the last blocks of an epoch count to the next one. -/
def admissionEpoch (policy : IntakePolicy) (block : ℕ) : ℕ :=
  block / policy.epochBlocks +
    if policy.epochBlocks - policy.cutoffBlocks ≤ block % policy.epochBlocks then 1 else 0

/-- The oldest unspent credit of an account. -/
def unspentEvalCostCredit (hotkey : Hotkey) : Option Digest :=
  ((Keyed.sortBy (fun c : EvalCostCredit => toLex (c.grantedAt, c.creditId))
    (s.credits.rows.filter fun c =>
      c.hotkey = hotkey ∧ c.reservationId = none)).head?).map (·.creditId)

/-- The payment admitted another reservation already. -/
def evalCostPaymentUsed (arrival : FinalizedArrival) : Bool :=
  (s.payments.find? (arrival.paymentBlock, arrival.paymentExtrinsicIndex)).isSome

/-- The reason of an arrival that neither pays nor has a credit. -/
def missingPaymentReason : String := "missing_eval_cost_payment"

/-- The credit that can stand in for an arrival's missing payment. -/
def admissionCredit (amount : ℕ) (arrival : FinalizedArrival) : Option Digest :=
  if 0 < amount ∧ arrival.paymentBlock = 0 ∧
      (arrival.valid ∨ arrival.invalidReason = missingPaymentReason) then
    s.unspentEvalCostCredit arrival.hotkey
  else none

/-- The status a new arrival is given, and why; `pending` slots of the queue are taken. -/
def admission (finalizedBlock amount pending : ℕ) (arrival : FinalizedArrival) : Status × String :=
  let epoch := admissionEpoch s.policy arrival.block
  let credit := s.admissionCredit amount arrival
  if !arrival.valid ∧ ¬(credit.isSome ∧ arrival.invalidReason = missingPaymentReason) then
    (.failed, arrival.invalidReason)
  else if 0 < amount ∧ arrival.paymentBlock = 0 ∧ credit = none then
    (.failed, missingPaymentReason)
  else if s.policy.expiryBlocks ≤ finalizedBlock - arrival.block then
    (.expired, automaticExpiryReason)
  else if s.policy.maxPerHotkeyEpoch ≤ s.reservations.rows.countP fun r =>
      r.admissionEpoch = epoch ∧ r.hotkey = arrival.hotkey then
    (.failed, "hotkey_epoch_admission_limit")
  else if 0 < amount ∧ 0 < arrival.paymentBlock ∧ s.evalCostPaymentUsed arrival then
    (.failed, "eval_cost_payment_used")
  else if s.policy.maxPending ≤ pending then (.deferred, "pending_queue_deferred")
  else (.reserved, "")

/-- Record the payment or spend the credit that admitted a reservation. -/
def recordEvalCost (finalizedBlock amount : ℕ) (status : Status) (credit : Option Digest)
    (arrival : FinalizedArrival) : Intake (Store K) :=
  if 0 < amount ∧ status ∈ [.reserved, .deferred] ∧ 0 < arrival.paymentBlock then do
    let payments ← Fallible.get (integrity "eval_cost_payments") (s.payments.insert
        { paymentBlock := arrival.paymentBlock
          paymentExtrinsicIndex := arrival.paymentExtrinsicIndex
          reservationId := arrival.reservationId K
          contentHash := arrival.contentHash
          hotkey := arrival.hotkey
          amountTaoRao := amount })
    .ok { s with payments := payments }
  else match credit with
    | some credit =>
      if 0 < amount ∧ status ∈ [.reserved, .deferred] then
        .ok { s with
          credits := s.credits.update (fun c => c.creditId = credit ∧ c.reservationId = none)
            (fun c => { c with
              reservationId := some (arrival.reservationId K), spentBlock := finalizedBlock })
            fun _ => rfl }
      else .ok s
    | none => .ok s

/-- Insert one arrival. -/
def insertReservation (status : Status) (reason : String) (arrival : FinalizedArrival) :
    Intake (Store K) := do
  check (∀ r ∈ s.reservations.rows, r.uniqueColumns ≠ arrival.uniqueColumns)
    (integrity "reservations")
  let rows ← Fallible.get (integrity "reservations") (s.reservations.insert
      { status := status
        reason := reason
        arrival := arrival
        admissionEpoch := admissionEpoch s.policy arrival.block })
  .ok (s.withReservations rows)

/-- Admit one arrival, unless it is already there. -/
def reserveArrival (finalizedBlock amount : ℕ) (state : Store K × ℕ)
    (arrival : FinalizedArrival) : Intake (Store K × ℕ) :=
  let (s, pending) := state
  match s.reservations.find? (arrival.reservationId K) with
  | some existing => do
    check (existing.arrival = arrival) (intake "reservation ID collision changed arrival bytes")
    .ok (s, pending)
  | none => do
    let (status, reason) := s.admission finalizedBlock amount pending arrival
    let credit := s.admissionCredit amount arrival
    let s ← s.insertReservation status reason arrival
    let s ← s.recordEvalCost finalizedBlock amount status credit arrival
    .ok (s, if status = .reserved then pending + 1 else pending)

/-- Admit the arrivals of a finalized block range and move the cursor to its head. -/
def reserveFinalized (arrivals : List FinalizedArrival) (finalizedBlock : ℕ)
    (finalizedBlockHash : Digest) (amount : ℕ) : Intake (Store K) := do
  check (Keyed.Sorted FinalizedArrival.arrivalKey arrivals)
    (intake "finalized arrivals are duplicated or out of order")
  check (∀ a ∈ arrivals, a.block ≤ finalizedBlock)
    (intake "unfinalized arrival reached durable intake")
  let s ← s.expireStaleRows finalizedBlock
  let s ← s.activateDeferredRows
  check (∀ cursor ∈ s.cursor, cursor.1 ≤ finalizedBlock ∧
      (finalizedBlock = cursor.1 → finalizedBlockHash = cursor.2))
    (intake "finalized cursor regressed or changed hash")
  let (s, _) ← arrivals.foldlM (reserveArrival finalizedBlock amount) (s, s.pendingCount)
  .ok { s with cursor := some (finalizedBlock, finalizedBlockHash) }

/-- Take up the free slots of the queue; reading the pending work does so first. -/
def pending (limit : ℕ) : Intake (Store K) := do
  check (0 < limit ∧ limit ≤ s.policy.maxPending) (intake "pending reservation limit is invalid")
  s.activateDeferredRows

/-! ### Transport and publication -/

/-- Begin a fetch, or give up after too many. -/
def markFetching : Intake (Store K) := do
  let row ← s.get id
  check (row.status ∈ [.reserved, .transportRetry])
    (intake "only pending intake may begin transport")
  let fits := row.transportAttempts + 1 ≤ s.policy.maxTransportRetries
  s.updateReservation id fun r =>
    { r.toWork with
      status := if fits then .fetching else .held
      transportAttempts := row.transportAttempts + 1
      reason := if fits then "" else "transport_retry_limit" }

/-- Put a failed fetch back, or give up after too many. -/
def markTransportRetry (reason : String) : Intake (Store K) := do
  let row ← s.get id
  let exhausted := s.policy.maxTransportRetries ≤ row.transportAttempts
  s.transition id [.fetching] (if exhausted then .held else .transportRetry) none
    (if exhausted then "transport_retry_limit" else reason)

/-- Fail a reservation before it is evaluated. -/
def markFailed (reason : String) : Intake (Store K) :=
  s.transition id [.fetching, .published] .failed (some .fail) reason

/-- Hold a reservation for an operator. -/
def markHeld (reason : String) : Intake (Store K) :=
  s.transition id [.reserved, .fetching, .transportRetry, .published, .qualifying,
    .reproductionPending, .noDecision] .held none reason

/-- Reject work before its first claim, and give its payment or credit back. -/
def expireBeforeClaim (reason : String) : Intake (Store K) := do
  s.requireEvaluationMutationAuthority id
  let row ← s.get id
  check (row.status ∈ [.fetching, .published] ∧ row.arenaServiceDigest = none)
    (intake ("pre-claim disposal from '" ++ row.status.value ++ "' is forbidden"))
  let s ← s.updateReservation id fun r =>
    { r.toWork with status := .expired, decision := some .noDecision, reason := reason }
  .ok { s with
    payments := s.payments.filter (·.reservationId ≠ id)
    credits := s.credits.update (·.reservationId = some id)
      (fun c => { c with reservationId := none, spentBlock := 0 }) fun _ => rfl }

/-- Park a proposal whose target is closed. -/
def markTargetUnavailable (targetId : String) : Intake (Store K) := do
  check (targetId ≠ "") (intake "closed-target disposal requires the target id")
  s.expireBeforeClaim id ("target_unavailable:" ++ targetId)

/-- The arena names `[a-z0-9][a-z0-9._-]{0,255}`. -/
def isArenaId (id : String) : Bool := isNameOver isLowerAlnum "._-" 255 id.toList

/-- The competition a bundle's selector names; the legacy alias names the default one. -/
def publicationArena (arenaId : String) : Intake String := do
  check (arenaId ≠ "" → isArenaId arenaId)
    (intake "competition arena is not a canonical identifier")
  return if s.legacyArena = some arenaId then "" else arenaId

/-- Publish a fetched bundle into a competition, if its target has room in this epoch. -/
def markPublished (fingerprint : SubmittedDeltaFingerprint)
    (publicationDigest : Digest) (publicationRoot competitionArena : String) :
    Intake (Store K) := do
  let arena ← s.publicationArena competitionArena
  let row ← s.get id
  check (row.status = .fetching) (intake "publication requires an active transport")
  let full := s.policy.maxPerTargetEpoch ≤ s.reservations.rows.countP fun r =>
    r.admissionEpoch = row.admissionEpoch ∧ r.targetId = fingerprint.targetId ∧
      r.competitionArena = arena
  s.updateReservation id fun r =>
    { r.toWork with
      status := if full then .failed else .published
      targetId := fingerprint.targetId
      targetMembers := fingerprint.members
      deltaFingerprint := some fingerprint
      publicationDigest := some publicationDigest
      publicationRoot := publicationRoot
      decision := none
      reason := if full then "target_epoch_admission_limit" else ""
      competitionArena := arena
      screenLane := some .primary }

/-- Bind the dispatcher to a competition.  One named arena may become the alias of the default
competition, as long as nothing was commissioned under its name. -/
def selectArena (arenaId : String) (acceptLegacyBundles : Bool) : Intake (Store K) := do
  check (isArenaId arenaId) (intake "arena_id is not a canonical identifier")
  if acceptLegacyBundles then do
    check (∀ legacy ∈ s.legacyArena, legacy = arenaId)
      (intake "legacy bundles already belong to another arena")
    check (¬((s.leases.rows.any (·.competitionArena = arenaId)) ∨
        s.evaluationStacks.rows.any (·.competitionArena = arenaId)))
      (intake "a commissioned named arena cannot become the legacy alias")
    let s ← s.updateReservations (·.competitionArena = arenaId)
      fun r => { r.toWork with competitionArena := "" }
    .ok { s with
      selectedArena := ""
      legacyArena := some (s.legacyArena.getD arenaId) }
  else do
    check (s.legacyArena ≠ some arenaId)
      (intake "the legacy arena must retain its existing namespace")
    .ok { s with selectedArena := arenaId }

/-! ### Copies -/

/-- The earlier deltas of other accounts that a reservation copies, in finalized order. -/
def copyPredecessors : Intake (List IntakeReservation) := do
  let candidate ← s.get id
  let delta ← Fallible.get (intake "candidate has no submitted-delta fingerprint")
    candidate.deltaFingerprint
  .ok (s.all.filter fun row =>
    row.arrivalKey < candidate.arrivalKey ∧ row.hotkey ≠ candidate.hotkey ∧
      row.deltaFingerprint.any fun earlier =>
        (compareSubmittedDeltas earlier delta).authoritative)

/-- Demote a copy of an earlier reservation. -/
def markCopy (id predecessorId : Digest) : Intake (Store K) := do
  let predecessor ← s.get predecessorId
  let candidate ← s.get id
  check (predecessor.arrivalKey < candidate.arrivalKey)
    (intake "copy predecessor is not earlier in finalized order")
  let predecessors ← s.copyPredecessors id
  check (predecessor ∈ predecessors)
    (intake "claimed predecessor is not an authoritative delta copy")
  s.transition id Status.copyable .failed (some .fail) ("copy_of:" ++ predecessorId.hex)

/-- Demote a copy of a bundle the validator published itself. -/
def markReferenceCopy (referenceName : String) : Intake (Store K) := do
  check (1 ≤ referenceName.length ∧ referenceName.length ≤ 80 ∧ referenceName.toList.all fun c =>
      c.isAlphanum || c = '.' || c = '_' || c = '-')
    (intake "validator reference name is malformed")
  s.transition id Status.copyable .failed (some .fail)
    ("copy_of:validator_reference:" ++ referenceName)

/-- Demote one reservation if it copies an earlier one, and tell which. -/
def demoteCopy (s : Store K) (row : IntakeReservation) : Intake (Store K × Option Digest) :=
  if row.deltaFingerprint = none ∨ row.status ∈ [.failed, .expired] then .ok (s, none)
  else do
    match ← s.copyPredecessors (row.reservationId K) with
    | [] => .ok (s, none)
    | predecessor :: _ => do
      let s ← s.markCopy (row.reservationId K) (predecessor.reservationId K)
      .ok (s, some (predecessor.reservationId K))

/-- Demote the copies among some reservations, each in its own transaction, and tell which they
were. -/
def demoteCopies : List IntakeReservation → Store K → Store K × Intake (List (Digest × Digest))
  | [], s => (s, .ok [])
  | row :: rows, s => match s.demoteCopy row with
    | .error fault => (s, .error fault)
    | .ok (s', original) =>
      let (s'', dispositions) := demoteCopies rows s'
      (s'', dispositions.map fun rest =>
        (original.map fun original => (row.reservationId K, original)).toList ++ rest)

/-- Demote every unresolved later copy in finalized order; the answer pairs each copy with its
original. -/
def reconcileCopies : Store K × Intake (List (Digest × Digest)) :=
  demoteCopies s.all s

/-! ### Taking work up again -/

/-- Release held work back to the stage it can be resumed from. -/
def releaseHold (reason : String) : Intake (Store K) := do
  check (reason ≠ "") (intake "hold release requires an operator reason")
  let row ← s.get id
  check (row.status ∈ [.held, .noDecision]) (intake "only held intake may be released")
  s.updateReservation id fun r =>
    { r.toWork with
      status := if (s.retained id).length = 1 then .reproductionPending
        else if row.publicationDigest.isSome then .published else .transportRetry
      decision := none
      reason := reason
      transportAttempts := if row.publicationDigest.isSome then row.transportAttempts else 0
      retryGroupDigest := none
      retryPosition := 0
      qualificationAuthorityDigest := none
      qualificationEvidenceDigest := none }

/-- The block the evaluation operations are made at is the finalized cursor. -/
def requireEvaluationClock (currentBlock : ℕ) : Intake Unit :=
  check (s.cursor.map (·.1) = some currentBlock)
    (intake "evaluation lease block differs from the durable finalized cursor")

/-- The reason of a first requeue. -/
def requeueReason : String := "validator_downtime_requeued"

/-- The reason of a later requeue. -/
def requeueRefreshReason : String := "validator_downtime_requeued_refresh"

/-- The budget of requeues: one, one refresh, and what an operator escalates. -/
def resetReason (allowRepeatRefresh : Bool) : Option SlaReset → Intake String
  | none => .ok requeueReason
  | some prior =>
    if prior.reason = requeueReason ∨
        allowRepeatRefresh ∧ prior.reason = requeueRefreshReason then .ok requeueRefreshReason
    else .error (intake "validator downtime requeue budget is already consumed")

/-- The checks on one reservation of a requeue, and the reason its deadline is reset for. -/
def requeueOne (allowRepeatRefresh : Bool) (row : IntakeReservation) :
    Intake (Digest × String) := do
  let id := row.reservationId K
  s.requireEvaluationMutationAuthority id
  check (row.status = .expired ∧ row.reason = automaticExpiryReason)
    (intake "only an automatic validator-SLA expiry may be requeued")
  let reason ← resetReason allowRepeatRefresh (s.slaResets.find? id)
  check (s.leased id = false) (intake "validator downtime requeue conflicts with an active lease")
  check (row.publicationDigest.isSome ∧ row.publicationRoot ≠ "")
    (intake "validator downtime requeue cannot restore this pipeline phase")
  .ok (id, reason)

/-- Reopen one automatically expired reservation with a new deadline. -/
def requeueRow (authority : Digest) (currentBlock : ℕ) (s : Store K)
    (restored : Digest × String) : Intake (Store K) :=
  let s := { s with
    slaResets := s.slaResets.put ⟨restored.1, currentBlock, authority, restored.2⟩ }
  s.updateReservation restored.1 fun r =>
    { r.toWork with
      status := .published
      decision := none
      reason := restored.2
      retryGroupDigest := none
      retryPosition := 0
      qualificationAuthorityDigest := none
      qualificationEvidenceDigest := none }

/-- Readmit reservations that expired while the validator was down. -/
def requeueValidatorDowntimeExpired (ids : List Digest) (authority : Digest)
    (currentBlock : ℕ) (allowRepeatRefresh : Bool) : Intake (Store K) := do
  check (ids ≠ [] ∧ ids.Nodup) (intake "validator downtime requeue cohort is malformed")
  s.requireEvaluationClock currentBlock
  let rows ← ids.mapM s.get
  let restored ← rows.mapM (s.requeueOne allowRepeatRefresh)
  restored.foldlM (requeueRow authority currentBlock) s

end Store

end Cacheon
