import Cacheon.Intake.Arrival

/-!
# The intake store

One database holds the queue of reservations and the settlement ledger.  The model keeps them
apart: most operations change the `Queue` alone, and what they leave in place is one equation
on the `Ledger`.

Every operation is a transaction: it returns the store it commits, or the error after which
the store is what it was.
-/

namespace Cacheon

open Fallible

/-- What the intake store raises. -/
inductive IntakeFault where
  /-- `IntakeError`. -/
  | intake (text : String)
  /-- `sqlite3.IntegrityError`: a constraint or a trigger refuses the statement. -/
  | integrity (text : String)
  /-- `EvaluationRecoveryHoldError` or `EvaluationRecoveryError`. -/
  | recovery (text : String)
  | settlement (fault : SettlementFault)
  | economics (fault : EconomicsFault)
deriving DecidableEq

open IntakeFault

/-- What an operation of the store returns, or raises. -/
abbrev Intake := Except IntakeFault

/-- A reservation under an evaluation lease is not changed. -/
abbrev leaseFences : IntakeFault := .intake "active evaluation lease fences reservation mutation"

/-- The crown behind a claim is gone. -/
abbrev noStanding : IntakeFault := .intake "settlement evidence no longer has standing authority"

/-! ### The queue -/

/-- A later start of a reservation's deadline. -/
structure SlaReset where
  reservationId : Digest
  resetBlock : ℕ
  authorityDigest : Digest
  reason : String
deriving DecidableEq

/-- An evaluation-cost payment that admitted a reservation. -/
structure EvalCostPayment where
  paymentBlock : ℕ
  paymentExtrinsicIndex : ℕ
  reservationId : Digest
  contentHash : Option Digest
  hotkey : Hotkey
  amountTaoRao : ℕ
deriving DecidableEq

/-- The chain's name of a payment. -/
def EvalCostPayment.pointer (p : EvalCostPayment) : ℕ × ℕ :=
  (p.paymentBlock, p.paymentExtrinsicIndex)

/-- An operator's waiver of one payment; `grantedAt` is in seconds. -/
structure EvalCostCredit where
  creditId : Digest
  hotkey : Hotkey
  grantedAt : ℕ
  reservationId : Option Digest := none
  spentBlock : ℕ := 0
deriving DecidableEq

/-- The incumbent of one arena, as the store reopens it. -/
structure EvaluationStackState where
  arenaDigest : Digest
  generation : ℕ
  manifest : EvaluationStackManifest
  treeDigest : Digest
  transitionEventId : Digest
deriving DecidableEq

/-- The stack a reservation is measured over. -/
structure BaselineSegment extends EvaluationStackState where
  reservationId : Digest
  bindingReason : String
deriving DecidableEq

/-- The states of an evaluation lease. -/
inductive LeaseState where
  | active
  | expired
  | released
  | completed
deriving DecidableEq

/-- How far the recoverable work under a lease has come. -/
inductive RecoveryPhase where
  | claimed
  | prepared
  | publicationCommitted
  | requestReady
  | resultReady
  | evidenceImported
  | held
deriving DecidableEq

/-- How the recoverable work under a lease ended. -/
inductive RecoveryResolution where
  | unresolved
  | preResidentReleased
  | committed
deriving DecidableEq

/-- The canonical bytes of a request and its identities; a recovery seals it once. -/
structure RequestPlan where
  payload : String
  planDigest : Digest
  requestId : Digest
  /-- The worker the request was sealed for. -/
  workerEpoch : String
deriving DecidableEq

/-- A text without control characters and surrounding white space. -/
def isRecoveryText (bound : ℕ) (text : String) : Bool :=
  decide (text.length ≤ bound) && !(text.toList.head?.any isSpace) &&
    !(text.toList.getLast?.any isSpace) &&
    text.toList.all fun c => decide (32 ≤ c.toNat ∧ c.toNat ≠ 127)

/-- What a recovery record holds. -/
structure RecoveryFields where
  revision : ℕ := 0
  phase : RecoveryPhase := .claimed
  resolution : RecoveryResolution := .unresolved
  createdBlock : ℕ
  updatedBlock : ℕ
  plan : Option RequestPlan := none
  reason : String := ""
deriving DecidableEq

/-- The plan is bound from the preparation on, a reason says why the work is held or released,
and resolved work is not held. -/
def RecoveryFields.WellFormed (r : RecoveryFields) : Prop :=
  r.createdBlock ≤ r.updatedBlock ∧ isRecoveryText 2048 r.reason ∧
    (r.phase = .claimed → r.plan = none) ∧
    (r.phase ∉ [.claimed, .held] → r.plan.isSome) ∧
    ((r.phase = .held ∨ r.resolution = .preResidentReleased) ↔ r.reason ≠ "") ∧
    (r.resolution ≠ .unresolved → r.phase ≠ .held)

instance : DecidablePred RecoveryFields.WellFormed :=
  fun r => by unfold RecoveryFields.WellFormed; infer_instance

/-- The recovery record of a lease. -/
structure EvaluationRecovery extends RecoveryFields where
  wellFormed : toRecoveryFields.WellFormed
deriving DecidableEq

/-- One cohort of reservations that a worker evaluates. -/
structure EvaluationLease where
  leaseId : Digest
  generation : ℕ
  owner : String
  /-- The reservations, with the status each had when it was claimed. -/
  members : List (Digest × Status)
  claimedBlock : ℕ
  initialExpiresBlock : ℕ
  expiresBlock : ℕ
  competitionArena : String
  state : LeaseState := .active
  completedBlock : ℕ := 0
  resultDigest : Option Digest := none
  reason : String := ""
  recovery : Option EvaluationRecovery := none
  member_status : ∀ m ∈ members, m.2 ∈ [.published, .reproductionPending]
  members_ok : members ≠ [] ∧ (members.map (·.1)).Nodup
  blocks_ok : claimedBlock < initialExpiresBlock ∧ initialExpiresBlock ≤ expiresBlock
deriving DecidableEq

/-- The reservations of a lease. -/
def EvaluationLease.reservationIds (l : EvaluationLease) : List Digest := l.members.map (·.1)

/-- What can happen to a lease. -/
inductive LeaseEventType where
  | claimed
  | heartbeat
  | expired
  | released
  | completed
deriving DecidableEq

/-- One entry of a lease's history. -/
structure EvaluationLeaseEvent where
  leaseId : Digest
  generation : ℕ
  eventIndex : ℕ
  eventType : LeaseEventType
  owner : String
  members : List (Digest × Status)
  finalizedBlock : ℕ
  expiresBlock : ℕ
  resultDigest : Option Digest := none
  reason : String := ""
deriving DecidableEq

/-- What can happen to a recovery. -/
inductive RecoveryEventType where
  | claimed
  | prepared
  | publicationCommitted
  | requestReady
  | resultReady
  | evidenceImported
  | renewed
  | held
  | preResidentReleased
  | committed
deriving DecidableEq

/-- One entry of a recovery's history. -/
structure EvaluationRecoveryEvent where
  sequence : ℕ
  leaseId : Digest
  revision : ℕ
  eventType : RecoveryEventType
  phase : RecoveryPhase
  resolution : RecoveryResolution
  finalizedBlock : ℕ
  expiresBlock : ℕ
  /-- The digest of the plan and the id of its request. -/
  plan : Option (Digest × Digest)
  reason : String
deriving DecidableEq

variable (K : IntakeHashes)

/-- The arrival order, admission and evaluation state. -/
structure Queue where
  reservations : Table (IntakeReservation.reservationId K)
  slaResets : Table SlaReset.reservationId
  payments : Table EvalCostPayment.pointer
  credits : Table EvalCostCredit.creditId
  segments : Table BaselineSegment.reservationId
  leases : Table EvaluationLease.leaseId
  leaseEvents : List EvaluationLeaseEvent
  recoveryEvents : List EvaluationRecoveryEvent
  cursor : Option (ℕ × Digest)
  legacyArena : Option String
deriving DecidableEq

/-! ### The ledger -/

/-- One graded attempt on a reservation. -/
structure QualificationDisposition where
  reservationId : Digest
  attemptIndex : ℕ
  authorityDigest : Digest
  evidenceDigest : Option Digest
  attemptRef : Option EvidenceArtifactRef
  reportDigest : Option Digest
  failureDigest : Option Digest
  decision : QualificationDecision
  reason : String
deriving DecidableEq

/-- A PASS whose evidence is kept. -/
structure RetainedQualification where
  reproductionIndex : ℕ
  qualification : QualificationFields
  attemptRef : EvidenceArtifactRef
  evidenceRoot : String
  retainedBlock : ℕ
deriving DecidableEq

/-- A retained PASS belongs to one run of one reservation. -/
def RetainedQualification.run (q : RetainedQualification) : Digest × ℕ :=
  (q.qualification.reservationDigest, q.reproductionIndex)

/-- Where a settlement candidate stands. -/
inductive CandidateStatus where
  | pending
  | leased
  | crowned
  | neutralized
  | held
  | discoveryBounty
  | duplicateProposal
  | reviewPending
  | reviewedBounty
  | reviewedPromotion
  | reviewIneligible
  | reviewExpired
deriving DecidableEq

/-- The candidate waits for no settlement any more. -/
def CandidateStatus.settled (status : CandidateStatus) : Bool := status ∉ [.pending, .leased]

/-- What settlement and the rewards did with a candidate so far. -/
structure CandidateState where
  settlementEvidenceDigest : Option Digest := none
  status : CandidateStatus := .pending
  leaseId : Option Digest := none
  leaseGeneration : ℕ := 0
  leaseExpiresBlock : ℕ := 0
  reason : String := ""
  rewardEligible : Bool := false
deriving DecidableEq

/-- A settlement candidate and where its evidence is kept. -/
structure CandidateRow extends CandidateState where
  candidate : SettlementCandidate K
  authorityDigest : Digest
  evidenceRoot : String
  reproductionEvidenceRoot : String := ""
deriving DecidableEq

/-- The candidate in another state. -/
def CandidateRow.withState {K : IntakeHashes} (c : CandidateRow K) (state : CandidateState) :
    CandidateRow K :=
  ⟨state, c.candidate, c.authorityDigest, c.evidenceRoot, c.reproductionEvidenceRoot⟩

/-- The reservation of a candidate. -/
def CandidateRow.reservationId {K : IntakeHashes} (c : CandidateRow K) : Digest :=
  c.candidate.primary.reservationDigest

/-- A settlement event, with the reservation and the arena of its candidate. -/
structure SettlementEventRow where
  event : SettlementEvent
  reservationId : Digest
  arenaId : Digest
deriving DecidableEq

/-- An evaluation stack and the competition it belongs to. -/
structure StackRow extends EvaluationStackState where
  competitionArena : String
deriving DecidableEq

/-- The arena of a stack. -/
def StackRow.arena (r : StackRow) : Digest := r.arenaDigest

/-- A crowned contribution's claim, and the event that made it what it is. -/
structure StandingRow where
  claim : StandingRewardClaim
  active : Bool
  eventId : Digest
deriving DecidableEq

/-- The family a claim stands for. -/
def StandingRow.family (r : StandingRow) : Digest × String :=
  (r.claim.arenaDigest, r.claim.targetId)

/-- One crowned edge of a target's lineage. -/
structure LineageRow where
  competitionArena : String
  targetId : String
  artifactDigest : Digest
  parentArtifactDigest : Option Digest
  winnerSpeedup : Speedup
  arenaId : Digest
  stackDigest : Digest
  transitionEventId : Digest
  crownedBlock : ℕ
deriving DecidableEq

namespace LineageRow

/-- The place of a node. -/
def place (r : LineageRow) : String × String × Digest :=
  (r.competitionArena, r.targetId, r.artifactDigest)

/-- The target of a tip. -/
def target (r : LineageRow) : String × String := (r.competitionArena, r.targetId)

end LineageRow

/-- What was graded, settled and crowned. -/
structure Ledger where
  dispositions : List QualificationDisposition
  qualifications : Table RetainedQualification.run
  candidates : Table (CandidateRow.reservationId (K := K))
  events : List SettlementEventRow
  evaluationStacks : Table StackRow.arena
  standing : Table StandingRow.family
  nodes : Table LineageRow.place
  tips : Table LineageRow.target
  /-- The reservations that were there when a crown was made, by the crown's event. -/
  pretransition : List (Digest × Digest)
deriving DecidableEq

/-- The intake store and the settings of the controller that opened it. -/
structure Store extends queue : Queue K, ledger : Ledger K where
  policy : IntakePolicy
  /-- The store keeps recovery records for its evaluation leases. -/
  recoverable : Bool
  /-- The competition the dispatcher works on; empty for the default one. -/
  selectedArena : String
  /-- The reservations that the result being accepted may change; empty outside of it. -/
  authority : List Digest
deriving DecidableEq

end Cacheon
