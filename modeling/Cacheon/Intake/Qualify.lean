import Cacheon.Intake.Baseline
import Mathlib.Data.List.SplitOn

/-!
# Qualification

A published reservation is claimed under one authority and graded; the typed result of a whole
cohort is applied at once.  A PASS is retained together with its evidence and becomes a
settlement candidate; an undecided run is tried again in groups or held.
-/

namespace Cacheon

open Fallible IntakeFault

/-! ### Batches -/

/-- The reason grammar `[A-Za-z0-9][A-Za-z0-9._-]{0,255}`. -/
def isReason (s : String) : Bool := isNameOver Char.isAlphanum "._-" 255 s.toList

/-- The result of one reservation. -/
structure QualificationIntakeOutcome (H : SettlementHashes) where
  reservationDigest : Digest
  selectedDeltaDigest : Digest
  decision : QualificationDecision
  reason : String
  attemptArtifactSha256 : Option Digest := none
  reportDigest : Option Digest := none
  failureDigest : Option Digest := none
  settlementQualification : Option (Qualification H) := none
deriving DecidableEq

/-- A decided run has a report, an undecided one a report or a failure; only a PASS carries a
qualification, and the qualification is of this result. -/
def QualificationIntakeOutcome.WellFormed {H : SettlementHashes} (authority : Digest)
    (o : QualificationIntakeOutcome H) : Prop :=
  isReason o.reason ∧ o.reportDigest.isSome = o.attemptArtifactSha256.isSome ∧
    (o.decision = .noDecision → o.reportDigest.isSome ≠ o.failureDigest.isSome) ∧
    (o.decision ≠ .noDecision → o.reportDigest.isSome ∧ o.failureDigest = none) ∧
    ∀ q ∈ o.settlementQualification, o.decision = .pass ∧
      q.val.reservationDigest = o.reservationDigest ∧
      q.val.selectedDeltaDigest = o.selectedDeltaDigest ∧
      q.val.qualificationAuthorityDigest = authority ∧
      some q.val.qualificationAttemptDigest = o.attemptArtifactSha256 ∧
      some q.val.qualificationReportDigest = o.reportDigest

instance {H : SettlementHashes} (authority : Digest) :
    DecidablePred (QualificationIntakeOutcome.WellFormed (H := H) authority) :=
  fun o => by unfold QualificationIntakeOutcome.WellFormed; infer_instance

/-- The reservations of a cohort to try again, in groups. -/
structure QualificationRetryPlan where
  strategy : RetryStrategy
  reservationGroups : List (List Digest)
  nonempty : reservationGroups ≠ [] ∧ ∀ group ∈ reservationGroups, group ≠ []
  distinct : reservationGroups.flatten.Nodup
  halves : strategy = .bisect → reservationGroups.length = 2
deriving DecidableEq

/-- The typed result of one cohort. -/
structure QualificationIntakeBatch (H : SettlementHashes) where
  authorityManifestDigest : Digest
  outcomes : List (QualificationIntakeOutcome H)
  attemptRef : Option EvidenceArtifactRef := none
  retryPlan : Option QualificationRetryPlan := none
  nonempty : outcomes ≠ []
  wellFormed : ∀ o ∈ outcomes, o.WellFormed authorityManifestDigest
  distinct : (outcomes.map (·.reservationDigest)).Nodup
  attempts : ∀ o ∈ outcomes, o.attemptArtifactSha256.map some = attemptRef.map (·.sha256)
  retried : ((retryPlan.map (·.reservationGroups)).getD []).flatten =
    (outcomes.filter (·.decision = .noDecision)).map (·.reservationDigest)
deriving DecidableEq

/-- Accept one complete audited PASS. -/
def SettlementCandidate.fromQualification {H : SettlementHashes} (q : Qualification H) :
    SettlementM (SettlementCandidate H) :=
  if h : CandidateFields.postInit ⟨q.val, none⟩ = .ok () then
    .ok ⟨⟨q.val, none⟩, q.property, (fun _ h => absurd h (Option.not_mem_none _)), h⟩
  else .error (.settlement "single-run settlement requires an audited qualification")

/-- An absolute path without parent segments. -/
def isCanonicalRoot (root : String) : Bool :=
  startsWith "/" root && (root.toList.splitOn '/').all (· ≠ ['.', '.'])

namespace Store

variable {K : IntakeHashes} (s : Store K)

/-- The first claim under a stack without crowns binds the baseline of the reservation. -/
def bindClaim (id : Digest) (stack : Option EvaluationStackState) : Intake (Store K) :=
  match stack.filter (·.generation = 0) with
  | some stack => s.bindReservationBaselineSegment id stack "mark_qualifying"
  | none => .ok s

/-- Claim a published reservation for qualification. -/
def markQualifying (id authority service : Digest) : Intake (Store K) := do
  s.requireEvaluationMutationAuthority id
  let row ← s.get id
  check (row.competitionArena = s.selectedArena)
    (intake "reservation belongs to another competition arena")
  check (row.status ∈ [.published, .reproductionPending])
    (intake "only published intake may enter qualification")
  let stack ← s.unambiguousEvaluationStack service
  let s ← s.bindClaim id stack
  s.updateReservation id fun r =>
    { r.toWork with
      status := .qualifying
      arenaServiceDigest := some service
      screenLane := some (if row.status = .reproductionPending then .reproduction else .primary)
      qualificationAuthorityDigest := some authority
      decision := none
      reason := "" }

/-! ### Retaining a PASS -/

/-- The store with another ledger. -/
def withLedger (ledger : Ledger K) : Store K := { s with ledger := ledger }

/-- The store with other candidates. -/
def withCandidates (t : Table (CandidateRow.reservationId (K := K))) : Store K :=
  s.withLedger { s.ledger with candidates := t }

/-- Make a qualification a settlement candidate. -/
def insertCandidate (q : Qualification K) (root : String) : Intake (Store K) := do
  let candidate ← (SettlementCandidate.fromQualification q).mapError IntakeFault.settlement
  check (∀ c ∈ s.candidates.rows, c.candidate.digest ≠ candidate.digest)
    (integrity "settlement_candidates")
  let candidates ← Fallible.get (integrity "settlement_candidates") (s.candidates.insert
      { candidate := candidate
        authorityDigest := q.val.qualificationAuthorityDigest
        evidenceRoot := root })
  .ok (s.withCandidates candidates)

/-- Retain a PASS and make it available to settlement. -/
def retainCompletePass (row : IntakeReservation) (q : Qualification K)
    (attemptRef : EvidenceArtifactRef) (root : String) (currentFinalizedBlock : ℕ) :
    Intake (Store K) := do
  check (s.retained (row.reservationId K) = [] ∧ row.screenLane = some .primary)
    (intake "qualification is already retained; a second run is not accepted")
  check (∀ r ∈ s.qualifications.rows, K.qualification r.qualification ≠ K.qualification q.val)
    (integrity "settlement_qualifications")
  let qualifications ← Fallible.get (integrity "settlement_qualifications") (s.qualifications.insert
      { reproductionIndex := 0
        qualification := q.val
        attemptRef := attemptRef
        evidenceRoot := root
        retainedBlock := currentFinalizedBlock })
  (s.withLedger { s.ledger with qualifications := qualifications }).insertCandidate q root

/-! ### Applying a batch -/

variable (batch : QualificationIntakeBatch K)

/-- The retry group of a reservation, its place there, and the strategy. -/
def retryOf (id : Digest) : Option (Digest × ℕ × RetryStrategy) :=
  batch.retryPlan.bind fun plan =>
    (plan.reservationGroups.zipIdx.find? fun group => id ∈ group.1).map fun group =>
      (K.retryGroup batch.authorityManifestDigest group.2 group.1 plan.strategy,
        group.1.idxOf id, plan.strategy)

/-- The qualification is of the reservation and of this result. -/
def MatchesRow (row : IntakeReservation) (o : QualificationIntakeOutcome K)
    (evidence : Option Digest) (q : QualificationFields) : Prop :=
  q.reservationDigest = o.reservationDigest ∧ q.hotkey = row.hotkey ∧
    q.finalizedBlock = row.block ∧ q.eventIndex = row.eventIndex ∧
    q.eventSubindex = row.eventSubindex ∧ q.targetId = row.targetId ∧
    q.members = row.targetMembers ∧
    some q.selectedDeltaDigest = row.deltaFingerprint.map (·.selectedDeltaDigest) ∧
    q.qualificationAuthorityDigest = batch.authorityManifestDigest ∧
    some q.qualificationAttemptDigest = evidence ∧
    some q.qualificationReportDigest = o.reportDigest

instance (row : IntakeReservation) (o : QualificationIntakeOutcome K)
    (evidence : Option Digest) : DecidablePred (MatchesRow batch row o evidence) :=
  fun q => by unfold MatchesRow; infer_instance

/-- Retain the PASS of an outcome, if it is one. -/
def retainOutcome (row : IntakeReservation)
    (o : QualificationIntakeOutcome K) (attemptRef : Option EvidenceArtifactRef)
    (evidence : Option Digest) (root : Option String) (currentFinalizedBlock : ℕ) :
    Intake (Store K) :=
  match o.settlementQualification with
  | none => .ok s
  | some q => do
    check (MatchesRow batch row o evidence q.val)
      (intake "settlement qualification differs from retained PASS")
    let _ ← s.evaluationStack q.val.arenaDigest
    let attemptRef ← Fallible.get (intake "retained PASS evidence is incomplete") attemptRef
    let root ← Fallible.get (intake "retained PASS evidence is incomplete") root
    s.retainCompletePass row q attemptRef root currentFinalizedBlock

/-- What a verdict does to a reservation. -/
def verdict (o : QualificationIntakeOutcome K) (evidence : Option Digest) (r : Work) : Work :=
  { r with
    status := match o.decision with
      | .pass => .qualified
      | .fail => .failed
      | .noDecision => .noDecision
    decision := some o.decision
    reason := o.reason
    qualificationEvidenceDigest := evidence
    retryGroupDigest := none
    retryPosition := 0
    qualificationAuthorityDigest := none }

/-- What a retry does to a reservation.  Only a bisection is another experiment; running the
same bundle alone again would observe the same failure, so it is held. -/
def retry (policy : IntakePolicy) (attempt : ℕ) (group : Digest × ℕ × RetryStrategy)
    (r : Work) : Work :=
  { r with
    status := if group.2.2 = .bisect ∧ attempt + 1 < policy.maxQualificationRetries then
        if r.screenLane = some .reproduction then .reproductionPending else .published
      else .held
    decision := none
    reason := "qualification_" ++ group.2.2.value
    retryGroupDigest := some group.1
    retryPosition := group.2.1
    qualificationAuthorityDigest := none
    qualificationEvidenceDigest := none }

/-- Apply the result of one reservation. -/
def applyOutcome (currentFinalizedBlock : ℕ) (root : Option String) (s : Store K)
    (o : QualificationIntakeOutcome K) :
    Intake (Store K) := do
  let id := o.reservationDigest
  let row ← s.get id
  check (row.status = .qualifying ∧
      row.qualificationAuthorityDigest = some batch.authorityManifestDigest ∧
      row.deltaFingerprint.map (·.selectedDeltaDigest) = some o.selectedDeltaDigest)
    (intake "qualification batch differs from active authority")
  let attemptRef := if o.attemptArtifactSha256.isSome then batch.attemptRef else none
  let evidence := (attemptRef.bind (·.sha256)).orElse fun _ => o.failureDigest
  let attempt := s.dispositions.countP (·.reservationId = id)
  let s := s.withLedger { s.ledger with
    dispositions := s.dispositions ++
      [{ reservationId := id
         attemptIndex := attempt
         authorityDigest := batch.authorityManifestDigest
         evidenceDigest := evidence
         attemptRef := attemptRef
         reportDigest := o.reportDigest
         failureDigest := o.failureDigest
         decision := o.decision
         reason := o.reason }] }
  let s ← s.retainOutcome batch row o attemptRef evidence root currentFinalizedBlock
  s.updateReservation id fun r =>
    match retryOf batch id with
    | some group => retry s.policy attempt group r.toWork
    | none => verdict o evidence r.toWork

/-- Apply the result of a whole cohort. -/
def applyQualificationBatch (currentFinalizedBlock : ℕ) (evidenceRoot : Option String) :
    Intake (Store K) := do
  check (∀ cursor ∈ s.cursor, cursor.1 ≤ currentFinalizedBlock)
    (intake "qualification progress block is not finalized")
  check (∀ o ∈ batch.outcomes, o.decision = .pass → o.settlementQualification.isSome)
    (intake "PASS qualification lacks a settlement projection qualification")
  check ((∃ o ∈ batch.outcomes, o.decision = .pass) → evidenceRoot.any isCanonicalRoot)
    (intake "PASS qualification lacks a canonical evidence root")
  batch.outcomes.foldlM (applyOutcome batch currentFinalizedBlock evidenceRoot) s

end Store

end Cacheon
