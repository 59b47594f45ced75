import Cacheon.Intake.Rewards

/-!
# Runs of the intake store

Everything a controller can do to the store, and the states it can bring the store to.  The
operations that leave the settlement ledger alone are kept apart as `QueueOp`.
-/

namespace Cacheon

open Fallible IntakeFault

variable (K : IntakeHashes)

/-- The operations on the queue. -/
inductive QueueOp where
  | reserveFinalized (arrivals : List FinalizedArrival) (block : ℕ) (blockHash : Digest)
      (amount : ℕ)
  | pending (limit : ℕ)
  | markFetching (id : Digest)
  | markTransportRetry (id : Digest) (reason : String)
  | markFailed (id : Digest) (reason : String)
  | markTargetUnavailable (id : Digest) (targetId : String)
  | markHeld (id : Digest) (reason : String)
  | markPublished (id : Digest) (fingerprint : SubmittedDeltaFingerprint)
      (publicationDigest : Digest) (publicationRoot competitionArena : String)
  | reconcileCopies
  | markCopy (id predecessor : Digest)
  | markReferenceCopy (id : Digest) (reference : String)
  | markQualifying (id authority service : Digest)
  | expireStale (block : ℕ)
  | expire (id : Digest) (block : ℕ) (reason : String)
  | releaseHold (id : Digest) (reason : String)
  | requeue (ids : List Digest) (authority : Digest) (block : ℕ) (allowRepeat : Bool)
  | selectArena (arenaId : String) (acceptLegacyBundles : Bool)
  | claimEvaluationLease (owner : String) (block leaseBlocks maxMembers maxActive : ℕ)
  | expireEvaluationLeases (block : ℕ)
  | advanceRecovery (lease : EvaluationLease) (phase : RecoveryPhase)
      (plan : Option RequestPlan) (block : ℕ)
  | renewRecovery (lease : EvaluationLease) (block leaseBlocks : ℕ)
  | holdRecovery (lease : EvaluationLease) (block : ℕ) (reason : String)
  | commitRemoteHold (lease : EvaluationLease) (block : ℕ) (result : Digest) (reason : String)
      (leaseBlocks : ℕ)
  | releasePreResident (lease : EvaluationLease) (block : ℕ) (request : Digest)
      (failure : PreResidentFailure)
  | releaseInfrastructure (lease : EvaluationLease) (failureCode : String) (block : ℕ)
      (liveWorkerEpoch : String)
  | releaseStaleIncumbent (lease : EvaluationLease) (block : ℕ) (product : Digest)
      (productStack liveStack : EvaluationStackManifest)
      (productTree liveTree service : Digest)
  | grantCredit (credit : EvalCostCredit)

/-- The operations of a controller on the store. -/
inductive Op where
  | queue (op : QueueOp)
  | initializeStack (manifest : EvaluationStackManifest) (tree : Digest)
  | commission (incumbent : EvaluationStackManifest) (tree : Digest) (order : Store.RowOrder)
  | applyBatch (batch : QualificationIntakeBatch K) (block : ℕ) (evidenceRoot : Option String)
  | acceptResult (lease : EvaluationLease) (block : ℕ) (result authority service : Digest)
      (batch : QualificationIntakeBatch K) (evidenceRoot : Option String)
  | leaseSettlement (block leaseBlocks : ℕ)
  | commitSettlement (lease : SettlementLease K) (evidence : List SettlementEvidence)
      (plan : SettlementPlan) (block : ℕ)
      (resolve : TreeResolver)
  | backfill
  | finalizeRewards
  | restart (policy : IntakePolicy) (recoverable : Bool)

namespace Store

variable {K} (s : Store K)

/-! ### Opening the store -/

/-- Hold the work that a stop interrupted, and take back every settlement lease. -/
def recoverInterrupted : Intake (Store K) := do
  let s ← s.updateReservations (·.status ∈ [.fetching, .qualifying]) fun r =>
    { r.toWork with
      status := .held
      decision := none
      reason := "controller_restart_during_" ++ r.status.value }
  .ok (s.mapCandidates (·.status = .leased) fun c =>
    takenBack "controller_restart_during_settlement" c.toCandidateState)

/-- Settle a primary PASS that an older controller left waiting for its reproduction. -/
def acceptRetainedPass (s : Store K) (row : IntakeReservation) : Intake (Store K) :=
  match s.retained (row.reservationId K) with
  | [item] => do
    check (item.reproductionIndex = 0) (intake "pending primary qualification is inconsistent")
    if h : item.qualification.postInit K = .ok () then do
      let s ← s.insertCandidate ⟨item.qualification, h⟩ item.evidenceRoot
      let s ← s.updateReservation (row.reservationId K) fun r =>
        { r.toWork with status := .qualified, decision := some .pass, reason := "qualified" }
      let c ← (SettlementCandidate.fromQualification ⟨item.qualification, h⟩).mapError
        IntakeFault.settlement
      let _ ← s.settlementEvidenceMetadata c
      .ok s
    else .error (intake "retained primary qualification digest differs")
  | _ => .error (intake "pending primary qualification is inconsistent")

/-- Settle the primary PASSes that wait for a reproduction. -/
def acceptRetainedPrimaryPasses : Intake (Store K) :=
  let rows := s.reservations.rows.filter fun r =>
    r.status = .reproductionPending ∧ s.leased (r.reservationId K) = false
  let key (r : IntakeReservation) : (ℕ ×ₗ ℕ ×ₗ ℕ) ×ₗ Digest :=
    toLex (eventPlace r.block r.eventIndex r.eventSubindex, r.reservationId K)
  (Keyed.sortBy key rows).foldlM acceptRetainedPass s

/-- The tables under another controller.  Once the recovery tables are installed they stay, and
only a recoverable store can still change the leases. -/
def reopen (policy : IntakePolicy) (recoverable : Bool) : Store K :=
  { s with
    policy := policy, recoverable := s.recoverable || recoverable, selectedArena := ""
    authority := [] }

/-- Open the store with a policy: what is visible to the rewards is extended first, then what
was interrupted is recovered. -/
def restart (policy : IntakePolicy) (recoverable : Bool) : Store K × Option IntakeFault :=
  let s := (s.reopen policy recoverable).finalizeRewardPrefix
  match s.recoverInterrupted with
  | .error fault => (s, some fault)
  | .ok s => s.committed s.acceptRetainedPrimaryPasses

/-! ### Steps -/

/-- Do one operation on the queue. -/
def queueStep : QueueOp → Store K × Option IntakeFault
  | .reserveFinalized arrivals block hash amount =>
    s.committed (s.reserveFinalized arrivals block hash amount)
  | .pending limit => s.committed (s.pending limit)
  | .markFetching id => s.committed (s.markFetching id)
  | .markTransportRetry id reason => s.committed (s.markTransportRetry id reason)
  | .markFailed id reason => s.committed (s.markFailed id reason)
  | .markTargetUnavailable id target => s.committed (s.markTargetUnavailable id target)
  | .markHeld id reason => s.committed (s.markHeld id reason)
  | .markPublished id fingerprint publication root arena =>
    s.committed (s.markPublished id fingerprint publication root arena)
  | .reconcileCopies =>
    (s.reconcileCopies.1,
      match s.reconcileCopies.2 with | .ok _ => none | .error fault => some fault)
  | .markCopy id predecessor => s.committed (s.markCopy id predecessor)
  | .markReferenceCopy id reference => s.committed (s.markReferenceCopy id reference)
  | .markQualifying id authority service =>
    s.committed (s.markQualifying id authority service)
  | .expireStale block => s.committed (s.expireStaleRows block)
  | .expire id block reason => s.committed (s.expire id block reason)
  | .releaseHold id reason => s.committed (s.releaseHold id reason)
  | .requeue ids authority block allowRepeat =>
    s.committed (s.requeueValidatorDowntimeExpired ids authority block allowRepeat)
  | .selectArena arena legacy => s.committed (s.selectArena arena legacy)
  | .claimEvaluationLease owner block leaseBlocks maxMembers maxActive =>
    s.committed (s.claimEvaluationLease owner block leaseBlocks maxMembers maxActive)
  | .expireEvaluationLeases block => s.committed (s.expireEvaluationLeases block)
  | .advanceRecovery lease phase plan block =>
    s.committed (s.advanceRecoveryPhase lease phase plan block)
  | .renewRecovery lease block leaseBlocks =>
    s.committed (s.renewRecoveryLease lease block leaseBlocks)
  | .holdRecovery lease block reason => s.committed (s.holdRecovery lease block reason)
  | .commitRemoteHold lease block result reason leaseBlocks =>
    s.committed (s.commitRemoteQualificationHold lease block result reason leaseBlocks)
  | .releasePreResident lease block request failure =>
    s.committed (s.releaseWorkerPreResidentRecovery lease block request failure)
  | .releaseInfrastructure lease code block epoch =>
    s.releaseWorkerInfrastructureRecovery lease code block epoch
  | .releaseStaleIncumbent lease block product productStack liveStack productTree liveTree
      service =>
    s.releaseStaleIncumbentQualificationRecovery lease block product productStack liveStack
      productTree liveTree service
  | .grantCredit credit => s.committed do
    let credits ← Fallible.get (integrity "eval_cost_credits")
      (s.credits.insert { credit with reservationId := none, spentBlock := 0 })
    .ok { s with credits := credits }

/-- The store after one operation. -/
def step : Op K → Store K
  | .queue op => (s.queueStep op).1
  | .initializeStack manifest tree =>
    (s.committed (s.initializeEvaluationStack manifest tree)).1
  | .commission incumbent tree order => (s.commissionBoundary incumbent tree order).1
  | .applyBatch batch block root =>
    (s.committed (s.applyQualificationBatch batch block root)).1
  | .acceptResult lease block result authority service batch root =>
    (s.acceptEvaluationResult lease block result fun s =>
      s.committed (s.gradeCohort lease block authority service batch root)).1
  | .leaseSettlement block leaseBlocks => (s.leaseSettlementCohort block leaseBlocks).1
  | .commitSettlement lease evidence plan block resolve =>
    (s.commitSettlement lease evidence plan block resolve).1
  | .backfill => s.backfillTargetLineageTips.1
  | .finalizeRewards => s.finalizeRewardPrefix
  | .restart policy recoverable => (s.restart policy recoverable).1

/-- The store after some operations. -/
def run (ops : List (Op K)) : Store K := ops.foldl step s

/-- A new store. -/
def init (K : IntakeHashes) (policy : IntakePolicy) (recoverable : Bool) : Store K where
  policy := policy
  recoverable := recoverable
  selectedArena := ""
  authority := []
  queue :=
    { reservations := .empty, slaResets := .empty, payments := .empty, credits := .empty
      segments := .empty, leases := .empty, leaseEvents := [], recoveryEvents := []
      cursor := none, legacyArena := none }
  ledger :=
    { dispositions := [], qualifications := .empty, candidates := .empty, events := []
      evaluationStacks := .empty, standing := .empty, nodes := .empty, tips := .empty
      pretransition := [] }

/-- Some operations on a new store lead here. -/
def Reachable (s : Store K) : Prop :=
  ∃ policy recoverable ops, s = (init K policy recoverable).run ops

@[simp] theorem run_nil : s.run [] = s := rfl

theorem run_concat (ops : List (Op K)) (op : Op K) : s.run (ops ++ [op]) = (s.run ops).step op := by
  simp [run]

theorem run_append (ops ops' : List (Op K)) : s.run (ops ++ ops') = (s.run ops).run ops' :=
  List.foldl_append ..

/-! ### Conditions along a run -/

/-- Every operation of the run meets a condition in the state it is done in. -/
def Along (P : Store K → Op K → Prop) (s : Store K) : List (Op K) → Prop
  | [] => True
  | op :: ops => P s op ∧ Along P (s.step op) ops

instance decidableAlong (P : Store K → Op K → Prop) [∀ s op, Decidable (P s op)] :
    ∀ (s : Store K) ops, Decidable (s.Along P ops)
  | _, [] => isTrue trivial
  | s, op :: ops =>
    have := decidableAlong P (s.step op) ops
    inferInstanceAs (Decidable (P s op ∧ Along P (s.step op) ops))

variable {P : Store K → Op K → Prop}

theorem along_append {ops ops' : List (Op K)} :
    s.Along P (ops ++ ops') ↔ s.Along P ops ∧ (s.run ops).Along P ops' := by
  induction ops generalizing s with
  | nil => simp [Along]
  | cons first ops ih =>
    simp only [List.cons_append, Along, ih, and_assoc]
    rfl

variable {ops : List (Op K)} {I : Store K → Prop}

theorem along_concat {op : Op K} : s.Along P (ops ++ [op]) ↔ s.Along P ops ∧ P (s.run ops) op := by
  rw [along_append]
  simp [Along]

/-- What holds at the start and is kept by every operation that meets the condition holds at
the end. -/
theorem Along.induction {s : Store K} (h : s.Along P ops) (hs : I s)
    (hstep : ∀ s op, I s → P s op → I (s.step op)) : I (s.run ops) := by
  induction ops using List.reverseRecOn with
  | nil => exact hs
  | append_singleton ops op ih =>
    obtain ⟨hops, hop⟩ := (along_concat s).1 h
    rw [run_concat]
    exact hstep _ op (ih hops) hop

/-- What holds at the start and is kept by every operation holds at the end. -/
theorem run_invariant {s : Store K} (hs : I s) (hstep : ∀ s op, I s → I (s.step op)) :
    I (s.run ops) := by
  induction ops generalizing s with
  | nil => exact hs
  | cons op ops ih => exact ih (hstep s op hs)

end Store

/-! ### Sample histories

Submission `n` arrives in block `n`, and each function below gives the operations that take it one
stage further.  `settling` reads the store to find the cohort that is due, as the validator's own
loop does. -/

/-- Digests for evaluating the intake code; a reservation is named after its block. -/
def intakeHashes : IntakeHashes where
  toSettlementHashes := sampleHashes
  reservation a := .ofNat (3000 + a.block)
  qualification q := mixDigest [50, q.reservationDigest.val, q.qualificationAttemptDigest.val]
  settlementEvidence e := mixDigest [51, e.reservationDigest.val, e.primaryAuthorityDigest.val]
  standingClaim c := mixDigest [52, c.arenaDigest.val, c.contributionDigest.val, c.crownedBlock]
  stackGenesis arena stack tree := mixDigest [53, arena.val, stack.val, tree.val]
  retryGroup authority place ids strategy :=
    mixDigest ([54, authority.val, place, strategy.ctorIdx] ++ ids.map (·.val))
  settlementLease authority ids generation stackGeneration block :=
    mixDigest ([55, authority.val, generation, stackGeneration, block] ++ ids.map (·.val))
  evaluationLease generation owner members block expires :=
    mixDigest ([56, generation, mixText owner, block, expires] ++ members.map (·.1.val))

def sampleId (n : ℕ) : Digest := .ofNat (3000 + n)

/-- The sample accounts. -/
def alice : {hotkey : Hotkey // isHotkey hotkey = true} := ⟨"alice", by decide⟩

@[inherit_doc alice]
def bob : {hotkey : Hotkey // isHotkey hotkey = true} := ⟨"bob", by decide⟩

@[inherit_doc alice]
def carol : {hotkey : Hotkey // isHotkey hotkey = true} := ⟨"carol", by decide⟩

/-- The submission of block `n`. -/
def sampleArrival (n : ℕ) (hotkey : {hotkey : Hotkey // isHotkey hotkey = true}) :
    FinalizedArrival where
  hotkey := hotkey.val
  contentHash := some (.ofNat (100 + n))
  url := "https://bundle"
  block := n
  blockHash := .ofNat (200 + n)
  eventIndex := 0
  eventSubindex := 0
  payloadDigest := .ofNat (300 + n)
  hotkey_ok := hotkey.property
  disposition_ok := .inl ⟨rfl, by decide, by decide⟩
  payment_ok := fun _ => rfl

/-- The fingerprint of an artifact, by its number. -/
def sampleFingerprint (artifact : ℕ) : SubmittedDeltaFingerprint where
  targetId := "attn"
  targetSpecDigest := .ofNat 31
  members := ["attn"]
  exactPayloadDigest := .ofNat (8000 + artifact)
  selectedDeltaDigest := (sampleContribution "attn" artifact).selectedDeltaDigest sampleHashes
  normalizedDeltaDigest := .ofNat (9000 + artifact)
  containmentFingerprints := []
  targetId_ok := by decide
  members_ok := by decide
  containment_ok := List.Pairwise.nil

namespace Sample

/-- The finalized chain has come to block `n`, with these submissions. -/
def reserve (n : ℕ) (arrivals : List FinalizedArrival) : Op intakeHashes :=
  .queue (.reserveFinalized arrivals n (.ofNat (200 + n)) 0)

/-- Fetch a submission and publish it into a competition. -/
def publish (n artifact : ℕ) (arena : String) : List (Op intakeHashes) :=
  [.queue (.markFetching (sampleId n)),
    .queue (.markPublished (sampleId n) (sampleFingerprint artifact) (.ofNat (400 + n)) "/bundle"
      arena)]

/-- The sample stack is commissioned, and two submissions arrive. -/
def two : List (Op intakeHashes) :=
  [.initializeStack sampleStack (sampleTree sampleStack),
    reserve 2 [sampleArrival 1 alice, sampleArrival 2 bob]]

/-- Both are published. -/
def published : List (Op intakeHashes) := two ++ publish 1 1 "" ++ publish 2 2 ""

/-- Claim submissions under one authority. -/
def claim (authority : ℕ) (ns : List ℕ) : List (Op intakeHashes) :=
  ns.map fun n => .queue (.markQualifying (sampleId n) (.ofNat (4000 + authority)) (.ofNat 23))

def passed (q : Qualification sampleHashes) : QualificationIntakeOutcome sampleHashes where
  reservationDigest := q.val.reservationDigest
  selectedDeltaDigest := q.val.selectedDeltaDigest
  decision := .pass
  reason := "qualified"
  attemptArtifactSha256 := some q.val.qualificationAttemptDigest
  reportDigest := some q.val.qualificationReportDigest
  settlementQualification := some q

/-- The evidence of an authority's attempt. -/
def attempt (authority : ℕ) : EvidenceArtifactRef :=
  ⟨"qualification", some (.ofNat (6000 + authority)), 1, "application/json", "attempt"⟩

/-- The batch of some results of one authority. -/
def batch (authority : ℕ) (outcomes : List (QualificationIntakeOutcome sampleHashes)) :
    Option (QualificationIntakeBatch sampleHashes) :=
  if h : outcomes ≠ [] ∧ (∀ o ∈ outcomes, o.WellFormed (.ofNat (4000 + authority))) ∧
      (outcomes.map (·.reservationDigest)).Nodup ∧
      (∀ o ∈ outcomes, o.attemptArtifactSha256.map some = some (attempt authority).sha256) ∧
      outcomes.filter (·.decision = .noDecision) = [] then
    some
      { authorityManifestDigest := .ofNat (4000 + authority)
        outcomes := outcomes
        attemptRef := some (attempt authority)
        nonempty := h.1
        wellFormed := h.2.1
        distinct := h.2.2.1
        attempts := h.2.2.2.1
        retried := by rw [h.2.2.2.2]; rfl }
  else none

/-- The PASSes of one authority, retained at a block. -/
def pass (authority block : ℕ) (qualifications : List QualificationFields) :
    List (Op intakeHashes) :=
  let outcomes := qualifications.filterMap fun q =>
    if h : q.postInit sampleHashes = .ok () then some (passed ⟨q, h⟩) else none
  (batch authority outcomes).toList.map fun b => .applyBatch b block (some "/evidence")

/-- The PASS of the second submission. -/
def secondPass : List (Op intakeHashes) :=
  claim 2 [2] ++ pass 2 3 [sampleQualification 2 2 2 "bob" "attn" 2 sampleStack
    (samplePercent 5 isSpeedup_five)]

/-- Lease the cohort that is due, reopen its evidence, plan its settlement and commit it. -/
def settling (s : Store intakeHashes) (block : ℕ) : List (Op intakeHashes) :=
  match s.leaseSettlementCohort block 100 with
  | (s', .ok (some lease)) =>
    let evidence := lease.candidates.filterMap fun c =>
      (s'.settlementEvidenceMetadata c).toOption
    let resolve m := Except.ok (sampleTree m)
    match planSettlement lease.candidates lease.stack.manifest lease.stack.treeDigest
        lease.initialEventSequence lease.previousEventDigest lease.lineageTips (some resolve) with
    | .ok plan => [.leaseSettlement block 100, .commitSettlement lease evidence plan block resolve]
    | .error _ => []
  | _ => []

def start : Store intakeHashes := .init intakeHashes {} false

/-- The operations, and then the settlement that is due after them. -/
def settled (ops : List (Op intakeHashes)) (block : ℕ) : List (Op intakeHashes) :=
  ops ++ settling (start.run ops) block

end Sample

end Cacheon
