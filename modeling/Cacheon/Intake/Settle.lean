import Cacheon.Intake.Evaluation

/-!
# Settlement

Retained PASSes are settled in arrival order.  `leaseSettlementCohort` leases the oldest cohort
that nothing earlier blocks; `commitSettlement` checks that nothing it was planned on has
changed and writes the plan: its events, the crowned claim, the target's lineage and the moved
stack, in one transaction.
-/

namespace Cacheon

open Fallible IntakeFault Keyed

/-- A leased cohort with everything its plan depends on. -/
structure SettlementLeaseFields (K : IntakeHashes) where
  leaseId : Digest
  authorityDigest : Digest
  generation : ℕ
  expiresBlock : ℕ
  stack : EvaluationStackState
  candidates : List (SettlementCandidate K)
  initialEventSequence : ℕ
  previousEventDigest : Option Digest
  lineageTips : LineageTips
deriving DecidableEq

/-- A well-formed lease.  A caller may build one of its own. -/
structure SettlementLease (K : IntakeHashes) extends SettlementLeaseFields K where
  bounds : 0 < generation ∧ 0 < expiresBlock
  stack_ok : stack.manifest.arenaDigest = stack.arenaDigest
  candidates_ok : candidates ≠ [] ∧ ∀ c ∈ candidates, c.primary.arenaDigest = stack.arenaDigest ∧
      c.primary.qualificationAuthorityDigest = authorityDigest
  tips_ok : Keyed.Sorted Prod.fst lineageTips
deriving DecidableEq

/-- Check the fields of a lease. -/
def SettlementLeaseFields.seal {K : IntakeHashes} (f : SettlementLeaseFields K) :
    Intake (SettlementLease K) :=
  if h : (0 < f.generation ∧ 0 < f.expiresBlock) ∧
      f.stack.manifest.arenaDigest = f.stack.arenaDigest ∧
      (f.candidates ≠ [] ∧ ∀ c ∈ f.candidates, c.primary.arenaDigest = f.stack.arenaDigest ∧
          c.primary.qualificationAuthorityDigest = f.authorityDigest) ∧
      Keyed.Sorted Prod.fst f.lineageTips then
    .ok { f with
      bounds := h.1, stack_ok := h.2.1, candidates_ok := h.2.2.1, tips_ok := h.2.2.2 }
  else .error (intake "settlement lease candidates are inconsistent")

/-- Bind exactly the retained attempts represented by a candidate. -/
def SettlementEvidence.bind {H : SettlementHashes} (c : SettlementCandidate H)
    (attempts : List EvidenceArtifactRef) : SettlementM SettlementEvidence := do
  check (attempts.map (·.sha256) = c.qualifications.map (some ·.qualificationAttemptDigest))
    (.settlement "settlement attempt references differ from the candidate")
  let primaryRef ← Fallible.get
    (.settlement "settlement attempt references differ from the candidate") attempts.head?
  return {
    candidateDigest := c.digest
    reservationDigest := c.primary.reservationDigest
    primaryAuthorityDigest := c.primary.qualificationAuthorityDigest
    primaryAttemptRef := primaryRef
    primaryReportDigest := c.primary.qualificationReportDigest
    primarySelectionEvidenceDigest := c.primary.selectionEvidenceDigest
    reproduction := c.fields.reproduction.bind fun r => attempts[1]?.map fun ref =>
      (r.qualificationAuthorityDigest, ref, r.qualificationReportDigest,
        r.selectionEvidenceDigest) }

namespace Store

variable {K : IntakeHashes} (s : Store K)

/-! ### Evidence -/

/-- The disposition of an attempt still grants the retained PASS. -/
def passAuthority (q : RetainedQualification) : Bool :=
  (s.dispositions.find? fun d =>
    d.reservationId = q.qualification.reservationDigest ∧
      d.evidenceDigest = some q.qualification.qualificationAttemptDigest).any fun d =>
    d.decision = .pass ∧ d.authorityDigest = q.qualification.qualificationAuthorityDigest ∧
      d.reportDigest = some q.qualification.qualificationReportDigest

variable (c : SettlementCandidate K)

/-- The candidate has standing: its row is there and its reservation is a PASS. -/
def hasStanding : Prop :=
  ∃ row ∈ s.candidates.find? c.primary.reservationDigest,
    ∃ r ∈ s.reservations.find? c.primary.reservationDigest,
      row.candidate.digest = c.digest ∧ r.status = .qualified ∧ r.decision = some .pass ∧
        row.evidenceRoot ≠ "" ∧
        (c.fields.reproduction.isSome → row.reproductionEvidenceRoot ≠ "")

instance : Decidable (s.hasStanding c) := by
  unfold hasStanding; infer_instance

/-- Reopen the exact accepted attempts before the store can settle or reward them. -/
def settlementEvidenceMetadata : Intake SettlementEvidence := do
  check (s.hasStanding c) noStanding
  let retained := sortBy (·.reproductionIndex) (s.retained c.primary.reservationDigest)
  check (retained.map (·.reproductionIndex) = List.range c.qualifications.length)
    (intake "settlement candidate lacks its retained qualifications")
  check (∀ q ∈ retained, q.attemptRef.sha256 = q.qualification.qualificationAttemptDigest)
    (intake "retained reproduction identity differs")
  check (∀ q ∈ retained, s.passAuthority q) (intake "retained reproduction lost PASS authority")
  check (retained.map (·.qualification) = c.qualifications)
    (intake "retained reproductions differ from settlement candidate")
  let row ← Fallible.get noStanding (s.candidates.find? c.primary.reservationDigest)
  check (retained.map (·.evidenceRoot) = row.evidenceRoot ::
      (c.fields.reproduction.map fun _ => row.reproductionEvidenceRoot).toList)
    (intake "settlement reproduction roots differ")
  (SettlementEvidence.bind c (retained.map (·.attemptRef))).mapError IntakeFault.settlement

/-! ### Priority -/

/-- Every earlier reservation of the same competition is completed. -/
def completedPrefix (r : IntakeReservation) : Bool :=
  s.reservations.rows.all fun earlier =>
    !(earlier.competitionArena = r.competitionArena &&
      earlier.arrivalKey < r.arrivalKey) || completed earlier.toWork

/-- The reservation of a candidate row. -/
def reservationOf (c : CandidateRow K) : Option IntakeReservation :=
  s.reservations.find? c.reservationId

/-- The earlier reservation stands in the way of a cohort. -/
def blocks (cohort : List Digest) (row : IntakeReservation) : Bool :=
  row.reservationId K ∉ cohort && row.status ∉ [.failed, .expired] && !completedHold row.toWork &&
    !(row.status = .qualified && (s.candidates.find? (row.reservationId K)).any (·.status.settled))

/-- The earlier reservations that stand in the way of a candidate. -/
def economicBlockers (id : Digest) (cohort : List Digest) : Intake (List Digest) := do
  let candidate ← s.get id
  .ok ((s.all.filter fun row =>
    row.competitionArena = candidate.competitionArena ∧
      row.arrivalKey < candidate.arrivalKey ∧ s.blocks cohort row).map
    (·.reservationId K))

/-- Nothing earlier stands in the way of any candidate of a cohort. -/
def unblocked (candidates : List (SettlementCandidate K)) :
    Intake Bool := do
  let ids := candidates.map (·.primary.reservationDigest)
  let blockers ← ids.mapM fun id => s.economicBlockers id ids
  .ok (blockers.all (· = []))

/-- The journal, in the order of its sequence numbers. -/
def eventsInOrder : List SettlementEventRow := sortBy (·.event.sequence) s.events

/-- The place the next event takes in the journal. -/
def eventHead : ℕ × Option Digest :=
  match s.eventsInOrder.getLast? with
  | none => (0, none)
  | some row => (row.event.sequence + 1, some (K.event row.event))

/-! ### Lineages -/

/-- Follow the parents of an artifact to the root, or to a parent that was never crowned.  The
artifacts seen are distinct nodes, so that fuel for one more than the nodes is never used up. -/
def climb (scope target : String) : ℕ → List Digest → List TargetLineageNode → Option Digest →
      Intake (List TargetLineageNode)
  | _, _, nodes, none => .ok nodes
  | 0, _, _, some _ => .error (intake "target lineage contains a cycle")
  | fuel + 1, seen, nodes, some artifact =>
    if artifact ∈ seen then .error (intake "target lineage contains a cycle")
    else match s.nodes.find? (scope, target, artifact) with
      | none => if nodes ≠ [] then .ok nodes
        else .error (intake "target lineage tips require a successful backfill")
      | some row =>
        climb scope target fuel (artifact :: seen)
          (⟨row.artifactDigest, row.parentArtifactDigest, row.winnerSpeedup,
            row.transitionEventId⟩ :: nodes)
          row.parentArtifactDigest

/-- The path from the root to one tip. -/
def lineageOf (tip : LineageRow) : Intake (String × TargetLineage) := do
  let nodes ← s.climb tip.competitionArena tip.targetId (s.nodes.rows.length + 1) [] []
    (some tip.artifactDigest)
  let lineage ← (TargetLineage.ofNodes nodes).mapError IntakeFault.settlement
  .ok (tip.targetId, lineage)

/-- Each target's path from the root to the tip in one competition. -/
def targetLineageTips (scope : String) : Intake LineageTips :=
  (sortBy (·.targetId) (s.tips.rows.filter (·.competitionArena = scope))).mapM s.lineageOf

/-- The edge a crown adds to the lineage of its target. -/
def lineageNode (arena : String) (c : SettlementCandidate K)
    (artifact : Digest) (parent : Option Digest) (eventId : Digest) (crownedBlock : ℕ) :
    LineageRow where
  competitionArena := arena
  targetId := c.primary.targetId
  artifactDigest := artifact
  parentArtifactDigest := parent
  winnerSpeedup := c.speedup
  arenaId := c.primary.arenaDigest
  stackDigest := c.primary.challenger.stackDigest
  transitionEventId := eventId
  crownedBlock := crownedBlock

/-- The store with one more edge, which is the tip of its target. -/
def addNode (node : LineageRow) : Store K :=
  s.withLedger { s.ledger with
    nodes := s.nodes.put node
    tips := s.tips.put node }

/-- Put a crown into the lineage of its target. -/
def writeLineage (artifact : Digest)
    (parent : Option Digest) (eventId : Digest) (crownedBlock : ℕ) :
    Intake (Store K) := do
  let row ← s.get c.primary.reservationDigest
  let node := lineageNode row.competitionArena c artifact parent eventId crownedBlock
  check (∀ n ∈ s.nodes.rows, n.transitionEventId = eventId → n.place = node.place)
    (integrity "target_lineage_nodes")
  .ok (s.addNode node)

/-! ### Leasing a cohort -/

/-- The store with some candidates in another state. -/
def mapCandidates (p : CandidateRow K → Prop) [DecidablePred p]
    (f : CandidateRow K → CandidateState) : Store K :=
  s.withCandidates (s.candidates.update p (fun c => c.withState (f c)) fun _ => rfl)

/-- The reservation of a candidate is still a PASS. -/
def stillQualified (c : CandidateRow K) : Bool := (s.reservationOf c).all (·.status = .qualified)

/-- Hold the candidates whose reservation was demoted. -/
def holdDemoted : Store K :=
  s.mapCandidates (fun c => c.status ∈ [.pending, .leased] ∧ s.stillQualified c = false)
    fun c => { c.toCandidateState with
      status := .held, leaseId := none, leaseExpiresBlock := 0
      reason := "intake_no_longer_qualified" }

/-- The state of a candidate whose lease is taken back. -/
def takenBack (reason : String) (c : CandidateState) : CandidateState :=
  { c with
    status := .pending, leaseId := none, leaseGeneration := c.leaseGeneration + 1
    leaseExpiresBlock := 0, reason := reason }

/-- Take back the expired leases. -/
def expireSettlementLeases (currentBlock : ℕ) : Store K :=
  s.mapCandidates (fun c => c.status = .leased ∧ c.leaseExpiresBlock ≤ currentBlock)
    fun c => takenBack "settlement_lease_expired" c.toCandidateState

/-- Bring the candidates up to date before a lease. -/
def refreshCandidates (currentBlock : ℕ) : Store K :=
  s.holdDemoted.expireSettlementLeases currentBlock

/-- The pending candidates in their competition's completed prefix, in finalized order. -/
def readyCandidates : List (CandidateRow K) :=
  let joined := (s.candidates.rows.filter (·.status = .pending)).filterMap fun c =>
    ((s.reservationOf c).filter fun r => r.status = .qualified && s.completedPrefix r).map
      fun r => (c, r.arrivalKey)
  (sortBy Prod.snd joined).map Prod.fst

/-- The first cohort, by its oldest member, that nothing blocks. -/
def chooseCohort (ready : List (CandidateRow K)) :
    List (CandidateRow K) → Intake (Option (List (CandidateRow K)))
  | [] => .ok none
  | first :: rest => do
    let group := ready.filter (·.authorityDigest = first.authorityDigest)
    check (∀ c ∈ group, c.candidate.primary.arenaDigest = first.candidate.primary.arenaDigest)
      (intake "one qualification authority spans multiple arenas")
    if ← s.unblocked (group.map (·.candidate)) then .ok (some group)
    else chooseCohort ready rest

/-- Lease a chosen cohort. -/
def leaseChosen (currentBlock leaseBlocks : ℕ) (first : CandidateRow K)
    (rest : List (CandidateRow K)) :
    Intake (Store K × SettlementLeaseFields K) := do
  let chosen := first :: rest
  let candidates := chosen.map (·.candidate)
  let ids := candidates.map (·.primary.reservationDigest)
  let stack ← s.evaluationStack first.candidate.primary.arenaDigest
  let generation := (chosen.map (·.leaseGeneration)).foldr max 0 + 1
  let expires := currentBlock + leaseBlocks
  let leaseId := K.settlementLease first.authorityDigest (candidates.map (·.digest)) generation
    stack.generation currentBlock
  let s := s.mapCandidates (fun c => c.status = .pending ∧ c.reservationId ∈ ids)
    fun c => { c.toCandidateState with
      status := .leased, leaseId := some leaseId, leaseGeneration := generation
      leaseExpiresBlock := expires, reason := "" }
  let row ← s.get first.reservationId
  let tips ← s.targetLineageTips row.competitionArena
  .ok (s, {
    leaseId := leaseId
    authorityDigest := first.authorityDigest
    generation := generation
    expiresBlock := expires
    stack := stack
    candidates := candidates
    initialEventSequence := s.eventHead.1
    previousEventDigest := s.eventHead.2
    lineageTips := tips })

/-- Lease the oldest cohort that nothing blocks, in one transaction. -/
def leaseCohort (currentBlock leaseBlocks : ℕ) :
    Intake (Store K × Option (SettlementLeaseFields K)) := do
  check (0 < leaseBlocks) (intake "settlement lease bounds are malformed")
  let s ← s.expireStaleRows currentBlock
  let s := s.refreshCandidates currentBlock
  match ← s.chooseCohort s.readyCandidates s.readyCandidates with
  | none => .ok (s, none)
  | some [] => .ok (s, none)
  | some (first :: rest) => do
    let (s, fields) ← s.leaseChosen currentBlock leaseBlocks first rest
    .ok (s, some fields)

/-- Lease the oldest cohort that nothing blocks.  The lease is built after the transaction. -/
def leaseSettlementCohort (currentBlock leaseBlocks : ℕ) :
    Store K × Intake (Option (SettlementLease K)) :=
  match s.leaseCohort currentBlock leaseBlocks with
  | .error fault => (s, .error fault)
  | .ok (s', none) => (s', .ok none)
  | .ok (s', some fields) => (s', fields.seal.map some)

/-! ### Committing a settlement -/

variable (lease : SettlementLease K) (evidence : List SettlementEvidence)

/-- The leased candidate of a digest. -/
def leasedCandidate (digest : Digest) : Intake (SettlementCandidate K) :=
  Fallible.get (intake "KeyError") (lease.candidates.find? (·.digest = digest))

/-- The receipt of a candidate. -/
def receiptOf (digest : Digest) : Intake SettlementEvidence :=
  Fallible.get (intake "KeyError") (evidence.find? (·.candidateDigest = digest))

/-- The store with other standing claims. -/
def withStanding (t : Table StandingRow.family) : Store K :=
  s.withLedger { s.ledger with standing := t }

/-- Deactivate the claims of the families an event retires. -/
def retireFamily (s : Store K) (event : SettlementEvent) : Store K :=
  if event.eventType ∈ [.retirement, .neutralization] then
    s.withStanding (s.standing.update
      (fun r => r.family = (lease.stack.arenaDigest, event.targetId))
      (fun r => { r with active := false, eventId := K.event event }) fun _ => rfl)
  else s

/-- The store with one more event. -/
def addEvent (row : SettlementEventRow) : Store K :=
  s.withLedger { s.ledger with events := s.events ++ [row] }

/-- Append an event to the journal. -/
def insertEvent (event : SettlementEvent) (c : SettlementCandidate K) : Intake (Store K) := do
  check (∀ row ∈ s.events, row.event.sequence ≠ event.sequence ∧ K.event row.event ≠ K.event event)
    (integrity "settlement_events")
  .ok (s.addEvent ⟨event, c.primary.reservationDigest, c.primary.arenaDigest⟩)

/-- A speedup in parts per million, rounded down. -/
def speedupPpm (speedup : Speedup) : ℕ :=
  (speedup.val.mul decimalContext (.ofNat weightPpm)).floor.toNat

/-- The claim of a crowned candidate. -/
def standingClaim (contribution : ContributionRef) (receipt : SettlementEvidence) :
    Intake StandingRewardClaim :=
  if h : weightPpm < speedupPpm c.speedup then .ok
    { arenaDigest := c.primary.arenaDigest
      targetId := c.primary.targetId
      targetSpecDigest := contribution.targetSpecDigest
      contributionDigest := K.contribution contribution
      hotkey := c.primary.hotkey
      speedupPpm := speedupPpm c.speedup
      crownedBlock := c.primary.finalizedBlock
      retainedEvidenceDigest := K.settlementEvidence receipt
      faster := h }
  else .error (.economics (.economics
    ("speedup_ppm must be an integer >= " ++ toString (weightPpm + 1))))

/-- Make a claim the active one of its family. -/
def putStanding (claim : StandingRewardClaim) (eventId : Digest) : Intake (Store K) := do
  check (∀ r ∈ s.standing.rows, K.standingClaim r.claim = K.standingClaim claim →
      r.family = (claim.arenaDigest, claim.targetId))
    (integrity "standing_reward_claims")
  .ok (s.withStanding (s.standing.put ⟨claim, true, eventId⟩))

/-- Remember the reservations that were there at a crown, unless they are remembered. -/
def remember (eventId : Digest) (rows : List IntakeReservation) : Store K :=
  let pairs := rows.map fun r => (eventId, r.reservationId K)
  s.withLedger { s.ledger with
    pretransition := s.pretransition ++ pairs.filter (· ∉ s.pretransition) }

/-- Remember the reservations of a competition that were there at a crown. -/
def snapshotArena (eventId : Digest) (arena : String) : Store K :=
  s.remember eventId (s.reservations.rows.filter (·.competitionArena = arena))

/-- Write a crown: the claim, the lineage and the snapshot of its competition. -/
def crown (currentBlock : ℕ) (event : SettlementEvent)
    (c : SettlementCandidate K) : Intake (Store K) := do
  let contribution ← Fallible.get (intake "KeyError")
    (c.primary.candidateManifest.entryOf c.primary.targetId)
  let receipt ← receiptOf evidence c.digest
  let claim ← standingClaim c contribution receipt
  let s ← s.putStanding claim (K.event event)
  let s ← s.writeLineage c contribution.artifactDigest c.incumbentArtifact (K.event event)
    currentBlock
  let row ← s.get c.primary.reservationDigest
  let s := s.snapshotArena (K.event event) row.competitionArena
  check (row.block = c.primary.finalizedBlock ∧ row.eventIndex = c.primary.eventIndex ∧
      row.eventSubindex = c.primary.eventSubindex ∧
      row.hotkey = c.primary.hotkey)
    (intake "CROWN candidate differs from finalized arrival authority")
  .ok s

/-- Write one event of a plan. -/
def commitEvent (currentBlock : ℕ) (s : Store K) (event : SettlementEvent) : Intake (Store K) := do
  let c ← leasedCandidate lease event.candidateDigest
  let s ← s.insertEvent event c
  if event.eventType = .crown then s.crown evidence currentBlock event c else .ok s

/-- What a plan does to a candidate: its last HOLD or CROWN. -/
def dispositionOf (events : List SettlementEvent) (digest : Digest) : Option CandidateStatus :=
  ((events.filter fun e => e.candidateDigest = digest ∧
    (e.eventType = .hold ∨ e.eventType = .crown)).getLast?).map fun e =>
      if e.eventType = .hold then .held else .crowned

/-- The text of the statuses that a plan gives. -/
def dispositionText (status : CandidateStatus) : String :=
  if status = .crowned then "crowned" else "held"

/-- Give one candidate the status of its disposition. -/
def disposeCandidate (events : List SettlementEvent) (s : Store K)
    (c : SettlementCandidate K) : Intake (Store K) := do
  let status ← Fallible.get (intake "settlement plan did not dispose every leased candidate")
    (dispositionOf events c.digest)
  let receipt ← receiptOf evidence c.digest
  .ok (s.mapCandidates (fun row => row.reservationId = c.primary.reservationDigest)
    fun row => { row.toCandidateState with
      status := status, leaseId := none, leaseExpiresBlock := 0
      reason := dispositionText status
      settlementEvidenceDigest := some (K.settlementEvidence receipt) })

/-- The store with another stack for an arena. -/
def withStack (row : StackRow) : Store K :=
  s.withLedger { s.ledger with evaluationStacks := s.evaluationStacks.put row }

/-- The stack after a transition. -/
def movedStack (row : StackRow) (transition : StackTransitionOutput) (eventId : Digest) :
    StackRow :=
  { row with
    generation := row.generation + 1
    manifest := transition.manifest
    treeDigest := transition.after.treeDigest
    transitionEventId := eventId }

/-- Move the stack of the lease's arena. -/
def moveStack (plan : SettlementPlan) (transition : StackTransitionOutput) : Intake (Store K) := do
  let last ← Fallible.get (intake "IndexError") plan.events.getLast?
  let current ← Fallible.get (intake "evaluation stack changed during settlement commit")
    (s.evaluationStacks.find? lease.stack.arenaDigest)
  check (current.generation = lease.stack.generation ∧
      K.manifest current.manifest = K.manifest lease.stack.manifest ∧
      current.treeDigest = lease.stack.treeDigest)
    (intake "evaluation stack changed during settlement commit")
  .ok (s.withStack (movedStack current transition (K.event last)))

/-- The rows of the leased candidates that this lease still holds. -/
def heldByLease : List (CandidateRow K) :=
  s.candidates.rows.filter fun row =>
    row.status = .leased ∧ row.leaseId = some lease.leaseId ∧
      row.leaseGeneration = lease.generation ∧
      row.reservationId ∈ lease.candidates.map (·.primary.reservationDigest) ∧
      (s.reservationOf row).any (·.status = .qualified)

/-- Everything the plan was made on still holds. -/
def requireUnchanged (currentBlock : ℕ) : Intake (Store K) := do
  let rows ← lease.candidates.mapM fun c => s.get c.primary.reservationDigest
  check (∀ r ∈ rows, ∀ r' ∈ rows, r.competitionArena = r'.competitionArena)
    (intake "settlement belongs to another competition arena")
  let s ← s.expireStaleRows currentBlock
  let current ← s.evaluationStack lease.stack.arenaDigest
  check (current = lease.stack ∧
      s.eventHead = (lease.initialEventSequence, lease.previousEventDigest))
    (intake "settlement incumbent or journal advanced")
  let arena := (rows.head?.map (·.competitionArena)).getD ""
  let tips ← s.targetLineageTips arena
  check (tips = lease.lineageTips) (intake "target lineage advanced while evidence was open")
  let free ← s.unblocked lease.candidates
  check (free = true) (intake "settlement priority changed while evidence was open")
  lease.candidates.forM fun c => do
    let expected ← s.settlementEvidenceMetadata c
    let receipt ← receiptOf evidence c.digest
    check (expected = receipt) (intake "settlement evidence changed after reopening")
  let held := s.heldByLease lease
  check (held.length = lease.candidates.length ∧
      (∀ row ∈ held, row.candidate.digest ∈ lease.candidates.map (·.digest)) ∧
      ∀ c ∈ lease.candidates, c.digest ∈ held.map (·.candidate.digest))
    (intake "settlement lease is stale or incomplete")
  .ok s

/-- Write a plan. -/
def writePlan (plan : SettlementPlan) (currentBlock : ℕ) : Intake (Store K) := do
  let s := plan.events.foldl (retireFamily lease) s
  let s ← plan.events.foldlM (commitEvent lease evidence currentBlock) s
  let s ← lease.candidates.foldlM (disposeCandidate evidence plan.events) s
  match plan.transition with
  | none => .ok s
  | some transition => s.moveStack lease plan transition

/-- The transaction that commits a plan.  `resolve` gives the tree of a composed stack. -/
def commitPlan (plan : SettlementPlan) (currentBlock : ℕ) (resolve : TreeResolver) :
    Intake (Store K) := do
  check (currentBlock < lease.expiresBlock ∧ evidence.length = lease.candidates.length ∧
      (∀ e ∈ evidence, e.candidateDigest ∈ lease.candidates.map (·.digest)) ∧
      ∀ c ∈ lease.candidates, c.digest ∈ evidence.map (·.candidateDigest))
    (intake "settlement evidence or lease deadline is invalid")
  let expected ← (planSettlement lease.candidates lease.stack.manifest lease.stack.treeDigest
    lease.initialEventSequence lease.previousEventDigest lease.lineageTips
    (some resolve)).mapError IntakeFault.settlement
  check (expected = plan) (intake "settlement plan differs from its leased authority")
  let s ← s.requireUnchanged lease evidence currentBlock
  s.writePlan lease evidence plan currentBlock

/-- Commit one planned settlement and read the stack it leaves. -/
def commitSettlement (plan : SettlementPlan) (currentBlock : ℕ) (resolve : TreeResolver) :
    Store K × Intake EvaluationStackState :=
  match s.commitPlan lease evidence plan currentBlock resolve with
  | .error fault => (s, .error fault)
  | .ok s' => (s', s'.evaluationStack lease.stack.arenaDigest)

/-! ### Rebuilding the lineages -/

/-- The place of an arrival, without what breaks ties. -/
def eventPlace (block eventIndex eventSubindex : ℕ) : ℕ ×ₗ ℕ ×ₗ ℕ :=
  toLex (block, toLex (eventIndex, eventSubindex))

/-- The reservation was there before a crown: it arrived before the winner's last evidence was
retained or, for evidence without a block, no later than the winner. -/
def precedesCrown (proofBlock : ℕ) (r : IntakeReservation) : Bool :=
  if 0 < proofBlock then
    r.block < proofBlock || r.reservationId K = c.primary.reservationDigest
  else eventPlace r.block r.eventIndex r.eventSubindex ≤
    eventPlace c.primary.finalizedBlock c.primary.eventIndex c.primary.eventSubindex

/-- Replay one crown of the journal into the lineages. -/
def replayCrown (s : Store K) (row : SettlementEventRow) : Intake (Store K) := do
  let candidateRow ← Fallible.get (intake "crowned target has no settlement candidate")
    (s.candidates.find? row.reservationId)
  let c := candidateRow.candidate
  let contribution ← Fallible.get (intake "crowned candidate does not name its target")
    (c.primary.candidateManifest.entryOf row.event.targetId)
  let parent := (c.primary.incumbentManifest.entryOf row.event.targetId).map (·.artifactDigest)
  let s ← s.writeLineage c contribution.artifactDigest parent (K.event row.event)
    c.primary.finalizedBlock
  let retained := (s.retained c.primary.reservationDigest).map (·.retainedBlock)
  check (retained ≠ []) (intake "TypeError")
  let winner ← s.get c.primary.reservationDigest
  .ok (s.remember (K.event row.event) (s.reservations.rows.filter fun r =>
    r.competitionArena = winner.competitionArena ∧ precedesCrown c (retained.foldr max 0) r))

/-- The store without lineages. -/
def clearLineages : Store K :=
  s.withLedger { s.ledger with nodes := .empty, tips := .empty, pretransition := [] }

/-- Delete the lineages and replay them from the crowns of the journal. -/
def replayLineages : Intake (Store K) :=
  (s.eventsInOrder.filter (·.event.eventType = .crown)).foldlM replayCrown s.clearLineages

/-- Rebuild the lineages and reopen those of the selected competition. -/
def backfillTargetLineageTips : Store K × Intake LineageTips :=
  match s.replayLineages with
  | .error fault => (s, .error fault)
  | .ok s' => (s', s'.targetLineageTips s'.selectedArena)

/-! ### Standing claims -/

/-- The active claims, in the order of their families. -/
def activeRewardClaims : List StandingRewardClaim :=
  (sortBy (fun r : StandingRow => toLex r.family) (s.standing.rows.filter (·.active))).map (·.claim)

/-- Reopen the evidence a claim rests on. -/
def reopenClaimEvidence (retainedDigest : Digest) : Intake SettlementEvidence := do
  let row ← Fallible.get (intake "active reward claim has no standing settlement candidate")
    (s.candidates.rows.find? fun c =>
      c.settlementEvidenceDigest = some retainedDigest ∧ c.status = .crowned)
  let receipt ← s.settlementEvidenceMetadata row.candidate
  check (K.settlementEvidence receipt = retainedDigest)
    (intake "active reward claim differs from reopened settlement evidence")
  .ok receipt

end Store

end Cacheon
