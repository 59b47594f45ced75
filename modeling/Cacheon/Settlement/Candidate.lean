import Cacheon.Settlement.Lineage
import Cacheon.Settlement.Manifest
import Mathlib.Data.Prod.Lex

/-!
# Settlement candidates

A qualification is one independently graded PASS; a candidate is the qualification (or, for
historical rows, the reproduced pair) that settlement may crown.  Both are closed records:
`Qualification` and `SettlementCandidate` carry the checks their constructors make, so that a
value of the type is a value the source could build.
-/

namespace Cacheon

open Fallible SettlementFault

/-! ### Identifiers and members -/

/-- The settlement identifier grammar `[A-Za-z0-9][A-Za-z0-9._:-]{0,255}`. -/
def isIdentifier (s : String) : Bool := isNameOver Char.isAlphanum "._:-" 255 s.toList

/-- Split a text at its dots. -/
def splitDots : List Char → List (List Char)
  | [] => [[]]
  | c :: rest =>
    if c = '.' then [] :: splitDots rest
    else match splitDots rest with
      | [] => [[c]]
      | segment :: segments => (c :: segment) :: segments

/-- The segments of a member name. -/
def segments (member : String) : List (List Char) := splitDots member.toList

/-- A segment of a node address: a star, or letters, digits, `_` and `-`. -/
def isSegment (segment : List Char) : Bool :=
  segment = ['*'] || (!segment.isEmpty && segment.all fun c => c.isAlphanum || c = '_' || c = '-')

/-- A slot id or a node address of at most 128 characters. -/
def isNodeAddress (member : String) : Bool :=
  decide (1 ≤ member.length ∧ member.length ≤ 128) && (segments member).all isSegment

/-- One name sits at or under the other, a star standing for any one segment. -/
def segmentsOverlap : List (List Char) → List (List Char) → Bool
  | a :: as, b :: bs => (a = b || a = ['*'] || b = ['*']) && segmentsOverlap as bs
  | _, _ => true

/-- Two member sets claim a common unit of the model. -/
def membersOverlap (left right : List String) : Bool :=
  left.any fun x => right.any fun y => segmentsOverlap (segments x) (segments y)

/-! ### Qualifications -/

/-- A settlement lane. -/
inductive SettlementLane where
  | registered
deriving DecidableEq

/-- The seed-independent part of a slot audit. -/
structure SlotAuditControl where
  sampleRatePpm : ℕ
  minimumCalls : ℕ
  expectedSlots : List String
  expectedMemberCount : ℕ
deriving DecidableEq

/-- The validator's policy for one separate untimed audit of a candidate. -/
structure SlotAuditPolicy where
  validatorSeed : String
  control : SlotAuditControl
deriving DecidableEq

/-- The physical lanes of one resident crossover PASS. -/
structure ResidentLaneOrientation where
  speedEvidencePolicyDigest : Digest
  controlDigest : Digest
  baselinePhysicalLaneDigest : Digest
  candidatePhysicalLaneDigest : Digest
deriving DecidableEq

/-- The same policy and control with the two lanes exchanged. -/
def ResidentLaneOrientation.isExactSwapOf (o primary : ResidentLaneOrientation) : Bool :=
  o.speedEvidencePolicyDigest = primary.speedEvidencePolicyDigest ∧
    o.controlDigest = primary.controlDigest ∧
    o.baselinePhysicalLaneDigest = primary.candidatePhysicalLaneDigest ∧
    o.candidatePhysicalLaneDigest = primary.baselinePhysicalLaneDigest

/-- The fields of a qualification, before they are checked. -/
structure QualificationFields where
  lane : SettlementLane := .registered
  arenaDigest : Digest
  reservationDigest : Digest
  finalizedBlock : ℕ
  eventIndex : ℕ
  eventSubindex : ℕ
  hotkey : Hotkey
  targetId : String
  members : List String
  selectedDeltaDigest : Digest
  qualificationAuthorityDigest : Digest
  qualificationPlanDigest : Digest
  qualificationAttemptDigest : Digest
  qualificationReportDigest : Digest
  selectionCommitmentDigest : Digest
  selectionSecretCommitmentDigest : Digest
  selectionEvidenceDigest : Digest
  armDigest : Digest
  incumbent : StackArmIdentity
  challenger : StackArmIdentity
  speedup : Speedup
  incumbentManifest : EvaluationStackManifest
  candidateManifest : EvaluationStackManifest
  speedEvidencePolicyDigest : Digest
  auditControlDigest : Digest
  auditPolicy : Option SlotAuditPolicy
  auditEvidenceDigest : Digest
  residentLaneOrientation : Option ResidentLaneOrientation
deriving DecidableEq

/-- The fields of a candidate: its accepted run, and the second run of a historical pair. -/
structure CandidateFields where
  primary : QualificationFields
  reproduction : Option QualificationFields
deriving DecidableEq

/-- The kinds of settlement events. -/
inductive SettlementEventType where
  | hold
  | crown
  | adoption
  | retirement
  | neutralization
  | stackTransition
  | discoveryBounty
deriving DecidableEq

/-- What a settlement event says, apart from its place in the journal. -/
structure EventBody where
  eventType : SettlementEventType
  candidateDigest : Digest
  subjectDigest : Digest
  targetId : String
  source : StackArmIdentity
  destination : StackArmIdentity
  reason : String
deriving DecidableEq

/-- One entry of the settlement journal. -/
structure SettlementEvent extends EventBody where
  sequence : ℕ
  previousEventDigest : Option Digest
deriving DecidableEq

/-- The digests the settlement code computes. -/
structure SettlementHashes where
  contribution : ContributionRef → Digest
  /-- The digest of a target, its specification and a payload. -/
  selectedDelta : String → Digest → Digest → Digest
  manifest : EvaluationStackManifest → Digest
  auditControl : SlotAuditControl → Digest
  candidate : CandidateFields → Digest
  event : SettlementEvent → Digest
  /-- The speed policy of qualifications older than the field. -/
  legacySpeedPolicy : Digest
  /-- The speed policy of resident crossover runs. -/
  residentSpeedPolicy : Digest
  /-- The audit control of qualifications without an audit. -/
  legacyAuditControl : Digest
  /-- The audit evidence of qualifications without an audit. -/
  legacyAuditEvidence : Digest

variable (H : SettlementHashes)

/-- The delta a contribution selects. -/
def ContributionRef.selectedDeltaDigest (c : ContributionRef) : Digest :=
  H.selectedDelta c.targetId c.targetSpecDigest c.selectedPayloadDigest

/-- The checks a qualification passes when it is built. -/
def QualificationFields.postInit (q : QualificationFields) : SettlementM Unit := do
  check (isIdentifier q.hotkey) (settlement "hotkey is not a canonical identifier")
  check (isIdentifier q.targetId) (settlement "target_id is not a canonical identifier")
  check (q.members ≠ [] ∧ Keyed.Sorted id q.members ∧ q.members.all isNodeAddress)
    (settlement "settlement members are not canonical")
  check (q.auditPolicy = none → q.auditControlDigest = H.legacyAuditControl ∧
      q.auditEvidenceDigest = H.legacyAuditEvidence)
    (settlement "legacy auditless qualification has nonlegacy audit authority")
  check (∀ policy ∈ q.auditPolicy, H.auditControl policy.control = q.auditControlDigest)
    (settlement "settlement audit policy differs from its seed-independent control")
  check (∀ orientation ∈ q.residentLaneOrientation,
      orientation.speedEvidencePolicyDigest = q.speedEvidencePolicyDigest)
    (settlement "resident lane orientation differs from the speed evidence policy")
  check (q.speedEvidencePolicyDigest = H.residentSpeedPolicy ↔ q.residentLaneOrientation.isSome)
    (settlement "resident speed evidence requires its physical lane orientation")
  check (H.manifest q.incumbentManifest = q.incumbent.stackDigest ∧
      q.incumbentManifest.arenaDigest = q.arenaDigest)
    (settlement "incumbent manifest differs from candidate authority")
  check (q.incumbent.stackDigest ≠ q.challenger.stackDigest)
    (settlement "candidate does not change the incumbent stack identity")
  check (q.incumbent.treeDigest ≠ q.challenger.treeDigest)
    (settlement "candidate does not change the incumbent tree identity")
  check (H.manifest q.candidateManifest = q.challenger.stackDigest)
    (settlement "candidate manifest differs from candidate stack")
  check (((q.candidateManifest.entryOf q.targetId).map (·.selectedDeltaDigest H)) =
      some q.selectedDeltaDigest)
    (settlement "candidate manifest differs from its target/delta projection")
  check (q.candidateManifest.arenaDigest = q.arenaDigest)
    (settlement "candidate manifest belongs to another arena")

/-- One independently graded PASS. -/
def Qualification : Type := {q : QualificationFields // q.postInit H = .ok ()}
deriving DecidableEq

/-! ### Candidates -/

namespace CandidateFields

/-- The checks on a pair: the same contribution, measured twice with nothing shared. -/
def checkReproduction (p r : QualificationFields) : SettlementM Unit := do
  check (p.arenaDigest = r.arenaDigest ∧ p.targetId = r.targetId ∧
      p.selectedDeltaDigest = r.selectedDeltaDigest ∧ p.hotkey = r.hotkey ∧
      p.incumbent = r.incumbent ∧ p.challenger = r.challenger)
    (settlement "independent reproduction differs from the primary reproduction identity")
  check (p.lane = r.lane ∧ p.reservationDigest = r.reservationDigest ∧
      p.finalizedBlock = r.finalizedBlock ∧ p.eventIndex = r.eventIndex ∧
      p.eventSubindex = r.eventSubindex ∧ p.members = r.members ∧ p.armDigest = r.armDigest ∧
      p.incumbentManifest = r.incumbentManifest ∧ p.candidateManifest = r.candidateManifest ∧
      p.speedEvidencePolicyDigest = r.speedEvidencePolicyDigest ∧
      p.auditControlDigest = r.auditControlDigest)
    (settlement "independent reproduction differs from the primary contribution identity")
  check (p.qualificationAuthorityDigest ≠ r.qualificationAuthorityDigest ∧
      p.qualificationPlanDigest ≠ r.qualificationPlanDigest ∧
      p.qualificationAttemptDigest ≠ r.qualificationAttemptDigest ∧
      p.qualificationReportDigest ≠ r.qualificationReportDigest ∧
      p.selectionCommitmentDigest ≠ r.selectionCommitmentDigest ∧
      p.selectionSecretCommitmentDigest ≠ r.selectionSecretCommitmentDigest ∧
      p.selectionEvidenceDigest ≠ r.selectionEvidenceDigest)
    (settlement "independent reproduction reuses primary authority or evidence")
  check (p.auditPolicy.isSome = r.auditPolicy.isSome)
    (settlement "independent reproduction mixes audited and auditless qualifications")
  check (∀ a ∈ p.auditPolicy, ∀ b ∈ r.auditPolicy, a.control = b.control ∧
      a.validatorSeed ≠ b.validatorSeed ∧ p.auditEvidenceDigest ≠ r.auditEvidenceDigest)
    (settlement "independent reproduction reuses or changes slot-audit authority")
  check (p.residentLaneOrientation.isSome = r.residentLaneOrientation.isSome)
    (settlement "independent reproduction has incomplete resident lane orientation")
  check (∀ a ∈ p.residentLaneOrientation, ∀ b ∈ r.residentLaneOrientation, b.isExactSwapOf a)
    (settlement "independent reproduction did not swap physical TP lane orientation")

/-- The checks a candidate passes when it is built. -/
def postInit (c : CandidateFields) : SettlementM Unit :=
  match c.reproduction with
  | none => check c.primary.auditPolicy.isSome
      (settlement "single-run settlement requires an audited qualification")
  | some r => checkReproduction c.primary r

end CandidateFields

/-- An accepted qualification that settlement may crown. -/
structure SettlementCandidate where
  fields : CandidateFields
  primaryChecked : fields.primary.postInit H = .ok ()
  reproductionChecked : ∀ r ∈ fields.reproduction, r.postInit H = .ok ()
  checked : fields.postInit = .ok ()
deriving DecidableEq

/-- The place of a submission in the finalized order. -/
abbrev FinalizedOrder := ℕ ×ₗ ℕ ×ₗ ℕ ×ₗ Digest

namespace SettlementCandidate

variable {H}

variable (c : SettlementCandidate H)

/-- The accepted run. -/
def primary : QualificationFields := c.fields.primary

/-- The runs behind the candidate. -/
def qualifications : List QualificationFields :=
  c.primary :: c.fields.reproduction.toList

/-- The digest. -/
def digest : Digest := H.candidate c.fields

/-- The settled speedup: the smaller one of a pair. -/
def speedup : Speedup :=
  match c.fields.reproduction with
  | none => c.primary.speedup
  | some r => if r.speedup.val < c.primary.speedup.val then r.speedup else c.primary.speedup

/-- The place in the finalized order; the reservation breaks ties. -/
def finalizedOrder : FinalizedOrder :=
  toLex (c.primary.finalizedBlock, toLex (c.primary.eventIndex,
    toLex (c.primary.eventSubindex, c.primary.reservationDigest)))

/-- The manifests of a candidate: the one it was measured over is the stack it names, and the one
it was measured with has the digest it names and a contribution for its target. -/
theorem manifests_spec : (H.manifest c.primary.incumbentManifest = c.primary.incumbent.stackDigest ∧
      c.primary.incumbentManifest.arenaDigest = c.primary.arenaDigest) ∧
    H.manifest c.primary.candidateManifest = c.primary.challenger.stackDigest ∧
    (∃ r, c.primary.candidateManifest.entryOf c.primary.targetId = some r) ∧
    c.primary.candidateManifest.arenaDigest = c.primary.arenaDigest := by
  have h := c.primaryChecked
  simp only [QualificationFields.postInit, bind_ok, check_ok, exists_const] at h
  obtain ⟨-, -, -, -, -, -, -, hinc, -, -, hman, hentry, harena⟩ := h
  obtain ⟨r, hr, -⟩ := Option.map_eq_some_iff.1 hentry
  exact ⟨hinc, hman, ⟨r, hr⟩, harena⟩

end SettlementCandidate

/-! ### Sample values

The sample digest mixes the fields of a value into a number; it stands in for SHA-256 wherever a
run is computed. -/

/-- Mix numbers into one. -/
def mix (l : List ℕ) : ℕ := l.foldl (fun a x => (a * 1000003 + x + 1) % 2 ^ 255) 7

/-- Mix the characters of a text. -/
def mixText (s : String) : ℕ := mix (s.toList.map Char.toNat)

/-- A digest of some numbers. -/
def mixDigest (l : List ℕ) : Digest := .ofNat (mix l)

/-- Digests for evaluating the settlement code. -/
def sampleHashes : SettlementHashes where
  contribution c := mixDigest [1, mixText c.targetId, c.artifactDigest.val,
    c.selectedPayloadDigest.val, c.attributionDigest.val]
  selectedDelta target spec payload := mixDigest [2, mixText target, spec.val, payload.val]
  manifest m := mixDigest ([3, m.arenaDigest.val, m.baseEngineDigest.val] ++
    m.entries.map fun c => mix [mixText c.targetId, c.artifactDigest.val,
      c.selectedPayloadDigest.val, c.attributionDigest.val])
  auditControl c := mixDigest [4, c.sampleRatePpm, c.minimumCalls]
  candidate c := mixDigest [5, c.primary.reservationDigest.val,
    c.primary.qualificationAttemptDigest.val, c.primary.speedup.val.coeff.toNat]
  event e := mixDigest [6, e.sequence, (e.previousEventDigest.map (·.val)).getD 0,
    e.eventType.ctorIdx, e.candidateDigest.val, e.subjectDigest.val,
    e.destination.stackDigest.val]
  legacySpeedPolicy := .ofNat 11
  residentSpeedPolicy := .ofNat 12
  legacyAuditControl := .ofNat 13
  legacyAuditEvidence := .ofNat 14

/-- A stack without contributions. -/
def sampleStack : EvaluationStackManifest where
  runtimeDigest := .ofNat 21
  baseEngineDigest := .ofNat 22
  arenaDigest := .ofNat 23
  catalogSnapshot := .obj []
  entries := []
  sorted := List.Pairwise.nil

/-- A contribution to a target, by the number of its artifact. -/
def sampleContribution (target : String) (artifact : ℕ) : ContributionRef where
  targetId := target
  targetSpecDigest := .ofNat 31
  artifactDigest := .ofNat (1000 + artifact)
  selectedPayloadDigest := .ofNat (2000 + artifact)
  attributionDigest := .ofNat 32

def sampleTree (m : EvaluationStackManifest) : Digest :=
  mixDigest [8, (sampleHashes.manifest m).val]

def sampleArm (m : EvaluationStackManifest) : StackArmIdentity :=
  ⟨sampleHashes.manifest m, sampleTree m⟩

def sampleAudit : SlotAuditPolicy := ⟨"seed", ⟨1000, 1, ["slot"], 1⟩⟩

/-- A reservation's qualification of an artifact over an incumbent stack.  Reservations with
the same authority number were qualified together. -/
def sampleQualification (reservation authority block : ℕ) (hotkey : Hotkey)
    (target : String) (artifact : ℕ) (incumbent : EvaluationStackManifest)
    (speedup : Speedup) : QualificationFields :=
  let candidate := incumbent.withContribution (sampleContribution target artifact)
  { arenaDigest := .ofNat 23
    reservationDigest := .ofNat (3000 + reservation)
    finalizedBlock := block
    eventIndex := 0
    eventSubindex := 0
    hotkey := hotkey
    targetId := target
    members := [target]
    selectedDeltaDigest := (sampleContribution target artifact).selectedDeltaDigest sampleHashes
    qualificationAuthorityDigest := .ofNat (4000 + authority)
    qualificationPlanDigest := .ofNat (5000 + authority)
    qualificationAttemptDigest := .ofNat (6000 + authority)
    qualificationReportDigest := .ofNat (7000 + reservation)
    selectionCommitmentDigest := .ofNat 41
    selectionSecretCommitmentDigest := .ofNat 42
    selectionEvidenceDigest := .ofNat 43
    armDigest := .ofNat 44
    incumbent := sampleArm incumbent
    challenger := sampleArm candidate
    speedup := speedup
    incumbentManifest := incumbent
    candidateManifest := candidate
    speedEvidencePolicyDigest := .ofNat 11
    auditControlDigest := sampleHashes.auditControl sampleAudit.control
    auditPolicy := some sampleAudit
    auditEvidenceDigest := .ofNat 45
    residentLaneOrientation := none }

theorem isSpeedup_five : IsSpeedup ⟨100 + (5 : ℕ), -2⟩ := by decide

theorem isSpeedup_nine : IsSpeedup ⟨100 + (9 : ℕ), -2⟩ := by decide

/-- A speedup of `percent` percent. -/
def samplePercent (percent : ℕ) (h : IsSpeedup ⟨100 + percent, -2⟩) : Speedup :=
  ⟨⟨100 + percent, -2⟩, h⟩

end Cacheon
