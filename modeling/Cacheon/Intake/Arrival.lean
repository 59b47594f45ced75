import Cacheon.Economics.Claims
import Cacheon.Lib.Table
import Cacheon.Settlement.Plan
import Cacheon.Weights.Record

/-!
# Arrivals and reservations

A finalized submission becomes one reservation.  What the chain says of it, `FinalizedArrival`,
never changes; what the validator does with it is the reservation's `Work`.
-/

namespace Cacheon

open Fallible

/-! ### Arrivals -/

/-- The white space that `str.strip` removes. -/
def isSpace (c : Char) : Bool :=
  let n := c.toNat
  decide (9 ≤ n ∧ n ≤ 13 ∨ 28 ≤ n ∧ n ≤ 32 ∨ n = 0x85 ∨ n = 0xa0 ∨ n = 0x1680 ∨
    0x2000 ≤ n ∧ n ≤ 0x200a ∨ n = 0x2028 ∨ n = 0x2029 ∨ n = 0x202f ∨ n = 0x205f ∨ n = 0x3000)

/-- An account name without surrounding white space, of at most 256 characters. -/
def isHotkey (hotkey : Hotkey) : Bool :=
  decide (1 ≤ hotkey.length ∧ hotkey.length ≤ 256) && isPlainText hotkey &&
    !(hotkey.toList.head?.any isSpace) && !(hotkey.toList.getLast?.any isSpace)

/-- The bytes a reservation is named after. -/
structure ArrivalIdentity where
  hotkey : Hotkey
  contentHash : Option Digest
  url : String
  block : ℕ
  blockHash : Digest
  eventIndex : ℕ
  eventSubindex : ℕ
  payloadDigest : Digest
deriving DecidableEq

/-- A submission and its place in the finalized chain.  A malformed payload is retained with
the reason it is invalid. -/
structure FinalizedArrival extends ArrivalIdentity where
  invalidReason : String := ""
  paymentBlock : ℕ := 0
  paymentExtrinsicIndex : ℕ := 0
  hotkey_ok : isHotkey hotkey = true
  disposition_ok : contentHash.isSome ∧ url ≠ "" ∧ invalidReason.length ≤ 2048 ∨
    contentHash = none ∧ url = "" ∧ invalidReason ≠ "" ∧ invalidReason.length ≤ 2048
  payment_ok : paymentBlock = 0 → paymentExtrinsicIndex = 0
deriving DecidableEq

/-- The finalized order of submissions. -/
abbrev ArrivalKey := ℕ ×ₗ ℕ ×ₗ ℕ ×ₗ String ×ₗ ℕ

namespace FinalizedArrival

variable (arrival : FinalizedArrival)

/-- The payload can be fetched. -/
def valid : Bool := arrival.invalidReason = ""

/-- The place in the finalized order.  A missing content hash comes before every other. -/
def arrivalKey : ArrivalKey :=
  toLex (arrival.block, toLex (arrival.eventIndex, toLex (arrival.eventSubindex,
    toLex (arrival.hotkey, (arrival.contentHash.map (·.val)).getD 0))))

/-- The columns that are unique among the reservations. -/
def uniqueColumns : Digest × ℕ × ℕ × Hotkey × Option Digest :=
  (arrival.blockHash, arrival.eventIndex, arrival.eventSubindex, arrival.hotkey,
    arrival.contentHash)

end FinalizedArrival

/-! ### The submitted delta -/

/-- What kind of product a delta is. -/
inductive ProductKind where
  | component
deriving DecidableEq

/-- The copy identity of submitted bytes. -/
structure SubmittedDeltaFingerprint where
  productKind : ProductKind := .component
  targetId : String
  targetSpecDigest : Digest
  members : List String
  exactPayloadDigest : Digest
  selectedDeltaDigest : Digest
  normalizedDeltaDigest : Digest
  containmentFingerprints : List Digest
  targetId_ok : targetId ≠ ""
  members_ok : members ≠ [] ∧ Keyed.Sorted id members ∧ ∀ m ∈ members, m ≠ ""
  containment_ok : Keyed.Sorted id containmentFingerprints
deriving DecidableEq

/-- Whether a later delta copies an earlier one, and why. -/
structure DeltaCopyDecision where
  authoritative : Bool
  reason : String
deriving DecidableEq

/-- Compare two chain-ordered deltas. -/
def compareSubmittedDeltas (earlier later : SubmittedDeltaFingerprint) : DeltaCopyDecision :=
  let left := earlier.containmentFingerprints
  let right := later.containmentFingerprints
  if earlier.productKind ≠ later.productKind then ⟨false, "different_product_kind"⟩
  else if earlier.targetId ≠ later.targetId ∧ ∀ m ∈ earlier.members, m ∉ later.members then
    ⟨false, "different_reward_namespace"⟩
  else if earlier.exactPayloadDigest = later.exactPayloadDigest then
    ⟨true, "exact_delta_identity"⟩
  else if earlier.normalizedDeltaDigest = later.normalizedDeltaDigest then
    ⟨true, "normalized_delta_identity"⟩
  else if left ≠ [] ∧ right ≠ [] ∧ ((∀ d ∈ left, d ∈ right) ∨ ∀ d ∈ right, d ∈ left) then
    ⟨true, "symmetric_delta_containment"⟩
  else ⟨false, "advisory_only"⟩

/-! ### Reservations -/

/-- Where a reservation stands. -/
inductive Status where
  | deferred
  | reserved
  | fetching
  | transportRetry
  | published
  | qualifying
  | reproductionPending
  | held
  | noDecision
  | qualified
  | failed
  | expired
deriving DecidableEq

namespace Status

/-- The statuses that take up a slot of the pending queue. -/
def pending : List Status :=
  [reserved, fetching, transportRetry, published, qualifying, reproductionPending, held, noDecision]

/-- The statuses that the deadline of unresolved work ends, automatically or by an operator. -/
def expirable : List Status :=
  [deferred, reserved, transportRetry, published, reproductionPending, held, noDecision]

/-- The statuses from which a copy is demoted. -/
def copyable : List Status :=
  [published, qualifying, reproductionPending, qualified, held, noDecision]

/-- The text of a status. -/
def value : Status → String
  | deferred => "deferred"
  | reserved => "reserved"
  | fetching => "fetching"
  | transportRetry => "transport_retry"
  | published => "published"
  | qualifying => "qualifying"
  | reproductionPending => "reproduction_pending"
  | held => "held"
  | noDecision => "no_decision"
  | qualified => "qualified"
  | failed => "failed"
  | expired => "expired"

end Status

/-- The verdict on a reservation. -/
inductive QualificationDecision where
  | pass
  | fail
  | noDecision
deriving DecidableEq

/-- Which of a reservation's runs is next. -/
inductive ScreenLane where
  | primary
  | reproduction
deriving DecidableEq

/-- What the validator did with a submission so far. -/
structure Work where
  status : Status
  targetId : String := ""
  targetMembers : List String := []
  deltaFingerprint : Option SubmittedDeltaFingerprint := none
  transportAttempts : ℕ := 0
  publicationDigest : Option Digest := none
  publicationRoot : String := ""
  qualificationAuthorityDigest : Option Digest := none
  qualificationEvidenceDigest : Option Digest := none
  arenaServiceDigest : Option Digest := none
  screenLane : Option ScreenLane := none
  retryGroupDigest : Option Digest := none
  retryPosition : ℕ := 0
  decision : Option QualificationDecision := none
  reason : String := ""
  competitionArena : String := ""
deriving DecidableEq

/-- One submission in the intake queue. -/
structure IntakeReservation extends Work, arrival : FinalizedArrival where
  admissionEpoch : ℕ
deriving DecidableEq

/-- The reservation with other work done on it. -/
def IntakeReservation.withWork (r : IntakeReservation) (work : Work) : IntakeReservation :=
  ⟨work, r.arrival, r.admissionEpoch⟩

/-- One text starts with another. -/
def startsWith (head text : String) : Bool := head.toList.isPrefixOf text.toList

/-- What marks the reason of a remote hold. -/
def remoteHoldReason : String := "remote_qualification_hold:"

/-- A remote hold that was completed: its evidence is retained. -/
def completedHold (r : Work) : Bool :=
  r.status = .held && startsWith remoteHoldReason r.reason && r.qualificationEvidenceDigest.isSome

/-- The work on a submission is over, with or without a verdict. -/
def completed (r : Work) : Bool := r.status ∈ [.qualified, .failed, .expired] || completedHold r

/-! ### Policy and digests -/

/-- The bounds of the queue. -/
structure IntakePolicy where
  epochBlocks : ℕ := 360
  cutoffBlocks : ℕ := 30
  maxPending : ℕ := 256
  maxPerHotkeyEpoch : ℕ := 16
  maxPerTargetEpoch : ℕ := 64
  maxTransportRetries : ℕ := 3
  maxQualificationRetries : ℕ := 3
  maxCohort : ℕ := 8
  expiryBlocks : ℕ := 500000
  positive : ∀ bound ∈ [epochBlocks, cutoffBlocks, maxPending, maxPerHotkeyEpoch,
    maxPerTargetEpoch, maxTransportRetries, maxQualificationRetries, maxCohort, expiryBlocks],
    0 < bound := by decide
  cutoff_lt : cutoffBlocks < epochBlocks := by decide
  cohort_le : maxCohort ≤ maxPending := by decide
deriving DecidableEq

/-- How the reservations of a failed cohort are tried again. -/
inductive RetryStrategy where
  | requeue
  | bisect
deriving DecidableEq

/-- The text of a strategy. -/
def RetryStrategy.value : RetryStrategy → String
  | requeue => "requeue"
  | bisect => "bisect"

/-- Receipt that a candidate's retained qualification artifacts were reopened. -/
structure SettlementEvidence where
  candidateDigest : Digest
  reservationDigest : Digest
  primaryAuthorityDigest : Digest
  primaryAttemptRef : EvidenceArtifactRef
  primaryReportDigest : Digest
  primarySelectionEvidenceDigest : Digest
  /-- The authority, attempt, report and selection evidence of a second run. -/
  reproduction : Option (Digest × EvidenceArtifactRef × Digest × Digest)
deriving DecidableEq

/-- The digests the intake store computes. -/
structure IntakeHashes extends SettlementHashes where
  reservation : ArrivalIdentity → Digest
  qualification : QualificationFields → Digest
  settlementEvidence : SettlementEvidence → Digest
  standingClaim : StandingRewardClaim → Digest
  /-- The genesis of a stack, by its arena, stack and tree. -/
  stackGenesis : Digest → Digest → Digest → Digest
  /-- A group of reservations to try again, by authority, place, members and strategy. -/
  retryGroup : Digest → ℕ → List Digest → RetryStrategy → Digest
  /-- A settlement lease, by authority, candidates, generation, generation of the incumbent
  and block. -/
  settlementLease : Digest → List Digest → ℕ → ℕ → ℕ → Digest
  /-- An evaluation lease, by generation, owner, members, block and first deadline. -/
  evaluationLease : ℕ → String → List (Digest × Status) → ℕ → ℕ → Digest

instance : Coe IntakeHashes SettlementHashes := ⟨(·.toSettlementHashes)⟩

variable (K : IntakeHashes)

/-- The identity of a reservation. -/
def FinalizedArrival.reservationId (arrival : FinalizedArrival) : Digest :=
  K.reservation arrival.toArrivalIdentity

/-- The identity of a reservation. -/
def IntakeReservation.reservationId (r : IntakeReservation) : Digest := r.arrival.reservationId K

end Cacheon
