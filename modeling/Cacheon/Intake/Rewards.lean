import Cacheon.Intake.Settle

/-!
# Which PASSes are rewarded

A PASS becomes visible to the rewards once every earlier submission of its competition is
completed; `finalizeRewardPrefix` makes that durable.  Among the visible ones a PASS is rewarded
if it beats the best rewarded PASS before it on the same baseline: `rewardComparisons` walks
them in arrival order and starts from scratch on every call.
-/

namespace Cacheon

open Fallible IntakeFault Decimal

/-- The baseline a speedup is measured over: an arena and a stack. -/
abbrev RewardGroup := Digest × Digest

/-- The margin a report was sealed with, as its text reads. -/
inductive SealedMargin where
  | missing
  | malformed
  | notFinite
  | value (margin : Decimal)
deriving DecidableEq

/-- What the rewards read of the resident policy in a sealed report. -/
structure ResidentPolicy where
  version : Option ℕ
  minMargin : SealedMargin
deriving DecidableEq

/-- The policy is a statistical one. -/
def ResidentPolicy.statistical (policy : ResidentPolicy) : Bool :=
  policy.version ∈ [some 17, some 18, some 19, some 20, some 21]

/-- The margin that is ruled for statistical policies. -/
def v17RewardMargin : Decimal := ⟨15, -3⟩

/-- The historical margin of a policy, or none for one that is not finite. -/
def ResidentPolicy.sealedMargin (policy : ResidentPolicy) : Intake (Option Decimal) :=
  match policy.minMargin with
  | .missing => .error (intake "KeyError")
  | .malformed => .error (intake "InvalidOperation")
  | .notFinite => .ok none
  | .value margin => .ok (some margin)

/-- The greatest of some decimals. -/
def greatest (first : Decimal) (rest : List Decimal) : Decimal :=
  rest.foldl (fun a b => if a < b then b else a) first

/-- The margin of statistical policies is ruled; a historical one is what it was sealed with. -/
def rewardMinMargin (policies : List ResidentPolicy) : Intake Decimal := do
  check (policies.any (·.statistical) → policies.all (·.statistical))
    (intake "reward comparison mixes statistical and historical qualifications")
  if policies.any (·.statistical) then .ok v17RewardMargin
  else
    let margins ← policies.mapM (·.sealedMargin)
    check (∀ margin ∈ margins, margin.any fun m => ofNat 0 < m ∧ m < one)
      (intake "reward comparison margin is invalid")
    match margins.reduceOption with
    | [] => .error (intake "ValueError")
    | first :: rest => .ok (greatest first rest)

/-- What the operator declared about rewards, and the retained evidence. -/
structure RewardSettings where
  /-- The runtimes whose PASSes are all rewarded. -/
  grandfathered : List Digest
  /-- The later groups that continue an earlier one. -/
  continuations : List (RewardGroup × RewardGroup)
  /-- The resident policy in the sealed report of one delta, by the root and the reference of its
  evidence. -/
  report : String → EvidenceArtifactRef → Digest → Except String ResidentPolicy

/-- How a PASS compares with the ones before it. -/
structure RewardComparison where
  previousBestReservationId : Option Digest
  previousBestSpeedup : Decimal
  relativeSpeedup : Decimal
  scoreSpeedup : Decimal
  rewardEligible : Bool
  grandfathered : Bool
deriving DecidableEq

/-- Follow the continuations of a group to the group they started from. -/
def continuedGroup (continuations : List (RewardGroup × RewardGroup)) :
    ℕ → RewardGroup → Intake RewardGroup
  | 0, _ => .error (intake "reward group continuations form a cycle")
  | fuel + 1, key => match continuations.lookup key with
    | none => .ok key
    | some earlier => continuedGroup continuations fuel earlier

/-- The walk so far: the best rewarded PASS of each group, the contributions seen and the
comparisons made. -/
structure RewardWalk where
  best : List (RewardGroup × Decimal × Digest) := []
  seen : List (Digest × String × ContributionRef) := []
  comparisons : List (Digest × RewardComparison) := []
deriving DecidableEq

namespace RewardSettings

variable (P : RewardSettings) {K : IntakeHashes}

/-- No declared continuation runs in a cycle. -/
def checkContinuations : Intake Unit :=
  P.continuations.forM fun pair => do
    let _ ← continuedGroup P.continuations (P.continuations.length + 1) pair.1
    .ok ()

/-- The group a candidate is compared in. -/
def group (c : SettlementCandidate K) : Intake RewardGroup :=
  continuedGroup P.continuations (P.continuations.length + 1)
    (c.primary.arenaDigest, c.primary.incumbent.stackDigest)

/-- The candidate's baseline is exempt from the comparison. -/
def exempt (c : SettlementCandidate K) : Bool :=
  c.primary.incumbentManifest.runtimeDigest ∈ P.grandfathered

/-- Reopen the report of one retained qualification. -/
def rewardReport (retained : RetainedQualification × QualificationFields) :
    Intake ResidentPolicy := do
  let (row, q) := retained
  check (row.attemptRef.sha256 = q.qualificationAttemptDigest)
    (intake "reward comparison attempt differs from qualification")
  let policy ← (P.report row.evidenceRoot row.attemptRef q.selectedDeltaDigest).mapError fun e =>
    intake ("reward comparison cannot read retained margin: " ++ e)
  check (policy.version ∈ [some 17, some 18, some 19, some 20] ∨ policy.minMargin ≠ .missing)
    (intake "reward comparison cannot read retained margin: 'min_margin'")
  .ok policy

/-- Reopen the reports of a candidate's qualifications. -/
def rewardReports (s : Store K) (c : SettlementCandidate K) : Intake (List ResidentPolicy) := do
  let rows := Keyed.sortBy (·.reproductionIndex) (s.retained c.primary.reservationDigest)
  check (rows.length = c.qualifications.length)
    (intake "reward comparison lacks retained qualifications")
  (rows.zip c.qualifications).mapM P.rewardReport

/-- The margin a candidate has to clear. -/
def margin (s : Store K) (c : SettlementCandidate K) :
    Intake Decimal := do
  rewardMinMargin (← P.rewardReports s c)

/-- The margin that counts: none for what is exempt or does not beat the best before it. -/
def marginOver (s : Store K) (previous : Decimal) (c : SettlementCandidate K) : Intake Decimal :=
  if P.exempt c = false ∧ previous < c.speedup.val then P.margin s c else .ok (.ofNat 0)

/-- Compare a candidate with the best before it. -/
def compare (previous : Decimal) (previousId : Option Digest) (margin : Decimal)
    (c : SettlementCandidate K) : RewardComparison :=
  let score := c.speedup.val
  let relative := score.div decimalContext previous
  { previousBestReservationId := previousId
    previousBestSpeedup := previous
    relativeSpeedup := relative
    scoreSpeedup := if P.exempt c then score else relative
    rewardEligible := P.exempt c || (previous < score &&
      !(score < previous.mul decimalContext (add decimalContext .one margin)))
    grandfathered := P.exempt c }

/-- Take one PASS into the walk. -/
def walkRow (s : Store K) (w : RewardWalk) (row : CandidateRow K) :
    Intake RewardWalk := do
  let c := row.candidate
  let contribution ← Fallible.get (intake "KeyError")
    (c.primary.candidateManifest.entryOf c.primary.targetId)
  let group ← P.group c
  let identity := (group.1, c.primary.targetId, contribution)
  if identity ∈ w.seen ∧ P.exempt c = false then .ok w
  else do
    let previous := (w.best.lookup group).elim one (·.1)
    let margin ← P.marginOver s previous c
    let comparison := P.compare previous ((w.best.lookup group).map (·.2)) margin c
    .ok { best := if comparison.rewardEligible ∧ previous < c.speedup.val then
              (group, c.speedup.val, row.reservationId) :: w.best else w.best
          seen := identity :: w.seen
          comparisons := w.comparisons ++ [(row.reservationId, comparison)] }

end RewardSettings

namespace Store

variable {K : IntakeHashes} (s : Store K) (P : RewardSettings)

/-- Make the completed arrival prefix visible to the rewards. -/
def finalizeRewardPrefix : Store K :=
  s.mapCandidates (fun c => c.rewardEligible = false ∧ (s.reservationOf c).any fun r =>
      r.status = .qualified && r.decision = some .pass && s.completedPrefix r)
    fun c => { c.toCandidateState with rewardEligible := true }

/-- The rewards see the candidate. -/
def visible (c : CandidateRow K) : Bool :=
  c.status ≠ .duplicateProposal && c.rewardEligible &&
    (s.reservationOf c).any fun r => r.status = .qualified && r.decision = some .pass

/-- The place of a candidate's reservation. -/
def candidateKey (c : CandidateRow K) : Option ArrivalKey :=
  (s.reservationOf c).map (·.arrivalKey)

/-- The visible candidates in arrival order, or only those that arrived before a place. -/
def visibleCandidates (before : Option ArrivalKey) : List (CandidateRow K) :=
  let joined := (s.candidates.rows.filter s.visible).filterMap fun c =>
    (s.candidateKey c).map fun key => (c, key)
  ((Keyed.sortBy Prod.snd joined).filter fun row => before.all (row.2 < ·)).map Prod.fst

/-- Walk the rewarded PASSes in arrival order. -/
def rewardWalk (before : Option ArrivalKey) : Intake RewardWalk := do
  P.checkContinuations
  (s.visibleCandidates before).foldlM (P.walkRow s) {}

/-- Compare each PASS with the best rewarded one before it. -/
def rewardComparisons : Intake (List (Digest × RewardComparison)) :=
  (s.rewardWalk P none).map (·.comparisons)

/-- The speedup at which settlement would pay a PASS of a reservation over a stack, or none if it
pays every PASS. -/
def paymentBar (stack : EvaluationStackManifest) (id : Digest) : Intake (Option Decimal) :=
  if stack.runtimeDigest ∈ P.grandfathered then .ok none
  else do
    let row ← Fallible.get (intake "TypeError") (s.reservations.find? id)
    let w ← s.rewardWalk P (some row.arrivalKey)
    let group ← continuedGroup P.continuations (P.continuations.length + 1)
      (stack.arenaDigest, K.manifest stack)
    let best := (w.best.lookup group).elim one (·.1)
    .ok (some (best.mul decimalContext (add decimalContext .one v17RewardMargin)))

end Store

end Cacheon
