import Cacheon.Economics.Allocation
import Cacheon.Economics.Targets

/-!
# The global reward projection

Reopened claims and discoveries are credited at one block and turned into one weight vector.

* `GlobalRewardProjection.postInit` : the checks of the projection's constructor.
* `assembleProjection` : everything before the constructor.
* `projectGlobalRewards` : the projection itself.
-/

namespace Cacheon

open Fallible EconomicsFault Tally Keyed

/-- The claims, clocks and terms a projection is made from. -/
structure RewardInputs where
  arenas : List ArenaRewardAuthority
  earning : List StandingRewardClaim
  discoveries : List DiscoveryBountyClaim := []
  earnedContributions : List ContributionRef := []
  validatedClaims : Option (List StandingRewardClaim) := none
  /-- When the reward clock of a claim started; none for one that has not started. -/
  decayStartBlocks : List (Digest × Option ℕ) := []
  allocationTerms : Option (List (Digest × String × ℕ)) := none
  allocationBurnHotkey : Hotkey := ""
  stallBonusTerms : Option (List (Digest × ℕ)) := none
  scoreSpeedups : Option (List (Digest × ℕ)) := none
  /-- The arena whose stall clock a recommissioned arena continues. -/
  stallGroups : List (Digest × Digest) := []

/-- One weight vector with the credits it was computed from. -/
structure GlobalRewardProjection where
  policyDigest : Digest
  context : GlobalRewardProjectionContext
  arenaAuthorityDigests : List Digest
  standing : List StandingFamilyCredit
  discovery : List DiscoveryBountyCredit
  expiredDiscoveryClaims : List Digest
  weights : List HotkeyWeight
deriving DecidableEq

/-- The canonical order of standing credits. -/
def StandingFamilyCredit.order (row : StandingFamilyCredit) : Digest ×ₗ String ×ₗ Digest :=
  toLex (row.arenaDigest, toLex (row.targetId, row.claimDigest))

namespace GlobalRewardProjection

/-- The checks of the constructor. -/
def postInit (p : GlobalRewardProjection) : EconomicsM Unit := do
  check (p.arenaAuthorityDigests = sortBy id p.arenaAuthorityDigests)
    (economics "arena authorities are not canonical")
  check (p.standing.map (·.order) = sortBy id (p.standing.map (·.order)))
    (economics "global standing families are not canonical")
  check (p.weights.map (·.hotkey) = sortBy id (p.weights.map (·.hotkey)))
    (economics "global weights are not canonical")
  check ((p.weights.map (·.hotkey)).Nodup ∧ (∀ row ∈ p.weights, 0 < row.weightPpm) ∧
      (p.weights.map (·.weightPpm)).sum = weightPpm)
    (economics "global weights are not exactly normalized")

end GlobalRewardProjection

namespace RewardInputs

variable (E : EconomicsHashes) (math : DecimalMath) (policy : EmissionsPolicyManifest)
  (context : GlobalRewardProjectionContext) (inputs : RewardInputs)

/-- The PASSes that can support a crown. -/
def validated : List StandingRewardClaim := inputs.validatedClaims.getD inputs.earning

/-- The digests of the earning claims. -/
def earningDigests : List Digest := inputs.earning.map E.standingClaim

variable (claim : StandingRewardClaim)

/-- The key a PASS is found under. -/
def standingKey : Digest × String × Digest :=
  (claim.arenaDigest, claim.targetId, claim.contributionDigest)

/-- The checks at the head of the projection. -/
def checkInputs : EconomicsM Unit := do
  let earning := inputs.earningDigests E
  check (inputs.arenas ≠ []) (economics "global projection requires typed arena authorities")
  check ((inputs.arenas.map (·.stack.arenaDigest)).Nodup)
    (economics "global projection contains duplicate arenas")
  check (earning.Nodup) (economics "PASS reward claims are duplicated")
  check (∀ d ∈ earning, d ∈ inputs.validated.map E.standingClaim)
    (economics "earning claim has no validated PASS")
  check (∀ scores ∈ inputs.scoreSpeedups, sameKeys (scores.map (·.1)) earning)
    (economics "reward scoring requires a speedup for every earning PASS")
  check (∀ bonuses ∈ inputs.stallBonusTerms,
      inputs.allocationTerms.isSome ∧ sameKeys (bonuses.map (·.1)) earning)
    (economics "submission stall bonuses require complete static allocation terms")
  check (∀ start ∈ inputs.decayStartBlocks, start.1 ∈ earning)
    (economics "reward decay adjustment has no earning PASS")
  check ((inputs.validated.map standingKey).Nodup)
    (economics "PASS reward claims reuse a contribution")

/-- A PASS of another arena backs the contribution a composed crown carries: the same
contribution, or one that differs in nothing but its selected payload. -/
def carries (sealedSpec : Option Digest) (stack : EvaluationStackManifest)
    (contribution : ContributionRef) (row : StandingRewardClaim) : Bool :=
  row.arenaDigest ≠ stack.arenaDigest && row.targetId = contribution.targetId &&
    some row.targetSpecDigest = sealedSpec &&
    (row.contributionDigest = E.contribution contribution ||
      (inputs.earnedContributions.reverse.find?
          (E.contribution · = row.contributionDigest)).any fun original =>
        original.targetId = contribution.targetId &&
        original.targetSpecDigest = contribution.targetSpecDigest &&
        original.artifactDigest = contribution.artifactDigest &&
        original.attributionDigest = contribution.attributionDigest)

/-- A standing claim does not fit its target. -/
def standingFault (target text : String) : EconomicsFault :=
  economics ("standing claim for '" ++ target ++ "' " ++ text)

/-- A standing claim names the active contribution and a PASS it agrees with. -/
def checkStandingClaim (sealedSpec : Option Digest) (stack : EvaluationStackManifest)
    (contribution : ContributionRef) (claim : StandingRewardClaim) :
    EconomicsM Unit := do
  let target := contribution.targetId
  check (claim.arenaDigest = stack.arenaDigest) (standingFault target "names another arena")
  check (some claim.targetSpecDigest = sealedSpec ∧
      claim.targetSpecDigest = contribution.targetSpecDigest ∧
      claim.contributionDigest = E.contribution contribution)
    (standingFault target "is stale or incompatible")
  let history ← get (standingFault target "has no PASS")
    (inputs.validated.find? (standingKey · = standingKey claim))
  check (history.hotkey = claim.hotkey ∧ history.speedupPpm = claim.speedupPpm ∧
      history.targetSpecDigest = claim.targetSpecDigest)
    (standingFault target "differs from PASS")

/-- An active target has one standing claim, or carries a PASS of another arena. -/
def checkActiveTarget (specs : List (String × Digest)) (authority : ArenaRewardAuthority)
    (contribution : ContributionRef) : EconomicsM Unit :=
  let sealedSpec := specs.lookup contribution.targetId
  match authority.standingClaims.find? (·.targetId = contribution.targetId) with
  | none => check (inputs.validated.any (inputs.carries E sealedSpec authority.stack contribution))
      (economics "every active target requires exactly one standing claim")
  | some claim => inputs.checkStandingClaim E sealedSpec authority.stack contribution claim

/-- The claims of an arena match its active stack. -/
def checkAuthority (authority : ArenaRewardAuthority) : EconomicsM Unit := do
  let rows ← catalogRows authority.stack.catalogSnapshot
  let specs := sealedTargetSpecDigests E rows
  let active ← activeRewardTargets authority.stack rows
  if inputs.allocationTerms.isSome ∧ authority.stackGeneration = 0 then
    check (authority.standingClaims = []) (economics "uncrowned arena has standing claims")
  else do
    check (active ≠ []) (economics "every registered arena requires an active crown")
    let targets := authority.standingClaims.map (·.targetId)
    check (targets ≠ [] ∧ targets.Nodup ∧ ∀ t ∈ targets, t ∈ active)
      (economics "every active target requires exactly one standing claim")
    authority.stack.entries.forM (inputs.checkActiveTarget E specs authority)

/-- The stall clock of an arena. -/
def clock (arena : Digest) : Digest := (inputs.stallGroups.lookup arena).getD arena

/-- The block a claim decays from, when it is not its crown. -/
def decayStart (digest : Digest) : Option ℕ :=
  (inputs.decayStartBlocks.lookup digest).map (·.getD context.currentBlock)

/-- A claim at the speedup it is scored with. -/
def scored : EconomicsM StandingRewardClaim :=
  match inputs.scoreSpeedups with
  | none => .ok claim
  | some scores => do
    let speedup ← get (lookup "score_speedups") (scores.lookup (E.standingClaim claim))
    claim.withSpeedup speedup

/-- The strength of the stall bonus of a claim. -/
def stallBonus (digest : Digest) : EconomicsM ℕ :=
  match inputs.stallBonusTerms with
  | none => .ok weightPpm
  | some terms => get (lookup "stall_bonus_terms") (terms.lookup digest)

/-- The credit of one claim after the crown before it on its stall clock. -/
def creditClaim (predecessor : ℕ) (claim : StandingRewardClaim) :
    EconomicsM StandingFamilyCredit := do
  let digest := E.standingClaim claim
  let scored ← inputs.scored E claim
  let bonus ← inputs.stallBonus digest
  let credit ← scored.creditAt math context.currentBlock policy (some predecessor)
    (inputs.decayStart context digest) bonus
  return {
    arenaDigest := claim.arenaDigest
    familyId := E.standingFamily claim.arenaDigest claim.targetId claim.targetSpecDigest
    targetId := claim.targetId
    claimDigest := digest
    hotkey := claim.hotkey
    credit := credit }

/-- The credits of claims in the order of their clocks; `previous` has the last crown of each
clock. -/
def creditClaims (previous : List (Digest × ℕ)) :
    List StandingRewardClaim → EconomicsM (List StandingFamilyCredit)
  | [] => .ok []
  | claim :: rest => do
    let clock := inputs.clock claim.arenaDigest
    let row ← inputs.creditClaim E math policy context
      ((previous.lookup clock).getD claim.crownedBlock) claim
    let rows ← creditClaims ((clock, claim.crownedBlock) :: previous) rest
    return row :: rows

/-- The order in which claims are credited. -/
def creditOrder : Digest ×ₗ ℕ ×ₗ Digest :=
  toLex (inputs.clock claim.arenaDigest, toLex (claim.crownedBlock, E.standingClaim claim))

/-- The credit of a claim without its stall bonus. -/
def baseCredit : EconomicsM (Digest × ℕ) := do
  let digest := E.standingClaim claim
  let scored ← inputs.scored E claim
  let credit ← scored.creditAt math context.currentBlock policy (some claim.crownedBlock)
    (inputs.decayStart context digest) weightPpm
  return (digest, credit)

/-- Judge a discovery at the block of the projection. -/
def judgeDiscovery (claim : DiscoveryBountyClaim) : EconomicsM (DiscoveryBountyCredit × Bool) := do
  let live ← claim.liveAt context.currentBlock policy
  return (⟨E.discoveryClaim claim, claim.hotkey, claim.bountyUnits⟩, live)

end RewardInputs

/-- Standing credits under the accounts they go to. -/
def standingShares (context : GlobalRewardProjectionContext)
    (credits : List StandingFamilyCredit) : List (Hotkey × ℚ) :=
  credits.map fun row => (context.recipient row.hotkey, (row.credit : ℚ))

/-- Discovery credits under the accounts they go to. -/
def discoveryShares (context : GlobalRewardProjectionContext)
    (credits : List DiscoveryBountyCredit) : List (Hotkey × ℚ) :=
  credits.map fun row => (context.recipient row.hotkey, (row.credit : ℚ))

/-- The part of the weights that goes to discoveries. -/
def discoveryPool (policy : EmissionsPolicyManifest) (live : List DiscoveryBountyCredit) : ℕ :=
  if live = [] then 0 else policy.discoveryPoolPpm

/-- Split the discovery pool, if anything is live. -/
def allocateDiscovery (policy : EmissionsPolicyManifest)
    (context : GlobalRewardProjectionContext) (live : List DiscoveryBountyCredit) :
    EconomicsM (List (Hotkey × ℕ)) :=
  if live = [] then .ok []
  else allocatePool (tally (discoveryShares context live)) (discoveryPool policy live)

section Project

variable (E : EconomicsHashes) (math : DecimalMath) (policy : EmissionsPolicyManifest)
  (context : GlobalRewardProjectionContext) (inputs : RewardInputs)

/-- The amounts of all pools, under the accounts they go to. -/
def combineWeights (credits : List StandingFamilyCredit) (live : List DiscoveryBountyCredit) :
    EconomicsM (List (Hotkey × ℕ)) :=
  match inputs.allocationTerms with
  | none => do
    let standing ← allocatePool (tally (standingShares context credits))
      (weightPpm - discoveryPool policy live)
    let discovery ← allocateDiscovery policy context live
    return standing ++ discovery
  | some terms => do
    check (live = []) (economics "live discovery claims have no submission allocation")
    let base ← inputs.earning.mapM (inputs.baseCredit E math policy context)
    let allocation ← allocateSubmissionWeights credits terms context
      inputs.allocationBurnHotkey base
    return allocation.weights

/-- The positive weights in the order of their accounts. -/
def weightVector (combined : List (Hotkey × ℕ)) : List HotkeyWeight :=
  sortBy (·.hotkey) (((tally combined).filter (0 < ·.2)).map fun row => ⟨row.1, row.2⟩)

/-- Everything the projection computes before its constructor checks it. -/
def assembleProjection : EconomicsM GlobalRewardProjection := do
  inputs.checkInputs E
  (sortBy (·.stack.arenaDigest) inputs.arenas).forM (inputs.checkAuthority E)
  let credits ← inputs.creditClaims E math policy context []
    (sortBy (inputs.creditOrder E) inputs.earning)
  check (inputs.allocationTerms.isSome ∨ ∃ row ∈ credits, row.credit ≠ 0)
    (economics "all PASS credit has decayed to zero")
  let discoveries := inputs.discoveries
  check ((discoveries.map (·.proposalDigest)).Nodup ∧
      (discoveries.map (·.retainedEvidenceDigest)).Nodup ∧
      (discoveries.map E.discoveryClaim).Nodup)
    (economics "discovery claims are renewed or duplicated")
  let judged ← (sortBy E.discoveryClaim discoveries).mapM
    (RewardInputs.judgeDiscovery E policy context)
  let live := (judged.filter (·.2)).map (·.1)
  check (live = [] ∨ discoveryPool policy live ≠ 0)
    (economics "live discovery claims exist while bounties are disabled")
  let combined ← combineWeights E math policy context inputs credits live
  return {
    policyDigest := E.policy policy
    context := context
    arenaAuthorityDigests := sortBy id (inputs.arenas.map E.arenaAuthority)
    standing := sortBy (·.order) credits
    discovery := live
    expiredDiscoveryClaims := (judged.filter (!·.2)).map (·.1.claimDigest)
    weights := weightVector combined }

/-- Pool the earned claims into one weight vector. -/
def projectGlobalRewards : EconomicsM GlobalRewardProjection := do
  let projection ← assembleProjection E math policy context inputs
  projection.postInit
  return projection

end Project

end Cacheon
