import Cacheon.Lib.Decimal
import Cacheon.Lib.Fallible
import Cacheon.Settlement.Manifest

/-!
# Reward claims and their credit

What one crowned contribution earns at a block: its measured speedup, a bonus for a target
that stood still before it, and a half-life since its reward clock started.
-/

namespace Cacheon

open Fallible Decimal

/-- What the reward code raises. -/
inductive EconomicsFault where
  /-- `EconomicsError`. -/
  | economics (text : String)
  /-- `StackManifestError`, raised while a catalog is reopened. -/
  | manifest (text : String)
  /-- A missing key or attribute. -/
  | lookup (text : String)
deriving DecidableEq

open EconomicsFault

abbrev EconomicsM := Except EconomicsFault

/-- Parts per million. -/
def weightPpm : ℕ := 1000000

/-- Credits are integers at this scale. -/
def creditScale : ℕ := 1000000000000

/-- The blocks after which the stall bonus doubles a credit. -/
def stallScaleBlocks : ℕ := 1800

/-- The context of the credit arithmetic. -/
def mathContext : Decimal.Context := ⟨50, .floor⟩

/-- The transcendental functions of decimal arithmetic. -/
structure DecimalMath where
  ln : Decimal → Decimal
  sqrt : Decimal → Decimal
  twoPow : Decimal → Decimal

/-- Require an integer of at least `minimum`. -/
def requireAtLeast (value : ℕ) (field : String) (minimum : ℕ) : EconomicsM Unit :=
  check (minimum ≤ value) (economics (field ++ " must be an integer >= " ++ toString minimum))

/-- The emissions policy. -/
structure EmissionsPolicyManifest where
  halfLifeBlocks : ℕ
  discoveryLifetimeBlocks : ℕ
  discoveryPoolPpm : ℕ
  halfLife_pos : 0 < halfLifeBlocks
  discoveryLifetime_pos : 0 < discoveryLifetimeBlocks
  discoveryPool_lt : discoveryPoolPpm < weightPpm
deriving DecidableEq

/-- An account registered on the subnet. -/
structure MetagraphMember where
  uid : ℕ
  hotkey : Hotkey
deriving DecidableEq

/-- The chain state a projection is made for. -/
structure GlobalRewardProjectionContext where
  chainScopeDigest : Digest
  validatorHotkey : Hotkey
  currentBlock : ℕ
  currentBlockHash : String
  metagraphMembers : List MetagraphMember
  distinctUids : (metagraphMembers.map (·.uid)).Nodup
  distinctHotkeys : (metagraphMembers.map (·.hotkey)).Nodup
  validator_mem : validatorHotkey ∈ metagraphMembers.map (·.hotkey)
deriving DecidableEq

namespace GlobalRewardProjectionContext

variable (context : GlobalRewardProjectionContext)

/-- The accounts that may receive weight. -/
def eligibleHotkeys : List Hotkey := context.metagraphMembers.map (·.hotkey)

/-- Who receives what a claimant earned: the validator in place of an absent claimant. -/
def recipient (hotkey : Hotkey) : Hotkey :=
  if hotkey ∈ context.eligibleHotkeys then hotkey else context.validatorHotkey

theorem recipient_mem (hotkey : Hotkey) : context.recipient hotkey ∈ context.eligibleHotkeys := by
  unfold recipient
  split
  · assumption
  · exact context.validator_mem

end GlobalRewardProjectionContext

/-- A crowned contribution's claim on the standing rewards. -/
structure StandingRewardClaim where
  arenaDigest : Digest
  targetId : String
  targetSpecDigest : Digest
  contributionDigest : Digest
  hotkey : Hotkey
  speedupPpm : ℕ
  crownedBlock : ℕ
  retainedEvidenceDigest : Digest
  faster : weightPpm < speedupPpm
deriving DecidableEq

namespace StandingRewardClaim

/-- The same claim with another speedup. -/
def withSpeedup (claim : StandingRewardClaim) (speedupPpm : ℕ) :
    EconomicsM StandingRewardClaim :=
  if h : weightPpm < speedupPpm then .ok { claim with speedupPpm := speedupPpm, faster := h }
  else .error (economics ("speedup_ppm must be an integer >= " ++ toString (weightPpm + 1)))

/-- The credit of a claim at a block.  Every factor is non-negative, so that the floor of the
product is a natural number. -/
def creditAt (math : DecimalMath) (claim : StandingRewardClaim) (block : ℕ)
    (policy : EmissionsPolicyManifest) (predecessorBlock decayStartBlock : Option ℕ)
    (stallBonusPpm : ℕ) : EconomicsM ℕ := do
  let predecessor := predecessorBlock.getD claim.crownedBlock
  requireAtLeast block "credit block" claim.crownedBlock
  check (predecessor ≤ claim.crownedBlock) (economics "reward predates its arena stall clock")
  let start := decayStartBlock.getD claim.crownedBlock
  requireAtLeast start "decay_start_block" claim.crownedBlock
  check (start ≤ block) (economics "reward decay start is in the future")
  check (stallBonusPpm ≤ weightPpm) (economics "stall bonus exceeds full strength")
  let mul := mul mathContext
  let div := div mathContext
  let speed := math.ln (div (.ofNat claim.speedupPpm) (.ofNat weightPpm))
  let stalled := math.sqrt
    (div (.ofNat (claim.crownedBlock - predecessor)) (.ofNat stallScaleBlocks))
  let stall := add mathContext .one (mul (div (.ofNat stallBonusPpm) (.ofNat weightPpm)) stalled)
  let decay := math.twoPow
    (div (neg mathContext (.ofNat (block - start))) (.ofNat policy.halfLifeBlocks))
  return (mul (mul (mul speed stall) decay) (.ofNat creditScale)).floor.toNat

end StandingRewardClaim

/-- One expiring reward for a discovery. -/
structure DiscoveryBountyClaim where
  proposalDigest : Digest
  retainedEvidenceDigest : Digest
  hotkey : Hotkey
  bountyUnits : ℕ
  awardedBlock : ℕ
  bountyUnits_pos : 0 < bountyUnits
deriving DecidableEq

/-- The claim has not expired. -/
def DiscoveryBountyClaim.liveAt (claim : DiscoveryBountyClaim) (block : ℕ)
    (policy : EmissionsPolicyManifest) : EconomicsM Bool := do
  check (claim.awardedBlock ≤ block)
    (economics "discovery claim is newer than projection authority")
  return block - claim.awardedBlock < policy.discoveryLifetimeBlocks

/-- One arena's active stack and the crowns it rests on. -/
structure ArenaRewardAuthority where
  stack : EvaluationStackManifest
  stackGeneration : ℕ
  standingClaims : List StandingRewardClaim
deriving DecidableEq

/-- The credit of one standing claim. -/
structure StandingFamilyCredit where
  arenaDigest : Digest
  familyId : Digest
  targetId : String
  claimDigest : Digest
  hotkey : Hotkey
  credit : ℕ
deriving DecidableEq

/-- The credit of one discovery. -/
structure DiscoveryBountyCredit where
  claimDigest : Digest
  hotkey : Hotkey
  credit : ℕ
deriving DecidableEq

/-- The weight of one recipient. -/
structure HotkeyWeight where
  hotkey : Hotkey
  weightPpm : ℕ
deriving DecidableEq

/-- The digests the reward code computes. -/
structure EconomicsHashes where
  policy : EmissionsPolicyManifest → Digest
  contribution : ContributionRef → Digest
  standingClaim : StandingRewardClaim → Digest
  /-- The family of an arena, a target and its specification. -/
  standingFamily : Digest → String → Digest → Digest
  discoveryClaim : DiscoveryBountyClaim → Digest
  arenaAuthority : ArenaRewardAuthority → Digest
  /-- The specification of a target of a catalog. -/
  targetSpec : Json → Digest

end Cacheon
