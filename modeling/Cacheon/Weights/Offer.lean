import Cacheon.Intake.Arrival

/-!
# Shared weight offers

An evaluating validator shares its projection with the validators that follow it.  What it
shares is a `CurrentWeightOffer`; whoever retains one accepts only updates that do not
contradict it (`assertMonotonicOfferUpdate`).
-/

namespace Cacheon

open Fallible

/-- A `WeightShareError`. -/
structure ShareFault where
  text : String
deriving DecidableEq

abbrev ShareM := Except ShareFault

/-- The lanes of an offer.  The lanes of the second economics were removed; the field stays. -/
inductive OfferLane where
  | legacyV1
deriving DecidableEq

/-- Exact publishable weights for peer validators. -/
structure CurrentWeightOffer where
  lane : OfferLane
  projection : WeightProjection
deriving DecidableEq

namespace CurrentWeightOffer

/-- The offer of a projection. -/
def fromLegacyProjection (projection : WeightProjection) : CurrentWeightOffer :=
  ⟨.legacyV1, projection⟩

/-- The block the offered vector was projected at. -/
def effectiveBlock (offer : CurrentWeightOffer) : ℕ := offer.projection.effectiveBlock

end CurrentWeightOffer

/-- Reject a rollback and a second offer for one block. -/
def assertMonotonicOfferUpdate (current proposed : CurrentWeightOffer) :
    ShareM Unit := do
  check (proposed.projection.chainScopeDigest = current.projection.chainScopeDigest ∧
      proposed.projection.netuid = current.projection.netuid)
    ⟨"weight offer update changed chain scope"⟩
  check (current.effectiveBlock ≤ proposed.effectiveBlock)
    ⟨"weight offer effective block regressed"⟩
  check (proposed.effectiveBlock = current.effectiveBlock → proposed = current)
    ⟨"weight offer conflicts at the current effective block"⟩

theorem monotonicOffer_ok {cur proposed : CurrentWeightOffer} :
    assertMonotonicOfferUpdate cur proposed = .ok () ↔
      (proposed.projection.chainScopeDigest = cur.projection.chainScopeDigest ∧
        proposed.projection.netuid = cur.projection.netuid) ∧
      cur.effectiveBlock ≤ proposed.effectiveBlock ∧
      (proposed.effectiveBlock = cur.effectiveBlock → proposed = cur) := by
  simp only [assertMonotonicOfferUpdate, bind_ok, check_ok, exists_const]

/-- The text names an account: not empty, without surrounding white space, not too long. -/
def isSignerName (hotkey : Hotkey) : Prop :=
  hotkey ≠ "" ∧ hotkey.toList.head?.all (!isSpace ·) ∧ hotkey.toList.getLast?.all (!isSpace ·) ∧
    hotkey.length ≤ 256

instance : DecidablePred isSignerName := fun _ => instDecidableAnd

/-- Keep the economic vector; bind the publication to the follower's account. -/
def rebindProjectionSigner (p : WeightProjection) (signer : Hotkey) :
    ShareM WeightProjection := do
  check (isSignerName signer) ⟨"follower signer hotkey is malformed"⟩
  .ok (if signer = p.validatorHotkey then p else { p with validatorHotkey := signer })

/-- Rebind the projection of a fetched offer. -/
def rebindOfferSigner (offer : CurrentWeightOffer) (signer : Hotkey) :
    ShareM CurrentWeightOffer := do
  let projection ← rebindProjectionSigner offer.projection signer
  .ok ⟨.legacyV1, projection⟩

/-- The digests of the publication code and of offers. -/
structure OfferHashes extends PublicationHashes where
  offer : CurrentWeightOffer → Digest

/-- A vector of a block that pays one miner. -/
def sampleProjection (block : ℕ) : WeightProjection where
  chainScopeDigest := .ofNat 1
  netuid := 1
  validatorHotkey := "evaluator"
  policyDigest := .ofNat 1
  settlementStateDigest := .ofNat 1
  evaluationStateDigest := .ofNat 1
  metagraphDigest := .ofNat block
  arenaStateDigests := [.ofNat 1]
  stackGeneration := 1
  effectiveBlock := block
  crownCount := 0
  evidenceDigests := []
  weightsPpm := [("miner", 1000000)]
  allocationEvidence := none
  rewardedEvidenceDigests := none

end Cacheon
