import Cacheon.Economics.Projection
import Cacheon.Settlement.Candidate

/-!
# The weights of a projection

Whatever the projection returns is a whole: positive weights of distinct registered accounts
that add up to a million, with the credit of an absent claimant counted for the validator.

* `weightOf_weightVector` : the vector made of any combined amounts.
* `combineWeights_spec` : the combined amounts add up and honour every claim.
* `projectGlobalRewards_spec` : both, and that the constructor accepts what was assembled.
-/

namespace Cacheon

open Fallible EconomicsFault Tally Apportion List Keyed RewardInputs

/-! ### The vector -/

/-- What a vector gives to an account. -/
def weightOf (weights : List HotkeyWeight) (hotkey : Hotkey) : ℕ :=
  share (weights.map fun row => (row.hotkey, row.weightPpm)) hotkey

section Vector

variable (combined : List (Hotkey × ℕ))

/-- The rows of the vector as pairs. -/
theorem weightVector_perm :
    ((weightVector combined).map fun row => (row.hotkey, row.weightPpm)).Perm
      ((tally combined).filter (0 < ·.2)) := by
  have h : (weightVector combined).Perm
      (((tally combined).filter (0 < ·.2)).map fun row => ⟨row.1, row.2⟩) := sortBy_perm
  have hpairs := h.map fun row : HotkeyWeight => (row.hotkey, row.weightPpm)
  rw [map_map] at hpairs
  exact hpairs.trans (.of_eq (map_id _))

theorem mem_weightVector {row : HotkeyWeight} (h : row ∈ weightVector combined) :
    row.hotkey ∈ combined.map (·.1) ∧ 0 < row.weightPpm := by
  have hrow : (row.hotkey, row.weightPpm) ∈ (tally combined).filter (0 < ·.2) :=
    (weightVector_perm combined).mem_iff.1 (mem_map.2 ⟨row, h, rfl⟩)
  obtain ⟨hmem, hpos⟩ := mem_filter.1 hrow
  exact ⟨(mem_tally.1 hmem).1, of_decide_eq_true hpos⟩

theorem nodup_weightVector : ((weightVector combined).map (·.hotkey)).Nodup := by
  have hperm := (weightVector_perm combined).map Prod.fst
  rw [map_map] at hperm
  exact hperm.nodup_iff.2 ((filter_sublist.map _).nodup nodup_tally)

theorem sum_weightVector :
    ((weightVector combined).map (·.weightPpm)).sum = (combined.map (·.2)).sum := by
  have hperm := (weightVector_perm combined).map Prod.snd
  rw [map_map] at hperm
  calc ((weightVector combined).map (·.weightPpm)).sum
      = (((tally combined).filter (0 < ·.2)).map (·.2)).sum := hperm.sum_eq
    _ = ((tally combined).map (·.2)).sum := sum_filter_pos fun _ _ => Nat.zero_le _
    _ = (combined.map (·.2)).sum := sum_tally

theorem weightOf_weightVector (hotkey : Hotkey) :
    weightOf (weightVector combined) hotkey = share combined hotkey := by
  calc weightOf (weightVector combined) hotkey = share ((tally combined).filter (0 < ·.2)) hotkey :=
        share_eq_of_perm (weightVector_perm combined)
    _ = share (tally combined) hotkey := by
        unfold share
        rw [filter_comm]
        exact sum_filter_pos fun _ _ => Nat.zero_le _
    _ = share combined hotkey := share_tally

end Vector

/-! ### The claims behind the vector -/

section Claims

variable {E : EconomicsHashes} {math : DecimalMath} {policy : EmissionsPolicyManifest}
  {context : GlobalRewardProjectionContext} {inputs : RewardInputs}

/-- Every claim is credited, under its own account. -/
theorem claims_of_creditClaims {claims : List StandingRewardClaim} {prev : List (Digest × ℕ)}
    {rows : List StandingFamilyCredit}
    (h : inputs.creditClaims E math policy context prev claims = .ok rows) :
    (rows.map fun row => (row.claimDigest, row.hotkey)) =
      claims.map fun claim => (E.standingClaim claim, claim.hotkey) := by
  induction claims generalizing prev rows with
  | nil =>
    cases h
    rfl
  | cons claim claims ih =>
    simp only [creditClaims, bind_ok] at h
    obtain ⟨row, hrow, rest, hrest, heq⟩ := h
    cases heq
    simp only [creditClaim, bind_ok] at hrow
    obtain ⟨_, -, _, -, _, -, heq⟩ := hrow
    cases heq
    simp only [map_cons, ih hrest]

/-- The head of the projection has checked that no claim earns twice. -/
theorem nodup_earning (h : inputs.checkInputs E = .ok ()) : (inputs.earningDigests E).Nodup := by
  simp only [checkInputs, bind_ok, exists_check] at h
  exact h.2.2.1

theorem nodup_credits {prev : List (Digest × ℕ)} {rows : List StandingFamilyCredit}
    (hinputs : inputs.checkInputs E = .ok ()) (h : inputs.creditClaims E math policy context
      prev (sortBy (inputs.creditOrder E) inputs.earning) = .ok rows) :
    (rows.map (·.claimDigest)).Nodup := by
  have hdigs := congrArg (List.map Prod.fst) (claims_of_creditClaims h)
  rw [map_map, map_map] at hdigs
  exact hdigs ▸ (sortBy_perm.map _).nodup_iff.2 (nodup_earning hinputs)

/-- A discovery is live at the block of the projection. -/
def isLive (policy : EmissionsPolicyManifest) (context : GlobalRewardProjectionContext)
    (claim : DiscoveryBountyClaim) : Bool :=
  context.currentBlock - claim.awardedBlock < policy.discoveryLifetimeBlocks

/-- The credit of a discovery. -/
def bountyCredit (E : EconomicsHashes) (claim : DiscoveryBountyClaim) : DiscoveryBountyCredit :=
  ⟨E.discoveryClaim claim, claim.hotkey, claim.bountyUnits⟩

theorem live_of_judged {claims : List DiscoveryBountyClaim}
    {judged : List (DiscoveryBountyCredit × Bool)}
    (h : claims.mapM (judgeDiscovery E policy context) = .ok judged) :
    (judged.filter (·.2)).map (·.1) =
      (claims.filter (isLive policy context)).map (bountyCredit E) := by
  have hall := forall₂_of_mapM h
  clear h
  induction hall with
  | nil => rfl
  | @cons claim row claims rows hrow _ ih =>
    simp only [judgeDiscovery, DiscoveryBountyClaim.liveAt, bind_ok, exists_check] at hrow
    obtain ⟨live, ⟨-, hlive⟩, heq⟩ := hrow
    cases hlive
    obtain rfl : (bountyCredit E claim, isLive policy context claim) = row := Except.ok.inj heq
    cases hlive : isLive policy context claim
    · simp only [filter_cons, hlive, Bool.false_eq_true, if_false, ih]
    · simp only [filter_cons, hlive, if_true, map_cons, ih]

/-- The vector honours every claim: each pool is split over all of its claims, those of an
absent claimant at the validator.  With frozen terms there is one pool, split over what the
priced claims request and the burn. -/
def HonoursClaims (E : EconomicsHashes) (math : DecimalMath) (policy : EmissionsPolicyManifest)
    (context : GlobalRewardProjectionContext) (inputs : RewardInputs)
    (p : GlobalRewardProjection) : Prop :=
  match inputs.allocationTerms with
  | none => ∃ standing discovery : Hotkey → ℕ,
      Split (weightPpm - discoveryPool policy p.discovery) (standingShares context p.standing)
        standing ∧
      Split (discoveryPool policy p.discovery) (discoveryShares context p.discovery) discovery ∧
      ∀ hotkey, weightOf p.weights hotkey = standing hotkey + discovery hotkey
  | some terms => ∃ (credits : List StandingFamilyCredit) (base : List (Digest × ℕ))
      (priced : List PricedClaim),
      credits.Perm p.standing ∧
      inputs.earning.mapM (inputs.baseCredit E math policy context) = .ok base ∧
      credits.mapM (priceClaim terms base) = .ok priced ∧
      (requested priced).Perm (priced.filterMap (PricedClaim.request priced)) ∧
      Split weightPpm (recipientShares context inputs.allocationBurnHotkey (requested priced))
        (weightOf p.weights)

variable {credits : List StandingFamilyCredit} {live : List DiscoveryBountyCredit}
  {p : GlobalRewardProjection}

/-- A pool that is split over credits goes to registered accounts. -/
theorem allocateCredits_spec {α : Type} {rows : List α} {hotkey : α → Hotkey} {credit : α → ℕ}
    {pool : ℕ} {parts : List (Hotkey × ℕ)} (h : allocatePool (tally (rows.map fun row =>
      (context.recipient (hotkey row), (credit row : ℚ)))) pool = .ok parts) :
    (parts.map (·.2)).sum = pool ∧ (∀ row ∈ parts, row.1 ∈ context.eligibleHotkeys) ∧
      Split pool (rows.map fun row => (context.recipient (hotkey row), (credit row : ℚ)))
        (share parts) := by
  obtain ⟨hsum, hkeys, hsplit⟩ :=
    allocatePool_spec (forall_mem_map.2 fun _ _ => Nat.cast_nonneg _) h
  refine ⟨hsum, fun row hrow => ?_, hsplit⟩
  obtain ⟨c, hc, heq⟩ := mem_map.1 (hkeys row hrow)
  obtain ⟨claim, -, rfl⟩ := mem_map.1 hc
  exact heq ▸ context.recipient_mem _

/-- The two pools of a projection without frozen terms. -/
theorem combine_pools {standing discovery : List (Hotkey × ℕ)}
    (hstand : allocatePool (tally (standingShares context credits))
      (weightPpm - discoveryPool policy live) = .ok standing)
    (hdiscovery : allocateDiscovery policy context live = .ok discovery) :
    ((standing ++ discovery).map (·.2)).sum = weightPpm ∧
      (∀ row ∈ standing ++ discovery, row.1 ∈ context.eligibleHotkeys) ∧
      Split (weightPpm - discoveryPool policy live) (standingShares context credits)
        (share standing) ∧
      Split (discoveryPool policy live) (discoveryShares context live) (share discovery) := by
  obtain ⟨hsum, hkeys, hsplit⟩ := allocateCredits_spec hstand
  obtain ⟨hsum', hkeys', hsplit'⟩ : (discovery.map (·.2)).sum = discoveryPool policy live ∧
      (∀ row ∈ discovery, row.1 ∈ context.eligibleHotkeys) ∧
      Split (discoveryPool policy live) (discoveryShares context live) (share discovery) := by
    unfold allocateDiscovery at hdiscovery
    split_ifs at hdiscovery with hlive
    · cases hdiscovery
      subst hlive
      refine ⟨rfl, forall_mem_nil _, fun k => .inl ?_⟩
      simp [discoveryShares, floorQuota, quota]
    · exact allocateCredits_spec hdiscovery
  have hpool : discoveryPool policy live ≤ weightPpm := by
    unfold discoveryPool
    split
    · exact Nat.zero_le _
    · exact policy.discoveryPool_lt.le
  refine ⟨?_, forall_mem_append.2 ⟨hkeys, hkeys'⟩, hsplit, hsplit'⟩
  rw [map_append, sum_append, hsum, hsum']
  omega

/-- **The combined amounts add up to the whole, go to registered accounts and honour every
claim.** -/
theorem combineWeights_spec {combined : List (Hotkey × ℕ)}
    (hnodup : (credits.map (·.claimDigest)).Nodup)
    (h : combineWeights E math policy context inputs credits live = .ok combined)
    (hstand : credits.Perm p.standing) (hlive : p.discovery = live)
    (hwts : p.weights = weightVector combined) :
    (combined.map (·.2)).sum = weightPpm ∧ (∀ row ∈ combined, row.1 ∈ context.eligibleHotkeys) ∧
      HonoursClaims E math policy context inputs p := by
  have hof : ∀ hotkey, weightOf p.weights hotkey = share combined hotkey :=
    hwts ▸ weightOf_weightVector combined
  unfold combineWeights at h
  split at h
  next hterms =>
    simp only [bind_ok] at h
    obtain ⟨standing, hs, discovery, hd, heq⟩ := h
    cases heq
    obtain ⟨hsum, hkeys, hsplit, hsplit'⟩ := combine_pools hs hd
    refine ⟨hsum, hkeys, ?_⟩
    unfold HonoursClaims
    rw [hterms, hlive]
    refine ⟨share standing, share discovery, Split.of_perm (hstand.map _) hsplit, hsplit', ?_⟩
    intro hotkey
    rw [hof, share_append]
  next terms hterms =>
    simp only [bind_ok, exists_check] at h
    obtain ⟨-, base, hbase, alloc, halloc, heq⟩ := h
    cases heq
    obtain ⟨priced, hrows, hpriced, hsum, hkeys, hsplit⟩ := submissionWeights_spec halloc
    refine ⟨hsum, hkeys, ?_⟩
    unfold HonoursClaims
    rw [hterms]
    refine ⟨credits, base, priced, hstand, hbase, hpriced, requested_perm ?_, ?_⟩
    · rw [← hrows, map_map] at hnodup
      exact hnodup
    · rw [funext hof]
      exact hsplit

/-- What an assembled projection is made of. -/
theorem assembleProjection_cases (h : assembleProjection E math policy context inputs = .ok p) :
    ∃ credits combined, (credits.map fun row => (row.claimDigest, row.hotkey)).Perm
        (inputs.earning.map fun claim => (E.standingClaim claim, claim.hotkey)) ∧
      (credits.map (·.claimDigest)).Nodup ∧
      p.arenaAuthorityDigests = sortBy id (inputs.arenas.map E.arenaAuthority) ∧
      p.standing = sortBy (·.order) credits ∧
      p.discovery.Perm ((inputs.discoveries.filter (isLive policy context)).map (bountyCredit E)) ∧
      combineWeights E math policy context inputs credits p.discovery = .ok combined ∧
      p.weights = weightVector combined := by
  simp only [assembleProjection, bind_ok, exists_check] at h
  obtain ⟨⟨⟩, hinputs, -, -, credits, hcreds, -, -, judged, hjudged, -, combined, hcomb, heq⟩ := h
  cases heq
  refine ⟨credits, combined, ?_, nodup_credits hinputs hcreds, rfl, rfl, ?_, hcomb, rfl⟩
  · rw [claims_of_creditClaims hcreds]
    exact sortBy_perm.map _
  · simp only [live_of_judged hjudged]
    exact (sortBy_perm.filter _).map _

end Claims

/-- **Every returned projection is a whole**: positive weights of distinct registered accounts
that add up to a million, every claim and live discovery credited, an absent claimant's credit
at the validator; and the constructor's checks accept whatever was assembled. -/
theorem projectGlobalRewards_spec (E : EconomicsHashes) (math : DecimalMath)
    (policy : EmissionsPolicyManifest) (context : GlobalRewardProjectionContext)
    (inputs : RewardInputs) :
    (∀ p, projectGlobalRewards E math policy context inputs = .ok p →
      (∀ row ∈ p.weights, 0 < row.weightPpm) ∧
      (p.weights.map (·.weightPpm)).sum = 1000000 ∧
      (p.weights.map (·.hotkey)).Nodup ∧
      (∀ row ∈ p.weights,
        row.hotkey = context.validatorHotkey ∨ row.hotkey ∈ context.eligibleHotkeys) ∧
      (p.standing.map fun row => (row.claimDigest, row.hotkey)).Perm
        (inputs.earning.map fun claim => (E.standingClaim claim, claim.hotkey)) ∧
      p.discovery.Perm ((inputs.discoveries.filter (isLive policy context)).map (bountyCredit E)) ∧
      HonoursClaims E math policy context inputs p) ∧
    (∀ p, assembleProjection E math policy context inputs = .ok p → p.postInit = .ok ()) := by
  constructor
  · intro p h
    simp only [projectGlobalRewards, bind_ok] at h
    obtain ⟨p', h, -, -, heq⟩ := h
    cases heq
    obtain ⟨credits, combined, hclaims, hnodup, -, hstand, hdiscovery, hcomb, hwts⟩ :=
      assembleProjection_cases h
    have hperm : credits.Perm p.standing := hstand ▸ sortBy_perm.symm
    obtain ⟨hsum, hkeys, hhonours⟩ := combineWeights_spec hnodup hcomb hperm rfl hwts
    refine ⟨?_, ?_, ?_, ?_, (hperm.map _).symm.trans hclaims, hdiscovery, hhonours⟩
    · rw [hwts]
      exact fun row hrow => (mem_weightVector combined hrow).2
    · rw [hwts, sum_weightVector, hsum]
      rfl
    · rw [hwts]
      exact nodup_weightVector combined
    · rw [hwts]
      intro row hrow
      obtain ⟨amount, hamt, heq⟩ := mem_map.1 (mem_weightVector combined hrow).1
      exact .inr (heq ▸ hkeys amount hamt)
  · intro p h
    obtain ⟨credits, combined, -, hnodup, hauths, hstand, -, hcomb, hwts⟩ :=
      assembleProjection_cases h
    have hperm : credits.Perm p.standing := hstand ▸ sortBy_perm.symm
    obtain ⟨hsum, -, -⟩ := combineWeights_spec hnodup hcomb hperm rfl hwts
    simp only [GlobalRewardProjection.postInit, bind_ok, check_ok, exists_const]
    refine ⟨?_, ?_, ?_, ?_, ?_, ?_⟩
    · rw [hauths]
      exact sortBy_sortBy.symm
    · rw [hstand]
      exact sortBy_id_map_sortBy.symm
    · rw [hwts]
      exact sortBy_id_map_sortBy.symm
    · rw [hwts]
      exact nodup_weightVector combined
    · rw [hwts]
      exact fun row hrow => (mem_weightVector combined hrow).2
    · rw [hwts, sum_weightVector, hsum]

/-! ### A sample -/

/-- Digests for evaluating the reward code. -/
def sampleEconomics : EconomicsHashes where
  policy _ := .ofNat 51
  contribution := sampleHashes.contribution
  standingClaim c := mixDigest [52, c.contributionDigest.val, c.crownedBlock, mixText c.hotkey]
  standingFamily arena target spec := mixDigest [53, arena.val, mixText target, spec.val]
  discoveryClaim c := mixDigest [54, c.proposalDigest.val]
  arenaAuthority a := mixDigest [55, a.stack.arenaDigest.val]
  targetSpec _ := .ofNat 31

/-- Rough values of the transcendental functions: Newton's rule for the root, and the first terms
of the others near one and zero. -/
def sampleMath : DecimalMath :=
  let add := Decimal.add mathContext
  let mul := Decimal.mul mathContext
  let div := Decimal.div mathContext
  { ln := fun d => mul (.ofNat 2) (div (add d ⟨-1, 0⟩) (add d .one))
    sqrt := fun d =>
      if d.coeff = 0 then d else (fun root => div (add root (div d root)) (.ofNat 2))^[8] .one
    twoPow := fun d => div .one (add .one (mul d ⟨-7, -1⟩)) }

/-- A tenth of the weights goes to discoveries. -/
def sampleEmissions : EmissionsPolicyManifest :=
    ⟨7200, 100, 100000, by decide, by decide, by decide⟩

/-- Two accounts are registered. -/
def sampleContext : GlobalRewardProjectionContext where
  chainScopeDigest := .ofNat 61
  validatorHotkey := "validator"
  currentBlock := 50
  currentBlockHash := "0x"
  metagraphMembers := [⟨0, "validator"⟩, ⟨1, "bob"⟩]
  distinctUids := by decide
  distinctHotkeys := by decide
  validator_mem := by decide

/-- A catalog of one target. -/
def sampleCatalog : Json :=
  .obj [("policy_version", .str "target-catalog.v2"), ("schema_version", .num 2),
    ("targets", .arr [.obj [("conflicts_with", .arr []), ("displaces", .arr []),
      ("members", .arr [.str "attention"]), ("requires", .arr []),
      ("target_id", .str "attention")]])]

/-- A crowned contribution to that target. -/
def sampleClaim (artifact : ℕ) (hotkey : Hotkey) (block : ℕ) : StandingRewardClaim where
  arenaDigest := .ofNat 23
  targetId := "attention"
  targetSpecDigest := .ofNat 31
  contributionDigest := sampleHashes.contribution (sampleContribution "attention" artifact)
  hotkey := hotkey
  speedupPpm := 1100000
  crownedBlock := block
  retainedEvidenceDigest := .ofNat 71
  faster := by decide

/-- Two crowns and one discovery; the second crown's account is not registered. -/
def sampleRewards : RewardInputs where
  arenas := [{
    stack := { sampleStack with
      catalogSnapshot := sampleCatalog
      entries := [sampleContribution "attention" 2]
      sorted := pairwise_singleton _ _ }
    stackGeneration := 2
    standingClaims := [sampleClaim 2 "alice" 20] }]
  earning := [sampleClaim 1 "bob" 10, sampleClaim 2 "alice" 20]
  discoveries := [⟨.ofNat 81, .ofNat 82, "carol", 3, 40, by decide⟩]

/-- The validator receives the discovery and the larger credit of the absent claimants. -/
theorem projectGlobalRewards_sample :
    ∃ p, projectGlobalRewards sampleEconomics sampleMath sampleEmissions sampleContext
        sampleRewards = .ok p ∧
      p.weights = [⟨"bob", 433614⟩, ⟨"validator", 566386⟩] ∧
      (p.weights.map (·.weightPpm)).sum = 1000000 ∧
      HonoursClaims sampleEconomics sampleMath sampleEmissions sampleContext sampleRewards p := by
  have hrun : (projectGlobalRewards sampleEconomics sampleMath sampleEmissions sampleContext
      sampleRewards).map (·.weights) = .ok [⟨"bob", 433614⟩, ⟨"validator", 566386⟩] := by
    decide +kernel
  cases hp : projectGlobalRewards sampleEconomics sampleMath sampleEmissions sampleContext
    sampleRewards with
  | error e =>
    rw [hp] at hrun
    cases hrun
  | ok p =>
    rw [hp] at hrun
    obtain ⟨-, hsum, -, -, -, -, hhonours⟩ := (projectGlobalRewards_spec sampleEconomics
      sampleMath sampleEmissions sampleContext sampleRewards).1 p hp
    exact ⟨p, rfl, Except.ok.inj hrun, hsum, hhonours⟩

end Cacheon
