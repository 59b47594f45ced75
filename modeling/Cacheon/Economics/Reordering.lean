import Cacheon.Economics.Normalization

/-!
# Reordered inputs

Neither the allocation nor the projection depends on the order in which its rows arrive: every
list is either sorted by distinct keys or only summed and searched.

* `submissionWeights_perm` : the allocation of reordered credits.
* `RewardInputs.Reordered` : the same arenas and claims in another order.
* `projectRewards_reordered` : the projection of reordered inputs.
-/

namespace Cacheon

open Fallible EconomicsFault Tally Keyed PricedClaim RewardInputs

theorem sameKeys_iff {a b : List Digest} : sameKeys a b = true ↔ a ⊆ b ∧ b ⊆ a := by
  simp [sameKeys, List.subset_def]

theorem sameKeys_perm {a a' b b' : List Digest} (ha : a.Perm a') (hb : b.Perm b')
    (h : sameKeys a b = true) : sameKeys a' b' = true := by
  obtain ⟨hab, hba⟩ := sameKeys_iff.1 h
  refine sameKeys_iff.2 ⟨fun x hx => ?_, fun x hx => ?_⟩
  · exact hb.mem_iff.1 (hab (ha.mem_iff.2 hx))
  · exact ha.mem_iff.1 (hba (hb.mem_iff.2 hx))

/-! ### The allocation -/

section Allocation

variable {credits credits' : List StandingFamilyCredit} {terms : List (Digest × String × ℕ)}
  {context : GlobalRewardProjectionContext} {burnHotkey : Hotkey}
  {baseCredits baseCredits' : List (Digest × ℕ)} {priced priced' : List PricedClaim}

theorem request_perm (h : priced.Perm priced') : request priced = request priced' := by
  have hsum (amount : PricedClaim → ℕ) : sourceSum priced amount = sourceSum priced' amount :=
    funext fun _ => ((h.filter _).map amount).sum_eq
  funext c
  simp only [request, hsum]

/-- The requests do not depend on the order of the claims. -/
theorem requested_eq_of_perm (hnodup : (priced.map (·.row.claimDigest)).Nodup)
    (h : priced.Perm priced') : requested priced = requested priced' := by
  have hnodup' : (priced'.map (·.row.claimDigest)).Nodup := (h.map _).nodup_iff.1 hnodup
  refine sorted_ofList.eq_of_perm sorted_ofList ?_
  have hreqs : (priced.filterMap (request priced)).Perm (priced'.filterMap (request priced')) := by
    rw [request_perm h]
    exact h.filterMap _
  exact ((requested_perm hnodup).trans hreqs).trans (requested_perm hnodup').symm

/-- **The allocation of reordered credits is the same allocation.** -/
theorem submissionWeights_perm {a : SubmissionAllocation}
    (hnodup : (credits.map (·.claimDigest)).Nodup) (hbase : (baseCredits.map (·.1)).Nodup)
    (hcreds : credits.Perm credits') (hbaseCredits : baseCredits.Perm baseCredits')
    (h : allocateSubmissionWeights credits terms context burnHotkey baseCredits = .ok a) :
    allocateSubmissionWeights credits' terms context burnHotkey baseCredits' = .ok a := by
  simp only [allocateSubmissionWeights, bind_ok, exists_check] at h ⊢
  obtain ⟨⟨hterms, hkeys, hburn⟩, priced, hpriced, hrest⟩ := h
  obtain ⟨priced', hpriced', hperm⟩ := mapM_perm hcreds hpriced
  have hdigs : (priced.map (·.row.claimDigest)).Nodup := by
    rw [← rows_of_priced hpriced, List.map_map] at hnodup
    exact hnodup
  refine ⟨⟨sameKeys_perm (.refl _) (hcreds.map _) hterms,
    sameKeys_perm (hbaseCredits.map _) (.refl _) hkeys, hburn⟩, priced', ?_, ?_⟩
  · unfold priceClaim at hpriced' ⊢
    simpa only [Assoc.lookup_eq_of_perm hbase hbaseCredits] using hpriced'
  · rw [← requested_eq_of_perm hdigs hperm]
    exact hrest

end Allocation

/-! ### The projection -/

/-- The same arenas, claims and discoveries, each list in another order. -/
structure RewardInputs.Reordered (inputs inputs' : RewardInputs) : Prop where
  arenas : inputs.arenas.Perm inputs'.arenas
  earning : inputs.earning.Perm inputs'.earning
  discoveries : inputs.discoveries.Perm inputs'.discoveries
  validatedClaims : Option.Rel List.Perm inputs.validatedClaims inputs'.validatedClaims
  others : inputs' = { inputs with
    arenas := inputs'.arenas
    earning := inputs'.earning
    discoveries := inputs'.discoveries
    validatedClaims := inputs'.validatedClaims }

/-- Every earning claim has one base credit. -/
theorem keys_of_baseCredits {E : EconomicsHashes} {math : DecimalMath}
    {policy : EmissionsPolicyManifest} {context : GlobalRewardProjectionContext}
    {inputs : RewardInputs} {claims : List StandingRewardClaim} {base : List (Digest × ℕ)}
    (h : claims.mapM (inputs.baseCredit E math policy context) = .ok base) :
    base.map (·.1) = claims.map E.standingClaim := by
  refine map_eq_of_mapM (fun claim row hrow => ?_) h
  simp only [baseCredit, bind_ok] at hrow
  obtain ⟨_, -, _, -, heq⟩ := hrow
  cases heq
  rfl

namespace RewardInputs.Reordered

variable {E : EconomicsHashes} {math : DecimalMath} {policy : EmissionsPolicyManifest}
  {context : GlobalRewardProjectionContext} {inputs inputs' : RewardInputs}

section

variable (h : inputs.Reordered inputs')

include h

theorem validated : inputs.validated.Perm inputs'.validated := by
  have hrel := h.validatedClaims
  unfold RewardInputs.validated
  cases hv : inputs.validatedClaims <;> cases hv' : inputs'.validatedClaims <;> rw [hv, hv'] at hrel
  · exact h.earning
  · cases hrel
  · cases hrel
  · cases hrel with
    | some hperm => exact hperm

theorem terms : inputs'.allocationTerms = inputs.allocationTerms := by
  rw [h.others]

theorem creditClaims (previous : List (Digest × ℕ)) (claims : List StandingRewardClaim) :
    inputs'.creditClaims E math policy context previous claims =
      inputs.creditClaims E math policy context previous claims := by
  rw [h.others]
  induction claims generalizing previous with
  | nil => rfl
  | cons claim claims ih =>
    simp only [RewardInputs.creditClaims, ih]
    rfl

theorem baseCredit :
    inputs'.baseCredit E math policy context = inputs.baseCredit E math policy context := by
  rw [h.others]
  rfl

theorem creditOrder : inputs'.creditOrder E = inputs.creditOrder E := by
  rw [h.others]
  rfl

theorem carries : inputs'.carries E = inputs.carries E := by
  rw [h.others]
  rfl

section

variable (hok : inputs.checkInputs E = .ok ())

include hok

theorem checkInputs : inputs'.checkInputs E = .ok () := by
  have hearn : (inputs.earningDigests E).Perm (inputs'.earningDigests E) := h.earning.map _
  have hoth := h.others
  simp only [RewardInputs.checkInputs, bind_ok, check_ok, exists_const] at hok ⊢
  obtain ⟨harenas, hdist, hnodup, hvalidated, hscores, hbonuses, hstarts, hkeys⟩ := hok
  refine ⟨fun hnil => harenas (h.arenas.trans (.of_eq hnil)).eq_nil,
    (h.arenas.map _).nodup_iff.1 hdist, hearn.nodup_iff.1 hnodup, fun d hd => ?_, ?_, ?_, ?_,
    (h.validated.map _).nodup_iff.1 hkeys⟩
  · exact (h.validated.map _).mem_iff.1 (hvalidated d (hearn.mem_iff.2 hd))
  · rw [show inputs'.scoreSpeedups = inputs.scoreSpeedups by rw [hoth]]
    exact fun scores hs => sameKeys_perm (.refl _) hearn (hscores scores hs)
  · rw [show inputs'.stallBonusTerms = inputs.stallBonusTerms by rw [hoth], h.terms]
    intro bonuses hb
    obtain ⟨hterms, hsame⟩ := hbonuses bonuses hb
    exact ⟨hterms, sameKeys_perm (.refl _) hearn hsame⟩
  · rw [show inputs'.decayStartBlocks = inputs.decayStartBlocks by rw [hoth]]
    exact fun start hs => hearn.mem_iff.1 (hstarts start hs)

theorem checkActiveTarget : inputs'.checkActiveTarget E = inputs.checkActiveTarget E := by
  simp only [RewardInputs.checkInputs, bind_ok, check_ok, exists_const] at hok
  obtain ⟨-, -, -, -, -, -, -, hkeys⟩ := hok
  funext specs authority contribution
  unfold RewardInputs.checkActiveTarget
  cases authority.standingClaims.find? (·.targetId = contribution.targetId) with
  | none => simp only [h.carries, h.validated.any_eq]
  | some claim =>
    simp only [RewardInputs.checkStandingClaim, Assoc.find?_eq_of_perm hkeys h.validated]

theorem checkAuthority : inputs'.checkAuthority E = inputs.checkAuthority E := by
  funext authority
  simp only [RewardInputs.checkAuthority, h.checkActiveTarget hok, h.terms]

/-- Claims are credited in the same order. -/
theorem sortBy_creditOrder : sortBy (inputs'.creditOrder E) inputs'.earning =
      sortBy (inputs.creditOrder E) inputs.earning := by
  rw [h.creditOrder]
  refine (sortBy_eq_of_perm (fun a ha b hb hab => ?_) h.earning).symm
  have hdig : E.standingClaim a = E.standingClaim b := congrArg (fun k => (ofLex (ofLex k).2).2) hab
  exact List.inj_on_of_nodup_map (nodup_earning hok) ha hb hdig

end

theorem combineWeights {credits : List StandingFamilyCredit}
    {live : List DiscoveryBountyCredit} {combined : List (Hotkey × ℕ)}
    (hnodup : (credits.map (·.claimDigest)).Nodup) (hearn : (inputs.earningDigests E).Nodup)
    (hok : Cacheon.combineWeights E math policy context inputs credits live = .ok combined) :
    Cacheon.combineWeights E math policy context inputs' credits live = .ok combined := by
  unfold Cacheon.combineWeights at hok ⊢
  rw [h.terms, h.baseCredit]
  cases hterms : inputs.allocationTerms with
  | none =>
    rw [hterms] at hok
    exact hok
  | some terms =>
    rw [hterms] at hok
    simp only [bind_ok, exists_check] at hok ⊢
    obtain ⟨hlive, base, hbase, a, ha, heq⟩ := hok
    obtain ⟨base', hbase', hperm⟩ := mapM_perm h.earning hbase
    have hkeys : (base.map (·.1)).Nodup := by
      rw [keys_of_baseCredits hbase]
      exact hearn
    have hburn : inputs'.allocationBurnHotkey = inputs.allocationBurnHotkey := by rw [h.others]
    refine ⟨hlive, base', hbase', a, ?_, heq⟩
    rw [hburn]
    exact submissionWeights_perm hnodup hkeys (.refl _) hperm ha

end

end RewardInputs.Reordered

section Projection

variable {E : EconomicsHashes} {math : DecimalMath} {policy : EmissionsPolicyManifest}
  {context : GlobalRewardProjectionContext} {inputs inputs' : RewardInputs}
  {p : GlobalRewardProjection}

theorem assembleProjection_reordered (h : inputs.Reordered inputs')
    (hok : assembleProjection E math policy context inputs = .ok p) :
    assembleProjection E math policy context inputs' = .ok p := by
  simp only [assembleProjection, bind_ok, exists_check] at hok ⊢
  obtain ⟨⟨⟩, hinputs, ⟨⟩, hauths, credits, hcreds, hsome, hdist, judged, hjudged, hpool,
    combined, hcomb, heq⟩ := hok
  have hchecks := hinputs
  simp only [checkInputs, bind_ok, exists_check] at hchecks
  obtain ⟨-, harenas, -⟩ := hchecks
  -- Every list the projection walks is sorted by keys that are distinct.
  have hsort : sortBy (·.stack.arenaDigest) inputs'.arenas =
      sortBy (·.stack.arenaDigest) inputs.arenas :=
    (sortBy_eq_of_perm (fun a ha b hb => List.inj_on_of_nodup_map harenas ha hb) h.arenas).symm
  have hdiscoveries : sortBy E.discoveryClaim inputs'.discoveries =
      sortBy E.discoveryClaim inputs.discoveries :=
    (sortBy_eq_of_perm (fun a ha b hb => List.inj_on_of_nodup_map hdist.2.2 ha hb)
      h.discoveries).symm
  have hauthorityDigests : sortBy id (inputs'.arenas.map E.arenaAuthority) =
      sortBy id (inputs.arenas.map E.arenaAuthority) :=
    (sortBy_eq_of_perm (fun _ _ _ _ hab => hab) (h.arenas.map _)).symm
  refine ⟨(), h.checkInputs hinputs, (), ?_, credits, ?_, ?_, ?_, judged, ?_, hpool, combined,
    h.combineWeights (nodup_credits hinputs hcreds) (nodup_earning hinputs) hcomb, ?_⟩
  · rw [hsort, h.checkAuthority hinputs]
    exact hauths
  · rw [h.sortBy_creditOrder hinputs, h.creditClaims]
    exact hcreds
  · rw [h.terms]
    exact hsome
  · obtain ⟨h₁, h₂, h₃⟩ := hdist
    exact ⟨(h.discoveries.map _).nodup_iff.1 h₁, (h.discoveries.map _).nodup_iff.1 h₂,
      (h.discoveries.map _).nodup_iff.1 h₃⟩
  · rw [hdiscoveries]
    exact hjudged
  · rw [hauthorityDigests]
    exact heq

/-- **The projection of reordered inputs is the same projection.** -/
theorem projectRewards_reordered (h : inputs.Reordered inputs')
    (hok : projectGlobalRewards E math policy context inputs = .ok p) :
    projectGlobalRewards E math policy context inputs' = .ok p := by
  simp only [projectGlobalRewards, bind_ok] at hok ⊢
  obtain ⟨p', hassemble, hrest⟩ := hok
  exact ⟨p', assembleProjection_reordered h hassemble, hrest⟩

end Projection

end Cacheon
