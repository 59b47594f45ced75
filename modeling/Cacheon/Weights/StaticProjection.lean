import Cacheon.Economics.Attribution
import Cacheon.Economics.Reordering
import Cacheon.Intake.Credit
import Cacheon.Weights.Schedule

/-!
# The static projection over all reward stores

The producer reads every configured reward store, prices each earning claim by the schedule that
was in force when it arrived, projects one weight vector and publishes a report of how the vector
is attributed.  The report comes from a second allocation, run on the sorted credits.

* `SourceRewards` : what one store contributes; `Store.earning_source` says that a store reports it.
* `gatherRewards` : the inputs of all stores, with their terms and reservations.
* `buildStaticProjection` : the projection, the second allocation and the report.
-/

namespace Cacheon

open Fallible Tally AllocationFault List Keyed

section Report

variable {K : IntakeHashes} (s : Store K)

/-- The reservations with a PASS. -/
def Store.passed : List Digest :=
  (s.reservations.rows.filter (·.decision = some .pass)).map (·.reservationId K)

/-- The candidates that earn by a report, with the claims that their evidence gives. -/
def Store.earning (comparisons : List (Digest × RewardComparison))
    (claimOf : SettlementCandidate K → StandingRewardClaim) : List (StandingRewardClaim × Digest) :=
  (s.candidates.rows.filter fun row =>
    (comparisons.lookup row.reservationId).any (·.rewardEligible)).map
      fun row => (claimOf row.candidate, row.reservationId)

variable {s} {P : RewardSettings} {comparisons : List (Digest × RewardComparison)}
  {claimOf : SettlementCandidate K → StandingRewardClaim}

/-- Every reservation earns once, and only a PASS earns. -/
theorem Store.earning_source (h : s.rewardComparisons P = .ok comparisons) :
    ((s.earning comparisons claimOf).map (·.2)).Nodup ∧
      ∀ row ∈ s.earning comparisons claimOf, row.2 ∈ s.passed := by
  constructor
  · rw [earning, map_map]
    exact s.candidates.distinct.sublist (filter_sublist.map _)
  · intro row hrow
    obtain ⟨c, hc, rfl⟩ := mem_map.1 hrow
    obtain ⟨comparison, hlookup, -⟩ := (Option.any_eq_true _ _).1 (mem_filter.1 hc).2
    obtain ⟨w, hwalk, rfl⟩ := walk_of_comparisons h
    obtain ⟨-, -, -, hshown, -⟩ :=
      (comparisons_of_rewardWalk hwalk).2 _ (Assoc.mem_of_lookup hlookup)
    obtain ⟨place, hplace⟩ := Option.isSome_iff_exists.1 hshown
    obtain ⟨-, r, -, -, -, hr, -, hpass, -⟩ := shownAt_eq_some.1 hplace
    obtain ⟨hmem, hid⟩ := Table.find?_eq_some.1 hr
    exact mem_map.2 ⟨r, mem_filter.2 ⟨hmem, decide_eq_true hpass⟩, hid⟩

end Report

/-- What the producer reads from one reward store. -/
structure SourceRewards where
  /-- The finalized block and its hash. -/
  cursor : Option (ℕ × String)
  passed : List Digest
  arenas : List ArenaRewardAuthority
  /-- The earning claims with their reservations. -/
  earning : List (StandingRewardClaim × Digest)
  validatedClaims : List StandingRewardClaim
  discoveries : List DiscoveryBountyClaim
  earnedContributions : List ContributionRef
  decayStartBlocks : List (Digest × Option ℕ)
  scoreSpeedups : List (Digest × ℕ)
  stallGroups : List (Digest × Digest)
  /-- A store has one settlement candidate for a reservation. -/
  distinctReservations : (earning.map (·.2)).Nodup
  /-- Only a PASS earns. -/
  passed_of_earning : ∀ row ∈ earning, row.2 ∈ passed

/-- What has been read of the stores so far. -/
structure GatheredRewards where
  inputs : RewardInputs
  terms : List (Digest × String × ℕ)
  bonuses : List (Digest × ℕ)
  reservationIds : List (Digest × Digest)
  seenReservations : List Digest
  cursorHashes : List (ℕ × String)

/-- The published attribution of a weight vector. -/
structure AllocationReport where
  submissionTerms : List (Digest × String × ℕ)
  /-- Each reservation's part of the weights. -/
  submissionWeightsPpm : List (Digest × ℕ)
  arenaWeightsPpm : List (String × ℕ)
  burnedPpm : ℕ
  weightsPpm : List (Hotkey × ℕ)
deriving DecidableEq

/-- A projection with the allocation its report was made from. -/
structure StaticProjection where
  projection : GlobalRewardProjection
  allocation : SubmissionAllocation
  report : AllocationReport
deriving DecidableEq

section Build

variable (E : EconomicsHashes) (math : DecimalMath) (policy : EmissionsPolicyManifest)
  (context : GlobalRewardProjectionContext) (allocation : ArenaAllocation)

/-- Price one earning claim by the schedule of its arrival. -/
def addClaim (key : String) (cursor : ℕ) (g : GatheredRewards)
    (row : StandingRewardClaim × Digest) : AllocationM GatheredRewards := do
  let digest := E.standingClaim row.1
  check (digest ∉ g.terms.map (·.1) ∧ row.1.crownedBlock ≤ cursor)
    (intake "reward claim is duplicated or ahead of its source")
  let terms ← allocation.termsAt row.1.crownedBlock
  let term ← get (lookup key) (terms.lookup key)
  let bonus ← allocation.stallBonusAt row.1.crownedBlock
  return { g with
    terms := g.terms ++ [(digest, key, term)]
    bonuses := g.bonuses ++ [(digest, bonus)]
    reservationIds := g.reservationIds ++ [(digest, row.2)] }

/-- Add the inputs of one store; later dictionary entries replace earlier ones. -/
def RewardInputs.addSource (inputs : RewardInputs) (source : SourceRewards) : RewardInputs :=
  { inputs with
    arenas := inputs.arenas ++ source.arenas
    earning := inputs.earning ++ source.earning.map (·.1)
    discoveries := inputs.discoveries ++ source.discoveries
    earnedContributions := inputs.earnedContributions ++ source.earnedContributions
    validatedClaims := some (inputs.validatedClaims.getD [] ++ source.validatedClaims)
    decayStartBlocks := source.decayStartBlocks ++ inputs.decayStartBlocks
    scoreSpeedups := some (source.scoreSpeedups ++ inputs.scoreSpeedups.getD [])
    stallGroups := source.stallGroups ++ inputs.stallGroups }

variable (read : String → AllocationM SourceRewards)

/-- Read one store. -/
def addSource (g : GatheredRewards) (key : String) : AllocationM GatheredRewards := do
  let source ← read key
  let snapshot := intake "reward store snapshot is absent, ahead, or inconsistent"
  let cursor ← get snapshot source.cursor
  check (cursor.1 ≤ context.currentBlock ∧
    (g.cursorHashes.lookup cursor.1).getD cursor.2 = cursor.2) snapshot
  check (∀ id ∈ source.passed, id ∉ g.seenReservations)
    (intake "reservation passed in multiple reward stores")
  let g ← source.earning.foldlM (addClaim E allocation key cursor.1) g
  return { g with
    inputs := g.inputs.addSource source
    seenReservations := g.seenReservations ++ source.passed
    cursorHashes := g.cursorHashes ++ [cursor] }

/-- Nothing is read yet. -/
def GatheredRewards.start : GatheredRewards where
  inputs := {
    arenas := []
    earning := []
    validatedClaims := some []
    scoreSpeedups := some []
    allocationBurnHotkey := allocation.burnHotkey }
  terms := []
  bonuses := []
  reservationIds := []
  seenReservations := []
  cursorHashes := [(context.currentBlock, context.currentBlockHash)]

/-- Read every configured store in the order of the names. -/
def gatherRewards : AllocationM GatheredRewards :=
  allocation.names.foldlM (addSource E context allocation read) (.start context allocation)

/-- The inputs of the projection, with the terms of every claim. -/
def GatheredRewards.projected (g : GatheredRewards) : RewardInputs :=
  { g.inputs with
    allocationTerms := some g.terms
    stallBonusTerms := some g.bonuses }

/-- The second allocation, on the sorted credits of the projection. -/
def allocateStanding (g : GatheredRewards) (projection : GlobalRewardProjection) :
    EconomicsM SubmissionAllocation := do
  let base ← g.projected.earning.mapM (g.projected.baseCredit E math policy context)
  allocateSubmissionWeights projection.standing g.terms context g.projected.allocationBurnHotkey
    base

/-- A claim's part under its reservation. -/
def GatheredRewards.reservationRow (g : GatheredRewards) (row : Digest × ℕ) :
    AllocationM (Digest × ℕ) := do
  let id ← get (lookup "reservation_ids") (g.reservationIds.lookup row.1)
  return (id, row.2)

/-- Report an allocation under the names of the reservations and of the configured sources. -/
def reportAllocation (g : GatheredRewards) (projection : GlobalRewardProjection)
    (a : SubmissionAllocation) : AllocationM AllocationReport := do
  let rows ← a.submissionWeights.mapM g.reservationRow
  return {
    submissionTerms := g.terms
    submissionWeightsPpm := ofList (·.1) rows
    arenaWeightsPpm := allocation.names.map fun name => (name, share a.arenaShares name)
    burnedPpm := a.burned
    weightsPpm := projection.weights.map fun row => (row.hotkey, row.weightPpm) }

/-- Project the rewards of all stores and report the attribution. -/
def buildStaticProjection : AllocationM StaticProjection := do
  let g ← gatherRewards E context allocation read
  let projection ← (projectGlobalRewards E math policy context g.projected).mapError economics
  let a ← (allocateStanding E math policy context g projection).mapError economics
  let report ← reportAllocation allocation g projection a
  return ⟨projection, a, report⟩

end Build

/-! ### What has been gathered -/

/-- What holds of the rewards gathered from some sources: one term and one reservation for every
claim, no reservation twice. -/
structure GatheredRewards.Consistent (names : List String) (g : GatheredRewards) : Prop where
  distinctClaims : (g.terms.map (·.1)).Nodup
  reserved : g.reservationIds.map (·.1) = g.terms.map (·.1)
  distinctReservations : (g.reservationIds.map (·.2)).Nodup
  seen : ∀ row ∈ g.reservationIds, row.2 ∈ g.seenReservations
  sources : ∀ t ∈ g.terms, t.2.1 ∈ names

section Gather

variable {E : EconomicsHashes} {context : GlobalRewardProjectionContext}
  {allocation : ArenaAllocation} {g g' : GatheredRewards} {key : String} {cursor : ℕ}
  {read : String → AllocationM SourceRewards} {names : List String}

/-- The claims of one store, added one after the other. -/
theorem addClaims_spec {rows : List (StandingRewardClaim × Digest)}
    (h : rows.foldlM (addClaim E allocation key cursor) g = .ok g')
    (hnodup : (g.terms.map (·.1)).Nodup) (hids : g.reservationIds.map (·.1) = g.terms.map (·.1)) :
    (g'.terms.map (·.1)).Nodup ∧ g'.reservationIds.map (·.1) = g'.terms.map (·.1) ∧
      g'.reservationIds.map (·.2) = g.reservationIds.map (·.2) ++ rows.map (·.2) ∧
      (∃ new, g'.terms = g.terms ++ new ∧ ∀ t ∈ new, t.2.1 = key) ∧
      g'.seenReservations = g.seenReservations := by
  induction rows generalizing g with
  | nil =>
    cases h
    exact ⟨hnodup, hids, by simp, ⟨[], by simp⟩, rfl⟩
  | cons row rows ih =>
    simp only [foldlM_cons, addClaim, bind_ok, check_ok, get_ok, exists_const] at h
    obtain ⟨g₁, ⟨⟨hnew, -⟩, _, -, term, -, _, -, hclaim⟩, hrest⟩ := h
    cases hclaim
    have hnodup₁ : ((g.terms ++ [(E.standingClaim row.1, key, term)]).map (·.1)).Nodup := by
      rw [map_append]
      refine hnodup.append (nodup_singleton _) ?_
      simpa using hnew
    have hids₁ : (g.reservationIds ++ [(E.standingClaim row.1, row.2)]).map (·.1) =
        (g.terms ++ [(E.standingClaim row.1, key, term)]).map (·.1) := by
      rw [map_append, map_append, hids]
      rfl
    obtain ⟨hdist, hkeys, hreservations, ⟨new, hgrown, hsrcs⟩, hseen⟩ := ih hrest hnodup₁ hids₁
    refine ⟨hdist, hkeys, ?_, ⟨(E.standingClaim row.1, key, term) :: new, ?_,
      forall_mem_cons.2 ⟨rfl, hsrcs⟩⟩, hseen⟩
    · rw [hreservations]
      simp
    · rw [hgrown, append_assoc, singleton_append]

/-- Reading one store keeps what was gathered consistent: its PASSes are new. -/
theorem addSource_consistent (hkey : key ∈ names)
    (h : addSource E context allocation read g key = .ok g') (hg : g.Consistent names) :
    g'.Consistent names := by
  simp only [addSource, bind_ok, check_ok, get_ok, exists_const] at h
  obtain ⟨source, -, cursor, -, -, hpassed, g₁, hclaims, heq⟩ := h
  cases heq
  obtain ⟨hdist, hkeys, hreservations, ⟨new, hgrown, hsrcs⟩, hseen⟩ :=
    addClaims_spec hclaims hg.distinctClaims hg.reserved
  refine ⟨hdist, hkeys, ?_, ?_, ?_⟩
  · change (g₁.reservationIds.map (·.2)).Nodup
    rw [hreservations]
    refine hg.distinctReservations.append source.distinctReservations ?_
    intro id hold hnew
    obtain ⟨row, hrow, rfl⟩ := mem_map.1 hold
    obtain ⟨row', hrow', heq⟩ := mem_map.1 hnew
    exact hpassed row'.2 (source.passed_of_earning row' hrow') (heq ▸ hg.seen row hrow)
  · change ∀ row ∈ g₁.reservationIds, row.2 ∈ g₁.seenReservations ++ source.passed
    rw [← forall_mem_map (P := (· ∈ _)), hreservations, hseen, forall_mem_append]
    exact ⟨forall_mem_map.2 fun row hrow => mem_append_left _ (hg.seen row hrow),
      forall_mem_map.2 fun row hrow =>
        mem_append_right _ (source.passed_of_earning row hrow)⟩
  · change ∀ t ∈ g₁.terms, t.2.1 ∈ names
    rw [hgrown, forall_mem_append]
    exact ⟨hg.sources, fun t ht => hsrcs t ht ▸ hkey⟩

theorem gatherRewards_consistent (h : gatherRewards E context allocation read = .ok g) :
    g.Consistent allocation.names := by
  have hstart : (GatheredRewards.start context allocation).Consistent allocation.names := by
    constructor <;> simp [GatheredRewards.start]
  exact foldlM_invariant h hstart fun g key g' => addSource_consistent

end Gather

/-! ### The second allocation and the report -/

section Report

variable {E : EconomicsHashes} {math : DecimalMath} {policy : EmissionsPolicyManifest}
  {context : GlobalRewardProjectionContext} {allocation : ArenaAllocation} {g : GatheredRewards}
  {p : GlobalRewardProjection} {a : SubmissionAllocation} {names : List String}

/-- **The second allocation gives the projected weights**, though it runs on the credits in
another order than the first. -/
theorem allocateStanding_weights
    (h : projectGlobalRewards E math policy context g.projected = .ok p) :
    ∃ a, allocateStanding E math policy context g p = .ok a ∧
      (p.standing.map (·.claimDigest)).Nodup ∧ weightVector a.weights = p.weights := by
  simp only [projectGlobalRewards, bind_ok] at h
  obtain ⟨_, hassemble, -, -, heq⟩ := h
  cases heq
  have hchecks := hassemble
  simp only [assembleProjection, bind_ok] at hchecks
  obtain ⟨⟨⟩, hinputs, -⟩ := hchecks
  have hearn := nodup_earning hinputs
  obtain ⟨creds, comb, -, hdigs, -, hstand, -, hcomb, hwts⟩ := assembleProjection_cases hassemble
  simp only [combineWeights, GatheredRewards.projected, bind_ok, check_ok, exists_const] at hcomb
  obtain ⟨-, base, hbase, a, ha, heq⟩ := hcomb
  cases heq
  have hperm : creds.Perm p.standing := hstand ▸ sortBy_perm.symm
  have hkeys : (base.map (·.1)).Nodup := by
    rw [keys_of_baseCredits hbase]
    exact hearn
  refine ⟨a, ?_, (hperm.map _).nodup_iff.1 hdigs, hwts.symm⟩
  simp only [allocateStanding, bind_ok]
  exact ⟨base, hbase, submissionWeights_perm hdigs hkeys hperm (.refl _) ha⟩

/-- What the report shows for a claim: the part under its reservation. -/
def AllocationReport.weightOf (report : AllocationReport) (g : GatheredRewards)
    (digest : Digest) : ℕ :=
  ((g.reservationIds.lookup digest).bind fun id => report.submissionWeightsPpm.lookup id).getD 0

theorem reservationRow_ok {row r : Digest × ℕ} : g.reservationRow row = .ok r ↔
    g.reservationIds.lookup row.1 = some r.1 ∧ row.2 = r.2 := by
  simp only [GatheredRewards.reservationRow, bind_ok, get_ok]
  constructor
  · rintro ⟨id, hid, heq⟩
    cases heq
    exact ⟨hid, rfl⟩
  · rintro ⟨hid, heq⟩
    exact ⟨r.1, hid, by rw [heq]; rfl⟩

/-- The rows of the report: every claim's part under a reservation of its own. -/
theorem exists_reportRows (hg : g.Consistent names)
    (hkeys : a.submissionWeights.map (·.1) = g.terms.map (·.1)) :
    ∃ rows, a.submissionWeights.mapM g.reservationRow = .ok rows ∧
      rows.map (·.1) = g.reservationIds.map (·.2) ∧
      rows.map (·.2) = a.submissionWeights.map (·.2) := by
  have hids : (g.reservationIds.map (·.1)).Nodup := hg.reserved ▸ hg.distinctClaims
  have hfound : ∀ row ∈ a.submissionWeights, ∃ r, g.reservationRow row = .ok r := by
    intro row hrow
    have hkey : row.1 ∈ g.reservationIds.map (·.1) := by
      rw [hg.reserved, ← hkeys]
      exact mem_map_of_mem hrow
    obtain ⟨⟨digest, id⟩, hmem, hdig⟩ := mem_map.1 hkey
    refine ⟨(id, row.2), reservationRow_ok.2 ⟨?_, rfl⟩⟩
    exact (Assoc.lookup_eq_some hids).2 (hdig ▸ hmem)
  obtain ⟨rows, hrows⟩ := exists_mapM hfound
  refine ⟨rows, hrows, ?_, map_eq_of_mapM (fun _ _ h => (reservationRow_ok.1 h).2.symm) hrows⟩
  -- Looked up claim by claim, the reservations come in the order they were gathered in.
  have hsome : rows.map (fun r => some r.1) =
      a.submissionWeights.map fun row => g.reservationIds.lookup row.1 :=
    map_eq_of_mapM (fun _ _ h => (reservationRow_ok.1 h).1.symm) hrows
  have hvals : (rows.map (·.1)).map some = (g.reservationIds.map (·.2)).map some := by
    rw [map_map, map_map]
    refine hsome.trans ?_
    have hmap := Assoc.map_lookup hids
    rw [hg.reserved, ← hkeys, map_map] at hmap
    exact hmap
  exact map_injective_iff.2 (Option.some_injective _) hvals

/-- A report shows every part of an exact attribution once. -/
theorem reportAllocation_spec (hg : g.Consistent allocation.names)
    (hkeys : a.submissionWeights.map (·.1) = g.terms.map (·.1)) :
    ∃ report, reportAllocation allocation g p a = .ok report ∧
      report.submissionTerms = g.terms ∧ report.burnedPpm = a.burned ∧
      report.arenaWeightsPpm = (allocation.names.map fun name => (name, share a.arenaShares name)) ∧
      (report.submissionWeightsPpm.map (·.2)).sum = (a.submissionWeights.map (·.2)).sum ∧
      ∀ t ∈ g.terms, report.weightOf g t.1 = share a.submissionWeights t.1 := by
  obtain ⟨rows, hrows, hids, hvals⟩ := exists_reportRows hg hkeys
  have hnodup : (rows.map (·.1)).Nodup := hids ▸ hg.distinctReservations
  have hperm := ofList_perm hnodup
  refine ⟨_, by simp only [reportAllocation, bind_ok]; exact ⟨rows, hrows, rfl⟩, rfl, rfl, rfl,
    ?_, fun t ht => ?_⟩
  · exact (hperm.map _).sum_eq.trans (congrArg List.sum hvals)
  · have hkey : t.1 ∈ a.submissionWeights.map (·.1) := hkeys ▸ mem_map_of_mem ht
    obtain ⟨row, hrow, hdig⟩ := mem_map.1 hkey
    obtain ⟨r, hr, hread⟩ := mapM_exists hrows hrow
    obtain ⟨hid, hweight⟩ := reservationRow_ok.1 hread
    have hfound : (ofList (·.1) rows).lookup r.1 = some r.2 := by
      rw [Assoc.lookup_eq_some ((hperm.map _).nodup_iff.2 hnodup)]
      exact hperm.mem_iff.2 hr
    have hshare := share_of_mem (hkeys ▸ hg.distinctClaims) hrow
    simp only [AllocationReport.weightOf]
    rw [← hdig, hid, Option.bind_some, hfound, hshare, hweight]
    rfl

end Report

/-- **One vector, whatever the order**: the allocation and the projection of reordered inputs are
the same; so the second allocation of a static projection succeeds with the projected weights, and
its report shows parts and a burn that add up to a million and, source by source, to the weights of
the arenas. -/
theorem staticProjection_exact (E : EconomicsHashes) (math : DecimalMath)
    (policy : EmissionsPolicyManifest) (context : GlobalRewardProjectionContext) :
    (∀ credits credits' terms burnHotkey baseCredits baseCredits' a,
      (credits.map (·.claimDigest)).Nodup → (baseCredits.map (·.1)).Nodup →
      credits.Perm credits' → baseCredits.Perm baseCredits' →
      allocateSubmissionWeights credits terms context burnHotkey baseCredits = .ok a →
      allocateSubmissionWeights credits' terms context burnHotkey baseCredits' = .ok a) ∧
    (∀ inputs inputs' p, RewardInputs.Reordered inputs inputs' →
      projectGlobalRewards E math policy context inputs = .ok p →
      projectGlobalRewards E math policy context inputs' = .ok p) ∧
    ∀ allocation read g p, gatherRewards E context allocation read = .ok g →
      projectGlobalRewards E math policy context g.projected = .ok p →
      ∃ r, buildStaticProjection E math policy context allocation read = .ok r ∧
        r.projection = p ∧ weightVector r.allocation.weights = p.weights ∧
        (r.report.submissionWeightsPpm.map (·.2)).sum + r.report.burnedPpm = 1000000 ∧
        r.report.arenaWeightsPpm.map (·.1) = allocation.names ∧
        ∀ row ∈ r.report.arenaWeightsPpm,
          ((r.report.submissionTerms.filter (·.2.1 = row.1)).map fun t =>
            r.report.weightOf g t.1).sum = row.2 := by
  refine ⟨fun _ _ _ _ _ _ _ => submissionWeights_perm,
    fun _ _ _ => projectRewards_reordered, fun allocation read g p hgather hproject => ?_⟩
  have hg := gatherRewards_consistent hgather
  obtain ⟨a, ha, hstand, hwts⟩ := allocateStanding_weights hproject
  have hsecond := ha
  simp only [allocateStanding, bind_ok] at hsecond
  obtain ⟨base, -, hsecond⟩ := hsecond
  obtain ⟨hkeys, hsum, hsrcs⟩ := submissionWeights_attributed hg.distinctClaims hsecond
  obtain ⟨report, hrep, hterms, hburned, harenas, hparts, hshown⟩ :=
    reportAllocation_spec (p := p) hg hkeys
  refine ⟨⟨p, a, report⟩, ?_, rfl, hwts, ?_, ?_, ?_⟩
  · simp only [buildStaticProjection, bind_ok, mapError_ok]
    exact ⟨g, hgather, p, hproject, a, ha, report, hrep, rfl⟩
  · change (report.submissionWeightsPpm.map (·.2)).sum + report.burnedPpm = weightPpm
    rw [hparts, hburned, hsum]
  · change report.arenaWeightsPpm.map (·.1) = allocation.names
    rw [harenas, map_map]
    exact map_id _
  · intro row hrow
    rw [harenas] at hrow
    obtain ⟨name, -, rfl⟩ := mem_map.1 hrow
    rw [hterms, ← hsrcs name]
    refine congrArg List.sum (map_congr_left fun t ht => ?_)
    exact hshown t (mem_of_mem_filter ht)

/-- The accounts of the sample context and the one that burns. -/
def sampleBurnContext : GlobalRewardProjectionContext :=
  { sampleContext with
    metagraphMembers := [⟨0, "validator"⟩, ⟨1, "bob"⟩, ⟨2, "burn"⟩]
    distinctUids := by decide
    distinctHotkeys := by decide
    validator_mem := by decide }

/-- Two crowns in one store; the other one has earned nothing yet. -/
def sampleSource : String → AllocationM SourceRewards
  | "glm" => .ok {
    cursor := some (50, "0x")
    passed := [.ofNat 1, .ofNat 2, .ofNat 3]
    arenas := sampleRewards.arenas
    earning := [(sampleClaim 1 "bob" 10, .ofNat 1), (sampleClaim 2 "alice" 20, .ofNat 2)]
    validatedClaims := [sampleClaim 1 "bob" 10, sampleClaim 2 "alice" 20]
    discoveries := []
    earnedContributions := []
    decayStartBlocks := []
    scoreSpeedups := [(sampleEconomics.standingClaim (sampleClaim 1 "bob" 10), 1100000),
      (sampleEconomics.standingClaim (sampleClaim 2 "alice" 20), 1200000)]
    stallGroups := []
    distinctReservations := by decide
    passed_of_earning := by decide }
  | "qwen" => .ok {
    cursor := some (48, "0y")
    passed := [.ofNat 4]
    arenas := []
    earning := []
    validatedClaims := []
    discoveries := []
    earnedContributions := []
    decayStartBlocks := []
    scoreSpeedups := []
    stallGroups := []
    distinctReservations := by decide
    passed_of_earning := by decide }
  | key => .error (lookup key)

theorem staticProjection_exact_sample :
    ∃ r, buildStaticProjection sampleEconomics sampleMath sampleEmissions sampleBurnContext
        sampleAllocation sampleSource = .ok r ∧
      (r.report.submissionWeightsPpm.map (·.2)).sum + r.report.burnedPpm = 1000000 ∧
      r.report.arenaWeightsPpm = [("glm", 333333), ("qwen", 0)] := by
  have hrun : (do
      let g ← gatherRewards sampleEconomics sampleBurnContext sampleAllocation sampleSource
      (projectGlobalRewards sampleEconomics sampleMath sampleEmissions sampleBurnContext
        g.projected).mapError economics).isOk = true := by decide +kernel
  have hrep : (buildStaticProjection sampleEconomics sampleMath sampleEmissions
      sampleBurnContext sampleAllocation sampleSource).map (·.report.arenaWeightsPpm) =
        .ok [("glm", 333333), ("qwen", 0)] := by decide +kernel
  obtain ⟨p, hp⟩ := ok_of_isOk hrun
  simp only [bind_ok, mapError_ok] at hp
  obtain ⟨g, hgather, hproject⟩ := hp
  obtain ⟨r, hr, -, -, hsum, -⟩ := (staticProjection_exact sampleEconomics sampleMath
    sampleEmissions sampleBurnContext).2.2 sampleAllocation sampleSource g p hgather hproject
  rw [hr] at hrep
  exact ⟨r, hr, hsum, Except.ok.inj hrep⟩

end Cacheon
