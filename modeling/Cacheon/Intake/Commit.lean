import Cacheon.Intake.Ledger
import Cacheon.Settlement.PlanSpec

/-!
# What a commit does

A commit is taken apart once, here.  `commitPlan_written` gives what it found unchanged, the plan
it wrote and what each table is afterwards.

* `Unchanged` : what the plan was made on and the commit checked again.
* `Written` : the tables after a plan was written.
* `Op.permit` and `step_spec` : what each operation is permitted, and that it does no more.
-/

namespace Cacheon

open Fallible IntakeFault List Table

variable {K : IntakeHashes}

namespace Store

variable {s s₁ s' : Store K} {lease : SettlementLease K}
  {evidence : List SettlementEvidence} {plan : SettlementPlan} {block : ℕ}
  {resolve : TreeResolver}

/-! ### What is checked -/

/-- What the plan was made on still holds, after the reservations that are due have expired. -/
structure Unchanged (lease : SettlementLease K) (evidence : List SettlementEvidence) (block : ℕ)
    (s s₁ : Store K) : Prop where
  expired : s.expireStaleRows block = .ok s₁
  stack : s₁.evaluationStack lease.stack.arenaDigest = .ok lease.stack
  head : s₁.eventHead = (lease.initialEventSequence, lease.previousEventDigest)
  tips : ∃ arena, s₁.targetLineageTips arena = .ok lease.lineageTips ∧
    ∀ c ∈ lease.candidates, ∃ r, s.reservations.find? c.primary.reservationDigest = some r ∧
      r.competitionArena = arena
  unblocked : s₁.unblocked lease.candidates = .ok true
  evidence : ∀ c ∈ lease.candidates, ∃ receipt, s₁.settlementEvidenceMetadata c = .ok receipt ∧
    receiptOf evidence c.digest = .ok receipt
  held : ∀ c ∈ lease.candidates, ∃ row,
    s₁.candidates.find? c.primary.reservationDigest = some row ∧ row.status = .leased ∧
      row.leaseGeneration = lease.generation

/-- As many rows are held as there are leased candidates, so each candidate's row is one. -/
theorem leased_of_held (hlen : (s.heldByLease lease).length = lease.candidates.length) :
    ∀ c ∈ lease.candidates, ∃ row,
      s.candidates.find? c.primary.reservationDigest = some row ∧ row.status = .leased ∧
        row.leaseGeneration = lease.generation := by
  intro c hc
  have hnodup : ((s.heldByLease lease).map (·.reservationId)).Nodup :=
    s.candidates.distinct.sublist (filter_sublist.map _)
  have hsubset : (s.heldByLease lease).map (·.reservationId) ⊆
      lease.candidates.map (·.primary.reservationDigest) := by
    intro id hid
    obtain ⟨row, hrow, rfl⟩ := mem_map.1 hid
    have hheld := (mem_filter.1 hrow).2
    simp only [decide_eq_true_eq] at hheld
    exact hheld.2.2.2.1
  have hperm := (subperm_of_subset hnodup hsubset).perm_of_length_le (by simp [hlen])
  obtain ⟨row, hrow, hid⟩ := mem_map.1 (hperm.mem_iff.2 (mem_map_of_mem hc))
  obtain ⟨hmem, hheld⟩ := mem_filter.1 hrow
  simp only [decide_eq_true_eq] at hheld
  exact ⟨row, find?_eq_some.2 ⟨hmem, hid⟩, hheld.1, hheld.2.2.1⟩

theorem requireUnchanged_spec (h : s.requireUnchanged lease evidence block = .ok s₁) :
    Unchanged lease evidence block s s₁ := by
  simp only [requireUnchanged, bind_ok, exists_check] at h
  obtain ⟨rows, hrows, harenas, s₂, h₂, cur, hcur, ⟨hstack, hhead⟩, tips, htips, heq,
    free, hfree, hfree', _, hev, ⟨hlen, -, -⟩, h⟩ := h
  cases h
  refine ⟨h₂, hstack ▸ hcur, hhead, ?_, hfree' ▸ hfree, ?_, leased_of_held hlen⟩
  · refine ⟨_, heq ▸ htips, fun c hc => ?_⟩
    obtain ⟨r, hr, hget⟩ := mapM_exists hrows hc
    refine ⟨r, get_iff.1 hget, ?_⟩
    cases rows with
    | nil => cases hr
    | cons first rest => exact harenas r hr first (by simp)
  · intro c hc
    have hc := forM_ok.1 hev c hc
    simp only [bind_ok, check_ok] at hc
    obtain ⟨expected, hexpect, receipt, hrcpt, heq⟩ := hc
    exact ⟨expected, hexpect, heq ▸ hrcpt⟩

variable {c : SettlementCandidate K} {receipt : SettlementEvidence}
  {event : SettlementEvent} {s'' : Store K}

theorem standing_of_metadata (h : s.settlementEvidenceMetadata c = .ok receipt) :
    s.hasStanding c := by
  simp only [settlementEvidenceMetadata, bind_ok, exists_check] at h
  exact h.1

/-- The row of a leased candidate is leased at the lease's generation, and is of that
candidate. -/
theorem Unchanged.leasedRow (h : Unchanged lease evidence block s s₁) (hc : c ∈ lease.candidates) :
    ∃ row, s₁.candidates.find? c.primary.reservationDigest = some row ∧
      row.status = .leased ∧ row.leaseGeneration = lease.generation ∧
      row.candidate.digest = c.digest := by
  obtain ⟨row, hrow, hlease, hgen⟩ := h.held c hc
  obtain ⟨receipt, hrcpt, -⟩ := h.evidence c hc
  obtain ⟨row', hrow', _, -, hdig, -⟩ := standing_of_metadata hrcpt
  rw [Option.mem_def, hrow, Option.some_inj] at hrow'
  exact ⟨row, hrow, hlease, hgen, hrow' ▸ hdig⟩

/-! ### Events -/

/-- Only the journal, the claims and the lineages were written. -/
structure Journaled (s s' : Store K) : Prop where
  session : s'.recoverable = s.recoverable ∧ s'.authority = s.authority
  dispositions : s'.dispositions = s.dispositions
  queue : s'.queue = s.queue
  candidates : s'.candidates = s.candidates
  stacks_eq : s'.evaluationStacks = s.evaluationStacks
  qualifications : s'.qualifications = s.qualifications

theorem Journaled.refl (s : Store K) : Journaled s s := ⟨⟨rfl, rfl⟩, rfl, rfl, rfl, rfl, rfl⟩

theorem Journaled.trans (h : Journaled s s₁) (h' : Journaled s₁ s'') : Journaled s s'' where
  session := ⟨h'.session.1.trans h.session.1, h'.session.2.trans h.session.2⟩
  dispositions := h'.dispositions.trans h.dispositions
  queue := h'.queue.trans h.queue
  candidates := h'.candidates.trans h.candidates
  stacks_eq := h'.stacks_eq.trans h.stacks_eq
  qualifications := h'.qualifications.trans h.qualifications

/-- The claim and the edge that a crowned candidate leaves. -/
structure Crowned (evidence : List SettlementEvidence) (block : ℕ) (event : SettlementEvent)
    (c : SettlementCandidate K) (s s' : Store K) where
  contribution : ContributionRef
  receipt : SettlementEvidence
  claim : StandingRewardClaim
  row : IntakeReservation
  contribution_eq : c.primary.candidateManifest.entryOf c.primary.targetId = some contribution
  receipt_eq : receiptOf evidence c.digest = .ok receipt
  claim_eq : standingClaim c contribution receipt = .ok claim
  row_eq : s.reservations.find? c.primary.reservationDigest = some row
  standing : ∀ family, s'.standing.find? family =
    if family = (c.primary.arenaDigest, c.primary.targetId) then
      some ⟨claim, true, K.event event⟩
    else s.standing.find? family
  nodes : s'.nodes = s.nodes.put (lineageNode row.competitionArena c
    contribution.artifactDigest c.incumbentArtifact (K.event event) block)
  tips : s'.tips = s.tips.put (lineageNode row.competitionArena c
    contribution.artifactDigest c.incumbentArtifact (K.event event) block)

/-- The edge of a crown. -/
def Crowned.edge {event : SettlementEvent} {c : SettlementCandidate K}
    (h : Crowned evidence block event c s s') : LineageRow :=
  lineageNode h.row.competitionArena c h.contribution.artifactDigest c.incumbentArtifact
    (K.event event) block

theorem family_of_standing {contr : ContributionRef} {claim : StandingRewardClaim}
    (h : standingClaim c contr receipt = .ok claim) :
    (claim.arenaDigest, claim.targetId) = (c.primary.arenaDigest, c.primary.targetId) ∧
      claim.retainedEvidenceDigest = K.settlementEvidence receipt := by
  unfold standingClaim at h
  split_ifs at h
  cases h
  exact ⟨rfl, rfl⟩

theorem crown_spec (h : s.crown evidence block event c = .ok s') :
    Nonempty (Crowned evidence block event c s s') ∧ Journaled s s' ∧ s'.events = s.events := by
  simp only [crown, bind_ok, exists_check, get_ok] at h
  obtain ⟨contr, hcontr, receipt, hrcpt, claim, hclaim, s₁, h₁, s₂, h₂, row, hrow, -, h⟩ := h
  simp only [putStanding, bind_ok, exists_check] at h₁
  obtain ⟨-, h₁⟩ := h₁
  cases h₁
  obtain ⟨row', node, hrow', rfl, -, rfl⟩ := writeLineage_spec h₂
  have hsame : row' = row := Option.mem_unique hrow' (get_iff.1 hrow)
  cases h
  refine ⟨⟨⟨contr, receipt, claim, row', hcontr, hrcpt, hclaim, hrow', ?_, rfl,
    rfl⟩⟩, ⟨⟨rfl, rfl⟩, rfl, rfl, rfl, rfl, rfl⟩, rfl⟩
  intro family
  rw [← (family_of_standing hclaim).1]
  exact find?_put

/-- The row of an event that is written under a lease. -/
structure EventRowOf (lease : SettlementLease K) (e : SettlementEvent)
    (row : SettlementEventRow) : Prop where
  event : row.event = e
  arena : row.arenaId = lease.stack.arenaDigest
  candidate : ∃ c ∈ lease.candidates, c.digest = e.candidateDigest ∧
    row.reservationId = c.primary.reservationDigest

/-- No two events have the same digest. -/
def DistinctEvents (s : Store K) : Prop := (s.events.map fun row => K.event row.event).Nodup

/-- The claims and the lineages are those of another store. -/
structure SameCrowns (s s' : Store K) : Prop where
  standing : s'.standing = s.standing
  nodes : s'.nodes = s.nodes
  tips : s'.tips = s.tips

theorem SameCrowns.trans (h : SameCrowns s s₁) (h' : SameCrowns s₁ s'') : SameCrowns s s'' :=
  ⟨h'.standing.trans h.standing, h'.nodes.trans h.nodes, h'.tips.trans h.tips⟩

/-- Writing one event: it goes to the end of the journal, and only a crown goes further. -/
theorem commitEvent_spec (h : commitEvent lease evidence block s event = .ok s') : Journaled s s' ∧
      (∃ row, EventRowOf lease event row ∧ s'.events = s.events ++ [row]) ∧
      (s.DistinctEvents → s'.DistinctEvents) ∧
      (event.eventType ≠ .crown → SameCrowns s s') ∧
      (event.eventType = .crown → ∃ c ∈ lease.candidates, c.digest = event.candidateDigest ∧
        Nonempty (Crowned evidence block event c s s')) := by
  simp only [commitEvent, leasedCandidate, insertEvent, bind_ok, exists_check, get_ok] at h
  obtain ⟨c, hc, s₁, ⟨hnew, h₁⟩, h⟩ := h
  cases h₁
  have hmem := mem_of_find?_eq_some hc
  have hdig : c.digest = event.candidateDigest := by simpa using find?_some hc
  have hrow : EventRowOf lease event ⟨event, c.primary.reservationDigest, c.primary.arenaDigest⟩ :=
    ⟨rfl, (lease.candidates_ok.2 c hmem).1, c, hmem, hdig, rfl⟩
  have hids (hs : s.DistinctEvents) :
      (s.addEvent ⟨event, c.primary.reservationDigest, c.primary.arenaDigest⟩).DistinctEvents := by
    show ((s.events ++ [_]).map fun row : SettlementEventRow => K.event row.event).Nodup
    rw [map_append]
    refine nodup_append.2 ⟨hs, nodup_singleton _, ?_⟩
    intro id hid id' hid' heq
    obtain ⟨other, hother, rfl⟩ := mem_map.1 hid
    exact (hnew other hother).2 (heq.trans (mem_singleton.1 hid'))
  split_ifs at h with hcrown
  · obtain ⟨⟨hcrowned⟩, hframe, hevs⟩ := crown_spec h
    refine ⟨⟨hframe.session, hframe.dispositions, hframe.queue, hframe.candidates,
      hframe.stacks_eq, hframe.qualifications⟩, ⟨_, hrow, hevs⟩, ?_,
      fun hne => absurd hcrown hne, fun _ => ⟨c, hmem, hdig, ⟨{ hcrowned with }⟩⟩⟩
    intro hs
    simpa only [DistinctEvents, hevs] using hids hs
  · cases h
    exact ⟨⟨⟨rfl, rfl⟩, rfl, rfl, rfl, rfl, rfl⟩, ⟨_, hrow, rfl⟩, hids, fun _ => ⟨rfl, rfl, rfl⟩,
      fun h => absurd h hcrown⟩

variable {events : List SettlementEvent}

/-- Writing events appends them to the journal. -/
theorem events_journaled (h : events.foldlM (commitEvent lease evidence block) s = .ok s') :
    Journaled s s' ∧ (∃ rows, List.Forall₂ (EventRowOf lease) events rows ∧
      s'.events = s.events ++ rows) ∧ (s.DistinctEvents → s'.DistinctEvents) := by
  induction events generalizing s with
  | nil =>
    cases h
    exact ⟨.refl _, ⟨[], .nil, by simp⟩, fun h => h⟩
  | cons e events ih =>
    simp only [foldlM_cons, bind_ok] at h
    obtain ⟨s₁, h₁, h⟩ := h
    obtain ⟨hframe, ⟨row, hrow, hevs⟩, hids, -⟩ := commitEvent_spec h₁
    obtain ⟨hframe', ⟨rows, hrows, hevs'⟩, hids'⟩ := ih h
    refine ⟨hframe.trans hframe', ⟨row :: rows, .cons hrow hrows, ?_⟩, fun hs => hids' (hids hs)⟩
    rw [hevs', hevs, append_assoc]
    rfl

theorem events_sameCrowns (hevs : ∀ e ∈ events, e.eventType ≠ .crown)
    (h : events.foldlM (commitEvent lease evidence block) s = .ok s') : SameCrowns s s' := by
  refine foldlM_rel (R := SameCrowns) (fun _ => ⟨rfl, rfl, rfl⟩) (fun _ _ _ => .trans) ?_ h
  intro s e s' he h
  exact (commitEvent_spec h).2.2.2.1 (hevs e he)

variable {winner : SettlementCandidate K} {before after : StackArmIdentity}
  {status : CandidateStatus}

/-- Among the events of a crown, the crown alone goes further than the journal. -/
theorem commitEvents_crowned (ce : CrownEvents winner before after plan.events)
    (hwinner : winner ∈ lease.candidates) (hdist : DistinctCandidates lease.candidates)
    (h : plan.events.foldlM (commitEvent lease evidence block) s = .ok s') :
    Nonempty (Crowned evidence block ce.crown winner s s') := by
  rw [ce.events_eq, foldlM_append, bind_ok] at h
  obtain ⟨s₁, h₁, h⟩ := h
  simp only [foldlM_cons, bind_ok] at h
  obtain ⟨s₂, h₂, h₃⟩ := h
  have hholds : SameCrowns s s₁ := by
    refine events_sameCrowns (fun e he => ?_) h₁
    rw [ce.hold_type e he]
    decide
  have hrest : SameCrowns s₂ s' := by
    refine events_sameCrowns (fun e he hcrown => ?_) h₃
    rcases mem_append.1 he with he | he
    · exact absurd (hcrown ▸ (ce.consequence_type e he).1) (by decide)
    · rw [mem_singleton.1 he, ce.transition_type] at hcrown
      cases hcrown
  obtain ⟨c, hc, hdig, ⟨hcrowned⟩⟩ := (commitEvent_spec h₂).2.2.2.2 ce.crown_type
  obtain rfl : c = winner := hdist.eq_of_digest c hc winner hwinner (hdig.trans ce.crown_candidate)
  have hqueue : s₁.queue = s.queue := (events_journaled h₁).1.queue
  exact ⟨{ hcrowned with
    row_eq := hqueue ▸ hcrowned.row_eq
    standing := fun family => by rw [hrest.standing, hcrowned.standing, hholds.standing]
    nodes := by rw [hrest.nodes, hcrowned.nodes, hholds.nodes]
    tips := by rw [hrest.tips, hcrowned.tips, hholds.tips] }⟩

/-! ### Dispositions -/

/-- What disposing of a candidate does to its row. -/
def disposedState (status : CandidateStatus) (receipt : SettlementEvidence)
    (row : CandidateRow K) : CandidateState :=
  { row.toCandidateState with
    status := status, leaseId := none, leaseExpiresBlock := 0
    reason := dispositionText status
    settlementEvidenceDigest := some (K.settlementEvidence receipt) }

/-- The row of a candidate after its disposition. -/
structure Disposed (evidence : List SettlementEvidence) (events : List SettlementEvent)
    (c : SettlementCandidate K) (s s' : Store K) : Prop where
  exists_status : ∃ status receipt, dispositionOf events c.digest = some status ∧
    receiptOf evidence c.digest = .ok receipt ∧
    s'.candidates.find? c.primary.reservationDigest =
      (s.candidates.find? c.primary.reservationDigest).map fun row =>
        row.withState (disposedState status receipt row)

theorem disposeCandidate_spec (h : disposeCandidate evidence events s c = .ok s') :
    (∃ t, s' = s.withCandidates t) ∧ s'.candidateList = s.candidateList ∧
      Disposed evidence events c s s' ∧
      ∀ id ≠ c.primary.reservationDigest, s'.candidates.find? id = s.candidates.find? id := by
  simp only [disposeCandidate, bind_ok, get_ok] at h
  obtain ⟨status, hstat, receipt, hrcpt, h⟩ := h
  cases h
  refine ⟨⟨_, rfl⟩, candidateList_mapCandidates, ⟨status, receipt, hstat, hrcpt, ?_⟩, ?_⟩
  · rw [find?_mapCandidates]
    cases hfind : s.candidates.find? c.primary.reservationDigest with
    | none => rfl
    | some row =>
      rw [Option.map_some, Option.map_some, if_pos (find?_eq_some.1 hfind).2]
      rfl
  · intro id hid
    rw [find?_mapCandidates]
    exact map_of_key_ne hid

theorem disposeCandidates_spec {cs : List (SettlementCandidate K)}
    (hnodup : (cs.map (·.primary.reservationDigest)).Nodup)
    (h : cs.foldlM (disposeCandidate evidence events) s = .ok s') :
    (∃ t, s' = s.withCandidates t) ∧ s'.candidateList = s.candidateList ∧
      (∀ c ∈ cs, Disposed evidence events c s s') ∧
      ∀ id ∉ cs.map (·.primary.reservationDigest),
        s'.candidates.find? id = s.candidates.find? id := by
  induction cs generalizing s with
  | nil =>
    cases h
    exact ⟨⟨_, rfl⟩, rfl, by simp, fun _ _ => rfl⟩
  | cons c cs ih =>
    simp only [foldlM_cons, bind_ok] at h
    obtain ⟨s₁, h₁, h⟩ := h
    obtain ⟨hfirst, hrest⟩ := nodup_cons.1 hnodup
    obtain ⟨⟨t₁, heq₁⟩, horder₁, hdisp₁, hoth₁⟩ := disposeCandidate_spec h₁
    obtain ⟨⟨t, heq⟩, horder, hdisp, hoth⟩ := ih hrest h
    refine ⟨⟨t, by rw [heq, heq₁]; rfl⟩, horder.trans horder₁, ?_, ?_⟩
    · intro d hd
      rcases mem_cons.1 hd with rfl | hd
      · obtain ⟨status, receipt, hstat, hrcpt, hfind⟩ := hdisp₁
        exact ⟨status, receipt, hstat, hrcpt, (hoth _ hfirst).trans hfind⟩
      · -- The first disposition did not touch the row of a later candidate.
        have hne : d.primary.reservationDigest ≠ c.primary.reservationDigest := fun heq =>
          hfirst (mem_map.2 ⟨d, hd, heq⟩)
        obtain ⟨status, receipt, hstat, hrcpt, hfind⟩ := hdisp d hd
        exact ⟨status, receipt, hstat, hrcpt, (hoth₁ _ hne) ▸ hfind⟩
    · intro id hid
      simp only [map_cons, mem_cons, not_or] at hid
      exact (hoth id hid.2).trans (hoth₁ id hid.1)

/-! ### Retired claims and the stack -/

/-- Retiring the claims of one target leaves those of the others. -/
theorem retire_spec {target : String}
    (hevs : ∀ e ∈ events, e.eventType ∈ [.retirement, .neutralization] → e.targetId = target) :
    ∃ t, events.foldl (retireFamily lease) s = s.withStanding t ∧
      ∀ family ≠ (lease.stack.arenaDigest, target), t.find? family = s.standing.find? family := by
  induction events generalizing s with
  | nil => exact ⟨s.standing, rfl, fun _ _ => rfl⟩
  | cons e events ih =>
    have hfirst : ∃ t, retireFamily lease s e = s.withStanding t ∧
        ∀ family ≠ (lease.stack.arenaDigest, target), t.find? family = s.standing.find? family := by
      unfold retireFamily
      split_ifs with htype
      · refine ⟨_, rfl, fun family hfamily => ?_⟩
        refine (find?_update _).trans (map_of_key_ne ?_)
        rwa [hevs e (by simp) htype]
      · exact ⟨s.standing, rfl, fun _ _ => rfl⟩
    obtain ⟨t₁, heq₁, hoth₁⟩ := hfirst
    obtain ⟨t, heq, hoth⟩ := ih (s := s.withStanding t₁)
      fun e he => hevs e (mem_cons_of_mem _ he)
    refine ⟨t, ?_, fun family hfamily => (hoth family hfamily).trans (hoth₁ family hfamily)⟩
    rw [foldl_cons, heq₁, heq]
    rfl

theorem retire_of_holds (hevs : ∀ e ∈ events, e.eventType = .hold) :
    events.foldl (retireFamily lease) s = s := by
  induction events with
  | nil => rfl
  | cons e events ih =>
    have hhold : retireFamily lease s e = s := by
      unfold retireFamily
      rw [hevs e (by simp)]
      rfl
    rw [foldl_cons, hhold]
    exact ih fun e he => hevs e (mem_cons_of_mem _ he)

/-! ### A whole plan -/

/-- The arm a lease's plan starts from. -/
def leaseArm (lease : SettlementLease K) : StackArmIdentity :=
  planBefore K lease.stack.manifest lease.stack.treeDigest

/-- A plan that crowns was written. -/
structure CrownWritten (lease : SettlementLease K) (evidence : List SettlementEvidence)
    (plan : SettlementPlan) (block : ℕ) (s s' : Store K) where
  winner : SettlementCandidate K
  transition : StackTransitionOutput
  current : StackRow
  events : CrownEvents winner (leaseArm lease) transition.after plan.events
  mem : winner ∈ lease.candidates
  admitted : winner.Admitted (leaseArm lease) lease.lineageTips
  manifest : K.manifest transition.manifest = transition.after.stackDigest
  arena : transition.manifest.arenaDigest = lease.stack.arenaDigest
  crowned : Crowned evidence block events.crown winner s s'
  current_eq : s.evaluationStacks.find? lease.stack.arenaDigest = some current
  moved : s'.evaluationStacks = s.evaluationStacks.put
    (movedStack current transition (K.event events.transition))

/-- A plan that only holds was written. -/
structure HoldWritten (plan : SettlementPlan) (s s' : Store K) : Prop where
  holds : ∀ e ∈ plan.events, e.eventType = .hold
  same : SameCrowns s s'
  stacks_eq : s'.evaluationStacks = s.evaluationStacks

/-- A plan was written. -/
structure Written (lease : SettlementLease K) (evidence : List SettlementEvidence)
    (plan : SettlementPlan) (block : ℕ) (s s' : Store K) : Prop where
  core : s'.core = s.core
  dispositions : s'.dispositions = s.dispositions
  queue : s'.queue = s.queue
  qualifications : s'.qualifications = s.qualifications
  events : ∃ rows, List.Forall₂ (EventRowOf lease) plan.events rows ∧ s'.events = s.events ++ rows
  ids : s.DistinctEvents → s'.DistinctEvents
  order : s'.candidateList = s.candidateList
  disposed : ∀ c ∈ lease.candidates, Disposed evidence plan.events c s s'
  others : ∀ id ∉ lease.candidates.map (·.primary.reservationDigest),
    s'.candidates.find? id = s.candidates.find? id
  outcome : HoldWritten plan s s' ∨ Nonempty (CrownWritten lease evidence plan block s s')

/-- The parts of a written plan that do not depend on its outcome. -/
theorem Written.of_parts {s₂ : Store K} {t : Table StandingRow.family}
    (hdist : DistinctCandidates lease.candidates)
    (h₁ : plan.events.foldlM (commitEvent lease evidence block) (s.withStanding t) = .ok s₁)
    (h₂ : lease.candidates.foldlM (disposeCandidate evidence plan.events) s₁ = .ok s₂)
    (hcore : s'.core = s₂.core) (hd : s'.dispositions = s₂.dispositions)
    (hqueue : s'.queue = s₂.queue) (hq : s'.qualifications = s₂.qualifications)
    (hevs : s'.events = s₂.events)
    (hcands : s'.candidates = s₂.candidates)
    (hout : HoldWritten plan s s' ∨ Nonempty (CrownWritten lease evidence plan block s s')) :
    Written lease evidence plan block s s' := by
  obtain ⟨hframe, ⟨rows, hrows, hjour⟩, hids⟩ := events_journaled h₁
  obtain ⟨⟨t', rfl⟩, horder, hdisp, hoth⟩ := disposeCandidates_spec hdist.2 h₂
  have hbef : s₁.candidates = s.candidates := hframe.candidates
  have hcore₁ : s₁.core = s.core := by
    unfold Store.core
    rw [hframe.session.1, hframe.session.2, hframe.queue, hframe.stacks_eq]
    rfl
  refine ⟨hcore.trans hcore₁, hd.trans hframe.dispositions, hqueue.trans hframe.queue,
    hq.trans hframe.qualifications, ⟨rows, hrows, hevs.trans hjour⟩, ?_, ?_, ?_, ?_, hout⟩
  · intro hs
    unfold DistinctEvents
    rw [hevs]
    exact hids hs
  · refine Eq.trans ?_ (horder.trans ?_)
    · unfold candidateList
      rw [hcands]
    · unfold candidateList
      rw [hbef]
  · intro c hc
    obtain ⟨status, receipt, hstat, hrcpt, hfind⟩ := hdisp c hc
    refine ⟨status, receipt, hstat, hrcpt, ?_⟩
    rw [hcands, hfind, hbef]
  · intro id hid
    rw [hcands, hoth id hid, hbef]

theorem getLast?_crownEvents
    (ce : CrownEvents winner before after events) : events.getLast? = some ce.transition := by
  refine (congrArg List.getLast? ce.events_eq).trans ?_
  rw [← cons_append, ← append_assoc, getLast?_concat]

/-- Retiring what a crown supersedes leaves the claims of other targets. -/
theorem retire_crownEvents (ce : CrownEvents winner before after plan.events) :
    ∃ t, plan.events.foldl (retireFamily lease) s = s.withStanding t ∧
      ∀ family ≠ (lease.stack.arenaDigest, winner.primary.targetId),
        t.find? family = s.standing.find? family := by
  refine retire_spec fun e he htype => ?_
  rw [ce.events_eq, mem_append, mem_cons, mem_append, mem_singleton] at he
  rcases he with he | rfl | he | rfl
  · rw [ce.hold_type e he] at htype
    exact absurd htype (by decide)
  · exact ce.crown_target
  · exact (ce.consequence_type e he).2
  · rw [ce.transition_type] at htype
    exact absurd htype (by decide)

theorem writePlan_spec
    (hplan : planSettlement lease.candidates lease.stack.manifest lease.stack.treeDigest
      lease.initialEventSequence lease.previousEventDigest lease.lineageTips (some resolve) =
        .ok plan) (h : s.writePlan lease evidence plan block = .ok s') :
    Written lease evidence plan block s s' := by
  have hdist := (planSettlement_cases hplan).1
  simp only [writePlan, bind_ok] at h
  obtain ⟨s₁, h₁, s₂, h₂, h⟩ := h
  obtain ⟨⟨_, hs₂⟩, -⟩ := disposeCandidates_spec hdist.2 h₂
  rcases planSettlement_shape hplan with ⟨hnone, hholds⟩ | ⟨winner, hw, adopted, after, hadm,
    hsome, hman, harena, ⟨ce⟩⟩
  · rw [hnone] at h
    cases h
    rw [retire_of_holds hholds] at h₁
    refine .of_parts (t := s.standing) hdist h₁ h₂ rfl rfl rfl rfl rfl rfl (.inl ⟨hholds, ?_, ?_⟩)
    · have hsame : SameCrowns s s₁ := events_sameCrowns (fun e he => by
        rw [hholds e he]; decide) h₁
      rw [hs₂]
      exact ⟨hsame.standing, hsame.nodes, hsame.tips⟩
    · rw [hs₂]
      exact (events_journaled h₁).1.stacks_eq
  · rw [hsome] at h
    simp only [moveStack, bind_ok, exists_check, get_ok] at h
    obtain ⟨last, hlast, cur, hcur, -, h⟩ := h
    cases h
    obtain ⟨t, ht, hoth⟩ : ∃ t, plan.events.foldl (retireFamily lease) s = s.withStanding t ∧
        _ := retire_crownEvents ce
    rw [ht] at h₁
    rw [getLast?_crownEvents ce, Option.some_inj] at hlast
    subst hlast
    have hframe := (events_journaled h₁).1
    obtain ⟨hcrowned⟩ := commitEvents_crowned ce hw hdist h₁
    have hwarena := (lease.candidates_ok.2 winner hw).1
    have harenas : s₂.core.arenas (movedStack cur ⟨winner.digest, leaseArm lease, after,
        adopted⟩ (K.event ce.transition)).arena = true := by
      show (s₂.evaluationStacks.find? cur.arena).isSome = true
      rw [(find?_eq_some.1 hcur).2, hcur]
      rfl
    refine .of_parts hdist h₁ h₂ (core_withStack_of_arena harenas) rfl rfl rfl rfl rfl
      (.inr ⟨⟨winner,
      ⟨winner.digest, leaseArm lease, after, adopted⟩, cur, ce, hw, hadm, hman, ?_,
      { hcrowned with standing := ?_, nodes := ?_, tips := ?_ }, ?_, ?_⟩⟩)
    · exact harena.elim (fun h => h.trans lease.stack_ok) fun h => h.trans hwarena
    · intro family
      rw [hs₂]
      refine (hcrowned.standing family).trans ?_
      split_ifs with hfamily
      · rfl
      · exact hoth family (hwarena ▸ hfamily)
    · rw [hs₂]
      exact hcrowned.nodes
    · rw [hs₂]
      exact hcrowned.tips
    · rw [hs₂] at hcur
      exact hframe.stacks_eq ▸ hcur
    · rw [hs₂]
      exact congrArg (fun t : Table StackRow.arena => t.put (movedStack cur
        ⟨winner.digest, leaseArm lease, after, adopted⟩ (K.event ce.transition))) hframe.stacks_eq

/-! ### A commit -/

theorem dispositionOf_eq {digest : Digest} (h : dispositionOf events digest = some status) :
    status = .held ∨ status = .crowned := by
  obtain ⟨e, -, rfl⟩ := Option.map_eq_some_iff.1 h
  split_ifs
  · exact .inl rfl
  · exact .inr rfl

theorem candidateStep_of_disposed {row : CandidateRow K} (hrow : row.status = .leased)
    (hstat : status = .held ∨ status = .crowned) :
    CandidateStep { settles := true } row (row.withState (disposedState status receipt row)) where
  kept := rfl
  settled h := by
    rw [hrow] at h
    exact absurd h (by decide)
  crowned h := absurd h (by decide)
  generation := le_rfl
  leased h := by
    have hlease : status = .leased := h
    rcases hstat with rfl | rfl <;> cases hlease
  duplicate h := by
    have hduplicate : status = .duplicateProposal := h
    rcases hstat with rfl | rfl <;> cases hduplicate
  rewarded h := h
  unrewarded _ := rfl

/-- A commit writes the plan that its lease leads to, over a store where nothing the plan was
made on has changed. -/
theorem commitPlan_written (h : s.commitPlan lease evidence plan block resolve = .ok s') :
    ∃ s₁, s₁.ledger = s.ledger ∧ Unchanged lease evidence block s s₁ ∧
      planSettlement lease.candidates lease.stack.manifest lease.stack.treeDigest
        lease.initialEventSequence lease.previousEventDigest lease.lineageTips (some resolve) =
          .ok plan ∧
      Written lease evidence plan block s₁ s' := by
  simp only [commitPlan, bind_ok, exists_check] at h
  obtain ⟨-, expected, hexpect, rfl, s₁, h₁, h⟩ := h
  have hplan := mapError_ok.1 hexpect
  have hkept := requireUnchanged_spec h₁
  have hexp : QueueStep {} s s₁ := expireStaleRows_step hkept.expired
  exact ⟨s₁, hexp.ledger, hkept, hplan, writePlan_spec hplan h⟩

/-- A commit settles leased candidates, and does nothing else. -/
theorem commitPlan_step (h : s.commitPlan lease evidence plan block resolve = .ok s') :
    StoreStep { settles := true } s s' := by
  obtain ⟨s₁, -, hkept, -, hwrote⟩ := commitPlan_written h
  have hexp : QueueStep { settles := true } s s₁ := expireStaleRows_step hkept.expired
  refine (StoreStep.of_queue hexp).trans rfl ?_
  refine
    { toRowsStep := .of_eq hwrote.core (congrArg _ hwrote.queue)
      dispositions := by rw [hwrote.dispositions]
      events := fun h => absurd h (by decide)
      standing := fun h => absurd h (by decide)
      lineages := fun h => absurd h (by decide)
      qualifications := fun _ => hwrote.qualifications
      digests := ?_
      order := by rw [hwrote.order]
      candidate := ?_
      newCandidate := ?_
      stack := fun h => absurd h (by decide)
      newStack := fun h => absurd h (by decide) }
  · intro hd
    rw [distinctDigests_iff] at hd ⊢
    rwa [hwrote.order]
  · intro id row hrow
    by_cases hid : id ∈ lease.candidates.map (·.primary.reservationDigest)
    · obtain ⟨c, hc, rfl⟩ := mem_map.1 hid
      obtain ⟨status, receipt, hstat, -, hfind⟩ := hwrote.disposed c hc
      obtain ⟨row', hrow', hlease, -⟩ := hkept.held c hc
      rw [hrow, Option.some_inj] at hrow'
      rw [hrow, Option.map_some] at hfind
      exact ⟨_, hfind, candidateStep_of_disposed (hrow' ▸ hlease) (dispositionOf_eq hstat)⟩
    · exact ⟨row, (hwrote.others id hid).trans hrow, .refl row⟩
  · intro id row hrow hnone
    by_cases hid : id ∈ lease.candidates.map (·.primary.reservationDigest)
    · obtain ⟨c, hc, rfl⟩ := mem_map.1 hid
      obtain ⟨row', hrow', -⟩ := hkept.held c hc
      exact absurd (hnone.symm.trans hrow') (by simp)
    · rw [hwrote.others id hid, hnone] at hrow
      cases hrow

theorem commitSettlement_step :
    StoreStep { settles := true } s (s.commitSettlement lease evidence plan block resolve).1 := by
  unfold commitSettlement
  split
  · exact .refl s
  · next h => exact commitPlan_step h

end Store

/-- What each operation is permitted. -/
def Op.permit : Op K → Permit
  | .queue op => op.permit
  | .initializeStack .. | .commission .. | .leaseSettlement .. => {}
  | .applyBatch .. => { passes := true }
  | .acceptResult .. => { passes := true, accepts := true }
  | .commitSettlement .. => { settles := true }
  | .backfill => { rebuilds := true }
  | .finalizeRewards => { rewards := true }
  | .restart .. => { passes := true, rewards := true }

/-- **No operation does more than it is permitted.** -/
theorem Store.step_spec (s : Store K) (op : Op K) : StoreStep op.permit s (s.step op) := by
  cases op with
  | queue op => exact .of_queue (s.queueStep_spec op)
  | initializeStack => exact .of_committed fun _ => initializeStack_step
  | commission => exact commissionBoundary_step
  | applyBatch => exact .of_committed fun _ => applyBatch_step
  | acceptResult => exact acceptEvaluationResult_step
  | leaseSettlement => exact leaseSettlementCohort_step
  | commitSettlement => exact commitSettlement_step
  | backfill => exact backfillTips_step
  | finalizeRewards => exact finalizePrefix_step
  | restart => exact restart_step

end Cacheon
