import Cacheon.Settlement.Plan

/-!
# What a settlement plan does

For every cohort on which `planSettlement` returns: every candidate is disposed of exactly
once, the crown goes to the fastest admitted candidate, the events continue the journal's
hash chain, only the winner's target changes, and the order in which the candidates were
given does not matter.

* `planSettlement_cases` : what the planner can return.
* `ahead_iff` : the selection order is that of a key.
* `disposals_of_plan` : the candidates a plan disposes of, each once.
-/

namespace Cacheon

open Fallible SettlementFault HashChain SettlementCandidate List Keyed Decimal SettlementEvent

variable {H : SettlementHashes} {cs cs' : List (SettlementCandidate H)}
  {current : EvaluationStackManifest} {tree : Digest} {n : ℕ} {p : Option Digest}
  {tips : LineageTips} {treeOf : Option TreeResolver}
  {plan : SettlementPlan}

/-! ### The planner's outcomes -/

/-- No two candidates share a digest or a reservation. -/
def DistinctCandidates (cs : List (SettlementCandidate H)) : Prop :=
  (cs.map digest).Nodup ∧ (cs.map (·.primary.reservationDigest)).Nodup

/-- The contents of a crowning plan's events. -/
def crownedBodies (cs : List (SettlementCandidate H)) (current : EvaluationStackManifest)
    (tree : Digest) (tips : LineageTips) (winner : SettlementCandidate H)
    (replacement : ContributionRef) (adopted : EvaluationStackManifest)
    (after : StackArmIdentity) : List EventBody :=
  let before := planBefore H current tree
  staleBodies before tips cs ++ loserBodies before (admitted before tips cs) winner ++
    crownBodies before after tips winner replacement
      (current.entryOf winner.primary.targetId) adopted

theorem eq_of_make {q : SettlementPlan} (h : SettlementPlan.make H q = .ok plan) : plan = q := by
  simp only [SettlementPlan.make, bind_ok] at h
  obtain ⟨-, -, -, -, -, -, h⟩ := h
  cases h
  rfl

/-- The planner returns without a winner when nobody is admitted, and with the least admitted
candidate in the selection order otherwise. -/
theorem planSettlement_cases (h : planSettlement cs current tree n p tips treeOf = .ok plan) :
    DistinctCandidates cs ∧
    (admitted (planBefore H current tree) tips cs = [] ∧
        plan = ⟨planBefore H current tree, planBefore H current tree, none,
          journalEvents H n p (staleBodies (planBefore H current tree) tips cs), none⟩ ∨
      ∃ winner replacement adopted after,
        minBy Ahead (admitted (planBefore H current tree) tips cs) = some winner ∧
        winner.primary.candidateManifest.entryOf winner.primary.targetId = some replacement ∧
        adoptStack (planBefore H current tree) winner
          (current.withContribution replacement) treeOf = .ok (adopted, after) ∧
        plan = ⟨planBefore H current tree, after, some winner.digest, journalEvents H n p
            (crownedBodies cs current tree tips winner replacement adopted after),
          some ⟨winner.digest, planBefore H current tree, after, adopted⟩⟩) := by
  simp only [planSettlement, bind_ok, check_ok] at h
  obtain ⟨-, -, -, hdist, h⟩ := h
  refine ⟨hdist, ?_⟩
  split at h
  · rename_i hmin
    exact .inl ⟨minBy_eq_none.1 hmin, eq_of_make h⟩
  · rename_i winner hmin
    simp only [bind_ok, get_ok] at h
    obtain ⟨replacement, hrep, ⟨adopted, after⟩, hadopt, transition, htrans, h⟩ := h
    refine .inr ⟨winner, replacement, adopted, after, hmin, hrep, hadopt, ?_⟩
    simp only [StackTransitionOutput.make, bind_ok] at htrans
    obtain ⟨-, -, htrans⟩ := htrans
    cases htrans
    exact eq_of_make h

/-! ### The selection order -/

variable {c d : SettlementCandidate H}

/-- The place of a candidate in the selection order. -/
def selectionKey (c : SettlementCandidate H) : ℚᵒᵈ ×ₗ FinalizedOrder :=
  toLex (OrderDual.toDual c.speedup.toRat, c.finalizedOrder)

theorem selectionKey_lt : selectionKey c < selectionKey d ↔ d.speedup.toRat < c.speedup.toRat ∨
    c.speedup.toRat = d.speedup.toRat ∧ c.finalizedOrder < d.finalizedOrder :=
  Prod.Lex.toLex_lt_toLex

theorem ahead_iff (c d : SettlementCandidate H) : c.Ahead d ↔ selectionKey c < selectionKey d := by
  rw [selectionKey_lt, Ahead, Speedup.neg_lt_iff, Speedup.neg_lt_iff, not_lt]
  rcases lt_trichotomy c.speedup.toRat d.speedup.toRat with h | h | h
  · simp [h.not_gt, h.not_ge, h.ne]
  · simp [h]
  · simp [h]

/-- Distinct reservations have distinct places in the finalized order. -/
theorem DistinctCandidates.eq_of_finalizedOrder (h : DistinctCandidates cs) :
    ∀ c ∈ cs, ∀ d ∈ cs, c.finalizedOrder = d.finalizedOrder → c = d := by
  intro c hc d hd heq
  simp only [SettlementCandidate.finalizedOrder, toLex_inj, Prod.mk.injEq] at heq
  exact inj_on_of_nodup_map h.2 hc hd heq.2.2.2

theorem DistinctCandidates.eq_of_digest (h : DistinctCandidates cs) :
    ∀ c ∈ cs, ∀ d ∈ cs, c.digest = d.digest → c = d := fun _ hc _ hd heq =>
  inj_on_of_nodup_map h.1 hc hd heq

theorem DistinctCandidates.eq_of_selectionKey (h : DistinctCandidates cs) :
    ∀ c ∈ cs, ∀ d ∈ cs, selectionKey c = selectionKey d → c = d := fun c hc d hd heq =>
  h.eq_of_finalizedOrder c hc d hd (Prod.mk.inj (toLex.injective heq)).2

variable {before : StackArmIdentity} {winner : SettlementCandidate H}

/-- The winner is admitted, and every other admitted candidate is slower, or as fast and
later. -/
theorem winner_spec (hd : DistinctCandidates cs)
    (h : minBy Ahead (admitted before tips cs) = some winner) :
    winner ∈ cs ∧ winner.Admitted before tips ∧ ∀ c ∈ cs, c.Admitted before tips → c ≠ winner →
        c.speedup.toRat < winner.speedup.toRat ∨
          c.speedup.toRat = winner.speedup.toRat ∧ winner.finalizedOrder < c.finalizedOrder := by
  have hmem := minBy_mem h
  simp only [admitted, mem_filter, decide_eq_true_eq] at hmem
  refine ⟨hmem.1, hmem.2, fun c hc hadm hne => ?_⟩
  have hle := minBy_le ahead_iff h c (mem_filter.2 ⟨hc, by simpa using hadm⟩)
  have hlt := hle.lt_of_ne fun heq => hne (hd.eq_of_selectionKey winner hmem.1 c hc heq).symm
  exact (selectionKey_lt.1 hlt).imp_right (And.imp_left Eq.symm)

/-! ### The events -/

/-- The event disposes of a candidate. -/
def EventBody.disposes (b : EventBody) : Bool := b.eventType = .hold ∨ b.eventType = .crown

/-- The candidates that events dispose of, in order. -/
def disposals (events : List SettlementEvent) : List Digest :=
  (events.filter (·.toEventBody.disposes)).map (·.candidateDigest)

variable {bodies : List EventBody}

theorem bodies_journalEvents : (journalEvents H n p bodies).map (·.toEventBody) = bodies := by
  unfold journalEvents
  rw [Appender.map_entries_addAll fun _ _ _ => rfl]
  rfl

theorem chained_journalEvents : Chained (links H) n p (journalEvents H n p bodies) := by
  refine (Appender.wellFormed_start.addAll ?_).chained
  intro draft hdraft
  obtain ⟨b, -, rfl⟩ := mem_map.1 hdraft
  exact fun _ _ => ⟨rfl, rfl⟩

variable {events : List SettlementEvent}

/-- The candidates of some of the events are those of some of the contents. -/
theorem filter_journalEvents (f : EventBody → Bool) :
    ((journalEvents H n p bodies).filter (f ·.toEventBody)).map (·.candidateDigest) =
      (bodies.filter f).map (·.candidateDigest) := by
  have hbodies : _ = bodies := bodies_journalEvents (H := H) (n := n) (p := p)
  nth_rewrite 2 [← hbodies]
  rw [filter_map, map_map]
  rfl

theorem disposals_journalEvents : disposals (journalEvents H n p bodies) =
      (bodies.filter (·.disposes)).map (·.candidateDigest) :=
  filter_journalEvents _

variable {reason : SettlementCandidate H → String} {b : EventBody}

theorem eventType_of_hold (hb : b ∈ cs.map fun c => c.hold before (reason c)) :
    b.eventType = .hold := by
  obtain ⟨c, -, rfl⟩ := mem_map.1 hb
  rfl

theorem disposes_map_hold :
    ((cs.map fun c => c.hold before (reason c)).filter (·.disposes)).map (·.candidateDigest) =
      cs.map digest := by
  rw [filter_eq_self.2, map_map]
  · rfl
  · intro b hb
    simp [EventBody.disposes, eventType_of_hold hb]

variable {adopted composed : EvaluationStackManifest} {after : StackArmIdentity}

theorem filter_disposes_crownBodies {r : ContributionRef} {prior : Option ContributionRef} :
    ((crownBodies before after tips winner r prior adopted).filter (·.disposes)).map
      (·.candidateDigest) = [winner.digest] := by
  cases prior <;> rfl

/-- Holding the stale candidates disposes of exactly those that were not admitted. -/
theorem disposals_stale :
    (((staleBodies before tips cs).filter (·.disposes)).map (·.candidateDigest)).Perm
      ((cs.filter fun c => ¬ c.Admitted before tips).map digest) := by
  unfold staleBodies
  rw [disposes_map_hold]
  refine (sortBy_perm.trans (Perm.of_eq (filter_congr fun c _ => ?_))).map _
  cases hl : c.primary.lane
  simp [Admitted, hl]

/-- The losers and the winner are the admitted candidates. -/
theorem disposals_admitted (hd : DistinctCandidates cs) (hw : winner ∈ admitted before tips cs) :
    (((loserBodies before (admitted before tips cs) winner).filter (·.disposes)).map
        (·.candidateDigest) ++ [winner.digest]).Perm ((admitted before tips cs).map digest) := by
  unfold loserBodies
  rw [disposes_map_hold]
  have hnodup : (admitted before tips cs).Nodup := (Nodup.of_map _ hd.1).filter _
  have herase : (admitted before tips cs).filter (· ≠ winner) =
      (admitted before tips cs).erase winner := by
    rw [hnodup.erase_eq_filter]
    refine filter_congr fun c _ => ?_
    rw [Bool.eq_iff_iff]
    simp
  rw [herase]
  refine perm_append_comm.trans ?_
  exact ((sortBy_perm.cons winner).trans (perm_cons_erase hw).symm).map digest

/-- **Every candidate is disposed of exactly once.** -/
theorem disposals_of_plan (h : planSettlement cs current tree n p tips treeOf = .ok plan) :
    (disposals plan.events).Perm (cs.map digest) := by
  obtain ⟨hd, ⟨hnone, rfl⟩ | ⟨winner, r, adopted, after, hmin, -, -, rfl⟩⟩ := planSettlement_cases h
  · rw [disposals_journalEvents]
    refine disposals_stale.trans (Perm.of_eq ?_)
    rw [filter_eq_self.2]
    intro c hc
    simpa using fun hadm => filter_eq_nil_iff.1 hnone c hc (by simpa using hadm)
  · rw [disposals_journalEvents]
    simp only [crownedBodies, filter_append, map_append, filter_disposes_crownBodies, append_assoc]
    have hw := minBy_mem hmin
    refine (disposals_stale.append (disposals_admitted hd hw)).trans ?_
    rw [← map_append]
    refine (perm_append_comm.trans ?_).map digest
    unfold admitted
    simpa using filter_append_perm (fun c => c.Admitted (planBefore H current tree) tips) cs

/-- The candidates that events crown. -/
def crowned (events : List SettlementEvent) : List Digest :=
  (events.filter (·.eventType = .crown)).map (·.candidateDigest)

theorem crowned_journalEvents : crowned (journalEvents H n p bodies) =
      (bodies.filter (·.eventType = .crown)).map (·.candidateDigest) :=
  filter_journalEvents (·.eventType = .crown)

theorem filter_crown_map_hold :
    (cs.map fun c => c.hold before (reason c)).filter (·.eventType = .crown) = [] := by
  refine filter_eq_nil_iff.2 fun b hb => ?_
  simp [eventType_of_hold hb]

section

variable (h : planSettlement cs current tree n p tips treeOf = .ok plan)

include h

/-- A plan crowns its winner and nobody else. -/
theorem crowned_of_plan : crowned plan.events = plan.winnerCandidateDigest.toList := by
  obtain ⟨-, ⟨-, rfl⟩ | ⟨winner, r, adopted, after, -, -, -, rfl⟩⟩ := planSettlement_cases h
  · rw [crowned_journalEvents, staleBodies, filter_crown_map_hold]
    rfl
  · rw [crowned_journalEvents]
    simp only [crownedBodies, staleBodies, loserBodies, filter_append,
      filter_crown_map_hold, nil_append]
    cases current.entryOf winner.primary.targetId <;> rfl

theorem chained_of_plan : Chained (links H) n p plan.events := by
  obtain ⟨-, ⟨-, rfl⟩ | ⟨winner, r, adopted, after, -, -, -, rfl⟩⟩ := planSettlement_cases h <;>
    exact chained_journalEvents

end

/-- The events of a plan that crowns a winner: holds, the crown, what follows from it, and last
the transition of the stack. -/
structure CrownEvents (winner : SettlementCandidate H) (before after : StackArmIdentity)
    (events : List SettlementEvent) where
  holds : List SettlementEvent
  crown : SettlementEvent
  consequences : List SettlementEvent
  transition : SettlementEvent
  events_eq : events = holds ++ crown :: (consequences ++ [transition])
  hold_type : ∀ e ∈ holds, e.eventType = .hold
  crown_type : crown.eventType = .crown
  crown_candidate : crown.candidateDigest = winner.digest
  crown_target : crown.targetId = winner.primary.targetId
  consequence_type : ∀ e ∈ consequences, e.eventType ∈ [.retirement, .adoption] ∧
    e.targetId = winner.primary.targetId
  transition_type : transition.eventType = .stackTransition
  source : transition.source = before
  destination : transition.destination = after

theorem crownEvents_of_bodies {replacement : ContributionRef}
    (hbodies : events.map (·.toEventBody) =
      crownedBodies cs current tree tips winner replacement adopted after) :
    Nonempty (CrownEvents winner (planBefore H current tree) after events) := by
  simp only [crownedBodies, crownBodies, append_assoc, map_eq_append_iff,
    map_eq_cons_iff, map_eq_nil_iff, cons_append, nil_append] at hbodies
  obtain ⟨l₁, l₂, rfl, h₁, l₃, l₄, rfl, h₃, crown, l₅, rfl, hcrown, l₆, l₇, rfl, h₆,
    adoption, l₈, rfl, hadoption, transition, _, rfl, htransition, rfl⟩ := hbodies
  refine ⟨⟨l₁ ++ l₃, crown, l₆ ++ [adoption], transition, ?_, ?_, ?_, ?_, ?_, ?_, ?_, ?_, ?_⟩⟩
  · simp
  · intro e he
    have hbody : e.toEventBody ∈ _ := mem_map_of_mem he
    rw [map_append, h₁, h₃] at hbody
    rcases mem_append.1 hbody with hbody | hbody
    · exact eventType_of_hold hbody
    · exact eventType_of_hold hbody
  · exact congrArg EventBody.eventType hcrown
  · exact congrArg EventBody.candidateDigest hcrown
  · exact congrArg EventBody.targetId hcrown
  · intro e he
    rcases mem_append.1 he with he | he
    · have hmem := h₆ ▸ mem_map_of_mem (f := toEventBody) he
      obtain ⟨prior, -, hbody⟩ := Option.map_eq_some_iff.1 (Option.mem_toList.1 hmem)
      exact ⟨by simp [← hbody], by rw [← hbody]⟩
    · rw [mem_singleton.1 he, hadoption]
      exact ⟨by simp, rfl⟩
  · exact congrArg EventBody.eventType htransition
  · exact congrArg EventBody.source htransition
  · exact congrArg EventBody.destination htransition

/-! ### The adopted stack -/

/-- The manifest digest tells the candidates' own stacks from the stacks composed over the
incumbent. -/
def ManifestCollisionFree (cs : List (SettlementCandidate H))
    (current : EvaluationStackManifest) : Prop :=
  ∀ c ∈ cs, ∀ r, c.primary.candidateManifest.entryOf c.primary.targetId = some r →
    H.manifest c.primary.candidateManifest = H.manifest (current.withContribution r) →
      c.primary.candidateManifest = current.withContribution r

theorem adoptStack_spec (h : adoptStack before winner composed treeOf = .ok (adopted, after)) :
    H.manifest adopted = after.stackDigest ∧
      (adopted = composed ∨ adopted = winner.primary.candidateManifest ∧
        H.manifest winner.primary.candidateManifest = H.manifest composed) := by
  simp only [adoptStack, bind_ok] at h
  obtain ⟨-, -, h⟩ := h
  split_ifs at h with hsame
  · cases h
    have hmanifest := winner.manifests_spec.2.1
    exact ⟨hmanifest, .inr ⟨rfl, hmanifest.trans hsame.symm⟩⟩
  · cases treeOf with
    | none => cases h
    | some resolve =>
      simp only [bind_ok] at h
      obtain ⟨tree, -, h⟩ := h
      cases h
      exact ⟨rfl, .inl rfl⟩

/-- A plan either only holds, or crowns one of its candidates and moves the stack to it. -/
theorem planSettlement_shape (h : planSettlement cs current tree n p tips treeOf = .ok plan) :
    plan.transition = none ∧ (∀ e ∈ plan.events, e.eventType = .hold) ∨
    ∃ winner ∈ cs, ∃ adopted after, winner.Admitted (planBefore H current tree) tips ∧
      plan.transition = some ⟨winner.digest, planBefore H current tree, after, adopted⟩ ∧
      H.manifest adopted = after.stackDigest ∧
      (adopted.arenaDigest = current.arenaDigest ∨
        adopted.arenaDigest = winner.primary.arenaDigest) ∧
      Nonempty (CrownEvents winner (planBefore H current tree) after plan.events) := by
  obtain ⟨hd, ⟨-, rfl⟩ | ⟨winner, r, adopted, after, hmin, -, hadopt, rfl⟩⟩ :=
    planSettlement_cases h
  · refine .inl ⟨rfl, fun e he => ?_⟩
    have hmem := mem_map_of_mem (f := (·.toEventBody)) he
    rw [bodies_journalEvents] at hmem
    exact eventType_of_hold hmem
  · obtain ⟨hw, hadm, -⟩ := winner_spec hd hmin
    refine .inr ⟨winner, hw, adopted, after, hadm, rfl, (adoptStack_spec hadopt).1, ?_, ?_⟩
    · rcases (adoptStack_spec hadopt).2 with rfl | ⟨rfl, -⟩
      · exact .inl rfl
      · exact .inr winner.manifests_spec.2.2.2
    · exact crownEvents_of_bodies bodies_journalEvents

/-! ### The order of the candidates -/

theorem DistinctCandidates.perm (h : cs.Perm cs') (hd : DistinctCandidates cs) :
    DistinctCandidates cs' :=
  ⟨(h.map _).nodup_iff.1 hd.1, (h.map _).nodup_iff.1 hd.2⟩

theorem admitted_perm (h : cs.Perm cs') :
    (admitted before tips cs).Perm (admitted before tips cs') := h.filter _

section

variable (hd : DistinctCandidates cs)

include hd

theorem staleBodies_perm
    (h : cs.Perm cs') : staleBodies before tips cs = staleBodies before tips cs' := by
  unfold staleBodies
  rw [sortBy_eq_of_perm ?_ (h.filter _)]
  intro c hc d hd'
  exact hd.eq_of_finalizedOrder c (mem_of_mem_filter hc) d (mem_of_mem_filter hd')

theorem loserBodies_perm (h : cs.Perm cs') : loserBodies before (admitted before tips cs) winner =
      loserBodies before (admitted before tips cs') winner := by
  unfold loserBodies
  rw [sortBy_eq_of_perm ?_ ((admitted_perm h).filter _)]
  intro c hc d hd'
  exact hd.eq_of_finalizedOrder c (mem_of_mem_filter (mem_of_mem_filter hc)) d
    (mem_of_mem_filter (mem_of_mem_filter hd'))

theorem winner_perm (h : cs.Perm cs') : minBy Ahead (admitted before tips cs) =
      minBy Ahead (admitted before tips cs') := by
  refine minBy_eq_of_perm ahead_iff ?_ (admitted_perm h)
  intro c hc d hd'
  exact hd.eq_of_selectionKey c (mem_of_mem_filter hc) d (mem_of_mem_filter hd')

/-- The planner does not look at the order of the candidates. -/
theorem planSettlement_perm (h : cs.Perm cs') : planSettlement cs current tree n p tips treeOf =
      planSettlement cs' current tree n p tips treeOf := by
  have hd' := hd.perm h
  simp only [planSettlement, check_of (show _ ∧ _ from hd), check_of (show _ ∧ _ from hd'),
    staleBodies_perm hd h, winner_perm hd h, loserBodies_perm hd h]

end

/-- The plan crowns the best admitted candidate and moves the current stack to it: the adopted
manifest is the current one with the entry of the winner's target replaced. -/
structure Adopts (cs : List (SettlementCandidate H)) (current : EvaluationStackManifest)
    (tree : Digest) (tips : LineageTips) (plan : SettlementPlan)
    (winner : SettlementCandidate H) (r : ContributionRef) : Prop where
  admitted : winner.Admitted (planBefore H current tree) tips
  best : ∀ c ∈ cs, c.Admitted (planBefore H current tree) tips → c ≠ winner →
    c.speedup.toRat < winner.speedup.toRat ∨
      c.speedup.toRat = winner.speedup.toRat ∧ winner.finalizedOrder < c.finalizedOrder
  crowned : crowned plan.events = [winner.digest]
  named : plan.winnerCandidateDigest = some winner.digest
  transition : plan.transition = some ⟨winner.digest, planBefore H current tree, plan.after,
    current.withContribution r⟩
  stack : H.manifest (current.withContribution r) = plan.after.stackDigest
  entry : winner.primary.candidateManifest.entryOf winner.primary.targetId = some r
  replaced : (current.withContribution r).entryOf winner.primary.targetId = some r
  others : ∀ target ≠ winner.primary.targetId,
    (current.withContribution r).entryOf target = current.entryOf target

/-- The plan crowns nobody, because nobody is admitted, and the stack stays. -/
structure Holds (cs : List (SettlementCandidate H)) (current : EvaluationStackManifest)
    (tree : Digest) (tips : LineageTips) (plan : SettlementPlan) : Prop where
  admitted : ∀ c ∈ cs, ¬ c.Admitted (planBefore H current tree) tips
  crowned : crowned plan.events = []
  unnamed : plan.winnerCandidateDigest = none
  transition : plan.transition = none
  after : plan.after = planBefore H current tree

/-- A plan is one or the other. -/
theorem holds_or_adopts (hfree : ManifestCollisionFree cs current)
    (h : planSettlement cs current tree n p tips treeOf = .ok plan) :
    Holds cs current tree tips plan ∨
      ∃ winner ∈ cs, ∃ r, Adopts cs current tree tips plan winner r := by
  have hcrown := crowned_of_plan h
  obtain ⟨hd, ⟨hnone, rfl⟩ | ⟨winner, r, adopted, after, hmin, hrep, hadopt, rfl⟩⟩ :=
    planSettlement_cases h
  · refine .inl ⟨fun c hc hadm => ?_, hcrown, rfl, rfl, rfl⟩
    exact absurd (by simpa using hadm) (filter_eq_nil_iff.1 hnone c hc)
  · obtain ⟨hw, hadm, hbest⟩ := winner_spec hd hmin
    obtain ⟨hstack, hadopted⟩ := adoptStack_spec hadopt
    have hman : adopted = current.withContribution r := by
      rcases hadopted with rfl | ⟨rfl, hsame⟩
      · rfl
      · exact hfree winner hw r hrep hsame
    subst hman
    have htgt : r.targetId = winner.primary.targetId := key_of_find? hrep
    refine .inr ⟨winner, hw, r, hadm, hbest, hcrown, rfl, rfl, hstack, hrep, ?_, ?_⟩
    · rw [← htgt, EvaluationStackManifest.entryOf_withContribution_self]
    · intro target hne
      exact find?_put_of_ne (htgt ▸ hne) (EvaluationStackManifest.sorted _)

/-- **The planner.**  On every cohort on which it returns: each candidate with a lane or a
hold reason is disposed of by exactly one HOLD or CROWN and none by two; at most one CROWN
exists; the events continue the given position of the hash chain; either nobody is admitted and
the stack stays, or the admitted candidate of greatest exact speedup, the earlier on ties, is
crowned and the plan moves the current stack to the one with its target replaced; and the order
of the candidates does not matter.  The one assumption is that the manifest digest does not
collide on the stacks this call compares. -/
theorem planSettlement_spec (hfree : ManifestCollisionFree cs current)
    (h : planSettlement cs current tree n p tips treeOf = .ok plan) :
    (∀ c ∈ cs, (c.primary.lane = .registered ∨
        c.holdReason (planBefore H current tree) tips ≠ none) →
      (disposals plan.events).count c.digest = 1) ∧
    (∀ d, (disposals plan.events).count d ≤ 1) ∧
    (crowned plan.events).length ≤ 1 ∧
    Chained (links H) n p plan.events ∧
    plan.before = planBefore H current tree ∧
    (Holds cs current tree tips plan ∨
      ∃ winner ∈ cs, ∃ r, Adopts cs current tree tips plan winner r) ∧
    ∀ cs', cs.Perm cs' → planSettlement cs' current tree n p tips treeOf = .ok plan := by
  have hdisp := disposals_of_plan h
  have hcrown := crowned_of_plan h
  obtain ⟨hd, hcases⟩ := planSettlement_cases h
  have hnodup : (disposals plan.events).Nodup := hdisp.nodup_iff.2 hd.1
  refine ⟨?_, nodup_iff_count_le_one.1 hnodup, ?_, chained_of_plan h, ?_,
    holds_or_adopts hfree h, ?_⟩
  · intro c hc _
    exact count_eq_one_of_mem hnodup (hdisp.mem_iff.2 (mem_map_of_mem hc))
  · rw [hcrown]
    cases plan.winnerCandidateDigest <;> simp
  · rcases hcases with ⟨-, rfl⟩ | ⟨_, _, _, _, -, -, -, rfl⟩ <;> rfl
  · intro cs' hperm
    rw [← planSettlement_perm hd hperm]
    exact h

/-- Two candidates of one target over the empty stack. -/
def sampleCohort : List (SettlementCandidate sampleHashes) :=
  [⟨⟨sampleQualification 1 1 10 "alice" "attn" 1 sampleStack (samplePercent 5 isSpeedup_five),
    none⟩, by decide, by simp, by decide⟩,
    ⟨⟨sampleQualification 2 1 20 "bob" "attn" 2 sampleStack (samplePercent 9 isSpeedup_nine), none⟩,
      by decide, by simp, by decide⟩]

theorem sampleCohort_collisionFree : ManifestCollisionFree sampleCohort sampleStack := by
  intro c hc r hr _
  simp only [sampleCohort, mem_cons, not_mem_nil, or_false] at hc
  rcases hc with rfl | rfl <;> cases hr <;> rfl

/-- A cohort with a winner and a loser: the second candidate is crowned, and its transition puts
its entry on the stack. -/
theorem planSettlement_spec_sample : ∃ plan r, planSettlement sampleCohort sampleStack
      (sampleTree sampleStack) 0 none [] none = .ok plan ∧
    (∀ c ∈ sampleCohort, (disposals plan.events).count c.digest = 1) ∧
    Chained (links sampleHashes) 0 none plan.events ∧
    Adopts sampleCohort sampleStack (sampleTree sampleStack) [] plan sampleCohort[1] r ∧
    plan.transition.map (·.manifest.entries) = some [sampleContribution "attn" 2] := by
  have h : planSettlement sampleCohort sampleStack (sampleTree sampleStack) 0 none [] none =
      .ok _ := rfl
  obtain ⟨hdisp, -, -, hchain, -, hcases, -⟩ := planSettlement_spec sampleCohort_collisionFree h
  obtain hholds | ⟨winner, hw, r, hadopts⟩ := hcases
  · cases hholds.unnamed
  · obtain rfl : winner = sampleCohort[1] := by
      have hdigest := Option.some.inj hadopts.named
      simp only [sampleCohort, mem_cons, not_mem_nil, or_false] at hw
      rcases hw with rfl | rfl
      · exact absurd hdigest (by decide)
      · rfl
    exact ⟨_, r, h, fun c hc => hdisp c hc (.inl (by cases c.primary.lane; rfl)), hchain,
      hadopts, by decide⟩

/-! ### The bar of a lineage -/

/-- The answer about a candidate that has to beat this speedup. -/
def barReason (bar : ℚ) (c : SettlementCandidate H) : Option String :=
  if bar < c.speedup.toRat then none else some "lost_potential"

section Bar

open TargetLineage

variable {c : SettlementCandidate H} {l : TargetLineage}

theorem holdReason_of_onPath (h : l.OnPath c.incumbentArtifact) : c.lineageHoldReason l =
      barReason (composedSpeedup (l.edgesFrom c.incumbentArtifact)).toRat c := by
  unfold lineageHoldReason thresholdFrom edgesFrom barReason
  by_cases htip : c.incumbentArtifact = some l.tip.artifactDigest
  · have hbar : (composedSpeedup []).toRat < c.speedup.toRat :=
      toRat_one.trans_lt c.speedup.one_lt_toRat
    simp only [if_pos htip, if_pos hbar]
  · have hpath : l.pathFrom c.incumbentArtifact ≠ [] := fun hnil =>
      pathFrom_eq_nil.1 hnil (h.resolve_left htip)
    obtain ⟨first, rest, hpath⟩ := exists_cons_of_ne_nil hpath
    simp only [if_neg htip, hpath, lt_iff, Speedup.toRat]

theorem holdReason_of_not_onPath (h : ¬ l.OnPath c.incumbentArtifact) :
    c.lineageHoldReason l = some "stale_incumbent" := by
  obtain ⟨htip, hpath⟩ := not_or.1 h
  simp only [lineageHoldReason, thresholdFrom, if_neg htip, pathFrom_eq_nil.2 hpath]

/-- **The bar of a lineage.**  A candidate measured against an artifact off the path is stale.
Any other one has to beat the product of the winners' speedups from its baseline to the tip, as
decimal arithmetic rounds it; that is the exact product when the coefficients multiply to at
most 28 digits. -/
theorem lineageHoldReason_law (c : SettlementCandidate H) (l : TargetLineage) :
    (c.lineageHoldReason l = some "stale_incumbent" ↔ ¬ l.OnPath c.incumbentArtifact) ∧
    (l.OnPath c.incumbentArtifact → c.lineageHoldReason l =
          barReason (composedSpeedup (l.edgesFrom c.incumbentArtifact)).toRat c ∧
        (((l.edgesFrom c.incumbentArtifact).map (·.winnerSpeedup.val.coeff)).prod < 10 ^ 28 →
          c.lineageHoldReason l =
            barReason (speedupProduct (l.edgesFrom c.incumbentArtifact)) c)) := by
  refine ⟨⟨fun hstale hon => ?_, holdReason_of_not_onPath⟩, fun hon =>
    ⟨holdReason_of_onPath hon, fun hfits => ?_⟩⟩
  · rw [holdReason_of_onPath hon, barReason] at hstale
    split at hstale <;> simp at hstale
  · rw [holdReason_of_onPath hon, composedSpeedup,
      toRat_foldl_mul (d := one) one_pos (by rwa [one, one_mul]),
      toRat_one, one_mul]

/-- Two winners whose exact product, 1.9000000000000000000000000057, has 29 digits. -/
def longLineage : TargetLineage where
  nodes := [⟨.ofNat 1, none, ⟨⟨10 ^ 27 + 3, -27⟩, by decide⟩, .ofNat 3⟩,
    ⟨.ofNat 2, some (.ofNat 1), ⟨⟨19, -1⟩, by decide⟩, .ofNat 4⟩]
  nonempty := cons_ne_nil _ _
  distinct := by decide
  contiguous := by decide

/-- A candidate that beats both winners by the last digit of its speedup. -/
def closeCandidate : SettlementCandidate sampleHashes :=
  ⟨⟨sampleQualification 1 1 10 "alice" "attn" 3 sampleStack
    ⟨⟨19 * 10 ^ 26 + 6, -27⟩, by decide⟩, none⟩, by decide, by simp, by decide⟩

/-- The product is rounded up to the candidate's speedup, which exceeds the exact one. -/
theorem lineageHoldReason_rounds :
    closeCandidate.lineageHoldReason longLineage = some "lost_potential" ∧
      speedupProduct (longLineage.edgesFrom closeCandidate.incumbentArtifact) <
        closeCandidate.speedup.toRat := by
  refine ⟨by decide, ?_⟩
  have hedges : longLineage.edgesFrom closeCandidate.incumbentArtifact = longLineage.nodes := by
    decide
  have hspeed : closeCandidate.speedup = ⟨⟨19 * 10 ^ 26 + 6, -27⟩, by decide⟩ := rfl
  rw [hedges, hspeed]
  norm_num [speedupProduct, longLineage, Speedup.toRat, toRat]

end Bar

end Cacheon
