import Cacheon.Intake.Run
import Cacheon.Lib.Records
import Mathlib.Data.List.ReduceOption

/-!
# The law of rewarded records

The walk over the visible PASSes rewards records: within one group of baselines, a PASS is
compared with the best rewarded one before it.

* `PassComparison` : a PASS with its group and how it compares.
* `ComparedAfter` : what a comparison is, in terms of those before it.
* `rewardWalk_law` : the rewards of a whole walk.
-/

namespace Cacheon

open Fallible IntakeFault List RewardSettings Decimal

variable {K : IntakeHashes} {margin : Decimal}

/-- A PASS of the walk, the group it is compared in, the contribution it is for and how it
compares. -/
structure PassComparison (K : IntakeHashes) where
  row : CandidateRow K
  group : RewardGroup
  identity : Digest × String × ContributionRef
  comparison : RewardComparison

namespace PassComparison

/-- The score of a PASS. -/
def score (t : PassComparison K) : ℚ := t.row.candidate.speedup.val.toRat

/-- The best rewarded score that a PASS was compared with. -/
def previous (t : PassComparison K) : ℚ := t.comparison.previousBestSpeedup.toRat

/-- The PASS is rewarded in a group. -/
def rewarded (group : RewardGroup) (t : PassComparison K) : Bool :=
  t.group = group && t.comparison.rewardEligible

end PassComparison

/-- The greatest of one and the rewarded scores of a group. -/
def bestOf (group : RewardGroup) (trace : List (PassComparison K)) : ℚ :=
  Records.best PassComparison.score (PassComparison.rewarded group) 1 trace

/-- The rewarded PASSes of a group that set a record. -/
def recordsOf (group : RewardGroup) (trace : List (PassComparison K)) : List (PassComparison K) :=
  Records.records PassComparison.score (PassComparison.rewarded group) PassComparison.previous trace

/-- The contribution a candidate is rewarded for. -/
def RewardSettings.identity (P : RewardSettings) (c : SettlementCandidate K) :
    Intake (Digest × String × ContributionRef) := do
  let contribution ← Fallible.get (intake "KeyError")
    (c.primary.candidateManifest.entryOf c.primary.targetId)
  let group ← P.group c
  .ok (group.1, c.primary.targetId, contribution)

/-- The score that a margin over a best score asks for, in the arithmetic of the walk. -/
def rewardBar (previous margin : Decimal) : Decimal :=
  previous.mul decimalContext (add decimalContext .one margin)

/-- How a PASS compares with the ones before it. -/
structure ComparedAfter (P : RewardSettings) (s : Store K) (before : List (PassComparison K))
    (t : PassComparison K) : Prop where
  group : P.group t.row.candidate = .ok t.group
  identity : P.identity t.row.candidate = .ok t.identity
  grandfathered : t.comparison.grandfathered = P.exempt t.row.candidate
  previous : t.previous = bestOf t.group before
  relative : t.comparison.relativeSpeedup =
    t.row.candidate.speedup.val.div decimalContext t.comparison.previousBestSpeedup
  exempt : t.comparison.grandfathered = true → t.comparison.rewardEligible = true
  eligible_iff : t.comparison.grandfathered = false → (t.comparison.rewardEligible = true ↔
    t.previous < t.score ∧ ∃ margin, P.margin s t.row.candidate = .ok margin ∧
      (rewardBar t.comparison.previousBestSpeedup margin).toRat ≤ t.score)
  exact : t.comparison.grandfathered = false → ∀ margin, P.margin s t.row.candidate = .ok margin →
    (rewardBar t.comparison.previousBestSpeedup margin).toRat = (1 + margin.toRat) * t.previous →
      (t.comparison.rewardEligible = true ↔ (1 + margin.toRat) * t.previous ≤ t.score)
  unseen : t.comparison.grandfathered = false → ∀ t' ∈ before, t'.identity ≠ t.identity

/-! ### Margins -/

theorem greatest_mem {first : Decimal} {rest : List Decimal} :
    greatest first rest ∈ first :: rest := by
  unfold greatest
  induction rest generalizing first with
  | nil => simp
  | cons d rest ih =>
    rw [foldl_cons]
    split_ifs
    · exact mem_cons_of_mem _ ih
    · have hfirst : greatest first rest ∈ first :: rest := ih
      rcases mem_cons.1 hfirst with h | h
      · exact mem_cons.2 (.inl h)
      · exact mem_cons_of_mem _ (mem_cons_of_mem _ h)

/-- Every margin is positive. -/
theorem rewardMinMargin_pos {policies : List ResidentPolicy}
    (h : rewardMinMargin policies = .ok margin) : 0 < margin.toRat := by
  unfold rewardMinMargin at h
  simp only [bind_ok, exists_check] at h
  obtain ⟨-, h⟩ := h
  split_ifs at h
  · cases h
    norm_num [v17RewardMargin, toRat]
  · simp only [bind_ok, exists_check] at h
    obtain ⟨margins, -, hbounds, h⟩ := h
    split at h
    · cases h
    · next first rest hmargs =>
      cases h
      have hmem : some (greatest first rest) ∈ margins := by
        rw [← reduceOption_mem_iff, hmargs]
        exact greatest_mem
      have hbound := hbounds _ hmem
      simp only [Option.any_some, decide_eq_true_eq, lt_iff] at hbound
      simpa [ofNat, toRat] using hbound.1

/-! ### One PASS -/

/-- The best rewarded score of a group in the walk so far. -/
def RewardWalk.previous (w : RewardWalk) (group : RewardGroup) : Decimal :=
  (w.best.lookup group).elim one (·.1)

section Walk

variable {P : RewardSettings} {s : Store K} {w w' : RewardWalk} {row : CandidateRow K}

/-- A PASS is skipped, or compared with the best of its group. -/
theorem walkRow_spec (h : P.walkRow s w row = .ok w') :
    ∃ group identity, P.group row.candidate = .ok group ∧ P.identity row.candidate = .ok identity ∧
      (w' = w ∧ identity ∈ w.seen ∧ P.exempt row.candidate = false ∨
        (P.exempt row.candidate = false → identity ∉ w.seen) ∧ ∃ margin,
          P.marginOver s (w.previous group) row.candidate = .ok margin ∧
          let comparison := P.compare (w.previous group) ((w.best.lookup group).map (·.2)) margin
            row.candidate
          w' = ⟨if comparison.rewardEligible ∧ w.previous group < row.candidate.speedup.val then
              (group, row.candidate.speedup.val, row.reservationId) :: w.best else w.best,
            identity :: w.seen, w.comparisons ++ [(row.reservationId, comparison)]⟩) := by
  simp only [walkRow, bind_ok, Fallible.get_ok] at h
  obtain ⟨contribution, hcontr, group, hgrp, h⟩ := h
  refine ⟨group, (group.1, row.candidate.primary.targetId, contribution), hgrp, ?_, ?_⟩
  · simp only [identity, bind_ok, Fallible.get_ok]
    exact ⟨contribution, hcontr, group, hgrp, rfl⟩
  · split_ifs at h with hseen
    · cases h
      exact .inl ⟨rfl, hseen⟩
    · simp only [bind_ok] at h
      obtain ⟨margin, hmarg, h⟩ := h
      cases h
      exact .inr ⟨fun hexempt hmem => hseen ⟨hmem, hexempt⟩, margin, hmarg, rfl⟩

/-- The walk over some PASSes, with what it compared. -/
structure Traces (P : RewardSettings) (s : Store K) (rows : List (CandidateRow K))
    (w : RewardWalk) (trace : List (PassComparison K)) : Prop where
  comparisons : w.comparisons = trace.map fun t => (t.row.reservationId, t.comparison)
  seen : ∀ identity, identity ∈ w.seen ↔ ∃ t ∈ trace, t.identity = identity
  best : ∀ group, (w.previous group).toRat = bestOf group trace
  compared : ∀ before t after, trace = before ++ t :: after → ComparedAfter P s before t
  sublist : (trace.map (·.row)).Sublist rows
  skipped : ∀ row ∈ rows, (∃ t ∈ trace, t.row = row) ∨
    P.exempt row.candidate = false ∧ ∃ t ∈ trace, P.identity row.candidate = .ok t.identity

theorem traces_nil : Traces P s [] {} [] where
  comparisons := rfl
  seen := by simp
  best group := by
    show one.toRat = _
    rw [toRat_one]
    rfl
  compared before t after h := by simp at h
  sublist := .refl _
  skipped := by simp

variable {rows : List (CandidateRow K)} {trace : List (PassComparison K)} {t : PassComparison K}

/-- What the next comparison of a walk is. -/
theorem comparedAfter_of_traces (h : Traces P s rows w trace) {previousId : Option Digest}
    (hgrp : P.group t.row.candidate = .ok t.group)
    (hident : P.identity t.row.candidate = .ok t.identity)
    (hmarg : P.marginOver s (w.previous t.group) t.row.candidate = .ok margin)
    (hcomp : t.comparison = P.compare (w.previous t.group) previousId margin t.row.candidate)
    (hunseen : P.exempt t.row.candidate = false → t.identity ∉ w.seen) :
    ComparedAfter P s trace t := by
  have hgrand : t.comparison.grandfathered = P.exempt t.row.candidate := by
    rw [hcomp]
    rfl
  have hprev : t.comparison.previousBestSpeedup = w.previous t.group := by
    rw [hcomp]
    rfl
  have hbest : t.previous = bestOf t.group trace := by
    rw [PassComparison.previous, hprev, h.best]
  have helig (hg : t.comparison.grandfathered = false) :
      t.comparison.rewardEligible = true ↔ t.previous < t.score ∧ ∃ margin,
        P.margin s t.row.candidate = .ok margin ∧
          (rewardBar t.comparison.previousBestSpeedup margin).toRat ≤ t.score := by
    rw [hgrand] at hg
    have hiff : t.comparison.rewardEligible = true ↔
        t.previous < t.score ∧ (rewardBar t.comparison.previousBestSpeedup margin).toRat ≤
          t.score := by
      rw [PassComparison.previous, PassComparison.score, ← lt_iff, ← not_lt, ← lt_iff, hprev, hcomp]
      simp [RewardSettings.compare, hg, rewardBar]
    rw [hiff]
    refine and_congr_right fun hlt => ?_
    rw [PassComparison.previous, PassComparison.score, ← lt_iff, hprev] at hlt
    rw [marginOver, if_pos ⟨hg, hlt⟩] at hmarg
    rw [hmarg]
    constructor
    · exact fun hbar => ⟨margin, rfl, hbar⟩
    · rintro ⟨_, ⟨⟩, hbar⟩
      exact hbar
  refine ⟨hgrp, hident, hgrand, hbest, ?_, ?_, helig, ?_, ?_⟩
  · rw [hcomp]
    rfl
  · intro hg
    rw [hgrand] at hg
    rw [hcomp]
    simp [RewardSettings.compare, hg]
  · intro hg m hm hexact
    have hpos : 1 ≤ t.previous := hbest ▸ Records.floor_le_best
    obtain ⟨_, -, hmin⟩ := bind_ok.1 hm
    have hmpos := rewardMinMargin_pos hmin
    rw [helig hg, hm]
    constructor
    · rintro ⟨-, _, ⟨⟩, hbar⟩
      exact hexact ▸ hbar
    · intro hbar
      refine ⟨?_, m, rfl, hexact.trans_le hbar⟩
      nlinarith
  · intro hg t' ht' heq
    exact hunseen (hgrand ▸ hg) ((h.seen _).2 ⟨t', ht', heq⟩)

/-- The best of a group after a comparison is the best of its trace. -/
theorem best_of_traces (h : Traces P s rows w trace) (t : PassComparison K) (group : RewardGroup)
    (hbest : w'.best = if t.comparison.rewardEligible ∧
        w.previous t.group < t.row.candidate.speedup.val then
      (t.group, t.row.candidate.speedup.val, t.row.reservationId) :: w.best else w.best) :
    (w'.previous group).toRat = bestOf group (trace ++ [t]) := by
  have hsame (hne : ¬(t.rewarded group = true ∧ w.previous t.group < t.row.candidate.speedup.val)) :
      w'.previous group = w.previous group := by
    unfold RewardWalk.previous
    rw [hbest]
    split_ifs with hrec
    · have hgrp : group ≠ t.group := by
        rintro rfl
        exact hne ⟨by simp [PassComparison.rewarded, hrec.1], hrec.2⟩
      rw [lookup_cons, beq_eq_false_iff_ne.2 hgrp]
    · rfl
  rw [bestOf, Records.best_concat, ← bestOf, ← h.best]
  by_cases hrew : t.rewarded group = true
  · have ⟨hgrp, helig⟩ : t.group = group ∧ t.comparison.rewardEligible = true := by
      simpa [PassComparison.rewarded] using hrew
    subst hgrp
    rw [if_pos hrew]
    by_cases hlt : w.previous t.group < t.row.candidate.speedup.val
    · have hnew : w'.previous t.group = t.row.candidate.speedup.val := by
        unfold RewardWalk.previous
        rw [hbest, if_pos ⟨helig, hlt⟩]
        simp
      rw [hnew]
      exact (max_eq_right (lt_iff.1 hlt).le).symm
    · rw [hsame fun hrec => hlt hrec.2]
      rw [lt_iff, not_lt] at hlt
      exact (max_eq_left hlt).symm
  · rw [if_neg hrew, hsame fun hrec => hrew hrec.1]

theorem split_concat {α : Type} {l l₁ l₂ : List α} {a b : α} (h : l ++ [a] = l₁ ++ b :: l₂) :
    l = l₁ ∧ a = b ∨ ∃ l₂', l = l₁ ++ b :: l₂' := by
  rcases eq_nil_or_concat l₂ with rfl | ⟨l₂', c, rfl⟩
  · obtain ⟨hl, ha⟩ := append_inj' h rfl
    exact .inl ⟨hl, singleton_inj.1 ha⟩
  · rw [concat_eq_append, ← cons_append, ← append_assoc] at h
    exact .inr ⟨l₂', (append_inj' h rfl).1⟩

theorem Traces.step (h : Traces P s rows w trace) (hrow : P.walkRow s w row = .ok w') :
    ∃ trace', Traces P s (rows ++ [row]) w' trace' := by
  obtain ⟨group, identity, hgrp, hident, ⟨rfl, hseen, hexempt⟩ |
    ⟨hunseen, margin, hmarg, hw'⟩⟩ := walkRow_spec hrow
  · -- The contribution was compared already.
    refine ⟨trace, h.comparisons, h.seen, h.best, h.compared,
      h.sublist.trans (sublist_append_left _ _),
      forall_mem_append.2 ⟨h.skipped, forall_mem_singleton.2 ?_⟩⟩
    obtain ⟨t, ht, rfl⟩ := (h.seen identity).1 hseen
    exact .inr ⟨hexempt, t, ht, hident⟩
  · let t : PassComparison K := ⟨row, group, identity,
      P.compare (w.previous group) ((w.best.lookup group).map (·.2)) margin row.candidate⟩
    have ht : ComparedAfter P s trace t := comparedAfter_of_traces h hgrp hident hmarg rfl hunseen
    refine ⟨trace ++ [t], ?_, ?_, ?_, ?_, ?_, ?_⟩
    · rw [hw', map_append, ← h.comparisons]
      rfl
    · intro identity'
      rw [hw']
      simp only [mem_cons, h.seen, mem_append, not_mem_nil, or_false]
      constructor
      · rintro (rfl | ⟨t', ht', rfl⟩)
        · exact ⟨t, .inr rfl, rfl⟩
        · exact ⟨t', .inl ht', rfl⟩
      · rintro ⟨t', ht' | rfl, rfl⟩
        · exact .inr ⟨t', ht', rfl⟩
        · exact .inl rfl
    · exact fun g => best_of_traces h t g (by rw [hw'])
    · intro before t' after hsplit
      rcases split_concat hsplit with ⟨rfl, rfl⟩ | ⟨after', hsplit⟩
      · exact ht
      · exact h.compared before t' after' hsplit
    · rw [map_append]
      exact h.sublist.append (.refl _)
    · intro row' hrow'
      rcases mem_append.1 hrow' with hrow' | hrow'
      · rcases h.skipped row' hrow' with ⟨t', ht', heq⟩ | ⟨hexempt, t', ht', heq⟩
        · exact .inl ⟨t', mem_append_left _ ht', heq⟩
        · exact .inr ⟨hexempt, t', mem_append_left _ ht', heq⟩
      · exact .inl ⟨t, by simp, (mem_singleton.1 hrow').symm⟩

theorem traces_of_foldlM
    (h : rows.foldlM (P.walkRow s) {} = .ok w) : ∃ trace, Traces P s rows w trace := by
  induction rows using List.reverseRecOn generalizing w with
  | nil =>
    cases h
    exact ⟨[], traces_nil⟩
  | append_singleton rows row ih =>
    rw [foldlM_append, bind_ok] at h
    obtain ⟨w₁, h₁, h⟩ := h
    obtain ⟨trace, htrace⟩ := ih h₁
    simp only [foldlM_cons, foldlM_nil, bind_ok] at h
    obtain ⟨w₂, h₂, h⟩ := h
    cases h
    exact htrace.step h₂

/-! ### The whole walk -/

/-- Of the PASSes that are not exempt, no two are compared for the same contribution. -/
theorem identities_nodup
    (h : ∀ before t after, trace = before ++ t :: after → ComparedAfter P s before t) :
    ((trace.filter fun t => t.comparison.grandfathered = false).map (·.identity)).Nodup := by
  induction trace using List.reverseRecOn with
  | nil => exact nodup_nil
  | append_singleton trace t ih =>
    have hrest := ih fun before t' after hsplit =>
      h before t' (after ++ [t]) (by rw [hsplit]; simp)
    rw [filter_append, map_append]
    by_cases hg : t.comparison.grandfathered = false
    · refine nodup_append.2 ⟨hrest, by simp [hg], ?_⟩
      intro i hi j hj
      obtain ⟨t', ht', rfl⟩ := mem_map.1 hi
      obtain rfl : j = t.identity := by simpa [hg] using hj
      exact (h trace t [] rfl).unseen hg t' (mem_of_mem_filter ht')
    · simpa [hg] using hrest

/-- **The rewards of a walk.**  The comparisons are of the visible PASSes in arrival order, but
for repeated contributions.  In each group the records rise strictly from one; a PASS that is not
exempt is rewarded if and only if it beats the greatest of one and the rewarded scores before it
and reaches the bar that its margin sets over it; no contribution is rewarded twice; and the gains
of the records multiply to the best score. -/
theorem rewardWalk_law {before : Option ArrivalKey} (h : s.rewardWalk P before = .ok w) :
    ∃ trace : List (PassComparison K),
      w.comparisons = (trace.map fun t => (t.row.reservationId, t.comparison)) ∧
      (trace.map (·.row)).Sublist (s.visibleCandidates before) ∧
      (∀ row ∈ s.visibleCandidates before, (∃ t ∈ trace, t.row = row) ∨
        P.exempt row.candidate = false ∧ ∃ t ∈ trace, P.identity row.candidate = .ok t.identity) ∧
      (∀ before t after, trace = before ++ t :: after → ComparedAfter P s before t) ∧
      ((trace.filter fun t => t.comparison.grandfathered = false).map (·.identity)).Nodup ∧
      ∀ group, (1 :: (recordsOf group trace).map (·.score)).Pairwise (· < ·) ∧
        (∀ best ∈ w.best.lookup group, best.1.toRat = bestOf group trace) ∧
        ((recordsOf group trace).map fun t => t.score / t.previous).prod = bestOf group trace := by
  simp only [Store.rewardWalk, bind_ok] at h
  obtain ⟨-, -, h⟩ := h
  obtain ⟨trace, htrace⟩ := traces_of_foldlM h
  refine ⟨trace, htrace.comparisons, htrace.sublist, htrace.skipped, htrace.compared,
    identities_nodup htrace.compared, fun group => ?_⟩
  have hcompared : Records.Compared PassComparison.score (PassComparison.rewarded group) 1
      PassComparison.previous trace := by
    intro l₁ t l₂ hsplit ht
    simp only [PassComparison.rewarded, Bool.and_eq_true, decide_eq_true_eq] at ht
    rw [(htrace.compared l₁ t l₂ hsplit).previous, ht.1]
    rfl
  refine ⟨hcompared.increasing, ?_, ?_⟩
  · intro best hbest
    have hprev := htrace.best group
    unfold RewardWalk.previous at hprev
    rwa [Option.mem_def.1 hbest] at hprev
  · refine (hcompared.prod_gains one_pos).trans ?_
    rw [div_one]
    rfl

end Walk

/-! ### A sample -/

/-- No exemptions, and evidence that says a statistical policy was used. -/
def sampleRewardSettings : RewardSettings where
  grandfathered := []
  continuations := []
  report _ _ _ := .ok ⟨some 17, .value (.ofNat 0)⟩

/-- A score with as many digits as the arithmetic has. -/
def sampleLongScore : Speedup := ⟨⟨1015000000000000000000000001, -27⟩, by decide⟩

/-- The bar over it, rounded down. -/
def sampleRoundedScore : Speedup := ⟨⟨1030225000000000000000000001, -27⟩, by decide⟩

/-- Two PASSes over the same stack, visible to the rewards. -/
def sampleRewarded : List (Op intakeHashes) :=
  Sample.published ++ Sample.claim 1 [1] ++ Sample.claim 2 [2] ++
  Sample.pass 1 3 [sampleQualification 1 1 1 "alice" "attn" 1 sampleStack sampleLongScore] ++
  Sample.pass 2 3 [sampleQualification 2 2 2 "bob" "attn" 2 sampleStack sampleRoundedScore] ++
  [.finalizeRewards]

def sampleRewardStore : Store intakeHashes := Sample.start.run sampleRewarded

theorem rewardWalk_law_sample :
    ∃ w, sampleRewardStore.rewardWalk sampleRewardSettings none = .ok w ∧
      w.comparisons.length = 2 ∧ ∃ trace : List (PassComparison intakeHashes),
        w.comparisons = (trace.map fun t => (t.row.reservationId, t.comparison)) ∧
        (∀ before t after, trace = before ++ t :: after →
          ComparedAfter sampleRewardSettings sampleRewardStore before t) ∧
        ∀ group, ((recordsOf group trace).map fun t => t.score / t.previous).prod =
          bestOf group trace := by
  have hlen : (sampleRewardStore.rewardWalk sampleRewardSettings none).map
      (·.comparisons.length) = .ok 2 := by decide
  cases hwalk : sampleRewardStore.rewardWalk sampleRewardSettings none with
  | error fault =>
    rw [hwalk] at hlen
    cases hlen
  | ok w =>
    rw [hwalk] at hlen
    obtain ⟨trace, hcomps, -, -, hcompared, -, hgroups⟩ := rewardWalk_law hwalk
    exact ⟨w, rfl, Except.ok.inj hlen, trace, hcomps, hcompared,
      fun group => (hgroups group).2.2⟩

/-- The bar is rounded: the second PASS is rewarded although it falls short of the margin over the
first one. -/
theorem rewardWalk_rounds_bar :
    (sampleRewardStore.visibleCandidates none).map (fun c => (c.reservationId,
        c.candidate.speedup, sampleRewardSettings.margin sampleRewardStore c.candidate)) =
      [(sampleId 1, sampleLongScore, .ok v17RewardMargin),
        (sampleId 2, sampleRoundedScore, .ok v17RewardMargin)] ∧
    (sampleRewardStore.rewardComparisons sampleRewardSettings).map (·.map fun x =>
        (x.1, x.2.previousBestReservationId, x.2.rewardEligible, x.2.grandfathered)) =
      .ok [(sampleId 1, none, true, false), (sampleId 2, some (sampleId 1), true, false)] ∧
    sampleRoundedScore.val.toRat < (1 + v17RewardMargin.toRat) * sampleLongScore.val.toRat := by
  refine ⟨by decide, by decide, ?_⟩
  norm_num [sampleRoundedScore, sampleLongScore, v17RewardMargin, toRat]

end Cacheon
