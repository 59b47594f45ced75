import Cacheon.Intake.PaymentBar
import Cacheon.Intake.Standing

/-!
# Finalized credit

Once the rewards have reported a PASS, others build on the report.  The rewards walk every
visible PASS again on each call, so the report lasts as long as the PASSes ahead of it stay the
same: none that was reported is demoted as a copy, and none is shown that was not.

* `PassesOnce` : a reservation with a candidate is not turned into a PASS again.
* `SameAhead` : the PASSes ahead of a place are the same, as far as they were reported.
* `KeepsCredit` : what an operation must not do to the PASSes ahead of one.
* `rewardComparisons_kept` : then the report on it lasts.
-/

namespace Cacheon

open Fallible IntakeFault List Keyed Table Except RewardSettings

variable {K : IntakeHashes}

namespace Store

variable {s s₁ s' s'' : Store K} {id : Digest} {p : Permit}

/-! ### A PASS is made once -/

/-- What a change leaves of the PASS of a reservation that has a candidate. -/
structure PassKept (s s' : Store K) (id : Digest) : Prop where
  candidate : (s'.candidates.find? id).isSome
  retained : s'.retained id = s.retained id
  row : ∀ r', s'.reservations.find? id = some r' → r'.status = .qualified →
    ∃ r, s.reservations.find? id = some r ∧ r.status = .qualified ∧ r'.decision = r.decision

/-- No reservation with a candidate is turned into a PASS again. -/
def PassesOnce (s s' : Store K) : Prop :=
  ∀ id, (s.candidates.find? id).isSome → PassKept s s' id

theorem PassesOnce.refl (s : Store K) : PassesOnce s s :=
  fun _ h => ⟨h, rfl, fun r hr hq => ⟨r, hr, hq, rfl⟩⟩

theorem PassesOnce.trans (h : PassesOnce s s') (h' : PassesOnce s' s'') : PassesOnce s s'' := by
  intro id hid
  obtain ⟨hcand, hret, hrow⟩ := h id hid
  obtain ⟨hcand', hret', hrow'⟩ := h' id hcand
  refine ⟨hcand', hret'.trans hret, fun r'' hr'' hq'' => ?_⟩
  obtain ⟨r', hr', hq', hd'⟩ := hrow' r'' hr'' hq''
  obtain ⟨r, hr, hq, hd⟩ := hrow r' hr' hq'
  exact ⟨r, hr, hq, hd'.trans hd⟩

theorem StoreStep.isSome_candidate (h : StoreStep p s s')
    (hid : (s.candidates.find? id).isSome) : (s'.candidates.find? id).isSome := by
  obtain ⟨c, hc⟩ := Option.isSome_iff_exists.1 hid
  obtain ⟨c', hc', -⟩ := h.candidate id c hc
  rw [hc']
  rfl

theorem PassesOnce.of_step (hp : p.passes = false) (h : StoreStep p s s') : PassesOnce s s' := by
  intro id hid
  refine ⟨h.isSome_candidate hid, ?_, fun r' hr' hq' => ?_⟩
  · unfold retained
    rw [h.qualifications hp]
  · cases hr : s.reservations.find? id with
    | none => exact absurd hq' ((h.fresh id r' hr' hr).not_pass hp)
    | some r =>
      obtain ⟨r₁, hr₁, hrow⟩ := h.kept id r hr
      rw [hr', Option.some_inj] at hr₁
      subst hr₁
      exact ⟨r, rfl, hrow.no_pass hp hq'⟩

variable {batch : QualificationIntakeBatch K} {o : QualificationIntakeOutcome K} {block : ℕ}

/-- A new candidate is of a reservation without one, and the queue stays. -/
theorem insertCandidate_fresh {q : Qualification K} {root : String}
    (h : s.insertCandidate q root = .ok s') : s'.queue = s.queue ∧
      s'.qualifications = s.qualifications ∧
      s.candidates.find? q.val.reservationDigest = none := by
  obtain ⟨c, t, hfields, -, -, -, ht, rfl⟩ := insertCandidate_spec h
  have hkey : c.reservationId = q.val.reservationDigest :=
    congrArg (·.primary.reservationDigest) hfields
  exact ⟨rfl, rfl, hkey ▸ (rows_of_insert ht).2⟩

variable {root : Option String} {row : IntakeReservation}

/-- The run that is retained is of a reservation without a candidate. -/
theorem retainOutcome_fresh {ref : Option EvidenceArtifactRef} {ev : Option Digest}
    (h : s.retainOutcome batch row o ref ev root block = .ok s')
    (hid : (s.candidates.find? id).isSome) :
    s'.retained id = s.retained id ∧
      (o.settlementQualification.isSome → id ≠ o.reservationDigest) := by
  obtain ⟨hnone, rfl⟩ | ⟨q, _, _, t, -, hsame, -, hret, h⟩ := retainOutcome_cases h
  · exact ⟨rfl, by simp [hnone]⟩
  · obtain ⟨-, hquals, hfresh⟩ := insertCandidate_fresh h
    have hne : id ≠ o.reservationDigest := by
      rintro rfl
      exact absurd (Option.isSome_iff_ne_none.1 hid) (not_not.2 (hsame ▸ hfresh))
    refine ⟨?_, fun _ => hne⟩
    have hid := hret id
    rw [if_neg hne.symm, append_nil] at hid
    rw [← hid, retained, retained, hquals]

theorem applyOutcome_once (hpass : o.decision = .pass → o.settlementQualification.isSome)
    (h : applyOutcome batch block root s o = .ok s') : PassesOnce s s' := by
  intro id hid
  have hcand := (applyOutcome_step h).isSome_candidate hid
  simp only [applyOutcome, bind_ok, exists_check] at h
  obtain ⟨row, hrow, hstat, s₂, h₂, h⟩ := h
  obtain ⟨hret, hother⟩ := retainOutcome_fresh h₂ hid
  have hqueue := (retainOutcome_frame h₂).1
  obtain rfl := updateReservations_eq h
  refine ⟨hcand, hret, fun r' hr' hq' => ?_⟩
  rw [find?_mapReservations, hqueue] at hr'
  by_cases heq : id = o.reservationDigest
  · -- Its outcome is no PASS, or the run would have been retained a second time.
    subst heq
    have hfind := get_iff.1 hrow
    replace hr' := (congrArg (Option.map _) hfind).symm.trans hr'
    rw [Option.map_some, if_pos (find?_eq_some.1 hfind).2, Option.some_inj] at hr'
    subst hr'
    exact absurd hq' (by
      simp only [IntakeReservation.withWork]
      split
      · simp only [retry]
        split_ifs <;> simp
      · simp only [verdict]
        cases hd : o.decision <;> simp_all)
  · exact ⟨r', (map_of_key_ne heq).symm.trans hr', hq', rfl⟩

theorem applyBatch_once
    (h : s.applyQualificationBatch batch block root = .ok s') : PassesOnce s s' := by
  simp only [applyQualificationBatch, bind_ok, exists_check] at h
  obtain ⟨-, hpass, -, h⟩ := h
  exact foldlM_rel .refl (fun _ _ _ h h' => h.trans h')
    (fun _ o _ ho => applyOutcome_once (hpass o ho)) h

theorem acceptEvaluationResult_once {lease : EvaluationLease} {result auth svc : Digest} :
    PassesOnce s (s.acceptEvaluationResult lease block result fun s =>
      s.committed (s.gradeCohort lease block auth svc batch root)).1 := by
  rcases acceptResult_parts rfl with h | ⟨s₁, s₂, h₁, h₂, h₃⟩
  · exact .of_step (p := {}) rfl (.of_queue h)
  · exact ((PassesOnce.of_step rfl (.of_queue h₁)).trans (applyBatch_once h₂)).trans
      (.of_step rfl (.of_queue h₃))

theorem acceptRetainedPass_once (h : s.acceptRetainedPass row = .ok s') : PassesOnce s s' := by
  obtain ⟨item, _, s₁, -, hkey, -, h₁, h₂⟩ := acceptRetainedPass_ok h
  obtain ⟨hqueue, hquals, hfresh⟩ := insertCandidate_fresh h₁
  obtain rfl := updateReservations_eq h₂
  intro id hid
  refine ⟨(insertCandidate_step h₁).isSome_candidate hid, ?_, fun r' hr' hq' => ?_⟩
  · show s₁.qualifications.rows.filter _ = _
    rw [hquals]
    rfl
  · have hne : id ≠ row.reservationId K := by
      rintro rfl
      exact absurd (Option.isSome_iff_ne_none.1 hid) (not_not.2 (hkey ▸ hfresh))
    rw [find?_mapReservations, hqueue] at hr'
    exact ⟨r', (map_of_key_ne hne).symm.trans hr', hq', rfl⟩

theorem acceptPrimaryPasses_once (h : s.acceptRetainedPrimaryPasses = .ok s') : PassesOnce s s' :=
  foldlM_rel .refl (fun _ _ _ h h' => h.trans h') (fun _ _ _ _ => acceptRetainedPass_once) h

/-- Opening a store: the rewards first, and then nothing that makes a PASS twice. -/
theorem restart_once (s : Store K) (policy : IntakePolicy) (recov : Bool) :
    ∃ s₁, StoreStep { passes := true } s₁ (s.restart policy recov).1 ∧
      PassesOnce s₁ (s.restart policy recov).1 ∧
      s₁ = (s.reopen policy recov).finalizeRewardPrefix := by
  refine ⟨_, ?_, ?_, rfl⟩
  · obtain ⟨s₁, h₁, h₂, -⟩ := restart_spec s policy recov
    exact (h₁.weaken (by decide)).trans rfl h₂
  · unfold restart
    simp only
    split
    · exact .refl _
    · next s₁ h₁ =>
      refine (PassesOnce.of_step rfl (interrupted_step h₁)).trans ?_
      exact committed_cases (.refl s₁) fun _ => acceptPrimaryPasses_once

theorem passesOnce_step (s : Store K) (op : Op K) : PassesOnce s (s.step op) := by
  by_cases hp : op.permit.passes = false
  · exact .of_step hp (s.step_spec op)
  · cases op with
    | queue op => exact absurd (passes_queue op) hp
    | applyBatch => exact committed_cases (.refl s) fun _ => applyBatch_once
    | acceptResult => exact acceptEvaluationResult_once
    | restart policy recov =>
      obtain ⟨s₁, -, honce, rfl⟩ := restart_once s policy recov
      have hfirst : StoreStep { rewards := true } s (s.reopen policy recov).finalizeRewardPrefix :=
        reopen_step.trans rfl finalizePrefix_step
      exact (PassesOnce.of_step rfl hfirst).trans honce
    | _ => exact absurd rfl hp

/-! ### What the rewards are shown -/

/-- The place at which the rewards are shown the PASS of a reservation. -/
def shownAt (s : Store K) (id : Digest) : Option ArrivalKey :=
  ((s.candidates.find? id).filter s.visible).bind s.candidateKey

/-- The PASSes that the rewards are shown, with their places. -/
def shown (s : Store K) : List (SettlementCandidate K × ArrivalKey) :=
  s.candidateList.filterMap fun c => (s.shownAt c.primary.reservationDigest).map fun key => (c, key)

theorem mem_candidateList {c : SettlementCandidate K} :
    c ∈ s.candidateList ↔ ∃ row, s.candidates.find? c.primary.reservationDigest = some row ∧
      row.candidate = c := by
  unfold candidateList
  rw [mem_map]
  constructor
  · rintro ⟨row, hrow, rfl⟩
    exact ⟨row, find?_of_mem hrow, rfl⟩
  · rintro ⟨row, hrow, rfl⟩
    exact ⟨row, (find?_eq_some.1 hrow).1, rfl⟩

theorem nodup_candidateList : (s.candidateList.map (·.primary.reservationDigest)).Nodup := by
  unfold candidateList
  rw [map_map]
  exact s.candidates.distinct

theorem shownAt_eq_some {key : ArrivalKey} : s.shownAt id = some key ↔
    ∃ row r, s.candidates.find? id = some row ∧ row.status ≠ .duplicateProposal ∧
      row.rewardEligible = true ∧ s.reservations.find? id = some r ∧
      r.status = .qualified ∧ r.decision = some .pass ∧ r.arrivalKey = key := by
  simp only [shownAt, Option.bind_eq_some_iff, Option.filter_eq_some_iff, visible,
    candidateKey, Bool.and_eq_true, Option.any_eq_true, decide_eq_true_eq, Option.map_eq_some_iff]
  constructor
  · rintro ⟨row, ⟨hrow, ⟨hstat, hrew⟩, r, hr, hq, hd⟩, r', hr', hkey⟩
    obtain rfl : r' = r := Option.mem_unique hr' hr
    obtain ⟨-, hid⟩ := find?_eq_some.1 hrow
    unfold reservationOf at hr
    rw [hid] at hr
    exact ⟨row, r', hrow, hstat, hrew, hr, hq, hd, hkey⟩
  · rintro ⟨row, r, hrow, hstat, hrew, hr, hq, hd, hkey⟩
    obtain ⟨-, hid⟩ := find?_eq_some.1 hrow
    have hof : s.reservationOf row = some r := by
      unfold reservationOf
      rwa [hid]
    exact ⟨row, ⟨hrow, ⟨hstat, hrew⟩, r, hof, hq, hd⟩, r, hof, hkey⟩

/-- The visible candidates are those that are shown, in the order of their places. -/
theorem map_visibleCandidates : (s.visibleCandidates none).map (·.candidate) =
    (sortBy Prod.snd s.shown).map Prod.fst := by
  let joined : List (CandidateRow K × ArrivalKey) :=
    (s.candidates.rows.filter s.visible).filterMap fun c =>
      (s.candidateKey c).map fun key => (c, key)
  let plain (pass : CandidateRow K × ArrivalKey) := (pass.1.candidate, pass.2)
  have hshown : s.shown = joined.map plain := by
    unfold shown candidateList
    rw [filterMap_map, map_filterMap, filterMap_filter]
    refine filterMap_congr fun row hrow => ?_
    simp only [Function.comp_apply, shownAt]
    rw [show s.candidates.find? row.candidate.primary.reservationDigest = some row from
      find?_of_mem hrow, Option.filter_some]
    split_ifs
    · rw [Option.bind_some, Option.map_map]
      rfl
    · rfl
  have hsort : (sortBy Prod.snd joined).map plain =
      sortBy Prod.snd (joined.map plain) := map_sortBy fun _ => rfl
  rw [hshown, ← hsort, map_map]
  unfold visibleCandidates
  simp only [Option.all_none, filter_true, map_map]
  rfl

end Store

/-! ### The walk over the PASSes of one arena -/

section Walk

variable {P : RewardSettings} {s s' : Store K} {w w' v : RewardWalk} {arena : Digest}
  {c : SettlementCandidate K}
  {cs : List (SettlementCandidate K)}

namespace RewardSettings

/-- The arena of the group that a candidate is compared in. -/
def arenaOf (P : RewardSettings) (c : SettlementCandidate K) : Option Digest :=
  (P.group c).toOption.map Prod.fst

/-- Take the PASS of a candidate into the walk, which reads nothing else of its row. -/
def walkPass (P : RewardSettings) (s : Store K) (w : RewardWalk)
    (c : SettlementCandidate K) : Intake RewardWalk :=
  P.walkRow s w
    { candidate := c, authorityDigest := c.primary.qualificationAuthorityDigest,
      evidenceRoot := "" }

end RewardSettings

/-- The walk compares some of the PASSes, in their order. -/
theorem comparisons_of_walk (h : cs.foldlM (P.walkPass s) w = .ok w') :
    ∃ more, w'.comparisons = w.comparisons ++ more ∧
      (more.map Prod.fst).Sublist (cs.map (·.primary.reservationDigest)) := by
  obtain ⟨more, hmore, hsub⟩ := comparisons_grow (foldlM_map.trans h)
  rw [map_map] at hsub
  exact ⟨more, hmore, hsub⟩

/-- A PASS that is not compared in the end was skipped, so the walk does without it. -/
theorem walk_filter {keep : SettlementCandidate K → Bool}
    (h : cs.foldlM (P.walkPass s) w = .ok w') (hskipped : ∀ c ∈ cs, keep c = false →
      c.primary.reservationDigest ∉ w'.comparisons.map Prod.fst) :
    (cs.filter keep).foldlM (P.walkPass s) w = .ok w' := by
  induction cs generalizing w with
  | nil => exact h
  | cons c cs ih =>
    simp only [foldlM_cons, bind_ok] at h
    obtain ⟨w₁, h₁, h⟩ := h
    have hrest := ih h fun c hc => hskipped c (mem_cons_of_mem _ hc)
    by_cases hkeep : keep c = true
    · rw [filter_cons_of_pos hkeep, foldlM_cons, h₁]
      exact hrest
    · rw [filter_cons_of_neg hkeep]
      obtain ⟨_, _, -, -, ⟨rfl, -⟩ | ⟨-, margin, -, hw₁⟩⟩ := walkRow_spec h₁
      · exact hrest
      · obtain ⟨more, hmore, -⟩ := comparisons_of_walk h
        refine absurd ?_ (hskipped c (by simp) (by simpa using hkeep))
        rw [hmore, hw₁]
        simp [CandidateRow.reservationId]

/-- The walk reads the retained runs of its PASSes alone. -/
theorem walk_congr (h : ∀ c ∈ cs, s'.retained c.primary.reservationDigest =
    s.retained c.primary.reservationDigest) :
    cs.foldlM (P.walkPass s') w = cs.foldlM (P.walkPass s) w := by
  induction cs generalizing w with
  | nil => rfl
  | cons c cs ih =>
    have hmarg (prev : Decimal) : P.marginOver s' prev c = P.marginOver s prev c := by
      unfold marginOver margin rewardReports
      rw [h c (by simp)]
    have hstep : P.walkPass s' w c = P.walkPass s w c := by
      simp only [walkPass, walkRow, hmarg]
    rw [foldlM_cons, foldlM_cons, hstep]
    cases P.walkPass s w c with
    | error fault => rfl
    | ok w₁ => exact ih fun c hc => h c (mem_cons_of_mem _ hc)

/-- The part of a walk that is in one arena. -/
structure Narrows (P : RewardSettings) (arena : Digest)
    (cs : List (SettlementCandidate K)) (w v : RewardWalk) : Prop where
  best : ∀ group : RewardGroup, group.1 = arena → v.best.lookup group = w.best.lookup group
  seen : ∀ identity : Digest × String × ContributionRef, identity.1 = arena →
    (identity ∈ v.seen ↔ identity ∈ w.seen)
  within : ∀ entry ∈ v.comparisons, entry ∈ w.comparisons
  others : ∀ entry ∈ w.comparisons, entry ∈ v.comparisons ∨
    ∃ c ∈ cs, P.arenaOf c ≠ some arena ∧ c.primary.reservationDigest = entry.1

theorem Narrows.step_in (h : Narrows P arena cs w v) (hc : P.arenaOf c = some arena)
    (hstep : P.walkPass s w c = .ok w') :
    ∃ v', P.walkPass s v c = .ok v' ∧ Narrows P arena cs w' v' := by
  simp only [walkPass, walkRow, bind_ok, get_ok] at hstep ⊢
  obtain ⟨contr, hcontr, group, hgrp, hstep⟩ := hstep
  have harena : group.1 = arena := by
    simpa [RewardSettings.arenaOf, hgrp, Except.toOption] using hc
  have hbest := h.best group harena
  have hseen := h.seen (group.1, c.primary.targetId, contr) harena
  split_ifs at hstep with hskip
  · cases hstep
    exact ⟨v, ⟨contr, hcontr, group, hgrp, if_pos ⟨hseen.2 hskip.1, hskip.2⟩⟩, h⟩
  · simp only [bind_ok] at hstep
    obtain ⟨margin, hmarg, hstep⟩ := hstep
    cases hstep
    let previous := (w.best.lookup group).elim Decimal.one (·.1)
    let comparison := P.compare previous ((w.best.lookup group).map (·.2)) margin c
    refine ⟨⟨if comparison.rewardEligible ∧ previous < c.speedup.val then
        (group, c.speedup.val, c.primary.reservationDigest) :: v.best else v.best,
      (group.1, c.primary.targetId, contr) :: v.seen,
      v.comparisons ++ [(c.primary.reservationDigest, comparison)]⟩,
      ⟨contr, hcontr, group, hgrp, ?_⟩, ?_⟩
    · rw [if_neg (fun hv => hskip ⟨hseen.1 hv.1, hv.2⟩), hbest, hmarg]
      rfl
    · refine ⟨fun other hother => ?_, fun ident hident => ?_, fun entry hentry => ?_,
        fun entry hentry => ?_⟩
      · split_ifs
        · simp only [lookup_cons, h.best other hother]
          rfl
        · exact h.best other hother
      · simp only [mem_cons, h.seen ident hident]
      · rcases mem_append.1 hentry with hentry | hentry
        · exact mem_append_left _ (h.within entry hentry)
        · exact mem_append_right _ hentry
      · rcases mem_append.1 hentry with hentry | hentry
        · exact (h.others entry hentry).imp_left (mem_append_left _)
        · exact .inl (mem_append_right _ hentry)

theorem Narrows.step_out (h : Narrows P arena cs w v) (hmem : c ∈ cs)
    (hc : P.arenaOf c ≠ some arena) (hstep : P.walkPass s w c = .ok w') :
    Narrows P arena cs w' v := by
  simp only [walkPass, walkRow, bind_ok, get_ok] at hstep
  obtain ⟨contr, hcontr, group, hgrp, hstep⟩ := hstep
  have harena : group.1 ≠ arena := by
    simpa [RewardSettings.arenaOf, hgrp, Except.toOption] using hc
  split_ifs at hstep with hskip
  · cases hstep
    exact h
  · simp only [bind_ok] at hstep
    obtain ⟨margin, hmarg, hstep⟩ := hstep
    cases hstep
    refine ⟨fun other hother => ?_, fun ident hident => ?_, fun entry hentry => ?_,
      fun entry hentry => ?_⟩
    · have hne : (other == group) = false := by
        rw [beq_eq_false_iff_ne]
        rintro rfl
        exact harena hother
      split_ifs
      · simp only [lookup_cons, hne, h.best other hother]
      · exact h.best other hother
    · rw [h.seen ident hident, mem_cons, or_iff_right]
      rintro rfl
      exact harena hident
    · exact mem_append_left _ (h.within entry hentry)
    · rcases mem_append.1 hentry with hentry | hentry
      · exact h.others entry hentry
      · rw [mem_singleton.1 hentry]
        exact .inr ⟨c, hmem, hc, rfl⟩

/-- The PASSes of one arena are compared as if there were no others. -/
theorem narrows_of_walk {all : List (SettlementCandidate K)}
    (hall : ∀ c ∈ cs, c ∈ all) (hv : Narrows P arena all w v)
    (h : cs.foldlM (P.walkPass s) w = .ok w') :
    ∃ v', (cs.filter fun c => P.arenaOf c = some arena).foldlM (P.walkPass s) v = .ok v' ∧
      Narrows P arena all w' v' := by
  induction cs generalizing w v with
  | nil =>
    cases h
    exact ⟨v, rfl, hv⟩
  | cons c cs ih =>
    simp only [foldlM_cons, bind_ok] at h
    obtain ⟨w₁, h₁, h⟩ := h
    have hrest : ∀ c ∈ cs, c ∈ all := fun c hc => hall c (mem_cons_of_mem _ hc)
    by_cases hc : P.arenaOf c = some arena
    · obtain ⟨v₁, hv₁, hnarrows⟩ := hv.step_in hc h₁
      obtain ⟨v', hv', hnarrows'⟩ := ih hrest hnarrows h
      refine ⟨v', ?_, hnarrows'⟩
      rw [filter_cons_of_pos (by simpa using hc), foldlM_cons, hv₁]
      exact hv'
    · obtain ⟨v', hv', hnarrows'⟩ := ih hrest (hv.step_out (hall c (by simp)) hc h₁) h
      refine ⟨v', ?_, hnarrows'⟩
      rwa [filter_cons_of_neg (by simpa using hc)]

end Walk

/-! ### The PASSes ahead of a place -/

namespace Store

variable {P : RewardSettings} {s s' s'' : Store K} {arena : Digest} {place : ArrivalKey}
  {reported : List Digest} {v w : RewardWalk} {c : SettlementCandidate K}

/-- A PASS of one arena that arrived no later than a place. -/
def ahead (P : RewardSettings) (arena : Digest) (place : ArrivalKey)
    (pass : SettlementCandidate K × ArrivalKey) : Bool :=
  P.arenaOf pass.1 = some arena && decide (pass.2 ≤ place)

/-- The PASSes of one arena that the rewards are shown up to a place, in order. -/
def passesAhead (s : Store K) (P : RewardSettings) (arena : Digest) (place : ArrivalKey) :
    List (SettlementCandidate K) :=
  ((sortBy Prod.snd s.shown).filter (ahead P arena place)).map Prod.fst

theorem mem_shown {pass : SettlementCandidate K × ArrivalKey} :
    pass ∈ s.shown ↔ pass.1 ∈ s.candidateList ∧
      s.shownAt pass.1.primary.reservationDigest = some pass.2 := by
  simp only [shown, mem_filterMap, Option.map_eq_some_iff]
  constructor
  · rintro ⟨c, hc, key, hkey, rfl⟩
    exact ⟨hc, hkey⟩
  · rintro ⟨hc, hkey⟩
    exact ⟨pass.1, hc, pass.2, hkey, rfl⟩

theorem nodup_shown : (s.shown.map ((·.primary.reservationDigest) ∘ Prod.fst)).Nodup := by
  have hids : s.shown.map ((·.primary.reservationDigest) ∘ Prod.fst) =
      (s.candidateList.filter fun c => (s.shownAt c.primary.reservationDigest).isSome).map
        (·.primary.reservationDigest) := by
    unfold shown
    rw [map_filterMap, ← filterMap_eq_map, filterMap_filter]
    refine filterMap_congr fun c _ => ?_
    cases s.shownAt c.primary.reservationDigest <;> rfl
  rw [hids]
  exact nodup_candidateList.sublist (filter_sublist.map _)

theorem mem_passesAhead (h : c ∈ s.passesAhead P arena place) : c ∈ s.candidateList ∧ ∃ key,
      s.shownAt c.primary.reservationDigest = some key ∧ ahead P arena place (c, key) = true := by
  obtain ⟨pass, hpass, rfl⟩ := mem_map.1 h
  obtain ⟨hmem, hahead⟩ := mem_filter.1 hpass
  obtain ⟨hc, hkey⟩ := mem_shown.1 (mem_sortBy.1 hmem)
  exact ⟨hc, pass.2, hkey, hahead⟩

/-- The walk of the rewards is over the PASSes that are shown. -/
theorem walk_shown (h : s.rewardWalk P none = .ok w) :
    ((sortBy Prod.snd s.shown).map Prod.fst).foldlM (P.walkPass s) {} = .ok w := by
  simp only [rewardWalk, bind_ok] at h
  obtain ⟨-, -, h⟩ := h
  rw [← map_visibleCandidates, foldlM_map]
  exact h

theorem eq_of_mem_candidates {d : SettlementCandidate K}
    (hc : c ∈ s.candidateList) (hd : d ∈ s.candidateList)
    (h : c.primary.reservationDigest = d.primary.reservationDigest) : c = d :=
  inj_on_of_nodup_map nodup_candidateList hc hd h

variable (arena place) in
/-- A whole walk compares the PASSes ahead of a place as the walk over them alone does. -/
theorem walk_passesAhead (h : s.rewardWalk P none = .ok w) :
    ∃ v, (s.passesAhead P arena place).foldlM (P.walkPass s) {} = .ok v ∧
      (∀ entry ∈ v.comparisons, entry ∈ w.comparisons) ∧
      ∀ entry ∈ w.comparisons, ∀ c ∈ s.candidateList, c.primary.reservationDigest = entry.1 →
        ∀ key, s.shownAt entry.1 = some key → ahead P arena place (c, key) = true →
          entry ∈ v.comparisons := by
  let before (pass : SettlementCandidate K × ArrivalKey) : Bool :=
    decide (pass.2 ≤ place)
  have hwalk := walk_shown h
  have hsorted : (sortBy Prod.snd s.shown).Pairwise (·.2 ≤ ·.2) := sortBy_sorted
  have hsplit := eq_filter_append_of_mono (p := before) hsorted
    (fun a b hab hb => by simpa [before] using hab.trans (by simpa [before] using hb))
  rw [hsplit, map_append, foldlM_append] at hwalk
  simp only [bind_ok] at hwalk
  obtain ⟨w₁, h₁, h₂⟩ := hwalk
  obtain ⟨more, hmore, hrest⟩ := comparisons_of_walk h₂
  have hstart : Narrows P arena (((sortBy Prod.snd s.shown).filter before).map Prod.fst) {} {} :=
    ⟨fun _ _ => rfl, fun _ _ => .rfl, fun _ h => h, fun _ h => .inl h⟩
  obtain ⟨v, hv, hnarrows⟩ := narrows_of_walk (fun _ h => h) hstart h₁
  have hlist : (((sortBy Prod.snd s.shown).filter before).map Prod.fst).filter
      (fun c => P.arenaOf c = some arena) = s.passesAhead P arena place := by
    rw [filter_map, filter_filter]
    rfl
  rw [hlist] at hv
  refine ⟨v, hv, fun entry hentry => ?_, fun entry hentry c hc hid key hkey hahead => ?_⟩
  · rw [hmore]
    exact mem_append_left _ (hnarrows.within entry hentry)
  · rw [hmore] at hentry
    rcases mem_append.1 hentry with hentry | hentry
    · rcases hnarrows.others entry hentry with hentry | ⟨d, hd, hother, hdid⟩
      · exact hentry
      · obtain ⟨pass, hpass, rfl⟩ := mem_map.1 hd
        have hmem := mem_shown.1 (mem_sortBy.1 (mem_of_mem_filter hpass))
        obtain rfl := eq_of_mem_candidates hc hmem.1 (hid.trans hdid.symm)
        simp only [ahead, Bool.and_eq_true, decide_eq_true_eq] at hahead
        exact absurd hahead.1 hother
    · -- A PASS after the place is shown at a later key.
      have hid' := hrest.subset (mem_map_of_mem hentry)
      rw [map_map] at hid'
      obtain ⟨pass, hpass, hpassid⟩ := mem_map.1 hid'
      obtain ⟨hmem, hlate⟩ := mem_filter.1 hpass
      have hshown := (mem_shown.1 (mem_sortBy.1 hmem)).2
      rw [show pass.1.primary.reservationDigest = entry.1 from hpassid, hkey,
        Option.some_inj] at hshown
      simp only [ahead, hshown, Bool.and_eq_true, decide_eq_true_eq] at hahead
      simp [before, hahead.2] at hlate

/-- The PASSes ahead of a place are the same, as far as they were reported. -/
structure SameAhead (P : RewardSettings) (arena : Digest) (place : ArrivalKey)
    (reported : List Digest) (s s' : Store K) : Prop where
  order : s.candidateList <+: s'.candidateList
  retained : ∀ c ∈ s.candidateList, s'.retained c.primary.reservationDigest =
    s.retained c.primary.reservationDigest
  key : ∀ id k k', s.shownAt id = some k → s'.shownAt id = some k' → k' = k
  back : ∀ c ∈ s'.candidateList, ∀ k, s'.shownAt c.primary.reservationDigest = some k →
    ahead P arena place (c, k) = true → s.shownAt c.primary.reservationDigest = some k
  forth : ∀ c ∈ s.candidateList, ∀ k, s.shownAt c.primary.reservationDigest = some k →
    ahead P arena place (c, k) = true → c.primary.reservationDigest ∈ reported →
      s'.shownAt c.primary.reservationDigest = some k

/-- What is shown ahead of a place afterwards is what was shown and still is. -/
theorem SameAhead.passesAhead_eq (h : SameAhead P arena place reported s s') :
    s'.passesAhead P arena place = (s.passesAhead P arena place).filter fun c =>
      (s'.shownAt c.primary.reservationDigest).isSome := by
  obtain ⟨new, hnew⟩ := h.order
  let still (pass : SettlementCandidate K × ArrivalKey) : Bool :=
    (s'.shownAt pass.1.primary.reservationDigest).isSome
  have hadded : (new.filterMap fun c => (s'.shownAt c.primary.reservationDigest).map
      fun key => (c, key)).filter (ahead P arena place) = [] := by
    refine filter_eq_nil_iff.2 fun pass hpass hahead => ?_
    obtain ⟨c, hc, hkey⟩ := mem_filterMap.1 hpass
    obtain ⟨k, hk, rfl⟩ := Option.map_eq_some_iff.1 hkey
    have hmem : c ∈ s'.candidateList := hnew ▸ mem_append_right _ hc
    obtain ⟨row, -, hrow, -⟩ := shownAt_eq_some.1 (h.back c hmem k hk hahead)
    -- The reservation has a candidate already, so it gets no new one.
    have hold : row.candidate ∈ s.candidateList := mem_map_of_mem (find?_eq_some.1 hrow).1
    have hnodup := nodup_candidateList (s := s')
    rw [← hnew, map_append, nodup_append] at hnodup
    exact hnodup.2.2 _ (mem_map_of_mem hold) _ (mem_map_of_mem hc) (find?_eq_some.1 hrow).2
  have hkept : s'.shown.filter (ahead P arena place) =
      (s.shown.filter (ahead P arena place)).filter still := by
    unfold shown
    rw [← hnew, filterMap_append, filter_append, hadded, append_nil,
      filter_filterMap, filter_filterMap, filter_filterMap]
    refine filterMap_congr fun c hc => ?_
    cases hk' : s'.shownAt c.primary.reservationDigest with
    | none =>
      have hgone (k : ArrivalKey) : still (c, k) = false := by simp [still, hk']
      cases s.shownAt c.primary.reservationDigest with
      | none => rfl
      | some k => cases hahead : ahead P arena place (c, k) <;> simp [Option.filter, hahead, hgone]
    | some k' =>
      have hmem : c ∈ s'.candidateList := hnew ▸ mem_append_left _ hc
      cases hahead : ahead P arena place (c, k') with
      | true => simp [h.back c hmem k' hk' hahead, Option.filter, hahead, still, hk']
      | false =>
        cases hk : s.shownAt c.primary.reservationDigest with
        | none => simp [Option.filter, hahead]
        | some k => simp [Option.filter, ← h.key _ k k' hk hk', hahead]
  unfold passesAhead
  rw [filter_sortBy, hkept, ← filter_sortBy, ← filter_sortBy, filter_map]
  rfl

/-- So the walk over them comes to the same comparisons. -/
theorem SameAhead.walk (h : SameAhead P arena place reported s s')
    (hreported : ∀ entry ∈ v.comparisons, entry.1 ∈ reported)
    (hv : (s.passesAhead P arena place).foldlM (P.walkPass s) {} = .ok v) :
    (s'.passesAhead P arena place).foldlM (P.walkPass s') {} = .ok v := by
  rw [h.passesAhead_eq, walk_congr (s := s)]
  · refine walk_filter hv fun c hc hdropped hmem => ?_
    obtain ⟨hlist, k, hk, hahead⟩ := mem_passesAhead hc
    obtain ⟨entry, hentry, hid⟩ := mem_map.1 hmem
    have hshown := h.forth c hlist k hk hahead (hid ▸ hreported entry hentry)
    rw [hshown] at hdropped
    cases hdropped
  · intro c hc
    exact h.retained c (mem_passesAhead (mem_of_mem_filter hc)).1

/-! ### Steps -/

variable {p : Permit} {k : ArrivalKey} {id : Digest}

theorem StoreStep.key_eq (h : StoreStep p s s') {k' : ArrivalKey} (hk : s.shownAt id = some k)
    (hk' : s'.shownAt id = some k') : k' = k := by
  obtain ⟨-, r, -, -, -, hr, -, -, rfl⟩ := shownAt_eq_some.1 hk
  obtain ⟨-, r', -, -, -, hr', -, -, rfl⟩ := shownAt_eq_some.1 hk'
  obtain ⟨r₁, hr₁, hrow⟩ := h.kept id r hr
  obtain rfl : r₁ = r' := Option.mem_unique hr₁ hr'
  rw [hrow.arrival]

/-- A PASS that is shown was a PASS before, unless the rewards were not shown it. -/
theorem shownAt_back (h : StoreStep p s s') (honce : PassesOnce s s') {row : CandidateRow K}
    (hrow : s.candidates.find? id = some row) (hrew : row.rewardEligible = true)
    (hk : s'.shownAt id = some k) : s.shownAt id = some k := by
  obtain ⟨row', r', hrow', hstat, -, hr', hq', hd', rfl⟩ := shownAt_eq_some.1 hk
  obtain ⟨row₁, hrow₁, hstep⟩ := h.candidate id row hrow
  obtain rfl : row₁ = row' := Option.mem_unique hrow₁ hrow'
  obtain ⟨r, hr, hq, hd⟩ := (honce id (by rw [hrow]; rfl)).row r' hr' hq'
  obtain ⟨r₁, hr₁, hkept⟩ := h.kept id r hr
  obtain rfl : r₁ = r' := Option.mem_unique hr₁ hr'
  refine shownAt_eq_some.2 ⟨row, r, hrow, fun hdup => hstat ?_, hrew, hr, hq,
    hd ▸ hd', by rw [hkept.arrival]⟩
  rw [(hstep.settled (by rw [hdup]; decide)).1, hdup]

/-- A change that shows nothing to the rewards, and leaves the reported PASSes ahead. -/
theorem SameAhead.of_step (hp : p.rewards = false) (h : StoreStep p s s')
    (honce : PassesOnce s s') (hkept : ∀ c ∈ s.candidateList, ∀ k,
      s.shownAt c.primary.reservationDigest = some k → ahead P arena place (c, k) = true →
      c.primary.reservationDigest ∈ reported → ∀ r,
        s.reservations.find? c.primary.reservationDigest = some r → ∃ r',
          s'.reservations.find? c.primary.reservationDigest = some r' ∧
            r'.status = r.status ∧ r'.decision = r.decision) :
    SameAhead P arena place reported s s' where
  order := h.order
  retained c hc := by
    obtain ⟨row, hrow, -⟩ := mem_candidateList.1 hc
    exact (honce _ (by rw [hrow]; rfl)).retained
  key _ _ _ := h.key_eq
  back c hc k hk _ := by
    obtain ⟨row', -, hrow', -, hrew, -⟩ := shownAt_eq_some.1 hk
    rcases h.candidateBack hrow' with ⟨row, hrow, hstep⟩ | hnone
    · exact shownAt_back h honce hrow ((hstep.unrewarded hp).symm.trans hrew) hk
    · rw [(h.newCandidate _ row' hrow' hnone).2.2 hp] at hrew
      cases hrew
  forth c hc k hk hahead hreported := by
    obtain ⟨row, r, hrow, hstat, hrew, hr, hq, hd, rfl⟩ := shownAt_eq_some.1 hk
    obtain ⟨row', hrow', hstep⟩ := h.candidate _ row hrow
    obtain ⟨r', hr', hq', hd'⟩ := hkept c hc _ hk hahead hreported r hr
    obtain ⟨r₁, hr₁, hkeptRow⟩ := h.kept _ r hr
    obtain rfl : r₁ = r' := Option.mem_unique hr₁ hr'
    exact shownAt_eq_some.2 ⟨row', r₁, hrow', fun hdup => hstat (hstep.duplicate hdup),
      hstep.rewarded hrew, hr', hq'.trans hq, hd'.trans hd, by rw [hkeptRow.arrival]⟩

theorem SameAhead.of_passes (hrews : p.rewards = false) (hcopy : p.copies = false)
    (h : StoreStep p s s') (honce : PassesOnce s s') : SameAhead P arena place reported s s' := by
  refine .of_step hrews h honce fun c _ k hk _ _ r hr => ?_
  obtain ⟨-, r₁, -, -, -, hr₁, hq, -⟩ := shownAt_eq_some.1 hk
  obtain rfl : r₁ = r := Option.mem_unique hr₁ hr
  obtain ⟨r', hr', hrow⟩ := h.kept _ r₁ hr
  obtain ⟨hq', hd'⟩ := hrow.kept_pass hcopy hq
  exact ⟨r', hr', hq'.trans hq.symm, hd'⟩

theorem SameAhead.trans (h : SameAhead P arena place reported s s')
    (h' : SameAhead P arena place reported s' s'')
    (hkey : ∀ id k k', s.shownAt id = some k → s''.shownAt id = some k' → k' = k) :
    SameAhead P arena place reported s s'' where
  order := h.order.trans h'.order
  retained c hc := (h'.retained c (h.order.subset hc)).trans (h.retained c hc)
  key := hkey
  back c hc k hk hahead := by
    have hk' := h'.back c hc k hk hahead
    obtain ⟨row', -, hrow', -⟩ := shownAt_eq_some.1 hk'
    have hmem' : row'.candidate ∈ s'.candidateList := mem_map_of_mem (find?_eq_some.1 hrow').1
    obtain rfl := eq_of_mem_candidates hc (h'.order.subset hmem') (find?_eq_some.1 hrow').2.symm
    exact h.back _ hmem' k hk' hahead
  forth c hc k hk hahead hreported :=
    h'.forth c (h.order.subset hc) k (h.forth c hc k hk hahead hreported) hahead hreported

/-- The PASS is not shown to the rewards yet, and would be. -/
def awaitsRewards (s : Store K) (c : CandidateRow K) : Bool :=
  !c.rewardEligible && (s.reservationOf c).any fun r =>
    r.status = .qualified && r.decision = some .pass && s.completedPrefix r

section

variable (h : ∀ c ∈ s.candidates.rows, s.awaitsRewards c = true →
  ∀ k, s.candidateKey c = some k → ahead P arena place (c.candidate, k) = false)

include h

theorem sameAhead_finalizePrefix : SameAhead P arena place reported s s.finalizeRewardPrefix := by
  have hstep : StoreStep { rewards := true } s s.finalizeRewardPrefix := finalizePrefix_step
  have honce : PassesOnce s s.finalizeRewardPrefix := .of_step rfl hstep
  refine ⟨hstep.order, ?_, fun _ _ _ => hstep.key_eq, ?_, ?_⟩
  · exact fun c hc => rfl
  · intro c hc k hk hahead
    obtain ⟨row', r, hrow', -, hrew', hr, -, -, rfl⟩ := shownAt_eq_some.1 hk
    have hfind := find?_mapCandidates.symm.trans hrow'
    obtain ⟨row, hrow, hchanged⟩ := Option.map_eq_some_iff.1 hfind
    by_cases hrew : row.rewardEligible = true
    · exact shownAt_back hstep honce hrow hrew hk
    · -- It was not shown before: then it was waiting, and is not ahead.
      split_ifs at hchanged with hawaits
      · obtain ⟨hmem, hid⟩ := find?_eq_some.1 hrow
        have hc' : row.candidate = c := by
          refine eq_of_mem_candidates (s := s) (mem_map_of_mem hmem) ?_ hid
          have hlist : s.finalizeRewardPrefix.candidateList = s.candidateList :=
            candidateList_mapCandidates
          exact hlist ▸ hc
        have hkey : s.candidateKey row = some r.arrivalKey := by
          unfold candidateKey reservationOf
          rw [hid]
          exact congrArg (Option.map _) hr
        have hnot := h row hmem (by simp [awaitsRewards, hawaits.1, hawaits.2]) _ hkey
        rw [hc', hahead] at hnot
        cases hnot
      · subst hchanged
        exact absurd hrew' hrew
  · intro c hc k hk _ _
    obtain ⟨row, r, hrow, hstat, hrew, hr, hq, hd, rfl⟩ := shownAt_eq_some.1 hk
    obtain ⟨row', hrow', hrowStep⟩ := hstep.candidate _ row hrow
    exact shownAt_eq_some.2 ⟨row', r, hrow', fun hdup => hstat (hrowStep.duplicate hdup),
      hrowStep.rewarded hrew, hr, hq, hd, rfl⟩

theorem sameAhead_restart {policy : IntakePolicy} {recov : Bool} :
    SameAhead P arena place reported s (s.restart policy recov).1 := by
  obtain ⟨s₁, hstep, honce, rfl⟩ := restart_once s policy recov
  have hreopen : StoreStep {} s (s.reopen policy recov) := reopen_step
  have hshows : SameAhead P arena place reported (s.reopen policy recov)
      (s.reopen policy recov).finalizeRewardPrefix := sameAhead_finalizePrefix h
  have hfirst : SameAhead P arena place reported s
      (s.reopen policy recov).finalizeRewardPrefix := by
    refine (SameAhead.of_passes rfl rfl hreopen (.of_step rfl hreopen)).trans hshows ?_
    exact fun _ _ _ => ((hreopen.weaken (by decide)).trans rfl finalizePrefix_step).key_eq
  exact hfirst.trans (.of_passes rfl rfl hstep honce) fun _ _ _ => restart_step.key_eq

end

/-- A PASS is compared in the arena of another one, and arrived no later. -/
def aheadOf (s : Store K) (P : RewardSettings) (id : Digest) (c : CandidateRow K) : Bool :=
  (s.candidates.find? id).any fun t => P.arenaOf c.candidate = P.arenaOf t.candidate &&
    (s.candidateKey c).any fun key => (s.candidateKey t).any (key ≤ ·)

/-- The operation shows the rewards no PASS ahead of one, and demotes none that was reported
with it as a copy. -/
def KeepsCredit (P : RewardSettings) (id : Digest) (reported : List Digest) (s : Store K) :
    Op K → Prop
  | .finalizeRewards | .restart _ _ => ∀ c ∈ s.candidates.rows,
    s.awaitsRewards c = true → s.aheadOf P id c = false
  | op => ∀ c ∈ s.candidates.rows, c.reservationId ∈ reported →
    s.aheadOf P id c = true → s.Spares c.reservationId op

instance (P : RewardSettings) (id : Digest) (reported : List Digest) (s : Store K) (op : Op K) :
    Decidable (s.KeepsCredit P id reported op) := by
  induction op using Op.casesOn <;> unfold KeepsCredit <;> infer_instance

/-- The candidate of a reservation, and its place. -/
def PassAt (s : Store K) (id : Digest) (c : SettlementCandidate K) (place : ArrivalKey) : Prop :=
  (∃ row, s.candidates.find? id = some row ∧ row.candidate = c) ∧
    ∃ r, s.reservations.find? id = some r ∧ r.arrivalKey = place

variable {id : Digest} {t : SettlementCandidate K}

theorem PassAt.step (h : s.PassAt id t place) (hstep : StoreStep p s s') :
    s'.PassAt id t place := by
  obtain ⟨⟨row, hrow, rfl⟩, r, hr, rfl⟩ := h
  obtain ⟨row', hrow', hrowStep⟩ := hstep.candidate id row hrow
  obtain ⟨r', hr', hkept⟩ := hstep.kept id r hr
  refine ⟨⟨row', hrow', ?_⟩, r', hr', by rw [hkept.arrival]⟩
  rw [hrowStep.kept]
  rfl

theorem PassAt.aheadOf_eq (h : s.PassAt id t place) (ht : P.arenaOf t = some arena)
    {c : CandidateRow K} (hk : s.candidateKey c = some k) :
    s.aheadOf P id c = ahead P arena place (c.candidate, k) := by
  obtain ⟨⟨row, hrow, rfl⟩, r, hr, rfl⟩ := h
  have hplace : s.candidateKey row = some r.arrivalKey := by
    unfold candidateKey reservationOf
    rw [(find?_eq_some.1 hrow).2, hr]
    rfl
  simp [aheadOf, hrow, ht, hk, hplace, ahead]

theorem KeepsCredit.sameAhead {op : Op K} (h : s.KeepsCredit P id reported op)
    (hat : s.PassAt id t place) (ht : P.arenaOf t = some arena) :
    SameAhead P arena place reported s (s.step op) := by
  have hshows (h : ∀ c ∈ s.candidates.rows, s.awaitsRewards c = true →
      s.aheadOf P id c = false) : ∀ c ∈ s.candidates.rows, s.awaitsRewards c = true →
      ∀ k, s.candidateKey c = some k → ahead P arena place (c.candidate, k) = false := by
    intro c hc hawaits k hk
    rw [← hat.aheadOf_eq ht hk]
    exact h c hc hawaits
  by_cases hrews : op.permit.rewards = false
  · by_cases hcopy : op.permit.copies = false
    · exact .of_passes hrews hcopy (s.step_spec op) (s.passesOnce_step op)
    · refine .of_step hrews (s.step_spec op) (s.passesOnce_step op) ?_
      intro c hc k hk hahead hreported r hr
      obtain ⟨row, hrow, rfl⟩ := mem_candidateList.1 hc
      have hkey : s.candidateKey row = some k := by
        obtain ⟨-, r₁, -, -, -, hr₁, -, -, rfl⟩ := shownAt_eq_some.1 hk
        exact congrArg (Option.map _) hr₁
      have hspares : ∀ c ∈ s.candidates.rows, c.reservationId ∈ reported →
          s.aheadOf P id c = true → s.Spares c.reservationId op := by
        cases op with
        | finalizeRewards | restart => exact fun _ _ _ _ => trivial
        | _ => exact h
      have hsame := (hspares row (find?_eq_some.1 hrow).1 hreported
        ((hat.aheadOf_eq ht hkey).trans hahead)).find?_step hcopy
      exact ⟨r, hsame.trans hr, rfl, rfl⟩
  · cases op with
    | queue op => exact absurd (by cases op <;> rfl) hrews
    | finalizeRewards => exact sameAhead_finalizePrefix (hshows h)
    | restart => exact sameAhead_restart (hshows h)
    | _ => exact absurd rfl hrews

/-! ### Runs -/

/-- The comparisons of a walk are of PASSes that are shown, each of them once. -/
theorem comparisons_of_rewardWalk (h : s.rewardWalk P none = .ok w) :
    (w.comparisons.map Prod.fst).Nodup ∧ ∀ entry ∈ w.comparisons, ∃ c ∈ s.candidateList,
      c.primary.reservationDigest = entry.1 ∧ (s.shownAt entry.1).isSome ∧
        (P.arenaOf c).isSome := by
  obtain ⟨more, hmore, hsub⟩ := comparisons_of_walk (walk_shown h)
  simp only [rewardWalk, bind_ok] at h
  obtain ⟨_, hcontinuations, -⟩ := h
  rw [show w.comparisons = more from hmore]
  constructor
  · refine hsub.nodup ?_
    rw [map_map]
    refine (sortBy_perm.map _).nodup_iff.2 ?_
    exact nodup_shown
  · intro entry hentry
    have hid := hsub.subset (mem_map_of_mem hentry)
    rw [map_map] at hid
    obtain ⟨pass, hpass, hpassid⟩ := mem_map.1 hid
    obtain ⟨hc, hshown⟩ := mem_shown.1 (mem_sortBy.1 hpass)
    have hkey : pass.1.primary.reservationDigest = entry.1 := hpassid
    obtain ⟨group, hgrp⟩ := continuedGroup_ok hcontinuations
      (pass.1.primary.arenaDigest, pass.1.primary.incumbent.stackDigest)
    refine ⟨pass.1, hc, hkey, ?_, ?_⟩
    · rw [← hkey, hshown]
      rfl
    · simp [RewardSettings.arenaOf, RewardSettings.group, hgrp, Except.toOption]

/-- **The report on a PASS lasts** as long as no PASS ahead of it is shown for the first time, and
none that was reported ahead of it is demoted as a copy. -/
theorem rewardComparisons_kept {comparisons comparisons' : List (Digest × RewardComparison)}
    {comparison : RewardComparison} {later : List (Op K)}
    (hreport : s.rewardComparisons P = .ok comparisons)
    (hlookup : comparisons.lookup id = some comparison)
    (hkeeps : s.Along (KeepsCredit P id (comparisons.map Prod.fst)) later)
    (hlater : (s.run later).rewardComparisons P = .ok comparisons') :
    comparisons'.lookup id = some comparison := by
  obtain ⟨w, hwalk, rfl⟩ := walk_of_comparisons hreport
  obtain ⟨w', hwalk', rfl⟩ := walk_of_comparisons hlater
  have hentry : (id, comparison) ∈ w.comparisons := Assoc.mem_of_lookup hlookup
  obtain ⟨t, ht, hid, hshown, harena⟩ := (comparisons_of_rewardWalk hwalk).2 _ hentry
  obtain ⟨place, hplace⟩ := Option.isSome_iff_exists.1 hshown
  obtain ⟨arena, harena⟩ := Option.isSome_iff_exists.1 harena
  have hahead : ahead P arena place (t, place) = true := by simp [ahead, harena]
  obtain ⟨v, hv, hwithin, hoth⟩ := walk_passesAhead arena place hwalk
  have hmem := hoth _ hentry t ht hid place hplace hahead
  have hreported : ∀ entry ∈ v.comparisons, entry.1 ∈ w.comparisons.map Prod.fst :=
    fun entry hentry => mem_map_of_mem (hwithin entry hentry)
  have hat : s.PassAt id t place := by
    obtain ⟨row, r, hrow, -, -, hr, -, -, rfl⟩ := shownAt_eq_some.1 hplace
    obtain ⟨row', hrow', rfl⟩ := mem_candidateList.1 ht
    have hkey : row'.candidate.primary.reservationDigest = id := hid
    exact ⟨⟨row', hkey ▸ hrow', rfl⟩, r, hr, rfl⟩
  -- The walk over the PASSes ahead comes to the same comparisons after every operation.
  obtain ⟨-, hrun⟩ := hkeeps.induction (I := fun s => s.PassAt id t place ∧
      (s.passesAhead P arena place).foldlM (P.walkPass s) {} = .ok v) ⟨hat, hv⟩
    fun s op hs hop => ⟨hs.1.step (s.step_spec op), (hop.sameAhead hs.1 harena).walk hreported hs.2⟩
  obtain ⟨v', hv', hwithin', -⟩ := walk_passesAhead arena place hwalk'
  obtain rfl : v' = v := ok.inj (hv'.symm.trans hrun)
  exact (Assoc.lookup_eq_some (comparisons_of_rewardWalk hwalk').1).2 (hwithin' _ hmem)

end Store

/-! ### A sample -/

/-- The PASS of the first submission, retained at a block. -/
def sampleFirstPass (block : ℕ) : List (Op intakeHashes) :=
  Sample.claim 1 [1] ++
  Sample.pass 1 block [sampleQualification 1 1 1 "alice" "attn" 1 sampleStack
    ⟨⟨102, -2⟩, by decide⟩]

/-- The first submission expires, and the second one is rewarded. -/
def sampleExpired : Store intakeHashes := Sample.start.run
  (Sample.published ++ Sample.secondPass ++ [Sample.reserve 500001 [], .finalizeRewards])

/-- The first submission is readmitted and claimed. -/
def sampleReadmitted : List (Op intakeHashes) :=
  [.queue (.requeue [sampleId 1] (.ofNat 77) 500001 false)] ++ Sample.claim 1 [1]

theorem rewardComparisons_kept_sample :
    let later := sampleReadmitted ++ [.finalizeRewards]
    ∃ comparisons comparison comparisons',
      sampleExpired.rewardComparisons sampleRewardSettings = .ok comparisons ∧
      comparisons.lookup (sampleId 2) = some comparison ∧ comparison.rewardEligible = true ∧
      (sampleExpired.run later).rewardComparisons sampleRewardSettings = .ok comparisons' ∧
      ((sampleExpired.run later).reservations.find? (sampleId 1)).map (·.status) =
        some .qualifying ∧ comparisons'.lookup (sampleId 2) = some comparison := by
  intro later
  have hreport : (sampleExpired.rewardComparisons sampleRewardSettings).toOption.any
      (fun comparisons => (comparisons.lookup (sampleId 2)).any (·.rewardEligible) &&
        decide (sampleExpired.Along (Store.KeepsCredit sampleRewardSettings (sampleId 2)
          (comparisons.map Prod.fst)) later)) = true := by decide
  have hlater : ((sampleExpired.run later).rewardComparisons sampleRewardSettings).isOk = true := by
    decide
  obtain ⟨comparisons, hcomps, hboth⟩ := (Option.any_eq_true _ _).1 hreport
  obtain ⟨comparisons', hcomps'⟩ := ok_of_isOk hlater
  rw [Bool.and_eq_true] at hboth
  obtain ⟨comparison, hlookup, helig⟩ := (Option.any_eq_true _ _).1 hboth.1
  exact ⟨comparisons, comparison, comparisons', ok_of_toOption hcomps, hlookup, helig, hcomps',
    by decide, Store.rewardComparisons_kept (ok_of_toOption hcomps) hlookup
      (of_decide_eq_true hboth.2) hcomps'⟩

/-- Then it passes with the greater score. -/
def sampleReadmission : List (Op intakeHashes) :=
  sampleReadmitted ++ Sample.pass 1 500001 [sampleQualification 1 1 1 "alice" "attn" 1 sampleStack
    ⟨⟨11, -1⟩, by decide⟩] ++ [.finalizeRewards]

/-- A readmission takes the credit of a later PASS back. -/
theorem rewardComparisons_retracted : (sampleExpired.rewardComparisons sampleRewardSettings).map
      (·.map fun x => (x.1, x.2.rewardEligible)) = .ok [(sampleId 2, true)] ∧
      ((sampleExpired.run sampleReadmission).rewardComparisons sampleRewardSettings).map
          (·.map fun x => (x.1, x.2.rewardEligible)) =
        .ok [(sampleId 1, true), (sampleId 2, false)] := by
  decide

end Cacheon
