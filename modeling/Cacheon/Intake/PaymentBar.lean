import Cacheon.Intake.Effects
import Cacheon.Intake.RewardLaw

/-!
# The payment bar

The dispatcher seals the speedup at which a PASS would be paid into a request before the PASS
exists; the rewards decide again once it does.  Both walk the PASSes that arrived before it, and
so come to the same bar.

* `visibleCandidates_addPass` : where a new PASS comes in the walk.
* `paymentBar_iff` : a new PASS is rewarded if and only if it reaches the bar.
-/

namespace Cacheon

open Fallible IntakeFault List Keyed Table Except Decimal RewardSettings

variable {K : IntakeHashes} {P : RewardSettings}

namespace Store

variable {s s' : Store K} {row : CandidateRow K} {r : IntakeReservation}

/-- The store with the PASS of one more reservation. -/
def addPass (s : Store K) (row : CandidateRow K) : Option (Store K) :=
  (s.candidates.insert row).map fun t =>
    (s.mapReservation row.reservationId fun r =>
      { r.toWork with status := .qualified, decision := some .pass }).withCandidates t

theorem addPass_spec (h : s.addPass row = some s') :
    s'.candidates.rows = s.candidates.rows ++ [row] ∧
      (∀ c ∈ s.candidates.rows, c.reservationId ≠ row.reservationId) ∧
      s'.qualifications = s.qualifications ∧
      ∀ id, s'.reservations.find? id = (s.reservations.find? id).map fun r =>
        if r.reservationId K = row.reservationId then
          r.withWork { r.toWork with status := .qualified, decision := some .pass } else r := by
  obtain ⟨t, ht, rfl⟩ := Option.map_eq_some_iff.1 h
  obtain ⟨hrows, hnone⟩ := rows_of_insert ht
  exact ⟨hrows, find?_eq_none.1 hnone, rfl, fun _ => find?_mapReservations⟩

/-- A new PASS comes in after the visible PASSes that arrived before it. -/
theorem visibleCandidates_addPass (h : s.addPass row = some s')
    (hr : s.reservations.find? row.reservationId = some r)
    (hplace : ∀ r' ∈ s.reservations.rows, r'.arrivalKey = r.arrivalKey → r' = r)
    (helig : row.rewardEligible = true) (hstat : row.status ≠ .duplicateProposal) :
    ∃ rest, s'.visibleCandidates none = s.visibleCandidates (some r.arrivalKey) ++ row :: rest := by
  obtain ⟨hrows, hnew, -, hfind⟩ := addPass_spec h
  have hother : ∀ c ∈ s.candidates.rows, s'.reservationOf c = s.reservationOf c := by
    intro c hc
    unfold reservationOf
    rw [hfind]
    exact map_of_key_ne (hnew c hc)
  have hself : s'.reservationOf row =
      some (r.withWork { r.toWork with status := .qualified, decision := some .pass }) := by
    unfold reservationOf
    rw [hfind, hr, Option.map_some, if_pos (find?_eq_some.1 hr).2]
  have hvisible : s'.visible row = true := by
    unfold visible
    rw [hself]
    simp [helig, hstat, IntakeReservation.withWork]
  have hkey : s'.candidateKey row = some r.arrivalKey := by
    unfold candidateKey
    rw [hself]
    rfl
  let passes (t : Store K) (rows : List (CandidateRow K)) : List (CandidateRow K × ArrivalKey) :=
    (rows.filter t.visible).filterMap fun c => (t.candidateKey c).map fun key => (c, key)
  have hpasses : passes s' s'.candidates.rows =
      passes s s.candidates.rows ++ [(row, r.arrivalKey)] := by
    have hsame : passes s' s.candidates.rows = passes s s.candidates.rows := by
      have hfilter : s.candidates.rows.filter s'.visible = s.candidates.rows.filter s.visible := by
        refine filter_congr fun c hc => ?_
        unfold visible
        rw [hother c hc]
      simp only [passes, hfilter]
      refine filterMap_congr fun c hc => ?_
      unfold candidateKey
      rw [hother c (mem_of_mem_filter hc)]
    rw [← hsame, hrows]
    simp only [passes, filter_append, filterMap_append]
    simp [hvisible, hkey]
  have hne : ∀ pass ∈ passes s s.candidates.rows, pass.2 ≠ Prod.snd (row, r.arrivalKey) := by
    intro pass hpass heq
    obtain ⟨c, hc, hpass⟩ := mem_filterMap.1 hpass
    obtain ⟨key, hkey, rfl⟩ := Option.map_eq_some_iff.1 hpass
    obtain ⟨r', hr', rfl⟩ := Option.map_eq_some_iff.1 hkey
    obtain ⟨hmem, hid⟩ := find?_eq_some.1 hr'
    obtain rfl := hplace r' hmem heq
    exact hnew c (mem_of_mem_filter hc) (hid.symm.trans (find?_eq_some.1 hr).2)
  obtain ⟨rest, hrest⟩ := sortBy_concat hne
  refine ⟨rest.map Prod.fst, ?_⟩
  show ((sortBy Prod.snd (passes s' s'.candidates.rows)).filter fun _ => true).map
    Prod.fst = ((sortBy Prod.snd (passes s s.candidates.rows)).filter fun pass =>
      pass.2 < r.arrivalKey).map Prod.fst ++ row :: rest.map Prod.fst
  rw [filter_true, hpasses, hrest, map_append]
  rfl

end Store

/-! ### The bar -/

/-- The ruled bar over a best score is above that score, however it is rounded. -/
theorem lt_rewardBar {d : Decimal} (h : 1 ≤ d.toRat) :
    d.toRat < (rewardBar d v17RewardMargin).toRat := by
  have hbar : add decimalContext .one v17RewardMargin = ⟨1015, -3⟩ := by decide
  have hcoeff : 0 < d.coeff := by
    have hexp : (0 : ℚ) < 10 ^ d.exp := by positivity
    have hpos : 0 < d.toRat := by linarith
    exact_mod_cast (mul_pos_iff_of_pos_right hexp).1 hpos
  unfold rewardBar
  rw [hbar]
  have hle : (1 - 1 / 10 ^ (decimalContext.prec - 1)) * (d.toRat * toRat ⟨1015, -3⟩) ≤
      (d.mul decimalContext ⟨1015, -3⟩).toRat := by
    rw [← toRat_product]
    exact le_toRat_round (mul_pos hcoeff (by decide)) (by decide)
  have hvalue : toRat ⟨1015, -3⟩ = 203 / 200 := by norm_num [toRat]
  have hloss : (9 / 10 : ℚ) + 99 / 1000 ≤ 1 - 1 / 10 ^ (decimalContext.prec - 1) := by
    norm_num [decimalContext]
  rw [hvalue] at hle
  nlinarith

theorem margin_of_statistical {s : Store K} {c : SettlementCandidate K}
    {pols : List ResidentPolicy} (h : P.rewardReports s c = .ok pols)
    (hstatistical : ∀ policy ∈ pols, policy.statistical = true) :
    P.margin s c = .ok v17RewardMargin := by
  have hne : pols ≠ [] := by
    simp only [rewardReports, bind_ok, exists_check] at h
    obtain ⟨hlen, h⟩ := h
    have hpols := (forall₂_of_mapM h).length_eq
    intro hnil
    rw [hnil, length_zip, hlen] at hpols
    simp [SettlementCandidate.qualifications] at hpols
  obtain ⟨policy, hpol⟩ := exists_mem_of_ne_nil pols hne
  have hany : pols.any (·.statistical) = true :=
    any_eq_true.2 ⟨policy, hpol, hstatistical policy hpol⟩
  have hall : pols.all (·.statistical) = true := all_eq_true.2 hstatistical
  simp only [margin, h, bind_ok, rewardMinMargin, exists_check]
  exact ⟨pols, rfl, fun _ => hall, by rw [if_pos hany]⟩

/-! ### The walk -/

section Walk

variable {s s' : Store K} {w w' : RewardWalk} {rows : List (CandidateRow K)}

theorem walkRow_congr (h : s'.qualifications = s.qualifications) : P.walkRow s' = P.walkRow s := by
  unfold walkRow marginOver margin rewardReports Store.retained
  rw [h]

/-- The walk compares some of the PASSes, in their order, after those it has compared. -/
theorem comparisons_grow (h : rows.foldlM (P.walkRow s) w = .ok w') :
    ∃ more, w'.comparisons = w.comparisons ++ more ∧
      (more.map Prod.fst).Sublist (rows.map (·.reservationId)) := by
  induction rows generalizing w with
  | nil =>
    cases h
    exact ⟨[], by simp, .refl _⟩
  | cons row rows ih =>
    simp only [foldlM_cons, bind_ok] at h
    obtain ⟨w₁, h₁, h⟩ := h
    obtain ⟨more, hmore, hsub⟩ := ih h
    obtain ⟨_, _, -, -, ⟨rfl, -⟩ | ⟨-, margin, -, hw₁⟩⟩ := walkRow_spec h₁
    · exact ⟨more, hmore, hsub.cons _⟩
    · rw [hw₁, append_assoc, singleton_append] at hmore
      exact ⟨_, hmore, hsub.cons_cons _⟩

theorem walk_of_comparisons {comparisons : List (Digest × RewardComparison)}
    (h : s.rewardComparisons P = .ok comparisons) :
    ∃ w, s.rewardWalk P none = .ok w ∧ w.comparisons = comparisons := by
  cases hwalk : s.rewardWalk P none with
  | error fault => simp [Store.rewardComparisons, hwalk, Except.map] at h
  | ok w => exact ⟨w, rfl, by simpa [Store.rewardComparisons, hwalk, Except.map] using h⟩

/-- No chain of continuations runs in a cycle, so every group is found. -/
theorem continuedGroup_ok (h : P.checkContinuations = .ok ()) (key : RewardGroup) :
    ∃ group, continuedGroup P.continuations (P.continuations.length + 1) key = .ok group := by
  cases hlook : P.continuations.lookup key with
  | none => exact ⟨key, by simp [continuedGroup, hlook]⟩
  | some early =>
    have hkey := forM_ok.1 h _ (Assoc.mem_of_lookup hlook)
    simp only [bind_ok] at hkey
    obtain ⟨group, hgrp, -⟩ := hkey
    exact ⟨group, hgrp⟩

/-- The walk goes through as long as every margin can be read. -/
theorem foldlM_walkRow_ok (h : P.checkContinuations = .ok ())
    (hmargs : ∀ row ∈ rows, ∃ margin, P.margin s row.candidate = .ok margin) :
    ∃ w', rows.foldlM (P.walkRow s) w = .ok w' := by
  induction rows generalizing w with
  | nil => exact ⟨w, rfl⟩
  | cons row rows ih =>
    have hstep : ∃ w₁, P.walkRow s w row = .ok w₁ := by
      obtain ⟨-, -, ⟨contr, hcontr⟩, -⟩ := row.candidate.manifests_spec
      obtain ⟨group, hgrp⟩ := continuedGroup_ok h
        (row.candidate.primary.arenaDigest, row.candidate.primary.incumbent.stackDigest)
      obtain ⟨margin, hmarg⟩ : ∃ margin, P.marginOver s ((w.best.lookup group).elim
          one (·.1)) row.candidate = .ok margin := by
        unfold marginOver
        split_ifs
        · exact hmargs row (by simp)
        · exact ⟨_, rfl⟩
      cases hwalk : P.walkRow s w row with
      | ok w₁ => exact ⟨w₁, rfl⟩
      | error fault =>
        simp only [RewardSettings.walkRow, RewardSettings.group, hcontr, hgrp,
          bind_eq_error, get_eq_error, get_ok, reduceCtorEq, false_and, false_or,
          Option.some.injEq, ok.injEq, exists_eq_left'] at hwalk
        split_ifs at hwalk
        simp only [bind_eq_error, hmarg, reduceCtorEq, and_false, exists_false, or_self] at hwalk
    obtain ⟨w₁, h₁⟩ := hstep
    obtain ⟨w', h'⟩ := ih (w := w₁) fun row hrow => hmargs row (mem_cons_of_mem _ hrow)
    exact ⟨w', by rw [foldlM_cons, h₁]; exact h'⟩

end Walk

section AddPass

variable {s s' : Store K} {row : CandidateRow K} {r : IntakeReservation}
  (hr : s.reservations.find? row.reservationId = some r)
  (hplace : ∀ r' ∈ s.reservations.rows, r'.arrivalKey = r.arrivalKey → r' = r)
  (helig : row.rewardEligible = true) (hstat : row.status ≠ .duplicateProposal)
  (hadd : s.addPass row = some s')

include hr hplace helig hstat hadd

/-- The comparison of a new PASS is the one the walk makes right after the PASSes before it. -/
theorem rewardComparisons_addPass {comps : List (Digest × RewardComparison)}
    (h : s'.rewardComparisons P = .ok comps) :
    ∃ w w₁, s.rewardWalk P (some r.arrivalKey) = .ok w ∧ P.walkRow s w row = .ok w₁ ∧
      ∀ comparison, w₁.comparisons = w.comparisons ++ [(row.reservationId, comparison)] →
        comps.lookup row.reservationId = some comparison := by
  obtain ⟨-, hnew, hret, -⟩ := Store.addPass_spec hadd
  obtain ⟨rest, hrows⟩ := Store.visibleCandidates_addPass hadd hr hplace helig hstat
  obtain ⟨w', hwalk, rfl⟩ := walk_of_comparisons h
  simp only [Store.rewardWalk, bind_ok, hrows, foldlM_append, foldlM_cons,
    walkRow_congr hret] at hwalk
  obtain ⟨u, hcheck, w, hw, w₁, hw₁, hrest⟩ := hwalk
  refine ⟨w, w₁, ?_, hw₁, fun comparison hcomp => ?_⟩
  · simp only [Store.rewardWalk, bind_ok]
    exact ⟨u, hcheck, hw⟩
  · obtain ⟨more, hmore, -⟩ := comparisons_grow hrest
    -- The PASSes before it are of other reservations.
    have hbef : w.comparisons.lookup row.reservationId = none := by
      obtain ⟨before, hbef, hsub⟩ := comparisons_grow hw
      rw [Assoc.lookup_eq_none, hbef]
      intro hmem
      obtain ⟨c, hc, hid⟩ := mem_map.1 (hsub.subset hmem)
      simp only [Store.visibleCandidates, mem_map, mem_filter, mem_sortBy, mem_filterMap] at hc
      obtain ⟨pass, ⟨⟨c', ⟨hc', -⟩, hpass⟩, -⟩, rfl⟩ := hc
      obtain ⟨key, -, rfl⟩ := Option.map_eq_some_iff.1 hpass
      exact hnew c' hc' hid
    rw [hmore, hcomp, append_assoc, lookup_append, hbef]
    simp

/-- **The payment bar is the one that settlement pays at.**  Add a PASS of a reservation over a
stack.  On a grandfathered runtime there is no bar and the PASS is rewarded.  Otherwise, under
statistical policies and for a contribution that was not compared before, the PASS is rewarded if
and only if its score reaches the bar from before it was added. -/
theorem paymentBar_iff {stack : EvaluationStackManifest} {bar : Option Decimal}
    (hstack : row.candidate.primary.incumbentManifest = stack)
    (hbar : s.paymentBar P stack row.reservationId = .ok bar) :
    (stack.runtimeDigest ∈ P.grandfathered → bar = none ∧ ∀ comparisons,
      s'.rewardComparisons P = .ok comparisons → ∃ comparison,
        comparisons.lookup row.reservationId = some comparison ∧ comparison.rewardEligible = true) ∧
    (stack.runtimeDigest ∉ P.grandfathered → ∀ w policies identity,
      s.rewardWalk P (some r.arrivalKey) = .ok w →
      P.identity row.candidate = .ok identity → identity ∉ w.seen →
      P.rewardReports s row.candidate = .ok policies →
      (∀ policy ∈ policies, policy.statistical = true) → ∃ b, bar = some b ∧
        ((∀ c ∈ s'.visibleCandidates none, ∃ margin, P.margin s' c.candidate = .ok margin) →
          ∃ comparisons, s'.rewardComparisons P = .ok comparisons) ∧
        ∀ comparisons, s'.rewardComparisons P = .ok comparisons → ∃ comparison,
          comparisons.lookup row.reservationId = some comparison ∧
            (comparison.rewardEligible = true ↔ b.toRat ≤ row.candidate.speedup.val.toRat)) := by
  subst hstack
  have hexempt : P.exempt row.candidate =
      decide (row.candidate.primary.incumbentManifest.runtimeDigest ∈ P.grandfathered) := rfl
  constructor
  · intro hgrand
    unfold Store.paymentBar at hbar
    rw [if_pos hgrand] at hbar
    cases hbar
    refine ⟨rfl, fun comparisons hcomps => ?_⟩
    obtain ⟨w, w₁, -, hw₁, hlook⟩ := rewardComparisons_addPass hr hplace helig hstat hadd hcomps
    have htrue : P.exempt row.candidate = true := by rw [hexempt, decide_eq_true hgrand]
    obtain ⟨group, identity, -, -, ⟨-, -, hfalse⟩ | ⟨-, margin, -, hw'⟩⟩ := walkRow_spec hw₁
    · rw [htrue] at hfalse
      cases hfalse
    · refine ⟨_, hlook _ (by rw [hw']), ?_⟩
      simp [RewardSettings.compare, htrue]
  · intro hgrand w policies identity hw hident hunseen hpols hstatistical
    have hfalse : P.exempt row.candidate = false := by
      rw [hexempt, decide_eq_false hgrand]
    have hmarg := margin_of_statistical hpols hstatistical
    unfold Store.paymentBar at hbar
    rw [if_neg hgrand] at hbar
    simp only [bind_ok, get_ok] at hbar
    obtain ⟨r', hr', w', hw', group, hgrp, hbar⟩ := hbar
    cases hbar
    obtain rfl : r' = r := Option.mem_unique hr' hr
    obtain rfl : w' = w := ok.inj (hw'.symm.trans hw)
    simp only [Store.rewardWalk, bind_ok] at hw
    obtain ⟨⟨⟩, hcheck, hfold⟩ := hw
    obtain ⟨trace, htrace⟩ := traces_of_foldlM hfold
    refine ⟨_, rfl, fun hmargs => ?_, fun comparisons hcomps => ?_⟩
    · obtain ⟨w'', hwalk⟩ := foldlM_walkRow_ok (w := {}) hcheck hmargs
      have hrews : s'.rewardWalk P none = .ok w'' := by
        simp only [Store.rewardWalk, bind_ok]
        exact ⟨(), hcheck, hwalk⟩
      exact ⟨w''.comparisons, by simp [Store.rewardComparisons, hrews, Except.map]⟩
    · obtain ⟨w₀, w₁, hw₀, hw₁, hlook⟩ := rewardComparisons_addPass hr hplace helig hstat
        hadd hcomps
      obtain rfl : w₀ = w' := ok.inj (hw₀.symm.trans hw')
      obtain ⟨group', identity', hgrp', hident', ⟨-, hseen, -⟩ |
        ⟨hfresh, margin, hover, hw₁'⟩⟩ := walkRow_spec hw₁
      · obtain rfl : identity' = identity := ok.inj (hident'.symm.trans hident)
        exact absurd hseen hunseen
      · -- The bar was taken over the group of the candidate's own stack.
        obtain ⟨⟨hdig, harena⟩, -⟩ := row.candidate.manifests_spec
        rw [hdig, harena] at hgrp
        obtain rfl : group' = group := ok.inj (hgrp'.symm.trans hgrp)
        let t : PassComparison K := ⟨row, group', identity',
          P.compare (w₀.previous group') ((w₀.best.lookup group').map (·.2)) margin row.candidate⟩
        have ht : ComparedAfter P s trace t :=
          comparedAfter_of_traces htrace hgrp' hident' hover rfl hfresh
        refine ⟨t.comparison, hlook _ (by rw [hw₁']), ?_⟩
        rw [ht.eligible_iff hfalse]
        have hone : 1 ≤ (w₀.previous group').toRat := htrace.best group' ▸ Records.floor_le_best
        constructor
        · rintro ⟨-, m, hm, hbar⟩
          obtain rfl : m = v17RewardMargin := ok.inj (hm.symm.trans hmarg)
          exact hbar
        · intro hbar
          exact ⟨(lt_rewardBar hone).trans_le hbar, v17RewardMargin, hmarg, hbar⟩

end AddPass

/-! ### A sample -/

/-- The sample store before the second PASS became a candidate. -/
def samplePassStore : Store intakeHashes :=
  sampleRewardStore.withCandidates
    (sampleRewardStore.candidates.filter (·.reservationId ≠ sampleId 2))

def samplePass : Option (CandidateRow intakeHashes × IntakeReservation) := do
  let row ← sampleRewardStore.candidates.find? (sampleId 2)
  let r ← samplePassStore.reservations.find? row.reservationId
  return (row, r)

theorem paymentBar_iff_sample : ∃ row s' b comparisons comparison,
    samplePassStore.addPass row = some s' ∧
      samplePassStore.paymentBar sampleRewardSettings sampleStack row.reservationId = .ok (some b) ∧
      s'.rewardComparisons sampleRewardSettings = .ok comparisons ∧
      comparisons.lookup row.reservationId = some comparison ∧
      (comparison.rewardEligible = true ↔ b.toRat ≤ row.candidate.speedup.val.toRat) := by
  obtain ⟨⟨row, r⟩, hpass⟩ := Option.isSome_iff_exists.1 (show samplePass.isSome = true by decide)
  have hfacts : ∀ pass ∈ samplePass,
      (samplePassStore.reservations.find? pass.1.reservationId = some pass.2 ∧
        (∀ r' ∈ samplePassStore.reservations.rows,
          r'.arrivalKey = pass.2.arrivalKey → r' = pass.2) ∧
        pass.1.rewardEligible = true ∧ pass.1.status ≠ .duplicateProposal ∧
        pass.1.candidate.primary.incumbentManifest = sampleStack) ∧
      (samplePassStore.addPass pass.1).any (fun s' =>
        (s'.rewardComparisons sampleRewardSettings).isOk) ∧
      (samplePassStore.paymentBar sampleRewardSettings sampleStack pass.1.reservationId).isOk ∧
      sampleRewardSettings.rewardReports samplePassStore pass.1.candidate =
        .ok [⟨some 17, .value (.ofNat 0)⟩] ∧
      ((samplePassStore.rewardWalk sampleRewardSettings (some pass.2.arrivalKey)).toOption
        ).any fun w => ((sampleRewardSettings.identity pass.1.candidate).toOption).any
          (· ∉ w.seen) := by decide
  obtain ⟨⟨hr, hplace, helig, hstat, hstack⟩, hadd, hbar, hreports, hwalk⟩ :=
    hfacts _ (Option.mem_def.2 hpass)
  obtain ⟨s', hs', hok⟩ := (Option.any_eq_true _ _).1 hadd
  obtain ⟨w, hw, hident⟩ := (Option.any_eq_true _ _).1 hwalk
  obtain ⟨identity, hident, hunseen⟩ := (Option.any_eq_true _ _).1 hident
  obtain ⟨comparisons, hcomps⟩ := ok_of_isOk hok
  obtain ⟨bar, hbar⟩ := ok_of_isOk hbar
  obtain ⟨b, rfl, -, hiff⟩ := (paymentBar_iff hr hplace helig hstat hs' hstack hbar).2
    (by decide) w _ identity (ok_of_toOption hw) (ok_of_toOption hident)
    (of_decide_eq_true hunseen) hreports (by decide)
  obtain ⟨comparison, hlook, helig⟩ := hiff comparisons hcomps
  exact ⟨row, s', b, comparisons, comparison, hs', hbar, hcomps, hlook, helig⟩

end Cacheon
