import Cacheon.Intake.Backfill

/-!
# The standing of active claims

An active claim is paid from the evidence of a crowned candidate, so the candidate's reservation
has to stay a PASS.  Only the demotion of a copy takes a PASS back, and it does not ask whether
the copy was crowned.

* `CrownsStand` : every crowned candidate still has its PASS.
* `ClaimsCrowned` : every active claim rests on a crowned candidate.
* `SparesCrowns` : the operation demotes no crowned candidate as a copy.
* `activeClaims_stand` : without such a demotion every active claim can be reopened.
-/

namespace Cacheon

open Fallible IntakeFault List Table

namespace Store

variable {K : IntakeHashes} {s s₁ s' : Store K} {id : Digest} {lease : SettlementLease K}
  {ev : List SettlementEvidence} {plan : SettlementPlan} {block : ℕ}
  {resolve : TreeResolver}

/-! ### Copies -/

/-- What the copy rule compares: each submission with its fingerprint. -/
def submittedDeltas (s : Store K) : List (FinalizedArrival × Option SubmittedDeltaFingerprint) :=
  s.reservations.rows.map fun r => (r.arrival, r.deltaFingerprint)

theorem copyPredecessors_eq_nil : s.copyPredecessors id = .ok [] ↔
    ∃ d ∈ s.submittedDeltas, d.1.reservationId K = id ∧ ∃ delta ∈ d.2,
      ∀ e ∈ s.submittedDeltas, ¬(e.1.arrivalKey < d.1.arrivalKey ∧ e.1.hotkey ≠ d.1.hotkey ∧
        e.2.any fun early => (compareSubmittedDeltas early delta).authoritative) := by
  simp only [copyPredecessors, bind_ok, get_iff, get_ok, Except.ok.injEq,
    filter_eq_nil_iff, decide_eq_true_eq, submittedDeltas, mem_map, all,
    Keyed.mem_sortBy, find?_eq_some]
  constructor
  · rintro ⟨r, ⟨hr, hid⟩, delta, hdelta, hnone⟩
    refine ⟨_, ⟨r, hr, rfl⟩, hid, delta, hdelta, ?_⟩
    rintro _ ⟨e, he, rfl⟩
    exact hnone e he
  · rintro ⟨_, ⟨r, hr, rfl⟩, hid, delta, hdelta, hnone⟩
    exact ⟨r, ⟨hr, hid⟩, delta, hdelta, fun e he => hnone _ ⟨e, he, rfl⟩⟩

/-- A status change leaves the submissions, and the other rows. -/
theorem transition_frame {expected : List Status} {status : Status}
    {dec : Option QualificationDecision} {reason : String}
    (h : s.transition id expected status dec reason = .ok s') :
    s'.submittedDeltas = s.submittedDeltas ∧ ∀ id' ≠ id,
      s'.reservations.find? id' = s.reservations.find? id' := by
  simp only [transition, bind_ok, exists_check] at h
  obtain ⟨-, -, -, row, hrow, hstat, h⟩ := h
  obtain rfl := updateReservations_eq h
  refine ⟨?_, fun id' hid' => ?_⟩
  · simp only [submittedDeltas, mapReservations, withReservations, update, map_map]
    refine map_congr_left fun r _ => ?_
    simp only [Function.comp_apply]
    split_ifs <;> rfl
  · exact find?_mapReservations.trans (map_of_key_ne hid')

/-- Only a reservation with an earlier original is demoted as a copy. -/
theorem markCopy_frame {pred : Digest} (h : s.markCopy id pred = .ok s') :
    s'.submittedDeltas = s.submittedDeltas ∧ ∀ id', s.copyPredecessors id' = .ok [] →
      s'.reservations.find? id' = s.reservations.find? id' := by
  simp only [markCopy, bind_ok, exists_check] at h
  obtain ⟨orig, -, _, -, -, preds, hpreds, hmem, h⟩ := h
  obtain ⟨hdeltas, hoth⟩ := transition_frame h
  refine ⟨hdeltas, fun id' hnone => hoth id' ?_⟩
  rintro rfl
  rw [hnone] at hpreds
  cases hpreds
  cases hmem

theorem reconcileCopies_frame (hnone : s.copyPredecessors id = .ok []) :
    s.reconcileCopies.1.reservations.find? id = s.reservations.find? id := by
  -- The fingerprints stay what they were, so the reservation keeps having no original.
  refine (demoteCopies_invariant (I := fun s' => s'.submittedDeltas = s.submittedDeltas ∧
    s'.reservations.find? id = s.reservations.find? id) s.all ⟨rfl, rfl⟩ ?_).2
  rintro s₁ _ _ s₂ ⟨hdeltas₁, hsame₁⟩ hmark
  obtain ⟨hdeltas, hoth⟩ := markCopy_frame hmark
  refine ⟨hdeltas.trans hdeltas₁, (hoth id ?_).trans hsame₁⟩
  rw [copyPredecessors_eq_nil] at hnone ⊢
  rwa [hdeltas₁]

/-- The operation does not demote a reservation as a copy. -/
def Spares (s : Store K) (id : Digest) : Op K → Prop
  | .queue .reconcileCopies => s.copyPredecessors id = .ok []
  | .queue (.markCopy id' _) => id = id' → s.copyPredecessors id = .ok []
  | .queue (.markReferenceCopy id' _) => id ≠ id'
  | _ => True

instance (s : Store K) (id : Digest) (op : Op K) : Decidable (s.Spares id op) := by
  unfold Spares
  split <;> infer_instance

/-- An operation that demotes copies leaves the reservations it spares. -/
theorem Spares.find?_step {op : Op K} (h : s.Spares id op) (hp : op.permit.copies ≠ false) :
    (s.step op).reservations.find? id = s.reservations.find? id := by
  cases op with
  | queue op =>
    cases op with
    | reconcileCopies => exact reconcileCopies_frame h
    | markCopy id' pred =>
      refine committed_cases (I := fun s' => s'.reservations.find? id = _) rfl
        fun s' hs' => ?_
      by_cases hid : id = id'
      · exact (markCopy_frame hs').2 _ (h hid)
      · simp only [markCopy, bind_ok, exists_check] at hs'
        obtain ⟨_, -, _, -, -, _, -, -, hs'⟩ := hs'
        exact (transition_frame hs').2 _ hid
    | markReferenceCopy id' ref =>
      refine committed_cases (I := fun s' => s'.reservations.find? id = _) rfl
        fun s' hs' => ?_
      simp only [markReferenceCopy, bind_ok, exists_check] at hs'
      exact (transition_frame hs'.2).2 _ h
    | _ => exact absurd rfl hp
  | _ => exact absurd rfl hp

/-! ### Steps -/

/-- Every crowned candidate still has its PASS. -/
def CrownsStand (s : Store K) : Prop :=
  ∀ id row, s.candidates.find? id = some row → row.status = .crowned → s.hasStanding row.candidate

/-- Every active claim rests on a crowned candidate. -/
def ClaimsCrowned (s : Store K) : Prop :=
  ∀ family claim, s.standing.find? family = some claim → claim.active = true →
    ∃ id row, s.candidates.find? id = some row ∧ row.status = .crowned ∧
      row.settlementEvidenceDigest = some claim.claim.retainedEvidenceDigest

/-- The crowned candidates keep their PASSes. -/
def KeepsCrowned (s s' : Store K) : Prop :=
  ∀ id row r, s.candidates.find? id = some row → row.status = .crowned →
    s.reservations.find? id = some r → r.status = .qualified →
      ∃ r', s'.reservations.find? id = some r' ∧ r'.status = .qualified ∧ r'.decision = r.decision

theorem KeepsCrowned.of_step {p : Permit} (hp : p.copies = false) (hstep : StoreStep p s s') :
    s.KeepsCrowned s' := by
  intro id row r _ _ hr hq
  obtain ⟨r', hr', hrow⟩ := hstep.kept id r hr
  exact ⟨r', hr', hrow.kept_pass hp hq⟩

/-- The operation demotes no crowned candidate as a copy. -/
def SparesCrowns (s : Store K) : Op K → Prop
  | .queue .reconcileCopies => ∀ c ∈ s.candidates.rows, c.status = .crowned →
    s.copyPredecessors c.reservationId = .ok []
  | .queue (.markCopy id _) => ∀ c ∈ s.candidates.rows, c.status = .crowned →
    c.reservationId = id → s.copyPredecessors id = .ok []
  | .queue (.markReferenceCopy id _) => ∀ c ∈ s.candidates.rows, c.status = .crowned →
    c.reservationId ≠ id
  | _ => True

instance (s : Store K) (op : Op K) : Decidable (s.SparesCrowns op) := by
  unfold SparesCrowns
  split <;> infer_instance

theorem SparesCrowns.spares {op : Op K} (h : s.SparesCrowns op) {c : CandidateRow K}
    (hc : c ∈ s.candidates.rows) (hcrowned : c.status = .crowned) :
    s.Spares c.reservationId op := by
  cases op with
  | queue op =>
    cases op with
    | reconcileCopies => exact h c hc hcrowned
    | markCopy id pred =>
      intro hid
      rw [hid]
      exact h c hc hcrowned hid
    | markReferenceCopy id ref => exact h c hc hcrowned
    | _ => trivial
  | _ => trivial

theorem SparesCrowns.keeps {op : Op K} (h : s.SparesCrowns op) : s.KeepsCrowned (s.step op) := by
  by_cases hp : op.permit.copies = false
  · exact .of_step hp (s.step_spec op)
  · intro id row r hrow hcrowned hr hq
    obtain ⟨hmem, rfl⟩ := find?_eq_some.1 hrow
    exact ⟨r, ((h.spares hmem hcrowned).find?_step hp).trans hr, hq, rfl⟩

theorem CrownsStand.step {p : Permit} (hp : p.settles = false) (hstep : StoreStep p s s')
    (hkeeps : s.KeepsCrowned s') (h : s.CrownsStand) : s'.CrownsStand := by
  intro id row' hrow' hcrowned'
  rcases hstep.candidateBack hrow' with ⟨row, hrow, hrowStep⟩ | hnone
  · have hcrowned := hrowStep.crowned hp hcrowned'
    obtain ⟨row₀, hrow₀, r, hr, hdig, hq, hd, hroot, hrepro⟩ := h id row hrow hcrowned
    have hkey : row.candidate.primary.reservationDigest = id := (find?_eq_some.1 hrow).2
    rw [hkey] at hrow₀ hr
    obtain rfl : row₀ = row := Option.mem_unique hrow₀ hrow
    obtain ⟨r', hr', hq', hd'⟩ := hkeeps id row₀ r hrow hcrowned hr hq
    have hsame : row'.candidate = row₀.candidate := by rw [hrowStep.kept]; rfl
    rw [hsame]
    refine ⟨row', hkey ▸ hrow', r', hkey ▸ hr', by rw [hsame], hq', hd'.trans hd, ?_, ?_⟩
    · rw [hrowStep.kept]
      exact hroot
    · rw [hrowStep.kept]
      exact hrepro
  · exact absurd hcrowned' ((hstep.newCandidate id row' hrow' hnone).2.1 hp)

/-- The candidate of a claim stays crowned. -/
theorem ClaimsCrowned.kept {p : Permit} (hstep : StoreStep p s s') (h : s.ClaimsCrowned)
    {family : Digest × String} {claim : StandingRow}
    (hclaim : s.standing.find? family = some claim) (hact : claim.active = true) :
    ∃ id row, s'.candidates.find? id = some row ∧ row.status = .crowned ∧
      row.settlementEvidenceDigest = some claim.claim.retainedEvidenceDigest := by
  obtain ⟨id, row, hrow, hcrowned, hdig⟩ := h family claim hclaim hact
  obtain ⟨row', hrow', hrowStep⟩ := hstep.candidate id row hrow
  obtain ⟨hstat', hdig'⟩ := hrowStep.settled (by rw [hcrowned]; decide)
  exact ⟨id, row', hrow', hstat'.trans hcrowned, hdig'.trans hdig⟩

theorem ClaimsCrowned.step {p : Permit} (hp : p.settles = false) (hstep : StoreStep p s s')
    (h : s.ClaimsCrowned) : s'.ClaimsCrowned := by
  intro family claim hclaim hact
  rw [hstep.standing hp] at hclaim
  exact h.kept hstep hclaim hact

/-! ### Commits -/

/-- The winner's last verdict in its plan is the crown. -/
theorem dispositionOf_winner {winner : SettlementCandidate K}
    {before after : StackArmIdentity} {events : List SettlementEvent}
    (ce : CrownEvents winner before after events) :
    dispositionOf events winner.digest = some .crowned := by
  have hrest : (ce.consequences ++ [ce.transition]).filter (fun e =>
      e.candidateDigest = winner.digest ∧ (e.eventType = .hold ∨ e.eventType = .crown)) = [] := by
    refine filter_eq_nil_iff.2 fun e he => ?_
    rcases mem_append.1 he with he | he
    · rcases mem_pair.1 (ce.consequence_type e he).1 with h | h <;> simp [h]
    · rw [mem_singleton.1 he]
      simp [ce.transition_type]
  refine (congrArg (fun l => (List.getLast? (List.filter _ l)).map _) ce.events_eq).trans ?_
  rw [filter_append, filter_cons_of_pos (by simp [ce.crown_candidate, ce.crown_type]),
    hrest, getLast?_concat, Option.map_some, ce.crown_type]
  rfl

theorem CrownsStand.commit (hret : s.Retained) (h : s.CrownsStand)
    (hcom : s.commitPlan lease ev plan block resolve = .ok s') : s'.CrownsStand := by
  obtain ⟨s₁, hled, hkept, hplan, hwrote⟩ := commitPlan_written hcom
  have hexp : StoreStep {} s s₁ := .of_queue (expireStaleRows_step hkept.expired)
  have h₁ : s₁.CrownsStand := h.step rfl hexp (.of_step rfl hexp)
  have hret₁ : s₁.Retained := hret.step rfl hexp
  intro id row' hrow' hcrowned'
  by_cases hid : id ∈ lease.candidates.map (·.primary.reservationDigest)
  · -- A candidate of the lease stands, since its evidence was reopened for the commit.
    obtain ⟨c, hc, rfl⟩ := mem_map.1 hid
    obtain ⟨rcpt, hmeta, -⟩ := hkept.evidence c hc
    obtain ⟨row, hrow, r, hr, hdig, hq, hd, hroot, hrepro⟩ := standing_of_metadata hmeta
    have hsame := hret₁.eq_of_metadata hmeta hrow
    obtain ⟨status, rcpt', -, -, hfind⟩ := hwrote.disposed c hc
    rw [hrow', Option.mem_def.1 hrow, Option.map_some, Option.some_inj] at hfind
    have hcand : row'.candidate = c := by rw [hfind]; exact hsame
    rw [hcand]
    refine ⟨row', hrow', r, ?_, by rw [hcand], hq, hd, ?_, ?_⟩
    · rw [hwrote.queue]
      exact hr
    · rw [hfind]
      exact hroot
    · rw [hfind]
      exact hrepro
  · rw [hwrote.others id hid] at hrow'
    obtain ⟨row, hrow, r, hr, hrest⟩ := h₁ id row' hrow' hcrowned'
    have hkey : row'.candidate.primary.reservationDigest = id := (find?_eq_some.1 hrow').2
    refine ⟨row, ?_, r, ?_, hrest⟩
    · rw [hkey] at hrow ⊢
      rw [hwrote.others id hid]
      exact hrow
    · rw [hwrote.queue]
      exact hr

theorem ClaimsCrowned.commit (h : s.ClaimsCrowned)
    (hcom : s.commitPlan lease ev plan block resolve = .ok s') : s'.ClaimsCrowned := by
  obtain ⟨s₁, hled, hkept, hplan, hwrote⟩ := commitPlan_written hcom
  intro family claim hclaim hact
  rcases hwrote.outcome with hhold | ⟨⟨hcrown⟩⟩
  · rw [hhold.same.standing, hled] at hclaim
    exact h.kept (commitPlan_step hcom) hclaim hact
  · rw [hcrown.crowned.standing, hled] at hclaim
    split_ifs at hclaim with hfamily
    · cases hclaim
      obtain ⟨status, rcpt, hstat, hrcpt, hfind⟩ := hwrote.disposed _ hcrown.mem
      obtain ⟨row, hrow, -⟩ := hkept.leasedRow hcrown.mem
      rw [dispositionOf_winner hcrown.events] at hstat
      rw [hcrown.crowned.receipt_eq] at hrcpt
      cases hstat
      cases hrcpt
      rw [hrow, Option.map_some] at hfind
      exact ⟨_, _, hfind, rfl,
        congrArg some (family_of_standing hcrown.crowned.claim_eq).2.symm⟩
    · exact h.kept (commitPlan_step hcom) hclaim hact

/-! ### Runs -/

theorem standing_step (hret : s.Retained) (hstand : s.CrownsStand) (hclaims : s.ClaimsCrowned)
    {op : Op K} (h : s.SparesCrowns op) : (s.step op).CrownsStand ∧ (s.step op).ClaimsCrowned := by
  rcases s.step_cases op with hsame | hp | ⟨_, _, _, _, _, hcom⟩
  · exact hsame.symm ▸ ⟨hstand, hclaims⟩
  · exact ⟨hstand.step hp (s.step_spec op) h.keeps, hclaims.step hp (s.step_spec op)⟩
  · exact ⟨hstand.commit hret hcom, hclaims.commit hcom⟩

theorem standing_run {policy : IntakePolicy} {recov : Bool} {ops : List (Op K)}
    (h : (init K policy recov).Along SparesCrowns ops) :
    ((init K policy recov).run ops).CrownsStand ∧
      ((init K policy recov).run ops).ClaimsCrowned := by
  refine (h.induction (I := fun s => s.Retained ∧ s.CrownsStand ∧ s.ClaimsCrowned) ?_ ?_).2
  · refine ⟨fun _ _ hrow => ?_, fun _ _ hrow => ?_, fun _ _ hrow => ?_⟩ <;> cases hrow
  · rintro s op ⟨hret, hstand, hclaims⟩ hop
    exact ⟨retained_step hret op, standing_step hret hstand hclaims hop⟩

/-- The evidence of a candidate that stands is not refused for want of standing. -/
theorem evidenceMetadata_of_stand {c : SettlementCandidate K}
    (h : s.hasStanding c) : s.settlementEvidenceMetadata c ≠ .error noStanding := by
  intro hfault
  obtain ⟨row, hrow, -⟩ := id h
  rw [Option.mem_def] at hrow
  simp only [settlementEvidenceMetadata, bind_eq_error, check_eq_error, get_eq_error,
    mapError_eq_error, hrow, h, noStanding, reduceCtorEq, false_and, not_true_eq_false,
    intake.injEq, String.reduceEq, and_false, exists_false, or_false] at hfault

/-- Reopening the evidence of a crowned candidate does not fail for want of standing. -/
theorem reopenClaimEvidence_of_stand (h : s.CrownsStand) (digest : Digest) :
    s.reopenClaimEvidence digest ≠ .error noStanding := by
  intro hfault
  simp only [reopenClaimEvidence, bind_eq_error, get_eq_error, check_eq_error, intake.injEq,
    String.reduceEq, and_false, false_or, get_ok, reduceCtorEq, exists_const,
    exists_false, or_false] at hfault
  obtain ⟨row, hrow, hfault⟩ := hfault
  have hcrowned : row.status = .crowned := by
    have hfound := find?_some hrow
    simp only [decide_eq_true_eq] at hfound
    exact hfound.2
  have hfind := find?_of_mem (mem_of_find?_eq_some hrow)
  exact evidenceMetadata_of_stand (h _ row hfind hcrowned) hfault

/-- The claim has a crowned candidate whose reservation is still a PASS, and its evidence is not
refused for want of standing. -/
def Stands (s : Store K) (claim : StandingRewardClaim) : Prop :=
  (∃ c ∈ s.candidates.rows,
    c.settlementEvidenceDigest = some claim.retainedEvidenceDigest ∧ c.status = .crowned ∧
      ∃ r ∈ s.reservationOf c, r.status = .qualified ∧ r.decision = some .pass) ∧
  s.reopenClaimEvidence claim.retainedEvidenceDigest ≠ .error noStanding

/-- **Active claims stand** over every run in which no crowned candidate is demoted as a copy. -/
theorem activeClaims_stand (policy : IntakePolicy) (recoverable : Bool) (ops : List (Op K))
    (h : (init K policy recoverable).Along SparesCrowns ops) :
    let s := (init K policy recoverable).run ops
    ∀ claim ∈ s.activeRewardClaims, s.Stands claim := by
  intro s claim hclaim
  obtain ⟨hstand, hclaims⟩ := standing_run h
  simp only [activeRewardClaims, mem_map, Keyed.mem_sortBy, mem_filter] at hclaim
  obtain ⟨row, ⟨hmem, hact⟩, rfl⟩ := hclaim
  obtain ⟨id, c, hc, hcrowned, hdig⟩ := hclaims _ row (find?_of_mem hmem) hact
  obtain ⟨_, -, r, hr, -, hq, hd, -⟩ := hstand id c hc hcrowned
  exact ⟨⟨c, (find?_eq_some.1 hc).1, hdig, hcrowned, r, hr, hq, hd⟩,
    reopenClaimEvidence_of_stand hstand _⟩

/-- Two submissions of the same artifact.  The later one is published into a competition of its
own and crowned there before the earlier one is even fetched. -/
def sampleCopiedCrown : List (Op intakeHashes) :=
  Sample.settled (.queue (.selectArena "x" false) :: Sample.two ++
      Sample.publish 2 1 "x" ++ Sample.claim 1 [2] ++
      Sample.pass 1 3 [sampleQualification 2 1 2 "bob" "attn" 1 sampleStack
        (samplePercent 5 isSpeedup_five)]) 4 ++
    Sample.publish 1 1 ""

theorem activeClaims_stand_sample :
    let s := (init intakeHashes {} false).run sampleCopiedCrown
    s.activeRewardClaims.length = 1 ∧ ∀ claim ∈ s.activeRewardClaims, s.Stands claim :=
  ⟨by decide, activeClaims_stand {} false sampleCopiedCrown (by decide)⟩

/-- The copy rule then takes the PASS from under the crown. -/
theorem reconcileCopies_demotes_crown :
    let s := (init intakeHashes {} false).run (sampleCopiedCrown ++ [.queue .reconcileCopies])
    ∃ claim ∈ s.activeRewardClaims, s.reopenClaimEvidence claim.retainedEvidenceDigest =
      .error noStanding := by
  decide

end Store

end Cacheon
