import Cacheon.Intake.Copies
import Cacheon.Intake.Credit

/-!
# Results are accepted whole or not at all

The acceptance of a result hands the store to its caller and checks what came back.  The caller
may use every operation of the store there, on any rows, and may raise.

* `Store.Client` : such a caller.
* `Store.Accepted` : what has happened when the acceptance returns.
* `Store.acceptEvaluationResult_atomic` : either that, or the tables are what they were.
-/

namespace Cacheon

open Fallible List Table

namespace Store

variable {K : IntakeHashes} {s s' before : Store K} {lease : EvaluationLease} {block : ℕ}
  {result : Digest}

/-- What runs inside the acceptance: the operations it does, and what it raises after them. -/
structure Client (K : IntakeHashes) where
  ops : Store K → List (Op K)
  raised : Store K → Option IntakeFault

/-- The caller's part of an acceptance. -/
def Client.body (c : Client K) (s : Store K) : Store K × Option IntakeFault :=
  (s.run (c.ops s), c.raised s)

/-- The lease is completed with the result, and so is its recovery. -/
def Completed (s : Store K) (lease : EvaluationLease) (result : Digest) : Prop :=
  ∃ stored, s.leases.find? lease.leaseId = some stored ∧ stored.state = .completed ∧
    stored.resultDigest = some result ∧ (s.recoverable = true →
      ∃ current, stored.recovery = some current ∧ current.resolution = .committed)

/-- The result of the lease is in the store, and nothing of another reservation. -/
structure Accepted (s s' : Store K) (lease : EvaluationLease) (result : Digest) : Prop where
  gained : ∀ id ∈ lease.reservationIds, s'.attempts id = s.attempts id + 1
  settled : ∀ id ∈ lease.reservationIds,
    (s'.reservations.find? id).map (·.status) ≠ some .qualifying
  others : ∀ id ∉ lease.reservationIds, s'.attempts id = s.attempts id
  completed : s'.Completed lease result

theorem Client.body_kept (c : Client K) (s : Store K) :
    s.dispositions <+: (c.body s).1.dispositions ∧
      ((c.body s).1.authority = s.authority ∨ (c.body s).1.authority = []) := by
  unfold body
  induction c.ops s using reverseRecOn with
  | nil => exact ⟨prefix_rfl, .inl rfl⟩
  | append_singleton ops op ih =>
    rw [run_concat]
    refine ⟨ih.1.trans (step_spec _ op).dispositions, ?_⟩
    rcases authority_step (s.run ops) op with hsame | hnone
    · rw [hsame]
      exact ih.2
    · exact .inr hnone

theorem completeLease_completed {phase : RecoveryPhase} {changed : String}
    (h : s.completeLease lease phase block result changed = .ok s') :
    s'.Completed lease result := by
  simp only [completeLease, bind_ok] at h
  obtain ⟨⟨s₁, lease₁⟩, h₁, h⟩ := h
  obtain ⟨⟨stored, hstored, -⟩, rfl⟩ := endLease_spec h
  have hkey := (find?_eq_some.1 hstored).2
  have hclose : (s₁.leases.update (·.leaseId = lease₁.leaseId)
      (·.closed .completed block (some result) "") fun _ => rfl).find? lease₁.leaseId =
        some (stored.closed .completed block (some result) "") :=
    (find?_update _).trans (by rw [hstored, Option.map_some, if_pos hkey])
  unfold commitRecovery at h₁
  split at h₁
  · obtain ⟨_, upd, -, -, -, hupd, rfl, rfl⟩ := evaluationRecovery_spec h₁
    obtain rfl := Option.mem_unique (find?_put.trans (if_pos rfl)) hstored
    exact ⟨_, hclose, rfl, rfl, fun _ => ⟨upd, rfl, hupd.resolution⟩⟩
  · next hr =>
    cases h₁
    exact ⟨_, hclose, rfl, rfl, fun hr' => absurd hr' hr⟩

theorem accepted_of_completeResult (h : s.completeResult before lease block result = .ok s')
    (hgrown : before.dispositions <+: s.dispositions) :
    Accepted before s' lease result := by
  simp only [completeResult, bind_ok, exists_check] at h
  obtain ⟨⟨hmems, htotal⟩, h⟩ := h
  obtain ⟨hrows, -, hled⟩ := completeLease_frame h
  obtain ⟨new, hnew⟩ := hgrown
  simp only [attempts, ← hled] at hmems htotal hnew
  have hcount (id : Digest) :
      s'.attempts id = before.attempts id + new.countP (·.reservationId = id) := by
    rw [attempts, ← hnew, countP_append, attempts]
  -- Each member is in the new part, which has no more entries than there are members.
  have hcov : lease.reservationIds ⊆ new.map (·.reservationId) := by
    intro id hid
    have hone : 1 = new.countP (·.reservationId = id) :=
      Nat.add_left_cancel ((hmems id hid).1.symm.trans (hcount id))
    obtain ⟨d, hd, hdid⟩ := countP_pos_iff.1 (hone ▸ Nat.one_pos)
    exact mem_map.2 ⟨d, hd, of_decide_eq_true hdid⟩
  have hlen : (new.map (·.reservationId)).length ≤ lease.reservationIds.length := by
    rw [← hnew, length_append] at htotal
    simp only [EvaluationLease.reservationIds, length_map]
    omega
  refine ⟨fun id hid => (hmems id hid).1, ?_, ?_, completeLease_completed h⟩
  · intro id hid
    rw [hrows]
    exact (hmems id hid).2
  · intro id hid
    have hperm := (lease.members_ok.2.subperm hcov).perm_of_length_le hlen
    rw [hcount, countP_eq_zero.2, Nat.add_zero]
    intro d hd hdid
    exact hid (hperm.mem_iff.2 (mem_map.2 ⟨d, hd, of_decide_eq_true hdid⟩))

/-- In every store that some operations lead to, and whatever the caller does and raises, a result
that comes before the deadline is accepted whole, or nothing of it is kept.  A store with recovery
asks for a renewal after the deadline and keeps nothing either. -/
theorem acceptEvaluationResult_atomic (hs : s.Reachable) (lease : EvaluationLease) (block : ℕ)
    (result : Digest) (c : Client K) (hlive : s.recoverable = false → block < lease.expiresBlock) :
    match s.acceptEvaluationResult lease block result c.body with
    | (s', none) => Accepted s s' lease result
    | (s', some _) => s'.queue = s.queue ∧ s'.ledger = s.ledger ∧ s'.authority = [] := by
  have hidle : s.authority = [] := by
    obtain ⟨policy, recoverable, ops, rfl⟩ := hs
    exact idle_run policy recoverable ops
  have hnotLate : ¬ (s.recoverable = false ∧ lease.expiresBlock ≤ block) :=
    fun h => absurd (hlive h.1) (not_lt.2 h.2)
  rw [acceptEvaluationResult, if_neg hnotLate]
  rcases acceptUnder_cases s lease block result c.body fun s => (c.body_kept s).2 with
    ⟨_, fault, hraised⟩ | ⟨after, s', hdone, -, hbody, hcompl⟩
  · rw [hraised]
    exact ⟨rfl, rfl, hidle⟩
  · rw [hdone]
    have hkept := (c.body_kept { s with authority := lease.reservationIds }).1
    rw [hbody] at hkept
    exact accepted_of_completeResult hcompl hkept

/-- The first of two published submissions is leased. -/
def sampleLeased : Store intakeHashes :=
  Sample.start.run (Sample.published ++ [.initializeStack sampleStack (sampleTree sampleStack),
      .queue (.claimEvaluationLease "worker" 2 10 1 1)])

/-- Its PASS. -/
def sampleGrading : Client intakeHashes := ⟨fun _ => sampleFirstPass 2, fun _ => none⟩

theorem acceptEvaluationResult_graded :
    ∃ lease s', sampleLeased.acceptEvaluationResult lease 2 (.ofNat 9) sampleGrading.body =
      (s', none) ∧ Accepted sampleLeased s' lease (.ofNat 9) := by
  obtain ⟨lease, s', hlive, hs'⟩ : ∃ lease s', 2 < lease.expiresBlock ∧
      sampleLeased.acceptEvaluationResult lease 2 (.ofNat 9) sampleGrading.body = (s', none) :=
    ⟨sampleLeased.leases.rows.head (by decide), _, by decide, Prod.ext rfl (by decide)⟩
  have h := acceptEvaluationResult_atomic (s := sampleLeased) ⟨{}, false, _, rfl⟩ lease 2 (.ofNat 9)
    sampleGrading fun _ => hlive
  rw [hs'] at h
  exact ⟨lease, s', hs', h⟩

end Store

end Cacheon
