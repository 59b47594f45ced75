import Cacheon.Intake.Moves

/-!
# What the operations may do to the queue

Each operation is permitted a few kinds of changes to the rows, and everything else stays.  The
permissions are stated once, here; the invariants of the store are proved from them and not from
the operations.

* `RowStep` : how one reservation may change.
* `RowsStep` : how all of them may, with the rows that are added.
* `QueueOp.permit` : what each operation is permitted, and `queueStep_spec` that it does no more.
-/

namespace Cacheon

open Fallible IntakeFault List Option Table IntakeReservation

variable {w w' : Work}

/-- The statuses of a reservation that waits for its publication. -/
def Status.unpublished : List Status := [.deferred, .reserved, .fetching, .transportRetry]

/-- The statuses that only an operator takes a reservation out of. -/
def Status.parked : List Status := [.qualified, .failed, .noDecision, .held, .expired]

/-- The work is over for good. -/
def Work.Closed (w : Work) : Prop :=
  w.status = .failed ∨ w.status = .expired ∧ w.reason ≠ Store.automaticExpiryReason

/-- A bundle that was published has a fingerprint, and its transport is over; no other bundle is
in a retry group. -/
def Work.Marked (w : Work) : Prop :=
  (w.deltaFingerprint.isSome ↔ w.publicationDigest.isSome) ∧
    (w.publicationDigest.isSome → w.status ∉ Status.unpublished) ∧
    (w.retryGroupDigest.isSome → w.publicationDigest.isSome)

/-- The publication stays, and the retry group stays or is left. -/
def Work.SamePublication (w w' : Work) : Prop :=
  w'.publicationDigest = w.publicationDigest ∧ w'.deltaFingerprint = w.deltaFingerprint ∧
    (w'.retryGroupDigest = w.retryGroupDigest ∨ w'.retryGroupDigest = none)

theorem Work.Marked.of_same (h : w.Marked) (hsame : w.SamePublication w')
    (hu : w'.status ∈ Status.unpublished → w.status ∈ Status.unpublished) : w'.Marked := by
  obtain ⟨hpublication, hdelta, hgrp⟩ := hsame
  unfold Work.Marked
  rw [hpublication, hdelta]
  refine ⟨h.1, fun hp hw => h.2.1 hp (hu hw), ?_⟩
  rcases hgrp with hgrp | hgrp <;> rw [hgrp]
  · exact h.2.2
  · exact fun hnone => absurd hnone (by decide)

/-- A published bundle may join a retry group. -/
theorem Work.Marked.of_published (h : w.Marked) (hdelta : w.deltaFingerprint.isSome)
    (hsame : w'.publicationDigest = w.publicationDigest ∧ w'.deltaFingerprint = w.deltaFingerprint)
    (hu : w'.status ∉ Status.unpublished) : w'.Marked := by
  unfold Work.Marked
  rw [hsame.1, hsame.2]
  exact ⟨h.1, fun _ => hu, fun _ => h.1.1 hdelta⟩

/-- How one reservation may change. -/
structure RowStep (p : Permit) (r r' : IntakeReservation) : Prop where
  arrival : r'.arrival = r.arrival
  epoch : r'.admissionEpoch = r.admissionEpoch
  kept_pass : p.copies = false → r.status = .qualified →
    r'.status = .qualified ∧ r'.decision = r.decision
  no_pass : p.passes = false → r'.status = .qualified →
    r.status = .qualified ∧ r'.decision = r.decision
  kept_completed : p.reopens = false → completed r.toWork → completed r'.toWork
  arena : p.publishes = false ∨ r.status ≠ .fetching →
    r'.competitionArena = r.competitionArena ∨ p.relabels ∧ r'.competitionArena = ""
  publication : p.publishes = false ∨ r.status ≠ .fetching →
    r'.publicationDigest = r.publicationDigest
  unpublished : p.reopens = false → r'.status ∈ Status.unpublished → r.status ∈ Status.unpublished
  parked : p.reopens = false → r.status ∈ Status.parked → r'.status ∈ Status.parked
  closed : r.toWork.Closed → r'.toWork.Closed
  marked : r.toWork.Marked → r'.toWork.Marked
  decided : r.status ∈ [.qualified, .failed] → r'.status ∈ [.qualified, .failed]

/-- A reservation that was just admitted. -/
structure Fresh (p : Permit) (r : IntakeReservation) : Prop where
  not_pass : p.passes = false → r.status ≠ .qualified
  unpublished : r.publicationDigest = none
  unmarked : r.toWork.Marked
  arena : r.competitionArena = ""

theorem RowStep.refl {p : Permit} (r : IntakeReservation) : RowStep p r r where
  arrival := rfl
  epoch := rfl
  kept_pass _ h := ⟨h, rfl⟩
  no_pass _ h := ⟨h, rfl⟩
  kept_completed _ h := h
  arena _ := .inl rfl
  publication _ := rfl
  unpublished _ h := h
  parked _ h := h
  closed h := h
  marked h := h
  decided h := h

theorem Work.not_closed (h : w.status ∉ [.failed, .expired]) : ¬ w.Closed := by
  rintro (hw | ⟨hw, -⟩) <;> simp [hw] at h

theorem completed_of_status (h : w.status ∈ [.qualified, .failed, .expired]) : completed w := by
  simp [completed, h]

theorem not_completed (h : w.status ∉ [.qualified, .failed, .expired, .held]) : ¬ completed w := by
  simp only [mem_cons, not_mem_nil, or_false, not_or] at h
  simp [completed, completedHold, h.1, h.2.1, h.2.2.1, h.2.2.2]

section Trans

variable {p : Permit} {r r' r'' : IntakeReservation}

/-- A change that does not touch the competition. -/
theorem RowStep.of_work (harena : w.competitionArena = r.competitionArena)
    (hpub : w.publicationDigest = r.publicationDigest)
    (hq : r.status = .qualified → p.copies = true ∧ w.status = .failed)
    (hw : p.passes = false → w.status ≠ .qualified)
    (hc : completed r.toWork → p.reopens = false → completed w)
    (hu : p.reopens = false → w.status ∈ Status.unpublished → r.status ∈ Status.unpublished)
    (hk : p.reopens = false → r.status ∈ Status.parked → w.status ∈ Status.parked)
    (hopen : ¬ r.toWork.Closed) (hm : r.toWork.Marked → w.Marked) : RowStep p r (r.withWork w) where
  arrival := rfl
  epoch := rfl
  kept_pass hcopies hr := absurd (hq hr).1 (by simp [hcopies])
  no_pass hp h := absurd h (hw hp)
  kept_completed hr hcr := hc hcr hr
  arena _ := .inl harena
  publication _ := hpub
  unpublished := hu
  parked := hk
  closed h := absurd h hopen
  marked := hm
  decided h := by
    rcases mem_pair.1 h with hr | hr
    · simp [withWork, (hq hr).2]
    · exact absurd (.inl hr) hopen

/-- A change of a reservation that is still being worked on. -/
theorem RowStep.of_active (harena : w.competitionArena = r.competitionArena)
    (hsame : r.toWork.SamePublication w) (hr : r.status ∉ Status.parked)
    (hw : p.passes = false → w.status ≠ .qualified)
    (hu : w.status ∈ Status.unpublished → r.status ∈ Status.unpublished) :
    RowStep p r (r.withWork w) := by
  refine .of_work harena hsame.1 ?_ hw ?_ (fun _ => hu) (fun _ h => absurd h hr) ?_
    fun h => h.of_same hsame hu
  · intro hq
    exact absurd (hq ▸ hr) (by decide)
  · intro hc
    refine absurd hc (not_completed fun hmem => hr ?_)
    revert hmem
    cases r.status <;> decide
  · refine Work.not_closed fun hmem => hr ?_
    revert hmem
    cases r.status <;> decide

/-- A reservation that could be claimed is held. -/
theorem RowStep.of_held (hr : r.status ∈ [.published, .reproductionPending])
    (hw : w.status = .held) (harena : w.competitionArena = r.competitionArena)
    (hsame : r.toWork.SamePublication w) : RowStep p r (r.withWork w) := by
  refine .of_active harena hsame ?_ (by simp [hw]) fun h => absurd (hw ▸ h) (by decide)
  rcases mem_pair.1 hr with h | h <;> rw [h] <;> decide

theorem RowStep.weaken {q : Permit} (hpq : p.Within q) (h : RowStep p r r') : RowStep q r r' := by
  obtain ⟨hcopies, hreopens, hrelabels, hpubs, hpasses, -⟩ := hpq
  have hp : q.publishes = false ∨ r.status ≠ .fetching →
      p.publishes = false ∨ r.status ≠ .fetching :=
    Or.imp_left fun h => Bool.eq_false_of_le_false (h ▸ hpubs)
  refine ⟨h.arrival, h.epoch, ?_, ?_, ?_, ?_, ?_, ?_, ?_, h.closed, h.marked, h.decided⟩
  · exact fun hc => h.kept_pass (Bool.eq_false_of_le_false (hc ▸ hcopies))
  · exact fun hc => h.no_pass (Bool.eq_false_of_le_false (hc ▸ hpasses))
  · exact fun hc => h.kept_completed (Bool.eq_false_of_le_false (hc ▸ hreopens))
  · exact fun hs => (h.arena (hp hs)).imp_right fun ha => ⟨hrelabels ha.1, ha.2⟩
  · exact fun hs => h.publication (hp hs)
  · exact fun hc => h.unpublished (Bool.eq_false_of_le_false (hc ▸ hreopens))
  · exact fun hc => h.parked (Bool.eq_false_of_le_false (hc ▸ hreopens))

theorem RowStep.trans (hp : p.publishes = false) (h : RowStep p r r') (h' : RowStep p r' r'') :
    RowStep p r r'' where
  arrival := h'.arrival.trans h.arrival
  epoch := h'.epoch.trans h.epoch
  kept_pass hc hq := by
    obtain ⟨hq', hd⟩ := h.kept_pass hc hq
    obtain ⟨hq'', hd'⟩ := h'.kept_pass hc hq'
    exact ⟨hq'', hd'.trans hd⟩
  no_pass hc hq := by
    obtain ⟨hq', hd⟩ := h'.no_pass hc hq
    obtain ⟨hq'', hd'⟩ := h.no_pass hc hq'
    exact ⟨hq'', hd.trans hd'⟩
  kept_completed hc hr := h'.kept_completed hc (h.kept_completed hc hr)
  arena _ := by
    rcases h'.arena (.inl hp) with h1 | h1
    · rcases h.arena (.inl hp) with h2 | h2
      · exact .inl (h1.trans h2)
      · exact .inr ⟨h2.1, h1.trans h2.2⟩
    · exact .inr h1
  publication _ := (h'.publication (.inl hp)).trans (h.publication (.inl hp))
  unpublished hc hu := h.unpublished hc (h'.unpublished hc hu)
  parked hc hr := h'.parked hc (h.parked hc hr)
  closed hr := h'.closed (h.closed hr)
  marked hr := h'.marked (h.marked hr)
  decided hr := h'.decided (h.decided hr)

theorem Fresh.step (hp : p.publishes = false) (hr : Fresh p r) (h : RowStep p r r') :
    Fresh p r' where
  not_pass hq hpass := hr.not_pass hq (h.no_pass hq hpass).1
  unpublished := (h.publication (.inl hp)).trans hr.unpublished
  unmarked := h.marked hr.unmarked
  arena := by
    rcases h.arena (.inl hp) with h | h
    · exact h.trans hr.arena
    · exact h.2

end Trans

namespace Store

variable {K : IntakeHashes}

/-- How the reservations may change. -/
structure RowsStep (p : Permit) (s s' : Store K) : Prop where
  moves : Moves p s s'
  legacy : p.relabels = false → s'.legacyArena = s.legacyArena
  kept : ∀ id r, s.reservations.find? id = some r →
    ∃ r', s'.reservations.find? id = some r' ∧ RowStep p r r'
  fresh : ∀ id r', s'.reservations.find? id = some r' → s.reservations.find? id = none → Fresh p r'

/-- An operation on the queue: the ledger stays. -/
structure QueueStep (p : Permit) (s s' : Store K) : Prop extends RowsStep p s s' where
  ledger : s'.ledger = s.ledger

variable {p q : Permit} {s s' s'' : Store K} {id : Digest} {row : IntakeReservation}

/-- Moves that leave the reservations alone. -/
theorem RowsStep.of_moves (hm : Moves p s s') (hr : s'.reservations = s.reservations)
    (hl : s'.legacyArena = s.legacyArena) : RowsStep p s s' where
  moves := hm
  legacy _ := hl
  kept id r h := ⟨r, hr ▸ h, .refl r⟩
  fresh id r' h h' := by
    rw [hr, h'] at h
    cases h

theorem RowsStep.of_eq (hc : s'.core = s.core)
    (hl : s'.legacyArena = s.legacyArena) : RowsStep p s s' :=
  .of_moves (.single (.aside hc)) (congrArg Core.reservations hc) hl

theorem RowsStep.refl (s : Store K) : RowsStep p s s := .of_eq rfl rfl

theorem RowsStep.weaken (hpq : p.Within q) (h : RowsStep p s s') : RowsStep q s s' where
  moves := h.moves.mono hpq
  legacy hl := h.legacy (Bool.eq_false_of_le_false (hl ▸ hpq.2.2.1))
  kept id r hr := by
    obtain ⟨r', hr', hstep⟩ := h.kept id r hr
    exact ⟨r', hr', hstep.weaken hpq⟩
  fresh id r' hr' hnone := by
    have hfresh := h.fresh id r' hr' hnone
    refine ⟨fun hp => hfresh.not_pass ?_, hfresh.unpublished, hfresh.unmarked, hfresh.arena⟩
    exact Bool.eq_false_of_le_false (hp ▸ hpq.2.2.2.2.1)

theorem RowsStep.back (h : RowsStep p s s') {r' : IntakeReservation}
    (h' : s'.reservations.find? id = some r') :
    (∃ r, s.reservations.find? id = some r ∧ RowStep p r r') ∨
      s.reservations.find? id = none ∧ Fresh p r' := by
  cases hr : s.reservations.find? id with
  | none => exact .inr ⟨rfl, h.fresh id r' h' hr⟩
  | some r =>
    obtain ⟨r'', hr'', hstep⟩ := h.kept id r hr
    rw [h', some_inj] at hr''
    exact .inl ⟨r, rfl, hr'' ▸ hstep⟩

theorem RowsStep.trans (hp : p.publishes = false) (h : RowsStep p s s')
    (h' : RowsStep p s' s'') : RowsStep p s s'' where
  moves := h.moves.trans h'.moves
  legacy hl := (h'.legacy hl).trans (h.legacy hl)
  kept id r hr := by
    obtain ⟨r', hr', hstep⟩ := h.kept id r hr
    obtain ⟨r'', hr'', hstep'⟩ := h'.kept id r' hr'
    exact ⟨r'', hr'', hstep.trans hp hstep'⟩
  fresh id r'' hr'' hnone := by
    rcases h'.back hr'' with ⟨r', hr', hstep⟩ | ⟨-, hfresh⟩
    · exact (h.fresh id r' hr' hnone).step hp hstep
    · exact hfresh

theorem QueueStep.of_moves (hm : Moves p s s') (hr : s'.reservations = s.reservations)
    (hl : s'.legacyArena = s.legacyArena) (hled : s'.ledger = s.ledger) :
    QueueStep p s s' := ⟨.of_moves hm hr hl, hled⟩

theorem QueueStep.of_eq (hc : s'.core = s.core)
    (hl : s'.legacyArena = s.legacyArena) (hled : s'.ledger = s.ledger) :
    QueueStep p s s' := ⟨.of_eq hc hl, hled⟩

theorem QueueStep.refl (s : Store K) : QueueStep p s s := .of_eq rfl rfl rfl

theorem QueueStep.trans (hp : p.publishes = false) (h : QueueStep p s s')
    (h' : QueueStep p s' s'') : QueueStep p s s'' :=
  ⟨h.toRowsStep.trans hp h'.toRowsStep, h'.ledger.trans h.ledger⟩

theorem QueueStep.weaken (hpq : p.Within q) (h : QueueStep p s s') :
    QueueStep q s s' := ⟨h.toRowsStep.weaken hpq, h.ledger⟩

/-! ### Changing rows -/

theorem get_iff : s.get id = .ok row ↔ s.reservations.find? id = some row := get_ok

variable {q : IntakeReservation → Prop} {f : IntakeReservation → Work}

theorem find?_mapReservations [DecidablePred q] : (s.mapReservations q f).reservations.find? id =
      (s.reservations.find? id).map fun r => if q r then r.withWork (f r) else r :=
  find?_update fun r => (rfl : (r.withWork (f r)).reservationId K = r.reservationId K)

theorem updateReservations_eq [DecidablePred q] (h : s.updateReservations q f = .ok s') :
    s' = s.mapReservations q f := by
  simp only [updateReservations, bind_ok, exists_check] at h
  obtain ⟨-, h⟩ := h
  cases h
  rfl

theorem updateReservations_step [DecidablePred q] (h : s.updateReservations q f = .ok s')
    (hf : ∀ r ∈ s.reservations.rows, q r → RowStep p r (r.withWork (f r))) :
    QueueStep p s s' := by
  have hmoves : Moves p s s' := .single (.rows h)
  obtain rfl := updateReservations_eq h
  refine ⟨⟨hmoves, fun _ => rfl, ?_, ?_⟩, rfl⟩
  · intro id r hr
    rw [find?_mapReservations, hr, map_some]
    refine ⟨_, rfl, ?_⟩
    split_ifs with hq
    · exact hf r (find?_eq_some.1 hr).1 hq
    · exact .refl r
  · intro id r' hr' hnone
    rw [find?_mapReservations, hnone] at hr'
    cases hr'

theorem updateReservation_step (h : s.updateReservation id f = .ok s')
    (hrow : s.reservations.find? id = some row)
    (hf : RowStep p row (row.withWork (f row))) : QueueStep p s s' := by
  refine updateReservations_step h fun r hr hid => ?_
  have hfind : s.reservations.find? id = some r := find?_eq_some.2 ⟨hr, hid⟩
  rw [hrow, some_inj] at hfind
  exact hfind ▸ hf

/-- An update of one reservation changes its row alone. -/
theorem find?_updateReservation (h : s.updateReservation id f = .ok s')
    (hrow : s.reservations.find? id = some row) :
    s'.reservations.find? id = some (row.withWork (f row)) ∧ ∀ id' ≠ id,
      s'.reservations.find? id' = s.reservations.find? id' := by
  obtain rfl := updateReservations_eq h
  refine ⟨?_, fun id' hid' => find?_mapReservations.trans (map_of_key_ne hid')⟩
  rw [find?_mapReservations, hrow, map_some, if_pos (find?_eq_some.1 hrow).2]

variable {status : Status} {decision : Option QualificationDecision} {reason : String}

variable {expected : List Status} {r : IntakeReservation} {block : ℕ}

section

variable (h : s.transition id expected status decision reason = .ok s')

include h

theorem transition_step (hq : .qualified ∈ expected → p.copies = true ∧ status = .failed)
    (hw : status ≠ .qualified)
    (hc : ∀ w : Work, completed w → w.status ∈ expected → status ∈ [.qualified, .failed, .expired])
    (hu : status ∈ Status.unpublished → ∀ old ∈ expected, old ∈ Status.unpublished)
    (hk : ∀ old ∈ expected, old ∈ Status.parked → status ∈ Status.parked)
    (ho : ∀ old ∈ expected, old ∉ [.failed, .expired]) : QueueStep p s s' := by
  simp only [transition, bind_ok, exists_check] at h
  obtain ⟨-, -, -, row, hrow, hstat, h⟩ := h
  refine updateReservation_step h (get_iff.1 hrow)
    (.of_work rfl rfl ?_ (fun _ => hw) ?_ ?_ ?_ ?_ ?_)
  · intro hr
    exact hq (hr ▸ hstat)
  · intro hcr _
    exact completed_of_status (hc _ hcr hstat)
  · exact fun _ h => hu h _ hstat
  · exact fun _ h => hk _ hstat h
  · exact Work.not_closed (ho _ hstat)
  · exact fun hm => hm.of_same ⟨rfl, rfl, .inl rfl⟩ fun h => hu h _ hstat

/-- A guarded change of a reservation that is still being worked on. -/
theorem active_step (hr : ∀ old ∈ expected, old ∉ Status.parked) (hw : status ≠ .qualified)
    (hu : status ∈ Status.unpublished → ∀ old ∈ expected, old ∈ Status.unpublished) :
    QueueStep p s s' := by
  simp only [transition, bind_ok, exists_check] at h
  obtain ⟨-, -, -, row, hrow, hstat, h⟩ := h
  exact updateReservation_step h (get_iff.1 hrow)
    (.of_active rfl ⟨rfl, rfl, .inl rfl⟩ (hr _ hstat) (fun _ => hw) fun h => hu h _ hstat)

end

/-! ### Expiry and admission -/

theorem expireStaleRows_step (h : s.expireStaleRows block = .ok s') : QueueStep p s s' := by
  unfold expireStaleRows at h
  split_ifs at h with hblk
  · cases h
    exact .refl s
  · simp only [bind_ok, exists_check] at h
    obtain ⟨-, -, h⟩ := h
    refine updateReservations_step h fun r _ hr => ?_
    simp only [stale, Bool.and_eq_true, decide_eq_true_eq] at hr
    have hstat := hr.1.1
    refine .of_work rfl rfl (fun hq => absurd (hq ▸ hstat) (by decide)) (by simp)
      (fun _ _ => completed_of_status (by simp)) (by simp [Status.unpublished])
      (fun _ _ => by simp [Status.parked]) (Work.not_closed fun hmem => ?_)
      fun hm => hm.of_same ⟨rfl, rfl, .inl rfl⟩ (by simp [Status.unpublished])
    revert hmem hstat
    cases r.status <;> decide

theorem expire_step (h : s.expire id block reason = .ok s') : QueueStep p s s' := by
  simp only [expire, bind_ok, exists_check] at h
  obtain ⟨_, -, -, -, h⟩ := h
  exact transition_step h (fun h => absurd h (by decide)) (by decide) (fun _ _ _ => by decide)
    (by decide) (fun _ _ _ => by decide) (by decide)

theorem activateDeferred_step (h : s.activateDeferredRows = .ok s') : QueueStep p s s' := by
  refine updateReservations_step h fun r _ hr => .of_active rfl ⟨rfl, rfl, .inl rfl⟩ ?_
    (by simp) fun _ => ?_
  · rw [hr.1]
    decide
  · rw [hr.1]
    decide

variable {arrival : FinalizedArrival}

theorem insertReservation_step (h : s.insertReservation status reason arrival = .ok s')
    (hs : status ≠ .qualified) : QueueStep p s s' := by
  have hmoves : Moves p s s' := .single (.reserve h)
  simp only [insertReservation, bind_ok, exists_check, get_ok] at h
  obtain ⟨-, rows, hrows, h⟩ := h
  cases h
  refine ⟨⟨hmoves, fun _ => rfl, ?_, ?_⟩, rfl⟩
  · intro id r hr
    refine ⟨r, (find?_of_insert hrows).trans ?_, .refl r⟩
    rw [if_neg, hr]
    rintro rfl
    rw [(rows_of_insert hrows).2] at hr
    cases hr
  · intro id r' hr' hnone
    have hfind := (find?_of_insert hrows (k := id)).symm.trans hr'
    split_ifs at hfind with hid
    · cases hfind
      refine ⟨fun _ => hs, rfl, ⟨Iff.rfl, fun h => ?_, fun h => ?_⟩, rfl⟩ <;> cases h
    · rw [hnone] at hfind
      cases hfind

variable {credit : Option Digest} {amount : ℕ}

/-- Recording the cost of an admission changes the payments and credits alone. -/
theorem recordEvalCost_spec (h : s.recordEvalCost block amount status credit arrival = .ok s') :
    ∃ payments credits, s' = { s with payments := payments, credits := credits } := by
  unfold recordEvalCost at h
  split at h
  · simp only [bind_ok, get_ok] at h
    obtain ⟨_, -, h⟩ := h
    cases h
    exact ⟨_, _, rfl⟩
  · split at h
    · split at h
      · cases h
        exact ⟨_, _, rfl⟩
      · cases h
        exact ⟨_, _, rfl⟩
    · cases h
      exact ⟨_, _, rfl⟩

theorem admission_status {pending : ℕ} :
    (s.admission block amount pending arrival).1 ≠ .qualified := by
  simp only [admission]
  split_ifs <;> simp

/-- Reserving an arrival leaves the cursor where it is. -/
theorem reserveArrival_step {n n' : ℕ}
    (h : reserveArrival block amount (s, n) arrival = .ok (s', n')) :
    QueueStep { charges := true } s s' ∧ s'.cursor = s.cursor := by
  simp only [reserveArrival] at h
  split at h
  · simp only [bind_ok, exists_check] at h
    obtain ⟨-, h⟩ := h
    cases h
    exact ⟨.refl s, rfl⟩
  · simp only [bind_ok] at h
    obtain ⟨s₁, h₁, s₂, h₂, h⟩ := h
    cases h
    obtain ⟨_, _, rfl⟩ := recordEvalCost_spec h₂
    refine ⟨(insertReservation_step h₁ admission_status).trans rfl
      (.of_moves (.single (.charge rfl rfl)) rfl rfl rfl), ?_⟩
    simp only [insertReservation, bind_ok, exists_check, get_ok] at h₁
    obtain ⟨-, _, -, h₁⟩ := h₁
    cases h₁
    rfl

variable {arrivals : List FinalizedArrival} {state state' : Store K × ℕ} {α : Type}

theorem reserveArrivals_step
    (h : arrivals.foldlM (reserveArrival block amount) state = .ok state') :
    QueueStep { charges := true } state.1 state'.1 ∧ state'.1.cursor = state.1.cursor :=
  foldlM_rel (R := fun state state' : Store K × ℕ =>
    QueueStep { charges := true } state.1 state'.1 ∧ state'.1.cursor = state.1.cursor)
    (fun state => ⟨.refl state.1, rfl⟩)
    (fun _ _ _ h h' => ⟨h.1.trans rfl h'.1, h'.2.trans h.2⟩)
    (fun _ _ _ _ h => reserveArrival_step h) h

theorem reserveFinalized_step {hash : Digest}
    (h : s.reserveFinalized arrivals block hash amount = .ok s') :
    QueueStep { charges := true } s s' := by
  simp only [reserveFinalized, bind_ok, exists_check] at h
  obtain ⟨-, -, s₁, h₁, s₂, h₂, hcursor, state, h₃, h⟩ := h
  cases h
  obtain ⟨h₄, hsame⟩ := reserveArrivals_step h₃
  exact (((expireStaleRows_step h₁).trans rfl (activateDeferred_step h₂)).trans
    rfl h₄).trans rfl (.of_moves (.single (.finalize (hsame ▸ hcursor))) rfl rfl rfl)

/-! ### Sequences of changes -/

theorem transactions_step {f : Store K → α → Intake (Store K)} {l : List α}
    (hp : p.publishes = false) (hf : ∀ s a s', a ∈ l → f s a = .ok s' → QueueStep p s s') :
    QueueStep p s (transactions f l s).1 := by
  induction l generalizing s with
  | nil => exact .refl s
  | cons a l ih =>
    unfold transactions
    split
    · exact .refl s
    · next s₁ h₁ =>
      have hrest := ih (s := s₁) fun s a s' ha => hf s a s' (mem_cons_of_mem _ ha)
      exact (hf s a s₁ (by simp) h₁).trans hp hrest

variable {x : Intake (Store K)} {arena : String}

/-- What holds before a transaction and after one that went through. -/
theorem committed_cases {I : Store K → Prop} (hs : I s)
    (h : ∀ s', x = .ok s' → I s') : I (s.committed x).1 := by
  cases x with
  | error fault => exact hs
  | ok s' => exact h s' rfl

theorem eq_ok_of_committed (h : s.committed x = (s', none)) : x = .ok s' := by
  cases x with
  | error fault => cases h
  | ok s' =>
    cases h
    rfl

theorem committed_step
    (h : ∀ s', x = .ok s' → QueueStep p s s') : QueueStep p s (s.committed x).1 :=
  committed_cases (.refl s) h

/-! ### Transport and publication -/

theorem markFetching_step (h : s.markFetching id = .ok s') : QueueStep p s s' := by
  simp only [markFetching, bind_ok, exists_check] at h
  obtain ⟨row, hrow, hstat, h⟩ := h
  refine updateReservation_step h (get_iff.1 hrow)
    (.of_active rfl ⟨rfl, rfl, .inl rfl⟩ ?_ ?_ fun _ => ?_)
  · rcases mem_pair.1 hstat with h | h <;> rw [h] <;> decide
  · intro _
    simp only
    split_ifs <;> decide
  · rcases mem_pair.1 hstat with h | h <;> rw [h] <;> decide

theorem markTransportRetry_step
    (h : s.markTransportRetry id reason = .ok s') : QueueStep p s s' := by
  simp only [markTransportRetry, bind_ok] at h
  obtain ⟨row, -, h⟩ := h
  refine active_step h (by decide) ?_ fun _ => by decide
  split_ifs <;> decide

theorem markFailed_step (h : s.markFailed id reason = .ok s') : QueueStep p s s' :=
  active_step h (by decide) (by decide) (by decide)

theorem markHeld_step (h : s.markHeld id reason = .ok s') : QueueStep p s s' := by
  refine transition_step h (fun h => absurd h (by decide)) (by decide) (fun w hc hw => ?_)
    (by decide) (fun _ _ _ => by decide) (by decide)
  refine absurd hc (not_completed fun hmem => ?_)
  -- No status that may be held is one of a completed reservation.
  revert hw hmem
  cases w.status <;> decide

theorem expireBeforeClaim_step (h : s.expireBeforeClaim id reason = .ok s') :
    QueueStep { charges := true } s s' := by
  simp only [expireBeforeClaim, bind_ok, exists_check] at h
  obtain ⟨-, -, row, hrow, hstat, s₁, h₁, h⟩ := h
  cases h
  have hstep : QueueStep { charges := true } s s₁ := by
    refine updateReservation_step h₁ (get_iff.1 hrow)
      (.of_active rfl ⟨rfl, rfl, .inl rfl⟩ ?_ (by simp) (by simp [Status.unpublished]))
    rcases mem_pair.1 hstat.1 with h | h <;> rw [h] <;> decide
  exact hstep.trans rfl (.of_moves (.single (.charge rfl rfl)) rfl rfl rfl)

theorem markUnavailable_step {target : String}
    (h : s.markTargetUnavailable id target = .ok s') : QueueStep { charges := true } s s' := by
  simp only [markTargetUnavailable, bind_ok, exists_check] at h
  exact expireBeforeClaim_step h.2

theorem markPublished_step {fingerprint : SubmittedDeltaFingerprint} {pub : Digest}
    {root : String} (h : s.markPublished id fingerprint pub root arena = .ok s') :
    QueueStep { publishes := true } s s' := by
  simp only [markPublished, bind_ok, exists_check] at h
  obtain ⟨_, -, row, hrow, hstat, h⟩ := h
  refine updateReservation_step h (get_iff.1 hrow) ⟨rfl, rfl, ?_, ?_, ?_, ?_, ?_, ?_, ?_,
    ?_, ?_, ?_⟩
  · intro _ hq
    exact absurd (hstat.symm.trans hq) (by decide)
  · intro _ hq
    simp only [withWork] at hq
    split_ifs at hq
  · intro _ hc
    exact absurd hc (not_completed (by rw [hstat]; decide))
  · rintro (h | h)
    · exact absurd h (by decide)
    · exact absurd hstat h
  · rintro (h | h)
    · exact absurd h (by decide)
    · exact absurd hstat h
  · intro _ _
    rw [hstat]
    decide
  · intro _ h
    exact absurd (hstat ▸ h) (by decide)
  · exact fun h => absurd h (Work.not_closed (by rw [hstat]; decide))
  · intro _
    refine ⟨Iff.rfl, fun _ => ?_, fun _ => rfl⟩
    simp only [withWork]
    split_ifs <;> decide
  · exact fun h => absurd (hstat ▸ h) (by decide)

theorem selectArena_step {legacy : Bool} (h : s.selectArena arena legacy = .ok s') :
    QueueStep { relabels := legacy } s s' := by
  simp only [selectArena, bind_ok, exists_check] at h
  obtain ⟨-, h⟩ := h
  split at h
  · next hleg =>
    simp only [bind_ok, exists_check] at h
    obtain ⟨-, -, s₁, h₁, h⟩ := h
    cases h
    have hstep : QueueStep { relabels := legacy } s s₁ := by
      refine updateReservations_step h₁ fun r _ _ =>
        ⟨rfl, rfl, ?_, ?_, ?_, ?_, ?_, fun _ h => h, fun _ h => h, fun h => h,
          fun h => h, fun h => h⟩
      · exact fun _ h => ⟨h, rfl⟩
      · exact fun _ h => ⟨h, rfl⟩
      · exact fun _ h => h
      · exact fun _ => .inr ⟨hleg, rfl⟩
      · exact fun _ => rfl
    exact ⟨⟨hstep.moves.trans (.single (.aside rfl)), fun h => absurd hleg (by simp_all),
      hstep.kept, hstep.fresh⟩, hstep.ledger⟩
  · simp only [bind_ok, exists_check] at h
    obtain ⟨-, h⟩ := h
    cases h
    exact .of_eq rfl rfl rfl

/-! ### Copies -/

theorem copyable_step (h : s.transition id Status.copyable .failed (some .fail) reason = .ok s') :
    QueueStep { copies := true } s s' :=
  transition_step h (fun _ => ⟨rfl, rfl⟩) (by decide) (fun _ _ _ => by decide)
    (by decide) (fun _ _ _ => by decide) (by decide)

theorem markCopy_step {pred : Digest} (h : s.markCopy id pred = .ok s') :
    QueueStep { copies := true } s s' := by
  simp only [markCopy, bind_ok, exists_check] at h
  obtain ⟨_, -, _, -, -, _, -, -, h⟩ := h
  exact copyable_step h

theorem markReferenceCopy_step {ref : String}
    (h : s.markReferenceCopy id ref = .ok s') : QueueStep { copies := true } s s' := by
  simp only [markReferenceCopy, bind_ok, exists_check] at h
  exact copyable_step h.2

/-- The walk over the copies either leaves the store or demotes one of them. -/
theorem demoteCopy_cases {answer : Option Digest} (h : s.demoteCopy row = .ok (s', answer)) :
    s' = s ∨ ∃ pred, s.markCopy (row.reservationId K) pred = .ok s' := by
  unfold demoteCopy at h
  split at h
  · cases h
    exact .inl rfl
  · simp only [bind_ok] at h
    obtain ⟨preds, -, h⟩ := h
    split at h
    · cases h
      exact .inl rfl
    · simp only [bind_ok] at h
      obtain ⟨s₁, h₁, h⟩ := h
      cases h
      exact .inr ⟨_, h₁⟩

/-- What every demotion keeps, the whole walk keeps. -/
theorem demoteCopies_invariant {I : Store K → Prop} (rows : List IntakeReservation) (hs : I s)
    (hstep : ∀ s id pred s', I s → s.markCopy id pred = .ok s' → I s') :
    I (demoteCopies rows s).1 := by
  induction rows generalizing s with
  | nil => exact hs
  | cons row rows ih =>
    unfold demoteCopies
    split
    · exact hs
    · next h₁ =>
      rcases demoteCopy_cases h₁ with rfl | ⟨pred, hmark⟩
      · exact ih hs
      · exact ih (hstep _ _ _ _ hs hmark)

theorem reconcileCopies_step : QueueStep { copies := true } s s.reconcileCopies.1 :=
  demoteCopies_invariant s.all (.refl s) fun _ _ _ _ hs h => hs.trans rfl (markCopy_step h)

/-! ### Taking work up again -/

theorem releaseHold_step (h : s.releaseHold id reason = .ok s') :
    QueueStep { reopens := true } s s' := by
  simp only [releaseHold, bind_ok, exists_check] at h
  obtain ⟨-, row, hrow, hstat, h⟩ := h
  refine updateReservation_step h (get_iff.1 hrow) (.of_work rfl rfl ?_ ?_ ?_ ?_ ?_ ?_ ?_)
  · intro hq
    exact absurd (hq ▸ hstat) (by decide)
  · intro _
    simp only
    split_ifs <;> decide
  · intro _ h
    exact absurd h (by decide)
  · exact fun h => absurd h (by decide)
  · exact fun h => absurd h (by decide)
  · exact Work.not_closed (by rcases mem_pair.1 hstat with h | h <;> rw [h] <;> decide)
  · -- Only work without a publication goes back to its transport.
    intro hm
    refine ⟨hm.1, fun hp => ?_, fun hgrp => by cases hgrp⟩
    simp only [show row.publicationDigest.isSome from hp, if_true]
    split_ifs <;> decide

variable {authority : Digest}

variable {rest : Digest × String} {allowRepeat : Bool}

theorem requeueRow_step (hs : ∀ r, s.reservations.find? rest.1 = some r →
      r.status ≠ .qualified ∧ ¬ r.toWork.Closed)
    (h : requeueRow authority block s rest = .ok s') : QueueStep { reopens := true } s s' := by
  have hstep := updateReservations_step (p := { reopens := true }) h ?_
  · have hreset : QueueStep { reopens := true } s
        { s with slaResets := s.slaResets.put ⟨rest.1, block, authority, rest.2⟩ } :=
      .of_eq rfl rfl rfl
    exact hreset.trans rfl hstep
  · intro r hr hid
    obtain ⟨hpass, hopen⟩ := hs r (find?_eq_some.2 ⟨hr, hid⟩)
    exact .of_work rfl rfl (fun hq => absurd hq hpass) (by simp)
      (fun _ h => absurd h (by decide)) (by simp [Status.unpublished])
      (fun h => absurd h (by decide)) hopen fun hm => hm.of_same ⟨rfl, rfl, .inr rfl⟩ (by
        simp [Status.unpublished])

/-- Reopening rows, one after the other. -/
theorem requeueRows_step {l : List (Digest × String)}
    (hl : ∀ rest ∈ l, ∀ r, s.reservations.find? rest.1 = some r →
      r.status ≠ .qualified ∧ ¬ r.toWork.Closed)
    (h : l.foldlM (requeueRow authority block) s = .ok s') :
    QueueStep { reopens := true } s s' := by
  induction l generalizing s with
  | nil =>
    cases h
    exact .refl _
  | cons a l ih =>
    simp only [foldlM_cons, bind_ok] at h
    obtain ⟨s₁, h₁, h⟩ := h
    refine (requeueRow_step (hl a (by simp)) h₁).trans rfl (ih ?_ h)
    intro rest hmem r hr
    obtain rfl := updateReservations_eq h₁
    rw [find?_mapReservations] at hr
    obtain ⟨r₀, hr₀, rfl⟩ := map_eq_some_iff.1 hr
    -- The row is the one that was reopened, or it is as it was.
    split_ifs
    · exact ⟨by simp [withWork], Work.not_closed (by simp [withWork])⟩
    · exact hl rest (mem_cons_of_mem _ hmem) r₀ hr₀

variable {rows : List IntakeReservation} {ids : List Digest}

theorem requeue_step
    (h : s.requeueValidatorDowntimeExpired ids authority block allowRepeat = .ok s') :
    QueueStep { reopens := true } s s' := by
  simp only [requeueValidatorDowntimeExpired, bind_ok, exists_check] at h
  obtain ⟨-, -, -, rows, hrows, rest, hrestored, h⟩ := h
  refine requeueRows_step ?_ h
  intro one hone r hr
  obtain ⟨row, hrow, hspec⟩ := exists_of_mapM hrestored hone
  simp only [requeueOne, bind_ok, exists_check] at hspec
  obtain ⟨-, -, ⟨hexp, hreason⟩, _, -, -, -, hspec⟩ := hspec
  cases hspec
  have hfind : s.reservations.find? (row.reservationId K) = some row := by
    obtain ⟨_, -, hget⟩ := exists_of_mapM hrows hrow
    exact find?_of_mem (find?_eq_some.1 (get_iff.1 hget)).1
  rw [hr, some_inj] at hfind
  subst hfind
  refine ⟨by simp [hexp], ?_⟩
  rintro (hfail | ⟨-, hne⟩)
  · exact absurd (hexp.symm.trans hfail) (by decide)
  · exact hne hreason

/-! ### Segments and evaluation leases -/

variable {state : EvaluationStackState}

/-- Binding a segment changes the segments alone. -/
theorem bindBaseline_eq (h : s.bindReservationBaselineSegment id state reason = .ok s') :
    ∃ t, s' = s.withSegments t := by
  simp only [bindReservationBaselineSegment, bind_ok, exists_check] at h
  obtain ⟨-, _, -, -, _, -, _, -, h⟩ := h
  cases h
  exact ⟨_, rfl⟩

variable {arena : Digest}

/-- A stack that is reopened is the one of its arena. -/
theorem evaluationStack_spec (h : s.evaluationStack arena = .ok state) :
    ∃ row, s.evaluationStacks.find? arena = some row ∧
      state = row.toEvaluationStackState ∧ state.arenaDigest = arena := by
  simp only [evaluationStack, reopenStack, bind_ok, exists_check, get_ok] at h
  obtain ⟨row, hrow, -, h⟩ := h
  cases h
  exact ⟨row, hrow, rfl, (find?_eq_some.1 hrow).2⟩

theorem arenas_of_stack (h : s.evaluationStack arena = .ok state) :
    state.arenaDigest = arena ∧ s.core.arenas arena = true := by
  obtain ⟨row, hrow, -, harena⟩ := evaluationStack_spec h
  refine ⟨harena, ?_⟩
  show (s.evaluationStacks.find? arena).isSome = true
  rw [hrow]
  rfl

variable {stack : Option EvaluationStackState}

theorem arenas_of_unambiguous (h : s.unambiguousEvaluationStack arena = .ok stack) :
    ∀ state ∈ stack, s.core.arenas state.arenaDigest = true := by
  unfold unambiguousEvaluationStack at h
  split at h
  · next row hrow =>
    have hreop : s.evaluationStack arena = reopenStack row.toEvaluationStackState := by
      simp only [evaluationStack, hrow]
      rfl
    cases hstate : reopenStack row.toEvaluationStackState with
    | error fault =>
      rw [hstate] at h
      cases h
    | ok state =>
      rw [hstate] at h
      cases h
      rintro _ ⟨⟩
      obtain ⟨harena, hstack⟩ := arenas_of_stack (hreop.trans hstate)
      rw [harena]
      exact hstack
  · cases h
    intro _ hnone
    cases hnone

theorem bindBaseline_step
    (hid : s.leased id → id ∈ s.authority) (hstack : s.core.arenas state.arenaDigest = true)
    (h : s.bindReservationBaselineSegment id state reason = .ok s') : QueueStep p s s' := by
  have hmoves : Moves p s s' := .single (.bind hid hstack h)
  obtain ⟨t, rfl⟩ := bindBaseline_eq h
  exact .of_moves hmoves rfl rfl rfl

theorem eq_of_bindClaim (h : s.bindClaim id stack = .ok s') : ∃ t, s' = s.withSegments t := by
  unfold bindClaim at h
  split at h
  · exact bindBaseline_eq h
  · cases h
    exact ⟨_, rfl⟩

variable {inc : EvaluationStackManifest} {tree : Digest} {owner : String} {leaseBlocks : ℕ}

/-- Rebinding rows that no lease holds. -/
theorem rebindRows_step (hrows : ∀ r ∈ rows, s.leased (r.reservationId K) = false)
    (hstack : s.core.arenas inc.arenaDigest = true)
    (h : rows.foldlM (fun s r => s.rebindRow inc tree r) s = .ok s') : QueueStep {} s s' := by
  induction rows generalizing s with
  | nil =>
    cases h
    exact .refl _
  | cons r rows ih =>
    simp only [foldlM_cons, bind_ok] at h
    obtain ⟨s₁, h₁, h⟩ := h
    have hr := hrows r (by simp)
    have hrest := fun r' hr' => hrows r' (mem_cons_of_mem r hr')
    simp only [rebindRow, bind_ok] at h₁
    obtain ⟨_, -, h₁⟩ := h₁
    split at h₁
    · cases h₁
      exact ih hrest hstack h
    · -- Neither the removal of the old segment nor the binding touches the leases.
      have hunbound : QueueStep {} s (s.withSegments
          (s.segments.filter (·.reservationId ≠ r.reservationId K))) :=
        .of_moves (.single (.unbind hr)) rfl rfl rfl
      have hfree : (s.withSegments (s.segments.filter
          (·.reservationId ≠ r.reservationId K))).leased (r.reservationId K) = false := hr
      have hbound := bindBaseline_step (p := {}) (by simp [hfree]) hstack h₁
      obtain ⟨t, rfl⟩ := bindBaseline_eq h₁
      exact (hunbound.trans rfl hbound).trans rfl (ih hrest hstack h)

theorem markQualifying_step {authority svc : Digest}
    (h : s.markQualifying id authority svc = .ok s') : QueueStep {} s s' := by
  simp only [markQualifying, bind_ok, exists_check] at h
  obtain ⟨_, hauth, row, hrow, -, hstat, stack, hstack, s₁, h₁, h⟩ := h
  simp only [requireEvaluationMutationAuthority, bind_ok, check_ok, exists_const] at hauth
  have hstep : QueueStep {} s s₁ := by
    unfold bindClaim at h₁
    split at h₁
    · next state hstate =>
      exact bindBaseline_step hauth.2 (arenas_of_unambiguous
        hstack state (eq_some_of_filter_eq_some hstate)) h₁
    · cases h₁
      exact .refl s
  obtain ⟨t, rfl⟩ := eq_of_bindClaim h₁
  refine hstep.trans rfl (updateReservation_step h (get_iff.1 hrow)
    (.of_active rfl ⟨rfl, rfl, .inl rfl⟩ ?_ (by simp) (by simp [Status.unpublished])))
  rcases mem_pair.1 hstat with h | h <;> rw [h] <;> decide

/-- Expiring leases that are due, one after the other. -/
theorem expireLeases_step {due : List EvaluationLease} (hclock : s.clock = some block)
    (hr : s.recoverable = false)
    (hdue : ∀ l ∈ due, s.leases.find? l.leaseId = some l ∧ l.expiresBlock ≤ block)
    (hids : (due.map (·.leaseId)).Nodup)
    (h : due.foldlM (fun s lease => s.expireLease block lease) s = .ok s') : QueueStep {} s s' := by
  induction due generalizing s with
  | nil =>
    cases h
    exact .refl _
  | cons l due ih =>
    simp only [foldlM_cons, bind_ok, expireLease, exists_check] at h
    obtain ⟨s₁, ⟨-, h₁⟩, h⟩ := h
    obtain ⟨hl, hdead⟩ := hdue l (by simp)
    have hmove : Moves {} s s₁ := .single (.expire hclock hr hdead hl h₁)
    obtain ⟨-, rfl⟩ := endLease_spec h₁
    obtain ⟨hfresh, hids⟩ := nodup_cons.1 hids
    refine QueueStep.trans rfl (.of_moves hmove rfl rfl rfl) (ih hclock hr ?_ hids h)
    intro l' hl'
    -- The leases that come later have other ids.
    have hne : l'.leaseId ≠ l.leaseId := fun heq => hfresh (List.mem_map.2 ⟨l', hl', heq⟩)
    refine ⟨?_, (hdue l' (mem_cons_of_mem _ hl')).2⟩
    have hkept (e : EvaluationLease) :
        (e.closed .expired block none "evaluation_lease_expired").leaseId = e.leaseId := rfl
    refine Eq.trans (find?_update hkept) ?_
    rw [(hdue l' (mem_cons_of_mem _ hl')).1, map_some, if_neg hne]

theorem expireDueLeases_step (hclock : s.clock = some block)
    (h : s.expireDueLeases block = .ok s') :
    QueueStep {} s s' := by
  unfold expireDueLeases at h
  split at h
  · simp only [bind_ok] at h
    obtain ⟨_, -, h⟩ := h
    cases h
    exact .refl _
  · next hr =>
    refine expireLeases_step hclock (Bool.eq_false_iff.2 hr) ?_ ?_ h
    · intro l hl
      obtain ⟨hmem, hkeep⟩ := mem_filter.1 (Keyed.mem_sortBy.1 hl)
      exact ⟨find?_of_mem hmem, by simpa using (of_decide_eq_true hkeep).2⟩
    · refine (Keyed.sortBy_perm.map _).nodup_iff.2 ?_
      exact s.leases.distinct.sublist (filter_sublist.map _)

theorem expireEvaluationLeases_step (h : s.expireEvaluationLeases block = .ok s') :
    QueueStep {} s s' := by
  simp only [expireEvaluationLeases, bind_ok] at h
  obtain ⟨_, hclock, h⟩ := h
  exact expireDueLeases_step (evaluationClock_ok.1 hclock) h

theorem clock_expireDueLeases (h : s.expireDueLeases block = .ok s') : s'.clock = s.clock := by
  unfold expireDueLeases at h
  split at h
  · simp only [bind_ok] at h
    obtain ⟨_, -, h⟩ := h
    cases h
    rfl
  · refine foldlM_rel (R := fun s s' : Store K => s'.clock = s.clock) (fun _ => rfl)
      (fun _ _ _ h h' => h'.trans h) (fun s lease s' _ h => ?_) h
    simp only [expireLease, bind_ok, exists_check] at h
    obtain ⟨-, rfl⟩ := endLease_spec h.2
    rfl

theorem clock_expireStaleRows (h : s.expireStaleRows block = .ok s') : s'.clock = s.clock := by
  unfold expireStaleRows at h
  split at h
  · cases h
    rfl
  · simp only [bind_ok, exists_check] at h
    rw [updateReservations_eq h.2.2]
    rfl

/-- A new lease changes the leases and their histories alone. -/
theorem openLease_spec {members : List (Digest × Status)}
    (h : s.openLease owner block leaseBlocks members = .ok s') :
    ∃ lease : EvaluationLease, lease.members = members ∧ lease.owner = owner ∧
      lease.competitionArena = s.selectedArena ∧ lease.state = .active ∧
      lease.claimedBlock = block ∧ lease.expiresBlock = lease.initialExpiresBlock ∧
      lease.recovery = none ∧ ∃ leases, s.leases.insert lease = some leases ∧
      s' = ((s.withLeases leases).appendEvaluationLeaseEvent lease .claimed block none
        "").createEvaluationRecovery lease := by
  simp only [openLease] at h
  split at h
  · simp only [bind_ok, get_ok] at h
    obtain ⟨leases, hleases, h⟩ := h
    cases h
    exact ⟨_, rfl, rfl, rfl, rfl, rfl, rfl, rfl, leases, hleases, rfl⟩
  · cases h

theorem claimEvaluationLease_step {maxMembers maxActive : ℕ}
    (h : s.claimEvaluationLease owner block leaseBlocks maxMembers maxActive = .ok s') :
    QueueStep { capacity := maxActive } s s' := by
  simp only [claimEvaluationLease, bind_ok, exists_check] at h
  obtain ⟨-, -, _, hclock, s₁, h₁, s₂, h₂, hcap, selected, hsel, h⟩ := h
  rw [evaluationClock_ok] at hclock
  have hexp : QueueStep { capacity := maxActive } s s₁ :=
    (expireDueLeases_step hclock h₁).weaken (Permit.none_within _)
  have hstep := hexp.trans rfl (expireStaleRows_step h₂)
  split at h
  · cases h
    exact hstep
  · have hclock₂ : s₂.clock = some block := by
      rw [← hclock, ← clock_expireDueLeases h₁]
      exact clock_expireStaleRows h₂
    have hmoves : Moves { capacity := maxActive } s₂ s' :=
      .single (.claim hclock₂ ⟨hcap, le_rfl⟩ hsel h)
    obtain ⟨lease, -, -, -, -, -, -, -, leases, -, rfl⟩ := openLease_spec h
    refine hstep.trans rfl (.of_moves hmoves ?_ ?_ ?_) <;>
    · unfold createEvaluationRecovery
      split <;> rfl

/-! ### Recovery -/

section Recovery

variable {lease ret lease' : EvaluationLease} {block : ℕ}

variable {phase : RecoveryPhase} {reason : String}

variable {plan : Option RequestPlan} {current : EvaluationRecovery}

/-- A transition of an unresolved recovery is one move. -/
theorem transition_recover {eventType : RecoveryEventType} (hclock : s.clock = some block)
    (hret : Extends lease ret)
    (h : s.transitionEvaluationRecovery lease ret phase .unresolved eventType block reason
      plan = .ok (s', lease')) (hcur : lease.recovery = some current)
    (hlaw : ∀ upd, Transitioned current upd phase .unresolved block reason plan →
      recoveryEventLaw (recoveryEvent 0 .claimed lease current)
        (recoveryEvent 0 eventType { ret with recovery := some upd } upd)
        eventType) : QueueStep p s s' := by
  obtain ⟨current', upd, hcur', -, -, hupd, hlease', hs'⟩ := evaluationRecovery_spec h
  obtain rfl : current' = current := mem_unique hcur' hcur
  have hmove : Moves p s s' := by
    refine .single (.recover hclock hcur hret h fun u hu => ?_)
    rw [hlease'] at hu ⊢
    cases hu
    exact hlaw upd hupd
  subst hs'
  exact .of_moves hmove rfl rfl rfl

theorem advanceRecoveryPhase_step
    (h : s.advanceRecoveryPhase lease phase plan block = .ok s') : QueueStep p s s' := by
  simp only [advanceRecoveryPhase, bind_ok, exists_check] at h
  obtain ⟨_, hclock, ⟨current, hcur, hopen, hphase, -⟩, hplan, -, ⟨s₁, lease'⟩, h₁, h⟩ := h
  cases h
  exact transition_recover (evaluationClock_ok.1 hclock) (.inl rfl) h₁ hcur
    fun _ => advance_law hphase hopen hplan

variable {leaseBlocks : ℕ}

theorem renewRecoveryLease_step
    (h : s.renewRecoveryLease lease block leaseBlocks = .ok s') : QueueStep p s s' := by
  simp only [renewRecoveryLease, bind_ok, exists_check] at h
  obtain ⟨⟨⟨current, hcur, hopen, hphase⟩, -, -⟩, _, hclock, current', hact, h⟩ := h
  obtain rfl : current' = current := some_inj.1 ((activeRecovery_spec hact).1.symm.trans hcur)
  split at h
  · next hlater =>
    simp only [bind_ok] at h
    obtain ⟨⟨s₁, lease'⟩, h₁, h⟩ := h
    cases h
    exact transition_recover (evaluationClock_ok.1 hclock) (.inr ⟨_, _, rfl⟩) h₁ hcur
      fun _ => renew_law hopen hphase hlater
  · cases h

theorem holdRecovery_step (h : s.holdRecovery lease block reason = .ok s') : QueueStep p s s' := by
  simp only [holdRecovery, bind_ok, exists_check] at h
  obtain ⟨_, hclock, ⟨⟨current, hcur, hopen, hphase⟩, hreason, -⟩, ⟨s₁, lease'⟩, h₁, h⟩ := h
  cases h
  refine transition_recover (evaluationClock_ok.1 hclock) (.inl rfl) h₁ hcur ?_
  intro upd hupd
  exact ⟨rfl, by simp [recoveryEvent, hupd.plan], ⟨hopen, hupd.resolution, hphase⟩,
    hupd.phase, by rw [recoveryEvent, hupd.reason]; exact hreason⟩

variable {releasePhase : Option RecoveryPhase} {allowExpired : Bool}

section

variable (h : s.releaseRecovery lease block reason releasePhase allowExpired = .ok s')

include h

/-- A release resolves the recovery and ends the lease, nothing else. -/
theorem releaseRecovery_spec : ∃ current upd, s.clock = some block ∧ lease.state = .active ∧
      lease.recovery = some current ∧ s.leases.find? lease.leaseId = some lease ∧
      (block < lease.expiresBlock ∨ allowExpired) ∧ s.membersUnchanged lease ∧
      Transitioned current upd (releasePhase.getD current.phase) .preResidentReleased block
        reason none ∧
      s' = (({ s with
        leases := s.leases.put { lease with recovery := some upd }
        recoveryEvents := s.recoveryEvents ++
          [recoveryEvent (s.recoveryEvents.length + 1) .preResidentReleased
            { lease with recovery := some upd } upd] } : Store K).withLeases
        ((s.leases.put { lease with recovery := some upd }).update
          (·.leaseId = lease.leaseId) (·.closed .released block none reason)
          fun _ => rfl)).appendEvaluationLeaseEvent lease .released block none reason := by
  simp only [releaseRecovery, bind_ok, exists_check, get_ok] at h
  obtain ⟨_, hclock, current, hcur, ⟨-, hdead⟩, _, hact, hmems, ⟨s₁, lease'⟩, h₁, h⟩ := h
  rw [evaluationClock_ok] at hclock
  rw [evaluationLease_ok] at hact
  obtain ⟨current', upd, hcur', hfind, -, hupd, rfl, rfl⟩ := evaluationRecovery_spec h₁
  obtain rfl : current' = current := mem_unique hcur' hcur
  obtain ⟨-, rfl⟩ := endLease_spec h
  exact ⟨current', upd, hclock, hact.1, hcur, hfind, hdead, hmems, hupd, rfl⟩

theorem releaseRecovery_step : QueueStep { releases := true } s s' := by
  have hmoves : Moves { releases := true } s s' := .single (.release rfl h)
  obtain ⟨_, _, -, -, -, -, -, -, -, rfl⟩ := releaseRecovery_spec h
  exact .of_moves hmoves rfl rfl rfl

end

theorem releaseAndCap_step {cap : Bool} : QueueStep { releases := true } s
      (s.releaseAndCap lease block reason releasePhase allowExpired cap).1 := by
  unfold releaseAndCap
  split
  · exact .refl s
  · next s₁ h₁ =>
    split_ifs
    · refine (releaseRecovery_step h₁).trans rfl (transactions_step rfl fun _ m _ hm h => ?_)
      simp only [capMember] at h
      split_ifs at h
      · cases h
        exact .refl _
      · exact updateReservations_step h fun r _ hr =>
          .of_held (hr.2 ▸ lease.member_status m hm) rfl rfl ⟨rfl, rfl, .inl rfl⟩
    · exact releaseRecovery_step h₁

/-! ### Completion -/

variable {res : Digest}

variable {changed : String}

/-- A completion resolves the recovery and ends the lease, nothing else. -/
theorem completeLease_frame (h : s.completeLease lease phase block res changed = .ok s') :
    s'.reservations = s.reservations ∧ s'.legacyArena = s.legacyArena ∧ s'.ledger = s.ledger := by
  simp only [completeLease, bind_ok] at h
  obtain ⟨⟨s₁, lease'⟩, h₁, h⟩ := h
  obtain ⟨-, rfl⟩ := endLease_spec h
  unfold commitRecovery at h₁
  split at h₁
  · obtain ⟨_, _, -, -, -, -, -, rfl⟩ := evaluationRecovery_spec h₁
    exact ⟨rfl, rfl, rfl⟩
  · cases h₁
    exact ⟨rfl, rfl, rfl⟩

theorem completeLease_step (hclock : s.clock = some block) (ha : s.authority = lease.reservationIds)
    (hdue : block < lease.expiresBlock)
    (hphase : s.recoverable = true → ∀ current ∈ lease.recovery, current.phase = phase)
    (h : { s with authority := [] }.completeLease lease phase block res changed = .ok s') :
    QueueStep p s s' := by
  have hmoves : Moves p s s' := .single (.complete hclock ha hdue hphase h)
  obtain ⟨hreservations, hleg, hled⟩ := completeLease_frame h
  exact .of_moves hmoves hreservations hleg hled

/-- A lease that was completed was active. -/
theorem completeLease_active (hlease : s.leases.find? lease.leaseId = some lease)
    (h : s.completeLease lease phase block res changed = .ok s') : lease.state = .active := by
  simp only [completeLease, bind_ok] at h
  obtain ⟨⟨s₁, lease₁⟩, h₁, h⟩ := h
  obtain ⟨⟨stored, hstored, hact, -⟩, -⟩ := endLease_spec h
  unfold commitRecovery at h₁
  split at h₁
  · have hcopy := transition_copied h₁ (.inl rfl)
    obtain rfl := mem_unique hcopy.stored hstored
    exact hcopy.state.symm.trans hact
  · cases h₁
    obtain rfl := mem_unique hlease hstored
    exact hact

/-- Reopening a hold leaves a recovery with a result. -/
theorem reopenHold_spec (hclock : s.clock = some block)
    (hcur : s.activeRecovery lease = .ok current)
    (hphase : current.phase ∈ [.resultReady, .held])
    (hreason : current.phase = .held → current.reason ∈ [reason, "post_publication_no_decision"])
    (hremote : startsWith remoteHoldReason reason = true)
    (h : s.reopenHold lease current block = .ok (s', lease')) :
    QueueStep {} s s' ∧ Copied s lease s' lease' ∧
      ∃ current', lease'.recovery = some current' ∧ current'.phase = .resultReady ∧
        current'.resolution = .unresolved := by
  obtain ⟨hrecovery, hfind, hopen⟩ := activeRecovery_spec hcur
  unfold reopenHold at h
  split at h
  · next hheld =>
    refine ⟨?_, transition_copied h (.inl rfl), ?_⟩
    · refine transition_recover hclock (.inl rfl) h hrecovery ?_
      intro upd hupd
      have hreopens : reopensHold current.reason = true := by
        rcases mem_pair.1 (hreason hheld) with heq | heq
        · simp [reopensHold, heq, hremote]
        · simp [reopensHold, heq]
      exact ⟨rfl, by simp [recoveryEvent, hupd.plan_eq],
        .inr ⟨hopen, hheld, hreopens, hupd.resolution⟩, by simp [recoveryEvent, hheld],
        hupd.phase, hupd.reason⟩
    · obtain ⟨_, upd, -, -, -, hupd, rfl, -⟩ := evaluationRecovery_spec h
      exact ⟨upd, rfl, hupd.phase, hupd.resolution⟩
  · next hheld =>
    cases h
    have hready : current.phase = .resultReady := by
      rcases mem_pair.1 hphase with h | h
      · exact h
      · exact absurd h hheld
    exact ⟨.refl s, ⟨rfl, rfl, rfl, hfind, rfl, rfl, rfl, rfl⟩, current, hrecovery, hready, hopen⟩

/-- After a late hold was renewed its deadline lies ahead. -/
theorem renewHold_spec (hclock : s.clock = some block) (hblks : 0 < leaseBlocks)
    (hfind : s.leases.find? lease.leaseId = some lease)
    (hrecovery : lease.recovery = some current) (hphase : current.phase = .resultReady)
    (hopen : current.resolution = .unresolved)
    (h : s.renewHold lease block leaseBlocks = .ok (s', lease')) :
    QueueStep {} s s' ∧ Copied s lease s' lease' ∧ block < lease'.expiresBlock ∧
      ∃ current', lease'.recovery = some current' ∧ current'.phase = .resultReady := by
  unfold renewHold at h
  split at h
  · next hlate =>
    have hlater : lease.expiresBlock < block + leaseBlocks := by omega
    refine ⟨?_, transition_copied h (.inr ⟨_, _, rfl⟩), ?_⟩
    · refine transition_recover hclock (.inr ⟨_, _, rfl⟩) h hrecovery ?_
      intro upd hupd
      rw [← hphase] at hupd
      exact renew_law hopen (by simp [hphase]) hlater hupd
    · obtain ⟨_, upd, -, -, -, hupd, rfl, -⟩ := evaluationRecovery_spec h
      have hdead : block < block + leaseBlocks := by omega
      exact ⟨hdead, upd, rfl, hupd.phase⟩
  · next hearly =>
    cases h
    exact ⟨.refl s, ⟨rfl, rfl, rfl, hfind, rfl, rfl, rfl, rfl⟩, not_le.1 hearly, current,
      hrecovery, hphase⟩

section

variable (h : s.commitRemoteQualificationHold lease block res reason leaseBlocks = .ok s')

include h

/-- A late HOLD takes its lease up again; then the members are held under the authority of the
lease, which completes. -/
theorem remoteHold_spec :
    ∃ s₁ lease₁ f s₂ changed, QueueStep {} s s₁ ∧ s₁.clock = some block ∧ s₁.authority = [] ∧
      s₁.leases.find? lease₁.leaseId = some lease₁ ∧ lease₁.state = .active ∧
      block < lease₁.expiresBlock ∧ (∀ current ∈ lease₁.recovery, current.phase = .resultReady) ∧
      { s₁ with authority := lease₁.reservationIds }.updateReservations
        (fun r => (r.reservationId K, r.status) ∈ lease₁.members) f = .ok s₂ ∧
      (∀ r : IntakeReservation, (r.reservationId K, r.status) ∈ lease₁.members →
        RowStep {} r (r.withWork (f r))) ∧
      { s₂ with authority := [] }.completeLease lease₁ .resultReady block res changed = .ok s' := by
  simp only [commitRemoteQualificationHold, bind_ok, exists_check] at h
  obtain ⟨⟨⟨current, hcur, hopen, hphase⟩, hremote, -, -, hblks, -⟩, _, hclock, current',
    hact, hreason, -, ⟨s₁, lease₁⟩, h₁, ⟨s₂, lease₂⟩, h₂, hidle, s₃, h₃, h⟩ := h
  rw [evaluationClock_ok] at hclock
  obtain rfl : current' = current := some_inj.1 ((activeRecovery_spec hact).1.symm.trans hcur)
  obtain ⟨hstep₁, hcopy₁, current₁, hcur₁, hphase₁, hopen₁⟩ :=
    reopenHold_spec hclock hact hphase hreason hremote h₁
  have hclock₁ : s₁.clock = some block := hcopy₁.clock.trans hclock
  obtain ⟨hstep₂, hcopy₂, hdue, current₂, hcur₂, hphase₂⟩ :=
    renewHold_spec hclock₁ hblks hcopy₁.stored hcur₁ hphase₁ hopen₁ h₂
  have hstate : lease₂.state = .active := by
    refine completeLease_active ?_ h
    rw [updateReservations_eq h₃]
    exact hcopy₂.stored
  refine ⟨s₂, lease₂, _, s₃, _, hstep₁.trans rfl hstep₂, hcopy₂.clock.trans hclock₁, hidle,
    hcopy₂.stored, hstate, hdue, ?_, h₃, fun r hr => ?_, h⟩
  · intro current hmem
    obtain rfl := mem_unique hcur₂ hmem
    exact hphase₂
  · exact .of_held (lease₂.member_status _ hr) rfl rfl ⟨rfl, rfl, .inr rfl⟩

theorem remoteHold_step : QueueStep { accepts := true } s s' := by
  obtain ⟨s₁, lease₁, f, s₂, _, hstep, hclock, hidle, hstored, hact, hdue, hphase, h₂, hf, h⟩ :=
    remoteHold_spec h
  have hauthorized :
      QueueStep { accepts := true } s₁ { s₁ with authority := lease₁.reservationIds } :=
    .of_moves (.single (.authorize rfl hidle hact hstored)) rfl rfl rfl
  have hrows := updateReservations_step h₂ fun r _ => hf r
  have hs₂ := updateReservations_eq h₂
  have hcompleted : QueueStep {} s₂ s' := by
    refine completeLease_step ?_ ?_ hdue (fun _ => hphase) h <;> rw [hs₂]
    · exact hclock
    · rfl
  have hclose := (hrows.trans rfl hcompleted).weaken (Permit.none_within { accepts := true })
  exact ((hstep.weaken (Permit.none_within _)).trans rfl hauthorized).trans rfl hclose

end

end Recovery

/-! ### Every operation -/

theorem pending_step {limit : ℕ} (h : s.pending limit = .ok s') : QueueStep p s s' := by
  simp only [pending, bind_ok, exists_check] at h
  exact activateDeferred_step h.2

end Store

/-- What each operation is permitted. -/
def QueueOp.permit : QueueOp → Permit
  | .markPublished .. => { publishes := true }
  | .reconcileCopies | .markCopy .. | .markReferenceCopy .. => { copies := true }
  | .releaseHold .. | .requeue .. => { reopens := true }
  | .selectArena _ legacy => { relabels := legacy }
  | .reserveFinalized .. | .markTargetUnavailable .. | .grantCredit _ => { charges := true }
  | .claimEvaluationLease _ _ _ _ maxActive => { capacity := maxActive }
  | .releasePreResident .. | .releaseInfrastructure .. | .releaseStaleIncumbent .. =>
    { releases := true }
  | .commitRemoteHold .. => { accepts := true }
  | _ => {}

/-- An operation on the queue does no more than it is permitted, and nothing to the ledger. -/
theorem Store.queueStep_spec {K : IntakeHashes} (s : Store K) (op : QueueOp) :
    QueueStep op.permit s (s.queueStep op).1 := by
  cases op with
  | reserveFinalized => exact committed_step fun _ => reserveFinalized_step
  | pending => exact committed_step fun _ => pending_step
  | markFetching => exact committed_step fun _ => markFetching_step
  | markTransportRetry => exact committed_step fun _ => markTransportRetry_step
  | markFailed => exact committed_step fun _ => markFailed_step
  | markTargetUnavailable => exact committed_step fun _ => markUnavailable_step
  | markHeld => exact committed_step fun _ => markHeld_step
  | markPublished => exact committed_step fun _ => markPublished_step
  | reconcileCopies => exact reconcileCopies_step
  | markCopy => exact committed_step fun _ => markCopy_step
  | markReferenceCopy => exact committed_step fun _ => markReferenceCopy_step
  | markQualifying => exact committed_step fun _ => markQualifying_step
  | expireStale => exact committed_step fun _ => expireStaleRows_step
  | expire => exact committed_step fun _ => expire_step
  | releaseHold => exact committed_step fun _ => releaseHold_step
  | requeue => exact committed_step fun _ => requeue_step
  | selectArena => exact committed_step fun _ => selectArena_step
  | claimEvaluationLease => exact committed_step fun _ => claimEvaluationLease_step
  | expireEvaluationLeases => exact committed_step fun _ => expireEvaluationLeases_step
  | advanceRecovery => exact committed_step fun _ => advanceRecoveryPhase_step
  | renewRecovery => exact committed_step fun _ => renewRecoveryLease_step
  | holdRecovery => exact committed_step fun _ => holdRecovery_step
  | commitRemoteHold => exact committed_step fun _ => remoteHold_step
  | releasePreResident =>
    refine committed_step fun s' h => ?_
    simp only [releaseWorkerPreResidentRecovery, bind_ok, exists_check] at h
    exact releaseRecovery_step h.2
  | releaseInfrastructure =>
    simp only [queueStep, releaseWorkerInfrastructureRecovery]
    split
    · exact releaseAndCap_step
    · exact .refl s
  | releaseStaleIncumbent =>
    simp only [queueStep, releaseStaleIncumbentQualificationRecovery]
    split
    · exact releaseAndCap_step
    · exact .refl s
  | grantCredit =>
    refine committed_step fun s' h => ?_
    simp only [bind_ok] at h
    obtain ⟨_, -, h⟩ := h
    cases h
    exact .of_moves (.single (.charge rfl rfl)) rfl rfl rfl

end Cacheon
