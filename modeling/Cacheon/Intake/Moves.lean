import Cacheon.Intake.Run

/-!
# The elementary changes of the queue

Every operation changes the reservations, their baseline segments and the evaluation leases in a
few elementary ways.  `Store.Move` lists them and `Store.Moves` puts them together; what holds
at every point of a run is proved from the moves and not from the operations.

A move keeps the facts that its operation checked: which reservations were fenced, what a claim
selected, which copy of a lease was still current.
-/

namespace Cacheon

open Fallible IntakeFault Option

/-- What an operation may do to the store. -/
structure Permit where
  /-- Demote a PASS as a copy. -/
  copies : Bool := false
  /-- Take completed work up again. -/
  reopens : Bool := false
  /-- Move a reservation to the default competition. -/
  relabels : Bool := false
  /-- Publish a fetched reservation into a competition. -/
  publishes : Bool := false
  /-- Turn a reservation into a PASS and retain it. -/
  passes : Bool := false
  /-- Show PASSes to the rewards. -/
  rewards : Bool := false
  /-- Settle leased candidates. -/
  settles : Bool := false
  /-- Rebuild the lineages. -/
  rebuilds : Bool := false
  /-- Release an evaluation lease without a result. -/
  releases : Bool := false
  /-- How many evaluation leases a claim may leave active. -/
  capacity : ℕ := 0
  /-- Change what paid for the reservations. -/
  charges : Bool := false
  /-- Work under the authority of an evaluation lease. -/
  accepts : Bool := false

/-- The permission grants no more than another. -/
def Permit.Within (p q : Permit) : Prop :=
  p.copies ≤ q.copies ∧ p.reopens ≤ q.reopens ∧ p.relabels ≤ q.relabels ∧
    p.publishes ≤ q.publishes ∧ p.passes ≤ q.passes ∧ p.rewards ≤ q.rewards ∧
    p.settles ≤ q.settles ∧ p.rebuilds ≤ q.rebuilds ∧ p.releases ≤ q.releases ∧
    p.capacity ≤ q.capacity ∧ p.charges ≤ q.charges ∧
    p.accepts ≤ q.accepts

instance (p q : Permit) : Decidable (p.Within q) := by
  unfold Permit.Within; infer_instance

theorem Permit.none_within (p : Permit) : Permit.Within {} p := by
  simp [Permit.Within]

/-- The part of a store that the moves are about. -/
structure Core (K : IntakeHashes) where
  recoverable : Bool
  authority : List Digest
  reservations : Table (IntakeReservation.reservationId K)
  segments : Table BaselineSegment.reservationId
  leases : Table EvaluationLease.leaseId
  leaseEvents : List EvaluationLeaseEvent
  recoveryEvents : List EvaluationRecoveryEvent
  cursor : Option (ℕ × Digest)
  payments : Table EvalCostPayment.pointer
  credits : Table EvalCostCredit.creditId
  /-- The arenas that have an evaluation stack. -/
  arenas : Digest → Bool

namespace Store

variable {K : IntakeHashes}

/-- The part of the store that the moves are about. -/
def core (s : Store K) : Core K :=
  ⟨s.recoverable, s.authority, s.reservations, s.segments, s.leases,
    s.leaseEvents, s.recoveryEvents, s.cursor, s.payments,
    s.credits, fun arena => (s.evaluationStacks.find? arena).isSome⟩

/-- The block of the finalized cursor. -/
def clock (s : Store K) : Option ℕ := s.cursor.map (·.1)

/-- The two copies of a lease differ in their deadlines at most, and the second is later. -/
def Extends (lease retained : EvaluationLease) : Prop :=
  retained = lease ∨ ∃ expires h, retained = lease.renewed expires h

/-- An elementary change within a permission. -/
inductive Move (p : Permit) : Store K → Store K → Prop
  | aside {s s' : Store K} (h : s'.core = s.core) : Move p s s'
  | charge {s s' : Store K} (hp : p.charges = true) (h : s'.core = { s.core with
        payments := s'.payments, credits := s'.credits }) : Move p s s'
  | commission {s s' : Store K} {arena : Digest}
      (h : s'.core = { s.core with arenas := fun a => a = arena || s.core.arenas a }) :
      Move p s s'
  | rows {s s' : Store K} {q : IntakeReservation → Prop} [DecidablePred q]
      {f : IntakeReservation → Work} (h : s.updateReservations q f = .ok s') :
      Move p s s'
  | reserve {s s' : Store K} {status : Status} {reason : String} {arrival : FinalizedArrival}
      (h : s.insertReservation status reason arrival = .ok s') : Move p s s'
  | finalize {s : Store K} {block : ℕ} {hash : Digest}
      (h : ∀ cursor ∈ s.cursor, cursor.1 ≤ block ∧ (block = cursor.1 → hash = cursor.2)) :
      Move p s { s with cursor := some (block, hash) }
  | bind {s s' : Store K} {id : Digest} {state : EvaluationStackState} {reason : String}
      (hid : s.leased id → id ∈ s.authority) (hstack : s.core.arenas state.arenaDigest = true)
      (h : s.bindReservationBaselineSegment id state reason = .ok s') :
      Move p s s'
  | unbind {s : Store K} {id : Digest} (hid : s.leased id = false) : Move p s
        (s.withSegments (s.segments.filter (·.reservationId ≠ id)))
  | bindQueue {s s' : Store K} {state : EvaluationStackState} {reason : String}
      (hstack : s.core.arenas state.arenaDigest = true)
      (h : s.bindUnboundQueueToStack state reason = .ok s') : Move p s s'
  | claim {s s' : Store K} {owner : String} {block leaseBlocks bound maxActive : ℕ}
      {selected : List IntakeReservation} (hclock : s.clock = some block)
      (hcapacity : 0 < maxActive ∧ maxActive ≤ p.capacity)
      (hselected : s.selectEvaluationRows bound owner maxActive = .ok selected)
      (h : s.openLease owner block leaseBlocks
        (selected.map fun r => (r.reservationId K, r.status)) = .ok s') :
      Move p s s'
  | expire {s s' : Store K} {lease : EvaluationLease} {block : ℕ} {changed : String}
      (hclock : s.clock = some block) (hr : s.recoverable = false)
      (hdue : lease.expiresBlock ≤ block) (hlease : s.leases.find? lease.leaseId = some lease)
      (h : s.endLease lease .expired block none "evaluation_lease_expired" changed = .ok s') :
      Move p s s'
  | recover {s s' : Store K} {lease retained lease' : EvaluationLease}
      {current : EvaluationRecovery} {phase : RecoveryPhase} {eventType : RecoveryEventType}
      {block : ℕ} {reason : String} {plan : Option RequestPlan} (hclock : s.clock = some block)
      (hcurrent : lease.recovery = some current) (hretained : Extends lease retained)
      (h : s.transitionEvaluationRecovery lease retained phase .unresolved eventType block reason
        plan = .ok (s', lease'))
      (hlaw : ∀ updated, lease'.recovery = some updated → recoveryEventLaw
        (recoveryEvent 0 .claimed lease current) (recoveryEvent 0 eventType lease' updated)
        eventType) : Move p s s'
  | release {s s' : Store K} {lease : EvaluationLease} {block : ℕ} {reason : String}
      {releasePhase : Option RecoveryPhase} {allowExpired : Bool} (hr : p.releases = true)
      (h : s.releaseRecovery lease block reason releasePhase allowExpired = .ok s') :
      Move p s s'
  | authorize {s : Store K} {lease : EvaluationLease} (hp : p.accepts = true)
      (ha : s.authority = [])
      (hactive : lease.state = .active)
      (hlease : s.leases.find? lease.leaseId = some lease) :
      Move p s { s with authority := lease.reservationIds }
  | complete {s s' : Store K} {lease : EvaluationLease} {phase : RecoveryPhase} {block : ℕ}
      {result : Digest} {changed : String} (hclock : s.clock = some block)
      (ha : s.authority = lease.reservationIds) (hdue : block < lease.expiresBlock)
      (hphase : s.recoverable = true → ∀ current ∈ lease.recovery, current.phase = phase)
      (h : { s with authority := [] }.completeLease lease phase block result changed = .ok s') :
      Move p s s'
  | reopen {s : Store K} {policy : IntakePolicy} {recoverable : Bool} :
      Move p s (s.reopen policy recoverable)

/-- Some elementary changes, one after the other. -/
def Moves (p : Permit) : Store K → Store K → Prop := Relation.ReflTransGen (Move p)

variable {p q : Permit} {s s' s'' : Store K}

theorem Moves.single (h : Move p s s') : Moves p s s' := Relation.ReflTransGen.single h

theorem Moves.trans (h : Moves p s s') (h' : Moves p s' s'') :
    Moves p s s'' := Relation.ReflTransGen.trans h h'

theorem Move.mono (hpq : p.Within q) (h : Move p s s') : Move q s s' := by
  obtain ⟨-, -, -, -, -, -, -, -, hr, hc, hcharges, haccepts⟩ := hpq
  cases h with
  | aside h => exact .aside h
  | charge hp h => exact .charge (hcharges hp) h
  | commission h => exact .commission h
  | rows h => exact .rows h
  | reserve h => exact .reserve h
  | finalize h => exact .finalize h
  | bind hid hstack h => exact .bind hid hstack h
  | unbind hid => exact .unbind hid
  | bindQueue hstack h => exact .bindQueue hstack h
  | claim hclock hcapacity hselected h =>
    exact .claim hclock ⟨hcapacity.1, hcapacity.2.trans hc⟩ hselected h
  | expire hclock hrecov hdue hlease h => exact .expire hclock hrecov hdue hlease h
  | recover hclock hcurrent hretained h hlaw => exact .recover hclock hcurrent hretained h hlaw
  | release hreleases h => exact .release (hr hreleases) h
  | authorize hp ha hactive hlease => exact .authorize (haccepts hp) ha hactive hlease
  | complete hclock ha hdue hphase h => exact .complete hclock ha hdue hphase h
  | reopen => exact .reopen

theorem Moves.mono (hpq : p.Within q) (h : Moves p s s') : Moves q s s' :=
  Relation.ReflTransGen.mono (fun _ _ h => h.mono hpq) _ _ h

/-- What every elementary change keeps is kept by all of them together. -/
theorem Moves.invariant {I : Store K → Prop} (h : Moves p s s') (hs : I s)
    (hmove : ∀ s s', I s → Move p s s' → I s') : I s' := by
  induction h with
  | refl => exact hs
  | tail _ h ih => exact hmove _ _ ih h

/-! ### What the lease operations write -/

variable {lease retained lease' : EvaluationLease} {block : ℕ} {reason changed : String}
  {state : LeaseState} {result : Option Digest} {phase : RecoveryPhase}
  {resolution : RecoveryResolution} {eventType : RecoveryEventType} {plan : Option RequestPlan}
  {u : Unit}

theorem evaluationClock_ok : s.requireEvaluationClock block = .ok u ↔ s.clock = some block := by
  simp [requireEvaluationClock, clock]

theorem evaluationLease_ok : s.activeEvaluationLease lease = .ok u ↔
    lease.state = .active ∧ s.leases.find? lease.leaseId = some lease := by
  simp [activeEvaluationLease]

theorem activeRecovery_spec {current : EvaluationRecovery}
    (h : s.activeRecovery lease = .ok current) :
    lease.recovery = some current ∧ s.leases.find? lease.leaseId = some lease ∧
      current.resolution = .unresolved := by
  simp only [activeRecovery, bind_ok, exists_check, Fallible.get_ok] at h
  obtain ⟨_, hcurrent, hfind, hopen, _, -, h⟩ := h
  cases h
  exact ⟨hcurrent, hfind, hopen⟩

/-- A lease ends once, and with one event. -/
theorem endLease_spec (h : s.endLease lease state block result reason changed = .ok s') :
    (∃ stored, s.leases.find? lease.leaseId = some stored ∧ stored.state = .active ∧
      stored.expiresBlock = lease.expiresBlock) ∧
    s' = (s.withLeases (s.leases.update (·.leaseId = lease.leaseId)
      (·.closed state block result reason) fun _ => rfl)).appendEvaluationLeaseEvent lease
        state.event block result reason := by
  simp only [endLease, bind_ok, exists_check] at h
  obtain ⟨⟨stored, hstored, hactive⟩, h⟩ := h
  cases h
  exact ⟨⟨stored, hstored, hactive⟩, rfl⟩

/-- The recovery after a transition. -/
structure Transitioned (current updated : EvaluationRecovery) (phase : RecoveryPhase)
    (resolution : RecoveryResolution) (block : ℕ) (reason : String)
    (plan : Option RequestPlan) : Prop where
  revision : updated.revision = current.revision + 1
  phase : updated.phase = phase
  resolution : updated.resolution = resolution
  createdBlock : updated.createdBlock = current.createdBlock
  updatedBlock : updated.updatedBlock = block
  plan : updated.plan = plan.or current.plan
  reason : updated.reason = reason

/-- A transition replaces the lease and writes one event. -/
theorem evaluationRecovery_spec
    (h : s.transitionEvaluationRecovery lease retained phase resolution eventType block reason
      plan = .ok (s', lease')) :
    ∃ current updated, lease.recovery = some current ∧
      s.leases.find? lease.leaseId = some lease ∧ current.resolution = .unresolved ∧
      Transitioned current updated phase resolution block reason plan ∧
      lease' = { retained with recovery := some updated } ∧
      s' = { s with
        leases := s.leases.put lease'
        recoveryEvents := s.recoveryEvents ++
          [recoveryEvent (s.recoveryEvents.length + 1) eventType lease' updated] } := by
  simp only [transitionEvaluationRecovery, bind_ok] at h
  obtain ⟨current, hcurrent, h⟩ := h
  obtain ⟨hrecovery, hfind, hopen⟩ := activeRecovery_spec hcurrent
  split at h
  · next hw =>
    cases h
    exact ⟨current, ⟨_, hw⟩, hrecovery, hfind, hopen, ⟨rfl, rfl, rfl, rfl, rfl, rfl, rfl⟩, rfl, rfl⟩
  · cases h

/-- What a transition of a recovery leaves in place; the new copy of the lease is stored. -/
structure Copied (s : Store K) (lease : EvaluationLease) (s' : Store K)
    (lease' : EvaluationLease) : Prop where
  leaseId : lease'.leaseId = lease.leaseId
  members : lease'.members = lease.members
  state : lease'.state = lease.state
  stored : s'.leases.find? lease'.leaseId = some lease'
  clock : s'.clock = s.clock
  authority : s'.authority = s.authority
  recoverable : s'.recoverable = s.recoverable
  reservations : s'.reservations = s.reservations

theorem transition_copied
    (h : s.transitionEvaluationRecovery lease retained phase resolution eventType block reason
      plan = .ok (s', lease')) (hretained : Extends lease retained) : Copied s lease s' lease' := by
  obtain ⟨_, _, -, -, -, -, rfl, rfl⟩ := evaluationRecovery_spec h
  rcases hretained with rfl | ⟨expires, hlater, rfl⟩
  · exact ⟨rfl, rfl, rfl, Table.find?_put.trans (if_pos rfl), rfl, rfl, rfl, rfl⟩
  · exact ⟨rfl, rfl, rfl, Table.find?_put.trans (if_pos rfl), rfl, rfl, rfl, rfl⟩

section Laws

variable {current updated : EvaluationRecovery} {phase : RecoveryPhase}

/-- The plan of a recovery that is not bound anew stays. -/
theorem Transitioned.plan_eq (h : Transitioned current updated phase resolution block reason none) :
    updated.plan = current.plan := by
  rw [h.plan, none_or]

/-- A phase that is reached from one of its predecessors. -/
theorem advance_law (hphase : current.phase ∈ phase.predecessors)
    (hopen : current.resolution = .unresolved) (hplan : phase = .prepared ↔ plan.isSome)
    (h : Transitioned current updated phase .unresolved block "" plan) :
    recoveryEventLaw (recoveryEvent 0 .claimed lease current)
      (recoveryEvent 0 phase.event { lease with recovery := some updated } updated)
      phase.event := by
  have hnone : phase ≠ .prepared → updated.plan = current.plan := by
    intro hne
    rw [h.plan, not_isSome_iff_eq_none.1 (hplan.not.1 hne), none_or]
  have hheld : current.phase ≠ .held := by
    rintro heq
    rw [heq] at hphase
    revert hphase
    cases phase <;> decide
  have hcontinues : phaseContinues (recoveryEvent 0 .claimed lease current)
      (recoveryEvent 0 phase.event { lease with recovery := some updated } updated) :=
    ⟨hopen, h.resolution, hheld⟩
  cases phase with
  | claimed | held => cases hphase
  | prepared =>
    have hclaimed := List.mem_singleton.1 hphase
    have hunbound : current.plan = none := current.wellFormed.2.2.1 hclaimed
    refine ⟨rfl, hcontinues, hclaimed, ?_, h.phase, ?_, h.reason⟩
    · simp [recoveryEvent, hunbound]
    · simp only [recoveryEvent, isSome_map, h.plan, hunbound, or_none]
      exact hplan.1 rfl
  | publicationCommitted | requestReady | evidenceImported =>
    exact ⟨rfl, by simp [recoveryEvent, hnone], hcontinues, List.mem_singleton.1 hphase, h.phase,
      h.reason⟩
  | resultReady =>
    refine ⟨rfl, by simp [recoveryEvent, hnone], .inl hcontinues, ?_, h.phase, h.reason⟩
    rcases List.mem_pair.1 hphase with heq | heq <;> simp [recoveryEvent, heq]

theorem renew_law {expires : ℕ} (hopen : current.resolution = .unresolved)
    (hheld : current.phase ≠ .held) (hlater : lease.expiresBlock < expires)
    (h : Transitioned current updated current.phase .unresolved block "" none) :
    recoveryEventLaw (recoveryEvent 0 .claimed lease current)
      (recoveryEvent 0 .renewed { lease.renewed expires hlater.le with
        recovery := some updated } updated) .renewed := by
  refine ⟨by simp [recoveryEvent, h.plan_eq], h.phase, h.resolution.trans hopen.symm, ?_, hlater,
    hopen, hheld⟩
  -- Work that is neither held nor released has no reason.
  have hreason : ¬ current.reason ≠ "" := by
    rw [← current.wellFormed.2.2.2.2.1]
    simp [hheld, hopen]
  exact h.reason.trans (not_not.1 hreason).symm

end Laws

end Store

end Cacheon
