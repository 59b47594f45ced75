import Cacheon.Intake.Qualify

/-!
# The histories of leases and recoveries

Every lease has a history of events, and so has the record of the remote work under it.  The
reader of the latter replays the whole history before it hands it out and refuses one that does
not lead to the stored record.

* `validEvaluationRecoveryEventTransition` : which recovery event may follow which.
* `Store.evaluationRecoveryEvents` : the reader.
-/

namespace Cacheon

open Fallible IntakeFault

/-! ### Recovery events -/

/-- The reasons of a refusal before the work ran. -/
def workerPreResidentReleaseReasons : List String :=
  ["worker_pre_resident:adapter_request_failed", "worker_pre_resident:adapter_start_failed"]

/-- What marks the release of a product over an old baseline. -/
def staleIncumbentReason : String := "systemic:incumbent_changed:v1:"

/-- The reason names the five digests of a stale product. -/
def namesStaleIncumbent (reason : String) : Bool :=
  let fields := (reason.toList.drop staleIncumbentReason.length).splitOn ':'
  startsWith staleIncumbentReason reason && decide (fields.length = 5) &&
    fields.all fun field => decide (field.length = 64) && field.all Digest.isHexDigit

/-- The phase a release may be made from, by its reason, and the phase it leaves. -/
def releasePhases (reason : String) (previous phase : RecoveryPhase) : Bool :=
  if namesStaleIncumbent reason then
    decide (previous ∈ [.requestReady, .resultReady, .evidenceImported] ∧ phase = .requestReady)
  else if reason ∈ workerPreResidentReleaseReasons then
    decide (previous = .requestReady ∧ phase = previous)
  else decide (previous ∈ [.claimed, .prepared] ∧ phase = previous ∧ reason ≠ "")

/-- A hold that a remote result may reopen. -/
def reopensHold (reason : String) : Bool :=
  startsWith remoteHoldReason reason ||
    reason ∈ ["post_publication_no_decision", "transport_hold:incumbent_changed"]

variable (previous event : EvaluationRecoveryEvent)

/-- The work goes on from one event to the next. -/
def phaseContinues : Prop :=
  previous.resolution = .unresolved ∧ event.resolution = .unresolved ∧ previous.phase ≠ .held

/-- What each kind of event asks of the one before it. -/
def recoveryEventLaw : RecoveryEventType → Prop
  | .claimed => False
  | .renewed => event.plan = previous.plan ∧ event.phase = previous.phase ∧
    event.resolution = previous.resolution ∧ event.reason = previous.reason ∧
    previous.expiresBlock < event.expiresBlock ∧ previous.resolution = .unresolved ∧
    previous.phase ≠ .held
  | .prepared => event.expiresBlock = previous.expiresBlock ∧ phaseContinues previous event ∧
    previous.phase = .claimed ∧ previous.plan = none ∧ event.phase = .prepared ∧
    event.plan.isSome ∧ event.reason = ""
  | .publicationCommitted => event.expiresBlock = previous.expiresBlock ∧
    event.plan = previous.plan ∧ phaseContinues previous event ∧ previous.phase = .prepared ∧
    event.phase = .publicationCommitted ∧ event.reason = ""
  | .requestReady => event.expiresBlock = previous.expiresBlock ∧ event.plan = previous.plan ∧
    phaseContinues previous event ∧ previous.phase = .publicationCommitted ∧
    event.phase = .requestReady ∧ event.reason = ""
  | .resultReady => event.expiresBlock = previous.expiresBlock ∧ event.plan = previous.plan ∧
    (phaseContinues previous event ∨ previous.resolution = .unresolved ∧
      previous.phase = .held ∧ reopensHold previous.reason ∧ event.resolution = .unresolved) ∧
    previous.phase ∈ [.publicationCommitted, .requestReady, .held] ∧
    event.phase = .resultReady ∧ event.reason = ""
  | .evidenceImported => event.expiresBlock = previous.expiresBlock ∧
    event.plan = previous.plan ∧ phaseContinues previous event ∧ previous.phase = .resultReady ∧
    event.phase = .evidenceImported ∧ event.reason = ""
  | .held => event.expiresBlock = previous.expiresBlock ∧ event.plan = previous.plan ∧
    phaseContinues previous event ∧ event.phase = .held ∧ event.reason ≠ ""
  | .preResidentReleased => event.expiresBlock = previous.expiresBlock ∧
    event.plan = previous.plan ∧ previous.resolution = .unresolved ∧
    releasePhases event.reason previous.phase event.phase ∧
    event.resolution = .preResidentReleased
  | .committed => event.expiresBlock = previous.expiresBlock ∧ event.plan = previous.plan ∧
    previous.resolution = .unresolved ∧ previous.phase ≠ .held ∧ event.phase = previous.phase ∧
    event.resolution = .committed ∧ event.reason = ""

/-- One recovery event may follow another. -/
def validEvaluationRecoveryEventTransition : Prop :=
  event.revision = previous.revision + 1 ∧ previous.finalizedBlock ≤ event.finalizedBlock ∧
    previous.expiresBlock ≤ event.expiresBlock ∧
    recoveryEventLaw previous event event.eventType

instance (eventType : RecoveryEventType) :
    Decidable (recoveryEventLaw previous event eventType) := by
  cases eventType <;> unfold recoveryEventLaw <;> unfold phaseContinues <;> infer_instance

instance : DecidableRel validEvaluationRecoveryEventTransition := fun previous event => by
    unfold validEvaluationRecoveryEventTransition; infer_instance

/-! ### The reader -/

namespace Store

variable {K : IntakeHashes} (s : Store K)

/-- The events of a lease, as they were written. -/
def leaseStream (id : Digest) : List EvaluationLeaseEvent :=
  s.leaseEvents.filter (·.leaseId = id)

/-- The events of the recovery of a lease, as they were written. -/
def recoveryStream (id : Digest) : List EvaluationRecoveryEvent :=
  s.recoveryEvents.filter (·.leaseId = id)

variable (lease : EvaluationLease)

/-- The first event of a recovery is its claim. -/
def opensRecovery (current : EvaluationRecovery) (first : EvaluationRecoveryEvent) : Prop :=
  first.eventType = .claimed ∧ first.revision = 0 ∧ first.phase = .claimed ∧
    first.resolution = .unresolved ∧ first.reason = "" ∧ first.plan = none ∧
    first.finalizedBlock = current.createdBlock ∧
    first.expiresBlock = lease.initialExpiresBlock

/-- The last event of a recovery is its record. -/
def recordsRecovery (current : EvaluationRecovery) (last : EvaluationRecoveryEvent) : Prop :=
  last.revision = current.revision ∧ last.phase = current.phase ∧
    last.resolution = current.resolution ∧ last.expiresBlock = lease.expiresBlock ∧
    last.finalizedBlock = current.updatedBlock ∧
    last.plan = current.plan.map (fun plan => (plan.planDigest, plan.requestId)) ∧
    last.reason = current.reason

instance (current : EvaluationRecovery) : DecidablePred (opensRecovery lease current) := fun _ => by
  unfold opensRecovery; infer_instance

instance (current : EvaluationRecovery) :
    DecidablePred (recordsRecovery lease current) := fun _ => by
  unfold recordsRecovery; infer_instance

/-- Replay the history of a recovery. -/
def evaluationRecoveryEvents : Intake (List EvaluationRecoveryEvent) := do
  let stored ← Fallible.get (recovery "evaluation recovery lost its lease")
    (s.leases.find? lease.leaseId)
  let current ← Fallible.get
    (recovery "active qualification lease has no recovery authority; HOLD") stored.recovery
  check (stored.generation = lease.generation ∧ stored.owner = lease.owner ∧
      stored.members = lease.members ∧ stored.claimedBlock = lease.claimedBlock ∧
      stored.initialExpiresBlock = lease.initialExpiresBlock ∧
      stored.expiresBlock = lease.expiresBlock)
    (intake "evaluation recovery lease object is stale")
  let events := Keyed.sortBy (·.revision) (s.recoveryStream lease.leaseId)
  check (∃ first ∈ events.head?, opensRecovery stored current first)
    (recovery "evaluation recovery claim event is inconsistent; HOLD")
  check (events.IsChain fun previous event => previous.sequence < event.sequence ∧
      validEvaluationRecoveryEventTransition previous event)
    (recovery "evaluation recovery event stream is inconsistent; HOLD")
  check (∃ last ∈ events.getLast?, recordsRecovery stored current last)
    (recovery "evaluation recovery head differs from immutable history; HOLD")
  .ok events

end Store

end Cacheon
