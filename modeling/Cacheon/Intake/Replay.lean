import Cacheon.Lib.Window
import Cacheon.Intake.Copies
import Mathlib.Data.List.Find

/-!
# The replay of earlier verdicts

Before the validator claims work, it fails the submissions whose bytes already have a verdict
under the arena, and parks those whose target is closed.  The verdicts come in whatever order the
database returns them, and some of them were written by the demotion of copies.

* `decideReplay` : what an earlier verdict means for a submission.
* `Store.prepareQualificationQueue` : the loop over the windows of the queue.
* `Store.prepareLoop_spec` : the loop is one scan, and raises where a row cannot be retired.
* `Store.ReplaySound` : what a replay of verdicts has to keep to.
* `Store.replaySound_iff` : it does if and only if the verdicts on the bytes in the queue agree.
-/

namespace Cacheon

open Fallible IntakeFault List Keyed Table Except Window

/-! ### Earlier verdicts -/

/-- The text of a decision. -/
def QualificationDecision.value : QualificationDecision → String
  | .pass => "PASS"
  | .fail => "FAIL"
  | .noDecision => "NO_DECISION"

/-- A verdict already recorded for some publication. -/
structure PriorVerdict where
  reservationId : Digest
  contentHash : Option Digest
  arenaServiceDigest : Option Digest
  decision : QualificationDecision
  reason : String
deriving DecidableEq

/-- What to do with a candidate that may duplicate an earlier verdict. -/
structure ReplayDecision where
  replay : Bool
  priorReservationId : Option Digest := none
  reason : String := ""
  refused : String := ""
deriving DecidableEq

/-- The reason of a replayed verdict: the reservation it is from, and why that one failed. -/
def replayReason (prior : PriorVerdict) : String :=
  "duplicate_of:" ++ String.ofList (prior.reservationId.hex.toList.take 16) ++ ":" ++ prior.reason

/-- The verdict a candidate inherits.  A reproduction inherits none, and a PASS is not
inherited. -/
def decideReplay (contentHash : Option Digest) (service : Digest) (screenLane : Option ScreenLane)
    (priors : List PriorVerdict) : ReplayDecision :=
  if screenLane = some .reproduction then
    { replay := false, refused := "reproduction lane requires an independent measurement" }
  else if contentHash = none then
    { replay := false, refused := "candidate has no bytes or no arena identity" }
  else
    match priors.find? fun prior =>
      prior.contentHash = contentHash ∧ prior.arenaServiceDigest = some service with
    | none => { replay := false }
    | some prior =>
      if prior.decision = .fail then
        { replay := true
          priorReservationId := some prior.reservationId
          reason := replayReason prior }
      else
        { replay := false
          priorReservationId := some prior.reservationId
          refused := prior.decision.value ++
            " is evidence, not a verdict; a pair must be independently bound" }

/-- What happens to a row of the queue before a claim. -/
inductive QueueAction where
  | keep
  | park
  | fail (reason : String)
deriving DecidableEq

/-- What the queue does with a row, given the earlier verdicts. -/
def queueAction (service : Digest) (closed : List String) (priors : List PriorVerdict)
    (row : IntakeReservation) : QueueAction :=
  if row.targetId ∈ closed ∧ row.status = .published ∧ row.arenaServiceDigest = none then .park
  else
    let decision := decideReplay row.contentHash service row.screenLane priors
    if decision.replay then .fail decision.reason else .keep

/-- The row can be retired this way. -/
def IntakeReservation.Retires (row : IntakeReservation) : QueueAction → Prop
  | .keep => True
  | .park => row.targetId ≠ ""
  | .fail reason => row.status = .published ∧ reason.length ≤ 2048

instance (row : IntakeReservation) : DecidablePred row.Retires := fun action => by
  cases action <;> unfold IntakeReservation.Retires <;> infer_instance

/-- What becomes of the row. -/
def IntakeReservation.retired (row : IntakeReservation) : QueueAction → IntakeReservation
  | .keep => row
  | .park => row.withWork { row.toWork with
      status := .expired, decision := some .noDecision
      reason := "target_unavailable:" ++ row.targetId }
  | .fail reason => row.withWork { row.toWork with
      status := .failed, decision := some .fail, reason := reason
      qualificationEvidenceDigest := none }

namespace Store

section Definitions

variable {K : IntakeHashes} (s : Store K)

/-! ### The pass before a claim -/

/-- The work that awaits its claim, reproductions first, then in finalized order. -/
def queued : List IntakeReservation :=
  sortBy (fun r : IntakeReservation =>
      toLex (if r.status = .reproductionPending then 0 else 1, r.arrivalKey))
    (s.reservations.rows.filter (s.claimableOver none))

/-- How many rows are looked at together. -/
def window (limit : Option ℕ) : ℕ := limit.getD s.policy.maxCohort

/-- The next work that awaits its claim. -/
def claimable (limit : Option ℕ) : Intake (List IntakeReservation) := do
  check (0 < s.window limit ∧ s.window limit ≤ s.policy.maxCohort)
    (intake "claimable cohort limit is invalid")
  .ok (s.queued.take (s.window limit))

/-- The row has a verdict under an arena. -/
def judgedUnder (service : Digest) (r : IntakeReservation) : Bool :=
  r.decision ∈ [some .pass, some .fail] && r.arenaServiceDigest = some service

/-- The verdict of a row. -/
def priorVerdict (r : IntakeReservation) : Option PriorVerdict :=
  r.decision.map fun decision =>
    { reservationId := r.reservationId K
      contentHash := r.contentHash
      arenaServiceDigest := r.arenaServiceDigest
      decision := decision
      reason := r.reason }

/-- The verdicts under an arena, as the database returns them. -/
def priors (service : Digest) (order : RowOrder) : List PriorVerdict :=
  (order.arrange (s.reservations.rows.filter (judgedUnder service))).filterMap
    (priorVerdict (K := K))

/-- Retire one row if its target is closed or its bytes have lost before. -/
def prepareRow (service : Digest) (closed : List String) (priors : List PriorVerdict)
    (row : IntakeReservation) : Intake (Store K × Option (Digest × String)) :=
  if row.targetId ∈ closed ∧ row.status = .published ∧ row.arenaServiceDigest = none then do
    let s ← s.markTargetUnavailable (row.reservationId K) row.targetId
    let parked ← s.get (row.reservationId K)
    .ok (s, some (row.reservationId K, parked.reason))
  else
    let decision := decideReplay row.contentHash service row.screenLane priors
    if decision.replay then do
      let s ← s.markFailed (row.reservationId K) decision.reason
      .ok (s, some (row.reservationId K, decision.reason))
    else .ok (s, none)

/-- Retire rows one after the other.  What was retired before an error stays so. -/
def prepareRows (service : Digest) (closed : List String) (priors : List PriorVerdict) :
    List IntakeReservation → Store K → Store K × Intake (List (Digest × String))
  | [], s => (s, .ok [])
  | row :: rows, s => match s.prepareRow service closed priors row with
    | .error fault => (s, .error fault)
    | .ok (s', entry) =>
      let (s'', retired) := prepareRows service closed priors rows s'
      (s'', retired.map (entry.toList ++ ·))

/-- Look at the queue until nothing more is retired. -/
def prepareLoop (service : Digest) (closed : List String) (limit : Option ℕ)
    (priors : List PriorVerdict) :
    ℕ → Store K → Store K × Intake (List (Digest × String))
  | 0, s => (s, .ok [])
  | fuel + 1, s => match s.claimable limit with
    | .error fault => (s, .error fault)
    | .ok rows => match prepareRows service closed priors rows s with
      | (s', .error fault) => (s', .error fault)
      | (s', .ok []) => (s', .ok [])
      | (s', .ok (entry :: retired)) =>
        let (s'', more) := prepareLoop service closed limit priors fuel s'
        (s'', more.map (entry :: retired ++ ·))

/-- Fail what duplicates an earlier FAIL and park what has no open target, before the first
claim.  The verdicts are read once.  Each round retires a row, so that the rounds are no more
than the rows. -/
def prepareQualificationQueue (service : Digest) (closed : List String) (limit : Option ℕ)
    (order : RowOrder) : Store K × Intake (List (Digest × String)) :=
  prepareLoop service closed limit (s.priors service order) (s.reservations.rows.length + 1) s

theorem creditId_unspent (c : EvalCostCredit) :
    { c with reservationId := none, spentBlock := 0 : EvalCostCredit }.creditId = c.creditId := rfl

/-- The store with a row retired. -/
def retire (row : IntakeReservation) : QueueAction → Store K
  | .keep => s
  | .park =>
    let s := s.mapReservation (row.reservationId K)
      fun r => { r.toWork with
        status := .expired, decision := some .noDecision
        reason := "target_unavailable:" ++ row.targetId }
    { s with
      payments := s.payments.filter (·.reservationId ≠ row.reservationId K)
      credits := s.credits.update (·.reservationId = some (row.reservationId K))
        (fun c => { c with reservationId := none, spentBlock := 0 }) creditId_unspent }
  | .fail reason => s.mapReservation (row.reservationId K)
      fun r => { r.toWork with
        status := .failed, decision := some .fail, reason := reason
        qualificationEvidenceDigest := none }

/-- What the pass returns for a row. -/
def retirement (row : IntakeReservation) : QueueAction → Option (Digest × String)
  | .keep => none
  | .park => some (row.reservationId K, "target_unavailable:" ++ row.targetId)
  | .fail reason => some (row.reservationId K, reason)

end Definitions

variable {K : IntakeHashes} {s s' : Store K} {service : Digest} {closed : List String}
  {limit : Option ℕ} {priors : List PriorVerdict} {row : IntakeReservation} {action : QueueAction}

/-! ### One row -/

theorem mem_queued : row ∈ s.queued ↔
    row ∈ s.reservations.rows ∧ row.status ∈ [.published, .reproductionPending] ∧
      s.leased (row.reservationId K) = false ∧ row.competitionArena = s.selectedArena := by
  simp only [queued, mem_sortBy, mem_filter, claimableOver, Option.all_none,
    Bool.and_true, Bool.and_eq_true, decide_eq_true_eq, Bool.not_eq_true', and_assoc]

theorem queued_nodup : (s.queued.map (·.reservationId K)).Nodup := by
  unfold queued
  rw [(sortBy_perm.map _).nodup_iff]
  exact s.reservations.distinct.sublist (filter_sublist.map _)

theorem markFailed_eq {reason : String} (hidle : s.authority = []) (hrow : row ∈ s.queued) :
    if row.Retires (.fail reason) then
      s.markFailed (row.reservationId K) reason = .ok (s.retire row (.fail reason))
    else ∃ fault, s.markFailed (row.reservationId K) reason = .error fault := by
  obtain ⟨hmem, hstat, hfree, -⟩ := mem_queued.1 hrow
  have hfind := find?_of_mem hmem
  have hget : s.get (row.reservationId K) = .ok row := get_iff.2 hfind
  by_cases h : row.Retires (.fail reason)
  · rw [if_pos h]
    refine (transition_eq hidle hfind (by rw [h.1]; decide) h.2).trans ?_
    rw [hfree]
    rfl
  · rw [if_neg h]
    by_cases hlen : reason.length ≤ 2048
    · have hnot : row.status ∉ [.fetching, .published] := by
        have hother : row.status ≠ .published := fun hp => h ⟨hp, hlen⟩
        have hpend : row.status = .reproductionPending := by simpa [hother] using hstat
        rw [hpend]
        decide
      simp only [markFailed, transition, requireEvaluationMutationAuthority, hlen, hidle, hfree,
        hget, hnot, check, bind, Except.bind, ne_eq, not_true_eq_false, if_true, if_false,
        false_imp_iff, Bool.false_eq_true]
      exact ⟨_, rfl⟩
    · simp only [markFailed, transition, hlen, check, bind, bind, if_false]
      exact ⟨_, rfl⟩

theorem markTargetUnavailable_eq (hidle : s.authority = []) (hrow : row ∈ s.queued)
    (hopen : row.status = .published) (hnew : row.arenaServiceDigest = none) :
    if row.Retires .park then
      s.markTargetUnavailable (row.reservationId K) row.targetId = .ok (s.retire row .park)
    else ∃ fault, s.markTargetUnavailable (row.reservationId K) row.targetId = .error fault := by
  obtain ⟨hmem, -, hfree, -⟩ := mem_queued.1 hrow
  have hget : s.get (row.reservationId K) = .ok row := get_iff.2 (find?_of_mem hmem)
  by_cases htgt : row.Retires .park
  · rw [if_pos htgt]
    have htext : row.targetId ≠ "" := htgt
    simp only [markTargetUnavailable, expireBeforeClaim, requireEvaluationMutationAuthority,
      htext, hidle, hfree, hget, hopen, hnew, updateReservation_eq hidle hfree, check, bind,
      Except.bind, ne_eq, not_true_eq_false, not_false_eq_true, if_true, false_imp_iff,
      Bool.false_eq_true, mem_cons, true_or, or_true, and_self]
    rfl
  · rw [if_neg htgt]
    have htext : row.targetId = "" := not_not.1 htgt
    simp only [markTargetUnavailable, htext, check, bind, bind, ne_eq, not_true_eq_false, if_false]
    exact ⟨_, rfl⟩

/-! ### The store with a row retired -/

theorem authority_retire : (s.retire row action).authority = s.authority := by
  cases action <;> rfl

theorem policy_retire : (s.retire row action).policy = s.policy := by
  cases action <;> rfl

variable {f : IntakeReservation → Work}

/-- A change of the rows of one key changes the one row there is. -/
theorem find?_mapRow {id : Digest} (hrow : row ∈ s.reservations.rows) :
    (s.mapReservation (row.reservationId K)
      f).reservations.find? id = (s.reservations.find? id).map fun r =>
        if r.reservationId K = row.reservationId K then row.withWork (f row) else r := by
  refine find?_mapReservations.trans (Option.map_congr fun r hr => ?_)
  split_ifs with hid
  · rw [eq_of_key (find?_eq_some.1 hr).1 hrow hid]
  · rfl

theorem find?_retire {id : Digest} (hrow : row ∈ s.reservations.rows) :
    (s.retire row action).reservations.find? id = (s.reservations.find? id).map fun r =>
        if r.reservationId K = row.reservationId K then row.retired action else r := by
  cases action with
  | keep =>
    refine (congrFun Option.map_id _).symm.trans (Option.map_congr fun r hr => ?_)
    split_ifs with hid
    · exact eq_of_key (find?_eq_some.1 hr).1 hrow hid
    · rfl
  | park => exact find?_mapRow hrow
  | fail reason => exact find?_mapRow hrow

theorem queued_mapReservations (hf : ∀ r, (f r).status ∉ [.published, .reproductionPending]) :
    (s.mapReservation (row.reservationId K) f).queued =
      s.queued.filter fun r => r.reservationId K ≠ row.reservationId K := by
  have hrows : (s.mapReservation (row.reservationId K)
      f).reservations.rows = s.reservations.rows.map fun r =>
        if r.reservationId K = row.reservationId K then r.withWork (f r) else r := rfl
  unfold queued
  rw [filter_sortBy, hrows, filter_map, filter_filter]
  -- A changed row is not claimable any more, so the map acts on none that is left.
  have hclaim (r : IntakeReservation) : claimableOver (s.mapReservations (fun r =>
      r.reservationId K = row.reservationId K) f) none (if r.reservationId K =
        row.reservationId K then r.withWork (f r) else r) =
      (decide (r.reservationId K ≠ row.reservationId K) && s.claimableOver none r) := by
    by_cases hid : r.reservationId K = row.reservationId K
    · have hgone : (r.withWork (f r)).status ∉ [.published, .reproductionPending] := hf r
      rw [if_pos hid]
      simp only [claimableOver, hgone, hid, ne_eq, not_true_eq_false, decide_false, Bool.false_and]
    · rw [if_neg hid]
      simp only [hid, ne_eq, not_false_eq_true, decide_true, Bool.true_and]
      rfl
  refine congrArg _ ((congrArg _ (filter_congr fun r _ => hclaim r)).trans ?_)
  refine (map_congr_left fun r hr => ?_).trans (map_id _)
  have hid := (Bool.and_eq_true_iff.1 (mem_filter.1 hr).2).1
  exact if_neg (of_decide_eq_true hid)

theorem queued_retire (hleaves : action ≠ .keep) : (s.retire row action).queued =
    s.queued.filter fun r => r.reservationId K ≠ row.reservationId K := by
  cases action with
  | keep => exact absurd rfl hleaves
  | park =>
    have hgone : Status.expired ∉ [.published, .reproductionPending] := by decide
    show (s.mapReservation (row.reservationId K) fun r =>
      { r.toWork with
        status := .expired, decision := some .noDecision
        reason := "target_unavailable:" ++ row.targetId }).queued = _
    exact queued_mapReservations fun _ => hgone
  | fail reason =>
    have hgone : Status.failed ∉ [.published, .reproductionPending] := by decide
    exact queued_mapReservations fun _ => hgone

theorem prepareRow_spec (hidle : s.authority = []) (hrow : row ∈ s.queued)
    (haction : queueAction service closed priors row = action) :
    if row.Retires action then s.prepareRow service closed priors row =
      .ok (s.retire row action, retirement (K := K) row action)
    else ∃ fault, s.prepareRow service closed priors row = .error fault := by
  subst haction
  unfold prepareRow queueAction
  by_cases hpark : row.targetId ∈ closed ∧ row.status = .published ∧ row.arenaServiceDigest = none
  · simp only [if_pos hpark]
    have hspec := markTargetUnavailable_eq hidle hrow hpark.2.1 hpark.2.2
    split_ifs at hspec ⊢
    · have hget : (s.retire row .park).get (row.reservationId K) = .ok (row.retired .park) := by
        have hmem := (mem_queued.1 hrow).1
        rw [get_iff, find?_retire hmem, find?_of_mem hmem, Option.map_some, if_pos rfl]
      simp only [hspec, bind, Except.bind, hget]
      rfl
    · obtain ⟨fault, hfault⟩ := hspec
      exact ⟨fault, by simp only [hfault, bind, Except.bind]⟩
  · simp only [if_neg hpark]
    generalize decideReplay row.contentHash service row.screenLane priors = dec
    cases hreplay : dec.replay with
    | false =>
      have hstays : row.Retires .keep := trivial
      rfl
    | true =>
      have hspec : if row.Retires (.fail dec.reason) then _ else _ := markFailed_eq hidle hrow
      simp only [if_true]
      split_ifs at hspec ⊢
      · simp only [hspec, bind, bind]
        rfl
      · obtain ⟨fault, hfault⟩ := hspec
        exact ⟨fault, by simp only [hfault, bind, Except.bind]⟩

/-! ### The scan -/

/-- The store with some rows retired, one after the other. -/
def retireAll (act : IntakeReservation → QueueAction) (rows : List IntakeReservation)
    (s : Store K) : Store K :=
  rows.foldl (fun s row => s.retire row (act row)) s

variable {act : IntakeReservation → QueueAction} {rows kept rest : List IntakeReservation}

theorem authority_retireAll : (s.retireAll act rows).authority = s.authority := by
  induction rows generalizing s with
  | nil => rfl
  | cons row rows ih => exact ih.trans authority_retire

theorem policy_retireAll : (s.retireAll act rows).policy = s.policy := by
  induction rows generalizing s with
  | nil => rfl
  | cons row rows ih => exact ih.trans policy_retire

variable {rows' : List IntakeReservation}

theorem retireAll_append :
    s.retireAll act (rows ++ rows') = (s.retireAll act rows).retireAll act rows' :=
  foldl_append

/-- Rows that stay leave the store as it is. -/
theorem retireAll_of_keep (h : ∀ r ∈ rows, act r = .keep) : s.retireAll act rows = s := by
  induction rows with
  | nil => rfl
  | cons row rows ih =>
    have hrow : s.retire row (act row) = s := by
      rw [h row mem_cons_self]
      rfl
    unfold retireAll
    rw [foldl_cons, hrow]
    exact ih fun r hr => h r (.tail _ hr)

/-- What the pass returns for some rows. -/
def retirements (K : IntakeHashes) (act : IntakeReservation → QueueAction)
    (rows : List IntakeReservation) : List (Digest × String) :=
  rows.filterMap fun row => retirement (K := K) row (act row)

theorem retirements_append :
    retirements K act (rows ++ rows') = retirements K act rows ++ retirements K act rows' :=
  filterMap_append

theorem retirements_eq_nil : retirements K act rows = [] ↔ ∀ r ∈ rows, act r = .keep := by
  unfold retirements
  rw [filterMap_eq_nil_iff]
  refine forall₂_congr fun r _ => ?_
  cases act r <;> simp [retirement]

/-- A row is in the queue once. -/
theorem filter_ne_of_nodup (h : ((kept ++ row :: rows ++ rest).map (·.reservationId K)).Nodup) :
    ((kept ++ row :: rows ++ rest).filter fun r => r.reservationId K ≠ row.reservationId K) =
      kept ++ rows ++ rest := by
  simp only [map_append, map_cons, append_assoc, cons_append] at h
  obtain ⟨-, hrow, hapart⟩ := nodup_append.1 h
  have hbef : ∀ r ∈ kept, r.reservationId K ≠ row.reservationId K := fun r hr =>
    hapart _ (mem_map_of_mem hr) _ mem_cons_self
  have hafter : ∀ r ∈ rows ++ rest, r.reservationId K ≠ row.reservationId K := by
    intro r hr heq
    refine (nodup_cons.1 hrow).1 ?_
    rw [← map_append, ← heq]
    exact mem_map_of_mem hr
  rw [append_assoc, filter_append, cons_append, filter_cons_of_neg (by simp),
    filter_eq_self.2 fun r hr => decide_eq_true (hbef r hr),
    filter_eq_self.2 fun r hr => decide_eq_true (hafter r hr), append_assoc]

/-- One window: it retires what leaves the queue, and raises where it cannot. -/
theorem prepareRows_spec (hidle : s.authority = []) (hqueue : s.queued = kept ++ rows ++ rest)
    (hact : ∀ row, queueAction service closed priors row = act row) :
    if ∀ row ∈ rows, row.Retires (act row) then
      prepareRows service closed priors rows s =
        (s.retireAll act rows, .ok (retirements K act rows)) ∧
      (s.retireAll act rows).queued = kept ++ rows.filter (act · = .keep) ++ rest
    else ∃ s' fault, prepareRows service closed priors rows s = (s', .error fault) := by
  induction rows generalizing s kept with
  | nil => exact ⟨rfl, hqueue⟩
  | cons row rows ih =>
    have hrow : row ∈ s.queued := by
      rw [hqueue]
      simp
    have hspec := prepareRow_spec hidle hrow (hact row)
    unfold prepareRows
    by_cases hretires : row.Retires (act row)
    · rw [if_pos hretires] at hspec
      -- The row stays at the head of the queue, or is gone from it.
      have hnext : (s.retire row (act row)).queued =
          (kept ++ [row].filter (act · = .keep)) ++ rows ++ rest := by
        by_cases hkeep : act row = .keep
        · rw [hkeep]
          refine hqueue.trans ?_
          simp [hkeep]
        · have hnodup := queued_nodup (s := s)
          rw [hqueue] at hnodup
          rw [queued_retire hkeep, hqueue, filter_ne_of_nodup hnodup]
          simp [hkeep]
      have ih := ih (authority_retire.trans hidle) hnext
      simp only [hspec, forall_mem_cons, hretires, true_and]
      split_ifs at ih ⊢ with hall
      · obtain ⟨hrun, hleft⟩ := ih
        constructor
        · simp only [hrun, Except.map, retirements, filterMap_cons]
          cases retirement (K := K) row (act row) <;> rfl
        · refine hleft.trans ?_
          rw [filter_cons]
          split_ifs with hkeep <;> simp [hkeep]
      · obtain ⟨s', fault, hs'⟩ := ih
        exact ⟨s', fault, by simp only [hs', Except.map]⟩
    · rw [if_neg hretires] at hspec
      obtain ⟨fault, hfault⟩ := hspec
      rw [if_neg fun hall => hretires (hall row mem_cons_self)]
      exact ⟨s, fault, by simp only [hfault]⟩

/-- **The loop is one scan.**  It retires every row it sees that leaves the queue, and raises if
one of them cannot be retired. -/
theorem prepareLoop_spec {fuel : ℕ} (hfuel : s.queued.length < fuel) (hidle : s.authority = [])
    (hlimit : 0 < s.window limit ∧ s.window limit ≤ s.policy.maxCohort)
    (hact : ∀ row, queueAction service closed priors row = act row)
    (hrows : rows = seen (act · = .keep) s.queued (s.window limit)) :
    if ∀ row ∈ rows, row.Retires (act row) then
      prepareLoop service closed limit priors fuel s =
        (s.retireAll act rows, .ok (retirements K act rows))
    else ∃ s' fault, prepareLoop service closed limit priors fuel s = (s', .error fault) := by
  induction fuel generalizing s rows with
  | zero => cases hfuel
  | succ fuel ih =>
    have hclaim : s.claimable limit = .ok (s.queued.take (s.window limit)) := by
      simp only [claimable, check_of hlimit]
      rfl
    have hqueue : s.queued = [] ++ s.queued.take (s.window limit) ++
        s.queued.drop (s.window limit) :=
      (take_append_drop _ s.queued).symm
    have hspec := prepareRows_spec hidle hqueue hact
    obtain ⟨later, hseen, hnext, hlast⟩ := seen_round (act · = .keep) s.queued (s.window limit)
    unfold prepareLoop
    rw [hrows, hseen]
    simp only [hclaim]
    generalize hwin : s.queued.take (s.window limit) = seen at *
    by_cases hall : ∀ row ∈ seen, row.Retires (act row)
    · rw [if_pos hall] at hspec
      obtain ⟨hrun, hleft⟩ := hspec
      simp only [hrun]
      cases hents : retirements K act seen with
      | nil =>
        rw [hlast (retirements_eq_nil.1 hents), append_nil, if_pos hall, hents]
      | cons entry entries =>
        have hleaves : ∃ row ∈ seen, act row ≠ .keep := by
          by_contra hnone
          rw [retirements_eq_nil.2 fun r hr => not_not.1 fun h => hnone ⟨r, hr, h⟩] at hents
          cases hents
        have hkept : ∀ r ∈ seen.filter (act · = .keep), act r = .keep := fun r hr =>
          of_decide_eq_true (mem_filter.1 hr).2
        -- The queue of the next round is shorter by what left.
        have hshorter : (s.retireAll act seen).queued.length < fuel := by
          obtain ⟨row, hrow, hgone⟩ := hleaves
          have hlt : (seen.filter (act · = .keep)).length < seen.length :=
            length_filter_lt_length_iff_exists.2 ⟨row, hrow, by simpa using hgone⟩
          rw [hleft]
          rw [hqueue] at hfuel
          simp only [nil_append, length_append] at hfuel ⊢
          omega
        have hsame : (s.retireAll act seen).window limit = s.window limit := by
          unfold window
          rw [policy_retireAll]
        have hlimit' : 0 < (s.retireAll act seen).window limit ∧
            (s.retireAll act seen).window limit ≤ (s.retireAll act seen).policy.maxCohort := by
          rw [hsame, policy_retireAll]
          exact hlimit
        have hrest : seen.filter (act · = .keep) ++ later = Window.seen (act · = .keep)
            (s.retireAll act seen).queued ((s.retireAll act seen).window limit) := by
          rw [hsame, hleft]
          exact hnext.symm
        have ih := ih hshorter (authority_retireAll.trans hidle) hlimit' hrest
        have hretires : (∀ row ∈ seen ++ later, row.Retires (act row)) ↔
            ∀ row ∈ seen.filter (act · = .keep) ++ later, row.Retires (act row) := by
          rw [forall_mem_append, forall_mem_append]
          refine and_congr_left fun _ => iff_of_true hall fun r hr => ?_
          rw [hkept r hr]
          trivial
        simp only [hretires]
        split_ifs at ih ⊢ with hevery
        · have hnothing : retirements K act (seen.filter (act · = .keep)) = [] :=
            retirements_eq_nil.2 hkept
          simp only [ih, Except.map, retireAll_append, retireAll_of_keep hkept,
            retirements_append, hnothing, hents, nil_append]
        · obtain ⟨s', fault, hs'⟩ := ih
          exact ⟨s', fault, by simp only [hs', Except.map]⟩
    · rw [if_neg hall] at hspec
      obtain ⟨s', fault, hs'⟩ := hspec
      rw [if_neg fun hevery => hall fun row hrow => hevery row (mem_append_left _ hrow)]
      exact ⟨s', fault, by simp only [hs']⟩

/-! ### What the scan leaves -/

theorem reservationId_retired : (row.retired action).reservationId K = row.reservationId K := by
  cases action <;> rfl

theorem find?_retireAll (hnodup : (rows.map (·.reservationId K)).Nodup)
    (hrows : ∀ r ∈ rows, r ∈ s.reservations.rows) (hrow : row ∈ s.reservations.rows) :
    (s.retireAll act rows).reservations.find? (row.reservationId K) =
      some (if row ∈ rows then row.retired (act row) else row) := by
  induction rows generalizing s row with
  | nil => exact find?_of_mem hrow
  | cons first rows ih =>
    obtain ⟨hnew, hrest⟩ := nodup_cons.1 hnodup
    have hfirst := hrows first mem_cons_self
    -- A row of another key is as before.
    have hkept : ∀ r ∈ s.reservations.rows, r.reservationId K ≠ first.reservationId K →
        r ∈ (s.retire first (act first)).reservations.rows := by
      intro r hr hid
      have hfind : (s.retire first (act first)).reservations.find? (r.reservationId K) =
          some r := by
        rw [find?_retire hfirst, find?_of_mem hr, Option.map_some, if_neg hid]
      exact (find?_eq_some.1 hfind).1
    have hrows' : ∀ r ∈ rows, r ∈ (s.retire first (act first)).reservations.rows := by
      intro r hr
      refine hkept r (hrows r (.tail _ hr)) fun heq => hnew ?_
      exact mem_map.2 ⟨r, hr, heq⟩
    by_cases hid : row.reservationId K = first.reservationId K
    · obtain rfl := eq_of_key hrow hfirst hid
      have hstored : row.retired (act row) ∈ (s.retire row (act row)).reservations.rows := by
        have hfind : (s.retire row (act row)).reservations.find? (row.reservationId K) =
            some (row.retired (act row)) := by
          rw [find?_retire hrow, find?_of_mem hrow, Option.map_some, if_pos rfl]
        exact (find?_eq_some.1 hfind).1
      have hlater := ih hrest hrows' hstored
      rw [reservationId_retired] at hlater
      refine hlater.trans ?_
      rw [if_pos mem_cons_self, if_neg]
      intro hmem
      exact hnew (mem_map.2 ⟨_, hmem, reservationId_retired⟩)
    · have hne : row ≠ first := fun heq => hid (congrArg _ heq)
      refine (ih hrest hrows' (hkept row hrow hid)).trans ?_
      simp only [mem_cons, hne, false_or]

theorem retirement_fst {entry : Digest × String}
    (h : retirement (K := K) row action = some entry) : entry.1 = row.reservationId K := by
  cases action <;> cases h <;> rfl

/-- The list the pass returns has one entry for a row. -/
theorem mem_retirements {text : String} (hnodup : (rows.map (·.reservationId K)).Nodup)
    (hrow : row ∈ rows) : (row.reservationId K, text) ∈ retirements K act rows ↔
      retirement (K := K) row (act row) = some (row.reservationId K, text) := by
  unfold retirements
  rw [mem_filterMap]
  constructor
  · rintro ⟨r, hr, hentry⟩
    have hid : r.reservationId K = row.reservationId K := (retirement_fst hentry).symm
    obtain rfl := inj_on_of_nodup_map hnodup hr hrow hid
    exact hentry
  · exact fun hentry => ⟨row, hrow, hentry⟩

/-! ### The verdicts that bear on a row -/

/-- A verdict under the arena on the bytes of a row that is not a reproduction. -/
def BearsOn (service : Digest) (p row : IntakeReservation) : Prop :=
  judgedUnder service p ∧ row.screenLane ≠ some .reproduction ∧
    row.contentHash ≠ none ∧ p.contentHash = row.contentHash

instance (p row : IntakeReservation) : Decidable (BearsOn service p row) := by
  unfold BearsOn
  infer_instance

/-- The reason a row fails with on account of another. -/
def duplicateReason (K : IntakeHashes) (p : IntakeReservation) : String :=
  replayReason
    { reservationId := p.reservationId K
      contentHash := p.contentHash
      arenaServiceDigest := p.arenaServiceDigest
      decision := .fail
      reason := p.reason }

/-- The decision on a row, made with one other. -/
def decideWith (K : IntakeHashes) (p : IntakeReservation) : ReplayDecision :=
  if p.decision = some .fail then
    { replay := true
      priorReservationId := some (p.reservationId K)
      reason := duplicateReason K p }
  else
    { replay := false
      priorReservationId := some (p.reservationId K)
      refused := "PASS is evidence, not a verdict; a pair must be independently bound" }

variable {p : IntakeReservation} {order : RowOrder}

/-- The verdict of a row bears on another. -/
theorem priorVerdict_any (hjudged : judgedUnder service p)
    (hlane : row.screenLane ≠ some .reproduction) (hhash : row.contentHash ≠ none) :
    ((priorVerdict (K := K) p).any fun prior => prior.contentHash = row.contentHash ∧
      prior.arenaServiceDigest = some service) = true ↔ BearsOn service p row := by
  have hstamp : p.arenaServiceDigest = some service := by
    simpa using (Bool.and_eq_true_iff.1 hjudged).2
  obtain ⟨decision, hdecision⟩ : ∃ decision, p.decision = some decision := by
    have hmem := of_decide_eq_true (Bool.and_eq_true_iff.1 hjudged).1
    rcases mem_pair.1 hmem with h | h <;> exact ⟨_, h⟩
  simp [priorVerdict, BearsOn, hdecision, hstamp, hjudged, hlane, hhash]

/-- The decision on a row is made with the first row the database returns that bears on it. -/
theorem decideReplay_priors (hlane : row.screenLane ≠ some .reproduction)
    (hhash : row.contentHash ≠ none) :
    decideReplay row.contentHash service row.screenLane (s.priors service order) =
      match (order.arrange (s.reservations.rows.filter (judgedUnder service))).find?
        (BearsOn service · row) with
      | none => { replay := false }
      | some p => decideWith K p := by
  have hjudged : ∀ p ∈ order.arrange (s.reservations.rows.filter (judgedUnder service)),
      judgedUnder service p := fun p hp =>
    (mem_filter.1 ((order.perm _).mem_iff.1 hp)).2
  unfold decideReplay priors
  generalize order.arrange (s.reservations.rows.filter (judgedUnder service)) = rows at *
  have hfind : rows.find? (fun p => (priorVerdict (K := K) p).any fun prior =>
      prior.contentHash = row.contentHash ∧ prior.arenaServiceDigest = some service) =
      rows.find? (BearsOn service · row) := by
    refine find?_congr fun p hp => ?_
    rw [Bool.eq_iff_iff, priorVerdict_any (hjudged p hp) hlane hhash, decide_eq_true_eq]
  rw [if_neg hlane, if_neg hhash, find?_filterMap, hfind]
  cases hfirst : rows.find? (BearsOn service · row) with
  | none => rfl
  | some p =>
    have hmem := of_decide_eq_true
      (Bool.and_eq_true_iff.1 (hjudged p (mem_of_find?_eq_some hfirst))).1
    rcases mem_pair.1 hmem with hpass | hfail
    · simp [priorVerdict, decideWith, hpass, QualificationDecision.value]
    · simp [priorVerdict, decideWith, hfail, duplicateReason]

/-- The row is parked and not replayed. -/
def Parked (closed : List String) (row : IntakeReservation) : Prop :=
  row.targetId ∈ closed ∧ row.status = .published ∧ row.arenaServiceDigest = none

instance (row : IntakeReservation) : Decidable (Parked closed row) := by
  unfold Parked
  infer_instance

/-- The decision is made with a row that bears on this one, if there is any. -/
theorem decideReplay_cases (s : Store K) (service : Digest) (order : RowOrder)
    (row : IntakeReservation) :
    (∃ p ∈ s.reservations.rows, BearsOn service p row ∧
      decideReplay row.contentHash service row.screenLane (s.priors service order) =
        decideWith K p) ∨
    (∀ p ∈ s.reservations.rows, ¬ BearsOn service p row) ∧
      ∃ refused, decideReplay row.contentHash service row.screenLane
        (s.priors service order) = { replay := false, refused := refused } := by
  by_cases hlane : row.screenLane = some .reproduction
  · exact .inr ⟨fun p _ h => h.2.1 hlane, _, if_pos hlane⟩
  by_cases hhash : row.contentHash = none
  · exact .inr ⟨fun p _ h => h.2.2.1 hhash, _, (if_neg hlane).trans (if_pos hhash)⟩
  rw [decideReplay_priors hlane hhash]
  have hmem (p : IntakeReservation) : p ∈ order.arrange (s.reservations.rows.filter
      (judgedUnder service)) ↔ p ∈ s.reservations.rows ∧ judgedUnder service p :=
    (order.perm _).mem_iff.trans mem_filter
  cases hfirst : (order.arrange (s.reservations.rows.filter (judgedUnder service))).find?
    (BearsOn service · row) with
  | none =>
    refine .inr ⟨fun p hp hbears => ?_, "", rfl⟩
    have hnot := List.find?_eq_none.1 hfirst p ((hmem p).2 ⟨hp, hbears.1⟩)
    exact hnot (decide_eq_true hbears)
  | some p =>
    have hbears := find?_some hfirst
    exact .inl ⟨p, ((hmem p).1 (mem_of_find?_eq_some hfirst)).1, of_decide_eq_true hbears, rfl⟩

/-- The order that begins with a row. -/
def firstRow (p : IntakeReservation) : RowOrder where
  arrange rows := if p ∈ rows then p :: rows.erase p else rows
  perm rows := by
    split_ifs with h
    · exact (perm_cons_erase h).symm
    · exact .refl _

/-- Every verdict that bears on a row decides in some order. -/
theorem decideReplay_firstRow (hp : p ∈ s.reservations.rows)
    (hbears : BearsOn service p row) : decideReplay row.contentHash service
      row.screenLane (s.priors service (firstRow p)) = decideWith K p := by
  have hmem : p ∈ s.reservations.rows.filter (judgedUnder service) :=
    mem_filter.2 ⟨hp, hbears.1⟩
  rw [decideReplay_priors hbears.2.1 hbears.2.2.1]
  simp only [firstRow, if_pos hmem, find?_cons, hbears, decide_true]

theorem action_of_parked (h : Parked closed row) :
    queueAction service closed priors row = .park := if_pos h

theorem action_of_fail (h : ¬ Parked closed row) (hfail : p.decision = some .fail)
    (hdecide : decideReplay row.contentHash service row.screenLane priors =
      decideWith K p) :
    queueAction service closed priors row = .fail (duplicateReason K p) := by
  refine (if_neg h).trans ?_
  simp only [hdecide, decideWith, hfail, if_true]

theorem action_of_not_replay (h : ¬ Parked closed row)
    (hdecide : (decideReplay row.contentHash service row.screenLane priors).replay =
      false) : queueAction service closed priors row = .keep := by
  refine (if_neg h).trans ?_
  simp only [hdecide, Bool.false_eq_true, if_false]

/-! ### Sound replays -/

/-- The bytes of the row were measured under the arena, and lost. -/
def LostUnder (s : Store K) (service : Digest) (row : IntakeReservation) : Prop :=
  ∃ q ∈ s.reservations.rows, q.contentHash = row.contentHash ∧ q.arenaServiceDigest = some service ∧
    ∃ d ∈ s.dispositions, d.reservationId = q.reservationId K ∧ d.decision = .fail

/-- There is one result, whatever the order of the verdicts.  A reservation fails as a duplicate
only if its bytes lost under the arena and passed nowhere under it, and not on account of a row
that was demoted as a copy of it. -/
def ReplaySound (s : Store K) (service : Digest) (closed : List String) (limit : Option ℕ) : Prop :=
  ∃ s' retired,
    (∀ order, s.prepareQualificationQueue service closed limit order = (s', .ok retired)) ∧
    ∀ row ∈ s.reservations.rows, row.status = .published →
      (∃ row', s'.reservations.find? (row.reservationId K) = some row' ∧ row'.status = .failed) →
      s.LostUnder service row ∧
      (∀ q ∈ s.reservations.rows, q.contentHash = row.contentHash →
        q.arenaServiceDigest = some service → q.decision ≠ some .pass) ∧
      ∀ order, ∀ p ∈ s.reservations.rows, (decideReplay row.contentHash service row.screenLane
          (s.priors service order)).priorReservationId = some (p.reservationId K) →
        p.reason ≠ "copy_of:" ++ (row.reservationId K).hex

/-- The row is parked, or some verdict that bears on it is a FAIL. -/
def Leaves (s : Store K) (service : Digest) (closed : List String) (row : IntakeReservation) :
    Prop :=
  Parked closed row ∨ ∃ p ∈ s.reservations.rows, BearsOn service p row ∧ p.decision = some .fail

instance (s : Store K) : DecidablePred (s.Leaves service closed) := fun row => by
  unfold Leaves
  infer_instance

/-- The verdicts that bear on a row agree.  If one is a FAIL, so are all, for one reason that
fits; the bytes were measured; none of them was demoted as a copy of the row. -/
structure Agree (s : Store K) (service : Digest) (closed : List String)
    (row : IntakeReservation) : Prop where
  parked : Parked closed row → row.targetId ≠ ""
  replayed : ¬ Parked closed row → ∀ p ∈ s.reservations.rows, BearsOn service p row →
    p.decision = some .fail →
      row.status = .published ∧ (duplicateReason K p).length ≤ 2048 ∧ s.LostUnder service row ∧
      p.reason ≠ "copy_of:" ++ (row.reservationId K).hex ∧
      ∀ q ∈ s.reservations.rows, BearsOn service q row →
        q.decision = some .fail ∧ duplicateReason K q = duplicateReason K p

/-- The verdicts agree on every row that the pass looks at. -/
def VerdictsAgree (s : Store K) (service : Digest) (closed : List String) (limit : Option ℕ) :
    Prop :=
  (0 < s.window limit ∧ s.window limit ≤ s.policy.maxCohort) ∧
    ∀ row ∈ seen (¬ s.Leaves service closed ·) s.queued (s.window limit), s.Agree service closed row

/-- Where the verdicts agree, the queue parks the row, fails it for the one reason there is, or
keeps it because nothing makes it leave. -/
theorem Agree.cases (h : s.Agree service closed row) (order : RowOrder) :
    Parked closed row ∧ queueAction service closed (s.priors service order) row = .park ∨
    (¬ Parked closed row ∧ ∃ p ∈ s.reservations.rows, BearsOn service p row ∧
      p.decision = some .fail ∧
      queueAction service closed (s.priors service order) row = .fail (duplicateReason K p)) ∨
    ¬ s.Leaves service closed row ∧
      queueAction service closed (s.priors service order) row = .keep := by
  by_cases hpark : Parked closed row
  · exact .inl ⟨hpark, action_of_parked hpark⟩
  rcases decideReplay_cases s service order row with ⟨p, hp, hbears, hdecide⟩ | ⟨hnone, _, hdecide⟩
  · by_cases hfail : p.decision = some .fail
    · exact .inr (.inl ⟨hpark, p, hp, hbears, hfail, action_of_fail hpark hfail hdecide⟩)
    · refine .inr (.inr ⟨?_, action_of_not_replay hpark ?_⟩)
      · rintro (hparked | ⟨q, hq, hbears', hfail'⟩)
        · exact hpark hparked
        · -- A FAIL elsewhere would make this verdict a FAIL.
          obtain ⟨-, -, -, -, hall⟩ := h.replayed hpark q hq hbears' hfail'
          exact hfail (hall p hp hbears).1
      · simp only [hdecide, decideWith, hfail, if_false]
  · refine .inr (.inr ⟨?_, action_of_not_replay hpark (by rw [hdecide])⟩)
    rintro (hparked | ⟨q, hq, hbears, -⟩)
    · exact hpark hparked
    · exact hnone q hq hbears

/-- The queue keeps a row that nothing makes leave. -/
theorem queueAction_of_stays (h : ¬ s.Leaves service closed row) (order : RowOrder) :
    queueAction service closed (s.priors service order) row = .keep := by
  have hpark : ¬ Parked closed row := fun hpark => h (.inl hpark)
  refine action_of_not_replay hpark ?_
  rcases decideReplay_cases s service order row with ⟨p, hp, hbears, hdecide⟩ | ⟨-, _, hdecide⟩
  · have hpass : ¬ p.decision = some .fail := fun hfail => h (.inr ⟨p, hp, hbears, hfail⟩)
    simp only [hdecide, decideWith, hpass, if_false]
  · rw [hdecide]

section

variable (h : s.Agree service closed row)

include h

theorem Agree.keep_iff (order : RowOrder) :
    queueAction service closed (s.priors service order) row = .keep ↔
      ¬ s.Leaves service closed row := by
  rcases h.cases order with ⟨hpark, hact⟩ | ⟨-, p, hp, hbears, hfail, hact⟩ | ⟨hstays, hact⟩
  · rw [hact]
    exact iff_of_false nofun (not_not.2 (.inl hpark))
  · rw [hact]
    exact iff_of_false nofun (not_not.2 (.inr ⟨p, hp, hbears, hfail⟩))
  · exact iff_of_true hact hstays

/-- Where the verdicts agree, their order does not matter. -/
theorem Agree.action_eq (order order' : RowOrder) :
    queueAction service closed (s.priors service order) row =
      queueAction service closed (s.priors service order') row := by
  rcases h.cases order with ⟨hpark, hact⟩ | ⟨hopen, p, hp, hbears, hfail, hact⟩ | ⟨hstays, hact⟩
  · rw [hact, action_of_parked hpark]
  · rcases h.cases order' with ⟨hpark', -⟩ | ⟨-, p', hp', hbears', -, hact'⟩ | ⟨hstays', -⟩
    · exact absurd hpark' hopen
    · obtain ⟨-, -, -, -, hall⟩ := h.replayed hopen p hp hbears hfail
      rw [hact, hact', (hall p' hp' hbears').2]
    · exact absurd (.inr ⟨p, hp, hbears, hfail⟩) hstays'
  · rw [hact, (h.keep_iff order').2 hstays]

theorem Agree.retires (order : RowOrder) :
    row.Retires (queueAction service closed (s.priors service order) row) := by
  rcases h.cases order with ⟨hpark, hact⟩ | ⟨hopen, p, hp, hbears, hfail, hact⟩ | ⟨-, hact⟩
  · rw [hact]
    exact h.parked hpark
  · obtain ⟨hstat, hlen, -⟩ := h.replayed hopen p hp hbears hfail
    rw [hact]
    exact ⟨hstat, hlen⟩
  · rw [hact]
    trivial

end

/-- The pass in one order of the verdicts, in a store between two calls. -/
theorem prepareQueue_spec (hidle : s.authority = [])
    (hlimit : 0 < s.window limit ∧ s.window limit ≤ s.policy.maxCohort)
    (hact : act = queueAction service closed (s.priors service order))
    (hrows : rows = seen (act · = .keep) s.queued (s.window limit)) :
    if ∀ row ∈ rows, row.Retires (act row) then
      s.prepareQualificationQueue service closed limit order =
        (s.retireAll act rows, .ok (retirements K act rows))
    else ∃ s' fault, s.prepareQualificationQueue service closed limit order =
      (s', .error fault) := by
  refine prepareLoop_spec ?_ hidle hlimit (fun row => by rw [hact]) hrows
  have hlen : s.queued.length ≤ s.reservations.rows.length :=
    (sortBy_perm.length_eq).trans_le (length_filter_le _ _)
  exact Nat.lt_succ_of_le hlen

variable {act' : IntakeReservation → QueueAction}

/-- Rows that are treated alike are retired alike. -/
theorem retireAll_congr
    (h : ∀ r ∈ rows, act r = act' r) : s.retireAll act rows = s.retireAll act' rows := by
  induction rows generalizing s with
  | nil => rfl
  | cons row rows ih =>
    unfold retireAll
    rw [foldl_cons, foldl_cons, h row mem_cons_self]
    exact ih fun r hr => h r (.tail _ hr)

variable {keep : IntakeReservation → Prop} {n : ℕ}

theorem seen_nodup [DecidablePred keep] : ((seen keep s.queued n).map (·.reservationId K)).Nodup :=
  queued_nodup.sublist (seen_sublist.map _)

theorem mem_rows_of_seen [DecidablePred keep] (h : row ∈ seen keep s.queued n) :
    row ∈ s.reservations.rows :=
  (mem_queued.1 (seen_sublist.subset h)).1

theorem retirements_congr
    (h : ∀ r ∈ rows, act r = act' r) : retirements K act rows = retirements K act' rows :=
  filterMap_congr fun r hr => by rw [h r hr]

/-- A row that fails in the scan was there to be failed. -/
theorem fail_of_retireAll {row' : IntakeReservation} (hnodup : (rows.map (·.reservationId K)).Nodup)
    (hrows : ∀ r ∈ rows, r ∈ s.reservations.rows) (hrow : row ∈ s.reservations.rows)
    (hopen : row.status = .published)
    (hrow' : (s.retireAll act rows).reservations.find? (row.reservationId K) = some row')
    (hfailed : row'.status = .failed) : row ∈ rows ∧ ∃ reason, act row = .fail reason := by
  rw [find?_retireAll hnodup hrows hrow] at hrow'
  obtain rfl := Option.some.inj hrow'
  split_ifs at hfailed with hmem
  · refine ⟨hmem, ?_⟩
    cases hact : act row with
    | keep =>
      rw [hact] at hfailed
      exact absurd (hopen.symm.trans hfailed) (by decide)
    | park =>
      rw [hact] at hfailed
      cases hfailed
    | fail reason => exact ⟨reason, rfl⟩
  · exact absurd (hopen.symm.trans hfailed) (by decide)

/-- Where the verdicts agree, the pass is sound. -/
theorem ReplaySound.of_agree (hidle : s.authority = [])
    (h : s.VerdictsAgree service closed limit) : s.ReplaySound service closed limit := by
  obtain ⟨hlimit, hagree⟩ := h
  have hnodup : ((seen (¬ s.Leaves service closed ·) s.queued (s.window limit)).map
      (·.reservationId K)).Nodup := seen_nodup
  have hstored : ∀ r ∈ seen (¬ s.Leaves service closed ·) s.queued (s.window limit),
      r ∈ s.reservations.rows := fun _ => mem_rows_of_seen
  have hseen (order : RowOrder) : seen (queueAction service closed
      (s.priors service order) · = .keep) s.queued (s.window limit) = _ :=
    seen_congr fun row hrow => ((hagree row hrow).keep_iff order).symm
  generalize seen (¬ s.Leaves service closed ·) s.queued (s.window limit) = rows at *
  -- Any order will do; the others give the same.
  let order₀ : RowOrder := ⟨id, fun _ => .refl _⟩
  refine ⟨s.retireAll (queueAction service closed (s.priors service order₀)) rows,
    retirements K (queueAction service closed (s.priors service order₀)) rows,
    fun order => ?_, fun row hrow hopen ⟨row', hrow', hfailed⟩ => ?_⟩
  · have hspec := prepareQueue_spec hidle hlimit rfl (hseen order).symm
    have hsame : ∀ r ∈ rows, queueAction service closed (s.priors service order) r =
        queueAction service closed (s.priors service order₀) r := fun r hr =>
      (hagree r hr).action_eq order order₀
    rw [if_pos fun row hrow => (hagree row hrow).retires order] at hspec
    rw [hspec, retireAll_congr hsame, retirements_congr hsame]
  · obtain ⟨hmem, reason, hact⟩ := fail_of_retireAll hnodup hstored hrow hopen hrow' hfailed
    have hrowAgree := hagree row hmem
    rcases hrowAgree.cases order₀ with ⟨-, hpark⟩ | ⟨hclose, p, hp, hbears, hfail, -⟩ | ⟨-, hkeep⟩
    · rw [hpark] at hact
      cases hact
    · obtain ⟨-, -, hlost, -, hall⟩ := hrowAgree.replayed hclose p hp hbears hfail
      refine ⟨hlost, fun q hq hhash hstamp hpass => ?_, fun order q hq hprior => ?_⟩
      · have hbears' : BearsOn service q row :=
          ⟨by simp [judgedUnder, hpass, hstamp], hbears.2.1, hbears.2.2.1, hhash⟩
        rw [(hall q hq hbears').1] at hpass
        cases hpass
      · -- The row that decided is one of those that bear on this one.
        rcases decideReplay_cases s service order row with
          ⟨q', hq', hbears', hdecide⟩ | ⟨-, _, hdecide⟩
        · have hkey : q'.reservationId K = q.reservationId K := by
            rw [hdecide, decideWith, if_pos (hall q' hq' hbears').1] at hprior
            exact Option.some.inj hprior
          obtain rfl := eq_of_key hq' hq hkey
          exact (hrowAgree.replayed hclose q' hq hbears' (hall q' hq hbears').1).2.2.2.1
        · rw [hdecide] at hprior
          cases hprior
    · rw [hkeep] at hact
      cases hact

variable {retired : List (Digest × String)}

/-- The pass raises on a limit that is not a cohort. -/
theorem limit_of_ok
    (h : s.prepareQualificationQueue service closed limit order = (s', .ok retired)) :
    0 < s.window limit ∧ s.window limit ≤ s.policy.maxCohort := by
  by_contra hlimit
  have hclaim : s.claimable limit = .error (intake "claimable cohort limit is invalid") := by
    simp only [claimable, check, hlimit, if_false]
    rfl
  simp only [prepareQualificationQueue, prepareLoop, hclaim, Prod.mk.injEq, reduceCtorEq,
    and_false] at h

/-- What a pass that goes through looked at, did and returned. -/
theorem run_of_ok (hidle : s.authority = [])
    (h : s.prepareQualificationQueue service closed limit order = (s', .ok retired))
    (hact : act = queueAction service closed (s.priors service order))
    (hrows : rows = seen (act · = .keep) s.queued (s.window limit)) :
    (∀ row ∈ rows, row.Retires (act row)) ∧ s' = s.retireAll act rows ∧
      retired = retirements K act rows := by
  have hspec := prepareQueue_spec hidle (limit_of_ok h) hact hrows
  split_ifs at hspec with hall
  · rw [h, Prod.mk.injEq, ok.injEq] at hspec
    exact ⟨hall, hspec⟩
  · obtain ⟨_, _, hfault⟩ := hspec
    rw [h, Prod.mk.injEq] at hfault
    cases hfault.2

/-- The list that the pass returns tells which rows left. -/
theorem mem_map_retirements (hnodup : (rows.map (·.reservationId K)).Nodup) (hrow : row ∈ rows) :
    row.reservationId K ∈ (retirements K act rows).map (·.1) ↔ act row ≠ .keep := by
  have hsome : (retirement (K := K) row (act row)).isSome ↔ act row ≠ .keep := by
    cases act row <;> simp [retirement]
  rw [← hsome, Option.isSome_iff_exists]
  constructor
  · intro hmem
    obtain ⟨⟨_, text⟩, hentry, rfl⟩ := mem_map.1 hmem
    exact ⟨_, (mem_retirements hnodup hrow).1 hentry⟩
  · rintro ⟨⟨id, text⟩, hentry⟩
    obtain rfl := retirement_fst hentry
    exact mem_map.2 ⟨_, (mem_retirements hnodup hrow).2 hentry, rfl⟩

/-- A sound pass needs verdicts that agree. -/
theorem VerdictsAgree.of_sound (hidle : s.authority = [])
    (h : s.ReplaySound service closed limit) : s.VerdictsAgree service closed limit := by
  obtain ⟨s', retired, hres, hsound⟩ := h
  -- Every order looks at the same rows: those that the one list of departures leaves room for.
  obtain ⟨rows, hrows⟩ : ∃ rows, seen (·.reservationId K ∉ retired.map (·.1)) s.queued
    (s.window limit) = rows := ⟨_, rfl⟩
  have hseen (order : RowOrder) : rows = seen (queueAction service closed
      (s.priors service order) · = .keep) s.queued (s.window limit) := by
    obtain ⟨-, -, rfl⟩ := run_of_ok hidle (hres order) rfl rfl
    refine hrows.symm.trans (seen_congr fun row hrow => ?_)
    rw [mem_map_retirements seen_nodup hrow, not_not]
  have hrun (order : RowOrder) := run_of_ok hidle (hres order) rfl (hseen order)
  have hnodup : (rows.map (·.reservationId K)).Nodup := hrows ▸ seen_nodup
  have hstored : ∀ r ∈ rows, r ∈ s.reservations.rows := hrows ▸ fun _ => mem_rows_of_seen
  let order₀ : RowOrder := ⟨id, fun _ => .refl _⟩
  refine ⟨limit_of_ok (hres order₀), ?_⟩
  have hleft (order : RowOrder) (row : IntakeReservation) (hrow : row ∈ rows) :
      row.reservationId K ∈ retired.map (·.1) ↔
        queueAction service closed (s.priors service order) row ≠ .keep := by
    rw [(hrun order).2.2]
    exact mem_map_retirements hnodup hrow
  have hgone : ∀ row ∈ rows, (row.reservationId K ∉ retired.map (·.1) ↔
      ¬ s.Leaves service closed row) := by
    intro row hrow
    refine not_congr ⟨fun hmem => ?_, fun hleaves => ?_⟩
    · by_contra hstays
      exact (hleft order₀ row hrow).1 hmem (queueAction_of_stays hstays order₀)
    · by_cases hpark : Parked closed row
      · rw [hleft order₀ row hrow, action_of_parked hpark]
        nofun
      · obtain ⟨p, hp, hbears, hfail⟩ := hleaves.resolve_left hpark
        rw [hleft (firstRow p) row hrow,
          action_of_fail hpark hfail (decideReplay_firstRow hp hbears)]
        nofun
  have hlisted : ∀ row ∈ rows, ¬ Parked closed row → ∀ p ∈ s.reservations.rows,
      BearsOn service p row → p.decision = some .fail →
      (row.reservationId K, duplicateReason K p) ∈ retired := by
    intro row hrow hpark p hp hbears hfail
    rw [(hrun (firstRow p)).2.2, mem_retirements hnodup hrow,
      action_of_fail hpark hfail (decideReplay_firstRow hp hbears)]
    rfl
  rw [seen_congr (hrows ▸ hgone), hrows]
  intro row hrow
  refine ⟨fun hpark => ?_, fun hpark p hp hbears hfail => ?_⟩
  · have hretires := (hrun order₀).1 row hrow
    rwa [action_of_parked hpark] at hretires
  · -- In the order that begins with this verdict, the row fails on account of it.
    have hdecide := decideReplay_firstRow hp hbears
    have hact := action_of_fail hpark hfail hdecide
    have hretires := (hrun (firstRow p)).1 row hrow
    rw [hact] at hretires
    have hstore := (hrun (firstRow p)).2.1
    have hafter : s'.reservations.find? (row.reservationId K) =
        some (row.retired (.fail (duplicateReason K p))) := by
      rw [hstore, find?_retireAll hnodup hstored (hstored row hrow), if_pos hrow, hact]
    obtain ⟨hlost, hpass, hcopy⟩ := hsound row (hstored row hrow) hretires.1 ⟨_, hafter, rfl⟩
    refine ⟨hretires.1, hretires.2, hlost, hcopy (firstRow p) p hp ?_, fun q hq hbears' => ?_⟩
    · rw [hdecide, decideWith, if_pos hfail]
    · have hfail' : q.decision = some .fail := by
        have hstamp : q.arenaServiceDigest = some service := by
          simpa using (Bool.and_eq_true_iff.1 hbears'.1).2
        have hmem := of_decide_eq_true (Bool.and_eq_true_iff.1 hbears'.1).1
        exact (mem_pair.1 hmem).resolve_left (hpass q hq hbears'.2.2.2 hstamp)
      -- The list has one entry for the row, and both verdicts are in it.
      have hentry : (row.reservationId K, duplicateReason K p) ∈ retired :=
        hlisted row hrow hpark p hp hbears hfail
      have hentry' : (row.reservationId K, duplicateReason K q) ∈ retired :=
        hlisted row hrow hpark q hq hbears' hfail'
      rw [(hrun order₀).2.2, mem_retirements hnodup hrow] at hentry hentry'
      rw [hentry] at hentry'
      exact ⟨hfail', (Prod.mk.inj (Option.some.inj hentry')).2.symm⟩

/-- **The replay of earlier verdicts.**  In every store that some operations lead to, the pass
before a claim has one sound result if and only if the verdicts agree on every row it looks at. -/
theorem replaySound_iff (policy : IntakePolicy) (recoverable : Bool) (ops : List (Op K))
    (service : Digest) (closed : List String) (limit : Option ℕ) :
    let s := (init K policy recoverable).run ops
    s.ReplaySound service closed limit ↔ s.VerdictsAgree service closed limit :=
  ⟨.of_sound (idle_run policy recoverable ops), .of_agree (idle_run policy recoverable ops)⟩

/-- Two accounts submit the same bytes.  The later submission is published first and passes; then
the earlier one is published, and the later one is demoted as its copy. -/
def sampleDemoted : List (Op intakeHashes) :=
  let copy := { sampleArrival 2 bob with
    contentHash := some (.ofNat 101), disposition_ok := .inl ⟨rfl, by decide, by decide⟩ }
  [.initializeStack sampleStack (sampleTree sampleStack),
    Sample.reserve 2 [sampleArrival 1 alice, copy]] ++
  Sample.publish 2 1 "" ++ Sample.claim 1 [2] ++
  Sample.pass 1 3 [sampleQualification 2 1 2 "bob" "attn" 1 sampleStack
    (samplePercent 2 (by decide))] ++
  Sample.publish 1 1 "" ++ [.queue .reconcileCopies]

/-- The original is failed because its copy was demoted; nothing was measured as a FAIL. -/
theorem replay_fails_original :
    let s := (init intakeHashes {} false).run sampleDemoted
    let order : RowOrder := ⟨id, fun _ => .refl _⟩
    let result := s.prepareQualificationQueue (.ofNat 23) [] none order
    (s.reservations.find? (sampleId 1)).map (·.status) = some .published ∧
    (s.reservations.find? (sampleId 2)).map (fun r => (r.status, r.reason)) =
      some (.failed, "copy_of:" ++ (sampleId 1).hex) ∧
    (∀ d ∈ s.dispositions, d.decision = .pass) ∧
    (result.1.reservations.find? (sampleId 1)).map (fun r => (r.status, r.reason)) =
      some (.failed, "duplicate_of:0000000000000000:copy_of:" ++ (sampleId 1).hex) ∧
    result.2 = .ok [(sampleId 1, "duplicate_of:0000000000000000:copy_of:" ++
      (sampleId 1).hex)] := by
  decide

end Store

end Cacheon
