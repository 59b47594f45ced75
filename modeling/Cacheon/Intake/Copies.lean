import Cacheon.Intake.Admission
import Cacheon.Intake.Standing
import Mathlib.Data.Nat.Digits.Defs

/-!
# The demotion of copies

Every pass of the validator walks over all reservations and fails the later copies of earlier
submissions.  The walk stops at the first copy that an evaluation lease holds.

* `Store.reconcileCopies` : the walk, with what it returns.
* `Store.originals` : the submissions a reservation copies; the walk does not change them.
* `Store.demoteCopy_eq` : what one step of the walk does in a store between two calls.
* `Store.CopiesResolved` : every copy is failed for its earliest original, and nothing is left.
* `Store.copiesResolved_iff` : the walk resolves the copies if and only if none is leased.
-/

namespace Cacheon

open Fallible IntakeFault List Option Keyed Table

namespace IntakeReservation

/-- A later reservation of another account copies this one. -/
def CopiedBy (r later : IntakeReservation) : Prop :=
  r.arrivalKey < later.arrivalKey ∧ r.hotkey ≠ later.hotkey ∧
    ∃ earlier ∈ r.deltaFingerprint, ∃ delta ∈ later.deltaFingerprint,
      (compareSubmittedDeltas earlier delta).authoritative = true

instance (r later : IntakeReservation) : Decidable (r.CopiedBy later) := by
  unfold CopiedBy
  infer_instance

/-- The reservation has a fingerprint, and its work is not over. -/
def Unresolved (r : IntakeReservation) : Prop :=
  r.deltaFingerprint ≠ none ∧ r.status ∉ [.failed, .expired]

instance (r : IntakeReservation) : Decidable r.Unresolved := by
  unfold Unresolved
  infer_instance

/-- The reservation, failed as a copy. -/
def demoted (r : IntakeReservation) (original : Digest) : IntakeReservation :=
  r.withWork { r.toWork with
      status := .failed
      decision := some .fail
      reason := "copy_of:" ++ original.hex
      qualificationEvidenceDigest := none }

end IntakeReservation

namespace Store

variable {K : IntakeHashes} {p : Permit} {s s₀ s' : Store K} {id : Digest} {row : IntakeReservation}

/-! ### Between two calls -/

/-- Only the acceptance of a result takes an authority. -/
theorem Move.authority (hp : p.accepts = false) (h : Move p s s') :
    s'.authority = s.authority ∨ s'.authority = [] := by
  cases h with
  | aside h | commission h | charge _ h => exact .inl (congrArg Core.authority h)
  | rows h =>
    rw [updateReservations_eq h]
    exact .inl rfl
  | reserve h =>
    obtain ⟨_, -, rfl⟩ := insertReservation_spec h
    exact .inl rfl
  | finalize | unbind => exact .inl rfl
  | bind _ _ h =>
    obtain ⟨_, rfl⟩ := bindBaseline_eq h
    exact .inl rfl
  | bindQueue _ h =>
    obtain ⟨_, rfl⟩ := bindUnboundQueue_eq h
    exact .inl rfl
  | claim _ _ _ h => exact .inl (openLease_onLeases h).authority
  | expire _ _ _ _ h => exact .inl (endLease_onLeases h).authority
  | recover _ _ _ h _ => exact .inl (transition_onLeases h).authority
  | release _ h => exact .inl (releaseRecovery_onLeases h).authority
  | authorize ha => rw [hp] at ha; cases ha
  | complete _ _ _ _ h => exact .inr (completeLease_onLeases h).authority
  | reopen => exact .inr rfl

theorem Moves.authority (hp : p.accepts = false) (h : Moves p s s') :
    s'.authority = s.authority ∨ s'.authority = [] :=
  h.invariant (I := fun s' => s'.authority = s.authority ∨ s'.authority = []) (.inl rfl)
    fun _ _ hs h => (h.authority hp).elim (fun hsame => hsame ▸ hs) .inr

/-- An operation takes no authority that outlasts it. -/
theorem authority_step (s : Store K) (op : Op K) :
    (s.step op).authority = s.authority ∨ (s.step op).authority = [] := by
  by_cases hp : op.permit.accepts = false
  · exact (s.step_spec op).moves.authority hp
  · -- The two operations that accept a result end with the completion of the lease.
    cases op with
    | queue op =>
      cases op with
      | commitRemoteHold lease block result reason leaseBlocks =>
        refine committed_cases (I := fun s' => s'.authority = s.authority ∨ s'.authority = [])
          (.inl rfl) fun s' h => .inr ?_
        obtain ⟨_, _, _, _, _, -, -, -, -, -, -, -, -, -, h⟩ := remoteHold_spec h
        exact (completeLease_onLeases h).authority
      | _ => exact absurd rfl hp
    | acceptResult =>
      rcases acceptResult_cases rfl with hstep | ⟨s₂, -, -, -, hcompl⟩
      · exact hstep.moves.authority rfl
      · exact .inr (completeLease_onLeases hcompl).authority
    | _ => exact absurd rfl hp

theorem idle_step (hs : s.authority = []) (op : Op K) : (s.step op).authority = [] :=
  (s.authority_step op).elim (·.trans hs) id

theorem idle_run (policy : IntakePolicy) (recoverable : Bool) (ops : List (Op K)) :
    ((init K policy recoverable).run ops).authority = [] :=
  run_invariant (I := fun s => s.authority = []) rfl fun _ op hs => idle_step hs op

/-- Every published bundle has its fingerprint and is past its transport. -/
def Marked (s : Store K) : Prop := ∀ id r, s.reservations.find? id = some r → r.toWork.Marked

theorem Marked.step (hs : s.Marked) (op : Op K) : (s.step op).Marked := by
  intro id r' hr'
  rcases (s.step_spec op).back hr' with ⟨r, hr, hstep⟩ | ⟨-, hfresh⟩
  · exact hstep.marked (hs id r hr)
  · exact hfresh.unmarked

theorem marked_run (policy : IntakePolicy) (recoverable : Bool) (ops : List (Op K)) :
    ((init K policy recoverable).run ops).Marked := by
  refine run_invariant ?_ fun _ op hs => hs.step op
  intro _ _ hr
  cases hr

/-! ### The originals of a copy -/

/-- The reservations that one copies, in finalized order. -/
def originals (s : Store K) (row : IntakeReservation) : List Digest :=
  (s.all.filter (·.CopiedBy row)).map (·.reservationId K)

/-- The earliest reservation that an unresolved one copies. -/
def original (s : Store K) (row : IntakeReservation) : Option Digest :=
  if row.Unresolved then (s.originals row).head? else none

/-- The submissions in finalized order. -/
theorem map_all : s.all.map (fun r => (r.arrival, r.deltaFingerprint)) =
    sortBy (·.1.arrivalKey) s.submittedDeltas :=
  map_sortBy fun _ => rfl

theorem originals_congr (h : s'.submittedDeltas = s.submittedDeltas) :
    s'.originals row = s.originals row := by
  have hkept (s : Store K) : s.originals row =
      ((s.all.map fun r => (r.arrival, r.deltaFingerprint)).filter fun d =>
        d.1.arrivalKey < row.arrivalKey ∧ d.1.hotkey ≠ row.hotkey ∧
          ∃ earlier ∈ d.2, ∃ delta ∈ row.deltaFingerprint,
            (compareSubmittedDeltas earlier delta).authoritative = true).map
        (·.1.reservationId K) := by
    rw [List.filter_map, List.map_map]
    rfl
  rw [hkept, hkept, map_all, map_all, h]

theorem original_congr (h : s'.submittedDeltas = s.submittedDeltas) :
    s'.original row = s.original row := by
  unfold original
  rw [originals_congr h]

theorem copyPredecessors_eq {delta : SubmittedDeltaFingerprint}
    (hrow : s.reservations.find? id = some row) (hdelta : row.deltaFingerprint = some delta) :
    s.copyPredecessors id = .ok (s.all.filter (·.CopiedBy row)) := by
  have hget : s.get id = .ok row := get_iff.2 hrow
  simp only [copyPredecessors, hget, hdelta, Fallible.get, Except.bind, bind]
  simp only [IntakeReservation.CopiedBy, hdelta, mem_def, some.injEq,
    exists_eq_left', Option.any_eq_true]

/-- An original is an earlier reservation, and the first one is the earliest. -/
theorem original_eq_some {original : Digest} (h : s.original row = some original) :
    row.Unresolved ∧ ∃ e ∈ s.reservations.rows, e.reservationId K = original ∧
      e.CopiedBy row ∧ ∀ e' ∈ s.reservations.rows, e'.CopiedBy row →
        e.arrivalKey ≤ e'.arrivalKey := by
  unfold Store.original at h
  split at h
  · next hopen =>
    unfold originals at h
    rw [head?_map, map_eq_some_iff] at h
    obtain ⟨e, he, hid⟩ := h
    obtain ⟨rest, hlist⟩ := head?_eq_some_iff.1 he
    have hmem : e ∈ s.all.filter (·.CopiedBy row) := hlist ▸ mem_cons_self
    obtain ⟨hall, hcopied⟩ := mem_filter.1 hmem
    refine ⟨hopen, e, mem_sortBy.1 hall, hid, of_decide_eq_true hcopied, ?_⟩
    intro e' he' hcopied'
    have hmem' : e' ∈ e :: rest := by
      rw [← hlist]
      exact mem_filter.2 ⟨mem_sortBy.2 he', decide_eq_true hcopied'⟩
    -- What the filter keeps is still in finalized order.
    have hsort : (e :: rest).Pairwise (·.arrivalKey ≤ ·.arrivalKey) := by
      rw [← hlist]
      exact sortBy_sorted.filter _
    rcases mem_cons.1 hmem' with rfl | hrest
    · exact le_rfl
    · exact (pairwise_cons.1 hsort).1 e' hrest
  · cases h

theorem original_eq_none (hopen : row.Unresolved) : s.original row = none ↔
    ∀ e ∈ s.reservations.rows, ¬ e.CopiedBy row := by
  simp only [original, hopen, if_true, originals, head?_map, map_eq_none_iff,
    head?_eq_none_iff, filter_eq_nil_iff, all, mem_sortBy, decide_eq_true_eq]

/-! ### The walk -/

/-- Work that is marked and not over is in a status from which copies are demoted. -/
theorem mem_copyable (hm : row.toWork.Marked) (hopen : row.Unresolved) :
    row.status ∈ Status.copyable := by
  have hpub : row.publicationDigest.isSome := hm.1.1 (isSome_iff_ne_none.2 hopen.1)
  have hpast := hm.2.1 hpub
  have hnot := hopen.2
  revert hpast hnot
  cases row.status <;> decide

/-- Between two calls nothing fences a reservation that no lease holds. -/
theorem updateReservation_eq {f : IntakeReservation → Work} (hidle : s.authority = [])
    (hfree : s.leased id = false) : s.updateReservation id f = .ok (s.mapReservation id f) := by
  -- The trigger on the rows refuses no more than the check before it.
  have hrows : ∀ r ∈ s.reservations.rows, r.reservationId K = id →
      s.fenced (r.reservationId K) = false := by
    rintro r - rfl
    simp [fenced, hidle, hfree]
  simp only [updateReservation, updateReservations, check_of hrows]
  rfl

/-- Between two calls only an evaluation lease stands in the way of a change of status. -/
theorem transition_eq {expected : List Status} {status : Status}
    {decision : Option QualificationDecision} {reason : String} (hidle : s.authority = [])
    (hrow : s.reservations.find? id = some row) (hstat : row.status ∈ expected)
    (hlen : reason.length ≤ 2048) :
    s.transition id expected status decision reason =
      if s.leased id then .error leaseFences
      else .ok (s.mapReservation id fun r =>
        { r.toWork with
          status := status, decision := decision, reason := reason
          qualificationEvidenceDigest := none }) := by
  have hget : s.get id = .ok row := get_iff.2 hrow
  by_cases hlease : s.leased id = true
  · rw [if_pos hlease]
    simp only [transition, hlen, requireEvaluationMutationAuthority, hidle, hlease,
      ne_eq, not_true_eq_false, not_mem_nil, imp_false, not_false_eq_true, check, if_true,
      if_false, bind, Except.bind]
  · have hfree : s.leased id = false := by simpa using hlease
    rw [if_neg hlease]
    simp only [transition, hlen, requireEvaluationMutationAuthority, hidle, hfree,
      ne_eq, not_true_eq_false, not_mem_nil, imp_false, not_false_eq_true, check, if_true,
      Bool.false_eq_true, bind, Except.bind, hget, hstat, updateReservation_eq hidle hfree]

/-- The store with one reservation failed as a copy. -/
def demote (s : Store K) (id original : Digest) : Store K :=
  s.mapReservation id fun r => (r.demoted original).toWork

theorem markCopy_eq {e : IntakeReservation} (hidle : s.authority = [])
    (hrow : s.reservations.find? (row.reservationId K) = some row) (hm : row.toWork.Marked)
    (hopen : row.Unresolved) (he : e ∈ s.reservations.rows) (hcopied : e.CopiedBy row) :
    s.markCopy (row.reservationId K) (e.reservationId K) =
      if s.leased (row.reservationId K) then
        .error leaseFences
      else .ok (s.demote (row.reservationId K) (e.reservationId K)) := by
  obtain ⟨delta, hdelta⟩ := ne_none_iff_exists'.1 hopen.1
  have hget : s.get (row.reservationId K) = .ok row := get_iff.2 hrow
  have hgete : s.get (e.reservationId K) = .ok e := get_iff.2 (find?_of_mem he)
  have hmem : e ∈ s.all.filter (·.CopiedBy row) :=
    mem_filter.2 ⟨mem_sortBy.2 he, decide_eq_true hcopied⟩
  have hlen : ("copy_of:" ++ (e.reservationId K).hex).length ≤ 2048 := by
    rw [String.length_append, ← String.length_toList (s := (e.reservationId K).hex),
      (e.reservationId K).hex_spec.1]
    decide
  simp only [markCopy, hgete, hget, bind, Except.bind, check_of hcopied.1,
    copyPredecessors_eq hrow hdelta, check_of hmem]
  exact transition_eq hidle hrow (mem_copyable hm hopen) hlen

theorem demoteCopy_eq (hidle : s.authority = [])
    (hrow : s.reservations.find? (row.reservationId K) = some row) (hm : row.toWork.Marked) :
    s.demoteCopy row = match s.original row with
      | none => .ok (s, none)
      | some original =>
        if s.leased (row.reservationId K) then
          .error leaseFences
        else .ok (s.demote (row.reservationId K) original, some original) := by
  unfold demoteCopy
  by_cases hopen : row.Unresolved
  · obtain ⟨delta, hdelta⟩ := ne_none_iff_exists'.1 hopen.1
    rw [if_neg (by simpa [IntakeReservation.Unresolved] using hopen),
      copyPredecessors_eq hrow hdelta]
    simp only [original, hopen, if_true, originals]
    cases hlist : s.all.filter (·.CopiedBy row) with
    | nil => rfl
    | cons e rest =>
      have hmem : e ∈ s.all.filter (·.CopiedBy row) := hlist ▸ mem_cons_self
      obtain ⟨hall, hcopied⟩ := mem_filter.1 hmem
      have hmark := markCopy_eq hidle hrow hm hopen (mem_sortBy.1 hall) (of_decide_eq_true hcopied)
      simp only [bind, Except.bind, hmark, map_cons, head?_cons]
      split_ifs <;> rfl
  · rw [if_pos (by simpa [IntakeReservation.Unresolved, imp_iff_not_or] using hopen)]
    simp only [original, hopen, if_false]

/-- A store during the walk, and the store the walk began with. -/
structure Walking (s₀ s : Store K) : Prop where
  authority : s.authority = []
  leases : s.leases = s₀.leases
  deltas : s.submittedDeltas = s₀.submittedDeltas

theorem Walking.leased (h : Walking s₀ s) : s.leased id = s₀.leased id := by
  unfold Store.leased
  rw [h.leases]

theorem Walking.demote {original : Digest} (h : Walking s₀ s) :
    Walking s₀ (s.demote id original) := by
  refine ⟨h.authority, h.leases, Eq.trans ?_ h.deltas⟩
  show (s.reservations.rows.map _).map _ = _
  rw [List.map_map]
  refine map_congr_left fun r _ => ?_
  simp only [Function.comp_apply]
  split_ifs <;> rfl

theorem find?_demote {original : Digest} {k : Digest} :
    (s.demote id original).reservations.find? k = (s.reservations.find? k).map fun r =>
        if r.reservationId K = id then r.demoted original else r :=
  find?_mapReservations

/-- What the walk makes of a reservation. -/
def resolved (s₀ : Store K) (r : IntakeReservation) : IntakeReservation :=
  match s₀.original r with
  | none => r
  | some original => r.demoted original

/-- The pairs that the walk over some reservations returns. -/
def dispositionsOf (s₀ : Store K) (rows : List IntakeReservation) : List (Digest × Digest) :=
  rows.filterMap fun r => (s₀.original r).map fun original => (r.reservationId K, original)

/-- The walk stops at a copy that is leased. -/
theorem Walking.stop (hw : Walking s₀ s)
    (hrow : s.reservations.find? (row.reservationId K) = some row)
    (hm : row.toWork.Marked) (hcopy : (s₀.original row).isSome)
    (hlease : s₀.leased (row.reservationId K)) : s.demoteCopy row = .error leaseFences := by
  obtain ⟨original, horig⟩ := isSome_iff_exists.1 hcopy
  rw [demoteCopy_eq hw.authority hrow hm, original_congr hw.deltas, horig, hw.leased]
  exact if_pos hlease

/-- Any other reservation becomes what the walk makes of it. -/
theorem Walking.next (hw : Walking s₀ s)
    (hrow : s.reservations.find? (row.reservationId K) = some row) (hm : row.toWork.Marked)
    (hfree : ¬((s₀.original row).isSome ∧ s₀.leased (row.reservationId K))) :
    ∃ s₁, s.demoteCopy row = .ok (s₁, s₀.original row) ∧ Walking s₀ s₁ ∧
      s₁ = s.withReservations s₁.reservations ∧
      s₁.reservations.find? (row.reservationId K) = some (s₀.resolved row) ∧
      ∀ id ≠ row.reservationId K, s₁.reservations.find? id = s.reservations.find? id := by
  rw [demoteCopy_eq hw.authority hrow hm, original_congr hw.deltas, hw.leased]
  unfold resolved
  cases horig : s₀.original row with
  | none => exact ⟨s, rfl, hw, rfl, hrow, fun _ _ => rfl⟩
  | some original =>
    have hlease : ¬ s₀.leased (row.reservationId K) = true := by
      simpa [horig] using hfree
    refine ⟨_, if_neg hlease, hw.demote, rfl, ?_, fun id hid => ?_⟩
    · rw [find?_demote, hrow, map_some, if_pos rfl]
    · exact find?_demote.trans (map_of_key_ne hid)

/-- **The walk.**  From a store between two calls it either stops at a copy that is leased, or
fails every copy for its earliest original. -/
theorem demoteCopies_spec (rows : List IntakeReservation)
    (hnodup : (rows.map (·.reservationId K)).Nodup) (hw : Walking s₀ s)
    (hrows : ∀ r ∈ rows, s.reservations.find? (r.reservationId K) = some r)
    (hm : ∀ r ∈ rows, r.toWork.Marked) :
    if ∃ r ∈ rows, (s₀.original r).isSome ∧ s₀.leased (r.reservationId K) then
      (demoteCopies rows s).2 = .error leaseFences
    else ∃ s', demoteCopies rows s = (s', .ok (s₀.dispositionsOf rows)) ∧
      s' = s.withReservations s'.reservations ∧
      ∀ id, s'.reservations.find? id =
        if id ∈ rows.map (·.reservationId K) then
          (s.reservations.find? id).map s₀.resolved
        else s.reservations.find? id := by
  induction rows generalizing s with
  | nil => exact ⟨s, rfl, rfl, fun _ => rfl⟩
  | cons row rows ih =>
    obtain ⟨hnew, hnodup⟩ := nodup_cons.1 hnodup
    have hrow := hrows row mem_cons_self
    have hmark := hm row mem_cons_self
    unfold demoteCopies
    by_cases hstop : (s₀.original row).isSome ∧ s₀.leased (row.reservationId K)
    · rw [if_pos ⟨row, mem_cons_self, hstop⟩, hw.stop hrow hmark hstop.1 hstop.2]
    · obtain ⟨s₁, hstep, hw₁, hframe₁, hself, hoth⟩ := hw.next hrow hmark hstop
      -- The rows still to come have other keys, so they are as the walk read them.
      have hkept : ∀ r ∈ rows, s₁.reservations.find? (r.reservationId K) = some r := by
        intro r hr
        rw [hoth, hrows r (.tail _ hr)]
        exact fun heq => hnew (List.mem_map.2 ⟨r, hr, heq⟩)
      have ih := ih hnodup hw₁ hkept fun r hr => hm r (.tail _ hr)
      have hcond : (∃ r ∈ row :: rows, (s₀.original r).isSome ∧ s₀.leased (r.reservationId K)) ↔
          ∃ r ∈ rows, (s₀.original r).isSome ∧ s₀.leased (r.reservationId K) := by
        rw [exists_mem_cons_iff]
        exact or_iff_right hstop
      simp only [hcond, hstep]
      split_ifs at ih ⊢ with hlater
      · simp only [ih, Except.map]
      · obtain ⟨s', hs', hframe, hfind⟩ := ih
        refine ⟨s', ?_, ?_, fun id => (hfind id).trans ?_⟩
        · simp only [hs', Except.map, dispositionsOf, filterMap_cons]
          cases s₀.original row <;> rfl
        · exact hframe.trans (by rw [hframe₁]; rfl)
        · by_cases hid : id = row.reservationId K
          · subst hid
            simp [hnew, hself, hrow]
          · simp [hid, hoth id hid]

/-! ### What the pass leaves -/

/-- The pass went through: every copy of before is failed for its earliest original, the other
reservations are as they were, no copy is left unless a lease holds it, and a second pass finds
nothing. -/
structure CopiesResolved (s s' : Store K) (demoted : List (Digest × Digest)) : Prop where
  exactly : ∀ r ∈ s.reservations.rows, r.reservationId K ∈ demoted.map (·.1) ↔
    r.Unresolved ∧ ∃ e ∈ s.reservations.rows, e.CopiedBy r
  earliest : ∀ d ∈ demoted, ∃ r ∈ s.reservations.rows, ∃ e ∈ s.reservations.rows,
    d = (r.reservationId K, e.reservationId K) ∧ e.CopiedBy r ∧
    (∀ e' ∈ s.reservations.rows, e'.CopiedBy r → e.arrivalKey ≤ e'.arrivalKey) ∧
    s'.reservations.find? (r.reservationId K) = some (r.demoted (e.reservationId K))
  others : ∀ id ∉ demoted.map (·.1), s'.reservations.find? id = s.reservations.find? id
  frame : s' = s.withReservations s'.reservations
  clean : ∀ r ∈ s'.reservations.rows, r.Unresolved → s'.leased (r.reservationId K) = false →
    ∀ e ∈ s'.reservations.rows, ¬ e.CopiedBy r
  repeated : s'.reconcileCopies = (s', .ok [])

/-- No evaluation lease holds a copy that is not resolved. -/
def NoLeasedCopy (s : Store K) : Prop :=
  ∀ r ∈ s.reservations.rows, r.Unresolved → s.leased (r.reservationId K) →
    ∀ e ∈ s.reservations.rows, ¬ e.CopiedBy r

instance (s : Store K) : Decidable s.NoLeasedCopy := by
  unfold NoLeasedCopy
  infer_instance

theorem original_isSome : (s.original row).isSome ↔
    row.Unresolved ∧ ∃ e ∈ s.reservations.rows, e.CopiedBy row := by
  constructor
  · intro h
    obtain ⟨original, horig⟩ := isSome_iff_exists.1 h
    obtain ⟨hopen, e, he, -, hcopied, -⟩ := original_eq_some horig
    exact ⟨hopen, e, he, hcopied⟩
  · rintro ⟨hopen, e, he, hcopied⟩
    rw [isSome_iff_ne_none, ne_eq, original_eq_none hopen]
    exact fun hnone => hnone e he hcopied

theorem noLeasedCopy_iff : s.NoLeasedCopy ↔
    ¬∃ r ∈ s.all, (s.original r).isSome ∧ s.leased (r.reservationId K) := by
  simp only [original_isSome, all, mem_sortBy, NoLeasedCopy]
  constructor
  · rintro h ⟨r, hr, ⟨hopen, e, he, hcopied⟩, hlease⟩
    exact h r hr hopen hlease e he hcopied
  · exact fun h r hr hopen hlease e he hcopied => h ⟨r, hr, ⟨hopen, e, he, hcopied⟩, hlease⟩

/-- Where no reservation is a copy, the walk does nothing. -/
theorem demoteCopies_of_none (rows : List IntakeReservation)
    (hrows : ∀ r ∈ rows, s.reservations.find? (r.reservationId K) = some r)
    (hnone : ∀ r ∈ rows, s.original r = none) : demoteCopies rows s = (s, .ok []) := by
  induction rows with
  | nil => rfl
  | cons row rows ih =>
    have hstep : s.demoteCopy row = .ok (s, none) := by
      unfold demoteCopy
      split
      · rfl
      · next hopen =>
        have hopen : row.Unresolved := by simpa [IntakeReservation.Unresolved] using hopen
        obtain ⟨delta, hdelta⟩ := ne_none_iff_exists'.1 hopen.1
        have hempty : s.all.filter (·.CopiedBy row) = [] := by
          have horig := (original_eq_none hopen).1 (hnone row mem_cons_self)
          refine filter_eq_nil_iff.2 fun e he => ?_
          simpa using horig e (mem_sortBy.1 he)
        rw [copyPredecessors_eq (hrows row mem_cons_self) hdelta, hempty]
        rfl
    unfold demoteCopies
    rw [hstep]
    simp only [ih (fun r hr => hrows r (.tail _ hr)) fun r hr => hnone r (.tail _ hr)]
    rfl

section

variable (hfind : ∀ id, s'.reservations.find? id = (s.reservations.find? id).map s.resolved)
  {r' : IntakeReservation}

include hfind

/-- A reservation after the pass comes from one before it. -/
theorem exists_resolved (hr' : r' ∈ s'.reservations.rows) :
    ∃ r ∈ s.reservations.rows, r' = s.resolved r := by
  have hstored := find?_of_mem hr'
  rw [hfind, map_eq_some_iff] at hstored
  obtain ⟨r, hr, heq⟩ := hstored
  exact ⟨r, (find?_eq_some.1 hr).1, heq.symm⟩

/-- After the pass no unresolved reservation copies an earlier one. -/
theorem clean_of_resolved {e' : IntakeReservation} (hr' : r' ∈ s'.reservations.rows)
    (hopen : r'.Unresolved) (he' : e' ∈ s'.reservations.rows) : ¬ e'.CopiedBy r' := by
  obtain ⟨r, hr, rfl⟩ := exists_resolved hfind hr'
  obtain ⟨e, he, rfl⟩ := exists_resolved hfind he'
  unfold resolved at hopen
  split at hopen
  · next hnone =>
    intro hcopied
    -- Who copies whom depends on the arrivals and the fingerprints, which the pass keeps.
    have hsame : e.CopiedBy r := by
      simp only [resolved, hnone] at hcopied
      split at hcopied <;> exact hcopied
    exact (original_eq_none hopen).1 hnone e he hsame
  · exact absurd mem_cons_self hopen.2

end

theorem mem_dispositions : id ∈ (s.dispositionsOf s.all).map (·.1) ↔
    ∃ r ∈ s.reservations.rows, r.reservationId K = id ∧ (s.original r).isSome := by
  simp only [dispositionsOf, List.mem_map, mem_filterMap, map_eq_some_iff, all,
    mem_sortBy, isSome_iff_exists]
  constructor
  · rintro ⟨_, ⟨r, hr, original, horig, rfl⟩, rfl⟩
    exact ⟨r, hr, rfl, original, horig⟩
  · rintro ⟨r, hr, rfl, original, horig⟩
    exact ⟨_, ⟨r, hr, original, horig, rfl⟩, rfl⟩

theorem copiesResolved_of_resolved (hframe : s' = s.withReservations s'.reservations)
    (hfind : ∀ id, s'.reservations.find? id = (s.reservations.find? id).map s.resolved) :
    CopiesResolved s s' (s.dispositionsOf s.all) where
  exactly r hr := by
    rw [mem_dispositions, ← original_isSome]
    constructor
    · rintro ⟨r₁, hr₁, hid, hcopy⟩
      rwa [← eq_of_key hr₁ hr hid]
    · exact fun hcopy => ⟨r, hr, rfl, hcopy⟩
  earliest d hd := by
    simp only [dispositionsOf, mem_filterMap, map_eq_some_iff] at hd
    obtain ⟨r, hall, original, horig, rfl⟩ := hd
    obtain ⟨-, e, he, rfl, hcopied, hleast⟩ := original_eq_some horig
    have hr := mem_sortBy.1 hall
    refine ⟨r, hr, e, he, rfl, hcopied, hleast, ?_⟩
    rw [hfind, find?_of_mem hr, map_some]
    simp only [resolved, horig]
  others id hid := by
    rw [hfind]
    cases hrow : s.reservations.find? id with
    | none => rfl
    | some r =>
      obtain ⟨hr, hkey⟩ := find?_eq_some.1 hrow
      have hnone : s.original r = none := by
        by_contra hsome
        exact hid (mem_dispositions.2 ⟨r, hr, hkey, isSome_iff_ne_none.2 hsome⟩)
      simp only [map_some, resolved, hnone]
  frame := hframe
  clean r' hr' hopen _ e' he' := clean_of_resolved hfind hr' hopen he'
  repeated := by
    refine demoteCopies_of_none _ (fun r hr => find?_of_mem (mem_sortBy.1 hr)) ?_
    intro r hr
    by_cases hopen : r.Unresolved
    · exact (original_eq_none hopen).2 fun e he =>
        clean_of_resolved hfind (mem_sortBy.1 hr) hopen he
    · simp only [original, hopen, if_false]

/-- Between two calls the walk stops at a leased copy, or resolves every copy. -/
theorem reconcileCopies_cases (hidle : s.authority = []) (hm : s.Marked) :
    if s.NoLeasedCopy then
      ∃ s', s.reconcileCopies = (s', .ok (s.dispositionsOf s.all)) ∧
        s' = s.withReservations s'.reservations ∧
        ∀ id, s'.reservations.find? id = (s.reservations.find? id).map s.resolved
    else s.reconcileCopies.2 = .error leaseFences := by
  have hnodup : (s.all.map (·.reservationId K)).Nodup :=
    ((sortBy_perm.map _).nodup_iff).2 s.reservations.distinct
  have hrows : ∀ r ∈ s.all, s.reservations.find? (r.reservationId K) = some r :=
    fun r hr => find?_of_mem (mem_sortBy.1 hr)
  have hspec := demoteCopies_spec s.all hnodup ⟨hidle, rfl, rfl⟩ hrows
    fun r hr => hm _ r (hrows r hr)
  by_cases hlease : s.NoLeasedCopy
  · rw [if_pos hlease]
    rw [if_neg (noLeasedCopy_iff.1 hlease)] at hspec
    obtain ⟨s', hres, hframe, hfind⟩ := hspec
    refine ⟨s', hres, hframe, fun id => (hfind id).trans ?_⟩
    split_ifs with hid
    · rfl
    · -- A key that is not among the rows has no reservation.
      have hnone : s.reservations.find? id = none := by
        refine Table.find?_eq_none.2 fun r hr hkey => hid ?_
        exact List.mem_map.2 ⟨r, Keyed.mem_sortBy.2 hr, hkey⟩
      rw [hnone]
      rfl
  · rw [if_neg hlease]
    rwa [if_pos (not_not.1 (mt noLeasedCopy_iff.2 hlease))] at hspec

/-- **The pass over the copies.**  In every store that some operations lead to, it goes through
and leaves nothing to demote if and only if no unresolved copy is under an evaluation lease. -/
theorem copiesResolved_iff (policy : IntakePolicy) (recoverable : Bool) (ops : List (Op K)) :
    let s := (init K policy recoverable).run ops
    (∃ s' demoted, s.reconcileCopies = (s', .ok demoted) ∧ CopiesResolved s s' demoted) ↔
      s.NoLeasedCopy := by
  intro s
  have hspec := reconcileCopies_cases (idle_run policy recoverable ops)
    (marked_run policy recoverable ops)
  by_cases hlease : s.NoLeasedCopy
  · rw [if_pos hlease] at hspec
    obtain ⟨s', hres, hframe, hfind⟩ := hspec
    exact iff_of_true ⟨s', _, hres, copiesResolved_of_resolved hframe hfind⟩ hlease
  · rw [if_neg hlease] at hspec
    refine iff_of_false ?_ hlease
    rintro ⟨s', demoted, hres, -⟩
    rw [hres] at hspec
    cases hspec

/-- Two submissions of the same artifact.  The later one is published and under evaluation when
the earlier one comes through its transport. -/
def sampleLeasedCopy : List (Op intakeHashes) :=
  [Sample.reserve 2 [sampleArrival 1 alice, sampleArrival 2 bob]] ++ Sample.publish 2 1 "" ++
    [.queue (.claimEvaluationLease "worker" 2 10 1 1)] ++ Sample.publish 1 1 ""

/-- The copy is leased, and the pass raises. -/
theorem reconcileCopies_fenced :
    let s := (init intakeHashes {} false).run sampleLeasedCopy
    s.leased (sampleId 2) = true ∧ s.reconcileCopies.2 = .error leaseFences := by
  decide

end Store

end Cacheon
