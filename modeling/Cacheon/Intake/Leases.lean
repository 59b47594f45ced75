import Cacheon.Intake.Copies

/-!
# Evaluation leases

What an active evaluation lease means for its reservations, in every store that some operations
lead to.

* `Store.LeasesHold` : no two active leases share a reservation, and the members of an active
  lease still have the status they were claimed with.
* `Store.leasesHold_run` : every run keeps it.  A trigger fences the rows; only the acceptance of
  a result writes them, and it ends the lease.
-/

namespace Cacheon

open Fallible IntakeFault List Table

namespace Store

variable {K : IntakeHashes} {p : Permit} {s s' : Store K} {id : Digest}

/-- No reservation is in two active leases, and the members of an active lease have the status
they were claimed with, except while a result is accepted. -/
structure LeasesHold (s : Store K) : Prop where
  exclusive : ∀ l ∈ s.leases.rows, ∀ l' ∈ s.leases.rows, l.state = .active →
    l'.state = .active → ∀ id ∈ l.reservationIds, id ∈ l'.reservationIds →
    l.leaseId = l'.leaseId
  unchanged : ∀ l ∈ s.leases.rows, l.state = .active → ∀ m ∈ l.members,
    m.1 ∉ s.authority → (s.reservations.find? m.1).map (·.status) = some m.2

theorem leased_iff : s.leased id = true ↔
    ∃ l ∈ s.leases.rows, l.state = .active ∧ id ∈ l.reservationIds := by
  simp [leased]

/-- A reservation under a lease that is not being accepted waits where it was claimed. -/
theorem LeasesHold.status (hs : s.LeasesHold) (hleased : s.leased id = true)
    (hfree : id ∉ s.authority) : ∃ r, s.reservations.find? id = some r ∧
      r.status ∈ [.published, .reproductionPending] := by
  obtain ⟨l, hl, hact, hid⟩ := leased_iff.1 hleased
  obtain ⟨m, hm, rfl⟩ := mem_map.1 hid
  obtain ⟨r, hr, hstat⟩ := Option.map_eq_some_iff.1 (hs.unchanged l hl hact m hm hfree)
  exact ⟨r, hr, hstat ▸ l.member_status m hm⟩

/-! ### What keeps the leases -/

/-- Every active lease was active before, with the same members. -/
def KeepsLeases (s s' : Store K) : Prop :=
  ∀ l' ∈ s'.leases.rows, l'.state = .active → ∃ l ∈ s.leases.rows,
    l.state = .active ∧ l.leaseId = l'.leaseId ∧ l.members = l'.members

/-- The reservations that a lease fences are as they were. -/
def KeepsFenced (s s' : Store K) : Prop :=
  ∀ id, s.leased id = true → id ∉ s.authority → s'.reservations.find? id = s.reservations.find? id

theorem KeepsLeases.of_eq (h : s'.leases = s.leases) : KeepsLeases s s' := by
  intro l hl hact
  exact ⟨l, h ▸ hl, hact, rfl, rfl⟩

theorem KeepsFenced.of_eq (h : s'.reservations = s.reservations) :
    KeepsFenced s s' := by
  intro id _ _
  rw [h]

theorem LeasesHold.frame (hs : s.LeasesHold) (hleases : KeepsLeases s s') (hrows : KeepsFenced s s')
    (hauth : ∀ id ∈ s.authority, s'.leased id = true → id ∈ s'.authority) : s'.LeasesHold where
  exclusive l₁ hl₁ l₂ hl₂ h₁ h₂ id hid₁ hid₂ := by
    obtain ⟨k₁, hk₁, hact₁, heq₁, hmems₁⟩ := hleases l₁ hl₁ h₁
    obtain ⟨k₂, hk₂, hact₂, heq₂, hmems₂⟩ := hleases l₂ hl₂ h₂
    rw [← heq₁, ← heq₂]
    refine hs.exclusive k₁ hk₁ k₂ hk₂ hact₁ hact₂ id ?_ ?_
    · rw [EvaluationLease.reservationIds, hmems₁]
      exact hid₁
    · rw [EvaluationLease.reservationIds, hmems₂]
      exact hid₂
  unchanged l' hl' hact' m hm hfree := by
    obtain ⟨l, hl, hact, -, hmems⟩ := hleases l' hl' hact'
    have hid : m.1 ∈ l'.reservationIds := mem_map_of_mem hm
    have hm' : m ∈ l.members := hmems ▸ hm
    -- What was being accepted and is still leased is still being accepted.
    have hfree' : m.1 ∉ s.authority := fun hmem =>
      hfree (hauth _ hmem (leased_iff.2 ⟨l', hl', hact', hid⟩))
    have hleased : s.leased m.1 = true := leased_iff.2 ⟨l, hl, hact, mem_map_of_mem hm'⟩
    rw [hrows m.1 hleased hfree']
    exact hs.unchanged l hl hact m hm' hfree'

/-- The trigger keeps the rows under a lease. -/
theorem KeepsFenced.of_update {q : IntakeReservation → Prop} [DecidablePred q]
    {f : IntakeReservation → Work} (h : s.updateReservations q f = .ok s') : KeepsFenced s s' := by
  intro id hleased hfree
  obtain rfl := updateReservations_eq h
  simp only [updateReservations, bind_ok, exists_check] at h
  rw [find?_mapReservations]
  cases hrow : s.reservations.find? id with
  | none => rfl
  | some r =>
    obtain ⟨hr, hid⟩ := find?_eq_some.1 hrow
    have hq : ¬ q r := fun hq => by
      have hopen := h.1 r hr hq
      rw [hid] at hopen
      simp [fenced, hleased, hfree] at hopen
    rw [Option.map_some, if_neg hq]

/-! ### Changes of the leases -/

section

variable {lease ret lease' : EvaluationLease} {block : ℕ} {reason changed : String}

variable {res : Option Digest} {state : LeaseState} {phase : RecoveryPhase}

/-- The end of a lease: it is active no more, and the others are as they were. -/
theorem endLease_ends (hstate : state ≠ .active)
    (h : s.endLease lease state block res reason changed = .ok s') :
    ∀ l' ∈ s'.leases.rows, l'.state = .active →
      l' ∈ s.leases.rows ∧ l'.leaseId ≠ lease.leaseId := by
  obtain ⟨-, rfl⟩ := endLease_spec h
  intro l' hl' hact
  obtain ⟨l, hl, rfl⟩ := mem_map.1 hl'
  split_ifs at hact ⊢ with hid
  · exact absurd hact hstate
  · exact ⟨hl, hid⟩

theorem endLease_keeps (hstate : state ≠ .active)
    (h : s.endLease lease state block res reason changed = .ok s') : KeepsLeases s s' :=
  fun l' hl' hact => ⟨l', (endLease_ends hstate h l' hl' hact).1, hact, rfl, rfl⟩

theorem KeepsLeases.trans {s'' : Store K} (h : KeepsLeases s s') (h' : KeepsLeases s' s'') :
    KeepsLeases s s'' := by
  intro l'' hl'' hact''
  obtain ⟨l', hl', hact', hid', hmems'⟩ := h' l'' hl'' hact''
  obtain ⟨l, hl, hact, hid, hmems⟩ := h l' hl' hact'
  exact ⟨l, hl, hact, hid.trans hid', hmems.trans hmems'⟩

/-- A transition stores another copy of the lease, with the same members. -/
theorem transition_keeps {resolution : RecoveryResolution} {eventType : RecoveryEventType}
    {plan : Option RequestPlan}
    (h : s.transitionEvaluationRecovery lease ret phase resolution eventType block reason
      plan = .ok (s', lease')) (hret : Extends lease ret) : KeepsLeases s s' := by
  have hcopy := transition_copied h hret
  obtain ⟨_, _, -, hfind, -, -, -, rfl⟩ := evaluationRecovery_spec h
  intro l' hl' hact
  rcases mem_put.1 hl' with rfl | ⟨hold, -⟩
  · have hmem := (find?_eq_some.1 hfind).1
    exact ⟨lease, hmem, hcopy.state ▸ hact, hcopy.leaseId.symm, hcopy.members.symm⟩
  · exact ⟨l', hold, hact, rfl, rfl⟩

/-- The completion of a lease: no active lease has its id any more. -/
theorem completeLease_ends {res : Digest}
    (h : s.completeLease lease phase block res changed = .ok s') :
    KeepsLeases s s' ∧ ∀ l' ∈ s'.leases.rows, l'.state = .active → l'.leaseId ≠ lease.leaseId := by
  simp only [completeLease, bind_ok] at h
  obtain ⟨⟨s₁, lease₁⟩, h₁, h⟩ := h
  have hended := endLease_ends (by decide) h
  unfold commitRecovery at h₁
  split at h₁
  · have hcopy := transition_copied h₁ (.inl rfl)
    refine ⟨(transition_keeps h₁ (.inl rfl)).trans (endLease_keeps (by decide) h), ?_⟩
    intro l' hl' hact
    exact hcopy.leaseId ▸ (hended l' hl' hact).2
  · cases h₁
    exact ⟨endLease_keeps (by decide) h, fun l' hl' hact => (hended l' hl' hact).2⟩

end

variable {owner : String} {sel : List IntakeReservation} {block leaseBlocks : ℕ}
  {lease : EvaluationLease} {res : Digest}

/-- A claim selects reservations that no lease holds. -/
theorem mem_selected {bound maxActive : ℕ}
    (h : s.selectEvaluationRows bound owner maxActive = .ok sel) :
    ∀ r ∈ sel, r ∈ s.reservations.rows ∧ s.leased (r.reservationId K) = false := by
  have hclaimable {baseline : Option EvaluationStackState} {r : IntakeReservation}
      (hr : r ∈ s.all.filter (s.claimableOver baseline)) :
      r ∈ s.reservations.rows ∧ s.leased (r.reservationId K) = false := by
    obtain ⟨hmem, hover⟩ := mem_filter.1 hr
    simp only [claimableOver, Bool.and_eq_true, Bool.not_eq_true'] at hover
    exact ⟨Keyed.mem_sortBy.1 hmem, hover.1.1.2⟩
  simp only [selectEvaluationRows] at h
  split at h
  · cases h
    simp
  · simp only [bind_ok] at h
    obtain ⟨baseline, -, h⟩ := h
    split at h
    · cases h
      simp
    · split at h
      · next first hfirst =>
        cases h
        intro r hr
        rw [mem_singleton.1 hr]
        exact hclaimable (mem_of_find?_eq_some hfirst)
      · split at h
        · cases h
          simp
        · split at h
          · cases h
            intro r hr
            exact hclaimable (mem_filter.1 (mem_of_mem_take hr)).1
          · simp only [bind_ok, exists_check] at h
            obtain ⟨-, -, h⟩ := h
            cases h
            intro r hr
            exact hclaimable (mem_filter.1 (Keyed.mem_sortBy.1 hr)).1

/-- A claim adds one lease to those that were there. -/
theorem openLease_adds {members : List (Digest × Status)}
    (h : s.openLease owner block leaseBlocks members = .ok s') :
    ∃ leaseId, ∀ l' ∈ s'.leases.rows, l'.leaseId = leaseId ∧ l'.members = members ∨
      l' ∈ s.leases.rows := by
  obtain ⟨lease, hmems, -, -, -, -, -, -, leases, hleases, rfl⟩ := openLease_spec h
  have hrows := (rows_of_insert hleases).1
  have hadded : ∀ l' ∈ leases.rows, l'.leaseId = lease.leaseId ∧ l'.members = members ∨
      l' ∈ s.leases.rows := by
    intro l' hl'
    rw [hrows, mem_append, mem_singleton] at hl'
    rcases hl' with hold | rfl
    · exact .inr hold
    · exact .inl ⟨rfl, hmems⟩
  refine ⟨lease.leaseId, fun l' hl' => ?_⟩
  unfold createEvaluationRecovery at hl'
  split at hl'
  · rcases mem_put.1 hl' with rfl | ⟨hold, -⟩
    · exact .inl ⟨rfl, hmems⟩
    · exact hadded l' hold
  · exact hadded l' hl'

theorem LeasesHold.claim (hs : s.LeasesHold) {bound maxActive : ℕ}
    (hsel : s.selectEvaluationRows bound owner maxActive = .ok sel)
    (h : s.openLease owner block leaseBlocks
      (sel.map fun r => (r.reservationId K, r.status)) = .ok s') : s'.LeasesHold := by
  have hon := openLease_onLeases h
  obtain ⟨leaseId, hadds⟩ := openLease_adds h
  -- What is claimed was in no active lease.
  have hfree {l l' : EvaluationLease} {id : Digest} (hl : l ∈ s.leases.rows)
      (hact : l.state = .active)
      (hnew : l'.members = sel.map fun r => (r.reservationId K, r.status))
      (hid' : id ∈ l'.reservationIds) : id ∉ l.reservationIds := by
    intro hid
    rw [EvaluationLease.reservationIds, hnew] at hid'
    simp only [map_map, mem_map, Function.comp_apply] at hid'
    obtain ⟨r, hr, rfl⟩ := hid'
    have hopen := (mem_selected hsel r hr).2
    rw [leased_iff.2 ⟨l, hl, hact, hid⟩] at hopen
    cases hopen
  refine ⟨?_, ?_⟩
  · intro l₁ hl₁ l₂ hl₂ hact₁ hact₂ id hid₁ hid₂
    rcases hadds l₁ hl₁ with ⟨hnew₁, hmems₁⟩ | hold₁ <;>
      rcases hadds l₂ hl₂ with ⟨hnew₂, hmems₂⟩ | hold₂
    · exact hnew₁.trans hnew₂.symm
    · exact absurd hid₂ (hfree hold₂ hact₂ hmems₁ hid₁)
    · exact absurd hid₁ (hfree hold₁ hact₁ hmems₂ hid₂)
    · exact hs.exclusive l₁ hold₁ l₂ hold₂ hact₁ hact₂ id hid₁ hid₂
  · intro l hl hact m hm hauth
    rw [hon.reservations]
    rcases hadds l hl with ⟨-, hmems⟩ | hold
    · rw [hmems] at hm
      obtain ⟨r, hr, rfl⟩ := mem_map.1 hm
      rw [find?_of_mem (mem_selected hsel r hr).1, Option.map_some]
    · exact hs.unchanged l hold hact m hm (hon.authority ▸ hauth)

/-! ### Moves -/

theorem Move.leasesHold (hp : p.accepts = false) (h : Move p s s') (hidle : s.authority = [])
    (hs : s.LeasesHold) : s'.LeasesHold := by
  have hsame (hleases : KeepsLeases s s') (hrows : KeepsFenced s s') : s'.LeasesHold :=
    hs.frame hleases hrows fun id hid => by rw [hidle] at hid; cases hid
  cases h with
  | aside h | commission h | charge _ h =>
    exact hsame (.of_eq (congrArg Core.leases h)) (.of_eq (congrArg Core.reservations h))
  | rows h =>
    refine hsame (.of_eq ?_) (.of_update h)
    rw [updateReservations_eq h]
    rfl
  | reserve h =>
    obtain ⟨rows, hrows, rfl⟩ := insertReservation_spec h
    refine hsame (.of_eq rfl) fun id hleased hfree => ?_
    -- A leased reservation is there, so the new one has another id.
    obtain ⟨r, hr, -⟩ := hs.status hleased hfree
    refine (find?_of_insert hrows).trans (if_neg ?_)
    rintro rfl
    rw [(rows_of_insert hrows).2] at hr
    cases hr
  | finalize | unbind | reopen => exact hsame (.of_eq rfl) (.of_eq rfl)
  | bind _ _ h =>
    obtain ⟨t, rfl⟩ := bindBaseline_eq h
    exact hsame (.of_eq rfl) (.of_eq rfl)
  | bindQueue _ h =>
    obtain ⟨t, rfl⟩ := bindUnboundQueue_eq h
    exact hsame (.of_eq rfl) (.of_eq rfl)
  | claim _ _ hsel h => exact hs.claim hsel h
  | expire _ _ _ _ h =>
    exact hsame (endLease_keeps (by decide) h) (.of_eq (endLease_onLeases h).reservations)
  | recover _ _ hret h _ =>
    exact hsame (transition_keeps h hret) (.of_eq (transition_onLeases h).reservations)
  | release _ h =>
    refine hsame ?_ (.of_eq (releaseRecovery_onLeases h).reservations)
    simp only [releaseRecovery, bind_ok, exists_check] at h
    obtain ⟨_, -, _, -, -, _, -, -, ⟨s₁, lease'⟩, h₁, h⟩ := h
    exact (transition_keeps h₁ (.inl rfl)).trans (endLease_keeps (by decide) h)
  | authorize ha => rw [hp] at ha; cases ha
  | complete _ ha _ _ _ =>
    -- A lease has members, so nothing is completed between two calls.
    rw [hidle] at ha
    exact absurd (map_eq_nil_iff.1 ha.symm) (EvaluationLease.members_ok _).1

theorem Moves.leasesHold (hp : p.accepts = false) (h : Moves p s s') (hidle : s.authority = [])
    (hs : s.LeasesHold) : s'.LeasesHold :=
  (h.invariant (I := fun s => s.authority = [] ∧ s.LeasesHold) ⟨hidle, hs⟩ fun _ _ hs h =>
    ⟨h.footprint.authority hp hs.1, h.leasesHold hp hs.1 hs.2⟩).2

/-! ### Acceptance -/

/-- A result is accepted under the authority of its lease, which then ends. -/
theorem LeasesHold.complete (hs : s.LeasesHold) {phase : RecoveryPhase} {changed : String}
    (hact : lease.state = .active) (hlease : s.leases.find? lease.leaseId = some lease)
    (hauth : s.authority = lease.reservationIds)
    (h : { s with authority := [] }.completeLease lease phase block res changed = .ok s') :
    s'.LeasesHold := by
  obtain ⟨hkeeps, hended⟩ := completeLease_ends h
  have hon := completeLease_onLeases h
  refine hs.frame hkeeps (.of_eq hon.reservations) fun id hid hleased => ?_
  -- The only active lease that held the reservation is the one that ended.
  exfalso
  obtain ⟨l', hl', hact', hid'⟩ := leased_iff.1 hleased
  obtain ⟨l, hl, hlactive, hlid, hmems⟩ := hkeeps l' hl' hact'
  refine hended l' hl' hact' (hlid.symm.trans ?_)
  refine hs.exclusive l hl lease (find?_eq_some.1 hlease).1 hlactive hact id ?_ ?_
  · rw [EvaluationLease.reservationIds, hmems]
    exact hid'
  · exact hauth ▸ hid

/-- The store while the result of a lease is accepted. -/
theorem LeasesHold.authorize (hs : s.LeasesHold) (hidle : s.authority = []) (ids : List Digest) :
    { s with authority := ids }.LeasesHold where
  exclusive := hs.exclusive
  unchanged l hl hact m hm _ := hs.unchanged l hl hact m hm (by rw [hidle]; simp)

/-- The rows of the other leases, and everything grading leaves alone, are as they were. -/
def Fences (s s' : Store K) : Prop := Untouched s s' ∧ KeepsFenced s s'

theorem Fences.trans {s'' : Store K} (h : Fences s s') (h' : Fences s' s'') : Fences s s'' := by
  refine ⟨h.1.trans h'.1, fun id hleased hfree => ?_⟩
  have hleased' : s'.leased id = true := by
    rw [leased, h.1.leases]
    exact hleased
  have hfree' : id ∉ s'.authority := h.1.authority ▸ hfree
  exact (h'.2 id hleased' hfree').trans (h.2 id hleased hfree)

variable {authority svc : Digest}

theorem markQualifying_fences (h : s.markQualifying id authority svc = .ok s') : Fences s s' := by
  refine ⟨markQualifying_untouched h, ?_⟩
  simp only [markQualifying, bind_ok, exists_check] at h
  obtain ⟨_, -, row, -, -, -, stack, -, s₁, h₁, h⟩ := h
  obtain ⟨t, rfl⟩ := eq_of_bindClaim h₁
  have hfenced : KeepsFenced (s.withSegments t) s' := .of_update h
  exact hfenced

variable {batch : QualificationIntakeBatch K} {root : Option String} {lease' : EvaluationLease}

theorem applyOutcome_fences {o : QualificationIntakeOutcome K}
    (h : applyOutcome batch block root s o = .ok s') : Fences s s' := by
  refine ⟨applyOutcome_untouched h, ?_⟩
  simp only [applyOutcome, bind_ok, exists_check] at h
  obtain ⟨row, -, -, s₂, h₂, h⟩ := h
  obtain ⟨hqueue, -, hauth⟩ := retainOutcome_frame h₂
  have hqueue : s₂.queue = s.queue := hqueue.trans rfl
  intro id hleased hfree
  have hleased₂ : s₂.leased id = true := by
    rw [leased, hqueue]
    exact hleased
  have hfree₂ : id ∉ s₂.authority := by
    rw [hauth]
    exact hfree
  exact (KeepsFenced.of_update h id hleased₂ hfree₂).trans (by rw [hqueue])

/-- Grading writes the members of its lease alone. -/
theorem gradeCohort_fences (h : s.gradeCohort lease block authority svc batch root = .ok s') :
    Fences s s' := by
  obtain ⟨s₁, h₁, h₂⟩ := gradeCohort_spec h
  simp only [applyQualificationBatch, bind_ok, exists_check] at h₂
  have hrefl : ∀ s : Store K, Fences s s := fun _ => ⟨⟨rfl, rfl, rfl, rfl⟩, fun _ _ _ => rfl⟩
  have hclaimed : Fences s s₁ := foldlM_rel hrefl (fun _ _ _ h h' => h.trans h')
    (fun _ _ _ _ => markQualifying_fences) h₁
  have hgraded : Fences s₁ s' := foldlM_rel hrefl (fun _ _ _ h h' => h.trans h')
    (fun _ _ _ _ => applyOutcome_fences) h₂.2.2.2
  exact hclaimed.trans hgraded

theorem acceptResult_leasesHold (hidle : s.authority = []) (hs : s.LeasesHold) :
    (s.acceptEvaluationResult lease block res fun s =>
      s.committed (s.gradeCohort lease block authority svc batch root)).1.LeasesHold := by
  rcases acceptResult_cases rfl with hstep | ⟨s₂, -, hready, hgraded, hcompl⟩
  · exact hstep.moves.leasesHold rfl hidle hs
  · obtain ⟨-, hact, hlease, -⟩ := acceptance_spec hready
    obtain ⟨huntouched, hfenced⟩ := gradeCohort_fences hgraded
    have hs₂ : s₂.LeasesHold := by
      refine (hs.authorize hidle lease.reservationIds).frame (.of_eq huntouched.leases)
        hfenced fun id hid _ => ?_
      rw [huntouched.authority]
      exact hid
    refine hs₂.complete hact ?_ huntouched.authority hcompl
    rw [huntouched.leases]
    exact hlease

theorem commitRemoteHold_leasesHold {reason : String} (hidle : s.authority = []) (hs : s.LeasesHold)
    (h : s.commitRemoteQualificationHold lease block res reason leaseBlocks = .ok s') :
    s'.LeasesHold := by
  obtain ⟨s₁, lease₁, _, s₂, _, hstep, -, hidle₁, hstored, hact, -, -, h₂, -, h⟩ :=
    remoteHold_spec h
  have hs₁ := hstep.moves.leasesHold rfl hidle hs
  have hs₂ := updateReservations_eq h₂
  have hheld : s₂.LeasesHold := by
    refine (hs₁.authorize hidle₁ lease₁.reservationIds).frame (.of_eq ?_) (.of_update h₂) ?_ <;>
      rw [hs₂]
    · rfl
    · exact fun _ hid _ => hid
  refine hheld.complete hact ?_ ?_ h <;> rw [hs₂]
  · exact hstored
  · rfl

theorem leasesHold_step (hidle : s.authority = []) (hs : s.LeasesHold) (op : Op K) :
    (s.step op).LeasesHold := by
  by_cases hp : op.permit.accepts = false
  · exact (s.step_spec op).moves.leasesHold hp hidle hs
  · cases op with
    | queue op =>
      cases op with
      | commitRemoteHold lease block res reason leaseBlocks =>
        exact committed_cases hs fun s' h => commitRemoteHold_leasesHold hidle hs h
      | _ => exact absurd rfl hp
    | acceptResult => exact acceptResult_leasesHold hidle hs
    | _ => exact absurd rfl hp

theorem leasesHold_run (policy : IntakePolicy) (recov : Bool) (ops : List (Op K)) :
    ((init K policy recov).run ops).LeasesHold := by
  refine (run_invariant (I := fun s : Store K => s.authority = [] ∧ s.LeasesHold) ⟨rfl, ?_⟩
    fun s op hs => ⟨idle_step hs.1 op, leasesHold_step hs.1 hs.2 op⟩).2
  constructor
  · rintro l hl
    cases hl
  · rintro l hl
    cases hl

end Store

end Cacheon
