import Cacheon.Intake.Commit

/-!
# Admission

What a call of `Store.reserveFinalized` does to the queue, and what it leaves in place.

* `OnLeases` : a change that concerns the evaluation leases alone.
* `Store.arrivals` : what the chain said of the reservations; `Move.footprint` says that it is
  only ever added to.
* `Admits` : a whole call, arrival by arrival.
* `reserveFinalized_law` : replays, the finalized cursor, the order of deferred arrivals and the
  limit on the arrivals of one account.
-/

namespace Cacheon

open Fallible IntakeFault List Table

namespace Store

variable {K : IntakeHashes} {p : Permit} {s s' s'' : Store K} {id : Digest}
  {f : IntakeReservation → Work}

/-! ### Changes of the leases alone -/

/-- The rows, their segments, the cursor and the payments are as they were. -/
structure OnLeases (s s' : Store K) : Prop where
  authority : s'.authority = s.authority
  ledger : s'.ledger = s.ledger
  reservations : s'.reservations = s.reservations
  segments : s'.segments = s.segments
  cursor : s'.cursor = s.cursor
  payments : s'.payments = s.payments
  credits : s'.credits = s.credits

theorem OnLeases.trans (h : OnLeases s s') (h' : OnLeases s' s'') : OnLeases s s'' where
  authority := h'.authority.trans h.authority
  ledger := h'.ledger.trans h.ledger
  reservations := h'.reservations.trans h.reservations
  segments := h'.segments.trans h.segments
  cursor := h'.cursor.trans h.cursor
  payments := h'.payments.trans h.payments
  credits := h'.credits.trans h.credits

section

variable {lease ret lease' : EvaluationLease} {block : ℕ} {reason changed : String}
  {phase : RecoveryPhase}

theorem openLease_onLeases {owner : String} {leaseBlocks : ℕ} {members : List (Digest × Status)}
    (h : s.openLease owner block leaseBlocks members = .ok s') : OnLeases s s' := by
  obtain ⟨lease, -, -, -, -, -, -, -, leases, -, rfl⟩ := openLease_spec h
  unfold createEvaluationRecovery
  split <;> exact ⟨rfl, rfl, rfl, rfl, rfl, rfl, rfl⟩

theorem endLease_onLeases {state : LeaseState} {result : Option Digest}
    (h : s.endLease lease state block result reason changed = .ok s') : OnLeases s s' := by
  obtain ⟨-, rfl⟩ := endLease_spec h
  exact ⟨rfl, rfl, rfl, rfl, rfl, rfl, rfl⟩

theorem transition_onLeases {resolution : RecoveryResolution} {eventType : RecoveryEventType}
    {plan : Option RequestPlan}
    (h : s.transitionEvaluationRecovery lease ret phase resolution eventType block reason
      plan = .ok (s', lease')) : OnLeases s s' := by
  obtain ⟨_, _, -, -, -, -, -, rfl⟩ := evaluationRecovery_spec h
  exact ⟨rfl, rfl, rfl, rfl, rfl, rfl, rfl⟩

theorem releaseRecovery_onLeases {releasePhase : Option RecoveryPhase} {allowExpired : Bool}
    (h : s.releaseRecovery lease block reason releasePhase allowExpired = .ok s') :
    OnLeases s s' := by
  obtain ⟨_, _, -, -, -, -, -, -, -, rfl⟩ := releaseRecovery_spec h
  exact ⟨rfl, rfl, rfl, rfl, rfl, rfl, rfl⟩

theorem completeLease_onLeases {result : Digest}
    (h : s.completeLease lease phase block result changed = .ok s') : OnLeases s s' := by
  simp only [completeLease, bind_ok] at h
  obtain ⟨⟨s₁, lease'⟩, h₁, h⟩ := h
  have hended := endLease_onLeases h
  unfold commitRecovery at h₁
  split at h₁
  · exact (transition_onLeases h₁).trans hended
  · cases h₁
    exact hended

end

/-! ### Arrivals -/

/-- What the chain said of the reservations, with the epochs they were admitted in. -/
def arrivals (s : Store K) : List (FinalizedArrival × ℕ) :=
  s.reservations.rows.map fun r => (r.arrival, r.admissionEpoch)

theorem arrivals_mapReservations {q : IntakeReservation → Prop} [DecidablePred q] :
    (s.mapReservations q f).arrivals = s.arrivals := by
  show (s.reservations.rows.map _).map _ = _
  rw [map_map]
  refine map_congr_left fun r _ => ?_
  simp only [Function.comp_apply]
  split_ifs <;> rfl

variable {arrival : FinalizedArrival} {block amount n : ℕ} {status : Status}

theorem insertReservation_spec {reason : String}
    (h : s.insertReservation status reason arrival = .ok s') :
    ∃ rows, s.reservations.insert
        { status := status, reason := reason, arrival := arrival
          admissionEpoch := admissionEpoch s.policy arrival.block } = some rows ∧
      s' = s.withReservations rows := by
  simp only [insertReservation, bind_ok, exists_check, get_ok] at h
  obtain ⟨-, rows, hrows, h⟩ := h
  cases h
  exact ⟨rows, hrows, rfl⟩

/-! ### The finalized cursor -/

/-- The cursor does not go back, and it does not change its hash at one block. -/
def CursorStep (s s' : Store K) : Prop :=
  ∀ cursor ∈ s.cursor, ∃ cursor' ∈ s'.cursor, cursor.1 ≤ cursor'.1 ∧
    (cursor'.1 = cursor.1 → cursor'.2 = cursor.2)

theorem CursorStep.of_eq (h : s'.cursor = s.cursor) : CursorStep s s' :=
  fun cursor hc => ⟨cursor, h ▸ hc, le_rfl, fun _ => rfl⟩

theorem CursorStep.trans (h : CursorStep s s') (h' : CursorStep s' s'') : CursorStep s s'' := by
  intro cursor hc
  obtain ⟨cursor', hc', hle, hhash⟩ := h cursor hc
  obtain ⟨cursor'', hc'', hle', hhash'⟩ := h' cursor' hc'
  refine ⟨cursor'', hc'', hle.trans hle', fun heq => ?_⟩
  have hsame : cursor'.1 = cursor.1 := by omega
  exact (hhash' (heq.trans hsame.symm)).trans (hhash hsame)

/-! ### What one move writes -/

/-- What is left in place by one move. -/
structure Footprint (p : Permit) (s s' : Store K) : Prop where
  arrivals : s.arrivals <+: s'.arrivals
  cursor : CursorStep s s'
  payments : p.charges = false → s'.payments = s.payments ∧ s'.credits = s.credits
  authority : p.accepts = false → s.authority = [] → s'.authority = []

theorem Footprint.of_eq (hrows : s'.reservations = s.reservations)
    (hcursor : s'.cursor = s.cursor) (hpayments : s'.payments = s.payments)
    (hcreds : s'.credits = s.credits) (hauth : s'.authority = s.authority) :
    Footprint p s s' where
  arrivals := by
    unfold Store.arrivals
    rw [hrows]
  cursor := .of_eq hcursor
  payments _ := ⟨hpayments, hcreds⟩
  authority _ hs := hauth.trans hs

theorem Footprint.of_onLeases (h : OnLeases s s') : Footprint p s s' :=
  .of_eq h.reservations h.cursor h.payments h.credits h.authority

theorem Footprint.of_core (h : s'.core = s.core) : Footprint p s s' :=
  .of_eq (congrArg Core.reservations h) (congrArg Core.cursor h) (congrArg Core.payments h)
    (congrArg Core.credits h) (congrArg Core.authority h)

/-- New arrivals come at the end, the cursor does not go back, only a charge changes the payments
and only the acceptance of a result takes an authority. -/
theorem Move.footprint (h : Move p s s') : Footprint p s s' := by
  have hsame : Footprint p s s := .of_core rfl
  cases h with
  | aside h => exact .of_core h
  | commission h =>
    exact .of_eq (congrArg Core.reservations h) (congrArg Core.cursor h)
      (congrArg Core.payments h) (congrArg Core.credits h) (congrArg Core.authority h)
  | charge hcharges h =>
    have hkept : Footprint p s { s' with
        payments := s.payments, credits := s.credits } :=
      .of_eq (congrArg Core.reservations h) (congrArg Core.cursor h) rfl rfl
        (congrArg Core.authority h)
    exact { hkept with payments := fun hp => absurd (hp.symm.trans hcharges) (by decide) }
  | rows h =>
    rw [updateReservations_eq h]
    exact { hsame with arrivals := by rw [arrivals_mapReservations] }
  | reserve h =>
    obtain ⟨rows, hrows, rfl⟩ := insertReservation_spec h
    refine { hsame with arrivals := ?_ }
    show s.reservations.rows.map _ <+: rows.rows.map _
    rw [(rows_of_insert hrows).1, map_append]
    exact prefix_append ..
  | finalize h => exact { hsame with cursor := fun cursor hc => ⟨_, rfl, h cursor hc⟩ }
  | bind _ _ h =>
    obtain ⟨t, rfl⟩ := bindBaseline_eq h
    exact { hsame with }
  | unbind => exact { hsame with }
  | bindQueue _ h =>
    obtain ⟨t, rfl⟩ := bindUnboundQueue_eq h
    exact { hsame with }
  | claim _ _ _ h => exact .of_onLeases (openLease_onLeases h)
  | expire _ _ _ _ h => exact .of_onLeases (endLease_onLeases h)
  | recover _ _ _ h _ => exact .of_onLeases (transition_onLeases h)
  | release _ h => exact .of_onLeases (releaseRecovery_onLeases h)
  | authorize ha =>
    exact { hsame with authority := fun hp => absurd (hp.symm.trans ha) (by decide) }
  | complete _ _ _ _ h =>
    have hleases := completeLease_onLeases h
    have hfoot : Footprint p _ s' := .of_onLeases hleases
    exact { hfoot with authority := fun _ _ => hleases.authority }
  | reopen => exact { hsame with authority := fun _ _ => rfl }

/-- The reservations keep their arrivals, and new ones come at the end. -/
theorem Moves.arrivals (h : Moves p s s') : s.arrivals <+: s'.arrivals := by
  induction h with
  | refl => exact prefix_rfl
  | tail _ h ih => exact ih.trans h.footprint.arrivals

theorem Moves.cursor (h : Moves p s s') : CursorStep s s' := by
  induction h with
  | refl => exact .of_eq rfl
  | tail _ h ih => exact ih.trans h.footprint.cursor

/-! ### One call, arrival by arrival -/

/-- An arrival was inserted, and what admitted it was recorded. -/
structure Inserted (block amount : ℕ) (s : Store K) (n : ℕ) (r : IntakeReservation)
    (s' : Store K) : Prop where
  fresh : s.reservations.find? (r.reservationId K) = none
  status : r.status = (s.admission block amount n r.arrival).1
  epoch : r.admissionEpoch = admissionEpoch s.policy r.block
  rows : s'.reservations.rows = s.reservations.rows ++ [r]
  policy : s'.policy = s.policy
  cost : ∃ s₁ : Store K, s₁.payments = s.payments ∧ s₁.credits = s.credits ∧
    s₁.recordEvalCost block amount r.status (s.admissionCredit amount r.arrival) r.arrival = .ok s'

/-- How many slots are taken after a reservation was added. -/
def slots (n : ℕ) (r : IntakeReservation) : ℕ := if r.status = .reserved then n + 1 else n

/-- The arrivals of a call are taken one after the other; `new` are the rows it adds. -/
inductive Admits (block amount : ℕ) : Store K → ℕ → List FinalizedArrival →
    List IntakeReservation → Store K → Prop
  | nil {s : Store K} {n : ℕ} : Admits block amount s n [] [] s
  | known {s s' : Store K} {n : ℕ} {existing : IntakeReservation}
      {arrivals : List FinalizedArrival} {new : List IntakeReservation}
      (h : existing ∈ s.reservations.rows) (hrest : Admits block amount s n arrivals new s') :
      Admits block amount s n (existing.arrival :: arrivals) new s'
  | insert {s s₁ s' : Store K} {n : ℕ} {r : IntakeReservation}
      {arrivals : List FinalizedArrival} {new : List IntakeReservation}
      (h : Inserted block amount s n r s₁)
      (hrest : Admits block amount s₁ (slots n r) arrivals new s') :
      Admits block amount s n (r.arrival :: arrivals) (r :: new) s'

theorem reserveArrival_spec {n' : ℕ}
    (h : reserveArrival block amount (s, n) arrival = .ok (s', n')) :
    (s' = s ∧ n' = n ∧ ∃ existing ∈ s.reservations.rows, existing.arrival = arrival) ∨
      ∃ r, r.arrival = arrival ∧ n' = slots n r ∧ Inserted block amount s n r s' := by
  simp only [reserveArrival] at h
  split at h
  · next existing hfind =>
    simp only [bind_ok, exists_check] at h
    obtain ⟨hsame, h⟩ := h
    cases h
    exact .inl ⟨rfl, rfl, existing, (find?_eq_some.1 hfind).1, hsame⟩
  · simp only [bind_ok] at h
    obtain ⟨s₁, h₁, s₂, h₂, h⟩ := h
    cases h
    obtain ⟨rows, hrows, rfl⟩ := insertReservation_spec h₁
    obtain ⟨happend, hfresh⟩ := rows_of_insert hrows
    obtain ⟨payments, creds, rfl⟩ := recordEvalCost_spec h₂
    exact .inr ⟨_, rfl, rfl, hfresh, rfl, rfl, happend, rfl, s.withReservations rows, rfl, rfl, h₂⟩

variable {arrivals : List FinalizedArrival} {new : List IntakeReservation}

theorem admits_of_foldlM {state : Store K × ℕ}
    (h : arrivals.foldlM (reserveArrival block amount) (s, n) = .ok state) :
    ∃ new, Admits block amount s n arrivals new state.1 := by
  induction arrivals generalizing s n with
  | nil =>
    cases h
    exact ⟨[], .nil⟩
  | cons arrival arrivals ih =>
    simp only [foldlM_cons, bind_ok] at h
    obtain ⟨⟨s₁, n₁⟩, h₁, h⟩ := h
    rcases reserveArrival_spec h₁ with ⟨rfl, rfl, existing, hmem, rfl⟩ | ⟨r, rfl, rfl, hins⟩
    · obtain ⟨new, hnew⟩ := ih h
      exact ⟨new, .known hmem hnew⟩
    · obtain ⟨new, hnew⟩ := ih h
      exact ⟨r :: new, .insert hins hnew⟩

section Admits

section

variable (h : Admits block amount s n arrivals new s')

include h

theorem Admits.rows : s'.reservations.rows = s.reservations.rows ++ new := by
  induction h with
  | nil => simp
  | known _ _ ih => exact ih
  | insert hins _ ih => rw [ih, hins.rows, append_assoc, singleton_append]

/-- The row of an arrival of the call, once it is there, is of that very arrival. -/
theorem Admits.same :
    ∀ a ∈ arrivals, ∀ r ∈ s.reservations.rows, r.reservationId K = a.reservationId K →
      r.arrival = a := by
  induction h with
  | nil => simp
  | @known s s' n existing arrivals new hmem _ ih =>
    intro a ha r hr hid
    rcases mem_cons.1 ha with rfl | ha
    · rw [eq_of_key hr hmem hid]
    · exact ih a ha r hr hid
  | @insert s s₁ s' n r₀ arrivals new hins _ ih =>
    intro a ha r hr hid
    rcases mem_cons.1 ha with rfl | ha
    · exact absurd hid (find?_eq_none.1 hins.fresh r hr)
    · exact ih a ha r (hins.rows ▸ mem_append_left _ hr) hid

/-- The rows that a call adds are those of the arrivals that were not there. -/
theorem Admits.new_arrivals (hsort : Keyed.Sorted FinalizedArrival.arrivalKey arrivals) :
    new.map (·.arrival) = arrivals.filter fun a =>
      (s.reservations.find? (a.reservationId K)).isNone := by
  induction h with
  | nil => rfl
  | @known s s' n existing arrivals new hmem _ ih =>
    have hfind : s.reservations.find? (existing.arrival.reservationId K) = some existing :=
      find?_of_mem hmem
    rw [filter_cons_of_neg (by simp [hfind])]
    exact ih hsort.of_cons
  | @insert s s₁ s' n r arrivals new hins hrest ih =>
    have hfresh : s.reservations.find? (r.arrival.reservationId K) = none := hins.fresh
    rw [filter_cons_of_pos (by simp [hfresh]), map_cons, ih hsort.of_cons]
    congr 1
    refine filter_congr fun a ha => ?_
    -- The new row is not of a later arrival, or the call had been refused.
    have hne : r.reservationId K ≠ a.reservationId K := by
      intro hid
      have hsame := hrest.same a ha r (by rw [hins.rows]; simp) hid
      have hlt := rel_of_pairwise_cons hsort ha
      rw [hsame] at hlt
      exact lt_irrefl _ hlt
    have hiff : s₁.reservations.find? (a.reservationId K) = none ↔
        s.reservations.find? (a.reservationId K) = none := by
      rw [Table.find?_eq_none, Table.find?_eq_none, hins.rows]
      constructor
      · exact fun h r' hr' => h r' (mem_append_left _ hr')
      · intro h r' hr'
        rcases mem_append.1 hr' with hr' | hr'
        · exact h r' hr'
        · rw [mem_singleton.1 hr']
          exact hne
    rw [Bool.eq_iff_iff, Option.isNone_iff_eq_none, Option.isNone_iff_eq_none, hiff]

theorem Admits.epoch : ∀ r ∈ new, r.admissionEpoch = admissionEpoch s.policy r.block := by
  induction h with
  | nil => simp
  | known _ _ ih => exact ih
  | insert hins _ ih =>
    intro r hr
    rcases mem_cons.1 hr with rfl | hr
    · exact hins.epoch
    · rw [ih r hr, hins.policy]

end

end Admits

/-! ### Slots -/

theorem pending_reserved : Status.reserved ∈ Status.pending := by decide

/-- An arrival is reserved while there is a slot, and deferred when there is none. -/
theorem admission_slots :
    ((s.admission block amount n arrival).1 = .reserved → n < s.policy.maxPending) ∧
      ((s.admission block amount n arrival).1 = .deferred → s.policy.maxPending ≤ n) := by
  simp only [admission]
  split_ifs with _ _ _ _ _ hfull
  all_goals simp
  · exact hfull
  · exact not_le.1 hfull

variable {r : IntakeReservation}

theorem Inserted.pendingCount (h : Inserted block amount s n r s') (hn : n = s.pendingCount) :
    slots n r = s'.pendingCount := by
  have hcount : s'.pendingCount = s.pendingCount + if r.status ∈ Status.pending then 1 else 0 := by
    unfold Store.pendingCount
    rw [h.rows, countP_append, countP_singleton]
    simp
  have hiff : r.status ∈ Status.pending ↔ r.status = .reserved := by
    rw [h.status]
    simp only [admission]
    split_ifs <;> simp [Status.pending]
  rw [hcount, slots, hn]
  simp only [hiff]
  split_ifs <;> rfl

/-- While there are deferred rows, every slot is taken. -/
def SlotsTaken (s : Store K) : Prop :=
  ∀ d ∈ s.reservations.rows, d.status = .deferred → s.policy.maxPending ≤ s.pendingCount

theorem SlotsTaken.inserted (hs : s.SlotsTaken) (hn : n = s.pendingCount)
    (h : Inserted block amount s n r s') : s'.SlotsTaken := by
  intro d hd hdefer
  rw [h.rows] at hd
  rw [h.policy, ← h.pendingCount hn]
  have hle : n ≤ slots n r := by
    unfold slots
    split_ifs <;> omega
  rcases mem_append.1 hd with hd | hd
  · exact (hn ▸ hs d hd hdefer : s.policy.maxPending ≤ n).trans hle
  · rw [mem_singleton.1 hd, h.status] at hdefer
    exact (admission_slots.2 hdefer).trans hle

theorem Admits.slotsTaken (h : Admits block amount s n arrivals new s') (hn : n = s.pendingCount)
    (hs : s.SlotsTaken) : s'.SlotsTaken := by
  induction h with
  | nil => exact hs
  | known _ _ ih => exact ih hn hs
  | insert hins _ ih => exact ih (hins.pendingCount hn) (hs.inserted hn hins)

/-- Once a row waits for a slot, the call reserves no later arrival. -/
theorem Admits.in_order (h : Admits block amount s n arrivals new s')
    (hsort : Keyed.Sorted FinalizedArrival.arrivalKey arrivals) (hn : n = s.pendingCount)
    (hs : s.SlotsTaken) :
    (∀ d ∈ s.reservations.rows, d.status = .deferred → ∀ r ∈ new, r.status ≠ .reserved) ∧
      ∀ d ∈ new, d.status = .deferred → ∀ r ∈ new, r.status = .reserved →
        r.arrivalKey < d.arrivalKey := by
  induction h with
  | nil => simp
  | known _ _ ih => exact ih hsort.of_cons hn hs
  | @insert s s₁ s' n r₀ arrivals new hins hrest ih =>
    obtain ⟨hbef, hwithin⟩ := ih hsort.of_cons (hins.pendingCount hn) (hs.inserted hn hins)
    have hmem₁ {d : IntakeReservation} (hd : d ∈ s.reservations.rows) :
        d ∈ s₁.reservations.rows := hins.rows ▸ mem_append_left _ hd
    have hlast : r₀ ∈ s₁.reservations.rows := by
      rw [hins.rows]
      simp
    refine ⟨?_, ?_⟩
    · intro d hd hdefer r hr hreserved
      rcases mem_cons.1 hr with rfl | hr
      · have hfull : s.policy.maxPending ≤ n := hn ▸ hs d hd hdefer
        exact absurd (admission_slots.1 (hins.status ▸ hreserved)) (not_lt.2 hfull)
      · exact hbef d (hmem₁ hd) hdefer r hr hreserved
    · intro d hd hdefer r hr hreserved
      rcases mem_cons.1 hd with rfl | hd'
      · rcases mem_cons.1 hr with rfl | hr'
        · exact absurd (hdefer.symm.trans hreserved) (by decide)
        · exact absurd hreserved (hbef d hlast hdefer r hr')
      · rcases mem_cons.1 hr with rfl | hr'
        · have hmem : d.arrival ∈ new.map (·.arrival) := mem_map_of_mem hd'
          rw [hrest.new_arrivals hsort.of_cons] at hmem
          exact rel_of_pairwise_cons hsort (mem_filter.1 hmem).1
        · exact hwithin d hd' hdefer r hr' hreserved

variable {hash : Digest}

variable {ids : List Digest} {ops : List (Op K)} {m : ℕ}

/-- Giving slots to deferred rows takes up as many. -/
theorem pendingCount_activate (hf : ∀ r, (f r).status = .reserved) :
    s.pendingCount + s.reservations.rows.countP (fun r =>
        r.status = .deferred ∧ r.reservationId K ∈ ids) ≤
      (s.mapReservations (fun r => r.status = .deferred ∧ r.reservationId K ∈ ids)
        f).pendingCount := by
  unfold Store.pendingCount
  show _ ≤ (s.reservations.rows.map _).countP _
  rw [countP_map, ← countP_or]
  · refine countP_mono_left fun r _ hr => ?_
    simp only [Function.comp_apply]
    split_ifs with hq
    · exact decide_eq_true ((hf r).symm ▸ pending_reserved)
    · simpa [hq] using hr
  · intro r _ hr
    by_contra hq
    simp only [Bool.not_eq_false, decide_eq_true_eq] at hr hq
    rw [hq.1] at hr
    exact absurd hr (by decide)

/-- What is left deferred after the free slots were given out has no slot. -/
theorem slotsTaken_activate (h : s.activateDeferredRows = .ok s') : s'.SlotsTaken := by
  obtain ⟨deferred, hdefer⟩ : ∃ l, l = s.all.filter (·.status = .deferred) := ⟨_, rfl⟩
  obtain ⟨free, hfree⟩ : ∃ n, n = s.policy.maxPending - s.pendingCount := ⟨_, rfl⟩
  unfold activateDeferredRows at h
  rw [← hdefer, ← hfree] at h
  obtain rfl := updateReservations_eq h
  -- Every row that is taken from the deferred ones is given a slot.
  have hgiven : (deferred.take free).length ≤ s.reservations.rows.countP fun r =>
      r.status = .deferred ∧ r.reservationId K ∈ (deferred.take free).map (·.reservationId K) := by
    have hall : ∀ r ∈ deferred.take free, r.status = .deferred ∧
        r.reservationId K ∈ (deferred.take free).map (·.reservationId K) := by
      intro r hr
      have hmem := mem_of_mem_take hr
      rw [hdefer] at hmem
      exact ⟨by simpa using (mem_filter.1 hmem).2, mem_map_of_mem hr⟩
    have hperm : s.all.Perm s.reservations.rows := Keyed.sortBy_perm
    have hsub : (deferred.take free).Sublist s.all := by
      refine (take_sublist ..).trans ?_
      rw [hdefer]
      exact filter_sublist
    rw [← countP_eq_length.2 fun r hr => decide_eq_true (hall r hr), ← hperm.countP_eq]
    exact hsub.countP_le
  have hpend := (Nat.add_le_add_left hgiven _).trans (pendingCount_activate
    (f := fun r => { r.toWork with status := .reserved, reason := "" }) fun _ => rfl)
  intro d hd hstat
  -- A row without a slot is one of more deferred rows than there were slots.
  have hfull : free < deferred.length := by
    obtain ⟨r, hr, rfl⟩ := mem_map.1 hd
    split_ifs at hstat with hq
    · cases hstat
    · by_contra hshort
      refine hq ⟨hstat, ?_⟩
      rw [take_of_length_le (not_lt.1 hshort), hdefer]
      refine mem_map_of_mem (mem_filter.2 ⟨Keyed.mem_sortBy.2 hr, ?_⟩)
      exact decide_eq_true hstat
  rw [length_take_of_le hfull.le] at hpend
  refine le_trans ?_ hpend
  show s.policy.maxPending ≤ s.pendingCount + free
  omega

/-! ### Admissions over a run -/

/-- The statuses a reservation is admitted with. -/
def admittedStatuses : List Status := [.reserved, .deferred]

/-- The reservations that a call admits. -/
def admittedBy (s : Store K) : Op K → List Digest
  | .queue (.reserveFinalized arrivals block hash amount) =>
    ((s.step (.queue (.reserveFinalized arrivals block hash amount))).reservations.rows.filter
      fun r => r.status ∈ admittedStatuses ∧
        s.reservations.find? (r.reservationId K) = none).map (·.reservationId K)
  | _ => []

/-- What the operations of a run contribute, one after the other. -/
def gathered {α : Type} (f : Store K → Op K → List α) (s : Store K) : List (Op K) → List α
  | [] => []
  | op :: ops => f s op ++ gathered f (s.step op) ops

theorem gathered_concat {α : Type} {f : Store K → Op K → List α} {op : Op K} :
    s.gathered f (ops ++ [op]) = s.gathered f ops ++ f (s.run ops) op := by
  induction ops generalizing s with
  | nil => simp [gathered]
  | cons first ops ih =>
    simp only [cons_append, gathered, ih, append_assoc]
    rfl

/-- The reservations that were admitted in a run. -/
def admitted (s : Store K) (ops : List (Op K)) : List Digest := s.gathered admittedBy ops

theorem find?_eq_none_iff : s.reservations.find? id = none ↔
    ∀ a ∈ s.arrivals, a.1.reservationId K ≠ id := by
  rw [Table.find?_eq_none]
  unfold arrivals
  simp only [mem_map, forall_exists_index, and_imp]
  constructor
  · rintro h a r hr rfl
    exact h r hr
  · exact fun h r hr => h _ r hr rfl

theorem arrivals_expireStaleRows (h : s.expireStaleRows block = .ok s') :
    s'.arrivals = s.arrivals ∧ s'.policy = s.policy := by
  unfold expireStaleRows at h
  split at h
  · cases h
    exact ⟨rfl, rfl⟩
  · simp only [bind_ok, exists_check] at h
    rw [updateReservations_eq h.2.2]
    exact ⟨arrivals_mapReservations, rfl⟩

/-- A call, once the deadlines were applied and the free slots given out. -/
structure Called (arrivals : List FinalizedArrival) (block amount : ℕ) (s : Store K)
    (new : List IntakeReservation) (s' : Store K) where
  start : Store K
  stop : Store K
  expired : ∃ s₁, s.expireStaleRows block = .ok s₁ ∧ s₁.activateDeferredRows = .ok start
  sorted : Keyed.Sorted FinalizedArrival.arrivalKey arrivals
  admits : Admits block amount start start.pendingCount arrivals new stop
  result : ∃ cursor, s' = { stop with cursor := cursor }

namespace Called

section

variable (h : Called arrivals block amount s new s')

include h

theorem arrivals_start : h.start.arrivals = s.arrivals ∧ h.start.policy = s.policy := by
  obtain ⟨s₁, h₁, h₂⟩ := h.expired
  obtain ⟨harrivals₁, hpol₁⟩ := arrivals_expireStaleRows h₁
  rw [updateReservations_eq h₂]
  exact ⟨arrivals_mapReservations.trans harrivals₁, hpol₁⟩

theorem known_start : h.start.reservations.find? id = none ↔ s.reservations.find? id = none := by
  rw [find?_eq_none_iff, find?_eq_none_iff, h.arrivals_start.1]

theorem slotsTaken : h.start.SlotsTaken := by
  obtain ⟨s₁, -, h₂⟩ := h.expired
  exact slotsTaken_activate h₂

theorem rows : s'.reservations.rows = h.start.reservations.rows ++ new := by
  obtain ⟨cursor, hres⟩ := h.result
  have hrows : s'.reservations.rows = h.stop.reservations.rows :=
    congrArg (·.reservations.rows) hres
  exact hrows.trans h.admits.rows

/-- The rows that were added are those of ids that were not there. -/
theorem fresh_iff (hr : r ∈ s'.reservations.rows) :
    s.reservations.find? (r.reservationId K) = none ↔ r ∈ new := by
  rw [← h.known_start]
  constructor
  · intro hnone
    rw [h.rows] at hr
    exact (mem_append.1 hr).resolve_left fun hr => find?_eq_none.1 hnone r hr rfl
  · intro hnew
    refine Table.find?_eq_none.2 fun r' hr' hid => ?_
    -- The ids of the rows are distinct, those of the added ones among them.
    have hdist := s'.reservations.distinct
    rw [h.rows, map_append] at hdist
    exact (nodup_append.1 hdist).2.2 _ (mem_map_of_mem hr') _ (mem_map_of_mem hnew) hid

theorem arrivals_eq : s'.arrivals = s.arrivals ++ (arrivals.filter fun a =>
      (s.reservations.find? (a.reservationId K)).isNone).map fun a =>
        (a, admissionEpoch s.policy a.block) := by
  have hnew : new.map (fun r => (r.arrival, r.admissionEpoch)) =
      (new.map (·.arrival)).map fun a => (a, admissionEpoch s.policy a.block) := by
    rw [map_map]
    refine map_congr_left fun r hr => ?_
    rw [h.admits.epoch r hr, h.arrivals_start.2]
    rfl
  have hfilter : (arrivals.filter fun a =>
      (h.start.reservations.find? (a.reservationId K)).isNone) = arrivals.filter fun a =>
        (s.reservations.find? (a.reservationId K)).isNone := by
    refine filter_congr fun a _ => ?_
    rw [Bool.eq_iff_iff, Option.isNone_iff_eq_none, Option.isNone_iff_eq_none, h.known_start]
  have hrows : s'.arrivals = h.start.arrivals ++ new.map fun r =>
      (r.arrival, r.admissionEpoch) := by
    unfold Store.arrivals
    rw [h.rows, map_append]
  rw [hrows, h.arrivals_start.1, hnew, h.admits.new_arrivals h.sorted, hfilter]

end

end Called

theorem reserveFinalized_called (h : s.reserveFinalized arrivals block hash amount = .ok s') :
    ∃ new, Nonempty (Called arrivals block amount s new s') := by
  simp only [reserveFinalized, bind_ok, exists_check] at h
  obtain ⟨hsort, -, s₁, h₁, s₂, h₂, -, state, h₃, h⟩ := h
  cases h
  obtain ⟨new, hnew⟩ := admits_of_foldlM h₃
  exact ⟨new, ⟨⟨s₂, state.1, ⟨s₁, h₁, h₂⟩, hsort, hnew, _, rfl⟩⟩⟩

/-- A call that raises leaves the store as it was, and admits nothing; the admitted reservations of
the others are the added rows with such a status. -/
theorem step_reserveFinalized (s : Store K) :
    let op : Op K := .queue (.reserveFinalized arrivals block hash amount)
    s.step op = s ∧ s.admittedBy op = [] ∨
      ∃ new, Nonempty (Called arrivals block amount s new (s.step op)) ∧ ∀ id,
        id ∈ s.admittedBy op ↔
          id ∈ (new.filter (·.status ∈ admittedStatuses)).map (·.reservationId K) := by
  intro op
  have hop : s.step op = (s.committed (s.reserveFinalized arrivals block hash amount)).1 := rfl
  cases hres : s.reserveFinalized arrivals block hash amount with
  | error fault =>
    have hstep : s.step op = s := by rw [hop, hres]; rfl
    refine .inl ⟨hstep, map_eq_nil_iff.2 (filter_eq_nil_iff.2 fun r hr => ?_)⟩
    rw [hstep] at hr
    simp [find?_of_mem hr]
  | ok s' =>
    obtain ⟨new, ⟨hcall⟩⟩ := reserveFinalized_called hres
    rw [show s' = s.step op by rw [hop, hres]; rfl] at hcall
    refine .inr ⟨new, ⟨hcall⟩, fun id => ?_⟩
    simp only [admittedBy, op, mem_map, mem_filter, decide_eq_true_eq]
    refine exists_congr fun r => and_congr_left fun _ => ⟨?_, ?_⟩
    · rintro ⟨hr, hstat, hnone⟩
      exact ⟨(hcall.fresh_iff hr).1 hnone, hstat⟩
    · rintro ⟨hr, hstat⟩
      have hmem : r ∈ (s.step op).reservations.rows := by
        rw [hcall.rows]
        exact mem_append_right _ hr
      exact ⟨hmem, hstat, (hcall.fresh_iff hmem).2 hr⟩

/-! ### The limit of one account -/

/-- How many of some reservations are of an account in an epoch. -/
def countOf (s : Store K) (ids : List Digest) (hotkey : Hotkey) (epoch : ℕ) : ℕ :=
  s.reservations.rows.countP fun r =>
    r.reservationId K ∈ ids ∧ r.hotkey = hotkey ∧ r.admissionEpoch = epoch

theorem countOf_eq {hotkey : Hotkey} {epoch : ℕ} :
    s.countOf ids hotkey epoch = s.arrivals.countP fun a =>
      a.1.reservationId K ∈ ids ∧ a.1.hotkey = hotkey ∧ a.2 = epoch := by
  unfold countOf arrivals
  rw [countP_map]
  rfl

/-- Every admitted reservation is there, and no account has more than `m` in one epoch. -/
structure HotkeyBound (m : ℕ) (ids : List Digest) (s : Store K) : Prop where
  there : ∀ id ∈ ids, s.reservations.find? id ≠ none
  bound : ∀ hotkey epoch, s.countOf ids hotkey epoch ≤ m

/-- Rows of other ids do not count. -/
theorem HotkeyBound.of_arrivals (hs : HotkeyBound m ids s) (h : s.arrivals <+: s'.arrivals) :
    HotkeyBound m ids s' := by
  obtain ⟨added, hadded⟩ := h
  have hthere : ∀ id ∈ ids, ∃ a ∈ s.arrivals, a.1.reservationId K = id := by
    intro id hid
    have hnot := mt find?_eq_none_iff.2 (hs.there id hid)
    push Not at hnot
    exact hnot
  have hdist : (s'.arrivals.map fun a => a.1.reservationId K).Nodup := by
    unfold arrivals
    rw [map_map]
    exact s'.reservations.distinct
  rw [← hadded, map_append, nodup_append] at hdist
  have hother : ∀ a ∈ added, a.1.reservationId K ∉ ids := by
    intro a ha hid
    obtain ⟨b, hb, hkey⟩ := hthere _ hid
    exact hdist.2.2 _ (mem_map_of_mem hb) _ (mem_map_of_mem ha) hkey
  refine ⟨fun id hid => ?_, fun hotkey epoch => ?_⟩
  · obtain ⟨a, ha, hkey⟩ := hthere id hid
    intro hnone
    exact find?_eq_none_iff.1 hnone a (hadded ▸ mem_append_left _ ha) hkey
  · have hzero : added.countP (fun a => a.1.reservationId K ∈ ids ∧ a.1.hotkey = hotkey ∧
        a.2 = epoch) = 0 := by
      refine countP_eq_zero.2 fun a ha => ?_
      simp [hother a ha]
    rw [countOf_eq, ← hadded, countP_append, hzero, ← countOf_eq]
    exact hs.bound hotkey epoch

theorem HotkeyBound.congr {ids ids' : List Digest} (h : ∀ id, id ∈ ids' ↔ id ∈ ids)
    (hs : HotkeyBound m ids s) : HotkeyBound m ids' s := by
  refine ⟨fun id hid => hs.there id ((h id).1 hid), fun hotkey epoch => ?_⟩
  have hsame : s.countOf ids' hotkey epoch = s.countOf ids hotkey epoch := by
    unfold countOf
    simp only [h]
  exact hsame ▸ hs.bound hotkey epoch

/-- An arrival is admitted only below the limit of its account. -/
theorem admission_hotkey (h : (s.admission block amount n arrival).1 ∈ admittedStatuses) :
    s.reservations.rows.countP (fun r =>
      r.admissionEpoch = admissionEpoch s.policy arrival.block ∧
        r.hotkey = arrival.hotkey) < s.policy.maxPerHotkeyEpoch := by
  by_contra hlimit
  revert h
  simp only [admission]
  rw [if_pos (c := s.policy.maxPerHotkeyEpoch ≤ _) (not_lt.1 hlimit)]
  split_ifs <;> simp [admittedStatuses]

theorem HotkeyBound.inserted (hs : HotkeyBound m ids s) (hm : s.policy.maxPerHotkeyEpoch ≤ m)
    (h : Inserted block amount s n r s') (hr : r.status ∈ admittedStatuses) :
    HotkeyBound m (ids ++ [r.reservationId K]) s' := by
  have hfresh : ∀ r' ∈ s.reservations.rows, r'.reservationId K ≠ r.reservationId K :=
    find?_eq_none.1 h.fresh
  refine ⟨?_, fun hotkey epoch => ?_⟩
  · intro id hid hnone
    rw [Table.find?_eq_none, h.rows] at hnone
    rcases mem_append.1 hid with hid | hid
    · exact hs.there id hid (find?_eq_none.2 fun r' hr' =>
        hnone r' (mem_append_left _ hr'))
    · exact hnone r (by simp) (mem_singleton.1 hid).symm
  · have hcount : s'.countOf (ids ++ [r.reservationId K]) hotkey epoch =
        s.countOf ids hotkey epoch +
          if r.hotkey = hotkey ∧ r.admissionEpoch = epoch then 1 else 0 := by
      unfold countOf
      rw [h.rows, countP_append, countP_singleton]
      congr 1
      · refine countP_congr fun r' hr' => ?_
        simp [hfresh r' hr']
      · simp
    rw [hcount]
    split_ifs with hsame
    · obtain ⟨rfl, rfl⟩ := hsame
      -- All the reservations of the account in the epoch are below its limit.
      have hlimit := admission_hotkey (h.status ▸ hr)
      have hle : s.countOf ids r.hotkey r.admissionEpoch ≤ s.reservations.rows.countP fun r' =>
            r'.admissionEpoch = admissionEpoch s.policy r.block ∧ r'.hotkey = r.hotkey := by
        refine countP_mono_left fun r' _ hr' => ?_
        simp only [decide_eq_true_eq] at hr' ⊢
        exact ⟨hr'.2.2.trans h.epoch, hr'.2.1⟩
      omega
    · exact hs.bound hotkey epoch

theorem Admits.hotkeyBound (h : Admits block amount s n arrivals new s')
    (hm : s.policy.maxPerHotkeyEpoch ≤ m) (hs : HotkeyBound m ids s) :
    HotkeyBound m (ids ++ (new.filter (·.status ∈ admittedStatuses)).map
      (·.reservationId K)) s' := by
  induction h generalizing ids with
  | nil => simpa using hs
  | known _ _ ih => exact ih hm hs
  | @insert s s₁ s' n r arrivals new hins _ ih =>
    rw [← hins.policy] at hm
    by_cases hr : r.status ∈ admittedStatuses
    · have hrest := ih hm (hs.inserted (hins.policy ▸ hm) hins hr)
      rw [filter_cons_of_pos (by simpa using hr), map_cons]
      simpa using hrest
    · rw [filter_cons_of_neg (by simpa using hr)]
      refine ih hm (hs.of_arrivals ?_)
      unfold Store.arrivals
      rw [hins.rows, map_append]
      exact prefix_append ..

theorem HotkeyBound.called (hs : HotkeyBound m ids s)
    (hm : s.policy.maxPerHotkeyEpoch ≤ m) (h : Called arrivals block amount s new s') :
    HotkeyBound m (ids ++ (new.filter (·.status ∈ admittedStatuses)).map
      (·.reservationId K)) s' := by
  obtain ⟨harrivals, hpol⟩ := h.arrivals_start
  have hstart : HotkeyBound m ids h.start := hs.of_arrivals (harrivals ▸ prefix_rfl)
  obtain ⟨cursor, hres⟩ := h.result
  have hsame : s'.arrivals = h.stop.arrivals := (congrArg Store.arrivals hres).trans rfl
  exact (h.admits.hotkeyBound (hpol ▸ hm) hstart).of_arrivals (hsame ▸ prefix_rfl)

theorem HotkeyBound.step (hs : HotkeyBound m ids s) (op : Op K)
    (hm : s.policy.maxPerHotkeyEpoch ≤ m) : HotkeyBound m (ids ++ s.admittedBy op) (s.step op) := by
  have hkept : HotkeyBound m ids (s.step op) := hs.of_arrivals (s.step_spec op).moves.arrivals
  cases op with
  | queue op =>
    cases op with
    | reserveFinalized arrivals block hash amount =>
      rcases s.step_reserveFinalized with ⟨-, hnone⟩ | ⟨new, ⟨hcall⟩, hadm⟩
      · rwa [hnone, append_nil]
      · refine (hs.called hm hcall).congr fun id => ?_
        rw [mem_append, mem_append, hadm]
    | _ => simpa only [admittedBy, append_nil] using hkept
  | _ => simpa only [admittedBy, append_nil] using hkept

/-! ### The law of admission -/

/-- What the calls of `reserveFinalized` keep to in a store. -/
structure AdmissionLaw (s : Store K) : Prop where
  /-- The arrivals that are not there yet are added, and nothing else. -/
  replay : ∀ arrivals block hash amount s', s.reserveFinalized arrivals block hash amount = .ok s' →
      s'.arrivals = s.arrivals ++ (arrivals.filter fun a =>
        (s.reservations.find? (a.reservationId K)).isNone).map fun a =>
          (a, admissionEpoch s.policy a.block)
  /-- No operation changes what the chain said. -/
  kept : ∀ ops, s.arrivals <+: (s.run ops).arrivals
  cursor : ∀ ops, CursorStep s (s.run ops)
  /-- A row is left deferred only when every slot is taken, and no later arrival takes one. -/
  deferred : ∀ arrivals block hash amount s',
    s.reserveFinalized arrivals block hash amount = .ok s' →
      ∀ d ∈ s'.reservations.rows, d.status = .deferred → s'.policy.maxPending ≤ s'.pendingCount ∧
          ∀ r ∈ s'.reservations.rows, s.reservations.find? (r.reservationId K) = none →
            d.arrivalKey < r.arrivalKey → r.status ≠ .reserved
  /-- A call that raises changes nothing: `committed` is the rollback of its transaction, which is
  taken from the database. -/
  raised : ∀ arrivals block hash amount fault,
    s.reserveFinalized arrivals block hash amount = .error fault →
      s.step (.queue (.reserveFinalized arrivals block hash amount)) = s

theorem Called.deferred (h : Called arrivals block amount s new s') {d : IntakeReservation}
    (hd : d ∈ s'.reservations.rows) (hstat : d.status = .deferred) :
    s'.policy.maxPending ≤ s'.pendingCount ∧ ∀ r ∈ s'.reservations.rows,
      s.reservations.find? (r.reservationId K) = none →
        d.arrivalKey < r.arrivalKey → r.status ≠ .reserved := by
  have htaken := h.admits.slotsTaken rfl h.slotsTaken
  obtain ⟨hbef, hwithin⟩ := h.admits.in_order h.sorted rfl h.slotsTaken
  refine ⟨?_, ?_⟩
  · obtain ⟨cursor, hres⟩ := h.result
    rw [hres] at hd ⊢
    exact htaken d hd hstat
  · intro r hr hnone hlt hreserved
    have hnew := (h.fresh_iff hr).1 hnone
    rw [h.rows] at hd
    rcases mem_append.1 hd with hd | hd
    · exact hbef d hd hstat r hnew hreserved
    · exact lt_asymm hlt (hwithin d hd hstat r hnew hreserved)

theorem moves_run (s : Store K) (ops : List (Op K)) :
    s.arrivals <+: (s.run ops).arrivals ∧ CursorStep s (s.run ops) :=
  run_invariant (I := fun s' => s.arrivals <+: s'.arrivals ∧ CursorStep s s')
    ⟨prefix_rfl, .of_eq rfl⟩ fun s' op h =>
    have hmoves := (s'.step_spec op).moves
    ⟨h.1.trans hmoves.arrivals, h.2.trans hmoves.cursor⟩

theorem admissionLaw (s : Store K) : s.AdmissionLaw where
  replay arrivals block hash amount s' h := by
    obtain ⟨new, ⟨hcall⟩⟩ := reserveFinalized_called h
    exact hcall.arrivals_eq
  kept ops := (s.moves_run ops).1
  cursor ops := (s.moves_run ops).2
  deferred arrivals block hash amount s' h d hd hstat := by
    obtain ⟨new, ⟨hcall⟩⟩ := reserveFinalized_called h
    exact hcall.deferred hd hstat
  raised arrivals block hash amount fault h := by
    show (s.committed _).1 = s
    rw [h]
    rfl

theorem hotkeyBound_run (h : s.Along (fun s _ => s.policy.maxPerHotkeyEpoch ≤ m) ops)
    (hs : HotkeyBound m [] s) : HotkeyBound m (s.admitted ops) (s.run ops) := by
  induction ops using List.reverseRecOn with
  | nil => exact hs
  | append_singleton ops op ih =>
    obtain ⟨hops, hlimit⟩ := (along_concat s).1 h
    unfold admitted
    rw [gathered_concat, run_concat]
    exact (ih hops).step op hlimit

end Store

open Store

/-- **Admission is a replayable, ordered and bounded process.**  In every store that operations
lead to, the calls of `reserveFinalized` keep to their law, and while the limit of an account is
at most `m`, at most `m` of its reservations are admitted in one epoch. -/
theorem reserveFinalized_law {K : IntakeHashes} {policy : IntakePolicy} {recoverable : Bool}
    {m : ℕ} {ops : List (Op K)}
    (h : (init K policy recoverable).Along (fun s _ => s.policy.maxPerHotkeyEpoch ≤ m) ops) :
    ((init K policy recoverable).run ops).AdmissionLaw ∧ ∀ hotkey epoch,
      ((init K policy recoverable).run ops).countOf ((init K policy recoverable).admitted ops)
        hotkey epoch ≤ m := by
  refine ⟨admissionLaw _, (hotkeyBound_run h ⟨?_, ?_⟩).bound⟩
  · intro id hid
    cases hid
  · exact fun hotkey epoch => Nat.zero_le m

/-- Three submissions of one account under a limit of two: two are admitted. -/
theorem reserveFinalized_law_sample :
    let s := init intakeHashes { maxPerHotkeyEpoch := 2 } false
    let ops := [Sample.reserve 3 [sampleArrival 1 alice, sampleArrival 2 alice,
      sampleArrival 3 alice]]
    (s.run ops).AdmissionLaw ∧ s.admitted ops = [sampleId 1, sampleId 2] ∧
      ∀ hotkey epoch, (s.run ops).countOf (s.admitted ops) hotkey epoch ≤ 2 := by
  intro s ops
  have h : s.Along (fun s _ => s.policy.maxPerHotkeyEpoch ≤ 2) ops := ⟨le_rfl, trivial⟩
  exact ⟨(reserveFinalized_law h).1, by decide, (reserveFinalized_law h).2⟩

/-- The limit counts the arrivals that are expired when they are reserved, but is not applied to
them. -/
theorem expired_arrivals_over_limit :
    let s := (init intakeHashes { maxPerHotkeyEpoch := 1, expiryBlocks := 1 } false).run
      [Sample.reserve 10 [sampleArrival 1 alice, sampleArrival 2 alice]]
    s.policy.maxPerHotkeyEpoch = 1 ∧ (s.reservations.rows.countP fun r =>
      r.status ≠ .failed ∧ r.hotkey = "alice" ∧ r.admissionEpoch = 0) = 2 := by
  decide

end Cacheon
