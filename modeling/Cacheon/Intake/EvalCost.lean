import Cacheon.Intake.Admission

/-!
# What paid for a reservation

With a positive evaluation cost every admitted reservation is backed by one payment or by one
credit, until it is disposed of before its first claim.

* `Store.paidBy`, `Store.creditedBy` : what backs a reservation.
* `Backed` : the invariant, relative to the reservations admitted and released so far.
* `evalCost_backing` : the invariant in every run.
-/

namespace Cacheon

open Fallible IntakeFault List Table

namespace Store

variable {K : IntakeHashes} {p : Permit} {s s' : Store K} {id credit : Digest} {block amount n : ℕ}

/-- The payments that back a reservation. -/
def paidBy (s : Store K) (id : Digest) : ℕ := s.payments.rows.countP (·.reservationId = id)

/-- The credits that back a reservation. -/
def creditedBy (s : Store K) (id : Digest) : ℕ :=
  s.credits.rows.countP (·.reservationId = some id)

/-- The reservation that an operation releases before its first claim. -/
def releasedBy (s : Store K) : Op K → List Digest
  | .queue (.markTargetUnavailable id target) =>
    if (s.markTargetUnavailable id target).isOk then [id] else []
  | _ => []

/-- The reservations that were released in a run. -/
def released (s : Store K) (ops : List (Op K)) : List Digest := s.gathered releasedBy ops

/-! ### Who changes the payments -/

/-- Only a charge changes the payments and the credits. -/
theorem Moves.payments (h : Moves p s s') (hp : p.charges = false) :
    s'.payments = s.payments ∧ s'.credits = s.credits := by
  induction h with
  | refl => exact ⟨rfl, rfl⟩
  | tail _ h ih =>
    obtain ⟨hpayments, hcreds⟩ := h.footprint.payments hp
    exact ⟨hpayments.trans ih.1, hcreds.trans ih.2⟩

/-- An operation that charges nothing neither admits nor releases a reservation. -/
theorem quiet_of_charges {op : Op K} (h : op.permit.charges = false) :
    s.admittedBy op = [] ∧ s.releasedBy op = [] := by
  cases op with
  | queue op =>
    cases op with
    | reserveFinalized => cases h
    | markTargetUnavailable => cases h
    | _ => exact ⟨rfl, rfl⟩
  | _ => exact ⟨rfl, rfl⟩

/-! ### What one change does to the backing -/

/-- The backing of a reservation. -/
def backing (s : Store K) (id : Digest) : ℕ := s.paidBy id + s.creditedBy id

theorem backing_congr (h : s'.payments = s.payments)
    (h' : s'.credits = s.credits) : s'.backing id = s.backing id := by
  unfold backing paidBy creditedBy
  rw [h, h']

/-- Without a payment only a credit admits an arrival. -/
theorem admission_credit {arr : FinalizedArrival} (hamt : 0 < amount)
    (hpayment : arr.paymentBlock = 0)
    (h : (s.admission block amount n arr).1 ∈ admittedStatuses) :
    ∃ credit, s.admissionCredit amount arr = some credit := by
  by_contra hnone
  have hcredit : s.admissionCredit amount arr = none :=
    Option.eq_none_iff_forall_ne_some.2 fun credit hc => hnone ⟨credit, hc⟩
  revert h
  simp only [admission, hcredit, hamt, hpayment, true_and, if_true]
  split_ifs <;> simp [admittedStatuses]

/-- Spending a credit backs one more reservation with it. -/
theorem creditedBy_spend {owner : Digest}
    (hc : ∃ c ∈ s.credits.rows, c.creditId = credit ∧ c.reservationId = none) :
    (s.credits.update (fun c => c.creditId = credit ∧ c.reservationId = none)
      (fun c => { c with reservationId := some owner, spentBlock := block })
        fun _ => rfl).rows.countP (·.reservationId = some id) =
      s.creditedBy id + if id = owner then 1 else 0 := by
  obtain ⟨c, hmem, rfl, hfree⟩ := hc
  show (s.credits.rows.map _).countP _ = _
  rw [countP_map]
  by_cases hid : id = owner
  · subst hid
    have hone := countP_key (p := fun c : EvalCostCredit => c.reservationId = none) hmem hfree
    rw [if_pos rfl, creditedBy, ← hone, ← countP_or]
    · refine countP_congr fun b _ => ?_
      by_cases hb : b.creditId = c.creditId ∧ b.reservationId = none <;> simp [hb]
    · intro b _ hb
      simp only [decide_eq_true_eq] at hb
      simp [hb]
  · rw [if_neg hid, Nat.add_zero]
    refine countP_congr fun b _ => ?_
    by_cases hb : b.creditId = c.creditId ∧ b.reservationId = none
    · simp [hb, Ne.symm hid]
    · simp [hb]

section Record

variable {block amount n : ℕ} {status : Status} {credit : Option Digest} {arr : FinalizedArrival}

/-- An arrival that is not admitted costs nothing. -/
theorem recordEvalCost_skip (hstat : status ∉ admittedStatuses)
    (h : s.recordEvalCost block amount status credit arr = .ok s') : s' = s := by
  unfold recordEvalCost at h
  rw [if_neg fun hcost => hstat hcost.2.1] at h
  split at h
  · rw [if_neg fun hcost => hstat hcost.2] at h
    cases h
    rfl
  · cases h
    rfl

theorem recordEvalCost_payment (hamt : 0 < amount) (hstat : status ∈ admittedStatuses)
    (hpaid : 0 < arr.paymentBlock)
    (h : s.recordEvalCost block amount status credit arr = .ok s') :
    s'.backing id = s.backing id + if id = arr.reservationId K then 1 else 0 := by
  unfold recordEvalCost at h
  rw [if_pos ⟨hamt, hstat, hpaid⟩] at h
  simp only [bind_ok, get_ok] at h
  obtain ⟨payments, hinsert, h⟩ := h
  cases h
  have hpaidBy : payments.rows.countP (·.reservationId = id) =
      s.paidBy id + if id = arr.reservationId K then 1 else 0 := by
    rw [(rows_of_insert hinsert).1, countP_append, countP_singleton]
    simp [paidBy, eq_comm]
  show payments.rows.countP _ + s.creditedBy id = _
  rw [hpaidBy, backing]
  omega

/-- An inserted reservation is backed once if it is admitted, and nothing else changes. -/
theorem Inserted.backing {r : IntakeReservation} (h : Inserted block amount s n r s')
    (hamt : 0 < amount) : s'.backing id = s.backing id +
      if r.status ∈ admittedStatuses ∧ id = r.reservationId K then 1 else 0 := by
  obtain ⟨s₁, hpayments, hcreds, hcost⟩ := h.cost
  have hsame : s₁.backing id = s.backing id := backing_congr hpayments hcreds
  rw [← hsame]
  by_cases hr : r.status ∈ admittedStatuses
  · simp only [hr, true_and]
    by_cases hpaid : 0 < r.paymentBlock
    · exact recordEvalCost_payment hamt hr hpaid hcost
    · have hunpaid : r.paymentBlock = 0 := by omega
      obtain ⟨c, hc⟩ := admission_credit hamt hunpaid (h.status ▸ hr)
      rw [hc] at hcost
      simp only [recordEvalCost, hunpaid, lt_irrefl, and_false, if_false] at hcost
      rw [if_pos ⟨hamt, hr⟩] at hcost
      cases hcost
      show s₁.paidBy id + _ = _
      unfold creditedBy
      rw [creditedBy_spend, Store.backing, Nat.add_assoc]
      · rfl
      -- The credit is one that was not spent.
      unfold admissionCredit at hc
      split_ifs at hc
      rw [hcreds]
      obtain ⟨c, hhead, rfl⟩ := Option.map_eq_some_iff.1 hc
      obtain ⟨hrow, hfree⟩ := mem_filter.1 (Keyed.mem_sortBy.1 (mem_of_mem_head? hhead))
      exact ⟨c, hrow, rfl, (of_decide_eq_true hfree).2⟩
  · rw [recordEvalCost_skip hr hcost, if_neg fun hcase => hr hcase.1, Nat.add_zero]

end Record

variable {owner : Digest} {reason : String}

/-- A disposal takes away what backed the reservation, and nothing else. -/
theorem expireBeforeClaim_backing (h : s.expireBeforeClaim owner reason = .ok s') :
    s'.backing id = if id = owner then 0 else s.backing id := by
  simp only [expireBeforeClaim, bind_ok, exists_check] at h
  obtain ⟨-, -, row, -, -, s₁, h₁, h⟩ := h
  cases h
  have hsame : s₁.backing id = s.backing id := by
    rw [updateReservations_eq h₁]
    rfl
  rw [← hsame]
  show (s₁.payments.rows.filter _).countP _ + (s₁.credits.rows.map _).countP _ = _
  rw [countP_filter, countP_map]
  split_ifs with hid
  · subst hid
    rw [Nat.add_eq_zero_iff, countP_eq_zero, countP_eq_zero]
    refine ⟨fun payment _ => by simp, fun credit _ => ?_⟩
    by_cases hcredit : credit.reservationId = some id <;> simp [hcredit]
  · unfold backing paidBy creditedBy
    congr 1
    · refine countP_congr fun payment _ => ?_
      by_cases hpayment : payment.reservationId = id <;> simp [hpayment, hid]
    · refine countP_congr fun credit _ => ?_
      by_cases hcredit : credit.reservationId = some owner
      · simp [hcredit, Ne.symm hid]
      · simp [hcredit]

/-! ### The invariant -/

/-- What backs the reservations, when `ids` were admitted and `gone` released. -/
structure Backed (ids gone : List Digest) (s : Store K) : Prop where
  there : ∀ id ∈ ids, s.reservations.find? id ≠ none
  backed : ∀ id, s.backing id = if id ∈ ids ∧ id ∉ gone then 1 else 0
  closed : ∀ id ∈ gone, ∃ r, s.reservations.find? id = some r ∧ r.toWork.Closed

variable {ids ids' gone : List Digest}

section

variable (hs : Backed ids gone s)

include hs

theorem Backed.congr (h : ∀ id, id ∈ ids' ↔ id ∈ ids) : Backed ids' gone s where
  there id hid := hs.there id ((h id).1 hid)
  backed id := by
    simp only [hs.backed id, h id]
  closed := hs.closed

/-- The rows that were admitted and released stay so. -/
theorem Backed.kept (h : RowsStep p s s') : (∀ id ∈ ids, s'.reservations.find? id ≠ none) ∧
      ∀ id ∈ gone, ∃ r, s'.reservations.find? id = some r ∧ r.toWork.Closed := by
  refine ⟨fun id hid => ?_, fun id hid => ?_⟩
  · obtain ⟨r, hr⟩ := Option.ne_none_iff_exists'.1 (hs.there id hid)
    obtain ⟨r', hr', -⟩ := h.kept id r hr
    simp [hr']
  · obtain ⟨r, hr, hclose⟩ := hs.closed id hid
    obtain ⟨r', hr', hstep⟩ := h.kept id r hr
    exact ⟨r', hr', hstep.closed hclose⟩

/-- What keeps the rows and the payments keeps the backing. -/
theorem Backed.of_rows (h : RowsStep p s s')
    (hbacking : ∀ id, s'.backing id = s.backing id) : Backed ids gone s' :=
  ⟨(hs.kept h).1, fun id => (hbacking id).trans (hs.backed id), (hs.kept h).2⟩

theorem Backed.inserted {r : IntakeReservation} (hamt : 0 < amount)
    (h : Inserted block amount s n r s') :
    Backed (ids ++ if r.status ∈ admittedStatuses then [r.reservationId K] else []) gone s' := by
  have hfind (id : Digest) (r' : IntakeReservation) (hr' : s.reservations.find? id = some r') :
      s'.reservations.find? id = some r' := by
    obtain ⟨hmem, hid⟩ := find?_eq_some.1 hr'
    exact find?_eq_some.2 ⟨h.rows ▸ mem_append_left _ hmem, hid⟩
  refine ⟨?_, fun id => ?_, ?_⟩
  · intro id hid
    rcases mem_append.1 hid with hid | hid
    · obtain ⟨r', hr'⟩ := Option.ne_none_iff_exists'.1 (hs.there id hid)
      simp [hfind id r' hr']
    · split_ifs at hid with hr
      · rw [mem_singleton.1 hid]
        have hmem : r ∈ s'.reservations.rows := by
          rw [h.rows]
          simp
        simp [find?_of_mem hmem]
      · cases hid
  · rw [h.backing hamt, hs.backed id]
    by_cases hid : r.status ∈ admittedStatuses ∧ id = r.reservationId K
    · obtain ⟨hr, rfl⟩ := hid
      -- The reservation is new, so it was neither admitted nor released.
      have hnew : r.reservationId K ∉ ids := fun hmem => hs.there _ hmem h.fresh
      have hkept : r.reservationId K ∉ gone := by
        intro hmem
        obtain ⟨r', hr', -⟩ := hs.closed _ hmem
        exact absurd (h.fresh.symm.trans hr') (by simp)
      simp [hr, hnew, hkept]
    · rw [if_neg hid, Nat.add_zero]
      by_cases hr : r.status ∈ admittedStatuses
      · have hne : id ≠ r.reservationId K := fun heq => hid ⟨hr, heq⟩
        simp [hr, hne]
      · simp [hr]
  · intro id hid
    obtain ⟨r', hr', hclose⟩ := hs.closed id hid
    exact ⟨r', hfind id r' hr', hclose⟩

variable {arrivals : List FinalizedArrival} {new : List IntakeReservation}

theorem Admits.backed (h : Admits block amount s n arrivals new s') (hamt : 0 < amount) :
    Backed (ids ++ (new.filter (·.status ∈ admittedStatuses)).map (·.reservationId K)) gone
      s' := by
  induction h generalizing ids with
  | nil => simpa using hs
  | known _ _ ih => exact ih hs
  | @insert s s₁ s' n r arrivals new hins _ ih =>
    refine (ih (hs.inserted hamt hins)).congr fun id => ?_
    by_cases hr : r.status ∈ admittedStatuses <;> simp [hr]

theorem Backed.called (hamt : 0 < amount) (h : Called arrivals block amount s new s') :
    Backed (ids ++ (new.filter (·.status ∈ admittedStatuses)).map (·.reservationId K)) gone
      s' := by
  have hstart : Backed ids gone h.start := by
    obtain ⟨s₁, h₁, h₂⟩ := h.expired
    have hstep : QueueStep {} s h.start :=
      (expireStaleRows_step h₁).trans rfl (activateDeferred_step h₂)
    obtain ⟨hpayments, hcreds⟩ := hstep.moves.payments rfl
    exact hs.of_rows hstep.toRowsStep fun id => backing_congr hpayments hcreds
  obtain ⟨cursor, hres⟩ := h.result
  have hstop := h.admits.backed hstart hamt
  rw [hres]
  exact ⟨hstop.there, hstop.backed, hstop.closed⟩

theorem Backed.released {target : String}
    (h : s.markTargetUnavailable owner target = .ok s') : Backed ids (gone ++ [owner]) s' := by
  obtain ⟨hthere, hclose⟩ := hs.kept (markUnavailable_step h).toRowsStep
  simp only [markTargetUnavailable, bind_ok, exists_check] at h
  obtain ⟨-, h⟩ := h
  have hreason : "target_unavailable:" ++ target ≠ automaticExpiryReason := by
    intro heq
    have hhead := congrArg (fun text : String => text.toList.head?) heq
    simp [automaticExpiryReason] at hhead
  refine ⟨hthere, fun id => ?_, ?_⟩
  · rw [expireBeforeClaim_backing h, hs.backed id]
    by_cases hid : id = owner <;> simp [hid]
  · intro id hid
    rcases mem_append.1 hid with hid | hid
    · exact hclose id hid
    · rw [mem_singleton.1 hid]
      simp only [expireBeforeClaim, bind_ok, exists_check] at h
      obtain ⟨-, -, row, hrow, -, s₁, h₁, h⟩ := h
      cases h
      exact ⟨_, (find?_updateReservation h₁ (get_iff.1 hrow)).1, .inr ⟨rfl, hreason⟩⟩

end

/-- A new credit backs nothing. -/
theorem backing_grantCredit {credit : EvalCostCredit} :
    (s.step (.queue (.grantCredit credit))).backing id = s.backing id := by
  refine committed_cases (I := fun s' => s'.backing id = s.backing id) rfl fun s' h => ?_
  simp only [bind_ok, get_ok] at h
  obtain ⟨creds, hinsert, h⟩ := h
  cases h
  show s.paidBy id + creds.rows.countP _ = _
  rw [(rows_of_insert hinsert).1, countP_append]
  rfl

end Store

/-- Reservations are admitted at a positive cost. -/
def Op.PositiveCost {K : IntakeHashes} : Op K → Prop
  | .queue (.reserveFinalized _ _ _ amount) => 0 < amount
  | _ => True

namespace Store

variable {K : IntakeHashes} {s s' : Store K} {ids gone : List Digest}

theorem Backed.step_charging (hs : Backed ids gone s) (op : QueueOp)
    (hop : op.permit.charges = true) (hcost : Op.PositiveCost (K := K) (.queue op)) :
    Backed (ids ++ s.admittedBy (.queue op)) (gone ++ s.releasedBy (.queue op))
      (s.step (.queue op)) := by
  cases op with
  | reserveFinalized arrivals block hash amount =>
    have hquiet : s.releasedBy (.queue (.reserveFinalized arrivals block hash amount)) = [] := rfl
    rw [hquiet, append_nil]
    rcases s.step_reserveFinalized with ⟨hstep, hnone⟩ | ⟨new, ⟨hcall⟩, hadm⟩
    · rwa [hstep, hnone, append_nil]
    · refine (hs.called hcost hcall).congr fun id => ?_
      rw [mem_append, mem_append, hadm]
  | markTargetUnavailable id target =>
    rw [show s.admittedBy (.queue (.markTargetUnavailable id target)) = [] from rfl, append_nil]
    show Backed ids (gone ++ if (s.markTargetUnavailable id target).isOk then [id] else [])
      (s.committed (s.markTargetUnavailable id target)).1
    cases hres : s.markTargetUnavailable id target with
    | error fault => simpa [Except.isOk, Except.toBool, committed] using hs
    | ok s' => exact hs.released hres
  | grantCredit credit =>
    have hrows := (s.step_spec (.queue (.grantCredit credit))).toRowsStep
    have hkept := hs.of_rows hrows fun id => backing_grantCredit
    rw [show s.admittedBy (.queue (.grantCredit credit)) = [] from rfl,
      show s.releasedBy (.queue (.grantCredit credit)) = [] from rfl, append_nil,
      append_nil]
    exact hkept
  | _ => cases hop

theorem Backed.step (hs : Backed ids gone s) (op : Op K) (hop : op.PositiveCost) :
    Backed (ids ++ s.admittedBy op) (gone ++ s.releasedBy op) (s.step op) := by
  have hrows := (s.step_spec op).toRowsStep
  by_cases hquiet : op.permit.charges = false
  · obtain ⟨hadm, hrel⟩ := quiet_of_charges (s := s) hquiet
    rw [hadm, hrel, append_nil, append_nil]
    obtain ⟨hpayments, hcreds⟩ := hrows.moves.payments hquiet
    exact hs.of_rows hrows fun id => backing_congr hpayments hcreds
  · cases op with
    | queue op => exact hs.step_charging op (Bool.eq_true_of_not_eq_false hquiet) hop
    | _ => exact absurd rfl hquiet

theorem backed_run {ops : List (Op K)} (hops : ∀ op ∈ ops, op.PositiveCost)
    (hs : Backed [] [] s) : Backed (s.admitted ops) (s.released ops) (s.run ops) := by
  induction ops using List.reverseRecOn with
  | nil => exact hs
  | append_singleton ops op ih =>
    have hbef := ih fun op hop => hops op (mem_append_left _ hop)
    unfold admitted released
    rw [gathered_concat, gathered_concat, run_concat]
    exact hbef.step op (hops op (by simp))

end Store

open Store

/-- **No admission is paid for twice, and none goes unpaid.**  At every point of a run with a
positive evaluation cost, a payment and a credit back at most one reservation; an admitted
reservation is backed by exactly one of them until it is released, and a released one is closed;
nothing else is backed. -/
theorem evalCost_backing {K : IntakeHashes} (policy : IntakePolicy) (recoverable : Bool)
    {ops : List (Op K)} (hops : ∀ op ∈ ops, op.PositiveCost) :
    let start := init K policy recoverable
    let s := start.run ops
    (∀ pointer, s.payments.rows.countP (·.pointer = pointer) ≤ 1) ∧
    (∀ credit, s.credits.rows.countP (·.creditId = credit) ≤ 1) ∧
    (∀ id ∈ start.admitted ops, id ∉ start.released ops →
      s.paidBy id = 1 ∧ s.creditedBy id = 0 ∨ s.paidBy id = 0 ∧ s.creditedBy id = 1) ∧
    (∀ id ∈ start.released ops, ∃ r, s.reservations.find? id = some r ∧
      r.status ∈ [.failed, .expired]) ∧
    ∀ id, id ∉ start.admitted ops ∨ id ∈ start.released ops →
      s.paidBy id = 0 ∧ s.creditedBy id = 0 := by
  intro start s
  have hbacked : Backed (start.admitted ops) (start.released ops) s := by
    refine backed_run hops ⟨?_, fun id => ?_, ?_⟩
    · exact fun id hid => nomatch hid
    · rw [if_neg fun h => nomatch h.1]
      rfl
    · exact fun id hid => nomatch hid
  refine ⟨fun pointer => ?_, fun credit => ?_, ?_, ?_, ?_⟩
  · exact countP_key_le
  · exact countP_key_le
  · intro id hid hkept
    have hone := hbacked.backed id
    rw [if_pos ⟨hid, hkept⟩, backing] at hone
    omega
  · intro id hid
    obtain ⟨r, hr, hfail | ⟨hexp, -⟩⟩ := hbacked.closed id hid
    · exact ⟨r, hr, by simp [hfail]⟩
    · exact ⟨r, hr, by simp [hexp]⟩
  · intro id hid
    have hnone := hbacked.backed id
    rw [if_neg (by tauto), backing] at hnone
    omega

namespace Sample

/-- One credit and two submissions of an account. -/
def oneCredit : List (Op intakeHashes) :=
  [.queue (.grantCredit ⟨.ofNat 900, "alice", 1, none, 0⟩),
    .queue (.reserveFinalized [sampleArrival 1 alice, sampleArrival 2 alice] 2 (.ofNat 202) 5)]

end Sample

/-- The first submission is admitted with the credit, and the second is not. -/
theorem evalCost_backing_sample :
    let start := init intakeHashes {} false
    let s := start.run Sample.oneCredit
    start.admitted Sample.oneCredit = [sampleId 1] ∧
      (s.paidBy (sampleId 1) = 1 ∧ s.creditedBy (sampleId 1) = 0 ∨
        s.paidBy (sampleId 1) = 0 ∧ s.creditedBy (sampleId 1) = 1) ∧
      s.paidBy (sampleId 2) = 0 ∧ s.creditedBy (sampleId 2) = 0 := by
  intro start s
  have hops : ∀ op ∈ Sample.oneCredit, op.PositiveCost := by
    intro op hop
    rcases mem_pair.1 hop with rfl | rfl
    · exact trivial
    · exact Nat.succ_pos 4
  obtain ⟨-, -, hkept, -, hnone⟩ := evalCost_backing {} false hops
  have hadm : start.admitted Sample.oneCredit = [sampleId 1] := by decide
  refine ⟨hadm, hkept _ ?_ ?_, hnone _ (.inl ?_)⟩ <;> decide

end Cacheon
