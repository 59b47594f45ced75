import Cacheon.Weights.Reconcile

/-!
# What a call must have read

One call of the publication code confirms and signs at many places, after up to three readings of
the validator's row.  Whatever the journal and the readings are:

* `ReconcileRequest.ReadBack` : the reading behind a `confirmed` record: a row that carries the
  projected vector, at the recorded block, not older than the recorded submission.
* `ReconcileRequest.Due` : the row at the signing block calls for a submission.
* `ReconcileRequest.reconcile_grounded` : every swap and every submission of a call is behind
  one of these, wherever the call stops.
-/

namespace Cacheon

open PublicationFault Fallible Durable

namespace ReconcileRequest

variable (env : PublicationEnv) (q : ReconcileRequest)

/-- The call reads this row at this metagraph. -/
def ReadsRow (m : MetagraphView) (row : ValidatorWeightSnapshot) : Prop :=
  q.readings.live = .ok m ∧ q.readings.pre = .ok row ∨
  q.readings.signing = .ok m ∧ q.readings.signingPre = .ok row ∨
  q.readings.post = .ok m ∧ q.readings.postRow = .ok row

/-- The call read the projected vector on chain, where the record says. -/
def ReadBack (r : WeightPublicationRecord) : Prop :=
  ∃ m row, q.ReadsRow m row ∧ q.isPublished env row ∧ r.val.projectionDigest = q.digest env ∧
    r.val.confirmedBlock = m.block ∧ r.val.confirmedLastUpdate = row.lastUpdateBlock ∧
    (0 < r.val.submitBlock → r.val.submitBlock ≤ row.lastUpdateBlock)

/-- The row that the call reads at the signing block: the first one, unless finality advanced. -/
def SigningRow (m : MetagraphView) (row : ValidatorWeightSnapshot) : Prop :=
  q.readings.signing = .ok m ∧ ∃ live, q.readings.live = .ok live ∧
    (live.block = m.block ∧ q.readings.pre = .ok row ∨
      live.block < m.block ∧ q.readings.signingPre = .ok row)

/-- A row calls for a submission over a head. -/
def RowDue (block : ℕ) (row : ValidatorWeightSnapshot) (head : JournalHead) :
    Prop :=
  q.isPublished env row = false ∨ q.refreshBlocks ≤ block - row.lastUpdateBlock ∨
    ∃ r, head = some r ∧ r.val.status = .released ∧ row.lastUpdateBlock < r.val.submitBlock

/-- The row at the signing block calls for a submission over a head. -/
def Due (head : JournalHead) : Prop :=
  ∃ m row, q.SigningRow m row ∧ q.RowDue env m.block row head

/-- What the readings of the call must say for an event: a confirmation was read back, and a
submission, which directly follows the swap of its intent, was due over the head before. -/
def Grounded (before : List PublicationEvent) : PublicationEvent → Prop
  | .swapped _ r => r.val.status = .confirmed → q.ReadBack env r
  | .submitted p _ => p = q.projection ∧ ∃ earlier head intent,
      before = earlier ++ [.swapped head intent] ∧ intent.val.status = .intent ∧ q.Due env head

/-- The head is absent or resolved. -/
def ResolvedHead (current : JournalHead) : Prop :=
  ∀ r, current = some r → r.val.status.Resolved

/-- What a call keeps: a fact about the world and the head that holds after a swap, if the record
is no confirmation or was read back, and after a submission that directly follows the swap of its
intent over a resolved head that was due. -/
structure CallInvariant (At : JournalHead → PublicationWorld →
    Prop) : Prop where
  head : ∀ {c w}, At c w → w.state.headRecord = c
  swapped : ∀ {c w r j n}, At c w → (r.val.status = .confirmed → q.ReadBack env r) →
    j.headRecord = some r → At (some r) ⟨j, w.log ++ [.swapped c r], n⟩
  submitted : ∀ {c v w r n}, At c v → ResolvedHead c → q.Due env c → At (some r) w →
    w.log = v.log ++ [.swapped c r] → r.val.status = .intent →
    r.val.projectionDigest = q.digest env →
    At (some r) ⟨w.state, w.log ++ [.submitted q.projection (some r)], n⟩

/-- The fact holds at some head. -/
abbrev Kept (At : JournalHead → PublicationWorld → Prop)
    (w : PublicationWorld) : Prop := ∃ c, At c w

/-- The events after a log are grounded. -/
def GroundedAfter (log : List PublicationEvent) (w : PublicationWorld) : Prop :=
  ∃ events, w.log = log ++ events ∧ Along (q.Grounded env) events

/-- The events are grounded, and the journal has this head. -/
structure GroundedAt (log : List PublicationEvent) (current : JournalHead)
    (w : PublicationWorld) : Prop where
  grounded : q.GroundedAfter env log w
  head : w.state.headRecord = current

variable {env} {q} {log : List PublicationEvent} {current : JournalHead}
  {m : MetagraphView} {row : ValidatorWeightSnapshot} {o : Opening}

variable {reason : String} {r : WeightPublicationRecord} {c : JournalHead} {fields : RecordFields}

/-- A confirmation of a row that was read is read back; the record's own checks compare the
update with the submission. -/
theorem readBack_of_confirmation {prior : Option Digest} (hread : q.ReadsRow m row)
    (hpub : q.isPublished env row) (hreason : reason ≠ "block_inclusion")
    (hr : r.val = { q.confirmation env c m.block row.lastUpdateBlock reason with
      priorRecordDigest := prior }) : q.ReadBack env r := by
  have hchecks := r.property
  simp only [RecordFields.postInit, bind_ok, exists_check] at hchecks
  obtain ⟨-, -, -, hconf, -⟩ := hchecks
  rw [hr] at hconf
  obtain ⟨-, -, hsubmit⟩ := hconf rfl
  refine ⟨m, row, hread, hpub, ?_, ?_, ?_, fun hpos => ?_⟩ <;> rw [hr]
  · rfl
  · rfl
  · rfl
  · rw [hr] at hpos
    exact hsubmit hpos hreason

/-! ### The readings -/

variable {P E : PublicationWorld → Prop}

/-- The call opens the chain with its first readings. -/
theorem openChain_reading (hE : ∀ w, P w → E w) :
    Triple P (q.openChain env current) (fun o w => P w ∧ q.ReadsRow o.live o.pre ∧
      q.readings.live = .ok o.live ∧ q.readings.pre = .ok o.pre) E := by
  refine .ofExcept hE fun live hlive => ?_
  refine .bind (Reads.triple (.ite .pure .ofExcept) hE) fun bound => ?_
  refine .require hE fun _ => ?_
  refine .bind (Reads.triple (.ite (.bind .require fun _ => .bind .require fun _ =>
    .require) .pure) hE) fun _ => ?_
  refine .require hE fun _ => ?_
  refine .ofExcept hE fun pre hpre => ?_
  refine .require hE fun _ => ?_
  exact .pure fun w h => ⟨h, .inl ⟨hlive, hpre⟩, hlive, hpre⟩

/-- The row after the submission is the last reading of the call. -/
theorem readAfterSubmission_reading {post : MetagraphView}
    (h : q.readAfterSubmission env m = .ok (post, some row)) :
    q.readings.post = .ok post ∧ q.readings.postRow = .ok row := by
  simp only [readAfterSubmission, bind_ok, exists_check] at h
  obtain ⟨post', hpost, -, h⟩ := h
  by_cases huids : q.authorityUidsUnchanged m post'
  · rw [if_pos huids] at h
    simp only [bind_ok, exists_check] at h
    obtain ⟨row', hrow, -, h⟩ := h
    cases h
    exact ⟨hpost, hrow⟩
  · rw [if_neg huids] at h
    cases h

theorem signingAuthority_reading (hE : ∀ w, P w → E w) :
    Triple P (q.signingAuthority env o) (fun m w => P w ∧ q.readings.signing = .ok m ∧
      o.live.block ≤ m.block) E := by
  refine .require hE fun _ => ?_
  refine .ofExcept hE fun hotkey _ => ?_
  refine .require hE fun _ => ?_
  refine .require hE fun _ => ?_
  refine .ofExcept hE fun m hm => ?_
  refine .require hE fun hle => ?_
  refine .require hE fun _ => ?_
  refine .require hE fun _ => ?_
  exact .pure fun w h => ⟨h, hm, hle⟩

/-! ### Journal steps -/

section Call

variable {At : JournalHead → PublicationWorld → Prop}
  (hI : q.CallInvariant env At) {α : Type} {f : WeightPublicationRecord → α}
  {Q : α → PublicationWorld → Prop}

include hI

/-- One swap: a record that is no confirmation, or one that was read back, becomes the head. -/
theorem CallInvariant.advance (h : ∀ r : WeightPublicationRecord,
      r.val = { fields with priorRecordDigest := current.map env.hashes.record } →
      fields.status = .confirmed → q.ReadBack env r) :
    Triple (At current) (q.advance env current fields) (fun r w => At (some r) w ∧
        r.val = { fields with priorRecordDigest := current.map env.hashes.record } ∧
        ∃ v, At current v ∧ w.log = v.log ++ [.swapped current r]) (Kept At) := by
  refine .ofExcept (fun w hw => ⟨_, hw⟩) fun r hr => ?_
  replace hr := WeightPublicationRecord.val_of_ofFields hr
  refine .bind (R := fun _ w => At (some r) w ∧
    ∃ v, At current v ∧ w.log = v.log ++ [.swapped current r])
    (.effect ?_ fun w hw => ⟨_, hw⟩) fun _ => .pure fun _ h => ⟨h.1, hr, h.2⟩
  intro w j ev n hw hcas
  obtain ⟨j', hj', hev⟩ := bind_ok.1 hcas
  cases hev
  rw [hI.head hw]
  have hback (hstat : r.val.status = .confirmed) : q.ReadBack env r := by
    rw [hr] at hstat
    exact h r hr hstat
  have hnext : At (some r) ⟨j, w.log ++ [.swapped current r], n⟩ :=
    hI.swapped hw hback (Journal.headRecord_of_swap hj')
  exact ⟨⟨hnext, w, hw, rfl⟩, _, hnext⟩

/-- A swap of a record that confirms nothing. -/
theorem CallInvariant.advance_other (h : fields.status ≠ .confirmed) :
    Triple (At current) (q.advance env current fields) (fun r => At (some r)) (Kept At) :=
  (hI.advance fun _ _ hstat => absurd hstat h).conseq (fun _ => id) fun _ _ h => h.1

/-- A swap that confirms a row of the call. -/
theorem CallInvariant.confirm (hread : q.ReadsRow m row) (hpub : q.isPublished env row)
    (hreason : reason ≠ "block_inclusion") (hQ : ∀ r w, At (some r) w →
      r.val.status = .confirmed ∧ r.val.projectionDigest = q.digest env → Q (f r) w) :
    Triple (At current) (do return f (← q.advance env current
      (q.confirmation env c m.block row.lastUpdateBlock reason))) Q (Kept At) := by
  refine .bind (hI.advance fun r hr _ =>
    readBack_of_confirmation hread hpub hreason hr) fun r => .pure fun w h => ?_
  obtain ⟨hw, hr, -⟩ := h
  refine hQ r w hw ?_
  rw [hr]
  exact ⟨rfl, rfl⟩

theorem CallInvariant.hold (hQ : ∀ r w, At (some r) w → Q (f r) w) :
    Triple (At (some r)) (do return f (← q.held env r reason)) Q (Kept At) :=
  .bind (hI.advance_other nofun) fun r => .pure (hQ r)

theorem CallInvariant.releaseWeightPublicationHold :
    Triple (At current) (q.releaseWeightPublicationHold env reason) (fun r => At (some r))
      (Kept At) := by
  have hstop (w : PublicationWorld) (h : At current w) : Kept At w := ⟨_, h⟩
  refine .require hstop fun _ => ?_
  refine .bind (.read (Q := At) ?_ hstop) fun r => ?_
  · intro w r hw hload
    rwa [← Journal.headRecord_of_load hload, hI.head hw]
  cases r with
  | none => exact .raise fun _ h => ⟨_, h⟩
  | some r =>
    exact .require (fun _ h => ⟨_, h⟩) fun _ => hI.advance_other nofun

/-! ### The branches of one call -/

theorem CallInvariant.reconcileOnlyHead (hread : q.ReadsRow o.live o.pre) :
    Triple (At current) (q.reconcileOnlyHead env o current) (fun _ => Kept At) (Kept At) := by
  have hstop (w : PublicationWorld) (h : At current w) : Kept At w := ⟨_, h⟩
  cases current with
  | none => exact .raise hstop
  | some r =>
    refine .require hstop fun _ => ?_
    refine .require hstop fun _ => ?_
    refine .ite (fun _ => ?_) fun _ => ?_
    · refine .require hstop fun _ => ?_
      refine .require hstop fun hexact => ?_
      exact hI.confirm hread hexact.1 (by decide) fun _ _ h _ => ⟨_, h⟩
    · refine .require hstop fun hpub => ?_
      refine .require hstop fun _ => ?_
      refine .require hstop fun _ => ?_
      refine .ite (fun _ => .pure hstop) fun _ => ?_
      exact hI.confirm hread hpub (by decide) fun _ _ h _ => ⟨_, h⟩

theorem CallInvariant.releaseAbsentAttempt :
    Triple (At current) (q.releaseAbsentAttempt env o current) At (Kept At) := by
  cases current with
  | none => exact .pure fun _ h => h
  | some r =>
    refine .ite (fun _ => ?_) fun _ => .pure fun _ h => h
    refine .bind (Reads.triple (.ite .pure (.bind .ofExcept fun _ => .pure))
      fun _ h => ⟨_, h⟩) fun absent => ?_
    refine .ite (fun _ => ?_) fun _ => .pure fun _ h => h
    exact .bind hI.releaseWeightPublicationHold fun _ => .pure fun _ h => h

theorem CallInvariant.settleUnresolved (hread : q.ReadsRow o.live o.pre) :
    Triple (At (some r)) (q.settleUnresolved env o r) (fun _ => Kept At) (Kept At) := by
  have hkeep {res : WeightPublicationResult} : Triple (At (some r))
      (pure res : Publication _) (fun _ => Kept At) (Kept At) :=
    .pure fun _ h => ⟨_, h⟩
  refine .ite (fun _ => hI.hold fun _ _ h => ⟨_, h⟩) fun _ => ?_
  refine .ite (fun _ => hkeep) fun _ => ?_
  refine .ite (fun _ => hI.hold fun _ _ h => ⟨_, h⟩) fun _ => ?_
  refine .ite (fun hexact => ?_) fun _ => ?_
  · exact hI.confirm hread hexact.1 (by decide) fun _ _ h _ => ⟨_, h⟩
  · exact .ite (fun _ => hkeep) fun _ => hI.hold fun _ _ h => ⟨_, h⟩

section

variable (hres : ResolvedHead current)

include hres

/-- After a resolved head was settled, the call is over, or the head is as before and the first
row calls for a submission over it. -/
theorem CallInvariant.settleResolved (hread : q.ReadsRow o.live o.pre) :
    Triple (At current) (q.settleResolved env o current) (fun res w => if res.isSome then Kept At w
        else At current w ∧ q.RowDue env o.live.block o.pre current)
      (Kept At) := by
  have hdue (hnot : ¬ (q.isPublished env o.pre ∧
      o.live.block - o.pre.lastUpdateBlock < q.refreshBlocks)) :
      q.RowDue env o.live.block o.pre current := by
    by_cases hpub : q.isPublished env o.pre
    · exact .inr (.inl (not_lt.1 fun hlt => hnot ⟨hpub, hlt⟩))
    · exact .inl (by simpa using hpub)
  cases current with
  | none =>
    refine .ite (fun hfresh => ?_) fun hnot => .pure fun _ h => ⟨h, hdue hnot⟩
    exact hI.confirm hread hfresh.1 (by decide) fun _ _ h _ => ⟨_, h⟩
  | some r =>
    refine .ite (fun _ => ?_) fun hconf => ?_
    · refine .ite (fun _ => ?_) fun _ => ?_
      · exact hI.hold fun _ _ h => ⟨_, h⟩
      · refine .ite (fun hfresh => ?_) fun hnot => .pure fun _ h => ⟨h, hdue hnot⟩
        refine .ite (fun _ => ?_) fun _ => .pure fun _ h => ⟨_, h⟩
        exact hI.confirm hread hfresh.1 (by decide) fun _ _ h _ => ⟨_, h⟩
    · refine .ite (fun hlate => ?_) fun hnot => .pure fun _ h => ⟨h, ?_⟩
      · exact hI.confirm hread hlate.2.1.1 (by decide) fun _ _ h _ => ⟨_, h⟩
      have hrel : r.val.status = .released := (hres r rfl).resolve_left hconf
      by_cases hfresh : q.isPublished env o.pre ∧
          o.live.block - o.pre.lastUpdateBlock < q.refreshBlocks
      · exact .inr (.inr ⟨r, rfl, hrel, not_le.1 fun hle => hnot ⟨hrel, hfresh, hle⟩⟩)
      · exact hdue hfresh

/-! ### Signing -/

/-- Binding a published vector confirms it, unless a released attempt is newer than the row. -/
theorem CallInvariant.bindPublished (hread : q.ReadsRow m row) (hpub : q.isPublished env row) :
    Triple (At current) (q.bindPublished env m row current) (fun c w => At c w ∧ ∃ r, c = some r ∧
        (r.val.status = .confirmed ∧ r.val.projectionDigest = q.digest env ∨
          r.val.status = .released ∧ row.lastUpdateBlock < r.val.submitBlock))
      (Kept At) := by
  cases current with
  | none => exact hI.confirm hread hpub (by decide) fun r _ h hr => ⟨h, r, rfl, .inl hr⟩
  | some head =>
    refine .ite (fun _ => ?_) fun hother => .ite (fun _ => ?_) fun hnewer => ?_
    · exact hI.confirm hread hpub (by decide) fun r _ h hr => ⟨h, r, rfl, .inl hr⟩
    · exact hI.confirm hread hpub (by decide) fun r _ h hr => ⟨h, r, rfl, .inl hr⟩
    refine .pure fun _ h => ⟨h, head, rfl, ?_⟩
    rcases hres head rfl with hconf | hrel
    · exact .inl ⟨hconf, not_not.1 fun hne => hother ⟨hconf, hne⟩⟩
    · exact .inr ⟨hrel, not_le.1 fun hle => hnewer ⟨hrel, hle⟩⟩

/-- The head that a call signs over is one that the row at the signing block calls to replace. -/
theorem CallInvariant.resettleBeforeSigning (hlive : q.readings.live = .ok o.live)
    (hpre : q.readings.pre = .ok o.pre) (hsigning : q.readings.signing = .ok m)
    (hle : o.live.block ≤ m.block) (hdue : q.RowDue env o.live.block o.pre current) :
    Triple (At current) (q.resettleBeforeSigning env o m current)
      (fun res w => res.elim (fun c => At c w ∧ ResolvedHead c ∧ q.Due env c)
        fun _ => Kept At w) (Kept At) := by
  refine .ite (fun hlt => ?_) fun hnot => ?_
  · refine .ofExcept (fun _ h => ⟨_, h⟩) fun row hrow => ?_
    refine .require (fun _ h => ⟨_, h⟩) fun _ => ?_
    have hsigningRow : q.SigningRow m row := ⟨hsigning, o.live, hlive, .inr ⟨hlt, hrow⟩⟩
    refine .ite (fun hfresh => ?_) fun hnot => ?_
    · refine .bind (hI.bindPublished hres (.inr (.inl ⟨hsigning, hrow⟩))
        hfresh.1) fun c => .given fun hc => ?_
      obtain ⟨head, rfl, hhead⟩ := hc
      refine .ite (fun _ => .pure fun _ h => ⟨_, h⟩) fun hother => ?_
      have hnewer := hhead.resolve_left hother
      refine .pure fun _ h => ⟨h, ?_, m, row, hsigningRow, .inr (.inr ⟨head, rfl, hnewer⟩)⟩
      rintro _ ⟨⟩
      exact .inr hnewer.1
    · refine .pure fun _ h => ⟨h, hres, m, row, hsigningRow, ?_⟩
      by_cases hpub : q.isPublished env row
      · exact .inr (.inl (not_lt.1 fun hlt => hnot ⟨hpub, hlt⟩))
      · exact .inl (by simpa using hpub)
  · -- Finality did not advance, so the first row is the row at the signing block.
    have hblk : o.live.block = m.block := by omega
    rw [hblk] at hdue
    exact .pure fun _ h =>
      ⟨h, hres, m, o.pre, ⟨hsigning, o.live, hlive, .inl ⟨hblk, hpre⟩⟩, hdue⟩

end

theorem CallInvariant.settleSubmitted {pending : WeightPublicationRecord} {submitted : Bool} :
    Triple (At (some pending)) (q.settleSubmitted env m pending submitted) (fun _ => Kept At)
      (Kept At) := by
  unfold ReconcileRequest.settleSubmitted
  split
  · exact hI.hold fun _ _ h => ⟨_, h⟩
  · exact .raise fun _ h => ⟨_, h⟩
  · exact hI.hold fun _ _ h => ⟨_, h⟩
  · rename_i post row hpost
    refine .ite (fun hexact => ?_) fun _ => .pure fun _ h => ⟨_, h⟩
    exact hI.confirm (.inr (.inr (readAfterSubmission_reading hpost))) hexact.1 (by decide)
      fun _ _ h _ => ⟨_, h⟩

/-- A submission directly follows the swap of its intent over a head that was due. -/
theorem CallInvariant.submit (hres : ResolvedHead current) (hdue : q.Due env current) :
    Triple (At current) (q.submit env m current) (fun _ => Kept At) (Kept At) := by
  refine .bind (hI.advance fun _ _ hstat => absurd hstat nofun) fun intent => ?_
  refine .bind (R := fun _ => At (some intent))
    (.bind (.effect ?_ fun _ h => ⟨_, h.1⟩) fun _ => .pure fun _ h => h)
    fun out => ?_
  · rintro w j ev n ⟨hw, hintent, v, hv, hlog⟩ hev
    cases hev
    have hnext : At (some intent)
        ⟨w.state, w.log ++ [.submitted q.projection w.state.headRecord], n⟩ := by
      rw [hI.head hw]
      refine hI.submitted hv hres hdue hw hlog ?_ ?_ <;> rw [hintent] <;> rfl
    exact ⟨hnext, _, hnext⟩
  · cases out with
    | raised | answered =>
      exact .bind (hI.advance_other nofun) fun _ => hI.settleSubmitted

theorem CallInvariant.publish (hlive : q.readings.live = .ok o.live)
    (hpre : q.readings.pre = .ok o.pre)
    (hres : ResolvedHead current)
    (hdue : q.RowDue env o.live.block o.pre current) :
    Triple (At current) (q.publish env o current) (fun _ => Kept At) (Kept At) := by
  refine .bind (signingAuthority_reading fun _ h => ⟨_, h⟩) fun m =>
    .given fun hm => ?_
  refine .bind (hI.resettleBeforeSigning hres hlive hpre hm.1 hm.2 hdue)
    fun res => ?_
  cases res with
  | inr result => exact .pure fun _ h => h
  | inl c =>
    refine .given fun hhead => ?_
    refine .bind (Reads.triple (.bind .ofExcept fun _ => .bind .ofExcept fun _ => .require)
      fun _ h => ⟨_, h⟩) fun _ => ?_
    exact hI.submit hhead.1 hhead.2

theorem CallInvariant.settleOrPublish (hlive : q.readings.live = .ok o.live)
    (hpre : q.readings.pre = .ok o.pre) :
    Triple (At current) (q.settleOrPublish env o current) (fun _ => Kept At) (Kept At) := by
  have hread : q.ReadsRow o.live o.pre := .inl ⟨hlive, hpre⟩
  cases current with
  | none =>
    refine .bind (hI.settleResolved (by rintro _ ⟨⟩) hread) fun res => ?_
    cases res with
    | some result => exact .pure fun _ h => h
    | none => exact .given fun hdue => hI.publish hlive hpre (by rintro _ ⟨⟩) hdue
  | some head =>
    refine .ite (fun _ => hI.settleUnresolved hread) fun hstat => ?_
    have hres (r : WeightPublicationRecord) (hr : some head = some r) : r.val.status.Resolved := by
      cases hr
      exact PublicationStatus.not_unresolved_iff.1 hstat
    refine .bind (hI.settleResolved hres hread) fun res => ?_
    cases res with
    | some result => exact .pure fun _ h => h
    | none => exact .given fun hdue => hI.publish hlive hpre hres hdue

/-- A call keeps what every swap and every submission of it keeps, wherever it stops. -/
theorem CallInvariant.reconcile :
    Triple (Kept At) (q.reconcile env) (fun _ => Kept At) (Kept At) := by
  refine .bind (Reads.triple (.bind .require fun _ => .bind .require fun _ =>
    .bind .require fun _ => .bind .require fun _ => .require) fun _ h => h) fun _ => ?_
  refine .bind (R := fun c w => Kept At w ∧ (q.dryRun = false → At c w)) ?_ fun c => ?_
  · refine .ite (fun hdry => .pure fun w hw => ⟨hw, ?_⟩) fun _ => ?_
    · rw [hdry]
      exact nofun
    · refine .read (fun w c hw hload => ⟨hw, fun _ => ?_⟩) fun _ h => h
      obtain ⟨c', hc'⟩ := hw
      rwa [← Journal.headRecord_of_load hload, hI.head hc']
  · refine .bind (openChain_reading fun _ h => h.1) fun o => ?_
    refine .given fun ⟨hread, hlive, hpre⟩ => ?_
    refine .ite (fun _ => ?_) fun hdry => ?_
    · exact .ofExcept (fun _ h => h.1) fun _ _ => .pure fun _ h => h.1
    · refine .conseq (P := At c) ?_ (fun _ h => h.2 (by simpa using hdry)) fun _ _ h => h
      refine .ite (fun _ => hI.reconcileOnlyHead hread) fun _ => ?_
      exact .bind hI.releaseAbsentAttempt fun _ => hI.settleOrPublish hlive hpre

end Call

theorem groundedAt_invariant : q.CallInvariant env (q.GroundedAt env log) where
  head h := h.head
  swapped := by
    rintro c w r j n ⟨⟨events, hlog, hall⟩, -⟩ hback hj
    have hgrounded : q.Grounded env events (.swapped c r) := hback
    refine ⟨⟨_, ?_, hall.snoc hgrounded⟩, hj⟩
    rw [hlog, List.append_assoc]
  submitted := by
    rintro c v w r n ⟨⟨events, hv, -⟩, -⟩ - hdue ⟨⟨events', hw, hall⟩, hhead⟩ hlog hstat -
    obtain rfl : events' = events ++ [.swapped c r] := by
      rw [hlog, hv, List.append_assoc] at hw
      exact (List.append_cancel_left hw).symm
    have hgrounded : q.Grounded env (events ++ [.swapped c r]) (.submitted q.projection (some r)) :=
      ⟨rfl, events, c, r, rfl, hstat, hdue⟩
    refine ⟨⟨_, ?_, hall.snoc hgrounded⟩, hhead⟩
    rw [hw, List.append_assoc]

/-- **Readings before records.**  Whatever the journal, the readings and the crash point are,
what a call adds to the log is grounded in what it read: a record is confirmed only behind a
row that carries the vector, and a vector is signed only when the row at the signing block
calls for it. -/
theorem reconcile_grounded (env : PublicationEnv) (q : ReconcileRequest) (budget : ℕ)
    (w : PublicationWorld) :
    ∃ events, (call (q.reconcile env) budget w).log = w.log ++ events ∧
      Along (q.Grounded env) events := by
  have hstart : q.GroundedAt env w.log w.state.headRecord { w with budget := budget } :=
    ⟨⟨[], (List.append_nil _).symm, along_nil⟩, rfl⟩
  obtain ⟨_, hend⟩ := groundedAt_invariant.reconcile.call ⟨_, hstart⟩
  exact hend.grounded

end ReconcileRequest

end Cacheon
