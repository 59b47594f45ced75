import Cacheon.Intake.Journal

/-!
# Rebuilding the lineages

The lineages are written twice: by each commit as it crowns, and by `replayLineages`, which
deletes them and replays the crowns of the journal.  Both put one edge per crown, in the order of
the journal, so that they agree on everything a lineage is read from; only the block a crown is
stamped with differs.

* `Retained` : a candidate is the one its retained qualification leads to.
* `Lineages` : the edges are those of the crowns in the journal.
* `backfill_lineages` : the replay leaves every lineage as it was, and repeats itself.
-/

namespace Cacheon

open Fallible IntakeFault HashChain List Option Table

namespace Store

variable {K : IntakeHashes} {s s₁ s' : Store K} {lease : SettlementLease K}
  {ev : List SettlementEvidence} {plan : SettlementPlan} {block : ℕ}
  {resolve : TreeResolver} {p : Permit}

/-! ### Where PASSes come from -/

theorem passes_queue (op : QueueOp) : op.permit.passes = false := by
  cases op <;> rfl

/-- A PASS comes from the outcome of a batch, or from a primary run that an older controller
retained.  What these two keep, and every step without a PASS, is kept by all operations. -/
theorem step_of_passes {I : Store K → Prop}
    (hstep : ∀ (p : Permit) (s s' : Store K), p.passes = false → StoreStep p s s' → I s → I s')
    (hout : ∀ (s s' : Store K) batch block root, ∀ o ∈ batch.outcomes,
      applyOutcome batch block root s o = .ok s' → I s → I s')
    (haccept : ∀ (s s' : Store K) row, s.acceptRetainedPass row = .ok s' → I s → I s')
    (hs : I s) (op : Op K) : I (s.step op) := by
  have hbatch {s s' : Store K} {batch : QualificationIntakeBatch K}
      {block : ℕ} {root : Option String}
      (h : s.applyQualificationBatch batch block root = .ok s') (hs : I s) : I s' := by
    simp only [applyQualificationBatch, bind_ok, exists_check] at h
    exact foldlM_invariant h.2.2.2 hs fun _ o _ ho => hout _ _ batch block root o ho
  by_cases hp : op.permit.passes = false
  · exact hstep _ _ _ hp (s.step_spec op) hs
  · cases op with
    | queue op => exact absurd (passes_queue op) hp
    | applyBatch => exact committed_cases hs fun _ h => hbatch h hs
    | acceptResult =>
      rcases acceptResult_parts rfl with hqueue | ⟨s₁, s₂, h₁, h₂, h₃⟩
      · exact hstep {} _ _ rfl (.of_queue hqueue) hs
      · have hgraded : I s₂ := hbatch h₂ (hstep _ _ _ rfl (.of_queue h₁) hs)
        exact hstep {} _ _ rfl (.of_queue h₃) hgraded
    | restart policy recov =>
      have hfirst : I (s.reopen policy recov).finalizeRewardPrefix :=
        hstep _ _ _ rfl finalizePrefix_step (hstep {} _ _ rfl reopen_step hs)
      show I (s.restart policy recov).1
      unfold restart
      simp only
      split
      · exact hfirst
      · next s₁ h₁ =>
        have hrecovered := hstep {} _ _ rfl (interrupted_step h₁) hfirst
        refine committed_cases hrecovered fun s₂ h₂ => ?_
        exact foldlM_invariant h₂ hrecovered fun _ row _ _ => haccept _ _ row
    | _ => exact absurd rfl hp

/-! ### Candidates and their qualifications -/

/-- The one retained run of a reservation makes its candidate. -/
def RetainedAs (s : Store K) (id : Digest) (c : SettlementCandidate K) : Prop :=
  ∃ item, s.retained id = [item] ∧ item.reproductionIndex = 0 ∧
    c.fields = ⟨item.qualification, none⟩

/-- Every candidate is the one its retained qualification leads to. -/
def Retained (s : Store K) : Prop :=
  ∀ id row, s.candidates.find? id = some row → s.RetainedAs id row.candidate

theorem Retained.step (hp : p.passes = false) (hstep : StoreStep p s s') (h : s.Retained) :
    s'.Retained := by
  intro id row' hrow'
  rcases hstep.candidateBack hrow' with ⟨row, hrow, hrowStep⟩ | hnone
  · obtain ⟨item, hitem, hindex, hfields⟩ := h id row hrow
    refine ⟨item, ?_, hindex, ?_⟩
    · unfold retained at hitem ⊢
      rwa [hstep.qualifications hp]
    · rw [hrowStep.kept]
      exact hfields
  · have hnew := (hstep.newCandidate id row' hrow' hnone).1
    rw [hp] at hnew
    cases hnew

variable {q : Qualification K} {row : IntakeReservation} {root : String}

/-- A candidate that is added for a retained run. -/
theorem Retained.insertCandidate {item : RetainedQualification} (h : s.Retained)
    (hins : s.insertCandidate q root = .ok s') (hitem : s.retained q.val.reservationDigest = [item])
    (hindex : item.reproductionIndex = 0) (hq : item.qualification = q.val) : s'.Retained := by
  obtain ⟨c, t, hfields, -, -, -, ht, rfl⟩ := insertCandidate_spec hins
  intro id row hrow
  have hfind := (find?_of_insert ht (k := id)).symm.trans hrow
  split_ifs at hfind with hid
  · cases hfind
    have hkey : id = q.val.reservationDigest :=
      hid.trans (congrArg (·.primary.reservationDigest) hfields)
    exact ⟨item, hkey ▸ hitem, hindex, hq ▸ hfields⟩
  · exact h id row hfind

variable {batch : QualificationIntakeBatch K}
  {o : QualificationIntakeOutcome K} {root : Option String}

theorem Retained.retainOutcome {ref : Option EvidenceArtifactRef} {digest : Option Digest}
    (hid : o.reservationDigest = row.reservationId K) (h : s.Retained)
    (hretain : s.retainOutcome batch row o ref digest root block = .ok s') : s'.Retained := by
  obtain ⟨-, rfl⟩ | ⟨q, ref, root, t, -, hsame, hnone, hretained, hins⟩ :=
    retainOutcome_cases hretain
  · exact h
  refine Retained.insertCandidate ?_ hins
    (show _ = [(⟨0, q.val, ref, root, block⟩ : RetainedQualification)] from ?_) rfl rfl
  · intro id row' hrow'
    obtain ⟨item, hitem, hindex, hfields⟩ := h id row' hrow'
    refine ⟨item, ?_, hindex, hfields⟩
    -- The reservation has a run already, so the new one is of another reservation.
    rw [hretained, hitem, if_neg, append_nil]
    rintro rfl
    rw [hid, hnone] at hitem
    cases hitem
  · rw [hretained, hsame, if_pos rfl, hid, hnone]
    rfl

theorem Retained.applyOutcome (h : s.Retained)
    (happly : Store.applyOutcome batch block root s o = .ok s') : s'.Retained := by
  simp only [Store.applyOutcome, bind_ok, exists_check] at happly
  obtain ⟨row, hrow, -, s₂, h₂, happly⟩ := happly
  have hid := (find?_eq_some.1 (get_iff.1 hrow)).2
  have hretained : s₂.Retained := by
    refine Retained.retainOutcome hid.symm ?_ h₂
    exact h
  obtain rfl := updateReservations_eq happly
  exact hretained

theorem Retained.acceptRetainedPass (h : s.Retained) (haccept : s.acceptRetainedPass row = .ok s') :
    s'.Retained := by
  obtain ⟨item, _, s₁, hitem, hid, hindex, h₁, h₂⟩ := acceptRetainedPass_ok haccept
  obtain rfl := updateReservations_eq h₂
  have hinserted : s₁.Retained := h.insertCandidate h₁ (by rw [hid, hitem]) hindex rfl
  exact hinserted

theorem retained_step (h : s.Retained) (op : Op K) : (s.step op).Retained :=
  step_of_passes (fun _ _ _ hp hstep h => h.step hp hstep)
    (fun _ _ _ _ _ _ _ happly h => h.applyOutcome happly)
    (fun _ _ _ haccept h => h.acceptRetainedPass haccept) h op

/-! ### Edges -/

/-- The crowns of the journal. -/
def crownRows (s : Store K) : List SettlementEventRow :=
  s.events.filter (·.event.eventType = .crown)

/-- The edge that a crown of the journal leads to, whatever block it is stamped with. -/
def EdgeOf (s : Store K) (row : SettlementEventRow) (n : LineageRow) : Prop :=
  ∃ cand contribution r, s.candidates.find? row.reservationId = some cand ∧
    cand.candidate.primary.candidateManifest.entryOf row.event.targetId = some contribution ∧
    s.reservations.find? row.reservationId = some r ∧
    n = lineageNode r.competitionArena cand.candidate contribution.artifactDigest
      ((cand.candidate.primary.incumbentManifest.entryOf row.event.targetId).map
        (·.artifactDigest)) (K.event row.event) n.crownedBlock

/-- The lineages hold one edge per crown of the journal, in order. -/
structure Lineages (s : Store K) : Prop where
  edges : ∃ l, List.Forall₂ s.EdgeOf s.crownRows l ∧ s.nodes = .putAll l ∧ s.tips = .putAll l
  ids : s.DistinctEvents

/-- An edge without the block it was stamped with. -/
def unstamped (n : LineageRow) : LineageRow := { n with crownedBlock := 0 }

variable {row : SettlementEventRow} {n : LineageRow}

theorem EdgeOf.unstamped_eq {n' : LineageRow} (h : s.EdgeOf row n) (h' : s.EdgeOf row n') :
    unstamped n = unstamped n' := by
  obtain ⟨cand, contr, r, hcand, hcontr, hr, hn⟩ := h
  obtain ⟨cand', contr', r', hcand', hcontr', hr', hn'⟩ := h'
  rw [hcand, some_inj] at hcand'
  subst hcand'
  rw [hcontr, some_inj] at hcontr'
  rw [hr, some_inj] at hr'
  rw [hn, hn', hcontr', hr']
  rfl

variable {rows : List SettlementEventRow} {events : List SettlementEvent}

theorem unstamped_of_edges {l l' : List LineageRow} (h : List.Forall₂ s.EdgeOf rows l)
    (h' : List.Forall₂ s.EdgeOf rows l') : l.map unstamped = l'.map unstamped := by
  induction h generalizing l' with
  | nil =>
    cases h'
    rfl
  | cons hedge _ ih =>
    cases h' with
    | cons hedge' h' => rw [map_cons, map_cons, hedge.unstamped_eq hedge', ih h']

theorem EdgeOf.eventId (h : s.EdgeOf row n) : n.transitionEventId = K.event row.event := by
  obtain ⟨_, _, _, -, -, -, hn⟩ := h
  rw [hn]
  rfl

/-- The candidates keep their competitions over one operation. -/
def KeepsArenas (s s' : Store K) : Prop :=
  ∀ c ∈ s.candidates.rows, ∀ r ∈ s.reservationOf c, ∀ r' ∈ s'.reservationOf c,
    r'.competitionArena = r.competitionArena

instance (s s' : Store K) : Decidable (s.KeepsArenas s') := by
  unfold KeepsArenas; infer_instance

theorem EdgeOf.step (hstep : StoreStep p s s') (hkeeps : s.KeepsArenas s') (h : s.EdgeOf row n) :
    s'.EdgeOf row n := by
  obtain ⟨cand, contr, r, hcand, hcontr, hr, hn⟩ := h
  obtain ⟨cand', hcand', hcandStep⟩ := hstep.candidate _ cand hcand
  obtain ⟨r', hr', -⟩ := hstep.kept _ r hr
  obtain ⟨hmem, hkey⟩ := find?_eq_some.1 hcand
  have hsame : cand'.candidate = cand.candidate := by rw [hcandStep.kept]; rfl
  have harena : r'.competitionArena = r.competitionArena :=
    hkeeps cand hmem r ((congrArg s.reservations.find? hkey).trans hr) r'
      ((congrArg s'.reservations.find? hkey).trans hr')
  refine ⟨cand', contr, r', hcand', hsame ▸ hcontr, hr', ?_⟩
  rw [harena, hsame]
  exact hn

/-! ### Commits -/

theorem crowns_of_rows (h : List.Forall₂ (EventRowOf lease) events rows) :
    List.Forall₂ (EventRowOf lease) (events.filter (·.eventType = .crown))
      (rows.filter (·.event.eventType = .crown)) := by
  induction h with
  | nil => exact .nil
  | @cons e row events rows hrow _ ih =>
    rw [filter_cons, filter_cons, hrow.event]
    split_ifs
    · exact .cons hrow ih
    · exact ih

theorem SettlementCandidate.eq_of_fields {H : SettlementHashes} {c d : SettlementCandidate H}
    (h : c.fields = d.fields) : c = d := by
  cases c
  cases h
  rfl

/-- A leased candidate is the candidate in its row. -/
theorem Retained.eq_of_metadata (h : s.Retained) {c : SettlementCandidate K}
    {rcpt : SettlementEvidence} (hmeta : s.settlementEvidenceMetadata c = .ok rcpt)
    {row : CandidateRow K}
    (hrow : s.candidates.find? c.primary.reservationDigest = some row) :
    row.candidate = c := by
  obtain ⟨item, hitem, -, hfields⟩ := h _ row hrow
  simp only [settlementEvidenceMetadata, bind_ok, exists_check] at hmeta
  obtain ⟨-, -, -, -, hquals, -⟩ := hmeta
  rw [hitem] at hquals
  have hruns : [item.qualification] = c.primary :: c.fields.reproduction.toList := hquals
  obtain ⟨hprim, hrepro⟩ := cons.inj hruns
  refine SettlementCandidate.eq_of_fields ?_
  rw [hfields, hprim]
  have hnone : c.fields.reproduction = none := by
    cases hr : c.fields.reproduction with
    | none => rfl
    | some r =>
      rw [hr] at hrepro
      cases hrepro
  show (⟨c.fields.primary, none⟩ : CandidateFields) = c.fields
  rw [← hnone]

/-- A crown is written with the edge that the journal leads to. -/
theorem edge_of_commit (hret : s.Retained) (hkept : Unchanged lease ev block s s₁)
    (hled : s₁.ledger = s.ledger) (hwrote : Written lease ev plan block s₁ s')
    (hdist : DistinctCandidates lease.candidates)
    (hcrown : CrownWritten lease ev plan block s₁ s')
    (hrow : EventRowOf lease hcrown.events.crown row) : s'.EdgeOf row hcrown.crowned.edge := by
  obtain ⟨c, hc, hdig, hresv⟩ := hrow.candidate
  obtain rfl : c = hcrown.winner := hdist.eq_of_digest c hc _ hcrown.mem
    (hdig.trans hcrown.events.crown_candidate)
  obtain ⟨rcpt, hmeta, -⟩ := hkept.evidence _ hc
  obtain ⟨cand, hcand, -⟩ := hkept.leasedRow hc
  have hret₁ : s₁.Retained := by
    unfold Retained RetainedAs retained
    rw [hled]
    exact hret
  have hsame := hret₁.eq_of_metadata hmeta hcand
  obtain ⟨status, _, -, -, hfind⟩ := hwrote.disposed _ hc
  rw [hcand, map_some] at hfind
  refine ⟨_, hcrown.crowned.contribution, hcrown.crowned.row, hresv ▸ hfind, ?_, ?_, ?_⟩
  · rw [hrow.event, hcrown.events.crown_target]
    simp only [CandidateRow.withState, hsame]
    exact hcrown.crowned.contribution_eq
  · rw [hresv, hwrote.queue]
    exact hcrown.crowned.row_eq
  · simp only [CandidateRow.withState, hsame, hrow.event, hcrown.events.crown_target]
    rfl

theorem Lineages.commit (h : s.Lineages) (hret : s.Retained)
    (hcom : s.commitPlan lease ev plan block resolve = .ok s')
    (hkeeps : s.KeepsArenas s') : s'.Lineages := by
  obtain ⟨s₁, hled, hkept, hplan, hwrote⟩ := commitPlan_written hcom
  obtain ⟨l, hedges, hnodes, htips⟩ := h.edges
  have hids : s'.DistinctEvents := by
    refine hwrote.ids ?_
    unfold DistinctEvents
    rw [hled]
    exact h.ids
  have hedges' : List.Forall₂ s'.EdgeOf s.crownRows l :=
    hedges.imp fun _ _ hedge => hedge.step (commitPlan_step hcom) hkeeps
  obtain ⟨rows, hrows, hevs⟩ := hwrote.events
  have hcrowns : s'.crownRows = s.crownRows ++ rows.filter (·.event.eventType = .crown) := by
    unfold crownRows
    rw [hevs, hled, filter_append]
  have hnew := crowns_of_rows hrows
  rcases hwrote.outcome with hhold | hcrown
  · have hnone : plan.events.filter (·.eventType = .crown) = [] := by
      refine filter_eq_nil_iff.2 fun e he => ?_
      simp [hhold.holds e he]
    rw [hnone, forall₂_nil_left_iff] at hnew
    rw [hnew, append_nil] at hcrowns
    refine ⟨⟨l, hcrowns ▸ hedges', ?_, ?_⟩, hids⟩
    · rw [hhold.same.nodes, hled, hnodes]
    · rw [hhold.same.tips, hled, htips]
  · obtain ⟨hcrown⟩ := hcrown
    rw [(filter_crownEvents hcrown.events).1, forall₂_cons_left_iff] at hnew
    obtain ⟨row, _, hrow, hnil, heq⟩ := hnew
    rw [forall₂_nil_left_iff] at hnil
    rw [heq, hnil] at hcrowns
    have hedge := edge_of_commit hret hkept hled hwrote (planSettlement_cases hplan).1 hcrown hrow
    refine ⟨⟨l ++ [hcrown.crowned.edge], ?_, ?_, ?_⟩, hids⟩
    · rw [hcrowns]
      exact rel_append hedges' (.cons hedge .nil)
    · rw [hcrown.crowned.nodes, hled, hnodes, putAll_concat]
      rfl
    · rw [hcrown.crowned.tips, hled, htips, putAll_concat]
      rfl

/-! ### Replaying -/

/-- Stores that differ in their lineages alone. -/
theorem eq_of_clearLineages (h : s'.clearLineages = s.clearLineages) :
    s'.queue = s.queue ∧ s'.candidates = s.candidates ∧ s'.qualifications = s.qualifications ∧
      s'.events = s.events :=
  ⟨congrArg (·.queue) h, congrArg (·.candidates) h, congrArg (·.qualifications) h,
    congrArg (·.events) h⟩

/-- Replaying a crown that leads to an edge adds the edge. -/
theorem replayCrown_ok (hclear :
    s'.clearLineages = s.clearLineages) (hret : s.Retained) (hedge : s.EdgeOf row n)
    (hnew : ∀ m ∈ s'.nodes.rows, m.transitionEventId ≠ K.event row.event) :
    ∃ t m, replayCrown s' row = .ok t ∧ s.EdgeOf row m ∧ t.clearLineages = s.clearLineages ∧
      t.nodes = s'.nodes.put m ∧ t.tips = s'.tips.put m := by
  obtain ⟨cand, contr, r, hcand, hcontr, hr, -⟩ := hedge
  obtain ⟨item, hitem, -⟩ := hret _ cand hcand
  obtain ⟨hqueue, hcands, hquals, -⟩ := eq_of_clearLineages hclear
  have hkey : cand.candidate.primary.reservationDigest = row.reservationId :=
    (find?_eq_some.1 hcand).2
  let m := lineageNode r.competitionArena cand.candidate contr.artifactDigest
    ((cand.candidate.primary.incumbentManifest.entryOf row.event.targetId).map
      (·.artifactDigest)) (K.event row.event) cand.candidate.primary.finalizedBlock
  have hfind : s'.candidates.find? row.reservationId = some cand := by
    rw [hcands]
    exact hcand
  have hget (t : Store K) (ht : t.queue = s'.queue) :
      t.get cand.candidate.primary.reservationDigest = .ok r := by
    rw [get_iff, ht, hqueue, hkey]
    exact hr
  have hwrite : s'.writeLineage cand.candidate contr.artifactDigest
      ((cand.candidate.primary.incumbentManifest.entryOf row.event.targetId).map
        (·.artifactDigest)) (K.event row.event) cand.candidate.primary.finalizedBlock =
        .ok (s'.addNode m) := by
    simp only [writeLineage, bind_ok, exists_check]
    exact ⟨r, hget s' rfl, fun n hn hid => absurd hid (hnew n hn), rfl⟩
  have hretained : (s'.addNode m).retained cand.candidate.primary.reservationDigest = [item] := by
    show s'.qualifications.rows.filter _ = _
    rw [hquals, hkey]
    exact hitem
  have hreplay : ∃ rows, replayCrown s' row =
      .ok ((s'.addNode m).remember (K.event row.event) rows) := by
    simp only [replayCrown, bind_ok, exists_check, get_ok]
    refine ⟨_, cand, hfind, contr, hcontr, _, hwrite, ?_, r, hget _ rfl, rfl⟩
    rw [hretained]
    exact cons_ne_nil _ _
  obtain ⟨rows, hreplay⟩ := hreplay
  exact ⟨_, m, hreplay, ⟨cand, contr, r, hcand, hcontr, hr, rfl⟩, hclear, rfl, rfl⟩

/-- Replaying crowns one by one. -/
theorem replayCrowns_ok (hret : s.Retained) {l₀ l : List LineageRow}
    (hclear : s'.clearLineages = s.clearLineages) (hedges : List.Forall₂ s.EdgeOf rows l)
    (hids : (l₀.map (·.transitionEventId) ++ rows.map fun row => K.event row.event).Nodup)
    (hnodes : s'.nodes = .putAll l₀) (htips : s'.tips = .putAll l₀) :
    ∃ t l', rows.foldlM replayCrown s' = .ok t ∧ List.Forall₂ s.EdgeOf rows l' ∧
      t.clearLineages = s.clearLineages ∧ t.nodes = .putAll (l₀ ++ l') ∧
      t.tips = .putAll (l₀ ++ l') := by
  induction rows generalizing s' l₀ l with
  | nil => exact ⟨s', [], rfl, .nil, hclear, by simpa using hnodes, by simpa using htips⟩
  | cons row rows ih =>
    obtain ⟨n, l, hedge, hrest, rfl⟩ := forall₂_cons_left_iff.1 hedges
    have hnew : ∀ m ∈ s'.nodes.rows, m.transitionEventId ≠ K.event row.event := by
      intro m hm heq
      rw [hnodes] at hm
      have hmem := List.mem_map_of_mem (f := (·.transitionEventId)) (mem_of_mem_putAll hm)
      exact (nodup_append.1 hids).2.2 _ hmem _ (by simp) heq
    obtain ⟨t, m, ht, hm, hclear', hnodes', htips'⟩ := replayCrown_ok hclear hret hedge hnew
    have hids' : ((l₀ ++ [m]).map (·.transitionEventId) ++
        rows.map fun row => K.event row.event).Nodup := by
      rw [map_append, map_singleton, hm.eventId, append_assoc]
      exact hids
    obtain ⟨t', l', ht', hl', hclear'', hnodes'', htips''⟩ := ih hclear' hrest hids'
      (by rw [hnodes', hnodes, putAll_concat]) (by rw [htips', htips, putAll_concat])
    refine ⟨t', m :: l', ?_, .cons hm hl', hclear'', ?_, ?_⟩
    · rw [foldlM_cons, ht]
      exact ht'
    · rw [hnodes'', append_assoc]
      rfl
    · rw [htips'', append_assoc]
      rfl

/-- The replay goes through and leads to the edges of the journal. -/
theorem replayLineages_ok (hjour : s.Journal) (hret : s.Retained) (h : s.Lineages) :
    ∃ t l, s.replayLineages = .ok t ∧ List.Forall₂ s.EdgeOf s.crownRows l ∧
      t.clearLineages = s.clearLineages ∧ t.nodes = .putAll l ∧
      t.tips = .putAll l := by
  obtain ⟨l, hedges, -, -⟩ := h.edges
  have hids : (([] : List LineageRow).map (·.transitionEventId) ++
      s.crownRows.map fun row => K.event row.event).Nodup :=
    h.ids.sublist (filter_sublist.map _)
  obtain ⟨t, l', ht, hl', hclear, hnodes, htips⟩ :=
    replayCrowns_ok hret (rfl : s.clearLineages.clearLineages = _) hedges hids rfl rfl
  refine ⟨t, l', ?_, hl', hclear, hnodes, htips⟩
  unfold replayLineages
  rw [hjour.eventsInOrder]
  exact ht

/-! ### Runs -/

theorem Lineages.step (hp : p.settles = false) (hp' : p.rebuilds = false) (hstep : StoreStep p s s')
    (hkeeps : s.KeepsArenas s') (h : s.Lineages) : s'.Lineages := by
  obtain ⟨l, hedges, hnodes, htips⟩ := h.edges
  have hevs := hstep.events hp
  obtain ⟨hnodes', htips'⟩ := hstep.lineages hp hp'
  have hcrowns : s'.crownRows = s.crownRows := by
    unfold crownRows
    rw [hevs]
  refine ⟨⟨l, ?_, hnodes'.trans hnodes, htips'.trans htips⟩, ?_⟩
  · rw [hcrowns]
    exact hedges.imp fun _ _ hedge => hedge.step hstep hkeeps
  · unfold DistinctEvents
    rw [hevs]
    exact h.ids

theorem Lineages.backfill (hjour : s.Journal) (hret : s.Retained) (h : s.Lineages) :
    (s.step .backfill).Lineages := by
  obtain ⟨t, l, ht, hedges, hclear, hnodes, htips⟩ := replayLineages_ok hjour hret h
  have hafter : s.step .backfill = t := by simp [Store.step, backfillTargetLineageTips, ht]
  obtain ⟨hqueue, hcands, -, hevs⟩ := eq_of_clearLineages hclear
  have hedge {row : SettlementEventRow} {n : LineageRow} (h : s.EdgeOf row n) : t.EdgeOf row n := by
    unfold EdgeOf
    rw [hqueue, hcands]
    exact h
  rw [hafter]
  refine ⟨⟨l, ?_, hnodes, htips⟩, ?_⟩
  · unfold crownRows
    rw [hevs]
    exact hedges.imp fun _ _ => hedge
  · unfold DistinctEvents
    rw [hevs]
    exact h.ids

theorem rebuilds_queue (op : QueueOp) : op.permit.rebuilds = false := by
  cases op <;> rfl

theorem lineages_step (hjour : s.Journal) (hret : s.Retained) (h : s.Lineages) (op : Op K)
    (hkeeps : s.KeepsArenas (s.step op)) : (s.step op).Lineages := by
  by_cases hrebuilds : op.permit.rebuilds = false
  · rcases s.step_cases op with hsame | hp | ⟨_, _, _, _, _, hcom⟩
    · exact hsame.symm ▸ h
    · exact h.step hp hrebuilds (s.step_spec op) hkeeps
    · exact h.commit hret hcom hkeeps
  · cases op with
    | backfill => exact h.backfill hjour hret
    | queue op => exact absurd (rebuilds_queue op) hrebuilds
    | _ => exact absurd rfl hrebuilds

/-- The invariants that the replay rests on hold over every run with fixed competitions. -/
theorem lineages_run {policy : IntakePolicy} {recov : Bool} {ops : List (Op K)}
    (h : (init K policy recov).Along (fun s op => s.KeepsArenas (s.step op)) ops) :
    ((init K policy recov).run ops).Journal ∧ ((init K policy recov).run ops).Retained ∧
      ((init K policy recov).run ops).Lineages := by
  refine h.induction (I := fun s => s.Journal ∧ s.Retained ∧ s.Lineages) ?_ ?_
  · refine ⟨journal_init policy recov, fun id row hrow => ?_, ⟨[], .nil, rfl, rfl⟩, nodup_nil⟩
    cases hrow
  · rintro s op ⟨hjour, hret, hlin⟩ hkeeps
    exact ⟨journal_step hjour op, retained_step hret op, lineages_step hjour hret hlin op hkeeps⟩

/-! ### Reopened lineages -/

theorem place_unstamped (n : LineageRow) : (unstamped n).place = n.place := rfl

theorem target_unstamped (n : LineageRow) : (unstamped n).target = n.target := rfl

section Congr

variable (hnodes : s'.nodes.map unstamped place_unstamped = s.nodes.map unstamped place_unstamped)

include hnodes

/-- The way up a lineage does not look at the blocks of its edges. -/
theorem climb_congr {scope target : String} {fuel : ℕ} {seen : List Digest}
    {nodes : List TargetLineageNode} {artifact : Option Digest} :
    s'.climb scope target fuel seen nodes artifact =
      s.climb scope target fuel seen nodes artifact := by
  induction fuel generalizing seen nodes artifact with
  | zero => cases artifact <;> rfl
  | succ fuel ih =>
    cases artifact with
    | none => rfl
    | some artifact =>
      have hfind : (s'.nodes.find? (scope, target, artifact)).map unstamped =
          (s.nodes.find? (scope, target, artifact)).map unstamped := by
        rw [← find?_map place_unstamped, ← find?_map place_unstamped, hnodes]
      simp only [climb]
      by_cases hseen : artifact ∈ seen
      · rw [if_pos hseen, if_pos hseen]
      · rw [if_neg hseen, if_neg hseen]
        cases hrow : s.nodes.find? (scope, target, artifact) with
        | none =>
          rw [hrow, map_none, map_eq_none_iff] at hfind
          rw [hfind]
        | some row =>
          rw [hrow, map_some, map_eq_some_iff] at hfind
          obtain ⟨row', hrow', heq⟩ := hfind
          rw [hrow']
          -- Both edges have the fields that the path is made of.
          have hfields {β : Type} (f : LineageRow → β) : f (unstamped row') = f (unstamped row) :=
            congrArg f heq
          have hart : row'.artifactDigest = row.artifactDigest := hfields (·.artifactDigest)
          have hpar : row'.parentArtifactDigest = row.parentArtifactDigest :=
            hfields (·.parentArtifactDigest)
          have hspeed : row'.winnerSpeedup = row.winnerSpeedup := hfields (·.winnerSpeedup)
          have hevent : row'.transitionEventId = row.transitionEventId :=
            hfields (·.transitionEventId)
          simp only [hart, hpar, hspeed, hevent]
          exact ih

theorem lineageOf_congr : s'.lineageOf = s.lineageOf := by
  have hlen : s'.nodes.rows.length = s.nodes.rows.length := by
    have := congrArg (·.rows.length) hnodes
    simpa [Table.map] using this
  funext tip
  unfold lineageOf
  rw [climb_congr hnodes, hlen]

theorem targetLineageTips_congr (htips : s'.tips.map unstamped target_unstamped =
    s.tips.map unstamped target_unstamped) (scope : String) :
    s'.targetLineageTips scope = s.targetLineageTips scope := by
  have hsort (t : Store K) : t.targetLineageTips scope =
      (Keyed.sortBy (·.targetId) ((t.tips.map unstamped target_unstamped).rows.filter
        (·.competitionArena = scope))).mapM t.lineageOf := by
    have hfilter : (t.tips.map unstamped target_unstamped).rows.filter
        (·.competitionArena = scope) =
          (t.tips.rows.filter (·.competitionArena = scope)).map unstamped :=
      List.filter_map
    have hmap (rows : List LineageRow) : Keyed.sortBy (·.targetId) (rows.map unstamped) =
        (Keyed.sortBy (·.targetId) rows).map unstamped :=
      (map_insertionSort _ _ unstamped rows fun _ _ _ _ => Iff.rfl).symm
    rw [hfilter, hmap, mapM_map]
    rfl
  rw [hsort, hsort, htips, lineageOf_congr hnodes]

end Congr

/-- **Rebuilding the lineages.**  Over every run in which no candidate changes its competition, the
replay of the crowns goes through, the lineages of every competition reopen as they did before,
and a second replay changes nothing. -/
theorem backfill_lineages (policy : IntakePolicy) (recoverable : Bool) (ops : List (Op K))
    (h : (init K policy recoverable).Along (fun s op => s.KeepsArenas (s.step op)) ops) :
    let s := (init K policy recoverable).run ops
    let s' := s.backfillTargetLineageTips.1
    s.replayLineages = .ok s' ∧ (∀ scope, s'.targetLineageTips scope = s.targetLineageTips scope) ∧
      s'.backfillTargetLineageTips = s.backfillTargetLineageTips := by
  intro s s'
  obtain ⟨hjour, hret, hlin⟩ := lineages_run h
  obtain ⟨t, l', ht, hl', hclear, hnodes', htips'⟩ := replayLineages_ok hjour hret hlin
  obtain ⟨l, hl, hnodes, htips⟩ := hlin.edges
  have hedges : l'.map unstamped = l.map unstamped := unstamped_of_edges hl' hl
  have hsame : s' = t := by simp [s', s, backfillTargetLineageTips, ht]
  -- The replay does not look at the lineages that are there.
  have hagain : t.replayLineages = s.replayLineages := by
    unfold replayLineages eventsInOrder
    rw [hclear, (eq_of_clearLineages hclear).2.2.2]
  rw [hsame]
  refine ⟨ht, fun scope => ?_, ?_⟩
  · refine targetLineageTips_congr ?_ ?_ scope
    · rw [hnodes', hnodes, putAll_map, putAll_map, hedges]
    · rw [htips', htips, putAll_map, putAll_map, hedges]
  · unfold backfillTargetLineageTips
    rw [hagain, ht]

/-- One submission is crowned over the stack without contributions, the next one over the first. -/
def sampleCrowns : List (Op intakeHashes) :=
  let first := sampleQualification 1 1 1 "alice" "attn" 1 sampleStack
    (samplePercent 5 isSpeedup_five)
  let second := sampleQualification 5 2 5 "bob" "attn" 2 first.candidateManifest
    (samplePercent 9 isSpeedup_nine)
  Sample.settled (Sample.settled ([.initializeStack sampleStack (sampleTree sampleStack),
      Sample.reserve 1 [sampleArrival 1 alice]] ++
      Sample.publish 1 1 "" ++ Sample.claim 1 [1] ++ Sample.pass 1 2 [first]) 3 ++
    [Sample.reserve 5 [sampleArrival 5 bob]] ++
      Sample.publish 5 2 "" ++ Sample.claim 2 [5] ++ Sample.pass 2 6 [second]) 7

theorem backfill_lineages_sample :
    let s := (init intakeHashes {} false).run sampleCrowns
    let s' := s.backfillTargetLineageTips.1
    (s.nodes.rows.length = 2 ∧ (s.targetLineageTips "").isOk) ∧ s.replayLineages = .ok s' ∧
      (∀ scope, s'.targetLineageTips scope = s.targetLineageTips scope) ∧
      s'.backfillTargetLineageTips = s.backfillTargetLineageTips :=
  ⟨by decide, backfill_lineages {} false sampleCrowns (by decide)⟩

end Store

end Cacheon
