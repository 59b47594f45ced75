import Cacheon.Intake.Effects

/-!
# What the operations may do to the ledger

The counterpart of the changes to the queue.  A candidate is never dropped or exchanged, what is
settled stays settled, and a lease that was lost is never held again at its generation.

* `CandidateStep` : how one candidate may change.
* `StoreStep` : how the reservations and the ledger may change together.
-/

namespace Cacheon

open Fallible IntakeFault List Table

variable {K : IntakeHashes} {p : Permit} {c c' : CandidateRow K}

/-- How one candidate may change. -/
structure CandidateStep (p : Permit) (c c' : CandidateRow K) : Prop where
  kept : c' = c.withState c'.toCandidateState
  settled : c.status.settled = true →
    c'.status = c.status ∧ c'.settlementEvidenceDigest = c.settlementEvidenceDigest
  crowned : p.settles = false → c'.status = .crowned → c.status = .crowned
  generation : c.leaseGeneration ≤ c'.leaseGeneration
  leased : c'.status = .leased → c.status = .leased ∧ c'.leaseGeneration = c.leaseGeneration ∨
      c.leaseGeneration < c'.leaseGeneration
  duplicate : c'.status = .duplicateProposal → c.status = .duplicateProposal
  rewarded : c.rewardEligible = true → c'.rewardEligible = true
  unrewarded : p.rewards = false → c'.rewardEligible = c.rewardEligible

theorem CandidateStep.refl (c : CandidateRow K) : CandidateStep p c c where
  kept := rfl
  settled _ := ⟨rfl, rfl⟩
  crowned _ h := h
  generation := le_rfl
  leased h := .inl ⟨h, rfl⟩
  duplicate h := h
  rewarded h := h
  unrewarded _ := rfl

theorem CandidateStep.weaken {q : Permit} (hpq : p.Within q) (h : CandidateStep p c c') :
    CandidateStep q c c' where
  kept := h.kept
  settled := h.settled
  crowned hs := h.crowned (Bool.eq_false_of_le_false (hs ▸ hpq.2.2.2.2.2.2.1))
  generation := h.generation
  leased := h.leased
  duplicate := h.duplicate
  rewarded := h.rewarded
  unrewarded hr := h.unrewarded (Bool.eq_false_of_le_false (hr ▸ hpq.2.2.2.2.2.1))

theorem CandidateStep.trans {c'' : CandidateRow K} (h : CandidateStep p c c')
    (h' : CandidateStep p c' c'') : CandidateStep p c c'' where
  kept := by
    rw [h'.kept, h.kept]
    rfl
  settled hs := by
    obtain ⟨hstat, hdig⟩ := h.settled hs
    obtain ⟨hstat', hdig'⟩ := h'.settled (hstat ▸ hs)
    exact ⟨hstat'.trans hstat, hdig'.trans hdig⟩
  crowned hp hc := h.crowned hp (h'.crowned hp hc)
  generation := h.generation.trans h'.generation
  leased hl := by
    rcases h'.leased hl with ⟨hl', hg'⟩ | hg'
    · rcases h.leased hl' with ⟨hl'', hg⟩ | hg
      · exact .inl ⟨hl'', hg'.trans hg⟩
      · exact .inr (hg' ▸ hg)
    · exact .inr (h.generation.trans_lt hg')
  duplicate hd := h.duplicate (h'.duplicate hd)
  rewarded hr := h'.rewarded (h.rewarded hr)
  unrewarded hp := (h'.unrewarded hp).trans (h.unrewarded hp)

/-- A candidate that was not settled is taken back at a later generation, or held. -/
theorem CandidateStep.of_open {state : CandidateState} (hopen : c.status.settled = false)
    (hstat : state.status ∈ [.pending, .leased, .held])
    (hgen : c.leaseGeneration ≤ state.leaseGeneration)
    (hlease : state.status = .leased → c.leaseGeneration < state.leaseGeneration)
    (hreward : state.rewardEligible = c.rewardEligible) :
    CandidateStep p c (c.withState state) where
  kept := rfl
  settled h := absurd (hopen.symm.trans h) (by decide)
  crowned _ h := absurd (h ▸ hstat) (by decide)
  generation := hgen
  leased h := .inr (hlease h)
  duplicate h := absurd (h ▸ hstat) (by decide)
  rewarded h := hreward.trans h
  unrewarded _ := hreward

namespace Store

/-- No two candidates have the same digest. -/
def DistinctDigests (s : Store K) : Prop :=
  (s.candidates.rows.map (·.candidate.digest)).Nodup

/-- The candidates, in the order they were retained. -/
def candidateList (s : Store K) : List (SettlementCandidate K) :=
  s.candidates.rows.map (·.candidate)

theorem distinctDigests_iff {s : Store K} :
    s.DistinctDigests ↔ (s.candidateList.map (·.digest)).Nodup := by
  unfold DistinctDigests candidateList
  rw [map_map]
  rfl

/-- How the reservations and the ledger may change. -/
structure StoreStep (p : Permit) (s s' : Store K) : Prop extends RowsStep p s s' where
  dispositions : s.dispositions <+: s'.dispositions
  events : p.settles = false → s'.events = s.events
  standing : p.settles = false → s'.standing = s.standing
  lineages : p.settles = false → p.rebuilds = false → s'.nodes = s.nodes ∧ s'.tips = s.tips
  qualifications : p.passes = false → s'.qualifications = s.qualifications
  digests : s.DistinctDigests → s'.DistinctDigests
  order : s.candidateList <+: s'.candidateList
  candidate : ∀ id c, s.candidates.find? id = some c →
    ∃ c', s'.candidates.find? id = some c' ∧ CandidateStep p c c'
  newCandidate : ∀ id c', s'.candidates.find? id = some c' →
    s.candidates.find? id = none → p.passes = true ∧
      (p.settles = false → c'.status ≠ .crowned) ∧ (p.rewards = false → c'.rewardEligible = false)
  stack : p.settles = false → ∀ arena row, s.evaluationStacks.find? arena = some row →
    s'.evaluationStacks.find? arena = some row
  newStack : p.settles = false → ∀ arena row, s'.evaluationStacks.find? arena = some row →
    s.evaluationStacks.find? arena = none → row.generation = 0

variable {p : Permit} {s s' s'' : Store K} {id : Digest}

theorem StoreStep.of_rows (h : RowsStep p s s') (hl : s'.ledger = s.ledger) : StoreStep p s s' where
  toRowsStep := h
  dispositions := by rw [hl]
  events _ := by rw [hl]
  standing _ := by rw [hl]
  lineages _ _ := by rw [hl]; exact ⟨rfl, rfl⟩
  qualifications _ := by rw [hl]
  digests hd := by
    unfold DistinctDigests
    rwa [hl]
  order := by
    unfold candidateList
    rw [hl]
  candidate id c hc := ⟨c, by rwa [hl], .refl c⟩
  newCandidate id c hc hnone := by
    rw [hl, hnone] at hc
    cases hc
  stack _ arena row hrow := by rwa [hl]
  newStack _ arena row hrow hnone := by
    rw [hl, hnone] at hrow
    cases hrow

theorem StoreStep.of_queue (h : QueueStep p s s') : StoreStep p s s' :=
  .of_rows h.toRowsStep h.ledger

theorem StoreStep.refl (s : Store K) : StoreStep p s s := .of_rows (.refl s) rfl

theorem StoreStep.weaken {q : Permit} (hpq : p.Within q) (h : StoreStep p s s') :
    StoreStep q s s' := by
  obtain ⟨-, -, -, -, hpasses, hrews, hsettles, hrebuilds, -⟩ := id hpq
  have hs : q.settles = false → p.settles = false := fun hs =>
    Bool.eq_false_of_le_false (hs ▸ hsettles)
  refine ⟨h.toRowsStep.weaken hpq, h.dispositions, fun hq => h.events (hs hq),
    fun hq => h.standing (hs hq), ?_, ?_, h.digests, h.order, ?_, ?_, fun hq => h.stack (hs hq),
    fun hq => h.newStack (hs hq)⟩
  · exact fun hq hb => h.lineages (hs hq) (Bool.eq_false_of_le_false (hb ▸ hrebuilds))
  · exact fun hq => h.qualifications (Bool.eq_false_of_le_false (hq ▸ hpasses))
  · intro id c hc
    obtain ⟨c', hc', hstep⟩ := h.candidate id c hc
    exact ⟨c', hc', hstep.weaken hpq⟩
  · intro id c hc hnone
    obtain ⟨hp, hcrown, hreward⟩ := h.newCandidate id c hc hnone
    refine ⟨hpasses hp, fun hq => hcrown (hs hq), fun hq => hreward ?_⟩
    exact Bool.eq_false_of_le_false (hq ▸ hrews)

variable {x : Intake (Store K)}

theorem StoreStep.of_committed
    (h : ∀ s', x = .ok s' → StoreStep p s s') : StoreStep p s (s.committed x).1 :=
  committed_cases (.refl s) h

theorem StoreStep.candidateBack (h : StoreStep p s s') (h' : s'.candidates.find? id = some c') :
    (∃ c, s.candidates.find? id = some c ∧ CandidateStep p c c') ∨
      s.candidates.find? id = none := by
  cases hc : s.candidates.find? id with
  | none => exact .inr rfl
  | some c =>
    obtain ⟨c'', hc'', hstep⟩ := h.candidate id c hc
    rw [h', Option.some_inj] at hc''
    exact .inl ⟨c, rfl, hc'' ▸ hstep⟩

theorem StoreStep.trans (hp : p.publishes = false) (h : StoreStep p s s')
    (h' : StoreStep p s' s'') : StoreStep p s s'' where
  toRowsStep := h.toRowsStep.trans hp h'.toRowsStep
  dispositions := h.dispositions.trans h'.dispositions
  events hs := (h'.events hs).trans (h.events hs)
  standing hs := (h'.standing hs).trans (h.standing hs)
  lineages hs hb :=
    ⟨(h'.lineages hs hb).1.trans (h.lineages hs hb).1,
      (h'.lineages hs hb).2.trans (h.lineages hs hb).2⟩
  qualifications hs := (h'.qualifications hs).trans (h.qualifications hs)
  digests hd := h'.digests (h.digests hd)
  order := h.order.trans h'.order
  candidate id c hc := by
    obtain ⟨c', hc', hstep⟩ := h.candidate id c hc
    obtain ⟨c'', hc'', hstep'⟩ := h'.candidate id c' hc'
    exact ⟨c'', hc'', hstep.trans hstep'⟩
  newCandidate id c'' hc'' hnone := by
    rcases h'.candidateBack hc'' with ⟨c', hc', hstep⟩ | hnone'
    · obtain ⟨hpass, hcrown, hreward⟩ := h.newCandidate id c' hc' hnone
      refine ⟨hpass, ?_, ?_⟩
      · intro hs hstat
        exact hcrown hs (hstep.crowned hs hstat)
      · intro hr
        exact (hstep.unrewarded hr).trans (hreward hr)
    · exact h'.newCandidate id c'' hc'' hnone'
  stack hs arena row hrow := h'.stack hs arena row (h.stack hs arena row hrow)
  newStack hs arena row hrow hnone := by
    cases hrow' : s'.evaluationStacks.find? arena with
    | none => exact h'.newStack hs arena row hrow hrow'
    | some row' =>
      have hkept := h'.stack hs arena row' hrow'
      rw [hrow, Option.some_inj] at hkept
      exact hkept ▸ h.newStack hs arena row' hrow' hnone

/-! ### Candidates -/

variable {q : CandidateRow K → Prop} {f : CandidateRow K → CandidateState}

theorem find?_mapCandidates [DecidablePred q] : (s.mapCandidates q f).candidates.find? id =
      (s.candidates.find? id).map fun c => if q c then c.withState (f c) else c :=
  find?_update fun c => (rfl : (c.withState (f c)).reservationId = c.reservationId)

variable {c : CandidateRow K}

theorem find?_mapCandidates_of [DecidablePred q] (h : s.candidates.find? id = some c) :
    (s.mapCandidates q f).candidates.find? id = some (if q c then c.withState (f c) else c) := by
  rw [find?_mapCandidates, h, Option.map_some]

theorem candidateList_mapCandidates [DecidablePred q] :
    (s.mapCandidates q f).candidateList = s.candidateList := by
  simp only [candidateList, mapCandidates, withCandidates, withLedger, update, map_map]
  refine map_congr_left fun c _ => ?_
  simp only [Function.comp_apply]
  split_ifs <;> rfl

theorem mapCandidates_step [DecidablePred q]
    (hf : ∀ c ∈ s.candidates.rows, q c → CandidateStep p c (c.withState (f c))) :
    StoreStep p s (s.mapCandidates q f) where
  toRowsStep := .of_eq rfl rfl
  dispositions := prefix_rfl
  events _ := rfl
  standing _ := rfl
  lineages _ _ := ⟨rfl, rfl⟩
  qualifications _ := rfl
  digests hd := by
    rw [distinctDigests_iff] at hd ⊢
    rwa [candidateList_mapCandidates]
  order := by rw [candidateList_mapCandidates]
  candidate id c hc := by
    refine ⟨_, find?_mapCandidates_of hc, ?_⟩
    split_ifs with hq
    · exact hf c (find?_eq_some.1 hc).1 hq
    · exact .refl c
  newCandidate id c hc hnone := by
    rw [find?_mapCandidates, hnone] at hc
    cases hc
  stack _ _ _ h := h
  newStack _ arena row hrow hnone := by
    rw [show (s.mapCandidates q f).evaluationStacks = s.evaluationStacks from rfl, hnone] at hrow
    cases hrow

variable {reason : String}

theorem candidateStep_takenBack (h : c.status = .leased) :
    CandidateStep p c (c.withState (takenBack reason c.toCandidateState)) := by
  refine .of_open ?_ (by simp [takenBack]) (Nat.le_succ _) (by simp [takenBack]) rfl
  rw [h]
  decide

theorem holdDemoted_step : StoreStep {} s s.holdDemoted := by
  refine mapCandidates_step fun c _ hc => .of_open ?_ (by simp) le_rfl (by simp) rfl
  rcases mem_pair.1 hc.1 with h | h <;> rw [h] <;> decide

variable {block blocks : ℕ}

theorem refreshCandidates_step : StoreStep {} s (s.refreshCandidates block) :=
  holdDemoted_step.trans rfl (mapCandidates_step fun _ _ hc => candidateStep_takenBack hc.1)

/-! ### Leasing a cohort -/

theorem mem_readyCandidates : c ∈ s.readyCandidates ↔ c ∈ s.candidates.rows ∧ c.status = .pending ∧
      ∃ r, s.reservationOf c = some r ∧ r.status = .qualified ∧ s.completedPrefix r = true := by
  simp only [readyCandidates, mem_map, Keyed.mem_sortBy, mem_filterMap,
    mem_filter, decide_eq_true_eq, Option.map_eq_some_iff, Option.filter_eq_some_iff,
    Bool.and_eq_true]
  constructor
  · rintro ⟨_, ⟨c', ⟨hmem, hpend⟩, r, ⟨hr, hstat, hprefix⟩, rfl⟩, rfl⟩
    exact ⟨hmem, hpend, r, hr, hstat, hprefix⟩
  · rintro ⟨hmem, hpend, r, hr, hstat, hprefix⟩
    exact ⟨_, ⟨c, ⟨hmem, hpend⟩, r, ⟨hr, hstat, hprefix⟩, rfl⟩, rfl⟩

/-- The chosen cohort: every ready candidate of one authority, with nothing in its way. -/
theorem chooseCohort_eq_some {ready l group : List (CandidateRow K)}
    (h : s.chooseCohort ready l = .ok (some group)) :
    ∃ first ∈ l, group = ready.filter (·.authorityDigest = first.authorityDigest) ∧
      s.unblocked (group.map (·.candidate)) = .ok true := by
  induction l with
  | nil => cases h
  | cons first rest ih =>
    simp only [chooseCohort, bind_ok, exists_check] at h
    obtain ⟨-, free, hfree, h⟩ := h
    split_ifs at h with hf
    · cases h
      exact ⟨first, by simp, rfl, hf ▸ hfree⟩
    · obtain ⟨other, hother, hgrp⟩ := ih h
      exact ⟨other, mem_cons_of_mem _ hother, hgrp⟩

theorem leaseChosen_step {first : CandidateRow K} {rest : List (CandidateRow K)}
    {fields : SettlementLeaseFields K} (hmem : ∀ c ∈ first :: rest, c ∈ s.candidates.rows)
    (h : s.leaseChosen block blocks first rest = .ok (s', fields)) : StoreStep {} s s' := by
  simp only [leaseChosen, bind_ok] at h
  obtain ⟨stack, -, row, -, tips, -, h⟩ := h
  cases h
  refine mapCandidates_step fun c hc hq => ?_
  have hopen : c.status.settled = false := by
    rw [hq.1]
    decide
  have hgen : c.leaseGeneration < ((first :: rest).map (·.leaseGeneration)).foldr max 0 + 1 := by
    -- The row is one of the chosen ones, because the reservation is the key.
    obtain ⟨d, hd, hid⟩ := mem_map.1 hq.2
    obtain ⟨chosen, hchosen, rfl⟩ := mem_map.1 hd
    have hsame : chosen = c := eq_of_key (hmem chosen hchosen) hc hid
    rw [← hsame]
    exact Nat.lt_succ_of_le (le_max_of_le' 0 (mem_map_of_mem hchosen) le_rfl)
  exact .of_open hopen (by simp) hgen.le (fun _ => hgen) rfl

variable {fields : Option (SettlementLeaseFields K)} {root : String} {l : Ledger K} {row : StackRow}

/-- Leasing: the due reservations expire, the candidates are brought up to date, and then at
most candidates are leased. -/
theorem leaseCohort_spec (h : s.leaseCohort block blocks = .ok (s', fields)) :
    ∃ s₁, s.expireStaleRows block = .ok s₁ ∧ StoreStep {} (s₁.refreshCandidates block) s' := by
  simp only [leaseCohort, bind_ok, exists_check] at h
  obtain ⟨-, s₁, h₁, chosen, hchosen, h⟩ := h
  refine ⟨s₁, h₁, ?_⟩
  split at h
  · cases h
    exact .refl _
  · cases h
    exact .refl _
  · next first rest =>
    simp only [bind_ok] at h
    obtain ⟨⟨s₂, fields₂⟩, h₂, h⟩ := h
    cases h
    refine leaseChosen_step ?_ h₂
    obtain ⟨_, -, hgrp, -⟩ := chooseCohort_eq_some hchosen
    intro c hc
    rw [hgrp] at hc
    exact (mem_readyCandidates.1 (mem_of_mem_filter hc)).1

theorem leaseCohort_step (h : s.leaseCohort block blocks = .ok (s', fields)) :
    StoreStep {} s s' := by
  obtain ⟨s₁, h₁, hrest⟩ := leaseCohort_spec h
  have hexp : StoreStep {} s s₁ := .of_queue (expireStaleRows_step h₁)
  exact (hexp.trans rfl refreshCandidates_step).trans rfl hrest

theorem leaseSettlementCohort_step : StoreStep {} s (s.leaseSettlementCohort block blocks).1 := by
  unfold leaseSettlementCohort
  split
  · exact .refl s
  · next h => exact leaseCohort_step h
  · next h => exact leaseCohort_step h

/-! ### Retaining PASSes -/

/-- The candidate of a retained PASS, in its first state. -/
theorem insertCandidate_spec {q : Qualification K} (h : s.insertCandidate q root = .ok s') :
    ∃ (c : CandidateRow K) (t : Table (CandidateRow.reservationId (K := K))),
      c.candidate.fields = ⟨q.val, none⟩ ∧ c.toCandidateState = {} ∧ c.evidenceRoot = root ∧
        (∀ d ∈ s.candidates.rows, d.candidate.digest ≠ c.candidate.digest) ∧
        s.candidates.insert c = some t ∧
        s' = s.withCandidates t := by
  simp only [insertCandidate, bind_ok, exists_check, get_ok] at h
  obtain ⟨c, hc, hdig, t, ht, h⟩ := h
  cases h
  refine ⟨_, t, ?_, rfl, rfl, hdig, ht, rfl⟩
  unfold SettlementCandidate.fromQualification at hc
  split_ifs at hc
  · cases hc
    rfl
  · cases hc

theorem insertCandidate_step {q : Qualification K}
    (h : s.insertCandidate q root = .ok s') : StoreStep { passes := true } s s' := by
  obtain ⟨c, t, -, hstate, -, hdig, ht, rfl⟩ := insertCandidate_spec h
  obtain ⟨hrows, hfresh⟩ := rows_of_insert ht
  refine
    { toRowsStep := .of_eq rfl rfl
      dispositions := prefix_rfl
      events := fun _ => rfl
      standing := fun _ => rfl
      lineages := fun _ _ => ⟨rfl, rfl⟩
      qualifications := fun _ => rfl
      digests := ?_
      order := ?_
      candidate := ?_
      newCandidate := ?_
      stack := fun _ _ _ h => h
      newStack := fun _ _ _ h hnone => absurd (hnone.symm.trans h) (by simp) }
  · intro hd
    have hall : t.rows.map (·.candidate.digest) =
        s.candidates.rows.map (·.candidate.digest) ++ [c.candidate.digest] := by
      rw [hrows, map_append]
      rfl
    show (t.rows.map (·.candidate.digest)).Nodup
    rw [hall]
    refine nodup_append.2 ⟨hd, nodup_singleton _, ?_⟩
    intro digest hmem _ hc heq
    obtain ⟨d, hmemd, rfl⟩ := mem_map.1 hmem
    exact hdig d hmemd (heq.trans (mem_singleton.1 hc))
  · refine ⟨[c.candidate], ?_⟩
    show s.candidates.rows.map _ ++ _ = t.rows.map _
    rw [hrows, map_append]
    rfl
  · intro id d hd
    refine ⟨d, (find?_of_insert ht).trans ?_, .refl d⟩
    rw [if_neg, hd]
    rintro rfl
    rw [hfresh] at hd
    cases hd
  · intro id d hd hnone
    have hfind := (find?_of_insert ht (k := id)).symm.trans hd
    split_ifs at hfind
    · cases hfind
      have hstat : c.status = .pending := congrArg CandidateState.status hstate
      have hreward : c.rewardEligible = false := congrArg CandidateState.rewardEligible hstate
      refine ⟨rfl, fun _ hc => ?_, fun _ => hreward⟩
      rw [hstat] at hc
      cases hc
    · rw [hnone] at hfind
      cases hfind

/-- One more arena has a stack. -/
theorem core_withStack :
    (s.withLedger { s.ledger with evaluationStacks := s.evaluationStacks.put row }).core =
      { s.core with arenas := fun a => a = row.arena || s.core.arenas a } := by
  simp only [core, withLedger]
  congr 1
  funext arena
  rw [find?_put]
  by_cases harena : arena = row.arena <;> simp [harena]

/-- The stack of an arena is replaced. -/
theorem core_withStack_of_arena (h : s.core.arenas row.arena = true) :
    (s.withLedger { s.ledger with evaluationStacks := s.evaluationStacks.put row }).core =
      s.core := by
  have hsame : (fun a => a = row.arena || s.core.arenas a) = s.core.arenas := by
    funext arena
    by_cases harena : arena = row.arena
    · simp [harena, h]
    · simp [harena]
  rw [core_withStack, hsame]

/-- A change of the ledger that leaves the journal, the claims, the candidates and the stacks. -/
theorem withLedger_step (hdispositions : s.dispositions <+: l.dispositions)
    (hevs : l.events = s.events) (hstand : l.standing = s.standing)
    (hlin : p.rebuilds = false → l.nodes = s.nodes ∧ l.tips = s.tips)
    (hcands : l.candidates = s.candidates)
    (hstacks : l.evaluationStacks = s.evaluationStacks)
    (hq : p.passes = false → l.qualifications = s.qualifications) :
    StoreStep p s (s.withLedger l) where
  toRowsStep := .of_eq (by simp only [core, withLedger, hstacks]) rfl
  dispositions := hdispositions
  events _ := hevs
  standing _ := hstand
  lineages _ := hlin
  qualifications := hq
  digests hd := by
    show (l.candidates.rows.map (·.candidate.digest)).Nodup
    rwa [hcands]
  order := by
    show s.candidates.rows.map _ <+: l.candidates.rows.map _
    rw [hcands]
  candidate id c hc := ⟨c, (congrArg (·.find? id) hcands).trans hc, .refl c⟩
  newCandidate id c hc hnone := by
    have hfind := (congrArg (·.find? id) hcands).symm.trans hc
    simp only [hnone] at hfind
    cases hfind
  stack _ arena row hrow := (congrArg (·.find? arena) hstacks).trans hrow
  newStack _ arena row hrow hnone := by
    have hfind := (congrArg (·.find? arena) hstacks).symm.trans hrow
    simp only [hnone] at hfind
    cases hfind

variable {row : IntakeReservation}

variable {batch : QualificationIntakeBatch K} {o : QualificationIntakeOutcome K}

variable {ref : Option EvidenceArtifactRef} {ev : Option Digest} {root : Option String}

section

variable (h : s.retainOutcome batch row o ref ev root block = .ok s')

include h

/-- A run that counts is the first one retained for its reservation, which becomes a candidate. -/
theorem retainOutcome_cases : o.settlementQualification = none ∧ s' = s ∨
      ∃ q ref root t, o.settlementQualification = some q ∧
        q.val.reservationDigest = o.reservationDigest ∧ s.retained (row.reservationId K) = [] ∧
        (∀ id, (s.withLedger { s.ledger with qualifications := t }).retained id = s.retained id ++
          if o.reservationDigest = id then [⟨0, q.val, ref, root, block⟩] else []) ∧
        (s.withLedger { s.ledger with qualifications := t }).insertCandidate q root = .ok s' := by
  unfold retainOutcome at h
  split at h
  · next hnone =>
    cases h
    exact .inl ⟨hnone, rfl⟩
  · next q hq =>
    simp only [bind_ok, exists_check, get_ok, retainCompletePass] at h
    obtain ⟨hmatch, _, -, ref, -, root, -, ⟨hnone, -⟩, -, t, ht, h⟩ := h
    refine .inr ⟨q, ref, root, t, hq, hmatch.1, hnone, fun id => ?_, h⟩
    show t.rows.filter _ = _
    rw [(rows_of_insert ht).1, filter_append, ← hmatch.1]
    congr 1
    by_cases hid : q.val.reservationDigest = id <;> simp [hid]

theorem retainOutcome_step : StoreStep { passes := true } s s' := by
  obtain ⟨-, rfl⟩ | ⟨q, _, _, t, -, -, -, -, h⟩ := retainOutcome_cases h
  · exact .refl _
  · refine .trans rfl ?_ (insertCandidate_step h)
    exact withLedger_step prefix_rfl rfl rfl (fun _ => ⟨rfl, rfl⟩) rfl rfl
      fun h => absurd h (by decide)

/-- Retaining a PASS leaves the queue alone. -/
theorem retainOutcome_frame : s'.queue = s.queue ∧ s'.recoverable = s.recoverable ∧
    s'.authority = s.authority := by
  obtain ⟨-, rfl⟩ | ⟨_, _, _, _, -, -, -, -, h⟩ := retainOutcome_cases h
  · exact ⟨rfl, rfl, rfl⟩
  · obtain ⟨_, _, -, -, -, -, -, rfl⟩ := insertCandidate_spec h
    exact ⟨rfl, rfl, rfl⟩

end

variable {policy : IntakePolicy}

/-- A verdict or a retry leaves the publication, and nothing to publish. -/
theorem graded_spec {attempt : ℕ} {group : Option (Digest × ℕ × RetryStrategy)} {w : Work} :
    let w' := match group with
      | some group => retry policy attempt group w
      | none => verdict o ev w
    w'.competitionArena = w.competitionArena ∧ (w'.publicationDigest = w.publicationDigest ∧
      w'.deltaFingerprint = w.deltaFingerprint) ∧ w'.status ∉ Status.unpublished := by
  cases group with
  | none =>
    simp only [verdict]
    cases o.decision <;> decide
  | some group =>
    simp only [retry]
    split_ifs <;> decide

theorem applyOutcome_step (h : applyOutcome batch block root s o = .ok s') :
    StoreStep { passes := true } s s' := by
  simp only [applyOutcome, bind_ok, exists_check] at h
  obtain ⟨row, hrow, hstat, s₂, h₂, h⟩ := h
  have hret := retainOutcome_step h₂
  have hrow₂ : s₂.reservations.find? o.reservationDigest = some row := by
    rw [(retainOutcome_frame h₂).1]
    exact get_iff.1 hrow
  refine .trans rfl (.trans rfl ?_ hret) (.of_queue (updateReservation_step h hrow₂ ?_))
  · exact withLedger_step (prefix_append ..) rfl rfl (fun _ => ⟨rfl, rfl⟩) rfl rfl
      fun h => absurd h (by decide)
  · refine .of_work graded_spec.1 graded_spec.2.1.1 ?_ (fun h => absurd h (by decide)) ?_
      (fun _ h => absurd h graded_spec.2.2) (fun _ h => absurd (hstat.1 ▸ h) (by decide))
      (Work.not_closed (by rw [hstat.1]; decide)) ?_
    · intro hq
      exact absurd (hstat.1.symm.trans hq) (by decide)
    · intro hc
      exact absurd hc (not_completed (by rw [hstat.1]; decide))
    · intro hm
      have hdelta : row.deltaFingerprint.isSome := by
        have hsel := hstat.2.2
        cases hnone : row.deltaFingerprint with
        | none => simp [hnone] at hsel
        | some delta => rfl
      exact hm.of_published hdelta graded_spec.2.1 graded_spec.2.2

theorem applyBatch_step (h : s.applyQualificationBatch batch block root = .ok s') :
    StoreStep { passes := true } s s' := by
  simp only [applyQualificationBatch, bind_ok, exists_check] at h
  obtain ⟨-, -, -, h⟩ := h
  exact foldlM_rel .refl (fun _ _ _ h h' => h.trans rfl h') (fun _ _ _ _ => applyOutcome_step) h

/-! ### Accepting results -/

/-- The parts of a store that grading a cohort leaves alone. -/
structure Untouched (s s' : Store K) : Prop where
  recoverable : s'.recoverable = s.recoverable
  authority : s'.authority = s.authority
  leases : s'.leases = s.leases
  cursor : s'.cursor = s.cursor

theorem Untouched.trans (h : Untouched s s') (h' : Untouched s' s'') : Untouched s s'' where
  recoverable := h'.recoverable.trans h.recoverable
  authority := h'.authority.trans h.authority
  leases := h'.leases.trans h.leases
  cursor := h'.cursor.trans h.cursor

variable {authority svc : Digest}

theorem markQualifying_untouched
    (h : s.markQualifying id authority svc = .ok s') : Untouched s s' := by
  simp only [markQualifying, bind_ok, exists_check] at h
  obtain ⟨_, -, row, -, -, -, stack, -, s₁, h₁, h⟩ := h
  obtain ⟨t, rfl⟩ := eq_of_bindClaim h₁
  rw [updateReservations_eq h]
  exact ⟨rfl, rfl, rfl, rfl⟩

theorem applyOutcome_untouched
    (h : applyOutcome batch block root s o = .ok s') : Untouched s s' := by
  simp only [applyOutcome, bind_ok, exists_check] at h
  obtain ⟨row, -, -, s₂, h₂, h⟩ := h
  obtain ⟨hqueue, hrecov, hauth⟩ := retainOutcome_frame h₂
  have hleases : s₂.leases = s.leases := congrArg Queue.leases hqueue
  have hcursor : s₂.cursor = s.cursor := congrArg Queue.cursor hqueue
  rw [updateReservations_eq h]
  exact ⟨hrecov, hauth, hleases, hcursor⟩

variable {lease : EvaluationLease} {res : Digest}

section

variable (h : s.gradeCohort lease block authority svc batch root = .ok s')

include h

theorem gradeCohort_spec :
    ∃ s₁, lease.reservationIds.foldlM (fun s id => s.markQualifying id authority svc) s =
        .ok s₁ ∧ s₁.applyQualificationBatch batch block root = .ok s' := by
  simp only [gradeCohort, bind_ok] at h
  exact h

theorem gradeCohort_untouched : Untouched s s' := by
  obtain ⟨s₁, h₁, h₂⟩ := gradeCohort_spec h
  simp only [applyQualificationBatch, bind_ok, exists_check] at h₂
  have hclaimed : Untouched s s₁ := foldlM_rel (fun _ => ⟨rfl, rfl, rfl, rfl⟩)
    (fun _ _ _ h h' => h.trans h') (fun _ _ _ _ => markQualifying_untouched) h₁
  have hgraded : Untouched s₁ s' := foldlM_rel (fun _ => ⟨rfl, rfl, rfl, rfl⟩)
    (fun _ _ _ h h' => h.trans h') (fun _ _ _ _ => applyOutcome_untouched) h₂.2.2.2
  exact hclaimed.trans hgraded

end

/-- A result is accepted at a live lease. -/
theorem acceptance_spec {u : Unit} (h : s.requireAcceptance lease block = .ok u) :
    s.clock = some block ∧ lease.state = .active ∧
      s.leases.find? lease.leaseId = some lease ∧ s.membersUnchanged lease ∧
      s.authority = [] ∧ (s.recoverable = true → block < lease.expiresBlock ∧
        ∃ cur, lease.recovery = some cur ∧ cur.phase = .evidenceImported) := by
  simp only [requireAcceptance, bind_ok, check_ok, exists_const] at h
  obtain ⟨_, hclock, _, hready, _, hact, hmems, hidle⟩ := h
  rw [evaluationLease_ok] at hact
  refine ⟨evaluationClock_ok.1 hclock, hact.1, hact.2, hmems, hidle, ?_⟩
  intro hr
  simp only [requireResultReady, hr, if_true, bind_ok, check_ok, exists_const] at hready
  obtain ⟨cur, hcur, hphase, hdue⟩ := hready
  exact ⟨hdue, cur, (activeRecovery_spec hcur).1, hphase⟩

/-- A body that takes no authority: either the tables are what they were, or the body went through
and the lease was completed. -/
theorem acceptUnder_cases (s : Store K) (lease : EvaluationLease) (block : ℕ) (res : Digest)
    (body : Store K → Store K × Option IntakeFault)
    (hbody : ∀ s, (body s).1.authority = s.authority ∨ (body s).1.authority = []) :
    (∃ arena fault,
        s.acceptUnder lease block res body = ({ s with selectedArena := arena }, some fault)) ∨
      ∃ after s', s.acceptUnder lease block res body = (s', none) ∧
        s.requireAcceptance lease block = .ok () ∧
        body { s with authority := lease.reservationIds } = (after, none) ∧
        { after with authority := [] }.completeResult s lease block res = .ok s' := by
  unfold acceptUnder
  split
  · exact .inl ⟨s.selectedArena, _, rfl⟩
  · next hready =>
    have hidle : s.authority = [] := (acceptance_spec hready).2.2.2.2.1
    have hrest : (body { s with authority := lease.reservationIds }).1.authority.filter
        (· ∉ lease.reservationIds) = [] := by
      rcases hbody { s with authority := lease.reservationIds } with h | h <;> simp [h]
    simp only [hrest]
    split
    · exact .inl ⟨_, _, by rw [← hidle]⟩
    · next s' hres =>
      split at hres
      · cases hres
      · next hraised =>
        exact .inr ⟨_, s', rfl, hready, Prod.ext rfl hraised, hres⟩

/-- The result is late or refused, or its cohort is graded and the lease completed. -/
theorem acceptResult_cases (hs' : s' = (s.acceptEvaluationResult lease block res fun s =>
      s.committed (s.gradeCohort lease block authority svc batch root)).1) :
    QueueStep {} s s' ∨ ∃ s₂, ¬ (s.recoverable = false ∧ lease.expiresBlock ≤ block) ∧
      s.requireAcceptance lease block = .ok () ∧
      { s with authority := lease.reservationIds }.gradeCohort lease block authority svc batch
        root = .ok s₂ ∧
      { s₂ with authority := [] }.completeLease lease .evidenceImported block res
        "evaluation lease changed during completion" = .ok s' := by
  unfold acceptEvaluationResult at hs'
  split at hs'
  · left
    split at hs'
    · exact hs' ▸ .refl s
    · next s₁ h₁ =>
      simp only [bind_ok] at h₁
      obtain ⟨_, hclock, _, -, h₁⟩ := h₁
      exact hs' ▸ expireDueLeases_step (evaluationClock_ok.1 hclock) h₁
  · next hlate =>
    rcases acceptUnder_cases s lease block res
      (fun s => s.committed (s.gradeCohort lease block authority svc batch root))
      fun s => .inl (committed_cases (I := fun s' => s'.authority = s.authority) rfl
        fun s' h => (gradeCohort_untouched h).authority) with
      ⟨_, _, hsame⟩ | ⟨s₂, _, hdone, hready, hbody, hcompl⟩
    · rw [hs', hsame]
      exact .inl (.of_eq rfl rfl rfl)
    · rw [hdone] at hs'
      subst hs'
      simp only [completeResult, bind_ok, exists_check] at hcompl
      exact .inr ⟨s₂, hlate, hready, eq_ok_of_committed hbody, hcompl.2⟩

/-- A result is graded between the claim of its cohort and the completion of the lease. -/
theorem acceptResult_parts (hs' : s' = (s.acceptEvaluationResult lease block res fun s =>
      s.committed (s.gradeCohort lease block authority svc batch root)).1) :
    QueueStep {} s s' ∨ ∃ s₁ s₂, QueueStep { accepts := true } s s₁ ∧
      s₁.applyQualificationBatch batch block root = .ok s₂ ∧ QueueStep {} s₂ s' := by
  refine (acceptResult_cases hs').imp_right ?_
  rintro ⟨s₂, hlate, hready, hgraded, hcompl⟩
  obtain ⟨hclock, hact, hfind, -, hidle, hrecov⟩ := acceptance_spec hready
  obtain ⟨s₁, h₁, h₂⟩ := gradeCohort_spec hgraded
  have huntouched := gradeCohort_untouched hgraded
  have hauthorized : QueueStep { accepts := true } s { s with authority := lease.reservationIds } :=
    .of_moves (.single (.authorize rfl hidle hact hfind)) rfl rfl rfl
  have hmark : QueueStep {} _ s₁ := foldlM_rel .refl (fun _ _ _ h h' => h.trans rfl h')
    (fun _ _ _ _ => markQualifying_step) h₁
  have hclaimed := hmark.weaken (Permit.none_within { accepts := true })
  refine ⟨s₁, s₂, hauthorized.trans rfl hclaimed, h₂,
    completeLease_step ?_ huntouched.authority ?_ ?_ hcompl⟩
  · exact (congrArg (·.map (·.1)) huntouched.cursor).trans hclock
  · -- Without recovery a late result does not come here.
    by_cases hr : s.recoverable = true
    · exact (hrecov hr).1
    · rw [Bool.not_eq_true] at hr
      exact not_le.1 fun hdue => hlate ⟨hr, hdue⟩
  · intro hr cur hcur
    rw [huntouched.recoverable] at hr
    obtain ⟨cur', hcur', hphase⟩ := (hrecov hr).2
    obtain rfl := Option.mem_unique hcur' hcur
    exact hphase

theorem acceptEvaluationResult_step : StoreStep { passes := true, accepts := true } s
      (s.acceptEvaluationResult lease block res fun s =>
        s.committed (s.gradeCohort lease block authority svc batch root)).1 := by
  rcases acceptResult_parts rfl with h | ⟨s₁, s₂, h₁, h₂, h₃⟩
  · exact (StoreStep.of_queue h).weaken (by decide)
  · exact (((StoreStep.of_queue h₁).weaken (by decide)).trans rfl
      ((applyBatch_step h₂).weaken (by decide))).trans rfl
      ((StoreStep.of_queue h₃).weaken (by decide))

/-! ### Stacks -/

variable {tree : Digest}

variable {man : EvaluationStackManifest}

theorem initializeStackRow_step
    (h : s.initializeEvaluationStackRow man tree = .ok s') : StoreStep {} s s' := by
  unfold initializeEvaluationStackRow at h
  split at h
  · next hnone =>
    cases h
    refine
      { toRowsStep := .of_moves (.single (.commission core_withStack)) rfl rfl
        dispositions := prefix_rfl
        events := fun _ => rfl
        standing := fun _ => rfl
        lineages := fun _ _ => ⟨rfl, rfl⟩
        qualifications := fun _ => rfl
        digests := fun h => h
        order := prefix_rfl
        candidate := fun _ c hc => ⟨c, hc, .refl c⟩
        newCandidate := fun _ _ h hnone => absurd (hnone.symm.trans h) (by simp)
        stack := ?_
        newStack := ?_ }
    · intro _ arena row hrow
      refine find?_put.trans ?_
      rw [if_neg, hrow]
      rintro rfl
      rw [show StackRow.arena _ = man.arenaDigest from rfl, hnone] at hrow
      cases hrow
    · intro _ arena row hrow hnone'
      have hfind := find?_put.symm.trans hrow
      split_ifs at hfind
      · cases hfind
        rfl
      · rw [hnone'] at hfind
        cases hfind
  · simp only [bind_ok, exists_check] at h
    obtain ⟨-, -, h⟩ := h
    cases h
    exact .refl _

variable {state : EvaluationStackState}

theorem bindUnboundQueue_eq
    (h : s.bindUnboundQueueToStack state reason = .ok s') : ∃ t, s' = s.withSegments t := by
  refine foldlM_rel (R := fun s s' : Store K => ∃ t, s' = s.withSegments t)
    (fun s => ⟨s.segments, rfl⟩) ?_ (fun _ _ _ _ => bindBaseline_eq) h
  rintro s _ _ ⟨t, rfl⟩ ⟨t', rfl⟩
  exact ⟨t', rfl⟩

theorem initializeStack_step
    (h : s.initializeEvaluationStack man tree = .ok s') : StoreStep {} s s' := by
  simp only [initializeEvaluationStack, bind_ok] at h
  obtain ⟨s₁, h₁, state, hstate, h⟩ := h
  obtain ⟨harena, hstack⟩ := arenas_of_stack hstate
  have hmoves : Moves {} s₁ s' := .single (.bindQueue (by rw [harena]; exact hstack) h)
  obtain ⟨t, rfl⟩ := bindUnboundQueue_eq h
  exact (initializeStackRow_step h₁).trans rfl (.of_queue (.of_moves hmoves rfl rfl rfl))

variable {inc : EvaluationStackManifest} {recoverable : Bool}

/-- The stack of the arena is there once the commission is installed. -/
theorem installCommission_spec (h : s.installCommission inc tree = .ok s') :
    (∃ state, s.evaluationStack inc.arenaDigest = .ok state ∧ s' = s) ∨
      s.evaluationStacks.find? inc.arenaDigest = none ∧
        s.initializeEvaluationStack inc tree = .ok s' := by
  unfold installCommission at h
  split at h
  · next state hstate =>
    cases h
    exact .inl ⟨state, hstate, rfl⟩
  · next fault hfault =>
    split at h
    · next hmissing =>
      subst hmissing
      refine .inr ⟨?_, h⟩
      by_contra hsome
      obtain ⟨row, hrow⟩ := Option.ne_none_iff_exists'.1 hsome
      simp only [evaluationStack, reopenStack, hrow, Fallible.get, bind_eq_error, check_eq_error,
        reduceCtorEq, intake.injEq, String.reduceEq, and_false, exists_false, or_false,
        pure, Except.pure] at hfault
    · cases h

theorem installCommission_step (h : s.installCommission inc tree = .ok s') :
    StoreStep {} s s' ∧ s'.core.arenas inc.arenaDigest = true := by
  rcases installCommission_spec h with ⟨state, hstate, rfl⟩ | ⟨-, h⟩
  · exact ⟨.refl _, (arenas_of_stack hstate).2⟩
  · refine ⟨initializeStack_step h, ?_⟩
    simp only [initializeEvaluationStack, bind_ok] at h
    obtain ⟨s₁, -, state, hstate, h⟩ := h
    obtain ⟨t, rfl⟩ := bindUnboundQueue_eq h
    exact (arenas_of_stack hstate).2

theorem commissionBoundary_step
    {order : RowOrder} : StoreStep {} s (s.commissionBoundary inc tree order).1 := by
  unfold commissionBoundary
  split
  · exact .refl s
  · next s₁ h₁ =>
    obtain ⟨hstep, harenas⟩ := installCommission_step h₁
    simp only
    split
    · exact hstep
    · next s₂ h₂ =>
      refine hstep.trans rfl (.of_queue (rebindRows_step (fun r hr => ?_) harenas h₂))
      have hmem := (order.perm _).mem_iff.1 hr
      have hrebindable := of_decide_eq_true (mem_filter.1 hmem).2
      exact hrebindable.2.2.1

/-! ### Rewards and restarts -/

theorem finalizePrefix_step : StoreStep { rewards := true } s s.finalizeRewardPrefix := by
  refine mapCandidates_step fun c _ _ => ⟨rfl, ?_, ?_, le_rfl, ?_, ?_, ?_, ?_⟩
  · exact fun _ => ⟨rfl, rfl⟩
  · exact fun _ h => h
  · exact fun h => .inl ⟨h, rfl⟩
  · exact fun h => h
  · exact fun _ => rfl
  · exact fun h => absurd h (by decide)

theorem finalizePrefix_candidate (h : s.candidates.find? id = some c) :
    ∃ c', s.finalizeRewardPrefix.candidates.find? id = some c' ∧
      c'.status = c.status ∧ c'.leaseGeneration = c.leaseGeneration := by
  refine ⟨_, find?_mapCandidates_of h, ?_⟩
  split_ifs <;> exact ⟨rfl, rfl⟩

theorem interrupted_step (h : s.recoverInterrupted = .ok s') : StoreStep {} s s' := by
  simp only [recoverInterrupted, bind_ok] at h
  obtain ⟨s₁, h₁, h⟩ := h
  cases h
  refine .trans rfl (.of_queue (updateReservations_step h₁ ?_)) (mapCandidates_step ?_)
  · intro r _ hr
    refine .of_active rfl ⟨rfl, rfl, .inl rfl⟩ ?_ (by simp) (by simp [Status.unpublished])
    rcases mem_pair.1 hr with h | h <;> rw [h] <;> decide
  · exact fun c _ hc => candidateStep_takenBack hc

/-- Settling a waiting PASS: the one run retained for it becomes a candidate, and it is
qualified. -/
theorem acceptRetainedPass_ok (h : s.acceptRetainedPass row = .ok s') :
    ∃ item, ∃ hq : item.qualification.postInit K = .ok (), ∃ s₁,
      s.retained (row.reservationId K) = [item] ∧
      item.qualification.reservationDigest = row.reservationId K ∧ item.reproductionIndex = 0 ∧
      s.insertCandidate ⟨item.qualification, hq⟩ item.evidenceRoot = .ok s₁ ∧
      s₁.updateReservation (row.reservationId K) (fun r =>
        { r.toWork with status := .qualified, decision := some .pass, reason := "qualified" }) =
          .ok s' := by
  unfold acceptRetainedPass at h
  split at h
  · next item hitem =>
    simp only [bind_ok, exists_check] at h
    obtain ⟨hindex, h⟩ := h
    split at h
    · next hq =>
      simp only [bind_ok] at h
      obtain ⟨s₁, h₁, s₂, h₂, _, -, _, -, h⟩ := h
      cases h
      have hmem : item ∈ s.retained (row.reservationId K) := by simp [hitem]
      have hid : item.qualification.reservationDigest = row.reservationId K := by
        simpa [retained] using (mem_filter.1 hmem).2
      exact ⟨item, hq, s₁, hitem, hid, hindex, h₁, h₂⟩
    · cases h
  · cases h

/-- Settling a waiting PASS changes its own reservation alone. -/
theorem acceptRetainedPass_spec (h : s.acceptRetainedPass row = .ok s')
    (hrow : s.reservations.find? (row.reservationId K) = some row)
    (hstat : row.status = .reproductionPending) :
    StoreStep { passes := true } s s' ∧ ∀ id, id ≠ row.reservationId K →
      s'.reservations.find? id = s.reservations.find? id := by
  obtain ⟨_, _, s₁, -, -, -, h₁, h₂⟩ := acceptRetainedPass_ok h
  have hinsert := insertCandidate_step h₁
  obtain ⟨_, t, -, -, -, -, -, rfl⟩ := insertCandidate_spec h₁
  refine ⟨hinsert.trans rfl (.of_queue (updateReservation_step h₂ hrow ?_)), ?_⟩
  · exact .of_active rfl ⟨rfl, rfl, .inl rfl⟩ (by rw [hstat]; decide)
      (fun h => absurd h (by decide)) (by simp [Status.unpublished])
  · intro id hid
    rw [updateReservations_eq h₂, find?_mapReservations]
    exact map_of_key_ne hid

theorem acceptRetainedPasses_step {rows : List IntakeReservation}
    (hrows : ∀ row ∈ rows, s.reservations.find? (row.reservationId K) = some row ∧
      row.status = .reproductionPending) (hdist : (rows.map (·.reservationId K)).Nodup)
    (h : rows.foldlM acceptRetainedPass s = .ok s') : StoreStep { passes := true } s s' := by
  induction rows generalizing s with
  | nil =>
    cases h
    exact .refl _
  | cons row rows ih =>
    simp only [foldlM_cons, bind_ok] at h
    obtain ⟨s₁, h₁, h⟩ := h
    obtain ⟨hrow, hstat⟩ := hrows row (by simp)
    obtain ⟨hstep, hoth⟩ := acceptRetainedPass_spec h₁ hrow hstat
    obtain ⟨hfirst, hrest⟩ := nodup_cons.1 hdist
    refine hstep.trans rfl (ih ?_ hrest h)
    -- The rows that still wait are other rows, and those did not change.
    intro other hother
    obtain ⟨hfind, hwaits⟩ := hrows other (mem_cons_of_mem _ hother)
    refine ⟨(hoth _ ?_).trans hfind, hwaits⟩
    intro heq
    exact hfirst (mem_map.2 ⟨other, hother, heq⟩)

theorem acceptPrimaryPasses_step (h : s.acceptRetainedPrimaryPasses = .ok s') :
    StoreStep { passes := true } s s' := by
  refine acceptRetainedPasses_step ?_ ?_ h
  · intro row hrow
    have hmem := mem_filter.1 (Keyed.mem_sortBy.1 hrow)
    simp only [decide_eq_true_eq] at hmem
    exact ⟨find?_of_mem hmem.1, hmem.2.1⟩
  · refine (Keyed.sortBy_perm.map _).nodup_iff.2 ?_
    exact s.reservations.distinct.sublist (filter_sublist.map _)

theorem reopen_step : StoreStep p s (s.reopen policy recoverable) :=
  .of_queue (.of_moves (.single .reopen) rfl rfl rfl)

/-- Opening a store: the rewards first, then the recovery, then the PASSes that wait. -/
theorem restart_spec (s : Store K) (policy : IntakePolicy) (recoverable : Bool) :
    ∃ s₁ : Store K, StoreStep {} (s.reopen policy recoverable).finalizeRewardPrefix s₁ ∧
      StoreStep { passes := true } s₁ (s.restart policy recoverable).1 ∧
      ((s.restart policy recoverable).2 = none →
        (s.reopen policy recoverable).finalizeRewardPrefix.recoverInterrupted = .ok s₁) := by
  unfold restart
  simp only
  split
  · exact ⟨_, .refl _, .refl _, fun h => nomatch h⟩
  · next s₁ h =>
    refine ⟨s₁, interrupted_step h, ?_, fun _ => h⟩
    exact .of_committed fun _ => acceptPrimaryPasses_step

theorem restart_step :
    StoreStep { passes := true, rewards := true } s (s.restart policy recoverable).1 := by
  obtain ⟨s₁, h₁, h₂, -⟩ := restart_spec s policy recoverable
  have hfirst : StoreStep { passes := true, rewards := true } s
      (s.reopen policy recoverable).finalizeRewardPrefix :=
    reopen_step.trans rfl (finalizePrefix_step.weaken (by decide))
  exact (hfirst.trans rfl (h₁.weaken (by decide))).trans rfl (h₂.weaken (by decide))

/-! ### Lineages -/

theorem writeLineage_spec {c : SettlementCandidate K} {art eventId : Digest}
    {parent : Option Digest} (h : s.writeLineage c art parent eventId block = .ok s') :
    ∃ row node, s.reservations.find? c.primary.reservationDigest = some row ∧
      node = lineageNode row.competitionArena c art parent eventId block ∧
      (∀ n ∈ s.nodes.rows, n.transitionEventId = eventId → n.place = node.place) ∧
      s' = s.addNode node := by
  simp only [writeLineage, bind_ok, exists_check] at h
  obtain ⟨row, hrow, hplace, h⟩ := h
  cases h
  exact ⟨row, _, get_iff.1 hrow, rfl, hplace, rfl⟩

theorem replayCrown_step {row : SettlementEventRow} (h : s.replayCrown row = .ok s') :
    StoreStep { rebuilds := true } s s' := by
  simp only [replayCrown, bind_ok, exists_check, get_ok] at h
  obtain ⟨c, -, contr, -, s₁, h₁, -, winner, -, h⟩ := h
  cases h
  obtain ⟨_, node, -, -, -, rfl⟩ := writeLineage_spec h₁
  have hnode : StoreStep { rebuilds := true } s (s.addNode node) :=
    withLedger_step prefix_rfl rfl rfl (fun h => absurd h (by decide)) rfl rfl fun _ => rfl
  exact hnode.trans rfl
    (withLedger_step prefix_rfl rfl rfl (fun h => absurd h (by decide)) rfl rfl fun _ => rfl)

theorem replayLineages_step (h : s.replayLineages = .ok s') :
    StoreStep { rebuilds := true } s s' := by
  have hreplayed := foldlM_rel (R := StoreStep { rebuilds := true }) .refl
    (fun _ _ _ h h' => h.trans rfl h') (fun _ _ _ _ => replayCrown_step) h
  refine .trans rfl ?_ hreplayed
  exact withLedger_step prefix_rfl rfl rfl (fun h => absurd h (by decide)) rfl rfl fun _ => rfl

theorem backfillTips_step : StoreStep { rebuilds := true } s s.backfillTargetLineageTips.1 := by
  unfold backfillTargetLineageTips
  split
  · exact .refl s
  · next h => exact replayLineages_step h

end Store

end Cacheon
