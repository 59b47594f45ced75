import Cacheon.Intake.Commit

/-!
# The settlement journal

Over every run of the store, with any leases, evidence and plans that callers come up with: the
journal is one hash chain from sequence 0, each evaluation stack is its genesis moved by the
transitions of its arena, no candidate is disposed of twice, a lease that was lost cannot be
committed any more, and a commit that raises changes nothing.

* `Journal` : the invariant of every reachable store, kept by `journal_step`.
* `FoldedFromGenesis` : a stack is its genesis with the transitions of its arena.
* `Superseded` : a lease that was lost, for good.
-/

namespace Cacheon

open Fallible IntakeFault HashChain List Option Table SettlementEvent

namespace Store

variable {K : IntakeHashes} {s s₁ s' : Store K} {lease : SettlementLease K}
  {ev : List SettlementEvidence} {plan : SettlementPlan} {block : ℕ}
  {resolve : TreeResolver} {p : Permit}

/-- The events of the journal. -/
def journal (s : Store K) : List SettlementEvent := s.events.map (·.event)

/-- The transitions of an arena's stack, in order. -/
def stackTransitions (s : Store K) (arena : Digest) : List SettlementEvent :=
  (s.events.filter fun row =>
    row.arenaId = arena ∧ row.event.eventType = .stackTransition).map (·.event)

/-- The invariant of the journal and the candidates. -/
structure Journal (s : Store K) : Prop where
  chained : Chained (links K) 0 none s.journal
  digests : s.DistinctDigests
  settled : ∀ d ∈ disposals s.journal, ∃ row ∈ s.candidates.rows,
    row.candidate.digest = d ∧ row.status.settled = true
  once : (disposals s.journal).Nodup
  founded : ∀ arena, s.evaluationStacks.find? arena = none → s.stackTransitions arena = []

/-! ### The end of the journal -/

theorem Journal.eventsInOrder (h : s.Journal) : s.eventsInOrder = s.events := by
  refine Keyed.sortBy_eq_self ?_
  exact (pairwise_map.1 h.chained.pairwise).imp fun hlt => hlt.le

theorem Journal.eventHead (h : s.Journal) : s.eventHead = (s.journal.length, tip (links K) none
      s.journal) := by
  unfold Store.eventHead
  rw [h.eventsInOrder]
  cases hlast : s.events.getLast? with
  | none =>
    have hnil : s.journal = [] := by
      rw [Store.journal, getLast?_eq_none_iff.1 hlast]
      rfl
    simp [hnil]
  | some row =>
    obtain ⟨rows, hrows⟩ := getLast?_eq_some_iff.1 hlast
    have hjour : s.journal = rows.map (·.event) ++ [row.event] := by
      simp [Store.journal, hrows]
    have hchained := h.chained
    rw [hjour, chained_append] at hchained
    have hseq : row.event.sequence = rows.length := by
      simpa [links] using hchained.2.1
    simp [hjour, hseq, links]

/-! ### Steps -/

/-- What was disposed of stays settled. -/
theorem Journal.settled_step (hstep : StoreStep p s s') (h : s.Journal) :
    ∀ d ∈ disposals s.journal, ∃ row ∈ s'.candidates.rows,
      row.candidate.digest = d ∧ row.status.settled = true := by
  intro d hd
  obtain ⟨row, hmem, hdig, hsettled⟩ := h.settled d hd
  obtain ⟨row', hrow', hrowStep⟩ := hstep.candidate _ row (find?_of_mem hmem)
  refine ⟨row', (find?_eq_some.1 hrow').1, ?_, ?_⟩
  · rw [hrowStep.kept]
    exact hdig
  · rw [(hrowStep.settled hsettled).1]
    exact hsettled

/-- What an operation that does not settle leaves of the journal. -/
theorem Journal.step (hp : p.settles = false) (hstep : StoreStep p s s') (h : s.Journal) :
    s'.Journal := by
  have hevs := hstep.events hp
  have hjour : s'.journal = s.journal := by simp only [Store.journal, hevs]
  refine ⟨hjour ▸ h.chained, hstep.digests h.digests, hjour ▸ h.settled_step hstep,
    hjour ▸ h.once, fun arena hnone => ?_⟩
  rw [stackTransitions, hevs]
  refine h.founded arena ?_
  cases hrow : s.evaluationStacks.find? arena with
  | none => rfl
  | some row =>
    rw [hstep.stack hp arena row hrow] at hnone
    cases hnone

/-! ### Commits -/

variable {events : List SettlementEvent} {rows : List SettlementEventRow} {arena : Digest}
  {c : SettlementCandidate K}

theorem events_of_rows (h : List.Forall₂ (EventRowOf lease) events rows) :
    rows.map (·.event) = events := by
  induction h with
  | nil => rfl
  | cons hrow _ ih => rw [map_cons, hrow.event, ih]

/-- The transitions among the rows that are written under a lease. -/
theorem transitions_of_rows (h : List.Forall₂ (EventRowOf lease) events rows) (arena : Digest) :
    (rows.filter fun row => row.arenaId = arena ∧
        row.event.eventType = .stackTransition).map (·.event) =
      if arena = lease.stack.arenaDigest then
        events.filter (·.eventType = .stackTransition)
      else [] := by
  induction h with
  | nil => simp
  | @cons e row events rows hrow _ ih =>
    rw [filter_cons, hrow.arena, hrow.event]
    by_cases harena : arena = lease.stack.arenaDigest
    · by_cases htype : e.eventType = .stackTransition
      · simp_all [hrow.event]
      · simp_all
    · simp_all [Ne.symm harena]

/-- One event of the group is the crown, and one the transition. -/
theorem filter_crownEvents {winner : SettlementCandidate K}
    {before after : StackArmIdentity} (ce : CrownEvents winner before after events) :
    events.filter (·.eventType = .crown) = [ce.crown] ∧
      events.filter (·.eventType = .stackTransition) = [ce.transition] := by
  have hconsequences : ∀ e ∈ ce.consequences, e.eventType ≠ .crown ∧
      e.eventType ≠ .stackTransition := by
    intro e he
    rcases mem_pair.1 (ce.consequence_type e he).1 with h | h <;> simp [h]
  have hnone {type : SettlementEventType} {l : List SettlementEvent}
      (h : ∀ e ∈ l, e.eventType ≠ type) : l.filter (·.eventType = type) = [] :=
    filter_eq_nil_iff.2 fun e he => by simpa using h e he
  constructor <;> refine (congrArg _ ce.events_eq).trans ?_
  · rw [filter_append, hnone fun e he => by simp [ce.hold_type e he], filter_cons_of_pos
      (by simp [ce.crown_type]), filter_append, hnone fun e he => (hconsequences e he).1]
    simp [ce.transition_type]
  · rw [filter_append, hnone fun e he => by simp [ce.hold_type e he], filter_cons_of_neg
      (by simp [ce.crown_type]), filter_append, hnone fun e he => (hconsequences e he).2]
    simp [ce.transition_type]

theorem disposals_append {events events' : List SettlementEvent} :
    disposals (events ++ events') = disposals events ++ disposals events' := by
  simp [disposals]

section

variable (h : s.commitPlan lease ev plan block resolve = .ok s')

include h

/-- A commit continues the journal with its plan. -/
theorem journal_commit : s'.journal = s.journal ++ plan.events := by
  obtain ⟨s₁, hled, -, -, hwrote⟩ := commitPlan_written h
  obtain ⟨rows, hrows, hevs⟩ := hwrote.events
  simp only [Store.journal, hevs, map_append, events_of_rows hrows, hled]

/-- The transitions after a commit. -/
theorem stackTransitions_commit (arena : Digest) :
    s'.stackTransitions arena = s.stackTransitions arena ++
      if arena = lease.stack.arenaDigest then
        plan.events.filter (·.eventType = .stackTransition)
      else [] := by
  obtain ⟨s₁, hled, -, -, hwrote⟩ := commitPlan_written h
  obtain ⟨rows, hrows, hevs⟩ := hwrote.events
  simp only [stackTransitions, hevs, hled, filter_append, map_append, transitions_of_rows hrows]

theorem Journal.chained_commit (hs : s.Journal) : Chained (links K) 0 none s'.journal := by
  rw [journal_commit h, chained_append]
  refine ⟨hs.chained, ?_⟩
  obtain ⟨s₁, hled, hunchanged, hplan, -⟩ := commitPlan_written h
  have hhead : s.eventHead = (lease.initialEventSequence, lease.previousEventDigest) := by
    have h₁ := hunchanged.head
    unfold Store.eventHead Store.eventsInOrder at h₁ ⊢
    rwa [hled] at h₁
  rw [hs.eventHead, Prod.mk.injEq] at hhead
  rw [Nat.zero_add, hhead.1, hhead.2]
  exact chained_of_plan hplan

/-- The candidates of a lease have not been disposed of. -/
theorem Journal.disjoint_commit (hs : s.Journal) :
    ∀ d ∈ disposals s.journal, d ∉ disposals plan.events := by
  intro d hd hd'
  obtain ⟨s₁, hled, hunchanged, hplan, -⟩ := commitPlan_written h
  obtain ⟨c, hc, rfl⟩ := List.mem_map.1 ((disposals_of_plan hplan).mem_iff.1 hd')
  obtain ⟨row, hrow, hlease, -, hdig⟩ := hunchanged.leasedRow hc
  obtain ⟨row', hmem', hdig', hsettled⟩ := hs.settled _ hd
  rw [hled] at hrow
  have hsame : row = row' := inj_on_of_nodup_map hs.digests (find?_eq_some.1 hrow).1
    hmem' (hdig.trans hdig'.symm)
  rw [← hsame, hlease] at hsettled
  exact absurd hsettled (by decide)

end

/-- The arm of a stack. -/
def stackArm (K : IntakeHashes) (row : StackRow) : StackArmIdentity :=
  ⟨K.manifest row.manifest, row.treeDigest⟩

/-- Move an arm along transitions, each of which has to start where the one before ended. -/
def replayStack (arm : StackArmIdentity) (transitions : List SettlementEvent) :
    Option StackArmIdentity :=
  transitions.foldlM (fun arm e => if e.source = arm then some e.destination else none) arm

theorem evaluationStack_ok {state : EvaluationStackState} :
    s.evaluationStack arena = .ok state ↔ ∃ row,
      s.evaluationStacks.find? arena = some row ∧ row.toEvaluationStackState = state ∧
        state.manifest.arenaDigest = state.arenaDigest := by
  simp only [evaluationStack, reopenStack, bind_ok, exists_check,
    get_ok, pure, Except.pure, Except.ok.injEq]
  constructor
  · rintro ⟨row, hrow, harena, rfl⟩
    exact ⟨row, hrow, rfl, harena⟩
  · rintro ⟨row, hrow, rfl, harena⟩
    exact ⟨row, hrow, harena, rfl⟩

/-- A commit moves the stack of its arena along the transitions of its plan. -/
theorem stack_commit (h : s.commitPlan lease ev plan block resolve = .ok s') :
    ∃ row row' : StackRow, s.evaluationStacks.find? lease.stack.arenaDigest = some row ∧
      s'.evaluationStacks.find? lease.stack.arenaDigest = some row' ∧
      row'.manifest.arenaDigest = row'.arenaDigest ∧
      replayStack (stackArm K row) (plan.events.filter (·.eventType = .stackTransition)) =
        some (stackArm K row') ∧
      row'.generation =
        row.generation + (plan.events.filter (·.eventType = .stackTransition)).length := by
  obtain ⟨s₁, hled, hunchanged, -, hwrote⟩ := commitPlan_written h
  obtain ⟨row, hrow, hstate, harena⟩ := evaluationStack_ok.1 hunchanged.stack
  have harm : stackArm K row = leaseArm lease := by
    unfold stackArm leaseArm planBefore
    rw [← hstate]
  refine ⟨row, ?_⟩
  rcases hwrote.outcome with hhold | hcrown
  · have hnone : plan.events.filter (·.eventType = .stackTransition) = [] := by
      refine filter_eq_nil_iff.2 fun e he => ?_
      simp [hhold.holds e he]
    refine ⟨row, hled ▸ hrow, hhold.stacks_eq ▸ hrow, ?_, ?_, ?_⟩
    · rw [hstate]
      exact harena
    · rw [hnone]
      rfl
    · rw [hnone]
      rfl
  · obtain ⟨hcrown⟩ := hcrown
    have hcur : hcrown.current = row := by
      have hfind := hcrown.current_eq
      rw [hrow, some_inj] at hfind
      exact hfind.symm
    have hkey : row.arena = lease.stack.arenaDigest := (find?_eq_some.1 hrow).2
    rw [(filter_crownEvents hcrown.events).2]
    refine ⟨movedStack row hcrown.transition (K.event hcrown.events.transition),
      hled ▸ hrow, ?_, ?_, ?_, rfl⟩
    · rw [hcrown.moved, hcur, find?_put]
      exact if_pos hkey.symm
    · exact hcrown.arena.trans hkey.symm
    · have hsrc : hcrown.events.transition.source = stackArm K row := by
        rw [hcrown.events.source, harm]
      simp only [replayStack, foldlM_cons, foldlM_nil, hsrc, if_true]
      have hman := hcrown.manifest
      simp [stackArm, movedStack, hman, hcrown.events.destination]

/-- What a plan leaves of the stacks. -/
theorem stack_of_outcome (h : Written lease ev plan block s s')
    (harena : arena ≠ lease.stack.arenaDigest) :
    s'.evaluationStacks.find? arena = s.evaluationStacks.find? arena := by
  rcases h.outcome with hhold | hcrown
  · rw [hhold.stacks_eq]
  · obtain ⟨hcrown⟩ := hcrown
    rw [hcrown.moved, find?_put, if_neg]
    rw [show (movedStack hcrown.current _ _).arena = hcrown.current.arena from rfl,
      (find?_eq_some.1 hcrown.current_eq).2]
    exact harena

/-- The row of a leased candidate is settled by the commit. -/
theorem settled_of_commit (h : s.commitPlan lease ev plan block resolve = .ok s')
    (hc : c ∈ lease.candidates) :
    ∃ row ∈ s'.candidates.rows, row.candidate.digest = c.digest ∧ row.status.settled = true := by
  obtain ⟨s₁, -, hunchanged, -, hwrote⟩ := commitPlan_written h
  obtain ⟨row, hrow, -, -, hdig⟩ := hunchanged.leasedRow hc
  obtain ⟨status, rcpt, hstat, -, hfind⟩ := hwrote.disposed c hc
  rw [hrow, map_some] at hfind
  refine ⟨_, (find?_eq_some.1 hfind).1, hdig, ?_⟩
  rcases dispositionOf_eq hstat with rfl | rfl <;> rfl

theorem Journal.commit (hs : s.Journal)
    (h : s.commitPlan lease ev plan block resolve = .ok s') : s'.Journal := by
  have hstep := commitPlan_step h
  obtain ⟨s₁, hled, hunchanged, hplan, hwrote⟩ := commitPlan_written h
  have hplanned : (disposals plan.events).Nodup :=
    (disposals_of_plan hplan).nodup_iff.2 (planSettlement_cases hplan).1.1
  refine ⟨hs.chained_commit h, hstep.digests hs.digests, ?_, ?_, ?_⟩
  · intro d hd
    rw [journal_commit h, disposals_append, mem_append] at hd
    rcases hd with hd | hd
    · exact hs.settled_step hstep d hd
    · obtain ⟨c, hc, rfl⟩ := List.mem_map.1 ((disposals_of_plan hplan).mem_iff.1 hd)
      exact settled_of_commit h hc
  · rw [journal_commit h, disposals_append]
    refine nodup_append.2 ⟨hs.once, hplanned, ?_⟩
    intro d hd d' hd' heq
    exact hs.disjoint_commit h d hd (heq ▸ hd')
  · intro arena hnone
    -- A commit is made over a stack, so an arena without a stack is another one.
    have harena : arena ≠ lease.stack.arenaDigest := by
      rintro rfl
      obtain ⟨_, row', -, hrow', -⟩ := stack_commit h
      exact absurd (hnone.symm.trans hrow') (by simp)
    rw [stackTransitions_commit h, if_neg harena, append_nil]
    refine hs.founded arena ?_
    rw [← hled, ← stack_of_outcome hwrote harena]
    exact hnone

/-! ### Runs -/

theorem settles_queue (op : QueueOp) : op.permit.settles = false := by
  cases op <;> rfl

/-- An operation does nothing, or is not permitted to settle, or is a commit that went
through. -/
theorem step_cases (s : Store K) (op : Op K) :
    s.step op = s ∨ op.permit.settles = false ∨ ∃ lease ev plan block resolve,
      s.commitPlan lease ev plan block resolve = .ok (s.step op) := by
  cases op with
  | commitSettlement lease ev plan block resolve =>
    cases h : s.commitPlan lease ev plan block resolve with
    | error fault =>
      simp [step, commitSettlement, h]
    | ok s' =>
      refine .inr (.inr ⟨lease, ev, plan, block, resolve, ?_⟩)
      simp [step, commitSettlement, h]
  | queue op => exact .inr (.inl (settles_queue op))
  | _ => exact .inr (.inl rfl)

theorem journal_step (hs : s.Journal) (op : Op K) : (s.step op).Journal := by
  rcases s.step_cases op with hsame | hp | ⟨_, _, _, _, _, hcom⟩
  · exact hsame.symm ▸ hs
  · exact hs.step hp (s.step_spec op)
  · exact hs.commit hcom

theorem journal_init (policy : IntakePolicy) (recov : Bool) : (init K policy recov).Journal :=
  ⟨trivial, nodup_nil, forall_mem_nil _, nodup_nil, fun _ _ => rfl⟩

theorem journal_run (policy : IntakePolicy) (recov : Bool) (ops : List (Op K)) :
    ((init K policy recov).run ops).Journal :=
  run_invariant (journal_init policy recov) fun _ op hs => journal_step hs op

/-! ### Stacks -/

/-- A stack is the one its arena was commissioned with at some point of the run, moved along all
transitions of the arena. -/
def FoldedFromGenesis (s₀ : Store K) (ops : List (Op K)) (arena : Digest) (row : StackRow) : Prop :=
  ∃ pre op post genesis, ops = pre ++ op :: post ∧
    (s₀.run pre).evaluationStacks.find? arena = none ∧
    (s₀.run (pre ++ [op])).evaluationStacks.find? arena = some genesis ∧
    genesis.generation = 0 ∧
    replayStack (stackArm K genesis) ((s₀.run ops).stackTransitions arena) = some (stackArm K row) ∧
    row.generation = ((s₀.run ops).stackTransitions arena).length

/-- One more operation that moves the stack along the transitions it writes. -/
theorem FoldedFromGenesis.concat {s₀ : Store K} {ops : List (Op K)} {op : Op K}
    {row row' : StackRow} (new : List SettlementEvent) (h : FoldedFromGenesis s₀ ops arena row)
    (hnew : (s₀.run (ops ++ [op])).stackTransitions arena =
      (s₀.run ops).stackTransitions arena ++ new)
    (hreplay : replayStack (stackArm K row) new = some (stackArm K row'))
    (hgen : row'.generation = row.generation + new.length) :
    FoldedFromGenesis s₀ (ops ++ [op]) arena row' := by
  obtain ⟨pre, op₀, post, genesis, hops, hnone, hgenesis, hzero, hfold, hcount⟩ := h
  refine ⟨pre, op₀, post ++ [op], genesis, by simp [hops], hnone, hgenesis, hzero, ?_, ?_⟩
  · rw [replayStack] at hfold
    rw [hnew, replayStack, foldlM_append, hfold]
    exact hreplay
  · rw [hnew, length_append, hgen, hcount]

theorem foldedFromGenesis_run (policy : IntakePolicy) (recov : Bool) (ops : List (Op K))
    (arena : Digest) (row : StackRow)
    (h : ((init K policy recov).run ops).evaluationStacks.find? arena = some row) :
    FoldedFromGenesis (init K policy recov) ops arena row := by
  induction ops using List.reverseRecOn generalizing row with
  | nil => cases h
  | append_singleton ops op ih =>
    have hjour := journal_run (K := K) policy recov ops
    have hrun := run_concat (init K policy recov) ops op
    rw [hrun] at h
    set s := (init K policy recov).run ops
    rcases s.step_cases op with hidle | hp | ⟨lease, _, plan, _, _, hcom⟩
    · rw [hidle] at h
      refine (ih row h).concat [] ?_ rfl rfl
      rw [hrun, hidle, append_nil]
    · have hstep := s.step_spec op
      have hsame : ((init K policy recov).run (ops ++ [op])).stackTransitions arena =
          s.stackTransitions arena ++ [] := by
        rw [hrun, append_nil, stackTransitions, hstep.events hp, stackTransitions]
      cases hrow : s.evaluationStacks.find? arena with
      | none =>
        -- The arena was commissioned just now, and has no transitions yet.
        refine ⟨ops, op, [], row, rfl, hrow, hrun ▸ h, hstep.newStack hp arena row h hrow, ?_, ?_⟩
        · rw [hsame, hjour.founded arena hrow]
          rfl
        · rw [hsame, hjour.founded arena hrow]
          exact hstep.newStack hp arena row h hrow
      | some row₀ =>
        have hkept := hstep.stack hp arena row₀ hrow
        rw [h, some_inj] at hkept
        exact hkept ▸ (ih row₀ hrow).concat _ hsame rfl rfl
    · have hnew := hrun ▸ stackTransitions_commit hcom arena
      by_cases harena : arena = lease.stack.arenaDigest
      · obtain ⟨row₀, row', hrow₀, hrow', -, hreplay, hgen⟩ := stack_commit hcom
        rw [← harena] at hrow₀ hrow'
        rw [h, some_inj] at hrow'
        rw [if_pos harena] at hnew
        exact (ih row₀ hrow₀).concat _ hnew (hrow' ▸ hreplay) (hrow' ▸ hgen)
      · obtain ⟨s₁, hled, -, -, hwrote⟩ := commitPlan_written hcom
        rw [if_neg harena] at hnew
        rw [stack_of_outcome hwrote harena, hled] at h
        exact (ih row h).concat _ hnew rfl rfl

/-! ### Leases that were lost -/

/-- A candidate of the lease is past its generation, or is not leased any more. -/
def Superseded (lease : SettlementLease K) (s : Store K) : Prop :=
  ∃ c ∈ lease.candidates, ∃ row, s.candidates.find? c.primary.reservationDigest = some row ∧
      (lease.generation < row.leaseGeneration ∨
        lease.generation = row.leaseGeneration ∧ row.status ≠ .leased)

theorem Superseded.of_step (hs : StoreStep p s s') (h : s.Superseded lease) :
    s'.Superseded lease := by
  obtain ⟨c, hc, row, hrow, hlost⟩ := h
  obtain ⟨row', hrow', hstep⟩ := hs.candidate _ row hrow
  refine ⟨c, hc, row', hrow', ?_⟩
  rcases hlost with hlt | ⟨heq, hstat⟩
  · exact .inl (hlt.trans_le hstep.generation)
  · rcases hstep.generation.lt_or_eq with hlt | hgen
    · exact .inl (heq ▸ hlt)
    · -- At the same generation nothing is leased that was not.
      refine .inr ⟨heq.trans hgen, fun hlease => ?_⟩
      rcases hstep.leased hlease with ⟨hlease', -⟩ | hlt
      · exact hstat hlease'
      · exact absurd hgen hlt.ne

theorem Superseded.run (h : s.Superseded lease) (ops : List (Op K)) :
    (s.run ops).Superseded lease :=
  run_invariant h fun s op hs => hs.of_step (s.step_spec op)

theorem Superseded.commitPlan_ne_ok (h : s.Superseded lease) :
    s.commitPlan lease ev plan block resolve ≠ .ok s' := by
  intro hcom
  obtain ⟨c, hc, row, hrow, hlost⟩ := h
  obtain ⟨s₁, hled, hunchanged, -, -⟩ := commitPlan_written hcom
  obtain ⟨row', hrow', hlease, hgen, -⟩ := hunchanged.leasedRow hc
  rw [hled, hrow, some_inj] at hrow'
  subst hrow'
  rcases hlost with hlt | ⟨-, hstat⟩
  · exact hlt.ne hgen.symm
  · exact hstat hlease

theorem superseded_of_takenBack {q : CandidateRow K → Prop} [DecidablePred q] {reason : String}
    (hc : c ∈ lease.candidates) {row : CandidateRow K}
    (hrow : s.candidates.find? c.primary.reservationDigest = some row) (hq : q row)
    (hgen : lease.generation ≤ row.leaseGeneration) :
    (s.mapCandidates q fun c => takenBack reason c.toCandidateState).Superseded lease := by
  refine ⟨c, hc, row.withState (takenBack reason row.toCandidateState), ?_, .inl ?_⟩
  · rw [find?_mapCandidates_of hrow, if_pos hq]
  · exact Nat.lt_succ_of_le hgen

section Lost

variable {c : SettlementCandidate K} (hc : c ∈ lease.candidates)
  {row : CandidateRow K} (hrow : s.candidates.find? c.primary.reservationDigest = some row)
  (hlease : row.status = .leased) (hgen : lease.generation ≤ row.leaseGeneration) {now blocks : ℕ}

include hc hrow hlease hgen

/-- A restart takes back every lease. -/
theorem superseded_restart {policy : IntakePolicy} {recov : Bool}
    (h : (s.restart policy recov).2 = none) :
    (s.restart policy recov).1.Superseded lease := by
  obtain ⟨s₁, -, hlast, hrecovered⟩ := restart_spec s policy recov
  refine Superseded.of_step hlast ?_
  have hrecovered := hrecovered h
  simp only [recoverInterrupted, bind_ok] at hrecovered
  obtain ⟨s₂, h₂, hrecovered⟩ := hrecovered
  cases hrecovered
  obtain ⟨row', hrow', hstat', hgen'⟩ := finalizePrefix_candidate (s := s.reopen policy recov) hrow
  rw [updateReservations_eq h₂]
  exact superseded_of_takenBack hc hrow' (hstat'.trans hlease) (hgen' ▸ hgen)

section

variable (hexp : row.leaseExpiresBlock ≤ now)

include hexp

/-- Leasing takes back the leases that have expired. -/
theorem superseded_refreshCandidates : (s.refreshCandidates now).Superseded lease := by
  have hrow' : s.holdDemoted.candidates.find? c.primary.reservationDigest = some _ :=
    find?_mapCandidates_of hrow
  by_cases hq : row.status ∈ [.pending, .leased] ∧ s.stillQualified row = false
  · -- A reservation that was demoted takes its candidate with it.
    rw [if_pos hq] at hrow'
    have hlost : s.holdDemoted.Superseded lease := by
      refine ⟨c, hc, _, hrow', ?_⟩
      rcases hgen.lt_or_eq with hlt | heq
      · exact .inl hlt
      · exact .inr ⟨heq, by simp [CandidateRow.withState]⟩
    exact hlost.of_step (p := {}) (mapCandidates_step fun _ _ hc => candidateStep_takenBack hc.1)
  · rw [if_neg hq] at hrow'
    exact superseded_of_takenBack hc hrow' ⟨hlease, hexp⟩ hgen

theorem superseded_leaseCohort {fields : Option (SettlementLeaseFields K)}
    (h : s.leaseCohort now blocks = .ok (s', fields)) : s'.Superseded lease := by
  obtain ⟨s₁, h₁, hrest⟩ := leaseCohort_spec h
  have hled : s₁.ledger = s.ledger := (expireStaleRows_step (p := {}) h₁).ledger
  refine Superseded.of_step hrest ?_
  exact superseded_refreshCandidates hc (hled ▸ hrow) hlease hgen hexp

theorem superseded_leaseSettlementCohort {result : Option (SettlementLease K)}
    (h : (s.leaseSettlementCohort now blocks).2 = .ok result) :
    (s.leaseSettlementCohort now blocks).1.Superseded lease := by
  cases hcohort : s.leaseCohort now blocks with
  | error fault => simp [leaseSettlementCohort, hcohort] at h
  | ok cohort =>
    obtain ⟨s', fields⟩ := cohort
    have hafter : (s.leaseSettlementCohort now blocks).1 = s' := by
      cases fields <;> simp [leaseSettlementCohort, hcohort]
    rw [hafter]
    exact superseded_leaseCohort hc hrow hlease hgen hexp hcohort

end

end Lost

/-! ### Commits that raise -/

/-- A commit that wrote its plan also reads the stack it leaves. -/
theorem commitSettlement_error {fault : IntakeFault}
    (h : (s.commitSettlement lease ev plan block resolve).2 = .error fault) :
    (s.commitSettlement lease ev plan block resolve).1 = s := by
  cases hplan : s.commitPlan lease ev plan block resolve with
  | error fault => simp [commitSettlement, hplan]
  | ok s' =>
    obtain ⟨_, row', -, hrow', harena, -⟩ := stack_commit hplan
    simp [commitSettlement, hplan, evaluationStack_ok.2 ⟨row', hrow', rfl, harena⟩] at h

theorem Superseded.commitSettlement_raises (h : s.Superseded lease) :
    ∃ fault, (s.commitSettlement lease ev plan block resolve).2 = .error fault := by
  cases hplan : s.commitPlan lease ev plan block resolve with
  | error fault => exact ⟨fault, by simp [commitSettlement, hplan]⟩
  | ok s' => exact absurd hplan h.commitPlan_ne_ok

/-- **The settlement journal.**  After any operations on a new store, with whatever leases,
evidence, plans and batches the callers pass:
the journal is gap-free from 0 and hash-chained;
each stack is its genesis folded with the transitions of its arena, and its generation is their
number;
no candidate has more than one HOLD or CROWN;
a lease that was superseded can never be committed again, and a restart or the expiry of a lease
supersedes it;
and a commit that raises leaves every table as it was. -/
theorem settlement_journal (policy : IntakePolicy) (recoverable : Bool) (ops : List (Op K)) :
    let s := (init K policy recoverable).run ops
    Chained (links K) 0 none s.journal ∧
    (∀ arena row, s.evaluationStacks.find? arena = some row →
      FoldedFromGenesis (init K policy recoverable) ops arena row) ∧
    (∀ digest, (disposals s.journal).count digest ≤ 1) ∧
    (∀ lease, s.Superseded lease → ∀ ops' ev plan block resolve, ∃ fault,
      ((s.run ops').commitSettlement lease ev plan block resolve).2 = .error fault) ∧
    (∀ lease : SettlementLease K, ∀ c ∈ lease.candidates, ∀ row,
      s.candidates.find? c.primary.reservationDigest = some row →
      row.status = .leased → lease.generation ≤ row.leaseGeneration →
        (∀ policy' recoverable', (s.restart policy' recoverable').2 = none →
          (s.restart policy' recoverable').1.Superseded lease) ∧
        ∀ now blocks result, row.leaseExpiresBlock ≤ now →
          (s.leaseSettlementCohort now blocks).2 = .ok result →
          (s.leaseSettlementCohort now blocks).1.Superseded lease) ∧
    ∀ lease ev plan block resolve fault,
      (s.commitSettlement lease ev plan block resolve).2 = .error fault →
      (s.commitSettlement lease ev plan block resolve).1 = s := by
  intro s
  have hjour : s.Journal := journal_run policy recoverable ops
  refine ⟨hjour.chained, ?_, nodup_iff_count_le_one.1 hjour.once, ?_, ?_, ?_⟩
  · exact foldedFromGenesis_run policy recoverable ops
  · intro lease hlost ops' ev plan block resolve
    exact (hlost.run ops').commitSettlement_raises
  · intro lease c hc row hrow hlease hgen
    refine ⟨fun policy' recoverable' h => ?_, fun now blocks result hexp h => ?_⟩
    · exact superseded_restart hc hrow hlease hgen h
    · exact superseded_leaseSettlementCohort hc hrow hlease hgen hexp h
  · intro lease ev plan block resolve fault h
    exact commitSettlement_error h

end Store

end Cacheon
