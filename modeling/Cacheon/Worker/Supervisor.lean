import Mathlib.Algebra.Order.Ring.Rat

/-!
# The standing supervisor

One loop runs the settlement, the qualification and the weights stage in turn.  A qualification
may leave its request pending at the worker; after a stop the loop is to go on until the request
has its result.

* `tick`, `turn` : the stages once, and one turn of the loop of `run_forever`.
* `Undisturbed` : in a turn at whose end the loop is told to end, no other stage overwrites the
  status of the request.
* `drains` : it does so in every run of such turns.
-/

namespace Cacheon

open List

/-- The stages, in the order of a tick. -/
inductive SupervisorStage where
  | settlement
  | qualification
  | weights
deriving DecidableEq

/-- The public phase. -/
inductive SupervisorPhase where
  | idle
  | qualification
  | settlement
  | weights
  | hold
  | failed
deriving DecidableEq

/-- The phase of a result that names none. -/
def SupervisorStage.phase : SupervisorStage → SupervisorPhase
  | .settlement => .settlement
  | .qualification => .qualification
  | .weights => .weights

/-- The normalized result of a stage. -/
structure SupervisorStageResult where
  progressed : Bool
  disposition : Option String
  holdReason : Option String := none
  phase : Option SupervisorPhase := none
deriving DecidableEq

/-- How the call of a stage ends. -/
inductive StageOutcome where
  | idle
  | result (r : SupervisorStageResult)
  /-- `QualificationWaitPending`. -/
  | pending
deriving DecidableEq

/-- What a stage gives to its tick. -/
def StageOutcome.toResult : StageOutcome → Option SupervisorStageResult
  | .idle => none
  | .result r => some r
  | .pending =>
    some { progressed := false, disposition := "waiting", phase := some .qualification }

/-- The stage made progress. -/
def StageOutcome.progressed (o : StageOutcome) : Bool := o.toResult.any (·.progressed)

/-- A supervisor and what its loop meets.  Moments count the readings of the stop signal. -/
structure SupervisorEnv where
  /-- The stages it is made of. -/
  composed : SupervisorStage → Bool
  stallTimeout : ℚ
  stallTimeout_pos : 0 < stallTimeout
  clock : ℕ → ℚ
  /-- How the calls end, in their order. -/
  qualificationOnce : ℕ → StageOutcome
  optionalStage : ℕ → Option SupervisorStageResult
  /-- The moment from which the stop signal is set. -/
  stopAt : Option ℕ
  /-- Whether a wait tells the loop to end. -/
  wait : ℕ → Bool

/-- The stop signal is set. -/
def SupervisorEnv.stopped (env : SupervisorEnv) (moment : ℕ) : Bool := env.stopAt.any (· ≤ moment)

/-- How a call of a stage ends. -/
def SupervisorEnv.call (env : SupervisorEnv) (stage : SupervisorStage) (n : ℕ) : StageOutcome :=
  if stage = .qualification then env.qualificationOnce n
  else (env.optionalStage n).elim .idle .result

/-- The public status. -/
structure SupervisorStatus where
  phase : SupervisorPhase
  lastProgress : ℚ
  lastDisposition : Option String
deriving DecidableEq

/-- A stage was called: after which reading of the stop signal, and how it ended. -/
structure StageCall where
  stage : SupervisorStage
  moment : ℕ
  outcome : StageOutcome
deriving DecidableEq

/-- The supervisor in the loop of `run_forever`. -/
structure StandingCpuSupervisor where
  status : SupervisorStatus
  lastTickProgressed : Bool := false
  moment : ℕ := 0
  /-- How often a stage was called, and the calls of the last turn. -/
  count : ℕ := 0
  calls : List StageCall := []
  /-- The most recent call of the qualification left its request pending. -/
  pending : Bool := false
  returned : Bool := false

/-- The first result of a tick without progress, and its stage. -/
abbrev Deferred := Option (SupervisorStage × SupervisorStageResult)

namespace StandingCpuSupervisor

section Model

variable (env : SupervisorEnv) (s : StandingCpuSupervisor)

/-- The last disposition is that of a pending request. -/
def waiting : Bool := s.status.lastDisposition = some "waiting"

/-- Publish the result of a stage. -/
def observe (stage : SupervisorStage) (r : SupervisorStageResult) : StandingCpuSupervisor :=
  { s with
    lastTickProgressed := r.progressed
    status := {
      phase := r.phase.getD (if r.holdReason.any (· ≠ "") then .hold else stage.phase)
      lastProgress := if r.progressed then env.clock s.moment else s.status.lastProgress
      lastDisposition := r.disposition } }

/-- Publish a tick without a result. -/
def observeIdle : StandingCpuSupervisor :=
  let stalled : Bool := env.stallTimeout ≤ env.clock s.moment - s.status.lastProgress
  { s with
    lastTickProgressed := false
    status := { s.status with
      phase := if stalled then .hold else .idle
      lastDisposition := if stalled then "hold" else none } }

/-- A stage is not composed, or there is a stop and it is not a waiting qualification. -/
def skips (stage : SupervisorStage) : Bool :=
  (env.stopped s.moment && (stage ≠ .qualification || !s.waiting)) || !env.composed stage

/-- The stop signal was read. -/
def read : StandingCpuSupervisor := { s with moment := s.moment + 1 }

/-- A stage was called. -/
def called (stage : SupervisorStage) : StandingCpuSupervisor :=
  let outcome := env.call stage s.count
  { s.read with
    count := s.count + 1
    calls := s.calls ++ [⟨stage, s.moment, outcome⟩]
    pending := if stage = .qualification then outcome = .pending else s.pending }

/-- The stages that are left of a tick. -/
def runStages : List SupervisorStage → Deferred → StandingCpuSupervisor → StandingCpuSupervisor
  | [], deferred, s => deferred.elim (s.observeIdle env) fun d => s.observe env d.1 d.2
  | stage :: rest, deferred, s =>
    if s.skips env stage then runStages rest deferred s.read
    else match (env.call stage s.count).toResult with
      | none => runStages rest deferred (s.called env stage)
      | some r =>
        if r.progressed then (s.called env stage).observe env stage r
        else runStages rest (deferred.or (some (stage, r))) (s.called env stage)

/-- The stages once, a settlement before a new qualification; the loop has read the signal. -/
def tick : StandingCpuSupervisor :=
  runStages env [.settlement, .qualification, .weights] none
    { s with moment := s.moment + 1, calls := [] }

/-- One turn of the loop of `run_forever`. -/
def turn : StandingCpuSupervisor :=
  if s.returned || (env.stopped s.moment && !s.waiting) then
    { s with calls := [], returned := true }
  else
    let s' := s.tick env
    { s'.read with
      returned :=
        if env.stopped s'.moment then !s'.waiting
        else if s'.status.phase = .idle then env.wait s'.moment
        else !s'.lastTickProgressed && env.wait s'.moment && !s'.waiting }

/-- The loop after a number of turns. -/
def run (n : ℕ) : StandingCpuSupervisor := (turn env)^[n] { status := ⟨.idle, env.clock 0, none⟩ }

/-- The settlement had no result and the weights made no progress. -/
def Quiet : Prop := ∀ c ∈ s.calls, (c.stage = .settlement → c.outcome = .idle) ∧
  (c.stage = .weights → c.outcome.progressed = false)

/-- The qualification was called. -/
def Asked : Prop := ∃ c ∈ s.calls, c.stage = .qualification

/-- After the turn the loop is told to end: its wait says so, or the next turn begins with the stop
signal set. -/
def Ending : Prop := env.stopped s.moment = true ∨ env.wait (s.moment - 1) = true

/-- If the loop is told to end after the turn and the request is pending, then the turn called the
qualification, its settlement had no result and its weights made no progress. -/
def Undisturbed : Prop := s.pending → s.Ending env → s.Asked ∧ s.Quiet

instance : Decidable (s.Undisturbed env) := by
  unfold Undisturbed Ending Asked Quiet
  infer_instance

/-- A turn called composed stages, and with the stop signal set only the qualification; a pending
request is one of a composed qualification. -/
def Allowed : Prop := (∀ c ∈ s.calls, env.stopped c.moment → c.stage = .qualification) ∧
  (s.pending → env.composed .qualification)

/-- The next turn does not end the loop at its head. -/
def Ticks : Prop := (s.returned || (env.stopped s.moment && !s.waiting)) = false

end Model

variable {env : SupervisorEnv} {s t : StandingCpuSupervisor} {l : List SupervisorStage}
  {d : Deferred} {stage : SupervisorStage}

theorem stopped_mono {m n : ℕ} (h : m ≤ n) (hm : env.stopped m) : env.stopped n := by
  obtain ⟨k, hk, hle⟩ := (Option.any_eq_true _ _).1 hm
  exact (Option.any_eq_true _ _).2 ⟨k, hk, decide_eq_true ((of_decide_eq_true hle).trans h)⟩

/-- What the calls and the readings of a tick keep holds after it. -/
theorem runStages_invariant {Q : StandingCpuSupervisor → Prop} (hread : ∀ s, Q s → Q s.read)
    (hcall : ∀ s, ∀ stage ∈ l, ¬ s.skips env stage → Q s → Q (s.called env stage))
    (hstatus : ∀ s status b, Q s → Q { s with status := status, lastTickProgressed := b })
    (hs : Q s) : Q (runStages env l d s) := by
  induction l generalizing d s with
  | nil => cases d <;> exact hstatus _ _ _ hs
  | cons stage rest ih =>
    have ih {d s} := ih (d := d) (s := s) fun s stage h => hcall s stage (.tail _ h)
    rw [runStages]
    split_ifs with hskip
    · exact ih (hread s hs)
    · have hcalled := hcall s stage mem_cons_self hskip hs
      split
      · exact ih hcalled
      · split_ifs
        · exact hstatus _ _ _ hcalled
        · exact ih hcalled

theorem mem_runStages {c : StageCall} (h : c ∈ s.calls) : c ∈ (runStages env l d s).calls :=
  runStages_invariant (Q := (c ∈ ·.calls)) (fun _ => id) (fun _ _ _ _ => mem_append_left _)
    (fun _ _ _ => id) h

theorem stage_of_mem_runStages {c : StageCall} (h : c ∈ (runStages env l d s).calls) :
    c ∈ s.calls ∨ c.stage ∈ l := by
  refine runStages_invariant (Q := fun t => c ∈ t.calls → c ∈ s.calls ∨ c.stage ∈ l)
    (fun _ => id) (fun t stage hl _ ht hc => ?_) (fun _ _ _ => id) .inl h
  obtain hc | hc := mem_append.1 hc
  · exact ht hc
  · exact .inr (mem_singleton.1 hc ▸ hl)

theorem moment_le_runStages : s.moment ≤ (runStages env l d s).moment :=
  runStages_invariant (Q := (s.moment ≤ ·.moment)) (fun _ h => h.trans (Nat.le_succ _))
    (fun _ _ _ _ h => h.trans (Nat.le_succ _)) (fun _ _ _ => id) le_rfl

theorem pending_runStages (h : .qualification ∉ l) : (runStages env l d s).pending = s.pending :=
  runStages_invariant (Q := (·.pending = s.pending)) (fun _ => id)
    (fun _ _ hl _ ht => (if_neg (ne_of_mem_of_not_mem hl h)).trans ht) (fun _ _ _ => id) rfl

/-- What a stage can do to its tick. -/
theorem runStages_cases (env : SupervisorEnv) (stage : SupervisorStage) (l : List SupervisorStage)
    (d : Deferred) (s : StandingCpuSupervisor) :
    s.skips env stage ∧ runStages env (stage :: l) d s = runStages env l d s.read ∨
    ¬ s.skips env stage ∧ ∃ o, ⟨stage, s.moment, o⟩ ∈ (s.called env stage).calls ∧
      (stage = .qualification → (s.called env stage).pending = decide (o = .pending)) ∧
      (o = .idle ∧ runStages env (stage :: l) d s = runStages env l d (s.called env stage) ∨
        ∃ r, o.toResult = some r ∧ (r.progressed ∧ runStages env (stage :: l) d s =
            (s.called env stage).observe env stage r ∨
            r.progressed = false ∧ runStages env (stage :: l) d s =
              runStages env l (d.or (some (stage, r))) (s.called env stage))) := by
  rw [runStages]
  split_ifs with hskip
  · exact .inl ⟨hskip, rfl⟩
  · refine .inr ⟨hskip, env.call stage s.count, mem_append_right _ mem_cons_self,
      fun hq => if_pos hq, ?_⟩
    cases hout : env.call stage s.count with
    | idle => exact .inl ⟨rfl, rfl⟩
    | result r | pending =>
      refine .inr ⟨_, rfl, ?_⟩
      simp only [StageOutcome.toResult]
      split_ifs with hprogress <;> simp_all

/-! ### A tick publishes its pending request -/

theorem waiting_weights {r : SupervisorStageResult} (hr : StageOutcome.pending.toResult = some r)
    (ht : t = runStages env [.weights] (some (.qualification, r)) s) (hquiet : t.Quiet) :
    t.waiting ∧ t.status.phase = .qualification := by
  cases hr
  obtain ⟨-, hv⟩ | ⟨-, o, hcall, -, ⟨-, hv⟩ | ⟨r, hr, ⟨hprogress, hv⟩ | ⟨-, hv⟩⟩⟩ :=
    runStages_cases env .weights [] (some (.qualification, _)) s <;> obtain rfl := ht.trans hv
  case inr.inr.inl =>
    have hidle := (hquiet _ hcall).2 rfl
    simp [StageOutcome.progressed, hr, hprogress] at hidle
  all_goals exact ⟨rfl, rfl⟩

theorem waiting_qualification (ht : t = runStages env [.qualification, .weights] none s)
    (hs : ¬ s.Asked) (hasked : t.Asked) (hquiet : t.Quiet) (hp : t.pending) :
    t.waiting ∧ t.status.phase = .qualification := by
  obtain ⟨-, hv⟩ | ⟨-, o, -, hpending, hcases⟩ :=
    runStages_cases env .qualification [.weights] none s
  · -- Only weights are called after a qualification that is skipped.
    obtain ⟨c, hc, hstage⟩ := hasked
    obtain hc | hc := stage_of_mem_runStages (ht.trans hv ▸ hc)
    · exact absurd ⟨c, hc, hstage⟩ hs
    · simp [hstage] at hc
  · have hstays {d : Deferred} (hv : t = runStages env [.weights] d (s.called env .qualification)) :
        o = .pending := by
      rw [hv, pending_runStages (by decide), hpending rfl] at hp
      exact of_decide_eq_true hp
    obtain ⟨rfl, hv⟩ | ⟨r, hr, ⟨hprogress, hv⟩ | ⟨-, hv⟩⟩ := hcases
    · cases hstays (ht.trans hv)
    · obtain rfl : o = .pending := of_decide_eq_true <| hpending rfl ▸ (ht.trans hv ▸ hp :)
      cases hr
      cases hprogress
    · obtain rfl := hstays (ht.trans hv)
      exact waiting_weights hr (ht.trans hv) hquiet

/-- A tick that calls the qualification and in which no other stage overwrites the status publishes
the pending request. -/
theorem waiting_tick (ht : t = s.tick env) (hasked : t.Asked) (hquiet : t.Quiet) (hp : t.pending) :
    t.waiting ∧ t.status.phase = .qualification := by
  obtain ⟨-, hv⟩ | ⟨-, o, hcall, -, ⟨-, hv⟩ | ⟨r, hr, ⟨-, hv⟩ | ⟨-, hv⟩⟩⟩ :=
    runStages_cases env .settlement [.qualification, .weights] none
      { s with moment := s.moment + 1, calls := [] } <;>
    rw [tick, hv] at ht
  · exact waiting_qualification ht (by simp [Asked, read]) hasked hquiet hp
  · exact waiting_qualification ht (by simp [Asked, called, read]) hasked hquiet hp
  · simp [ht, Asked, observe, called, read] at hasked
  · obtain rfl : o = .idle := (hquiet _ (ht ▸ mem_runStages hcall)).1 rfl
    cases hr

/-- It calls a composed qualification, unless a settlement makes progress or the stop comes when the
request is not known. -/
theorem asked_tick (hq : env.composed .qualification) (ht : t = s.tick env) : t.Asked ∨
    (∃ c ∈ t.calls, c.stage = .settlement ∧ c.outcome.progressed) ∧
      env.stopped (s.moment + 1) = false ∨
    env.stopped t.moment ∧ s.waiting = false := by
  -- The qualification, after the settlement.
  have hnext (d : Deferred) {u : StandingCpuSupervisor}
      (hv : t = runStages env [.qualification, .weights] d u) (hstatus : u.status = s.status) :
      t.Asked ∨ env.stopped t.moment ∧ s.waiting = false := by
    by_cases hskip : u.skips env .qualification
    · have hstop : env.stopped u.moment = true ∧ s.waiting = false := by
        simpa [skips, hq, waiting, hstatus] using hskip
      exact .inr ⟨stopped_mono (hv ▸ moment_le_runStages) hstop.1, hstop.2⟩
    · obtain ⟨hskip', -⟩ | ⟨-, o, hcall, -, hcases⟩ :=
        runStages_cases env .qualification [.weights] d u
      · exact absurd hskip' hskip
      · refine .inl ⟨⟨_, u.moment, o⟩, ?_, rfl⟩
        obtain ⟨-, h⟩ | ⟨r, -, ⟨-, h⟩ | ⟨-, h⟩⟩ := hcases <;> rw [hv, h]
        · exact mem_runStages hcall
        · exact hcall
        · exact mem_runStages hcall
  obtain ⟨-, hv⟩ | ⟨hskip, o, hcall, -, ⟨-, hv⟩ | ⟨r, hr, ⟨hprogress, hv⟩ | ⟨-, hv⟩⟩⟩ :=
    runStages_cases env .settlement [.qualification, .weights] none
      { s with moment := s.moment + 1, calls := [] } <;>
    rw [tick, hv] at ht
  case inr.inr.inl =>
    subst ht
    refine .inr (.inl ⟨⟨⟨_, _, o⟩, hcall, rfl, ?_⟩, ?_⟩)
    · simp [StageOutcome.progressed, hr, hprogress]
    · have hreached : env.stopped (s.moment + 1) = false ∧ env.composed .settlement = true := by
        simpa [skips] using hskip
      exact hreached.1
  all_goals exact (hnext _ ht rfl).imp_right .inr

/-! ### Runs -/

theorem run_succ (n : ℕ) : run env (n + 1) = (run env n).turn env := Function.iterate_succ_apply' ..

theorem allowed_tick (hs : s.Allowed env) : (s.tick env).Allowed env := by
  refine runStages_invariant (fun _ => id) (fun s stage _ hskip h => ⟨?_, ?_⟩) (fun _ _ _ => id)
    ⟨forall_mem_nil _, hs.2⟩
  · refine forall_mem_append.2 ⟨h.1, forall_mem_singleton.2 fun hstopped => ?_⟩
    by_contra hne
    simp [skips, hstopped, hne] at hskip
  · intro hp
    by_cases hstage : stage = .qualification
    · by_contra hne
      simp [skips, hstage, hne] at hskip
    · exact h.2 ((if_neg hstage).symm.trans hp)

theorem allowed_run (n : ℕ) : (run env n).Allowed env := by
  induction n with
  | zero => exact ⟨forall_mem_nil _, nofun⟩
  | succ n ih =>
    rw [run_succ, turn]
    split_ifs
    · exact ⟨forall_mem_nil _, ih.2⟩
    · exact allowed_tick ih

theorem turn_of_ticks (h : s.Ticks env) : ∃ t, t = s.tick env ∧ s.turn env = { t.read with
      returned :=
        if env.stopped t.moment then !t.waiting
        else if t.status.phase = .idle then env.wait t.moment
        else !t.lastTickProgressed && env.wait t.moment && !t.waiting } :=
  ⟨_, rfl, if_neg (Bool.eq_false_iff.1 h)⟩

theorem ticks_turn (h : s.Ticks env) (hp : (s.turn env).pending)
    (hu : (s.turn env).Undisturbed env) :
    (s.turn env).Ticks env := by
  obtain ⟨t, ht, hturn⟩ := turn_of_ticks h
  have hwaits (hend : (s.turn env).Ending env) : t.waiting ∧ t.status.phase = .qualification := by
    obtain ⟨hasked, hquiet⟩ := hu hp hend
    rw [hturn] at hasked hquiet hp
    exact waiting_tick ht hasked hquiet hp
  rw [hturn] at hwaits ⊢
  change ((if env.stopped t.moment then !t.waiting else if t.status.phase = .idle then
    env.wait t.moment else !t.lastTickProgressed && env.wait t.moment && !t.waiting) ||
      (env.stopped (t.moment + 1) && !t.waiting)) = false
  change env.stopped (t.moment + 1) = true ∨ env.wait t.moment = true → _ at hwaits
  by_cases hend : env.stopped (t.moment + 1) = true ∨ env.wait t.moment = true
  · obtain ⟨hw, hphase⟩ := hwaits hend
    simp [hw, hphase]
  · rw [not_or, Bool.not_eq_true, Bool.not_eq_true] at hend
    have hearlier : env.stopped t.moment = false :=
      Bool.eq_false_iff.2 fun h => Bool.eq_false_iff.1 hend.1 (stopped_mono t.moment.le_succ h)
    simp [hearlier, hend.1, hend.2]

/-- While the request is pending the loop goes on. -/
theorem ticks_of_pending {n : ℕ} (h : ∀ k < n, (run env (k + 1)).Undisturbed env)
    (hp : (run env n).pending) : (run env n).Ticks env := by
  induction n with
  | zero => cases hp
  | succ n ih =>
    have hlast := h n n.lt_succ_self
    have ih := ih fun k hk => h k (hk.trans n.lt_succ_self)
    rw [run_succ] at hp hlast ⊢
    have hticks : (run env n).Ticks env := by
      by_contra hends
      -- A loop that ended calls no stage.
      rw [turn, if_pos (Bool.not_eq_false _ ▸ hends)] at hp
      exact hends (ih hp)
    exact ticks_turn hticks hp hlast

/-- If no turn so far disturbed its pending request, then a loop whose request is pending has not
returned.  Its next turn calls the qualification, unless a settlement makes progress or the stop
comes in that turn; after the stop it is called in any case, and no other stage is. -/
theorem drains (env : SupervisorEnv) (n : ℕ) :
    (∀ c ∈ (run env n).calls, env.stopped c.moment → c.stage = .qualification) ∧
    ((∀ k < n, (run env (k + 1)).Undisturbed env) → (run env n).pending →
      (run env n).returned = false ∧
      (env.stopped (run env n).moment → (run env (n + 1)).Asked) ∧
      (env.stopped (run env (n + 1)).moment = false → (run env (n + 1)).Asked ∨
        ∃ c ∈ (run env (n + 1)).calls, c.stage = .settlement ∧ c.outcome.progressed)) := by
  refine ⟨(allowed_run n).1, fun h hp => ?_⟩
  have hticks := ticks_of_pending h hp
  have hgoes : (run env n).returned = false ∧
      (env.stopped (run env n).moment → (run env n).waiting) := by simpa [Ticks] using hticks
  obtain ⟨t, ht, hturn⟩ := turn_of_ticks hticks
  rw [run_succ, hturn]
  refine ⟨hgoes.1, fun hstop => ?_, fun hstop => ?_⟩ <;>
  obtain hasked | ⟨hsettled, hnot⟩ | ⟨hstopped, hnot⟩ := asked_tick ((allowed_run n).2 hp) ht
  · exact hasked
  · exact absurd (stopped_mono (Nat.le_succ _) hstop) (Bool.eq_false_iff.1 hnot)
  · exact absurd (hgoes.2 hstop) (Bool.eq_false_iff.1 hnot)
  · exact .inl hasked
  · exact .inr hsettled
  · exact absurd (stopped_mono (Nat.le_succ _) hstopped) (Bool.eq_false_iff.1 hstop)

theorem hour_pos : (0 : ℚ) < 3600 := by decide

/-- A supervisor of all three stages: its request is pending in the first turn, and a settlement
commits in the second.  The stop comes in the third, whose weights hold, and the fourth calls the
qualification alone, for the result. -/
def drainingEnv : SupervisorEnv where
  composed _ := true
  stallTimeout := 3600
  stallTimeout_pos := hour_pos
  clock _ := 0
  qualificationOnce n := if n = 7 then .result ⟨true, "passed", none, none⟩ else .pending
  optionalStage n :=
    if n = 3 then some ⟨true, "settled", none, none⟩
    else if n = 6 then some ⟨false, "held", some "epoch", none⟩ else none
  stopAt := some 12
  wait _ := false

theorem drains_sample :
    (∀ k < 3, (run drainingEnv (k + 1)).Undisturbed drainingEnv) ∧ (run drainingEnv 3).pending ∧
    drainingEnv.stopped (run drainingEnv 3).moment ∧
    (run drainingEnv 4).calls.map (·.stage) = [.qualification] ∧ (run drainingEnv 4).returned ∧
    (run drainingEnv 3).returned = false ∧ (run drainingEnv 4).Asked := by
  have hkept : ∀ k < 3, (run drainingEnv (k + 1)).Undisturbed drainingEnv := by decide
  have hdrains := (drains drainingEnv 3).2 hkept (by decide)
  exact ⟨hkept, by decide, by decide, by decide, by decide, hdrains.1, hdrains.2.1 (by decide)⟩

/-- Weights are published in the tick of a pending request, and the stop comes then: the loop
returns. -/
theorem stop_loses_pending : ∃ env, (run env 1).pending = true ∧ (run env 1).returned = true :=
  ⟨⟨fun _ => true, 3600, hour_pos, 0, fun _ => .pending,
    fun n => if n = 2 then some ⟨true, "published", none, none⟩ else none, some 4,
    fun _ => false⟩, by decide⟩

end StandingCpuSupervisor

end Cacheon
