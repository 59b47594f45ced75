import Cacheon.Eval.StockReference
import Cacheon.Identity
import Mathlib.Data.List.Nodup
import Mathlib.Data.Rat.Defs

/-!
# The speed stage against a stock reference

A stage boots the candidate until the sealed rule decides on the reads so far.  The retained
evidence is regraded from its engine lifetimes by a second function, which replays the rule on
every shorter run of candidate lifetimes.

* `referenceGrade`, `GoodputReadSet.grade` : the sealed rule.  Its floating-point results are
  functions of the reads (`ServiceScorer`).
* `runReferenceSpeed`, `regradeReferenceSpeed` : the stage and its re-check.
* `reference_speed_regrades` : the re-check accepts what the stage constructs, and whatever it
  accepts stopped at the one look at which the rule first decides.
-/

namespace Cacheon

open Fallible List

inductive SpeedStageDecision where
  | pass
  | fail
  | noDecision
deriving DecidableEq

inductive ReadArm where
  | incumbent
  | candidate
deriving DecidableEq

/-- The turn records of one window. -/
structure LoadRead (τ : Type) where
  arm : ReadArm
  window : ℕ
  load : ℕ
  lane : Digest
  records : τ
deriving DecidableEq

/-- Why a verdict is what it is. -/
inductive GradeDetail where
  | serviceFloorNotMet
  | serviceContractNotMet
  | futile
  | twoBootsRequired
  | clearsBoundary
  | notEstablished
  | remainingBoots
  | sentinelFaster
  | belowPaymentBar
deriving DecidableEq

/-- The numbers of a comparison. -/
structure Comparison where
  ratio : ℚ
  required : ℚ
  standardError : ℚ
  lower : ℚ
  /-- The first boot is slower than the sealed futility margin. -/
  futile : Bool
  /-- The whole interval lies below no gain. -/
  negative : Bool

/-- What the scorer computes from the reads under one policy. -/
structure ServiceScorer (τ : Type) where
  /-- `fixed_work_rate` accepts the read. -/
  works : LoadRead τ → Bool
  /-- The reads have one shape of work and distinct starts. -/
  comparable : List (LoadRead τ) → Bool
  compare : List (LoadRead τ) → List (LoadRead τ) → Comparison
  floorMissed : List (LoadRead τ) → Bool
  attainmentMissed : List (LoadRead τ) → List (LoadRead τ) → Bool
  sentinelFaster : List (LoadRead τ) → List (LoadRead τ) → Bool
  /-- The decimal value of the printed ratio. -/
  printed : ℚ → ℚ

structure ServiceVerdict where
  decision : SpeedStageDecision
  detail : GradeDetail
  ratio : ℚ
  required : ℚ
  standardError : ℚ
deriving DecidableEq

inductive SpeedFault where
  | invalidReads
  | notWholeLifetimes
  | exceedsBoots
  | sentinelWithoutPass
  | scorer
  | readSet
  | anotherPlan
  | sessions
  | stageClock
  | readsDiffer
  | stoppedElsewhere
  | bracketWithoutPass
  | headline
  | controls
deriving DecidableEq

variable {τ : Type}

/-- One read of `_boot_costs`: it opens a lifetime or is the next window of the last one. -/
def bootStep (arm : ReadArm) (sizes : List ℕ) (read : LoadRead τ) : Except SpeedFault (List ℕ) := do
  check (read.arm = arm) .notWholeLifetimes
  if read.window = 1 then return 1 :: sizes
  match sizes with
  | [] => .error .notWholeLifetimes
  | n :: rest =>
    check (read.window = n + 1) .notWholeLifetimes
    return (n + 1) :: rest

/-- The windows of each lifetime, the last one first. -/
def bootSizes (arm : ReadArm) (reads : List (LoadRead τ)) : Except SpeedFault (List ℕ) :=
  reads.foldlM (bootStep arm) []

/-- The decision of the rule at a look. -/
def ruleDecision (S : ServiceScorer τ) (boots look : ℕ) (reference candidate : List (LoadRead τ)) :
    SpeedStageDecision × GradeDetail :=
  let c := S.compare reference candidate
  if S.floorMissed candidate then (.fail, .serviceFloorNotMet)
  else if 2 ≤ look ∧ S.attainmentMissed reference candidate then (.fail, .serviceContractNotMet)
  else if look < 2 ∧ c.futile then (.fail, .futile)
  else if look < 2 then (.noDecision, .twoBootsRequired)
  else if 1 < c.lower then (.pass, .clearsBoundary)
  else if look = boots ∨ c.negative then (.fail, .notEstablished)
  else (.noDecision, .remainingBoots)

def referenceGrade (S : ServiceScorer τ) (boots : ℕ)
    (reference sentinel candidate : List (LoadRead τ)) : Except SpeedFault ServiceVerdict := do
  check (candidate ≠ [] ∧ 2 ≤ reference.length ∧ S.comparable (reference ++ sentinel ++ candidate))
    .invalidReads
  let stock ← bootSizes .incumbent reference
  let terms ← bootSizes .candidate candidate
  let bracket ← bootSizes .incumbent sentinel
  check (2 ≤ stock.length ∧ terms.length ≤ boots ∧ bracket.length ≤ 1) .exceedsBoots
  let c := S.compare reference candidate
  let rule := ruleDecision S boots terms.length reference candidate
  check (bracket = [] ∨ rule.1 = .pass) .sentinelWithoutPass
  let rule := if bracket ≠ [] ∧ S.sentinelFaster reference sentinel then
    (.noDecision, .sentinelFaster) else rule
  return ⟨rule.1, rule.2, c.ratio, c.required, c.standardError⟩

structure GoodputReadSet (τ : Type) where
  incumbent : List (LoadRead τ)
  candidate : List (LoadRead τ)
  windowLimit : ℕ
  boots : ℕ
  referenceBoots : ℕ
  paymentBar : Option ℚ
  referenceLane : Option Digest
deriving DecidableEq

structure SpeedupVerdict where
  speedup : ℚ
  noise : ℚ
  required : ℚ
  passed : Bool
  confident : Bool
  baselineReads : ℕ
  detail : GradeDetail
  candidateReads : ℕ
deriving DecidableEq

structure ScheduleGrade where
  verdict : SpeedupVerdict
  decision : SpeedStageDecision
deriving DecidableEq

namespace GoodputReadSet

/-- The windows of whole lifetimes are numbered from 1 in each of them. -/
abbrev Numbered (size : ℕ) (reads : List (LoadRead τ)) : Prop :=
  reads.map (·.window) = (List.range reads.length).map (· % size + 1)

/-- The reads of the reference, before any stock sentinel. -/
def stock (r : GoodputReadSet τ) : List (LoadRead τ) :=
  r.incumbent.take (r.referenceBoots * r.windowLimit)

def sentinel (r : GoodputReadSet τ) : List (LoadRead τ) :=
  r.incumbent.drop (r.referenceBoots * r.windowLimit)

/-- `__post_init__` for whole lifetimes. -/
def post_init (S : ServiceScorer τ) (r : GoodputReadSet τ) : Except SpeedFault Unit := do
  check (r.incumbent ≠ [] ∧ r.candidate ≠ []) .readSet
  check (2 ≤ r.boots ∧ r.boots ≤ candidateBoots ∧ r.referenceBoots = Cacheon.referenceBoots ∧
    1 ≤ r.windowLimit ∧ r.windowLimit ≤ 5) .readSet
  check ((r.incumbent.length = r.referenceBoots * r.windowLimit ∨
      r.incumbent.length = (r.referenceBoots + 1) * r.windowLimit) ∧
    r.windowLimit ∣ r.candidate.length ∧ r.candidate.length ≤ r.boots * r.windowLimit) .readSet
  check (Numbered r.windowLimit r.incumbent ∧ Numbered r.windowLimit r.candidate) .readSet
  check ((∀ a ∈ r.incumbent, a.arm = .incumbent) ∧ ∀ a ∈ r.candidate, a.arm = .candidate) .readSet
  check (∀ a ∈ r.incumbent ++ r.candidate, ∀ b ∈ r.candidate, a.load = b.load) .readSet
  check ((∀ a ∈ r.candidate ++ r.sentinel, ∀ b ∈ r.candidate, a.lane = b.lane) ∧
    ∀ a ∈ r.stock, ∀ b ∈ r.candidate, a.lane = r.referenceLane.getD b.lane) .readSet
  check (∀ a ∈ r.incumbent ++ r.candidate, S.works a) .readSet

/-- A passing verdict below the payment bar fails. -/
abbrev belowBar (S : ServiceScorer τ) (r : GoodputReadSet τ) (result : ServiceVerdict) : Prop :=
  result.decision = .pass ∧ ∃ bar ∈ r.paymentBar, S.printed result.ratio < bar

/-- Construct the read set and grade it. -/
def grade (S : ServiceScorer τ) (r : GoodputReadSet τ) : Except SpeedFault ScheduleGrade := do
  r.post_init S
  let result ← referenceGrade S r.boots r.stock r.sentinel r.candidate
  check (0 < result.ratio) .scorer
  let result := if r.belowBar S result then
    { result with decision := .fail, detail := .belowPaymentBar } else result
  return ⟨⟨result.ratio, result.standardError, result.required, result.decision = .pass,
    result.decision ≠ .noDecision, r.incumbent.length, result.detail, r.candidate.length⟩,
    result.decision⟩

end GoodputReadSet

/-- An engine lifetime as the host retained it. -/
structure EngineExecution (τ : Type) where
  reads : List (LoadRead τ)
  readyCompletedAt : ℚ
  sessionCompletedAt : ℚ
  /-- The rest of the session's evidence. -/
  host : Digest
deriving DecidableEq

structure Quiescence where
  namespaceDigest : Digest
  /-- No container, lease record or resource entry is left. -/
  idle : Bool
  observed : ℚ
deriving DecidableEq

/-- What names the sealed plan in its evidence. -/
structure SpeedIdentity where
  planDigest : Digest
  policy : Digest
  selectedDelta : Digest
  workload : Digest
deriving DecidableEq

structure QualityControls where
  promptPairs : List (Digest × ℕ × ℕ)
  referenceInputs : List Digest
  entropy : Option Digest
deriving DecidableEq

/-- No controls. -/
def QualityControls.none : QualityControls := ⟨[], [], .none⟩

/-- The arm that a lifetime was launched from; imported stock keeps its own. -/
inductive SpeedArm where
  | baseline
  | imported (origin : Digest)
  | candidate
deriving DecidableEq

structure SpeedPlan (τ : Type) where
  identity : SpeedIdentity
  windows : ℕ
  load : ℕ
  scorer : ServiceScorer τ
  namespaceDigest : Digest
  lane : SpeedArm → Digest
  /-- `_reference_arm` accepts the import. -/
  imports : Digest → Bool
  /-- The lifetime and its controls belong to the arm and regrade from the host requests. -/
  bound : SpeedArm → EngineExecution τ → List Digest → Bool
  /-- `validate_controls` for reference, candidates and bracket. -/
  validControls : List (EngineExecution τ) → List (EngineExecution τ) →
    Option (EngineExecution τ) → QualityControls → Bool

structure SpeedEvidence (τ : Type) where
  identity : SpeedIdentity
  baselineLane : Digest
  candidateLane : Digest
  baselineExecution : Option (EngineExecution τ)
  candidateExecution : EngineExecution τ
  baselineQuiescence : Quiescence
  candidateQuiescence : Quiescence
  initialVerdict : SpeedupVerdict
  finalVerdict : SpeedupVerdict
  decision : SpeedStageDecision
  started : ℚ
  completed : ℚ
  goodput : GoodputReadSet τ
  controls : QualityControls
  priorExecutions : List (EngineExecution τ)
  referenceOrigin : Option Digest

/-- What a stage is given: the reference, and what its engine, callback and clock return. -/
structure StageRun (τ : Type) where
  reference : List (EngineExecution τ)
  origin : Option Digest
  bar : Option ℚ
  engine : ℕ → EngineExecution τ
  quiet : ℕ → Quiescence
  qualityControl : List (EngineExecution τ) → QualityControls
  started : ℚ
  completed : ℚ

namespace SpeedPlan

variable (plan : SpeedPlan τ)

def referenceArm (origin : Option Digest) : SpeedArm := origin.elim .baseline .imported

/-- The read set of a reference and the candidate lifetimes so far. -/
def readSet (reference candidates : List (EngineExecution τ)) (bracket : List (LoadRead τ))
    (bar : Option ℚ) (origin : Option Digest) : GoodputReadSet τ where
  incumbent := reference.flatMap (·.reads) ++ bracket
  candidate := candidates.flatMap (·.reads)
  windowLimit := plan.windows
  boots := candidateBoots
  referenceBoots := referenceBoots
  paymentBar := bar
  referenceLane := if origin.isSome then (reference.flatMap (·.reads)).head?.map (·.lane) else none

/-- Boot candidates until the rule decides, or none is left. -/
def bootCandidates (reference : List (EngineExecution τ)) (bar : Option ℚ) (origin : Option Digest)
    (done : List (EngineExecution τ)) : List (EngineExecution τ) →
      Except SpeedFault (List (EngineExecution τ) × ScheduleGrade)
  | [] => .error .readSet
  | boot :: rest => do
    let done := done ++ [boot]
    let grade ← (plan.readSet reference done [] bar origin).grade plan.scorer
    if grade.decision ≠ .noDecision ∨ rest = [] then return (done, grade)
    bootCandidates reference bar origin done rest

/-- The evidence of a stage that booted these candidates. -/
def evidence (s : StageRun τ) (boots : List (EngineExecution τ)) (grade : ScheduleGrade) :
    SpeedEvidence τ where
  identity := plan.identity
  baselineLane := plan.lane .candidate
  candidateLane := plan.lane .candidate
  baselineExecution := none
  candidateExecution := s.engine (boots.length - 1)
  baselineQuiescence := s.quiet (boots.length - 1)
  candidateQuiescence := s.quiet (boots.length - 1)
  initialVerdict := grade.verdict
  finalVerdict := grade.verdict
  decision := grade.decision
  started := s.started
  completed := s.completed
  goodput := plan.readSet s.reference boots [] s.bar s.origin
  controls := if grade.decision = .pass then s.qualityControl boots else .none
  priorExecutions := s.reference ++ boots.dropLast
  referenceOrigin := s.origin

/-- `run_reference_speed`, up to the re-check that ends it. -/
def runReferenceSpeed (s : StageRun τ) : Except SpeedFault (SpeedEvidence τ) := do
  let (boots, grade) ← plan.bootCandidates s.reference s.bar s.origin []
    ((List.range candidateBoots).map s.engine)
  return plan.evidence s boots grade

/-- `_validate_replay_sessions` for one lifetime. -/
abbrev Session (arm : SpeedArm) (controls : List Digest) (x : EngineExecution τ) : Prop :=
  plan.bound arm x controls ∧ x.reads.map (·.window) = List.range' 1 plan.windows ∧
    ∀ read ∈ x.reads, read.load = plan.load ∧ read.lane = plan.lane arm

end SpeedPlan

namespace SpeedEvidence

variable (e : SpeedEvidence τ)

def reference : List (EngineExecution τ) := e.priorExecutions.take referenceBoots

def candidates : List (EngineExecution τ) :=
  e.priorExecutions.drop referenceBoots ++ [e.candidateExecution]

def bracketReads : List (LoadRead τ) := e.baselineExecution.elim [] (·.reads)

/-- The instants of the stage in the order they have to have. -/
def marks : List ℚ :=
  e.started :: e.candidates.flatMap (fun x => [x.readyCompletedAt, x.sessionCompletedAt]) ++
    e.candidateQuiescence.observed :: e.baselineExecution.elim [] (fun x =>
        [x.readyCompletedAt, x.sessionCompletedAt, e.baselineQuiescence.observed]) ++ [e.completed]

def rebuilt (plan : SpeedPlan τ) : GoodputReadSet τ :=
  plan.readSet e.reference e.candidates e.bracketReads e.goodput.paymentBar e.referenceOrigin

/-- The stock-only comparison after some of the candidate lifetimes. -/
def atLook (plan : SpeedPlan τ) (count : ℕ) : GoodputReadSet τ :=
  { e.rebuilt plan with
    incumbent := e.reference.flatMap (·.reads)
    candidate := (e.rebuilt plan).candidate.take (count * plan.windows) }

/-- All quality controls are there, and valid. -/
abbrev Controlled (plan : SpeedPlan τ) : Prop :=
  e.controls.referenceInputs ≠ [] ∧ e.controls.promptPairs ≠ [] ∧ e.controls.entropy ≠ none ∧
    plan.validControls e.reference e.candidates e.baselineExecution e.controls

end SpeedEvidence

/-- `regrade_reference_speed` -/
def regradeReferenceSpeed [DecidableEq τ] (plan : SpeedPlan τ) (e : SpeedEvidence τ) :
    Except SpeedFault SpeedupVerdict := do
  let arm := SpeedPlan.referenceArm e.referenceOrigin
  check (∀ origin ∈ e.referenceOrigin, plan.imports origin) .anotherPlan
  check (e.identity = plan.identity ∧ e.baselineLane = plan.lane .candidate ∧
    e.candidateLane = plan.lane .candidate ∧ e.reference.length = referenceBoots ∧
    e.candidates.length ≤ candidateBoots ∧
    (e.baselineExecution = none ↔ e.baselineQuiescence = e.candidateQuiescence) ∧
    ∀ q ∈ [e.candidateQuiescence, e.baselineQuiescence],
      q.namespaceDigest = plan.namespaceDigest ∧ q.idle) .anotherPlan
  check ((∀ x ∈ e.reference, plan.Session arm [] x) ∧
    (∀ x ∈ e.candidates, plan.Session .candidate [] x) ∧
    ∀ x ∈ e.baselineExecution, plan.Session .baseline e.controls.referenceInputs x) .sessions
  check (e.marks.Pairwise (· ≤ ·)) .stageClock
  (e.rebuilt plan).post_init plan.scorer
  check (e.rebuilt plan = e.goodput) .readsDiffer
  forM (List.range' 1 e.candidates.length) fun count => do
    let grade ← (e.atLook plan count).grade plan.scorer
    check (grade.decision = .noDecision ↔ count < e.candidates.length) .stoppedElsewhere
  let last ← (e.atLook plan e.candidates.length).grade plan.scorer
  check (e.baselineExecution = none ∨ last.decision = .pass) .bracketWithoutPass
  let grade ← (e.rebuilt plan).grade plan.scorer
  check (grade.verdict = e.initialVerdict ∧ grade.verdict = e.finalVerdict ∧
    grade.decision = e.decision) .headline
  check (if last.decision = .pass then e.Controlled plan else e.controls = .none) .controls
  return grade.verdict

/-! ### What a grade tells -/

section Grade

variable {S : ServiceScorer τ} {arm : ReadArm} {boots : ℕ} {reference candidate : List (LoadRead τ)}

/-- The reads that open a lifetime. -/
def looks (reads : List (LoadRead τ)) : ℕ := reads.countP (·.window = 1)

theorem bootStep_length {sizes sizes' : List ℕ} {read : LoadRead τ}
    (h : bootStep arm sizes read = .ok sizes') : sizes'.length = sizes.length + looks [read] := by
  simp only [bootStep, bind_ok, check_ok] at h
  obtain ⟨_, -, h⟩ := h
  split_ifs at h with hone
  · cases h
    simp [looks, hone]
  · cases sizes with
    | nil => cases h
    | cons n rest =>
      simp only [bind_ok, check_ok] at h
      obtain ⟨_, -, h⟩ := h
      cases h
      simp [looks, hone]

theorem bootSizes_length {reads : List (LoadRead τ)} {sizes sizes' : List ℕ}
    (h : reads.foldlM (bootStep arm) sizes = .ok sizes') :
    sizes'.length = sizes.length + looks reads := by
  induction reads generalizing sizes with
  | nil =>
    cases h
    rfl
  | cons read reads ih =>
    rw [foldlM_cons, bind_ok] at h
    obtain ⟨sizes₁, hstep, h⟩ := h
    rw [ih h, bootStep_length hstep]
    simp only [looks, countP_cons, countP_nil]
    omega

theorem two_le_of_pass {look : ℕ} (h : (ruleDecision S boots look reference candidate).1 = .pass) :
    2 ≤ look := by
  simp only [ruleDecision] at h
  split_ifs at h
  omega

theorem decides_of_boots (hboots : 2 ≤ boots) :
    (ruleDecision S boots boots reference candidate).1 ≠ .noDecision := by
  simp only [ruleDecision, true_or, if_true]
  split_ifs <;> first | omega | nofun

/-- A verdict follows the rule, unless a stock sentinel voids it. -/
theorem referenceGrade_spec {sentinel : List (LoadRead τ)} {v : ServiceVerdict}
    (h : referenceGrade S boots reference sentinel candidate = .ok v) :
    (v.decision = .pass → 2 ≤ looks candidate) ∧
      (sentinel = [] → 2 ≤ boots → looks candidate = boots → v.decision ≠ .noDecision) := by
  simp only [referenceGrade, bind_ok, exists_check] at h
  obtain ⟨-, stock, -, terms, hterms, bracket, hbracket, -, -, h⟩ := h
  cases h
  have hlook : terms.length = looks candidate := by simpa using bootSizes_length hterms
  refine ⟨fun hpass => ?_, ?_⟩
  · dsimp only at hpass
    split_ifs at hpass
    exact hlook ▸ two_le_of_pass hpass
  · rintro rfl hboots heq
    cases hbracket
    rw [if_neg (by simp), hlook, heq]
    exact decides_of_boots hboots

/-- The payment bar turns a pass into a fail and nothing else. -/
theorem GoodputReadSet.grade_spec {r : GoodputReadSet τ} {g : ScheduleGrade}
    (h : r.grade S = .ok g) : r.post_init S = .ok () ∧
      ∃ v, referenceGrade S r.boots r.stock r.sentinel r.candidate = .ok v ∧
        (g.decision = .noDecision ↔ v.decision = .noDecision) ∧
        (g.decision = .pass → v.decision = .pass) := by
  simp only [GoodputReadSet.grade, bind_ok, exists_check] at h
  obtain ⟨_, hinit, v, hv, -, h⟩ := h
  cases h
  refine ⟨hinit, v, hv, ?_⟩
  split_ifs with hbar
  · simp [hbar.1]
  · simp

end Grade

/-! ### Lifetimes and their reads -/

section Lifetimes

variable {plan : SpeedPlan τ} {arm : SpeedArm} {l reference : List (EngineExecution τ)}

theorem SpeedPlan.Session.length {x : EngineExecution τ} (h : plan.Session arm [] x) :
    x.reads.length = plan.windows := by
  simpa using congrArg List.length h.2.1

theorem looks_of_sessions (hwindows : 1 ≤ plan.windows) (h : ∀ x ∈ l, plan.Session arm [] x) :
    looks (l.flatMap (·.reads)) = l.length := by
  induction l with
  | nil => rfl
  | cons x l ih =>
    have hx : looks x.reads = 1 := by
      have hcount : looks x.reads = (x.reads.map (·.window)).count 1 := by
        rw [looks, List.count, countP_map]
        exact countP_congr fun read _ => by simp
      rw [hcount, (h x mem_cons_self).2.1]
      exact count_eq_one_of_mem nodup_range' (mem_range'_1.2 (by omega))
    rw [looks] at hx ih ⊢
    rw [flatMap_cons, countP_append, hx,
      ih fun y hy => h y (mem_cons_of_mem _ hy), length_cons, Nat.add_comm]

theorem take_reads (h : ∀ x ∈ l, plan.Session arm [] x) (count : ℕ) :
    (l.flatMap (·.reads)).take (count * plan.windows) = (l.take count).flatMap (·.reads) := by
  induction l generalizing count with
  | nil => simp
  | cons x l ih =>
    cases count with
    | zero => simp
    | succ count =>
      have hx := (h x mem_cons_self).length
      rw [flatMap_cons, take_append, hx, Nat.succ_mul, Nat.add_sub_cancel,
        take_of_length_le (by omega), ih (fun y hy => h y (mem_cons_of_mem _ hy)),
        take_succ_cons, flatMap_cons]

/-- The loop boots one lifetime after another while the rule is undecided. -/
theorem bootCandidates_spec {bar : Option ℚ} {origin : Option Digest}
    {rest done boots : List (EngineExecution τ)} {grade : ScheduleGrade}
    (h : plan.bootCandidates reference bar origin done rest = .ok (boots, grade)) :
    ∃ n, 1 ≤ n ∧ n ≤ rest.length ∧ boots = done ++ rest.take n ∧
      (plan.readSet reference boots [] bar origin).grade plan.scorer = .ok grade ∧
      (grade.decision = .noDecision → n = rest.length) ∧
      ∀ k, 1 ≤ k → k < n → ∃ g,
        (plan.readSet reference (done ++ rest.take k) [] bar origin).grade plan.scorer = .ok g ∧
          g.decision = .noDecision := by
  induction rest generalizing done with
  | nil => cases h
  | cons boot rest ih =>
    simp only [SpeedPlan.bootCandidates, bind_ok] at h
    obtain ⟨g, hg, h⟩ := h
    split_ifs at h with hstop
    · cases h
      refine ⟨1, le_rfl, by simp, by simp, hg, fun hno => ?_, fun k _ _ => by omega⟩
      simp [hstop.resolve_left (not_not.2 hno)]
    · rw [not_or, not_not] at hstop
      obtain ⟨n, hn, hle, rfl, hgrade, hend, hbef⟩ := ih h
      refine ⟨n + 1, by omega, by simpa using hle, by simp, hgrade,
        fun hno => by simp [hend hno], fun k hk hkn => ?_⟩
      obtain ⟨k, rfl⟩ := Nat.exists_eq_succ_of_ne_zero (Nat.one_le_iff_ne_zero.1 hk)
      rcases Nat.eq_zero_or_pos k with rfl | hpos
      · exact ⟨g, by simpa using hg, hstop.1⟩
      · simpa using hbef k hpos (by omega)

end Lifetimes

/-! ### The stage and its re-check -/

namespace SpeedEvidence

/-- The rule first decides, on the stock-only comparison, after `n` lifetimes. -/
def StopsAt (e : SpeedEvidence τ) (plan : SpeedPlan τ) (n : ℕ) : Prop :=
  ∀ k, 1 ≤ k → k ≤ n → ∃ g, (e.atLook plan k).grade plan.scorer = .ok g ∧
    (g.decision = .noDecision ↔ k < n)

/-- The stock-only comparison of all lifetimes passes. -/
def StockPasses (e : SpeedEvidence τ) (plan : SpeedPlan τ) : Prop :=
  ∃ g, (e.atLook plan e.candidates.length).grade plan.scorer = .ok g ∧ g.decision = .pass

end SpeedEvidence

/-- Well-formed lifetimes, a monotone clock and a quality producer that keeps its contract. -/
structure StageRun.WellFormed (plan : SpeedPlan τ) (s : StageRun τ) : Prop where
  imports : ∀ origin ∈ s.origin, plan.imports origin
  reference : s.reference.length = referenceBoots ∧
    ∀ x ∈ s.reference, plan.Session (SpeedPlan.referenceArm s.origin) [] x
  engine : ∀ i, plan.Session .candidate [] (s.engine i)
  quiet : ∀ i, (s.quiet i).namespaceDigest = plan.namespaceDigest ∧ (s.quiet i).idle
  clock : ∀ n ≤ candidateBoots, ∀ g,
    (plan.evidence s ((List.range n).map s.engine) g).marks.Pairwise (· ≤ ·)
  controls : ∀ n ≤ candidateBoots,
    let boots := (List.range n).map s.engine
    (s.qualityControl boots).referenceInputs ≠ [] ∧ (s.qualityControl boots).promptPairs ≠ [] ∧
      (s.qualityControl boots).entropy ≠ none ∧
      plan.validControls s.reference boots none (s.qualityControl boots)

section Regrade

variable [DecidableEq τ] {plan : SpeedPlan τ} {e : SpeedEvidence τ} {v : SpeedupVerdict}

/-- What an accepted stage is known to satisfy. -/
structure Accepted (plan : SpeedPlan τ) (e : SpeedEvidence τ) (v : SpeedupVerdict) : Prop where
  length : e.candidates.length ≤ candidateBoots
  windows : 1 ≤ plan.windows
  sessions : ∀ x ∈ e.candidates, plan.Session .candidate [] x
  stops : e.StopsAt plan e.candidates.length
  grade : (e.rebuilt plan).grade plan.scorer = .ok ⟨v, e.decision⟩
  headline : v = e.finalVerdict
  controls : e.StockPasses plan ∧ e.Controlled plan ∨ ¬ e.StockPasses plan ∧ e.controls = .none

theorem accepted_of_regrade (h : regradeReferenceSpeed plan e = .ok v) : Accepted plan e v := by
  simp only [regradeReferenceSpeed, bind_ok, exists_check] at h
  obtain ⟨-, hplan, hsess, -, _, hinit, -, _, hloop, last, hlast, -, grade, hgrade, hhead,
    hctls, h⟩ := h
  cases h
  simp only [GoodputReadSet.post_init, bind_ok, exists_check] at hinit
  refine ⟨hplan.2.2.2.2.1, hinit.2.1.2.2.2.1, hsess.2.1, fun k hk hle => ?_, ?_, hhead.2.1, ?_⟩
  · have hk := forM_ok.1 hloop k (mem_range'_1.2 (by omega))
    simpa only [bind_ok, check_ok] using hk
  · rw [hgrade, ← hhead.2.2]
  · have hpasses : e.StockPasses plan ↔ last.decision = .pass := by
      refine ⟨fun ⟨g, hg, hpass⟩ => ?_, fun hpass => ⟨last, hlast, hpass⟩⟩
      rw [hlast] at hg
      cases hg
      exact hpass
    rw [hpasses]
    split_ifs at hctls with hpass
    · exact .inl ⟨hpass, hctls⟩
    · exact .inr ⟨hpass, hctls⟩

omit [DecidableEq τ] in
theorem atLook_eq (hsess : ∀ x ∈ e.candidates, plan.Session .candidate [] x) (count : ℕ) :
    e.atLook plan count = plan.readSet e.reference (e.candidates.take count) []
      e.goodput.paymentBar e.referenceOrigin := by
  simp [SpeedEvidence.atLook, SpeedEvidence.rebuilt, SpeedPlan.readSet, take_reads hsess]

/-- The re-check accepts what a stage constructs. -/
theorem regrade_of_run {s : StageRun τ} (hs : s.WellFormed plan)
    (h : plan.runReferenceSpeed s = .ok e) : regradeReferenceSpeed plan e = .ok e.finalVerdict := by
  simp only [SpeedPlan.runReferenceSpeed, bind_ok, Prod.exists] at h
  obtain ⟨boots, grade, hboots, h⟩ := h
  cases h
  obtain ⟨n, hn, hle, hboots, hgrade, hend, hbef⟩ := bootCandidates_spec hboots
  rw [length_map, length_range] at hle hend
  have htake (k : ℕ) (hk : k ≤ n) :
      ((List.range candidateBoots).map s.engine).take k = (List.range k).map s.engine := by
    rw [← map_take, take_range, Nat.min_eq_left (hk.trans hle)]
  rw [nil_append, htake n le_rfl] at hboots
  subst hboots
  set e := plan.evidence s ((List.range n).map s.engine) grade with he
  have href : e.reference = s.reference := by
    rw [SpeedEvidence.reference, he, SpeedPlan.evidence, ← hs.reference.1, take_left]
  have hcands : e.candidates = (List.range n).map s.engine := by
    obtain ⟨m, rfl⟩ := Nat.exists_eq_succ_of_ne_zero (Nat.one_le_iff_ne_zero.1 hn)
    rw [SpeedEvidence.candidates, he, SpeedPlan.evidence, ← hs.reference.1, drop_left]
    simp [range_succ]
  have hlength : e.candidates.length = n := by simp [hcands]
  have hsess : ∀ x ∈ e.candidates, plan.Session .candidate [] x := by
    rw [hcands]
    simpa using fun i _ => hs.engine i
  have hlook (k : ℕ) (hk : k ≤ n) : e.atLook plan k =
      plan.readSet s.reference ((List.range k).map s.engine) [] s.bar s.origin := by
    rw [atLook_eq hsess, href, hcands, ← map_take, take_range, Nat.min_eq_left hk]
    rfl
  have hrebuilt : e.rebuilt plan = e.goodput := by
    rw [SpeedEvidence.rebuilt, href, hcands]
    rfl
  have hgood : e.goodput.grade plan.scorer = .ok grade := hgrade
  have hdec : grade.decision ≠ .noDecision := fun hno => by
    obtain ⟨hinit, v, hv, hiff, -⟩ := GoodputReadSet.grade_spec hgrade
    simp only [GoodputReadSet.post_init, bind_ok, exists_check] at hinit
    -- the last look has as many lifetimes as the rule has boots
    refine (referenceGrade_spec hv).2 ?_ (Nat.le_refl candidateBoots) ?_ (hiff.1 hno)
    · refine drop_of_length_le ?_
      have hlen : (s.reference.flatMap (·.reads)).length = referenceBoots * plan.windows := by
        rw [length_flatMap, map_congr_left fun x hx => (hs.reference.2 x hx).length]
        simp [hs.reference.1]
      simp [SpeedPlan.readSet, hlen]
    · exact (looks_of_sessions hinit.2.1.2.2.2.1 (hcands ▸ hsess)).trans
        (by simp [hend hno, SpeedPlan.readSet])
  have hlast : (e.atLook plan n).grade plan.scorer = .ok grade := by rw [hlook n le_rfl, hgrade]
  have hloop : ∀ k ∈ List.range' 1 n, ∃ g, (e.atLook plan k).grade plan.scorer = .ok g ∧
      (g.decision = .noDecision ↔ k < n) := fun k hk => by
    obtain ⟨hk, hkn⟩ := mem_range'_1.1 hk
    rcases Nat.lt_or_ge k n with hlt | hge
    · obtain ⟨g, hg, hno⟩ := hbef k hk hlt
      rw [nil_append, htake k hlt.le] at hg
      exact ⟨g, by rw [hlook k hlt.le, hg], by simp [hno, hlt]⟩
    · obtain rfl : k = n := by omega
      exact ⟨grade, hlast, by simp [hdec]⟩
  simp only [regradeReferenceSpeed, bind_ok, exists_check, href, hlength]
  refine ⟨hs.imports, ⟨rfl, rfl, rfl, hs.reference.1, hle, by simp [he, SpeedPlan.evidence],
    by simpa [he, SpeedPlan.evidence] using hs.quiet (n - 1)⟩,
    ⟨hs.reference.2, hsess, fun _ h => by cases h⟩, hs.clock n hle grade, (), ?_, hrebuilt, (), ?_,
    grade, hlast, .inl rfl, grade, by rw [hrebuilt, hgood], ⟨rfl, rfl, rfl⟩, ?_, rfl⟩
  · rw [hrebuilt]
    exact (GoodputReadSet.grade_spec hgood).1
  · refine forM_ok.2 fun k hk => ?_
    simpa only [bind_ok, check_ok] using hloop k hk
  · split_ifs with hpass
    · have hctls : e.controls = s.qualityControl ((List.range n).map s.engine) := if_pos hpass
      rw [SpeedEvidence.Controlled, hctls, href, hcands]
      exact hs.controls n hle
    · exact if_neg hpass

omit [DecidableEq τ] in
/-- Two accepted stages on one reference, one a continuation of the other, are of one length. -/
theorem Accepted.length_le {e' : SpeedEvidence τ} {v' : SpeedupVerdict} (h : Accepted plan e v)
    (h' : Accepted plan e' v') (href : e.reference = e'.reference)
    (horigin : e.referenceOrigin = e'.referenceOrigin) (hle : e.candidates <+: e'.candidates) :
    e.candidates = e'.candidates := by
  refine hle.eq_of_length_le (Nat.le_of_not_lt fun hlt => ?_)
  have hpos : 1 ≤ e.candidates.length := by simp [SpeedEvidence.candidates]
  obtain ⟨g, hg, hstop⟩ := h.stops _ hpos le_rfl
  obtain ⟨g', hg', hstop'⟩ := h'.stops _ hpos hlt.le
  obtain ⟨-, r, hr, hiff, -⟩ := GoodputReadSet.grade_spec hg
  obtain ⟨-, r', hr', hiff', -⟩ := GoodputReadSet.grade_spec hg'
  -- the two comparisons differ in their payment bar only, which the rule does not see
  rw [atLook_eq h.sessions, take_length, href, horigin] at hr
  rw [atLook_eq h'.sessions, ← prefix_iff_eq_take.1 hle] at hr'
  obtain rfl : r = r' := Except.ok.inj (hr.symm.trans hr')
  exact lt_irrefl _ (hstop.1 (hiff.2 (hiff'.1 (hstop'.2 hlt))))

/-- **The re-check and the stage agree.**  The re-check accepts what a stage constructs; what it
accepts stopped at the look at which the rule first decides, has all controls after a passing
comparison and none after another one, and is the only accepted cut of its lifetimes. -/
theorem reference_speed_regrades (plan : SpeedPlan τ) :
    (∀ s e, StageRun.WellFormed plan s → plan.runReferenceSpeed s = .ok e →
      regradeReferenceSpeed plan e = .ok e.finalVerdict) ∧
    ∀ e v, regradeReferenceSpeed plan e = .ok v →
      v = e.finalVerdict ∧ e.candidates.length ≤ candidateBoots ∧
      e.StopsAt plan e.candidates.length ∧ (e.decision = .pass → 2 ≤ e.candidates.length) ∧
      (e.StockPasses plan ∧ e.Controlled plan ∨ ¬ e.StockPasses plan ∧ e.controls = .none) ∧
      ∀ e' v', regradeReferenceSpeed plan e' = .ok v' → e.reference = e'.reference →
        e.referenceOrigin = e'.referenceOrigin → e.candidates <+: e'.candidates →
        e.candidates = e'.candidates ∧ (e.goodput.paymentBar = e'.goodput.paymentBar →
          e.baselineExecution = e'.baselineExecution → v = v' ∧ e.decision = e'.decision) := by
  refine ⟨fun s e hs h => regrade_of_run hs h, fun e v h => ?_⟩
  have hacc := accepted_of_regrade h
  refine ⟨hacc.headline, hacc.length, hacc.stops, fun hpass => ?_, hacc.controls,
    fun e' v' h' href horigin hle => ?_⟩
  · obtain ⟨-, r, hr, -, hpass'⟩ := GoodputReadSet.grade_spec hacc.grade
    exact (looks_of_sessions hacc.windows hacc.sessions) ▸ (referenceGrade_spec hr).1 (hpass' hpass)
  · have hacc' := accepted_of_regrade h'
    have heq := hacc.length_le hacc' href horigin hle
    refine ⟨heq, fun hbar hbracket => ?_⟩
    have hgrade := hacc.grade
    rw [SpeedEvidence.rebuilt, SpeedEvidence.bracketReads, href, heq, hbar, horigin,
      hbracket] at hgrade
    have hgrades := hgrade.symm.trans hacc'.grade
    simpa using hgrades

end Regrade

section Sample

private def unit : Digest := ⟨1, by decide⟩

/-- A first read without the mark of a fast engine is futile, and two lifetimes pass. -/
private def samplePlan : SpeedPlan Bool where
  identity := ⟨unit, unit, unit, unit⟩
  windows := 1
  load := 0
  scorer := ⟨fun _ => true, fun _ => true,
    fun _ candidate => ⟨2, 1, 0, 2, candidate.head?.any (!·.records), false⟩, fun _ => false,
    fun _ _ => false, fun _ _ => false, id⟩
  namespaceDigest := unit
  lane _ := unit
  imports _ := true
  bound _ _ _ := true
  validControls _ _ _ _ := true

private def sampleRun (fast : ℕ → Bool) : StageRun Bool where
  reference := List.replicate 4 ⟨[⟨.incumbent, 1, 0, unit, true⟩], 0, 0, unit⟩
  origin := none
  bar := none
  engine n := ⟨[⟨.candidate, 1, 0, unit, fast n⟩], 0, 0, unit⟩
  quiet _ := ⟨unit, true, 0⟩
  qualityControl _ := ⟨[(unit, 0, 0)], [unit], some unit⟩
  started := 0
  completed := 0

private theorem wellFormed_sampleRun (fast : ℕ → Bool) :
    (sampleRun fast).WellFormed samplePlan := by
  have hzeros (n : ℕ) : (List.replicate n (0 : ℚ)).Pairwise (· ≤ ·) :=
    pairwise_replicate.2 (.inr Rat.le_refl)
  refine ⟨nofun, ⟨rfl, fun x hx => ?_⟩, fun i => ⟨rfl, rfl, forall_mem_singleton.2 ⟨rfl, rfl⟩⟩,
    fun _ => ⟨rfl, rfl⟩, fun n hn g => ?_, fun _ _ => by simp [sampleRun, samplePlan]⟩
  · obtain rfl := eq_of_mem_replicate hx
    exact ⟨rfl, rfl, forall_mem_singleton.2 ⟨rfl, rfl⟩⟩
  match n, hn with
  | 0, _ | 1, _ => exact hzeros 5
  | 2, _ => exact hzeros 7

/-- A stage that passes after a fast and a slow lifetime. -/
theorem reference_speed_passes : ∃ e, samplePlan.runReferenceSpeed (sampleRun (· = 0)) = .ok e ∧
    e.decision = .pass ∧ regradeReferenceSpeed samplePlan e = .ok e.finalVerdict :=
  ⟨_, rfl, rfl, (reference_speed_regrades samplePlan).1 _ _ (wellFormed_sampleRun (· = 0)) rfl⟩

/-- Without the first of the two lifetimes the stage fails, and the re-check accepts that too. -/
theorem drops_first : ∃ (plan : SpeedPlan Bool) (e e' : SpeedEvidence Bool),
    regradeReferenceSpeed plan e = .ok e.finalVerdict ∧
    regradeReferenceSpeed plan e' = .ok e'.finalVerdict ∧ e.reference = e'.reference ∧
    e.referenceOrigin = e'.referenceOrigin ∧ e.goodput.paymentBar = e'.goodput.paymentBar ∧
    e.baselineExecution = e'.baselineExecution ∧ e'.candidates = e.candidates.tail ∧
    e.decision = .pass ∧ e'.decision = .fail :=
  ⟨samplePlan, _, _, regrade_of_run (wellFormed_sampleRun (· = 0)) rfl,
    regrade_of_run (wellFormed_sampleRun fun _ => false) rfl, rfl, rfl, rfl, rfl, rfl, rfl, rfl⟩

end Sample

end Cacheon
