import Cacheon.Intake.Standing

/-!
# The order of arrivals

Within a competition nothing is settled or rewarded before every earlier arrival is completed.
The test compares the competitions of the rows as they stand, and a submission to a named
competition only gets there when it is published: until then it is in no later one's way.

* `Namespaces` : no reservation is in the competition that became the default one.
* `PublishedInto` : the run publishes a reservation into a competition.
* `KeepsOrder` : nothing is taken up again, and nothing is published into a competition in which
  a later arrival is settled or rewarded.
* `decided_in_order` : then every earlier arrival of its competition is completed when a candidate
  is settled or rewarded, also one published under a name that had become the default by then.
-/

namespace Cacheon

open Fallible IntakeFault List Option Table

variable {K : IntakeHashes} {p : Permit}

/-- A commit settled the candidate. -/
def CandidateRow.disposed (c : CandidateRow K) : Bool :=
  c.status.settled && c.settlementEvidenceDigest.isSome

/-- The candidate is settled or rewarded. -/
def CandidateRow.decided (c : CandidateRow K) : Bool := c.disposed || c.rewardEligible

theorem CandidateStep.disposed {c c' : CandidateRow K} (h : CandidateStep p c c')
    (hc : c.disposed = true) : c'.disposed = true := by
  simp only [CandidateRow.disposed, Bool.and_eq_true] at hc ⊢
  obtain ⟨hstat, hdig⟩ := h.settled hc.1
  rw [hstat, hdig]
  exact hc

theorem CandidateStep.decided {c c' : CandidateRow K} (h : CandidateStep p c c')
    (hc : c.decided = true) : c'.decided = true := by
  simp only [CandidateRow.decided, Bool.or_eq_true] at hc ⊢
  exact hc.imp h.disposed h.rewarded

namespace Store

variable {s s' : Store K} {id : Digest} {op : Op K} {arena : String}

/-! ### The competitions of the rows -/

/-- No reservation is in the competition that became the default one. -/
structure Namespaces (s : Store K) : Prop where
  named : s.legacyArena ≠ some ""
  renamed : ∀ id r, s.reservations.find? id = some r → s.legacyArena ≠ some r.competitionArena

theorem publishes_spec (hp : op.permit.publishes = true) : ∃ id fingerprint pub root arena,
    op = .queue (.markPublished id fingerprint pub root arena) := by
  cases op with
  | queue op =>
    cases op with
    | markPublished id fingerprint pub root arena => exact ⟨_, _, _, _, _, rfl⟩
    | _ => cases hp
  | _ => cases hp

theorem relabels_spec (hp : op.permit.relabels = true) : ∃ arena,
    op = .queue (.selectArena arena true) := by
  cases op with
  | queue op =>
    cases op with
    | selectArena arena legacy =>
      cases legacy with
      | true => exact ⟨arena, rfl⟩
      | false => cases hp
    | _ => cases hp
  | _ => cases hp

/-- What a publication does: one fetched reservation moves into a competition. -/
theorem markPublished_spec {fingerprint : SubmittedDeltaFingerprint} {pub : Digest}
    {root : String} (h : s.markPublished id fingerprint pub root arena = .ok s') :
    ∃ arena' row row', s.publicationArena arena = .ok arena' ∧
      s.reservations.find? id = some row ∧ row.status = .fetching ∧
      s'.reservations.find? id = some row' ∧ row'.status ∉ Status.unpublished ∧
      row'.competitionArena = arena' ∧ row'.arrival = row.arrival ∧
      (∀ id' ≠ id, s'.reservations.find? id' = s.reservations.find? id') ∧
      s'.legacyArena = s.legacyArena ∧ s'.ledger = s.ledger := by
  simp only [markPublished, bind_ok, exists_check] at h
  obtain ⟨arena', harena, row, hrow, hstat, h⟩ := h
  have hfind := get_iff.1 hrow
  obtain ⟨hrow', hoth⟩ := find?_updateReservation h hfind
  obtain rfl := updateReservations_eq h
  refine ⟨arena', row, _, harena, hfind, hstat, hrow', ?_, rfl, rfl, hoth, rfl, rfl⟩
  simp only [IntakeReservation.withWork]
  split_ifs <;> decide

/-- What the adoption of a name does: its reservations move to the default competition. -/
theorem selectArena_spec (h : s.selectArena arena true = .ok s') :
    arena ≠ "" ∧ s'.legacyArena = some arena ∧ (∀ legacy ∈ s.legacyArena, legacy = arena) ∧
      ∀ id, s'.reservations.find? id = (s.reservations.find? id).map fun r =>
        if r.competitionArena = arena then
          r.withWork { r.toWork with competitionArena := "" } else r := by
  simp only [selectArena, bind_ok, exists_check, if_true] at h
  obtain ⟨harena, hleg, -, s₁, h₁, h⟩ := h
  cases h
  obtain rfl := updateReservations_eq h₁
  refine ⟨?_, ?_, hleg, fun id => find?_mapReservations⟩
  · rintro rfl
    exact absurd harena (by decide)
  · show some (s.legacyArena.getD arena) = some arena
    cases hold : s.legacyArena with
    | none => rfl
    | some legacy => exact congrArg some (hleg legacy hold)

theorem publicationArena_ne {arena' : String} (h : s.Namespaces)
    (harena : s.publicationArena arena = .ok arena') : s.legacyArena ≠ some arena' := by
  simp only [publicationArena, bind_ok, exists_check] at harena
  obtain ⟨-, harena⟩ := harena
  cases harena
  split_ifs with hleg
  · exact h.named
  · exact hleg

theorem namespaces_step (h : s.Namespaces) (op : Op K) : (s.step op).Namespaces := by
  have hstep := s.step_spec op
  by_cases hrelabels : op.permit.relabels = true
  · obtain ⟨arena, rfl⟩ := relabels_spec hrelabels
    refine committed_cases h fun s' h' => ?_
    obtain ⟨hnamed, hleg, -, hrows⟩ := selectArena_spec h'
    refine ⟨by simpa [hleg] using hnamed, fun id r' hr' => ?_⟩
    rw [hrows] at hr'
    obtain ⟨r, -, rfl⟩ := map_eq_some_iff.1 hr'
    rw [hleg, Ne, some_inj]
    split_ifs with hmoved
    · exact hnamed
    · exact fun heq => hmoved heq.symm
  · have hleg := hstep.legacy (by simpa using hrelabels)
    refine ⟨hleg ▸ h.named, fun id r' hr' => ?_⟩
    rw [hleg]
    rcases hstep.back hr' with ⟨r, hr, hrow⟩ | ⟨-, hfresh⟩
    · by_cases hpubs : op.permit.publishes = true
      · obtain ⟨id₀, fingerprint, pub, root, arena, rfl⟩ := publishes_spec hpubs
        refine committed_cases (I := fun s' => ∀ r', s'.reservations.find? id = some r' →
          s.legacyArena ≠ some r'.competitionArena) ?_ ?_ r' hr'
        · exact fun r' hr' => h.renamed id r' hr'
        · intro s' h' r₁ hr₁
          obtain ⟨arena', row, row', harena, -, -, hrow', -, harena', -, hoth, -⟩ :=
            markPublished_spec h'
          by_cases hid : id = id₀
          · subst hid
            obtain rfl : row' = r₁ := mem_unique hrow' hr₁
            rw [harena']
            exact publicationArena_ne h harena
          · exact h.renamed id r₁ ((hoth id hid).symm.trans hr₁)
      · rcases hrow.arena (.inl (by simpa using hpubs)) with heq | ⟨hmoved, -⟩
        · exact heq ▸ h.renamed id r hr
        · exact absurd hmoved hrelabels
    · exact hfresh.arena ▸ h.named

/-- A name that became the default competition stays one. -/
theorem legacyArena_step (h : s.legacyArena = some arena) (op : Op K) :
    (s.step op).legacyArena = some arena := by
  by_cases hrelabels : op.permit.relabels = true
  · obtain ⟨arena', rfl⟩ := relabels_spec hrelabels
    refine committed_cases (I := fun s' => s'.legacyArena = some arena) h fun s' h' => ?_
    obtain ⟨-, hleg, hsame, -⟩ := selectArena_spec h'
    rw [hleg, hsame arena h]
  · rw [(s.step_spec op).legacy (by simpa using hrelabels), h]

/-- A reservation that no longer waits for its publication is in a competition, or was until the
competition became the default one. -/
def PlacedIn (s : Store K) (id : Digest) (arrival : FinalizedArrival) (arena : String) : Prop :=
  ∃ r, s.reservations.find? id = some r ∧ r.arrival = arrival ∧
    r.status ∉ Status.unpublished ∧ (r.competitionArena = arena ∨
      r.competitionArena = "" ∧ s.legacyArena = some arena)

variable {arrival : FinalizedArrival} {arena : String}

theorem PlacedIn.step (h : s.PlacedIn id arrival arena) (hp : op.permit.reopens = false) :
    (s.step op).PlacedIn id arrival arena := by
  obtain ⟨r, hr, rfl, hstat, harena⟩ := h
  obtain ⟨r', hr', hrow⟩ := (s.step_spec op).kept id r hr
  refine ⟨r', hr', hrow.arrival, fun hu => hstat (hrow.unpublished hp hu), ?_⟩
  have hfetched : op.permit.publishes = false ∨ r.status ≠ .fetching := by
    refine .inr fun hfetching => hstat ?_
    rw [hfetching]
    decide
  rcases harena with rfl | ⟨hdefault, hleg⟩
  · rcases hrow.arena hfetched with heq | ⟨hrelabels, hmoved⟩
    · exact .inl heq
    · -- It moved, or it was in the default competition before.
      obtain ⟨name, rfl⟩ := relabels_spec hrelabels
      revert hmoved hr'
      refine committed_cases (I := fun s' => r'.competitionArena = "" →
        s'.reservations.find? id = some r' → r'.competitionArena = r.competitionArena ∨
          r'.competitionArena = "" ∧ s'.legacyArena = some r.competitionArena) ?_ ?_
      · intro _ hr'
        rw [hr, some_inj] at hr'
        exact .inl (by rw [hr'])
      · intro s' h' hmoved hr'
        obtain ⟨-, hleg, -, hrows⟩ := selectArena_spec h'
        rw [hrows, hr, map_some, some_inj] at hr'
        split_ifs at hr' with hname
        · exact .inr ⟨hmoved, by rw [hleg, hname]⟩
        · exact .inl (by rw [hr'])
  · refine .inr ⟨?_, legacyArena_step hleg op⟩
    rcases hrow.arena hfetched with heq | ⟨-, hmoved⟩
    · exact heq.trans hdefault
    · exact hmoved

theorem PlacedIn.row (h : s.PlacedIn id arrival arena)
    (harena : s.legacyArena ≠ some arena) : ∃ r, s.reservations.find? id = some r ∧
      r.arrival = arrival ∧ r.competitionArena = arena := by
  obtain ⟨r, hr, hrow, -, heq | ⟨-, hleg⟩⟩ := h
  · exact ⟨r, hr, hrow, heq⟩
  · exact absurd hleg harena

/-! ### The moment of a decision -/

variable {lease : SettlementLease K} {ev : List SettlementEvidence} {plan : SettlementPlan}
  {block : ℕ} {resolve : TreeResolver}
  {c : SettlementCandidate K} {r : IntakeReservation}

theorem unblocked_spec {cs : List (SettlementCandidate K)}
    (h : s.unblocked cs = .ok true) (hc : c ∈ cs)
    (hr : s.reservations.find? c.primary.reservationDigest = some r) :
    ∀ row ∈ s.reservations.rows, row.competitionArena = r.competitionArena →
      row.arrivalKey < r.arrivalKey →
        s.blocks (cs.map (·.primary.reservationDigest)) row = false := by
  simp only [unblocked, bind_ok] at h
  obtain ⟨blockers, hblockers, h⟩ := h
  obtain ⟨b, hb, hof⟩ := mapM_exists hblockers (List.mem_map_of_mem hc)
  have hnil : b = [] := by
    have hall := Except.ok.inj h
    rw [List.all_eq_true] at hall
    simpa using hall b hb
  simp only [economicBlockers, bind_ok] at hof
  obtain ⟨r₁, hr₁, hof⟩ := hof
  obtain rfl : r₁ = r := mem_unique (get_iff.1 hr₁) hr
  rw [hnil, Except.ok.injEq, map_eq_nil_iff, filter_eq_nil_iff] at hof
  intro row hrow harena hkey
  have hnot := hof row (Keyed.mem_sortBy.2 hrow)
  simpa [harena, hkey] using hnot

/-- When a commit settles a candidate, every earlier reservation of its competition is
completed. -/
theorem completed_of_commit (h : s.commitPlan lease ev plan block resolve = .ok s')
    (hc : c ∈ lease.candidates) {row : IntakeReservation}
    (hr : s.reservations.find? c.primary.reservationDigest = some r)
    (hrow : s.reservations.find? id = some row)
    (harena : row.competitionArena = r.competitionArena)
    (hkey : row.arrivalKey < r.arrivalKey) :
    ∃ row', s'.reservations.find? id = some row' ∧ completed row'.toWork := by
  obtain ⟨s₁, -, hkept, -, hwrote⟩ := commitPlan_written h
  have hexp : QueueStep {} s s₁ := expireStaleRows_step hkept.expired
  obtain ⟨r₁, hr₁, hrStep⟩ := hexp.kept _ r hr
  obtain ⟨row₁, hrow₁, hrowStep⟩ := hexp.kept _ row hrow
  have hsame {a b : IntakeReservation} (hstep : RowStep {} a b) :
      b.competitionArena = a.competitionArena := by
    rcases hstep.arena (.inl rfl) with heq | ⟨hmoved, -⟩
    · exact heq
    · cases hmoved
  refine ⟨row₁, hwrote.queue ▸ hrow₁, ?_⟩
  have hfree := unblocked_spec hkept.unblocked hc hr₁ row₁ (find?_eq_some.1 hrow₁).1
    (by rw [hsame hrowStep, hsame hrStep, harena])
    (by rw [hrowStep.arrival, hrStep.arrival]; exact hkey)
  by_cases hcohort : id ∈ lease.candidates.map (·.primary.reservationDigest)
  · -- A member of the cohort is a PASS, or its evidence could not have been reopened.
    obtain ⟨d, hd, rfl⟩ := List.mem_map.1 hcohort
    obtain ⟨rcpt, hrcpt, -⟩ := hkept.evidence d hd
    obtain ⟨-, -, r₂, hr₂, -, hq, -⟩ := standing_of_metadata hrcpt
    obtain rfl : r₂ = row₁ := mem_unique hr₂ hrow₁
    exact completed_of_status (by simp [hq])
  · have hid : row₁.reservationId K = id := (find?_eq_some.1 hrow₁).2
    simp only [blocks, hid, hcohort, not_false_eq_true, decide_true, Bool.true_and,
      Bool.and_eq_false_iff, Bool.not_eq_false', decide_eq_false_iff_not, not_not,
      Bool.and_eq_true, decide_eq_true_eq] at hfree
    rcases hfree with (hdone | hheld) | ⟨hq, -⟩
    · refine completed_of_status ?_
      rcases mem_pair.1 hdone with hd | hd <;> simp [hd]
    · simp [completed, hheld]
    · exact completed_of_status (by simp [hq])

/-- When the rewards are first shown a candidate, its reservation is a PASS and every earlier one
of its competition is completed. -/
theorem completed_of_rewarded {c c' : CandidateRow K} (hc : s.candidates.find? id = some c)
    (hc' : (s.step op).candidates.find? id = some c') (hbef : c.rewardEligible = false)
    (hafter : c'.rewardEligible = true) :
    ∃ r, s.reservations.find? id = some r ∧ r.status = .qualified ∧ s.completedPrefix r = true := by
  have hshown {s₀ : Store K} {c₁ : CandidateRow K} (hqueue : s₀.queue = s.queue)
      (hled : s₀.ledger = s.ledger)
      (hc₁ : s₀.finalizeRewardPrefix.candidates.find? id = some c₁)
      (h₁ : c₁.rewardEligible = true) : ∃ r, s.reservations.find? id = some r ∧
        r.status = .qualified ∧ s.completedPrefix r = true := by
    have hfind := find?_mapCandidates.symm.trans hc₁
    rw [hled, hc, map_some, some_inj] at hfind
    split_ifs at hfind with hshows
    · obtain ⟨r, hr, hpass⟩ := (Option.any_eq_true _ _).1 hshows.2
      simp only [Bool.and_eq_true, decide_eq_true_eq] at hpass
      unfold reservationOf at hr
      rw [(find?_eq_some.1 hc).2, hqueue] at hr
      refine ⟨r, hr, hpass.1.1, ?_⟩
      have hprefix := hpass.2
      unfold completedPrefix at hprefix ⊢
      rwa [hqueue] at hprefix
    · rw [← hfind, hbef] at h₁
      cases h₁
  by_cases hp : op.permit.rewards = false
  · obtain ⟨c₁, hc₁, hstep⟩ := (s.step_spec op).candidate id c hc
    obtain rfl : c₁ = c' := mem_unique hc₁ hc'
    rw [hstep.unrewarded hp, hbef] at hafter
    cases hafter
  · cases op with
    | queue op => exact absurd (by cases op <;> rfl) hp
    | finalizeRewards => exact hshown rfl rfl hc' hafter
    | restart policy recov =>
      obtain ⟨s₁, h₁, h₂, -⟩ := restart_spec s policy recov
      have hrest := (h₁.weaken (by decide)).trans rfl h₂
      have hexists : ∃ c₁, (s.reopen policy recov).finalizeRewardPrefix.candidates.find?
          id = some c₁ ∧ CandidateStep { passes := true } c₁ c' := by
        rcases hrest.candidateBack hc' with hback | hnone
        · exact hback
        · obtain ⟨c₂, hc₂, -⟩ := ((reopen_step (p := { rewards := true })).trans rfl
            finalizePrefix_step).candidate id c hc
          exact absurd (hnone.symm.trans hc₂) (by simp)
      obtain ⟨c₁, hc₁, hstep⟩ := hexists
      exact hshown rfl rfl hc₁ ((hstep.unrewarded rfl).symm.trans hafter)
    | _ => exact absurd rfl hp

/-! ### Runs -/

/-- The run publishes a reservation into a competition. -/
def PublishedInto (s : Store K) (ops : List (Op K)) (id : Digest) (arrival : FinalizedArrival)
    (arena : String) : Prop :=
  ∃ before op after r r', ops = before ++ op :: after ∧
    (s.run before).reservations.find? id = some r ∧ r.publicationDigest = none ∧
    ((s.run before).step op).reservations.find? id = some r' ∧
    r'.publicationDigest.isSome ∧ r'.arrival = arrival ∧ r'.competitionArena = arena

/-- Nothing is taken up again, and nothing is published into a competition in which a later
arrival is settled or rewarded. -/
def KeepsOrder (s : Store K) : Op K → Prop
  | .queue (.releaseHold ..) | .queue (.requeue ..) => False
  | .queue (.markPublished id _ _ _ arena) => ∀ c ∈ s.candidates.rows, c.decided = true →
    ∀ r ∈ s.reservationOf c, ∀ row ∈ s.reservations.find? id,
      s.publicationArena arena = .ok r.competitionArena → ¬ row.arrivalKey < r.arrivalKey
  | _ => True

instance (s : Store K) (op : Op K) : Decidable (s.KeepsOrder op) := by
  induction op using Op.casesOn
  case queue op => induction op using QueueOp.casesOn <;> unfold KeepsOrder <;> infer_instance
  all_goals exact isTrue trivial

theorem KeepsOrder.reopens (h : s.KeepsOrder op) : op.permit.reopens = false := by
  cases op with
  | queue op =>
    cases op with
    | releaseHold => exact absurd h id
    | requeue => exact absurd h id
    | _ => rfl
  | _ => rfl

/-- Only a publication publishes. -/
theorem published_spec {r' : IntakeReservation} (hr : s.reservations.find? id = some r)
    (hnone : r.publicationDigest = none) (hr' : (s.step op).reservations.find? id = some r')
    (hsome : r'.publicationDigest.isSome) : ∃ fingerprint pub root name,
      op = .queue (.markPublished id fingerprint pub root name) ∧
      s.markPublished id fingerprint pub root name = .ok (s.step op) := by
  have hne {s' : Store K} (hsame : s'.reservations.find? id = s.reservations.find? id) :
      s'.reservations.find? id ≠ some r' := by
    intro hr₁
    obtain rfl : r = r' := mem_unique (hsame.trans hr) hr₁
    rw [hnone] at hsome
    cases hsome
  by_cases hp : op.permit.publishes = true
  · obtain ⟨id₀, fingerprint, pub, root, name, rfl⟩ := publishes_spec hp
    have hstep : s.step (.queue (.markPublished id₀ fingerprint pub root name)) =
      (s.committed (s.markPublished id₀ fingerprint pub root name)).1 := rfl
    cases hpublished : s.markPublished id₀ fingerprint pub root name with
    | error fault =>
      rw [hstep, hpublished] at hr'
      exact absurd hr' (hne rfl)
    | ok s' =>
      rw [hpublished] at hstep
      rw [hstep] at hr' ⊢
      obtain ⟨-, -, -, -, -, -, -, -, -, -, hoth, -⟩ := markPublished_spec hpublished
      by_cases hid : id = id₀
      · subst hid
        exact ⟨_, _, _, _, rfl, hpublished⟩
      · exact absurd hr' (hne (hoth id hid))
  · obtain ⟨r₁, hr₁, hrow⟩ := (s.step_spec op).kept id r hr
    obtain rfl : r₁ = r' := mem_unique hr₁ hr'
    rw [hrow.publication (.inl (by simpa using hp)), hnone] at hsome
    cases hsome

theorem PlacedIn.run {ops : List (Op K)} (h : s.PlacedIn id arrival arena)
    (hops : s.Along KeepsOrder ops) : (s.run ops).PlacedIn id arrival arena :=
  hops.induction (I := fun s => s.PlacedIn id arrival arena) h fun _ _ hs hop => hs.step hop.reopens

theorem namespaces_run (policy : IntakePolicy) (recov : Bool) (ops : List (Op K)) :
    ((init K policy recov).run ops).Namespaces :=
  run_invariant ⟨nofun, fun _ _ h => nomatch h⟩ fun _ op hs => namespaces_step hs op

/-- The name stands for the competition: it is its name, or the alias of the default one. -/
def Names (s : Store K) (arena competition : String) : Prop :=
  arena = competition ∨ competition = "" ∧ s.legacyArena = some arena

/-- A reservation that the run publishes into the competition of a decided candidate, from before
it, was there when the candidate was decided. -/
theorem published_before {policy : IntakePolicy} {recov : Bool} {before after : List (Op K)}
    (h : (init K policy recov).Along KeepsOrder (before ++ op :: after))
    (hs : s = (init K policy recov).run before) {c c' : CandidateRow K}
    (hc : s.candidates.find? id = some c)
    (hc' : (s.step op).candidates.find? id = some c') (hchanged : c ≠ c')
    (hdec : c'.decided = true) (hr : s.reservations.find? id = some r)
    (hplaced : s.PlacedIn id r.arrival r.competitionArena) {id' : Digest}
    (hpublished : (init K policy recov).PublishedInto (before ++ op :: after) id' arrival arena)
    (hnames : s.Names arena r.competitionArena)
    (hearly : arrival.arrivalKey < r.arrivalKey) :
    ∃ row, s.reservations.find? id' = some row ∧ row.arrival = arrival ∧
      row.competitionArena = r.competitionArena := by
  obtain ⟨ops₁, pub, ops₂, row, row', hsplit, hrow, hnone, hrow', hsome, rfl, harena⟩ := hpublished
  obtain ⟨fingerprint, publication, root, name, rfl, hok⟩ := published_spec hrow hnone hrow' hsome
  obtain ⟨arena', row₀, row₁, hname, hfind, -, hrow₁, hstat, harena', harr, -, -, hled⟩ :=
    markPublished_spec hok
  obtain rfl : row₁ = row' := mem_unique hrow₁ hrow'
  obtain rfl : row = row₀ := mem_unique hrow hfind
  -- The decision is not the publication itself, which leaves the candidates.
  have hne : ops₁ ≠ before := by
    rintro rfl
    obtain ⟨rfl, -⟩ := cons.inj (append_cancel_left hsplit)
    rw [← hs] at hled
    rw [hled, hc, some_inj] at hc'
    exact hchanged hc'
  have hspaces : s.Namespaces := hs ▸ namespaces_run policy recov before
  rcases append_eq_append_iff.1 hsplit with ⟨rest, hops₁, hrest⟩ | ⟨rest, hbef, hrest⟩
  · cases rest with
    | nil => exact absurd (by simpa using hops₁) hne
    | cons first rest =>
      -- A publication after the decision: the candidate is still there, and still decided.
      obtain ⟨rfl, -⟩ := cons.inj hrest
      have hrun : (init K policy recov).run ops₁ = (s.step op).run rest := by
        rw [hops₁, run_append, ← hs]
        rfl
      have halong := (along_append _).1 h
      rw [← hs] at halong
      obtain ⟨-, hop, hafter⟩ := halong
      have hafter' : after = rest ++
          .queue (.markPublished id' fingerprint publication root name) :: ops₂ :=
            (cons.inj hrest).2
      rw [hafter', along_append] at hafter
      obtain ⟨halong₁, hpub, -⟩ := hafter
      have hstill : ∃ c₁, ((s.step op).run rest).candidates.find? id = some c₁ ∧
          c₁.decided = true := by
        refine halong₁.induction (I := fun s => ∃ c₁, s.candidates.find? id = some c₁ ∧
          c₁.decided = true) ⟨c', hc', hdec⟩ ?_
        rintro s₁ op₁ ⟨c₁, hc₁, hdec₁⟩ -
        obtain ⟨c₂, hc₂, hstep⟩ := (s₁.step_spec op₁).candidate id c₁ hc₁
        exact ⟨c₂, hc₂, hstep.decided hdec₁⟩
      obtain ⟨c₁, hc₁, hdec₁⟩ := hstill
      have hplaced₁ := (hplaced.step hop.reopens).run halong₁
      have hspaces₁ := namespaces_run (K := K) policy recov ops₁
      rw [hrun] at hrow hname hspaces₁
      have hfree : ((s.step op).run rest).legacyArena ≠ some row₁.competitionArena :=
        harena' ▸ publicationArena_ne hspaces₁ hname
      -- An alias of before the decision is resolved by the publication.
      have hown : arena = r.competitionArena := by
        refine hnames.resolve_right fun ⟨_, hleg⟩ => hfree ?_
        rw [harena]
        exact halong₁.induction (I := fun s => s.legacyArena = some arena)
          (legacyArena_step hleg op) fun _ op₁ h _ => legacyArena_step h op₁
      obtain ⟨r₁, hr₁, hkey₁, harena₁⟩ := hplaced₁.row (hown ▸ harena ▸ hfree)
      refine absurd hearly ?_
      have hof : ((s.step op).run rest).reservationOf c₁ = some r₁ := by
        unfold reservationOf
        rw [(find?_eq_some.1 hc₁).2, hr₁]
      have hnot := hpub c₁ (find?_eq_some.1 hc₁).1 hdec₁ r₁ hof row hrow
        (by rw [hname, harena₁, ← hown, ← harena, harena'])
      rwa [hkey₁, ← harr] at hnot
  · cases rest with
    | nil => exact absurd (by simpa using hbef.symm) hne
    | cons first rest =>
      -- A publication before the decision.
      obtain ⟨rfl, -⟩ := cons.inj hrest
      have halong := ((along_append _).1 h).1
      rw [hbef, along_append] at halong
      have hpublished : (((init K policy recov).run ops₁).step (.queue (.markPublished id'
          fingerprint publication root name))).PlacedIn id' row₁.arrival arena :=
        ⟨row₁, hrow₁, rfl, hstat, .inl harena⟩
      have hplaced' : s.PlacedIn id' row₁.arrival arena := by
        rw [hs, hbef, run_append]
        exact hpublished.run halong.2.2
      rcases hnames with rfl | ⟨hdefault, hleg⟩
      · exact hplaced'.row (hspaces.renamed id r hr)
      · -- Nothing is left under a name that became the alias.
        obtain ⟨row, hrow, harrival, -, hown | ⟨hmoved, -⟩⟩ := hplaced'
        · exact absurd (hown ▸ hleg) (hspaces.renamed id' row hrow)
        · exact ⟨row, hrow, harrival, hmoved.trans hdefault.symm⟩

/-- **Within a competition the arrivals are decided in order**, as long as nothing is taken up
again and nothing is published where a later arrival is decided already. -/
theorem decided_in_order {policy : IntakePolicy} {recoverable : Bool} {before after : List (Op K)}
    {op : Op K} (h : (init K policy recoverable).Along KeepsOrder (before ++ op :: after)) :
    let s := (init K policy recoverable).run before
    ∀ id c c' r id' arrival arena, s.candidates.find? id = some c →
      (s.step op).candidates.find? id = some c' →
      s.reservations.find? id = some r →
      (init K policy recoverable).PublishedInto (before ++ op :: after) id' arrival arena →
      s.Names arena r.competitionArena → arrival.arrivalKey < r.arrivalKey →
        ((∃ lease ev plan block resolve, op = .commitSettlement lease ev plan block resolve) →
          c.disposed = false → c'.disposed = true →
            ∃ row, (s.step op).reservations.find? id' = some row ∧ completed row.toWork) ∧
        (c.rewardEligible = false → c'.rewardEligible = true →
          ∃ row, s.reservations.find? id' = some row ∧ completed row.toWork) := by
  intro s id c c' r id' arrival arena hc hc' hr hpublished hnames hearly
  have hplaced (hq : r.status = .qualified) : s.PlacedIn id r.arrival r.competitionArena :=
    ⟨r, hr, rfl, by rw [hq]; decide, .inl rfl⟩
  constructor
  · rintro ⟨lease, ev, plan, block, resolve, rfl⟩ hopen hdisp
    have hchanged : c ≠ c' := fun heq => absurd (heq ▸ hopen) (by rw [hdisp]; decide)
    have hdec : c'.decided = true := by simp [CandidateRow.decided, hdisp]
    cases hcom : s.commitPlan lease ev plan block resolve with
    | error fault =>
      have hstep : s.step (.commitSettlement lease ev plan block resolve) = s := by
        simp [step, commitSettlement, hcom]
      rw [hstep, hc, some_inj] at hc'
      exact absurd hc' hchanged
    | ok s' =>
      have hstep : s.step (.commitSettlement lease ev plan block resolve) = s' := by
        simp [step, commitSettlement, hcom]
      obtain ⟨s₁, hled, hkept, -, hwrote⟩ := commitPlan_written hcom
      have hid : id ∈ lease.candidates.map (·.primary.reservationDigest) := by
        by_contra hid
        rw [hstep, hwrote.others id hid, hled, hc, some_inj] at hc'
        exact hchanged hc'
      obtain ⟨d, hd, rfl⟩ := List.mem_map.1 hid
      have hq : r.status = .qualified := by
        obtain ⟨receipt, hrcpt, -⟩ := hkept.evidence d hd
        obtain ⟨-, -, r₁, hr₁, -, hq, -⟩ := standing_of_metadata hrcpt
        have hexp : QueueStep {} s s₁ := expireStaleRows_step hkept.expired
        obtain ⟨r₂, hr₂, hrow⟩ := hexp.kept _ r hr
        obtain rfl : r₂ = r₁ := mem_unique hr₂ hr₁
        exact (hrow.no_pass rfl hq).1
      obtain ⟨row, hrow, rfl, harena⟩ := published_before h rfl hc hc' hchanged hdec hr
        (hplaced hq) hpublished hnames hearly
      rw [hstep]
      exact completed_of_commit hcom hd hr hrow harena hearly
  · intro hunrew hrew
    have hchanged : c ≠ c' := fun heq => absurd (heq ▸ hunrew) (by rw [hrew]; decide)
    have hdec : c'.decided = true := by simp [CandidateRow.decided, hrew]
    obtain ⟨r₁, hr₁, hq, hprefix⟩ := completed_of_rewarded hc hc' hunrew hrew
    obtain rfl : r₁ = r := mem_unique hr₁ hr
    obtain ⟨row, hrow, rfl, harena⟩ := published_before h rfl hc hc' hchanged hdec hr
      (hplaced hq) hpublished hnames hearly
    refine ⟨row, hrow, ?_⟩
    have hall := List.all_eq_true.1 hprefix row (find?_eq_some.1 hrow).1
    simpa [harena, hearly] using hall

end Store

/-! ### A sample -/

/-- A named competition with two submissions, of which neither is published. -/
def sampleNamed : List (Op intakeHashes) := .queue (.selectArena "x" false) :: Sample.two

/-- Both submissions are published, the first one fails and the second one passes. -/
def sampleOrdered : List (Op intakeHashes) :=
  Sample.publish 2 2 "x" ++ [.queue (.markFailed (sampleId 1) "unfit")] ++ Sample.secondPass

theorem sample_publishedInto {arena : String} (h : arena = "x") :
    (Store.init intakeHashes {} false).PublishedInto
    ((sampleNamed ++ Sample.publish 1 1 "x" ++ sampleOrdered) ++ .finalizeRewards :: [])
    (sampleId 1) (sampleArrival 1 alice) arena := by
  have hfetched : (((Store.init intakeHashes {} false).run (sampleNamed ++
      [.queue (.markFetching (sampleId 1))])).reservations.find? (sampleId 1)).any
        (·.publicationDigest = none) = true := by decide
  have hpublished : (((Store.init intakeHashes {} false).run ((sampleNamed ++
      [.queue (.markFetching (sampleId 1))]) ++ [.queue (.markPublished (sampleId 1)
        (sampleFingerprint 1) (.ofNat 401) "/bundle" "x")])).reservations.find?
          (sampleId 1)).any (fun r => r.publicationDigest.isSome &&
            decide (r.arrival = sampleArrival 1 alice) && r.competitionArena = "x") = true := by
    decide
  obtain ⟨r₁, hr₁, hnone⟩ := (Option.any_eq_true _ _).1 hfetched
  obtain ⟨r₂, hr₂, hinto⟩ := (Option.any_eq_true _ _).1 hpublished
  rw [Store.run_concat] at hr₂
  simp only [Bool.and_eq_true, decide_eq_true_eq] at hinto hnone
  refine ⟨_, _, sampleOrdered ++ [.finalizeRewards], r₁, r₂, ?_, hr₁, hnone, hr₂, hinto.1.1,
    hinto.1.2, hinto.2.trans h.symm⟩
  simp [Sample.publish]

theorem decided_in_order_sample :
    let s := (Store.init intakeHashes {} false).run
      (sampleNamed ++ Sample.publish 1 1 "x" ++ sampleOrdered)
    (s.candidates.find? (sampleId 2)).any (!·.rewardEligible) = true ∧
      ((s.step .finalizeRewards).candidates.find? (sampleId 2)).any (·.rewardEligible) = true ∧
      ∃ row, s.reservations.find? (sampleId 1) = some row ∧ completed row.toWork := by
  intro s
  have halong : (Store.init intakeHashes {} false).Along Store.KeepsOrder
      ((sampleNamed ++ Sample.publish 1 1 "x" ++ sampleOrdered) ++ .finalizeRewards :: []) := by
    decide
  have hbef : (s.candidates.find? (sampleId 2)).any (!·.rewardEligible) = true := by
    decide
  have hafter : ((s.step .finalizeRewards).candidates.find? (sampleId 2)).any
      (·.rewardEligible) = true := by decide
  have hrow : (s.reservations.find? (sampleId 2)).any (fun r => r.competitionArena = "x" &&
      decide ((sampleArrival 1 alice).arrivalKey < r.arrivalKey)) = true := by
    decide
  refine ⟨hbef, hafter, ?_⟩
  obtain ⟨c, hc, hunrew⟩ := (Option.any_eq_true _ _).1 hbef
  obtain ⟨c', hc', hrew⟩ := (Option.any_eq_true _ _).1 hafter
  obtain ⟨r, hr, hplace⟩ := (Option.any_eq_true _ _).1 hrow
  simp only [Bool.and_eq_true, decide_eq_true_eq] at hplace
  have hres := Store.decided_in_order halong (sampleId 2) c c' r (sampleId 1)
    (sampleArrival 1 alice) _ hc hc' hr (sample_publishedInto hplace.1) (.inl rfl) hplace.2
  exact hres.2 (by simpa using hunrew) hrew

/-- A later arrival is rewarded while an earlier one, that goes to the same named competition, is
still waiting to be fetched. -/
theorem finalizeRewardPrefix_out_of_order :
    let s := (Store.init intakeHashes {} false).run
      (sampleNamed ++ Sample.publish 2 2 "x" ++ Sample.secondPass)
    let s' := s.step .finalizeRewards
    (s.candidates.find? (sampleId 2)).map (·.rewardEligible) = some false ∧
      (s'.candidates.find? (sampleId 2)).map (·.rewardEligible) = some true ∧
      (s'.reservations.find? (sampleId 2)).map
        (fun r => (r.arrival, r.competitionArena)) = some (sampleArrival 2 bob, "x") ∧
      (s'.reservations.find? (sampleId 1)).map
        (fun r => (r.arrival, r.status, r.publicationDigest)) =
          some (sampleArrival 1 alice, .reserved, none) ∧
      ((s'.run (Sample.publish 1 1 "x")).reservations.find? (sampleId 1)).map
        (fun r => (r.status, r.competitionArena)) = some (.published, "x") ∧
      (sampleArrival 1 alice).arrivalKey < (sampleArrival 2 bob).arrivalKey := by
  decide

end Cacheon
