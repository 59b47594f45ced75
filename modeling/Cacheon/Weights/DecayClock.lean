import Cacheon.Lib.Durable
import Cacheon.Weights.Follower

/-!
# The publication clocks of rewards

The reward of a PASS decays from the block at which the chain first confirmed weights that pay
it.  Until then its clock is held.  Clock starts are kept in an append-only log of adjustments,
which is filled from the follower's confirmed publications; a cursor remembers how far that
journal was read.

* `DecayBook` : the log and the cursor.
* `recordRewardDecayStart`, `holdUnpublishedClaims`, `confirmRewardDecay`,
  `reconcileFollowerRewardDecay` — what a producer does to them.  Each record is a transaction
  of its own, unless a whole reconciliation is one.
* `decay_clocks` : the clocks of every sequence of calls, with crashes anywhere.
-/

namespace Cacheon

open Fallible PublicationFault Durable List

/-! ### The adjustment log -/

/-- An entry of the log: a claim's clock is held, or starts at a block. -/
structure DecayAdjustment where
  claimDigest : Digest
  startBlock : Option ℕ
  reason : String
deriving DecidableEq

/-- The metadata rows on the reward clocks. -/
structure DecayBook where
  /-- `reward_decay_adjustments`, oldest first. -/
  adjustments : List DecayAdjustment
  /-- `reward_decay_confirmation_cursor`: the journal, and the last sequence number read. -/
  cursor : Option (String × ℕ)
  /-- `reward_decay_legacy_claims`: the claims that keep their crown-block clock. -/
  legacy : List Digest
deriving DecidableEq

/-- A confirmed publication, and the earning PASSes it was matched with. -/
structure DecaySource where
  projection : WeightProjection
  record : WeightPublicationRecord
  earning : List StandingRewardClaim

/-- An entry, with the publication it was recorded for. -/
structure DecayStamp where
  source : Option DecaySource
  entry : DecayAdjustment

/-- The digests of the publication code, of offers and of claims. -/
structure DecayHashes extends OfferHashes where
  claim : StandingRewardClaim → Digest

/-- What the store's earning PASSes read as. -/
abbrev Earning := PublicationM (List StandingRewardClaim)

namespace DecayBook

/-- The starts recorded for a claim, oldest first. -/
def clock (b : DecayBook) (claimDigest : Digest) : List (Option ℕ) :=
  (b.adjustments.filter (·.claimDigest = claimDigest)).map (·.startBlock)

/-- The clock of a claim is held. -/
def Pending (b : DecayBook) (claimDigest : Digest) : Prop :=
  (b.clock claimDigest).getLast? = some none

instance (b : DecayBook) : DecidablePred b.Pending :=
  fun d => inferInstanceAs (Decidable ((b.clock d).getLast? = some none))

/-- The last sequence number read from the confirmation journal, if it was read. -/
def consumed (b : DecayBook) : WithBot ℕ := b.cursor.elim ⊥ fun cursor => cursor.2

end DecayBook

variable (H : DecayHashes) (earning : Earning)

/-- Record one start, in one transaction. -/
def recordStart (source : Option DecaySource) (claimDigest : Digest)
    (start : Option ℕ) (reason : String) (b : DecayBook) :
    PublicationM (DecayBook × List DecayStamp) := do
  let claims ← earning
  -- the later of two claims with one digest
  let claim ← get (intake "reward decay adjustment has no earning PASS")
    (claims.reverse.find? (H.claim · = claimDigest))
  check (∀ block, start = some block → claim.crownedBlock ≤ block)
    (intake "reward decay start predates the submission")
  check (¬ reason.toList.all isSpace) (intake "reward decay adjustment requires a reason")
  let prior := (b.clock claimDigest).getLast?
  if prior = some start then .ok (b, [])
  else do
    check (prior.join = none) (intake "reward decay start is already fixed")
    let entry : DecayAdjustment := ⟨claimDigest, start, reason⟩
    .ok ({ b with adjustments := b.adjustments ++ [entry] }, [⟨source, entry⟩])

/-! ### Confirmations -/

/-- The block a record published its vector at. -/
def WeightPublicationRecord.published (r : WeightPublicationRecord) : ℕ :=
  if r.val.reason = "block_inclusion" then r.val.confirmedBlock else r.val.confirmedLastUpdate

/-- The evidence that a projection pays for. -/
def WeightProjection.earningEvidence (p : WeightProjection) : List Digest :=
  p.rewardedEvidenceDigests.getD p.evidenceDigests

/-- A projection pays an account. -/
def WeightProjection.Pays (p : WeightProjection) (hotkey : Hotkey) : Prop :=
  0 < (p.weightsPpm.reverse.lookup hotkey).getD 0

instance (p : WeightProjection) : DecidablePred p.Pays :=
  fun _ => inferInstanceAs (Decidable (0 < _))

/-- The held claims that a publication starts. -/
def confirmTargets (p : WeightProjection) (r : WeightPublicationRecord)
    (b : DecayBook) : PublicationM (List StandingRewardClaim) := do
  check (r.val.projectionDigest = H.projection p)
    (intake "decay confirmation differs from its retained projection")
  -- an older identical vector does not publish a newly accepted PASS
  if r.val.status ≠ .confirmed ∨ r.published < p.effectiveBlock then .ok []
  else if ∀ entry ∈ b.adjustments, ¬ b.Pending entry.claimDigest then .ok []
  else do
    let claims ← earning
    .ok (claims.filter fun claim => b.Pending (H.claim claim) ∧
      claim.retainedEvidenceDigest ∈ p.earningEvidence ∧ p.Pays claim.hotkey)

/-- Start one claim at the confirmed block. -/
def confirmOne (p : WeightProjection) (r : WeightPublicationRecord)
    (claim : StandingRewardClaim) (b : DecayBook) :
    PublicationM (DecayBook × List DecayStamp) := do
  let claims ← earning
  recordStart H earning (some ⟨p, r, claims⟩) (H.claim claim) (some r.val.confirmedBlock)
    ("First confirmed publication: " ++ (H.projection p).hex) b

/-- `confirm_reward_decay` inside a transaction. -/
def confirmIn (p : WeightProjection) (r : WeightPublicationRecord)
    (b : DecayBook) : PublicationM (DecayBook × List DecayStamp) := do
  let targets ← confirmTargets H earning p r b
  targets.foldlM (fun acc claim => do
    let (b, new) ← confirmOne H earning p r claim acc.1
    .ok (b, acc.2 ++ new)) (b, [])

/-- Reopen the confirmed rows after the cursor, with the last sequence number there is. -/
def readRewardConfirmations (path : String) (cursor : String × ℕ) (scope : JournalScope)
    (validatorHotkey : Hotkey) (rows : List FollowedRow) :
    PublicationM (ℕ × List (WeightProjection × WeightPublicationRecord)) := do
  check (cursor.1 = path) (intake "reward confirmation journal changed")
  let maximum := (rows.map (·.sequence)).foldr max 0
  check (cursor.2 ≤ maximum) (intake "reward confirmation journal regressed")
  let fresh := (rows.filter fun row => cursor.2 < row.sequence ∧ row.status = .confirmed)
  let confirmations ← (fresh.insertionSort fun a b => a.sequence ≤ b.sequence).mapM fun row => do
    let p := row.offer.projection
    check (H.offer row.offer = row.offerDigest ∧ H.record row.record = row.recordDigest ∧
        row.record.val.status = row.status ∧ H.projection p = row.projectionDigest ∧
        p.validatorHotkey = validatorHotkey ∧ p.chainScopeDigest = scope.digest ∧
        p.netuid = scope.netuid)
      (intake "reward confirmation differs from its signer or chain authority")
    .ok (p, row.record)
  .ok (maximum, confirmations)

/-- What one reconciliation reads outside the book. -/
structure ConfirmationSource where
  path : String
  scope : JournalScope
  validatorHotkey : Hotkey
  rows : List FollowedRow

/-- Consume the confirmations after the cursor and move it, in one transaction. -/
def reconcileIn (c : ConfirmationSource) (b : DecayBook) :
    PublicationM (DecayBook × List DecayStamp) := do
  let cursor := b.cursor.getD (c.path, 0)
  let (maximum, confirmations) ←
    readRewardConfirmations H c.path cursor c.scope c.validatorHotkey c.rows
  let (b, new) ← confirmations.foldlM (fun acc confirmation => do
    let (b, new) ← confirmIn H earning confirmation.1 confirmation.2 acc.1
    .ok (b, acc.2 ++ new)) (b, [])
  .ok ({ b with cursor := some (c.path, maximum) }, new)

/-! ### The producer's calls -/

/-- A process on the clocks; its log has the stamps of each transaction. -/
abbrev DecayProc := Proc DecayBook (List DecayStamp) PublicationFault

/-- `record_reward_decay_start`. -/
def recordRewardDecayStart (claimDigest : Digest) (start : Option ℕ)
    (reason : String) : DecayProc Unit :=
  effect (recordStart H earning none claimDigest start reason)

/-- `_hold_unpublished_claims`. -/
def holdUnpublishedClaims (claims : List StandingRewardClaim) (earning : Earning) :
    DecayProc Unit := do
  let untracked ← Durable.read fun b => .ok (claims.filter fun claim =>
    H.claim claim ∉ b.legacy ∧ H.claim claim ∉ b.adjustments.map (·.claimDigest))
  forM untracked fun claim => recordRewardDecayStart H earning (H.claim claim) none
    "Awaiting first confirmed on-chain weights containing this PASS"

/-- `confirm_reward_decay`, outside any transaction. -/
def confirmRewardDecay (p : WeightProjection) (r : WeightPublicationRecord) : DecayProc Unit := do
  let targets ← Durable.read (confirmTargets H earning p r)
  forM targets fun claim => effect (confirmOne H earning p r claim)

/-- `reconcile_follower_reward_decay`. -/
def reconcileFollowerRewardDecay (c : ConfirmationSource) : DecayProc Unit :=
  effect (reconcileIn H earning c)

/-- A call, with the earning PASSes that it finds in the store. -/
inductive DecayCall where
  | hold (claims : List StandingRewardClaim) (earning : Earning)
  | record (earning : Earning) (claimDigest : Digest) (start : Option ℕ) (reason : String)
  | confirm (earning : Earning) (p : WeightProjection) (r : WeightPublicationRecord)
  | reconcile (earning : Earning) (c : ConfirmationSource)

/-- The process of a call. -/
def DecayCall.proc : DecayCall → DecayProc Unit
  | .hold claims earning => holdUnpublishedClaims H claims earning
  | .record earning claimDigest start reason =>
    recordRewardDecayStart H earning claimDigest start reason
  | .confirm earning p r => confirmRewardDecay H earning p r
  | .reconcile earning c => reconcileFollowerRewardDecay H earning c

/-- The world of a new store, or of one with legacy claims. -/
def decayStart (legacy : List Digest) : World DecayBook (List DecayStamp) :=
  ⟨⟨[], none, legacy⟩, [], 0⟩

/-! ### What one transaction does -/

/-- A clock is untouched, held, started after a hold, or started at once. -/
def ClockShape (l : List (Option ℕ)) : Prop :=
  l = [] ∨ l = [none] ∨ (∃ b, l = [none, some b]) ∨ ∃ b, l = [some b]

/-- A publication justifies an entry: it was confirmed no earlier than it was effective, it paid
the claim's account and listed the claim's evidence, and the claim was crowned before. -/
def Warranted (s : DecaySource) (entry : DecayAdjustment) : Prop :=
  entry.startBlock = some s.record.val.confirmedBlock ∧ s.record.val.status = .confirmed ∧
    s.record.val.projectionDigest = H.projection s.projection ∧
    s.projection.effectiveBlock ≤ s.record.published ∧
    ∃ claim ∈ s.earning, H.claim claim = entry.claimDigest ∧
      claim.crownedBlock ≤ s.record.val.confirmedBlock ∧ s.projection.Pays claim.hotkey ∧
      claim.retainedEvidenceDigest ∈ s.projection.earningEvidence

/-- From one book to a later one, by entries that were appended. -/
structure Grows (b : DecayBook) (new : List DecayStamp) (b' : DecayBook) : Prop where
  adjustments : b'.adjustments = b.adjustments ++ new.map (·.entry)
  shape : (∀ d, ClockShape (b.clock d)) → ∀ d, ClockShape (b'.clock d)
  warranted : ∀ stamp ∈ new, ∀ s, stamp.source = some s → Warranted H s stamp.entry
  consumed : b.consumed ≤ b'.consumed

variable {H earning} {b b' b'' : DecayBook} {new new' : List DecayStamp}
  {p : WeightProjection} {r : WeightPublicationRecord} {d : Digest} {start : Option ℕ}

theorem Grows.refl : Grows H b [] b := ⟨by simp, id, forall_mem_nil _, le_rfl⟩

theorem Grows.trans (h : Grows H b new b') (h' : Grows H b' new' b'') :
    Grows H b (new ++ new') b'' := by
  refine ⟨?_, fun hb => h'.shape (h.shape hb), ?_, le_trans h.consumed h'.consumed⟩
  · rw [h'.adjustments, h.adjustments, map_append, append_assoc]
  · exact forall_mem_append.2 ⟨h.warranted, h'.warranted⟩

/-- Transactions in a loop add up. -/
theorem Grows.foldlM {ι : Type} {l : List ι}
    {f : ι → DecayBook → PublicationM (DecayBook × List DecayStamp)}
    (hf : ∀ i ∈ l, ∀ b b' new, f i b = .ok (b', new) → Grows H b new b')
    (h : l.foldlM (fun acc i => do
      let (b, new) ← f i acc.1
      .ok (b, acc.2 ++ new)) (b, new) = .ok (b', new')) :
    ∃ added, new' = new ++ added ∧ Grows H b added b' := by
  induction l generalizing b new with
  | nil =>
    cases h
    exact ⟨[], by simp, .refl⟩
  | cons i l ih =>
    simp only [foldlM_cons, bind_ok] at h
    obtain ⟨acc, ⟨⟨b₁, new₁⟩, h₁, hacc⟩, h⟩ := h
    cases hacc
    obtain ⟨added, rfl, hrest⟩ := ih (fun i hi => hf i (by simp [hi])) h
    exact ⟨new₁ ++ added, by simp, (hf i (by simp) _ _ _ h₁).trans hrest⟩

theorem clock_append {entry : DecayAdjustment} :
    DecayBook.clock { b with adjustments := b.adjustments ++ [entry] } d =
      if entry.claimDigest = d then b.clock d ++ [entry.startBlock] else b.clock d := by
  by_cases h : entry.claimDigest = d <;> simp [DecayBook.clock, filter_append, h]

/-- An untouched clock may be held or started, and a held one may be started. -/
theorem ClockShape.snoc {l : List (Option ℕ)} (h : ClockShape l) (hnew : l.getLast? ≠ some start)
    (hopen : l.getLast?.join = none) : ClockShape (l ++ [start]) := by
  rcases h with rfl | rfl | ⟨b, rfl⟩ | ⟨b, rfl⟩
  · cases start with
    | none => exact .inr (.inl rfl)
    | some b => exact .inr (.inr (.inr ⟨b, rfl⟩))
  · cases start with
    | none => exact absurd rfl hnew
    | some b => exact .inr (.inr (.inl ⟨b, rfl⟩))
  · cases hopen
  · cases hopen

theorem recordStart_grows {source : Option DecaySource} {reason : String}
    (hsrc : ∀ s, source = some s → Warranted H s ⟨d, start, reason⟩)
    (h : recordStart H earning source d start reason b = .ok (b', new)) : Grows H b new b' := by
  simp only [recordStart, bind_ok, exists_check] at h
  obtain ⟨claims, -, claim, -, -, -, h⟩ := h
  by_cases hsame : (b.clock d).getLast? = some start
  · rw [if_pos hsame] at h
    cases h
    exact .refl
  · simp only [if_neg hsame, bind_ok, exists_check] at h
    obtain ⟨hopen, h⟩ := h
    cases h
    refine ⟨rfl, fun hshape d' => ?_, ?_, le_rfl⟩
    · rw [clock_append]
      by_cases hd : d = d'
      · subst hd
        rw [if_pos rfl]
        exact (hshape d).snoc hsame hopen
      · rw [if_neg hd]
        exact hshape d'
    · intro stamp hstamp
      cases mem_singleton.1 hstamp
      exact hsrc

/-- A projection lists no evidence of a claim that was crowned after its block. -/
def ListsPast (earning : Earning) (p : WeightProjection) : Prop :=
  ∀ claims, earning = .ok claims → ∀ claim ∈ claims,
    claim.retainedEvidenceDigest ∈ p.earningEvidence → claim.crownedBlock ≤ p.effectiveBlock

/-- The published block of a confirmation is not after its confirmed block. -/
theorem published_le (h : r.val.status = .confirmed) : r.published ≤ r.val.confirmedBlock := by
  have hchecks := r.property
  simp only [RecordFields.postInit, bind_ok, exists_check] at hchecks
  obtain ⟨-, -, -, hconf, -⟩ := hchecks
  unfold WeightPublicationRecord.published
  split_ifs
  · exact Nat.le_refl _
  · exact (hconf h).1

/-- Every start that a publication makes is warranted by it. -/
theorem confirmOne_grows {bp : DecayBook} {targets : List StandingRewardClaim}
    {claim : StandingRewardClaim} (hpast : ListsPast earning p)
    (htgts : confirmTargets H earning p r bp = .ok targets) (hclaim : claim ∈ targets)
    (h : confirmOne H earning p r claim b = .ok (b', new)) : Grows H b new b' := by
  simp only [confirmTargets, bind_ok, exists_check] at htgts
  obtain ⟨hproj, htgts⟩ := htgts
  split_ifs at htgts with hstale hnone
  · cases htgts
    cases hclaim
  · cases htgts
    cases hclaim
  · rw [not_or, not_not, not_lt] at hstale
    obtain ⟨hstat, heffective⟩ := hstale
    obtain ⟨claims, hearn, htgts⟩ := bind_ok.1 htgts
    cases htgts
    obtain ⟨hmem, hmatch⟩ := mem_filter.1 hclaim
    obtain ⟨-, hev, hpays⟩ := of_decide_eq_true hmatch
    simp only [confirmOne, hearn, bind_ok] at h
    obtain ⟨claims', hclaims', h⟩ := h
    cases hclaims'
    refine recordStart_grows ?_ h
    rintro s ⟨⟩
    have hcrown : claim.crownedBlock ≤ r.val.confirmedBlock :=
      Nat.le_trans (hpast claims hearn claim hmem hev)
        (Nat.le_trans heffective (published_le hstat))
    exact ⟨rfl, hstat, hproj, heffective, claim, hmem, rfl, hcrown, hpays, hev⟩

theorem confirmIn_grows (hpast : ListsPast earning p)
    (h : confirmIn H earning p r b = .ok (b', new)) : Grows H b new b' := by
  simp only [confirmIn, bind_ok] at h
  obtain ⟨targets, htgts, h⟩ := h
  obtain ⟨added, rfl, hgrows⟩ := Grows.foldlM (fun claim hclaim _ _ _ hone =>
    confirmOne_grows hpast htgts hclaim hone) h
  exact hgrows

/-! ### Reading the journal -/

/-- What a successful reading gives: the rows of the journal that the cursor has not passed. -/
theorem readRewardConfirmations_spec {path : String} {cursor : String × ℕ} {scope : JournalScope}
    {hotkey : Hotkey} {rows : List FollowedRow} {maximum : ℕ}
    {confirmations : List (WeightProjection × WeightPublicationRecord)}
    (h : readRewardConfirmations H path cursor scope hotkey rows = .ok (maximum, confirmations)) :
    cursor.1 = path ∧ maximum = (rows.map (·.sequence)).foldr max 0 ∧ cursor.2 ≤ maximum ∧
      (∀ c ∈ confirmations, ∃ row ∈ rows, row.offer.projection = c.1) ∧
      ((∀ row ∈ rows, row.sequence ≤ cursor.2) → confirmations = []) := by
  simp only [readRewardConfirmations, bind_ok, exists_check] at h
  obtain ⟨hpath, hle, confirmations', hall, h⟩ := h
  cases h
  refine ⟨hpath, rfl, hle, fun c hc => ?_, fun hpast => ?_⟩
  · obtain ⟨row, hrow, hok⟩ := exists_of_mapM hall hc
    rw [mem_insertionSort] at hrow
    obtain ⟨-, -, hok⟩ := bind_ok.1 hok
    cases hok
    exact ⟨row, (mem_filter.1 hrow).1, rfl⟩
  · have hnone :
        rows.filter (fun row => cursor.2 < row.sequence ∧ row.status = .confirmed) = [] := by
      refine filter_eq_nil_iff.2 fun row hrow => ?_
      have hseq := hpast row hrow
      simp only [decide_eq_true_eq, not_and]
      omega
    rw [hnone] at hall
    cases hall
    rfl

variable {c : ConfirmationSource}

/-- After a reconciliation no row of the journal is ahead of the cursor, and one over rows that the
cursor has passed changes nothing. -/
theorem reconcileIn_spec (h : reconcileIn H earning c b = .ok (b', new)) :
    b'.consumed = (c.rows.map (·.sequence)).foldr max 0 ∧
    (∀ cursor, b.cursor = some cursor → (∀ row ∈ c.rows, row.sequence ≤ cursor.2) → b' = b) ∧
    ((∀ row ∈ c.rows, ListsPast earning row.offer.projection) → Grows H b new b') := by
  simp only [reconcileIn, bind_ok] at h
  obtain ⟨⟨maximum, confirmations⟩, hread, ⟨b₁, new₁⟩, hfold, h⟩ := h
  cases h
  obtain ⟨hpath, rfl, hle, hrows, hnone⟩ := readRewardConfirmations_spec hread
  refine ⟨rfl, fun cursor hcursor hpast => ?_, fun hpast => ?_⟩
  · rw [hcursor, Option.getD_some] at hpath hle hnone
    rw [hnone hpast] at hfold
    cases hfold
    have hmax : (c.rows.map (·.sequence)).foldr max 0 = cursor.2 :=
      le_antisymm (max_le_of_forall_le _ _ (forall_mem_map.2 hpast)) hle
    rw [hmax, ← hpath, ← hcursor]
  · obtain ⟨added, rfl, hgrows⟩ := Grows.foldlM (H := H) (fun confirmation hmem _ _ _ hone => by
      obtain ⟨row, hrow, heq⟩ := hrows confirmation hmem
      exact confirmIn_grows (heq ▸ hpast row hrow) hone) hfold
    refine ⟨hgrows.adjustments, hgrows.shape, hgrows.warranted, ?_⟩
    rw [DecayBook.consumed]
    cases hcursor : b.cursor with
    | none => exact bot_le
    | some cursor =>
      rw [hcursor] at hle
      exact WithBot.coe_le_coe.2 hle

/-! ### Runs -/

/-- No projection of a call lists evidence of a claim that was crowned after its block. -/
def DecayCall.ListsPast : DecayCall → Prop
  | .hold _ _ => True
  | .record _ _ _ _ => True
  | .confirm earning p _ => Cacheon.ListsPast earning p
  | .reconcile earning c => ∀ row ∈ c.rows, Cacheon.ListsPast earning row.offer.projection

variable (H) in
/-- The clocks are well formed and warranted, and the book grew from a log and a cursor. -/
structure Clocks (earlier : List (List DecayStamp)) (n : WithBot ℕ)
    (w : World DecayBook (List DecayStamp)) : Prop where
  logged : w.state.adjustments = w.log.flatten.map (·.entry)
  shape : ∀ d, ClockShape (w.state.clock d)
  warranted : ∀ stamp ∈ w.log.flatten, ∀ s, stamp.source = some s → Warranted H s stamp.entry
  since : earlier <+: w.log
  consumed : n ≤ w.state.consumed

variable {earlier : List (List DecayStamp)} {n : WithBot ℕ} {block : ℕ}
    {w : World DecayBook (List DecayStamp)}

theorem effect_clocks {f : DecayBook → PublicationM (DecayBook × List DecayStamp)}
    (hf : ∀ b b' new, f b = .ok (b', new) → Grows H b new b') :
    Triple (Clocks H earlier n) (effect f) (fun _ => Clocks H earlier n) (Clocks H earlier n) := by
  refine .effect (fun w b' new m hw hok => ?_) fun _ hw => hw
  have hgrows := hf _ _ _ hok
  have hafter : Clocks H earlier n ⟨b', w.log ++ [new], m⟩ := by
    refine ⟨?_, hgrows.shape hw.shape, ?_, hw.since.trans (prefix_append _ _),
      le_trans hw.consumed hgrows.consumed⟩
    · show b'.adjustments = _
      rw [hgrows.adjustments, hw.logged]
      simp
    · rw [flatten_append, flatten_singleton]
      exact forall_mem_append.2 ⟨hw.warranted, hgrows.warranted⟩
  exact ⟨hafter, hafter⟩

/-- Every call keeps the clocks, wherever it stops. -/
theorem DecayCall.proc_clocks {call : DecayCall} (hpast : call.ListsPast) :
    Triple (Clocks H earlier n) (call.proc H) (fun _ => Clocks H earlier n)
      (Clocks H earlier n) := by
  have hrec {earning : Earning} {d : Digest} {start : Option ℕ} {reason : String} :
      Triple (Clocks H earlier n) (recordRewardDecayStart H earning d start reason)
        (fun _ => Clocks H earlier n) (Clocks H earlier n) := by
    refine effect_clocks fun _ _ _ h => recordStart_grows ?_ h
    rintro s ⟨⟩
  cases call with
  | hold claims earning =>
    exact .bind (Reads.read.triple fun _ hw => hw) fun _ =>
      .forM fun _ _ => hrec
  | record earning d start reason => exact hrec
  | confirm earning p r =>
    refine .bind (R := fun targets w => Clocks H earlier n w ∧
      ∃ bp, confirmTargets H earning p r bp = .ok targets)
      (.read (fun w targets hw hok => ⟨hw, w.state, hok⟩) fun _ hw => hw) fun targets => ?_
    refine .given fun ⟨bp, htgts⟩ => ?_
    exact .forM fun claim hclaim => effect_clocks fun _ _ _ h =>
      confirmOne_grows hpast htgts hclaim h
  | reconcile earning c => exact effect_clocks fun _ _ _ h => (reconcileIn_spec h).2.2 hpast

/-- A sequence of calls keeps the clocks. -/
theorem Clocks.run {calls : List (DecayCall × ℕ)} (hpast : ∀ call ∈ calls, call.1.ListsPast)
    (hw : Clocks H earlier n w) : Clocks H earlier n (runCalls (DecayCall.proc H) w calls) :=
  invariant_runCalls (fun _ _ h => ⟨h.logged, h.shape, h.warranted, h.since, h.consumed⟩)
    (fun call hcall => DecayCall.proc_clocks (hpast call hcall)) hw

theorem clocks_start {legacy : List Digest} : Clocks H [] ⊥ (decayStart legacy) :=
  ⟨rfl, fun _ => .inl rfl, forall_mem_nil _, nil_prefix, bot_le⟩

/-- Nothing follows a start in a clock. -/
theorem ClockShape.fixed {l rest : List (Option ℕ)} (h : ClockShape (l ++ rest))
    (hblk : some block ∈ l) : rest = [] := by
  rcases l with _ | ⟨x, _ | ⟨y, l⟩⟩
  · cases hblk
  · cases mem_singleton.1 hblk
    rcases h with h | h | ⟨b, h⟩ | ⟨b, h⟩ <;> simp_all
  · rcases h with h | h | ⟨b, h⟩ | ⟨b, h⟩ <;> simp_all

/-- A started clock stays as it is. -/
theorem Clocks.clock_eq {w' : World DecayBook (List DecayStamp)} (hw : Clocks H earlier n w)
    (hw' : Clocks H w.log n w') (hblk : some block ∈ w.state.clock d) :
    w'.state.clock d = w.state.clock d := by
  obtain ⟨added, hlog⟩ := hw'.since
  have hclock : w'.state.clock d = w.state.clock d ++
      ((added.flatten.map (·.entry)).filter (·.claimDigest = d)).map (·.startBlock) := by
    simp only [DecayBook.clock, hw'.logged, hw.logged, ← hlog, flatten_append,
      map_append, filter_append]
  have hshape := hw'.shape d
  rw [hclock] at hshape ⊢
  rw [hshape.fixed hblk, append_nil]

/-- A journal that was reconciled once is never consumed again. -/
theorem reconcile_again {earning' : Earning} {c' : ConfirmationSource} {m k : ℕ}
    {later : List (DecayCall × ℕ)} (hw : Clocks H earlier n w)
    (hpast : ∀ row ∈ c.rows, ListsPast earning row.offer.projection)
    (hlater : ∀ call ∈ later, call.1.ListsPast) (hok : (reconcileIn H earning c w.state).isOk)
    (hrows : c'.rows ⊆ c.rows) :
    let w' := runCalls (DecayCall.proc H) w ((.reconcile earning c, m) :: later)
    (call (DecayCall.proc H (.reconcile earning' c')) k w').state = w'.state := by
  intro w'
  obtain ⟨⟨b, new⟩, hreconcile⟩ := ok_of_isOk hok
  have hfirst : call (DecayCall.proc H (.reconcile earning c)) m w =
      ⟨b, w.log ++ [new], m - 1⟩ := call_effect_of_ok hreconcile
  have hconsumed : b.consumed ≤ w'.state.consumed := by
    have hafter : Clocks H [] b.consumed (call (DecayCall.proc H (.reconcile earning c)) m w) := by
      have hkept : Clocks H earlier n (call (DecayCall.proc H (.reconcile earning c)) m w) :=
        Triple.call (DecayCall.proc_clocks hpast)
          ⟨hw.logged, hw.shape, hw.warranted, hw.since, hw.consumed⟩
      refine ⟨hkept.logged, hkept.shape, hkept.warranted, nil_prefix, ?_⟩
      rw [hfirst]
    exact (hafter.run hlater).consumed
  rw [(reconcileIn_spec hreconcile).1] at hconsumed
  obtain ⟨cursor, hcursor, hpassed⟩ : ∃ cursor, w'.state.cursor = some cursor ∧
      (c.rows.map (·.sequence)).foldr max 0 ≤ cursor.2 := by
    cases hcursor : w'.state.cursor with
    | none =>
      rw [DecayBook.consumed, hcursor] at hconsumed
      exact absurd hconsumed (WithBot.not_coe_le_bot _)
    | some cursor =>
      rw [DecayBook.consumed, hcursor] at hconsumed
      exact ⟨cursor, rfl, WithBot.coe_le_coe.1 hconsumed⟩
  have hread : ∀ row ∈ c'.rows, row.sequence ≤ cursor.2 := fun row hrow =>
    Nat.le_trans (le_max_of_le (mem_map_of_mem (hrows hrow)) (Nat.le_refl _)) hpassed
  cases hagain : reconcileIn H earning' c' w'.state with
  | error err =>
    have hcall : call (DecayCall.proc H (.reconcile earning' c')) k w' =
      { w' with budget := k } := by
      simp [call, DecayCall.proc, reconcileFollowerRewardDecay, effect, hagain]
    rw [hcall]
  | ok result =>
    obtain ⟨b', new'⟩ := result
    have hcall : call (DecayCall.proc H (.reconcile earning' c')) k w' =
        ⟨b', w'.log ++ [new'], k - 1⟩ := call_effect_of_ok hagain
    rw [hcall]
    exact (reconcileIn_spec hagain).2.1 cursor hcursor hread

/-- **The reward clocks.**  After any calls, with crashes anywhere: every clock is untouched,
held, started after a hold or started at once; a started clock is never touched again; every
start that was taken from a publication is warranted by it; and to reconcile a journal that was
already consumed changes nothing. -/
theorem decay_clocks (H : DecayHashes) (legacy : List Digest) (calls later : List (DecayCall × ℕ))
    (hpast : ∀ call ∈ calls ++ later, call.1.ListsPast) :
    let w := runCalls (DecayCall.proc H) (decayStart legacy) calls
    let w' := runCalls (DecayCall.proc H) w later
    (∀ d, ClockShape (w.state.clock d)) ∧
    (∀ d block, some block ∈ w.state.clock d → w'.state.clock d = w.state.clock d) ∧
    (w.state.adjustments = w.log.flatten.map (·.entry) ∧
      ∀ stamp ∈ w.log.flatten, ∀ s, stamp.source = some s → Warranted H s stamp.entry) ∧
    ∀ earning c m rest, later = (.reconcile earning c, m) :: rest →
      (reconcileIn H earning c w.state).isOk → ∀ earning' c' k, c'.rows ⊆ c.rows →
      (call (DecayCall.proc H (.reconcile earning' c')) k w').state = w'.state := by
  intro w w'
  have hw : Clocks H [] ⊥ w := clocks_start.run fun call hcall => hpast call (by simp [hcall])
  have hlater : ∀ call ∈ later, call.1.ListsPast := fun call hcall => hpast call (by simp [hcall])
  have hw' : Clocks H w.log ⊥ w' := Clocks.run hlater
    ⟨hw.logged, hw.shape, hw.warranted, prefix_rfl, hw.consumed⟩
  refine ⟨hw.shape, fun d block hblk => hw.clock_eq hw' hblk, ⟨hw.logged, hw.warranted⟩, ?_⟩
  rintro earning c m rest rfl hok earning' c' k hrows
  have hrest : ∀ call ∈ rest, call.1.ListsPast := fun call hcall => hlater call (by simp [hcall])
  exact reconcile_again hw (hlater (.reconcile earning c, m) (by simp)) hrest hok hrows

namespace DecaySample

open FollowedSample

/-- A claim has the digest of its evidence. -/
def hashes : DecayHashes := { FollowedSample.hashes with claim := (·.retainedEvidenceDigest) }

/-- A PASS of block 5. -/
def claim : StandingRewardClaim where
  arenaDigest := .ofNat 1
  targetId := "attention"
  targetSpecDigest := .ofNat 2
  contributionDigest := .ofNat 3
  hotkey := "miner"
  speedupPpm := 1200000
  crownedBlock := 5
  retainedEvidenceDigest := .ofNat 7
  faster := by decide

/-- The journal with two vectors that pay it. -/
def source : ConfirmationSource := ⟨"follower.db", scope, "evaluator", journal.rows⟩

/-- Hold the PASS, then consume the journal and crash. -/
def calls : List (DecayCall × ℕ) :=
  [(.hold [claim] (.ok [claim]), 9), (.reconcile (.ok [claim]) source, 0)]

/-- Consume it again, and confirm the next vector. -/
def later : List (DecayCall × ℕ) :=
  [(.reconcile (.ok [claim]) source, 9), (.confirm (.ok [claim]) (projection 30) confirmedLater, 9)]

theorem decay_clocks_sample :
    let w := runCalls (DecayCall.proc hashes) (decayStart []) calls
    let w' := runCalls (DecayCall.proc hashes) w later
    (∀ call ∈ calls ++ later, call.1.ListsPast) ∧ w.state.clock (.ofNat 7) = [none, some 20] ∧
      w'.state.clock (.ofNat 7) = [none, some 20] ∧
      (call (DecayCall.proc hashes (.reconcile (.ok [claim]) source)) 9 w').state = w'.state := by
  intro w w'
  have hlists (block : ℕ) (hblk : 5 ≤ block) : ListsPast (.ok [claim]) (projection block) := by
    rintro claims ⟨⟩ c hc -
    cases mem_singleton.1 hc
    exact hblk
  have hsource : ∀ row ∈ source.rows, ListsPast (.ok [claim]) row.offer.projection := by
    have hrows : source.rows.map (·.offer.projection) = [projection 10, projection 30] := by decide
    refine forall_mem_map.1 (hrows ▸ ?_)
    exact forall_mem_cons.2 ⟨hlists 10 (by decide), forall_mem_singleton.2 (hlists 30 (by decide))⟩
  have hpast : ∀ call ∈ calls ++ later, call.1.ListsPast := by
    simp only [calls, later, cons_append, nil_append, forall_mem_cons]
    exact ⟨trivial, hsource, hsource, hlists 30 (by decide), forall_mem_nil _⟩
  have hclock : w.state.clock (.ofNat 7) = [none, some 20] := by decide
  obtain ⟨-, hfixed, -, hagain⟩ := decay_clocks hashes [] calls later hpast
  refine ⟨hpast, hclock, (hfixed (.ofNat 7) 20 (hclock ▸ by decide)).trans hclock, ?_⟩
  exact hagain _ _ _ _ rfl (by decide) _ _ _ (Subset.refl _)

end DecaySample

end Cacheon
