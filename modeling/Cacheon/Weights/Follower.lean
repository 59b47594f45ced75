import Cacheon.Weights.Offer

/-!
# The follower's publication journal

A follower signs offers that others computed.  Its journal retains every offer together with
the records about it, and refuses an offer that contradicts the ones before.

* `FollowedJournal.load` : reopen the head and walk back to the first record.
* `FollowedJournal.compareAndSwap` : append one record with the offer it is about.
* `FollowedJournal.Sound` : the records are one hash chain whose offers never contradict each
  other.
* `FollowedJournal.followed_sound` : every sequence of swaps, by any instances over one store,
  leaves a sound journal.
-/

namespace Cacheon

open Fallible PublicationFault List Table HashChain

/-- A row of `followed_weight_publications`. -/
structure FollowedRow where
  recordDigest : Digest
  sequence : ℕ
  projectionDigest : Digest
  offerDigest : Digest
  offer : CurrentWeightOffer
  record : WeightPublicationRecord
  status : PublicationStatus
deriving DecidableEq

/-- The chain scope a store is bound to. -/
structure JournalScope where
  digest : Digest
  netuid : ℕ
deriving DecidableEq

/-- The follower's tables: the retained rows, oldest first, and the head. -/
structure FollowedJournal where
  table : Table FollowedRow.recordDigest
  /-- The projection digest and the record digest of the head. -/
  head : Option (Digest × Digest)
deriving DecidableEq

/-- One call of `compare_and_swap`, on an instance opened with this offer. -/
structure FollowedSwap where
  offer : CurrentWeightOffer
  expected : Option Digest
  replacement : WeightPublicationRecord

variable (H : OfferHashes)

/-- Records are numbered and linked by their predecessors' digests. -/
def FollowedRow.links : HashChain.Links FollowedRow Digest where
  sequence := sequence
  previous row := row.record.val.priorRecordDigest
  hash row := H.record row.record

namespace FollowedJournal

/-- The journal of a new database. -/
def empty : FollowedJournal := ⟨Table.empty, none⟩

variable (j : FollowedJournal)

/-- The retained rows, oldest first. -/
abbrev rows : List FollowedRow := j.table.rows

/-- The last row about a projection. -/
def lastAbout (projectionDigest : Digest) : Option FollowedRow :=
  (j.rows.filter (·.projectionDigest = projectionDigest)).getLast?

/-- The next free sequence number. -/
def nextSequence : ℕ := (j.rows.map (·.sequence)).foldr max 0 + 1

/-- An instance is opened with an offer for the store's own chain. -/
def checkScope (scope : JournalScope) (offer : CurrentWeightOffer) : PublicationM Unit :=
  check (offer.projection.chainScopeDigest = scope.digest ∧ offer.projection.netuid = scope.netuid)
    (intake "followed weight offer differs from the journal scope")

/-- What a walk along the predecessors raises. -/
def walkError : HashChain.WalkFault → PublicationFault
  | .cycle => intake "followed weight publication journal contains a cycle"
  | .missing => intake "followed weight publication predecessor is missing"
  | .differs => intake "followed weight publication predecessor digest differs"

/-- Reopen the head and visit its predecessors: the head's record, with the digests visited. -/
def reopen : PublicationM (Option (WeightPublicationRecord × List Digest)) :=
  match j.head with
  | none => .ok none
  | some head => do
    let row ← get (intake "followed weight publication head has no retained record")
      (j.table.find? head.2)
    check (H.record row.record = head.2 ∧ row.record.val.projectionDigest = head.1 ∧
        row.projectionDigest = head.1 ∧ H.projection row.offer.projection = head.1 ∧
        H.offer row.offer = row.offerDigest)
      (intake "followed weight publication head differs from retained authority")
    let seen ← (HashChain.walk (FollowedRow.links H) j.table.find? (j.rows.length + 1) []
      row).mapError walkError
    .ok (some (row.record, seen))

/-- The record of the head. -/
def load : PublicationM JournalHead := do
  let head ← j.reopen H
  .ok (head.map (·.1))

/-- An offer may replace the one before only on the same chain, for the same signer, and not
for an earlier block. -/
def requireMonotonicOffer (current proposed : CurrentWeightOffer) :
    PublicationM Unit := do
  check (proposed.projection.chainScopeDigest = current.projection.chainScopeDigest ∧
      proposed.projection.netuid = current.projection.netuid)
    (intake "followed weight offer changed chain scope")
  check (proposed.projection.validatorHotkey = current.projection.validatorHotkey)
    (intake "followed weight offer changed signer authority")
  check (current.effectiveBlock ≤ proposed.effectiveBlock)
    (intake "followed weight offer effective block regressed")
  check (proposed.effectiveBlock = current.effectiveBlock → H.offer proposed = H.offer current)
    (intake "followed weight offer conflicts at the retained effective block")
  check (current.lane ≠ .legacyV1 → proposed.lane ≠ .legacyV1)
    (intake "followed weight offer lane regressed to legacy V1")

/-- The offer a replacement is stored with: the instance's own, if it does not contradict the
one retained with the same projection, or else the retained one. -/
def offerFor (own : CurrentWeightOffer)
    (replacement : WeightPublicationRecord) : PublicationM CurrentWeightOffer :=
  let previous := j.lastAbout replacement.val.projectionDigest
  if replacement.val.projectionDigest = H.projection own.projection then do
    check (∀ row, previous = some row → H.offer row.offer = row.offerDigest ∧ row.offer = own)
      (intake "one followed projection has conflicting retained offers")
    .ok own
  else do
    let row ← get (intake "followed publication record has no retained offer") previous
    check (H.offer row.offer = row.offerDigest)
      (intake "retained followed weight offer digest differs")
    .ok row.offer

/-- A new offer must follow the head's. -/
def checkSuccession (offer : CurrentWeightOffer) : PublicationM Unit :=
  match j.head with
  | none => .ok ()
  | some head =>
    if H.projection offer.projection = head.1 then .ok ()
    else do
      let current ← get (intake "followed weight publication head has no retained offer")
        (j.table.find? head.2)
      check (H.offer current.offer = current.offerDigest)
        (intake "retained followed weight offer digest differs")
      requireMonotonicOffer H current.offer offer

/-- Append `replacement` when the head is the expected record, in one transaction. -/
def compareAndSwap (own : CurrentWeightOffer) (expected : Option Digest)
    (replacement : WeightPublicationRecord) (j : FollowedJournal) :
    PublicationM FollowedJournal := do
  check (replacement.val.priorRecordDigest = expected)
    (intake "followed weight publication replacement does not bind the CAS head")
  check (j.head.map (·.2) = expected)
    (intake "followed weight publication journal compare-and-swap failed")
  let offer ← j.offerFor H own replacement
  j.checkSuccession H offer
  let table ← get (other "IntegrityError") (j.table.insert
    { recordDigest := H.record replacement
      sequence := j.nextSequence
      projectionDigest := replacement.val.projectionDigest
      offerDigest := H.offer offer
      offer := offer
      record := replacement
      status := replacement.val.status })
  .ok ⟨table, some (replacement.val.projectionDigest, H.record replacement)⟩

/-- The projection that is retained under a digest. -/
def retainedProjection (d : Digest) (j : FollowedJournal) :
    PublicationM WeightProjection := do
  let row ← get (intake "followed weight projection is not retained") (j.lastAbout d)
  check (H.offer row.offer = row.offerDigest ∧ H.projection row.offer.projection = d)
    (intake "retained followed weight projection digest differs")
  .ok row.offer.projection

/-- Open an instance and swap. -/
def swap (scope : JournalScope) (call : FollowedSwap) (j : FollowedJournal) :
    PublicationM FollowedJournal := do
  checkScope scope call.offer
  j.compareAndSwap H call.offer call.expected call.replacement

/-- The journal after a sequence of calls. -/
def run (scope : JournalScope) (calls : List FollowedSwap) : FollowedJournal :=
  attempts (swap H scope) empty calls

/-! ### Offers that follow one another -/

/-- The offer `b` does not contradict an earlier offer `a`: it is for the same chain and signer,
not for an earlier block, and for the same block only if it is the same offer. -/
structure Follows (a b : CurrentWeightOffer) : Prop where
  scope : b.projection.chainScopeDigest = a.projection.chainScopeDigest
  netuid : b.projection.netuid = a.projection.netuid
  signer : b.projection.validatorHotkey = a.projection.validatorHotkey
  block : a.effectiveBlock ≤ b.effectiveBlock
  agrees : a.effectiveBlock = b.effectiveBlock → H.offer a = H.offer b

/-- The columns of a row are those of its record and of its offer. -/
structure Faithful (row : FollowedRow) : Prop where
  record : row.recordDigest = H.record row.record
  about : row.projectionDigest = row.record.val.projectionDigest
  projection : row.projectionDigest = H.projection row.offer.projection
  offer : row.offerDigest = H.offer row.offer
  status : row.status = row.record.val.status

/-- The records are one hash chain that ends in the head, and their offers follow one
another. -/
structure Sound (j : FollowedJournal) : Prop where
  chained : HashChain.Chained (FollowedRow.links H) 1 none j.rows
  head : j.head = j.rows.getLast?.map fun row => (row.projectionDigest, row.recordDigest)
  faithful : ∀ row ∈ j.rows, Faithful H row
  follows : j.rows.Pairwise fun a b => Follows H a.offer b.offer
  unique : ∀ a ∈ j.rows, ∀ b ∈ j.rows, a.projectionDigest = b.projectionDigest → a.offer = b.offer

variable {H} {j j' : FollowedJournal} {own offer : CurrentWeightOffer}
  {r : WeightPublicationRecord} {d : Digest} {row : FollowedRow}

theorem Follows.refl (a : CurrentWeightOffer) : Follows H a a :=
  ⟨rfl, rfl, rfl, Nat.le_refl _, fun _ => rfl⟩

theorem Follows.trans {a b c : CurrentWeightOffer} (hab : Follows H a b) (hbc : Follows H b c) :
    Follows H a c := by
  refine ⟨hbc.scope.trans hab.scope, hbc.netuid.trans hab.netuid, hbc.signer.trans hab.signer,
    Nat.le_trans hab.block hbc.block, fun hac => ?_⟩
  -- the block between is squeezed, so both steps are at one block
  have hle := hab.block
  have hle' := hbc.block
  have hfirst : a.effectiveBlock = b.effectiveBlock := by omega
  have hsecond : b.effectiveBlock = c.effectiveBlock := by omega
  exact (hab.agrees hfirst).trans (hbc.agrees hsecond)

theorem requireMonotonicOffer_spec {a b : CurrentWeightOffer}
    (h : requireMonotonicOffer H a b = .ok ()) : Follows H a b := by
  simp only [requireMonotonicOffer, bind_ok, exists_check] at h
  obtain ⟨⟨hscope, hnetuid⟩, hsgn, hblk, hagrees, -⟩ := h
  exact ⟨hscope, hnetuid, hsgn, hblk, fun heq => (hagrees heq.symm).symm⟩

/-! ### One swap -/

theorem lastAbout_eq_some (h : j.lastAbout d = some row) :
    row ∈ j.rows ∧ row.projectionDigest = d := by
  simpa using mem_of_getLast? h

/-- A retained projection is the one of a retained offer. -/
theorem retainedProjection_mem {p : WeightProjection} (h : j.retainedProjection H d = .ok p) :
    ∃ row ∈ j.rows, row.offer.projection = p := by
  simp only [retainedProjection, bind_ok, check_ok, get_ok, exists_const] at h
  obtain ⟨row, hrow, -, h⟩ := h
  cases h
  exact ⟨row, (lastAbout_eq_some hrow).1, rfl⟩

/-- What an accepted swap does: it appends the record with the instance's offer, or with one that is
retained already, and moves the head to it. -/
structure Appends (own : CurrentWeightOffer) (r : WeightPublicationRecord) (j : FollowedJournal)
    (row : FollowedRow) (j' : FollowedJournal) : Prop where
  rows : j'.rows = j.rows ++ [row]
  record : row.record = r
  offer : row.offer = own ∨ ∃ row₀ ∈ j.rows, row.offer = row₀.offer
  head : j'.head = some (row.projectionDigest, row.recordDigest)

theorem appends_of_compareAndSwap {expected : Option Digest}
    (h : j.compareAndSwap H own expected r = .ok j') : ∃ row, Appends own r j row j' := by
  simp only [compareAndSwap, bind_ok, check_ok, get_ok, exists_const] at h
  obtain ⟨-, -, offer, hoffer, -, -, table, htable, h⟩ := h
  cases h
  refine ⟨_, (rows_of_insert htable).1, rfl, ?_, rfl⟩
  unfold offerFor at hoffer
  by_cases hown : r.val.projectionDigest = H.projection own.projection
  · simp only [if_pos hown, bind_ok, exists_check] at hoffer
    obtain ⟨-, hoffer⟩ := hoffer
    cases hoffer
    exact .inl rfl
  · simp only [if_neg hown, bind_ok, check_ok, get_ok, exists_const] at hoffer
    obtain ⟨last, hlast, -, hoffer⟩ := hoffer
    cases hoffer
    exact .inr ⟨last, (lastAbout_eq_some hlast).1, rfl⟩

theorem mem_of_compareAndSwap {expected : Option Digest}
    (h : j.compareAndSwap H own expected r = .ok j') (hrow : row ∈ j'.rows) :
    row.offer = own ∨ ∃ row₀ ∈ j.rows, row.offer = row₀.offer := by
  obtain ⟨row', happends⟩ := appends_of_compareAndSwap h
  rw [happends.rows] at hrow
  rcases mem_append.1 hrow with hold | hnew
  · exact .inr ⟨row, hold, rfl⟩
  · cases mem_singleton.1 hnew
    exact happends.offer

/-- The chosen offer is the one of every row about its projection. -/
theorem Sound.offerFor (hj : j.Sound H) (h : j.offerFor H own r = .ok offer) :
    r.val.projectionDigest = H.projection offer.projection ∧
      ∀ row ∈ j.rows, row.projectionDigest = r.val.projectionDigest → row.offer = offer := by
  unfold FollowedJournal.offerFor at h
  by_cases hown : r.val.projectionDigest = H.projection own.projection
  · simp only [if_pos hown, bind_ok, exists_check] at h
    obtain ⟨hprev, h⟩ := h
    cases h
    refine ⟨hown, fun row hrow hdig => ?_⟩
    cases hlast : j.lastAbout r.val.projectionDigest with
    | none =>
      have hempty := getLast?_eq_none_iff.1 hlast
      exact absurd hdig (by simpa using filter_eq_nil_iff.1 hempty row hrow)
    | some last =>
      obtain ⟨hmem, habout⟩ := lastAbout_eq_some hlast
      rw [hj.unique row hrow last hmem (hdig.trans habout.symm)]
      exact (hprev last hlast).2
  · simp only [if_neg hown, bind_ok, check_ok, get_ok, exists_const] at h
    obtain ⟨last, hlast, -, h⟩ := h
    cases h
    obtain ⟨hmem, habout⟩ := lastAbout_eq_some hlast
    refine ⟨habout.symm.trans (hj.faithful last hmem).projection, fun row hrow hdig => ?_⟩
    exact hj.unique row hrow last hmem (hdig.trans habout.symm)

section

variable (huniq : ∀ row ∈ j.rows,
  row.projectionDigest = H.projection offer.projection → row.offer = offer)

include huniq

/-- The offer of the last row is followed. -/
theorem Sound.succession (hj : j.Sound H) (h : j.checkSuccession H offer = .ok ())
    {last : FollowedRow} (hlast : j.rows.getLast? = some last) : Follows H last.offer offer := by
  have hmem : last ∈ j.rows := mem_of_getLast? hlast
  have hhead := hj.head
  rw [hlast] at hhead
  simp only [checkSuccession, hhead, Option.map_some] at h
  by_cases hsame : H.projection offer.projection = last.projectionDigest
  · rw [huniq last hmem hsame.symm]
    exact Follows.refl offer
  · simp only [if_neg hsame, bind_ok, check_ok, get_ok, exists_const,
      find?_of_mem hmem, Option.some.injEq] at h
    obtain ⟨cur, rfl, -, h⟩ := h
    exact requireMonotonicOffer_spec h

/-- The offers of all rows are followed. -/
theorem Sound.follows_all (hj : j.Sound H) (h : j.checkSuccession H offer = .ok ()) :
    ∀ row ∈ j.rows, Follows H row.offer offer := by
  intro row hrow
  rcases eq_nil_or_concat' j.rows with hnil | ⟨l, last, hrows⟩
  · rw [hnil] at hrow
    cases hrow
  · have hlast := hj.succession huniq h (by rw [hrows, getLast?_concat])
    have hpairs := hj.follows
    rw [hrows] at hrow hpairs
    rcases mem_append.1 hrow with hrow | hrow
    · exact ((pairwise_append.1 hpairs).2.2 row hrow last (by simp)).trans hlast
    · cases mem_singleton.1 hrow
      exact hlast

end

/-- The next record links to the head. -/
theorem Sound.tip (hj : j.Sound H) : tip (FollowedRow.links H) none j.rows = j.head.map (·.2) := by
  rw [hj.head]
  rcases eq_nil_or_concat' j.rows with hnil | ⟨l, last, hl⟩
  · rw [hnil]
    rfl
  · have hlast := hj.faithful last (by rw [hl]; simp)
    rw [hl, tip_snoc, getLast?_concat]
    exact congrArg some hlast.record.symm

theorem sound_empty : empty.Sound H := ⟨trivial, rfl, forall_mem_nil _, .nil, forall_mem_nil _⟩

/-- An accepted swap appends one record to a sound journal. -/
theorem Sound.swap {scope : JournalScope} {call : FollowedSwap} (hj : j.Sound H)
    (h : j.swap H scope call = .ok j') : j'.Sound H := by
  simp only [FollowedJournal.swap, compareAndSwap, bind_ok, check_ok, get_ok, exists_const] at h
  obtain ⟨_, -, hprior, hhead, offer, hoffer, ⟨⟩, hsuccession, table, htable, h⟩ := h
  cases h
  obtain ⟨hrows, -⟩ := rows_of_insert htable
  obtain ⟨hproj, huniq⟩ := hj.offerFor hoffer
  have hfollows := hj.follows_all
    (fun row hrow hdig => huniq row hrow (hdig.trans hproj.symm)) hsuccession
  refine ⟨?_, ?_, ?_, ?_, ?_⟩ <;> simp only [rows, hrows]
  · refine chained_append.2 ⟨hj.chained, ?_, ?_, trivial⟩
    · exact hj.chained.next_sequence
    · show call.replacement.val.priorRecordDigest = _
      rw [hprior, ← hhead]
      exact hj.tip.symm
  · rw [getLast?_concat]
    rfl
  · exact forall_mem_append.2 ⟨hj.faithful,
      forall_mem_singleton.2 ⟨rfl, rfl, hproj, rfl, rfl⟩⟩
  · refine pairwise_append.2 ⟨hj.follows, pairwise_singleton _ _, fun a ha b hb => ?_⟩
    cases mem_singleton.1 hb
    exact hfollows a ha
  · simp only [forall_mem_append, forall_mem_singleton]
    exact ⟨fun a ha => ⟨hj.unique a ha, huniq a ha⟩,
      fun b hb hab => (huniq b hb hab.symm).symm, fun _ => trivial⟩

/-! ### Reopening -/

/-- A sound journal reopens: the walk from the head visits every record, and no record twice. -/
theorem Sound.reopen (hj : j.Sound H) : j.reopen H =
      .ok (j.rows.getLast?.map fun row => (row.record, j.rows.map (·.recordDigest))) := by
  have hkeys : j.rows.map (·.recordDigest) = j.rows.map (FollowedRow.links H).hash :=
    map_congr_left fun row hrow => (hj.faithful row hrow).record
  unfold FollowedJournal.reopen
  rw [hj.head]
  rcases eq_nil_or_concat' j.rows with hnil | ⟨l, last, hl⟩
  · rw [hnil]
    rfl
  · have hmem : last ∈ j.rows := by rw [hl]; simp
    have hlast := hj.faithful last hmem
    have hlook : ∀ row ∈ l, j.table.find? ((FollowedRow.links H).hash row) = some row := by
      intro row hrow
      have hrow' : row ∈ j.rows := by rw [hl]; exact mem_append_left _ hrow
      have hkey : (FollowedRow.links H).hash row = row.recordDigest :=
        (hj.faithful row hrow').record.symm
      rw [hkey]
      exact find?_of_mem hrow'
    have hwalk : HashChain.walk (FollowedRow.links H) j.table.find? (j.rows.length + 1) [] last =
        .ok (j.rows.map (·.recordDigest)) := by
      have hnodup : (j.rows.map (·.recordDigest)).Nodup := j.table.distinct
      have hchained := hj.chained
      rw [hkeys, hl] at hnodup ⊢
      rw [hl] at hchained
      rw [← append_nil ((l ++ [last]).map (FollowedRow.links H).hash)] at hnodup ⊢
      exact walk_of_chained hchained hlook hnodup
        (by simp only [length_append, length_singleton]; omega)
    have hgetLast : j.rows.getLast? = some last := by rw [hl, getLast?_concat]
    rw [hgetLast]
    simp only [Option.map_some, find?_of_mem hmem]
    refine bind_ok.2 ⟨last, rfl, bind_ok.2 ⟨(), check_of ?_,
      bind_ok.2 ⟨_, mapError_ok.2 hwalk, rfl⟩⟩⟩
    exact ⟨hlast.record.symm, hlast.about.symm, rfl, hlast.projection.symm, hlast.offer.symm⟩

/-- **One chain, no contradiction.**  After any sequence of swaps by any instances over one
store, the records form one hash chain that reopens from the head, visiting every record once,
and the retained offers follow one another; and the next swap that is accepted appends its
record and moves the head. -/
theorem followed_sound (H : OfferHashes) (scope : JournalScope) (calls : List FollowedSwap) :
    let j := run H scope calls
    j.Sound H ∧ j.load H = .ok (j.rows.getLast?.map (·.record)) ∧ j.reopen H =
        .ok (j.rows.getLast?.map fun row => (row.record, j.rows.map (·.recordDigest))) ∧
      (j.rows.map (·.recordDigest)).Nodup ∧
      ∀ call j', j.swap H scope call = .ok j' →
        ∃ row, Appends call.offer call.replacement j row j' := by
  intro j
  have hsound : j.Sound H := attempts_invariant (fun _ _ _ hj h => hj.swap h) sound_empty calls
  refine ⟨hsound, ?_, hsound.reopen, j.table.distinct, fun call j' h => ?_⟩
  · refine bind_ok.2 ⟨_, hsound.reopen, ?_⟩
    rw [Option.map_map]
    rfl
  · simp only [FollowedJournal.swap, bind_ok] at h
    obtain ⟨-, -, h⟩ := h
    exact appends_of_compareAndSwap h

end FollowedJournal

namespace FollowedSample

/-- Digests of a small history. -/
def hashes : OfferHashes where
  projection p := .ofNat p.effectiveBlock
  record r := .ofNat r.val.confirmedBlock
  membership m := .ofNat m.block
  offer o := .ofNat o.effectiveBlock

/-- A vector that pays the evidence 7. -/
def projection (block : ℕ) : WeightProjection :=
  { sampleProjection block with crownCount := 1, evidenceDigests := [.ofNat 7] }

/-- The confirmation of the vector of block 10. -/
def confirmed : WeightPublicationRecord :=
  ⟨{ projectionDigest := .ofNat 10, status := .confirmed, confirmedBlock := 20,
     confirmedLastUpdate := 15 }, by decide⟩

/-- The confirmation of the vector of block 30. -/
def confirmedLater : WeightPublicationRecord :=
  ⟨{ projectionDigest := .ofNat 30, status := .confirmed, priorRecordDigest := some (.ofNat 20),
     confirmedBlock := 40, confirmedLastUpdate := 35 }, by decide⟩

def scope : JournalScope := ⟨.ofNat 1, 1⟩

/-- Both are journaled; a call that expects another head in between is refused. -/
def journal : FollowedJournal := .run hashes scope
  [⟨⟨.legacyV1, projection 10⟩, none, confirmed⟩, ⟨⟨.legacyV1, projection 10⟩, none, confirmed⟩,
    ⟨⟨.legacyV1, projection 30⟩, some (.ofNat 20), confirmedLater⟩]

example : journal.rows.map (fun row => (row.sequence, row.record)) =
    [(1, confirmed), (2, confirmedLater)] ∧ journal.load hashes = .ok (some confirmedLater) := by
  decide

end FollowedSample

end Cacheon
