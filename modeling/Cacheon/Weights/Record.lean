import Cacheon.Identity
import Cacheon.Lib.Fallible

/-!
# The weight publication journal

One control-plane signer publishes the validator's weight vector.  Before it signs and after
every reading it appends a record to a compare-and-swap journal, kept in the store's own
database: the journal's head is the last record appended.

* `WeightPublicationRecord` : an immutable journal record, with its bounds.
* `Journal.load` : reopen the head and verify its chain of predecessors.
* `Journal.compareAndSwap` : append one record, provided the head is the expected one.
* `Journal.headRecord` : the record the head names, which `load` returns when it succeeds
  (`headRecord_of_load`) and which a swap replaces (`headRecord_of_swap`).
-/

namespace Cacheon

/-- A hash as the store of evidence reads it: a digest, or the 64 zeros, which are none. -/
abbrev Sha256 := Option Digest

/-- Where a piece of evidence is kept, by content. -/
structure EvidenceArtifactRef where
  domain : String
  sha256 : Sha256
  size : ℕ
  mediaType : String
  schema : String
deriving DecidableEq

/-- The exact weight vector a signer may publish, with the state it was projected from. -/
structure WeightProjection where
  chainScopeDigest : Digest
  netuid : ℕ
  validatorHotkey : Hotkey
  policyDigest : Digest
  settlementStateDigest : Digest
  evaluationStateDigest : Digest
  metagraphDigest : Digest
  arenaStateDigests : List Digest
  stackGeneration : ℕ
  effectiveBlock : ℕ
  crownCount : ℕ
  evidenceDigests : List Digest
  weightsPpm : List (Hotkey × ℕ)
  allocationEvidence : Option EvidenceArtifactRef
  rewardedEvidenceDigests : Option (List Digest)
deriving DecidableEq

/-- What the publication code raises. -/
inductive PublicationFault where
  /-- `WeightPublicationError`. -/
  | publication (text : String)
  /-- `StaleWeightProjectionError`. -/
  | staleProjection (text : String)
  /-- `ChainWeightStateError` and its retryable subclass. -/
  | chainState (text : String)
  /-- `IntakeError`, raised by the journal. -/
  | intake (text : String)
  /-- Any other exception of a reading or of the database. -/
  | other (text : String)
deriving DecidableEq

open PublicationFault Fallible

abbrev PublicationM := Except PublicationFault

/-! ### Records -/

/-- The status of a publication record. -/
inductive PublicationStatus where
  | intent
  | pending
  | held
  | confirmed
  | released
deriving DecidableEq

/-- An attempt in this status may still reach the chain. -/
def PublicationStatus.Unresolved (s : PublicationStatus) : Prop :=
  s = .intent ∨ s = .pending ∨ s = .held

/-- No attempt of a record in this status is outstanding. -/
def PublicationStatus.Resolved (s : PublicationStatus) : Prop := s = .confirmed ∨ s = .released

instance : DecidablePred PublicationStatus.Unresolved :=
  fun s => inferInstanceAs (Decidable (s = .intent ∨ s = .pending ∨ s = .held))

instance : DecidablePred PublicationStatus.Resolved :=
  fun s => inferInstanceAs (Decidable (s = .confirmed ∨ s = .released))

theorem PublicationStatus.not_unresolved_iff {s : PublicationStatus} :
    ¬ s.Unresolved ↔ s.Resolved := by
  cases s <;> decide

/-- The fields of a journal record, before they are checked. -/
structure RecordFields where
  projectionDigest : Digest
  status : PublicationStatus
  /-- The record that was the head before. -/
  priorRecordDigest : Option Digest := none
  /-- The block the vector was signed at. -/
  submitBlock : ℕ := 0
  /-- The block until which a reading may still confirm. -/
  retryAfterBlock : ℕ := 0
  revealRound : ℕ := 0
  confirmedBlock : ℕ := 0
  confirmedLastUpdate : ℕ := 0
  reason : String := ""
deriving DecidableEq

/-- The checks a record passes when it is built. -/
def RecordFields.postInit (r : RecordFields) : PublicationM Unit := do
  check (r.reason.length ≤ 2048 ∧ isPlainText r.reason)
    (publication "publication reason is malformed")
  check (r.status = .intent ∨ r.status = .pending →
      0 < r.submitBlock ∧ r.submitBlock ≤ r.retryAfterBlock)
    (publication "in-flight publication bounds are malformed")
  check (r.status = .held → r.submitBlock = 0 ∧ r.retryAfterBlock = 0 ∨
        0 < r.submitBlock ∧ r.submitBlock ≤ r.retryAfterBlock)
    (publication "held publication bounds are malformed")
  check (r.status = .confirmed →
      r.confirmedLastUpdate ≤ r.confirmedBlock ∧ r.submitBlock ≤ r.confirmedBlock ∧
        (0 < r.submitBlock → r.reason ≠ "block_inclusion" → r.submitBlock ≤ r.confirmedLastUpdate))
    (publication "confirmation chronology is malformed")
  check (r.status = .released → r.reason ≠ "")
    (publication "publication release requires an audit reason")

/-- One immutable record of the publication journal. -/
def WeightPublicationRecord : Type := {r : RecordFields // r.postInit = .ok ()}
deriving DecidableEq

/-- The newest record of a journal. -/
abbrev JournalHead := Option WeightPublicationRecord

namespace WeightPublicationRecord

instance : CoeOut WeightPublicationRecord RecordFields := ⟨Subtype.val⟩

/-- Build a record, or raise what its checks raise. -/
def ofFields (r : RecordFields) : PublicationM WeightPublicationRecord :=
  match h : r.postInit with
  | .ok () => .ok ⟨r, h⟩
  | .error err => .error err

theorem val_of_ofFields {f : RecordFields} {r : WeightPublicationRecord}
    (h : ofFields f = .ok r) : r.val = f := by
  unfold ofFields at h
  split at h
  · cases h; rfl
  · cases h

end WeightPublicationRecord

/-! ### The journal -/

/-- The canonical metagraph membership a projection is bound to. -/
structure MetagraphMembership where
  block : ℕ
  /-- The block's hash, in lower case. -/
  blockHash : String
  chainScopeDigest : Digest
  /-- The accounts by UID, in order. -/
  members : List (ℕ × Hotkey)
deriving DecidableEq

/-- The digests the publication code computes. -/
structure PublicationHashes where
  projection : WeightProjection → Digest
  record : WeightPublicationRecord → Digest
  membership : MetagraphMembership → Digest

/-- A row of `weight_publications`.  Rows are kept in the order of their sequence numbers. -/
structure PublicationRow where
  /-- The record's digest, the primary key. -/
  recordDigest : Digest
  projection : WeightProjection
  record : WeightPublicationRecord
deriving DecidableEq

/-- The publication tables: the retained rows and the head. -/
structure Journal where
  /-- The rows, oldest first. -/
  rows : List PublicationRow
  /-- The projection digest and the record digest of the head. -/
  head : Option (Digest × Digest)
deriving DecidableEq

namespace Journal

/-- The journal of a new database. -/
def empty : Journal := ⟨[], none⟩

/-- The row of a record digest. -/
def find? (j : Journal) (d : Digest) : Option PublicationRow := j.rows.find? (·.recordDigest = d)

/-- The record the head names. -/
def headRecord (j : Journal) : JournalHead :=
  j.head.bind fun head => (j.find? head.2).map (·.record)

variable (H : PublicationHashes)

/-- Follow the predecessors of a record to the first one. -/
def verifyPredecessors (j : Journal) : ℕ → List Digest → WeightPublicationRecord → PublicationM Unit
  | 0, _, _ => .error (intake "weight publication journal contains a cycle")
  | fuel + 1, seen, current => do
    check (H.record current ∉ seen) (intake "weight publication journal contains a cycle")
    match current.val.priorRecordDigest with
    | none => .ok ()
    | some prior =>
      let predecessor ← get (intake "weight publication predecessor is missing") (j.find? prior)
      check (H.record predecessor.record = prior)
        (intake "weight publication predecessor digest differs")
      j.verifyPredecessors fuel (H.record current :: seen) predecessor.record

/-- Reopen the head.  Every visited predecessor is a different row, so the walk ends within
one step more than there are rows. -/
def load (j : Journal) : PublicationM JournalHead :=
  match j.head with
  | none => .ok none
  | some head => do
    let row ← get (intake "weight publication head has no retained record") (j.find? head.2)
    check (H.record row.record = head.2 ∧ row.record.val.projectionDigest = head.1)
      (intake "weight publication head differs from retained record")
    j.verifyPredecessors H (j.rows.length + 1) [] row.record
    .ok (some row.record)

/-- The projection a replacement is stored with: the journal's own, or the one retained with
the last record about the same projection. -/
def projectionFor (j : Journal) (own : WeightProjection) (replacement : WeightPublicationRecord) :
    PublicationM WeightProjection :=
  if replacement.val.projectionDigest = H.projection own then .ok own
  else match (j.rows.filter
      (·.record.val.projectionDigest = replacement.val.projectionDigest)).getLast? with
    | some row => .ok row.projection
    | none => .error (intake "publication record has no retained projection")

/-- Append `replacement` when the head is the expected record.  One database transaction:
starting the reward clocks of the confirmed claims, `confirmRewardDecay`, is part of it and
may refuse the whole swap. -/
def compareAndSwap (own : WeightProjection) (confirmRewardDecay :
      WeightProjection → WeightPublicationRecord → PublicationM Unit)
    (expected : Option Digest) (replacement : WeightPublicationRecord) (j : Journal) :
    PublicationM Journal := do
  check (replacement.val.priorRecordDigest = expected)
    (intake "weight publication replacement does not bind the CAS head")
  check (j.head.map (·.2) = expected) (intake "weight publication journal compare-and-swap failed")
  let projection ← j.projectionFor H own replacement
  -- the primary key of the table
  check (j.find? (H.record replacement) = none) (other "IntegrityError")
  check (H.projection projection = replacement.val.projectionDigest)
    (intake "decay confirmation differs from its retained projection")
  confirmRewardDecay projection replacement
  .ok ⟨j.rows ++ [⟨H.record replacement, projection, replacement⟩],
    some (replacement.val.projectionDigest, H.record replacement)⟩

variable {H} {j j' : Journal}

theorem headRecord_of_load {r : JournalHead} (h : j.load H = .ok r) : j.headRecord = r := by
  unfold load at h
  unfold headRecord
  cases hh : j.head with
  | none =>
    rw [hh] at h
    cases h
    rfl
  | some head =>
    rw [hh] at h
    simp only [bind_ok, get_ok] at h
    obtain ⟨row, hrow, -, -, -, -, h⟩ := h
    cases h
    simp [hrow]

theorem headRecord_of_swap {own : WeightProjection}
    {decay : WeightProjection → WeightPublicationRecord → PublicationM Unit}
    {expected : Option Digest} {r : WeightPublicationRecord}
    (h : j.compareAndSwap H own decay expected r = .ok j') : j'.headRecord = some r := by
  simp only [compareAndSwap, bind_ok, check_ok] at h
  obtain ⟨-, -, -, -, p, -, -, hnew, -, -, -, -, h⟩ := h
  cases h
  have hnone : j.rows.find? (·.recordDigest = H.record r) = none := hnew
  simp [headRecord, find?, List.find?_append, hnone]

end Journal

end Cacheon
