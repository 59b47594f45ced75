import Cacheon.Lib.Durable
import Cacheon.Weights.Record
import Mathlib.Data.List.Sort
import Mathlib.Data.Prod.Lex
import Mathlib.Data.Rat.Defs
import Mathlib.Data.String.Basic

/-!
# Reconciling one weight publication

`reconcile` is one control-plane invocation: it reopens the journal head and the chain, and
then confirms, holds, releases or publishes.  The chain is read several times in one call;
`Readings` gives what each of these readings returned or raised, with no assumption that two
of them agree.  Journal swaps and the submission itself are the atomic steps of the process,
so that a crash may fall between any two of them.
-/

namespace Cacheon

open PublicationFault Fallible Durable

/-- One row of the finalized metagraph. -/
structure MetagraphNeuron where
  uid : ℕ
  hotkey : Hotkey
  lastUpdate : ℕ
deriving DecidableEq

/-- The metagraph at one finalized block. -/
structure MetagraphView where
  block : ℕ
  blockHash : String
  members : List MetagraphNeuron
deriving DecidableEq

/-- The UID of a hotkey. -/
def MetagraphView.uidOf (m : MetagraphView) (hotkey : Hotkey) : Option ℕ :=
  (m.members.find? (·.hotkey = hotkey)).map (·.uid)

/-- One validator's sparse weights on chain, with the block they were last set at. -/
structure ValidatorWeightSnapshot where
  weights : List (Hotkey × ℚ)
  lastUpdateBlock : ℕ
deriving DecidableEq

/-- What the SDK's submission call gave back. -/
inductive SdkOutcome where
  /-- The SDK raised an exception of this class. -/
  | raised (name : String)
  /-- The SDK answered: was the extrinsic accepted, and for which reveal round. -/
  | answered (submitted : Bool) (revealRound : ℕ)
deriving DecidableEq

/-- What the chain and the reward clocks answer during one call. -/
structure Readings where
  /-- The finalized metagraph at the start of the call. -/
  live : PublicationM MetagraphView
  /-- The metagraph at the projection's block. -/
  bound : PublicationM MetagraphView
  /-- The validator's row at the live metagraph. -/
  pre : PublicationM ValidatorWeightSnapshot
  dryRun : PublicationM Unit
  /-- The accounts with a timelocked commit outstanding. -/
  commits : PublicationM (List Hotkey)
  /-- The metagraph read again before signing. -/
  signing : PublicationM MetagraphView
  /-- The validator's row at the signing metagraph. -/
  signingPre : PublicationM ValidatorWeightSnapshot
  rateLimit : PublicationM ℕ
  sdk : SdkOutcome
  /-- The metagraph after the submission. -/
  post : PublicationM MetagraphView
  /-- The validator's row after the submission. -/
  postRow : PublicationM ValidatorWeightSnapshot
  /-- Starting the reward clocks inside a journal swap. -/
  confirmRewardDecay : WeightProjection → WeightPublicationRecord → PublicationM Unit

/-- The arguments of one invocation. -/
structure ReconcileRequest where
  projection : WeightProjection
  /-- The projection the journal adapter was opened with. -/
  journalProjection : WeightProjection
  /-- The signer's wallet, and its address when the wallet has one. -/
  signerWallet : Option (Option Hotkey)
  refreshBlocks : ℕ
  dryRun : Bool := false
  reconcileOnly : Bool := false
  allowStaleInitial : Bool := false
  maxStaleInitialBlocks : Option ℕ := none
  requireCurrentCrown : Bool := true
  readings : Readings

/-- What an observer of the journal and of the signer sees. -/
inductive PublicationEvent where
  /-- The journal's head moved. -/
  | swapped (before : JournalHead) (after : WeightPublicationRecord)
  /-- A real submission was handed to the SDK while the journal had this head. -/
  | submitted (projection : WeightProjection) (head : JournalHead)
deriving DecidableEq

/-- A process of the publication code. -/
abbrev Publication := Proc Journal PublicationEvent PublicationFault

abbrev PublicationWorld := World Journal PublicationEvent

/-- What one invocation reports; the status is absent for a dry run. -/
structure WeightPublicationResult where
  projectionDigest : Digest
  status : Option PublicationStatus
  record : JournalHead
  chainMatches : Bool
  submitted : Bool
  dryRun : Bool
  observedBlock : ℕ
  refreshDue : Bool := false
deriving DecidableEq

/-- The digests, and the comparison of floating-point weights. -/
structure PublicationEnv where
  hashes : PublicationHashes
  /-- `math.isclose` at the publication tolerances. -/
  isclose : ℚ → ℚ → Bool

/-- The digest of a metagraph's membership under a chain scope. -/
def membershipDigest (H : PublicationHashes) (scopeDigest : Digest) (m : MetagraphView) : Digest :=
  H.membership
    { block := m.block
      blockHash := String.ofList (m.blockHash.toList.map Char.toLower)
      chainScopeDigest := scopeDigest
      members := (m.members.map fun row => (row.uid, row.hotkey)).insertionSort
        fun a b => toLex a ≤ toLex b }

/-- Every identity that can affect the signed row kept its UID. -/
def authorityUidsKept (p : WeightProjection) (bound observed : MetagraphView) : Bool :=
  (p.validatorHotkey :: p.weightsPpm.map (·.1)).all fun hotkey =>
    (bound.uidOf hotkey).isSome && bound.uidOf hotkey == observed.uidOf hotkey

namespace ReconcileRequest

variable (env : PublicationEnv) (q : ReconcileRequest)

/-- The digest of the projection to publish. -/
def digest : Digest := env.hashes.projection q.projection

/-! ### Comparisons with the chain -/

/-- The chain carries exactly the projected vector. -/
def isPublished (snapshot : ValidatorWeightSnapshot) : Bool :=
  (snapshot.weights.all fun row => q.projection.weightsPpm.any (·.1 = row.1)) &&
    q.projection.weightsPpm.all fun row =>
      (snapshot.weights.find? (·.1 = row.1)).any fun live =>
        env.isclose live.2 ((row.2 : ℚ) / 1000000)

/-- The digest of the metagraph membership under the projection's chain scope. -/
def metagraphDigest (m : MetagraphView) : Digest :=
  membershipDigest env.hashes q.projection.chainScopeDigest m

/-- Every identity of the projection kept its UID. -/
def authorityUidsUnchanged : MetagraphView → MetagraphView → Bool := authorityUidsKept q.projection

/-! ### Journal steps -/

variable (current : JournalHead)

/-- Build a record that binds the current head, and swap it in. -/
def advance (fields : RecordFields) : Publication WeightPublicationRecord := do
  let expected := current.map env.hashes.record
  let replacement ← ofExcept
    (WeightPublicationRecord.ofFields { fields with priorRecordDigest := expected })
  effect fun j => do
    let j' ← j.compareAndSwap env.hashes q.journalProjection q.readings.confirmRewardDecay
      expected replacement
    .ok (j', .swapped j.headRecord replacement)
  return replacement

/-- The fields of a follow-up record of the same attempt. -/
def followUp (current : WeightPublicationRecord) (status : PublicationStatus)
    (reason : String) : RecordFields :=
  { current.val with status := status, priorRecordDigest := none, reason := reason }

/-- Put the attempt on hold. -/
def held (current : WeightPublicationRecord) (reason : String) :
    Publication WeightPublicationRecord :=
  q.advance env (some current) (followUp current .held reason)

/-- Append an audited release of a hold; the hold itself is kept. -/
def releaseWeightPublicationHold (reason : String) : Publication WeightPublicationRecord := do
  require (reason ≠ "" ∧ reason.length ≤ 2048 ∧ isPlainText reason)
    (publication "publication release reason is malformed")
  let current ← read (Journal.load env.hashes)
  match current with
  | none => raise (publication "only a retained publication hold may be released")
  | some current =>
    require (current.val.status = .held)
      (publication "only a retained publication hold may be released")
    q.advance env (some current) (followUp current .released reason)

/-- A confirmation by reading the chain back at `block`. -/
def confirmation (block lastUpdate : ℕ) (reason : String) : RecordFields :=
  { projectionDigest := q.digest env
    status := .confirmed
    submitBlock := (current.map (·.val.submitBlock)).getD 0
    retryAfterBlock := (current.map (·.val.retryAfterBlock)).getD 0
    revealRound := (current.map (·.val.revealRound)).getD 0
    confirmedBlock := block
    confirmedLastUpdate := lastUpdate
    reason := reason }

/-- The result of a call that leaves this record as the head. -/
def result (record : WeightPublicationRecord) (chainMatches submitted : Bool) (block : ℕ)
    (refreshDue : Bool := false) : WeightPublicationResult :=
  { projectionDigest := q.digest env
    status := some record.val.status
    record := some record
    chainMatches := chainMatches
    submitted := submitted
    dryRun := false
    observedBlock := block
    refreshDue := refreshDue }

/-! ### The readings before any journal step -/

/-- The chain state a call works with. -/
structure Opening where
  live : MetagraphView
  bound : MetagraphView
  pre : ValidatorWeightSnapshot
  /-- Whether the head carries this projection's own attempt. -/
  retained : Bool

/-- The head is an attempt to publish this projection that is still in flight. -/
def inFlight : JournalHead :=
  current.filter fun r =>
    (r.val.status = .intent ∨ r.val.status = .pending) ∧ r.val.projectionDigest = q.digest env

/-- The head is one that a call without a signer may resume. -/
def retainedReconcileHead : JournalHead :=
  current.filter fun r =>
    q.reconcileOnly ∧
      (r.val.status = .pending ∨ r.val.status = .released ∨ r.val.status = .confirmed) ∧
      r.val.projectionDigest = q.digest env

/-- The metagraph at the projection's block. -/
def boundMetagraph (live : MetagraphView) : Publication MetagraphView :=
  if live.block = q.projection.effectiveBlock then pure live else ofExcept q.readings.bound

/-- A projection older than the live metagraph may only be followed under its limits. -/
def checkStale (retained : Bool) (live bound : MetagraphView) : Publication Unit :=
  if ¬ retained ∧ live.block ≠ q.projection.effectiveBlock then do
    require (q.allowStaleInitial)
      (publication "weight projection is stale for the immediately refreshed metagraph")
    require (∀ limit, q.maxStaleInitialBlocks = some limit →
        live.block ≤ q.projection.effectiveBlock + limit)
      (staleProjection "shared weight projection exceeds the initial freshness window")
    require (q.authorityUidsUnchanged bound live)
      (publication "stale weight projection recipient UID mapping changed")
  else pure ()

/-- Reopen the chain before any journal step. -/
def openChain : Publication Opening := do
  let retained := (q.inFlight env current).isSome || (q.retainedReconcileHead env current).isSome
  let live ← ofExcept q.readings.live
  let bound ← q.boundMetagraph live
  require (q.metagraphDigest env bound = q.projection.metagraphDigest)
    (publication "weight projection metagraph binding cannot be reopened")
  q.checkStale retained live bound
  require (∀ r, q.inFlight env current = some r →
      q.projection.effectiveBlock ≤ r.val.submitBlock ∧ r.val.submitBlock ≤ live.block)
    (publication "in-flight publication chronology differs from retained authority")
  let pre ← ofExcept q.readings.pre
  require (pre.lastUpdateBlock ≤ live.block ∧ q.projection.effectiveBlock ≤ live.block)
    (chainState "weight authority chronology is inconsistent")
  return { live, bound, pre, retained }

/-! ### The branches of one call -/

variable (o : Opening)

/-- The call accepts no signer: confirm an exact reading or raise. -/
def reconcileOnlyHead (current : JournalHead) :
    Publication WeightPublicationResult := do
  let block := o.live.block
  let lastUpdate := o.pre.lastUpdateBlock
  match current with
  | none =>
    raise (publication "reconcile-only requires a pending, released, or confirmed journal head")
  | some current =>
    require (current.val.status = .pending ∨ current.val.status = .released ∨
        current.val.status = .confirmed)
      (publication "reconcile-only requires a pending, released, or confirmed journal head")
    require (o.retained → q.authorityUidsUnchanged o.bound o.live)
      (publication "reconcile-only recipient UID mapping changed")
    if current.val.status = .pending then
      require (current.val.projectionDigest = q.digest env)
        (publication "reconcile-only pending projection differs from retained authority")
      require (q.isPublished env o.pre ∧ current.val.submitBlock ≤ lastUpdate)
        (publication "reconcile-only pending publication lacks exact authoritative readback")
      let confirmed ← q.advance env (some current)
        (q.confirmation env (some current) block lastUpdate "authoritative_readback")
      return q.result env confirmed true false block (q.refreshBlocks ≤ block - lastUpdate)
    else
      require (q.isPublished env o.pre)
        (publication "reconcile-only authoritative row differs; a submission is required")
      require (current.val.status = .released → current.val.submitBlock ≤ lastUpdate) (publication
          "reconcile-only released publication lacks post-submit authoritative readback")
      require (block - lastUpdate < q.refreshBlocks)
        (publication "reconcile-only confirmed row is refresh-due; a submission is required")
      if current.val.status = .confirmed ∧ current.val.projectionDigest = q.digest env then
        return q.result env current true false block
      else
        let confirmed ← q.advance env (some current)
          (q.confirmation env (some current) block lastUpdate "preexisting_authoritative_readback")
        return q.result env confirmed true false block

/-- The finalized chain proves that a held attempt left nothing to wait for. -/
def attemptAbsentFromChain (held : WeightPublicationRecord) : Publication Bool := do
  if held.val.confirmedBlock ≠ 0 ∨ held.val.submitBlock = 0 ∨
      o.live.block < held.val.retryAfterBlock ∨
      held.val.submitBlock ≤ o.pre.lastUpdateBlock then
    return false
  else
    let commits ← ofExcept q.readings.commits
    return commits.all (· ≠ q.projection.validatorHotkey)

/-- A hold over an attempt the chain never saw releases itself. -/
def releaseAbsentAttempt (current : JournalHead) :
    Publication JournalHead := do
  match current with
  | none => return none
  | some head =>
    if head.val.status = .held then
      if ← q.attemptAbsentFromChain o head then
        return some (← q.releaseWeightPublicationHold env "attempt_absent_from_finalized_chain")
      else return current
    else return current

/-- The head is an unresolved attempt: confirm it, wait for it, or hold it. -/
def settleUnresolved (current : WeightPublicationRecord) : Publication WeightPublicationResult := do
  let block := o.live.block
  let published := q.isPublished env o.pre
  if current.val.projectionDigest ≠ q.digest env then
    let held ← q.held env current "projection_changed_while_unresolved"
    return q.result env held published false block
  else if current.val.status = .held then
    return q.result env current published false block
  else if ¬ q.authorityUidsUnchanged o.bound o.live then
    let held ← q.held env current "metagraph_uid_mapping_changed"
    return q.result env held false false block
  else if published ∧ current.val.submitBlock ≤ o.pre.lastUpdateBlock then
    let confirmed ← q.advance env (some current)
      (q.confirmation env (some current) block o.pre.lastUpdateBlock "authoritative_readback")
    return q.result env confirmed true false block (q.refreshBlocks ≤ block - o.pre.lastUpdateBlock)
  else if block < current.val.retryAfterBlock then
    return q.result env current false false block
  else
    let held ← q.held env current "publication_readback_deadline_expired"
    return q.result env held false false block

/-- The head is resolved: a result when the chain already decides, nothing when the vector
must be signed. -/
def settleResolved (current : JournalHead) : Publication (Option WeightPublicationResult) := do
  let block := o.live.block
  let lastUpdate := o.pre.lastUpdateBlock
  let published := q.isPublished env o.pre
  let fresh := published ∧ block - lastUpdate < q.refreshBlocks
  match current with
  | none =>
    if fresh then
      let confirmed ← q.advance env none
        (q.confirmation env none block lastUpdate "preexisting_authoritative_readback")
      return some (q.result env confirmed true false block)
    else return none
  | some current =>
    if current.val.status = .confirmed then
      if current.val.projectionDigest = q.digest env ∧ ¬ published then
        let held ← q.held env current "confirmed_vector_changed_on_chain"
        return some (q.result env held false false block)
      else if fresh then
        if current.val.projectionDigest ≠ q.digest env then
          let confirmed ← q.advance env (some current)
            (q.confirmation env none block lastUpdate "preexisting_authoritative_readback")
          return some (q.result env confirmed true false block)
        else return some (q.result env current true false block)
      else return none
    else if current.val.status = .released ∧ fresh ∧ current.val.submitBlock ≤ lastUpdate then
      let confirmed ← q.advance env (some current)
        (q.confirmation env (some current) block lastUpdate "preexisting_authoritative_readback")
      return some (q.result env confirmed true false block)
    else return none

/-! ### Publishing -/

/-- The checks on the signer, then the finalized metagraph once more. -/
def signingAuthority : Publication MetagraphView := do
  require (q.requireCurrentCrown → 0 < q.projection.crownCount)
    (publication "real weight submission requires a current crown")
  let hotkey ← ofExcept
    (get (publication "real weight submission requires a signer wallet") q.signerWallet.join)
  require (hotkey = q.projection.validatorHotkey)
    (publication "signer wallet differs from projection authority")
  require (0 < o.live.block) (chainState "real publication requires a positive chain block")
  let signing ← ofExcept q.readings.signing
  require (o.live.block ≤ signing.block)
    (chainState "finalized weight authority regressed before signing")
  require (signing.block = q.projection.effectiveBlock →
      q.metagraphDigest env signing = q.projection.metagraphDigest)
    (chainState "finalized weight authority changed at the projection block")
  require (q.authorityUidsUnchanged o.bound signing)
    (publication "weight recipient UID mapping changed before signing")
  return signing

variable (signing : MetagraphView)

/-- Bind a vector that another publication already put on chain. -/
def bindPublished (row : ValidatorWeightSnapshot) (current : JournalHead) :
    Publication JournalHead := do
  match current with
  | none =>
    return some (← q.advance env none (q.confirmation env none signing.block
      row.lastUpdateBlock "preexisting_authoritative_readback"))
  | some head =>
    if head.val.status = .confirmed ∧ head.val.projectionDigest ≠ q.digest env then
      return some (← q.advance env current (q.confirmation env none signing.block
        row.lastUpdateBlock "preexisting_authoritative_readback"))
    else if head.val.status = .released ∧ head.val.submitBlock ≤ row.lastUpdateBlock then
      return some (← q.advance env current (q.confirmation env current signing.block
        row.lastUpdateBlock "preexisting_authoritative_readback"))
    else return current

/-- Finality advanced since the first reading: look at the row again before signing.  The
result is the head to sign over, or the report that nothing is left to sign. -/
def resettleBeforeSigning (signing : MetagraphView) (current : JournalHead) :
    Publication (JournalHead ⊕ WeightPublicationResult) := do
  if o.live.block < signing.block then
    let row ← ofExcept q.readings.signingPre
    require (row.lastUpdateBlock ≤ signing.block)
      (chainState "pre-sign weight authority chronology is inconsistent")
    if q.isPublished env row ∧ signing.block - row.lastUpdateBlock < q.refreshBlocks then
      let current ← q.bindPublished env signing row current
      match current with
      | none => return .inl none
      | some head =>
        if head.val.status = .confirmed ∧ head.val.projectionDigest = q.digest env then
          return .inr (q.result env head true false signing.block)
        else return .inl current
    else return .inl current
  else return .inl current

/-- A submission the chain would refuse is not attempted. -/
def checkRateLimit : Publication Unit := do
  let validator ← ofExcept (get (other "ValueError")
    (signing.members.find? (·.hotkey = q.projection.validatorHotkey)))
  let rateLimit ← ofExcept q.readings.rateLimit
  require (validator.lastUpdate = 0 ∨ validator.lastUpdate + rateLimit < signing.block)
    (chainState ("weight submission rate limit until block " ++
      toString (validator.lastUpdate + rateLimit + 1)))

/-- Hand the vector to the SDK. -/
def setWeights : Publication SdkOutcome := do
  effect fun j => .ok (j, .submitted q.projection j.headRecord)
  return q.readings.sdk

/-- The fields of an attempt signed at this block. -/
def attempt (status : PublicationStatus) (block revealRound : ℕ) (reason : String) : RecordFields :=
  { projectionDigest := q.digest env
    status := status
    submitBlock := block
    retryAfterBlock := block + q.refreshBlocks
    revealRound := revealRound
    reason := reason }

/-- The reading after the submission; the row is absent when the UIDs changed. -/
def readAfterSubmission : PublicationM (MetagraphView × Option ValidatorWeightSnapshot) := do
  let post ← q.readings.post
  check (post.block = signing.block → q.metagraphDigest env post = q.metagraphDigest env signing)
    (chainState "post-submit authority changed at the signing block")
  if q.authorityUidsUnchanged signing post then
    let row ← q.readings.postRow
    check (row.lastUpdateBlock ≤ post.block ∧ signing.block ≤ post.block)
      (chainState "post-submit chronology is inconsistent")
    return (post, some row)
  else return (post, none)

/-- Resolve a submitted attempt as far as the reading after it allows. -/
def settleSubmitted (pending : WeightPublicationRecord)
    (submitted : Bool) : Publication WeightPublicationResult := do
  match q.readAfterSubmission env signing with
  | .error (.chainState _) =>
    let held ← q.held env pending "post_submit_authority_unavailable"
    return q.result env held false submitted signing.block
  | .error fault => raise fault
  | .ok (post, none) =>
    let held ← q.held env pending "post_submit_uid_mapping_changed"
    return q.result env held false submitted post.block
  | .ok (post, some row) =>
    if q.isPublished env row ∧ signing.block ≤ row.lastUpdateBlock then
      let confirmed ← q.advance env (some pending)
        (q.confirmation env (some pending) post.block row.lastUpdateBlock
          "post_submit_authoritative_readback")
      return q.result env confirmed true submitted post.block
    else return q.result env pending false submitted post.block

/-- Journal the intent, sign, and journal what came of it. -/
def submit (current : JournalHead) : Publication WeightPublicationResult := do
  let block := signing.block
  let intent ← q.advance env current (q.attempt env .intent block 0 "before_sdk_submission")
  match ← q.setWeights with
  | .raised name =>
    let pending ← q.advance env (some intent)
      (q.attempt env .pending block 0 ("sdk_exception:" ++ name))
    q.settleSubmitted env signing pending false
  | .answered submitted revealRound =>
    let pending ← q.advance env (some intent)
      (q.attempt env .pending block revealRound "sdk_result_unconfirmed")
    q.settleSubmitted env signing pending submitted

/-- Publish over a resolved head. -/
def publish (current : JournalHead) : Publication WeightPublicationResult := do
  let signing ← q.signingAuthority env o
  match ← q.resettleBeforeSigning env o signing current with
  | .inr result => return result
  | .inl current =>
    q.checkRateLimit signing
    q.submit env signing current

/-- Reconcile the head with the chain, and publish if nothing else is left to do. -/
def settleOrPublish (current : JournalHead) :
    Publication WeightPublicationResult := do
  match current with
  | some head =>
    if head.val.status.Unresolved then q.settleUnresolved env o head
    else
      match ← q.settleResolved env o current with
      | some result => return result
      | none => q.publish env o current
  | none =>
    match ← q.settleResolved env o none with
    | some result => return result
    | none => q.publish env o none

/-- The checks on the arguments of a call. -/
def checkArguments : Publication Unit := do
  require (0 < q.refreshBlocks) (publication "weight refresh cadence is malformed")
  require (q.maxStaleInitialBlocks ≠ some 0) (publication "stale-initial block limit is malformed")
  require (q.maxStaleInitialBlocks.isSome → q.allowStaleInitial)
    (publication "stale-initial block limit requires stale-initial authority")
  require (¬ (q.reconcileOnly ∧ q.dryRun))
    (publication "reconcile-only cannot be combined with dry-run")
  require (q.reconcileOnly → q.signerWallet = none)
    (publication "reconcile-only forbids a signer wallet")

/-- The head a call works on; a dry run looks at none. -/
def loadHead : Publication JournalHead :=
  if q.dryRun then pure none else read (Journal.load env.hashes)

/-- One invocation of `reconcile_weight_publication`. -/
def reconcile : Publication WeightPublicationResult := do
  q.checkArguments
  let current ← q.loadHead env
  let o ← q.openChain env current
  if q.dryRun then
    ofExcept q.readings.dryRun
    return { projectionDigest := q.digest env, status := none, record := none
             chainMatches := q.isPublished env o.pre, submitted := false, dryRun := true
             observedBlock := o.live.block }
  else if q.reconcileOnly then q.reconcileOnlyHead env o current
  else
    let current ← q.releaseAbsentAttempt env o current
    q.settleOrPublish env o current

end ReconcileRequest

end Cacheon
