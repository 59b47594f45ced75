import Cacheon.Weights.Follower
import Cacheon.Weights.Reconcile

/-!
# Following shared weights, with a fallback

A follower fetches the current offer from its source, signs its vector at the current block and
keeps the offer.  When the source fails it signs the kept offer again, for at most twelve hours
after it first saw it; after that it signs the burn vector of the subnet's owner.

* `FollowCall.select` : which vector a call signs: the fetched offer's, the kept offer's, or the
  burn vector.
* `FollowCall.commit` : journal the attempt, hand the vector to the chain and journal the result.
* `FollowCall.follow` : one invocation of `follow_with_fallback`.
-/

namespace Cacheon

open Fallible PublicationFault Durable FollowedJournal

/-! ### What a call reads -/

/-- What the follower raises. -/
inductive FollowFault where
  | share (fault : ShareFault)
  /-- `EconomicsError`, raised for a malformed metagraph. -/
  | economics (text : String)
  | publication (fault : PublicationFault)
deriving DecidableEq

abbrev FollowM := Except FollowFault

/-- A signed response of the source, parsed. -/
structure SignedOfferResponse where
  authorityHotkey : Hotkey
  netuid : ℕ
  offer : CurrentWeightOffer
  timestamp : ℤ
  bodyDigest : Digest
  headerAuthority : String
  headerTimestamp : String
  headerNetuid : String
  /-- The digest that the headers declare, if any. -/
  headerBodyDigest : Option Digest
  signature : String
deriving DecidableEq

/-- What the source signs. -/
structure ResponseAuth where
  authorityHotkey : Hotkey
  bodyDigest : Digest
  netuid : ℕ
  timestamp : ℤ
deriving DecidableEq

/-- The burn sink of the subnet's owner, at one finalized metagraph. -/
structure SubnetOwnerBurnTarget where
  hotkey : Hotkey
  ownerColdkey : Hotkey
  ownerHotkey : Hotkey
  metagraph : MetagraphView
deriving DecidableEq

/-- What a burn vector's authority is named after. -/
structure BurnAuthority where
  scope : JournalScope
  ownerColdkey : Hotkey
  ownerHotkey : Hotkey
  burnHotkey : Hotkey
  metagraph : Digest
deriving DecidableEq

/-- Whom a follower follows, and for whom it signs. -/
structure FollowIdentity where
  url : String
  authority : Option Hotkey
  signer : Hotkey
deriving DecidableEq

/-- What stays the same over a follower's calls. -/
structure FollowEnv where
  hashes : OfferHashes
  responseDigest : ResponseAuth → Digest
  burnDigest : BurnAuthority → Digest
  /-- Whether a signature of an account on a digest is valid. -/
  verify : Hotkey → Digest → String → Bool
  scope : JournalScope
  identity : FollowIdentity

/-- One invocation: its arguments, the clock, and what the source and the chain answer. -/
structure FollowCall where
  maxSkewSeconds : ℤ
  refreshBlocks : ℕ
  /-- Seconds since the epoch. -/
  now : ℚ
  epoch : 0 ≤ now
  /-- The clock, when the request is made. -/
  requestTime : ℤ
  live : FollowM MetagraphView
  response : FollowM SignedOfferResponse
  /-- The metagraph, read again for an offer ahead of the first reading. -/
  relive : FollowM MetagraphView
  /-- The metagraph at the offer's block. -/
  bound : FollowM MetagraphView
  burn : FollowM SubnetOwnerBurnTarget
  /-- The metagraph, read before signing. -/
  signingLive : FollowM MetagraphView
  /-- The metagraph at the block of the vector to sign. -/
  signingBound : FollowM MetagraphView
  sdk : SdkOutcome

/-- The kept source offer and when it was first seen. -/
structure CachedSource where
  identity : FollowIdentity
  offer : CurrentWeightOffer
  observedAt : ℚ
deriving DecidableEq

/-- What the signer's database keeps. -/
structure FollowerStore where
  /-- `follower_last_authenticated_offer`. -/
  cache : Option CachedSource
  journal : FollowedJournal

/-- Where a submitted vector comes from. -/
inductive VectorOrigin where
  | source (offer : CurrentWeightOffer)
  | burn (target : SubnetOwnerBurnTarget)
  /-- The journal retains a vector for this block or a later one. -/
  | journal
deriving DecidableEq

/-- What an observer of the database and of the signer sees. -/
inductive FollowEvent where
  | cached (source : CachedSource)
  | swapped (record : WeightPublicationRecord)
  /-- A vector was handed to the chain. -/
  | submitted (projection : WeightProjection) (origin : VectorOrigin)

/-- A process of the follower. -/
abbrev FollowProc := Proc FollowerStore FollowEvent FollowFault

abbrev FollowWorld := World FollowerStore FollowEvent

/-- The block and the membership a vector is bound to. -/
structure FollowContext where
  block : ℕ
  metagraphDigest : Digest
deriving DecidableEq

/-- The metagraph a call works with, and its context. -/
structure Sight where
  live : MetagraphView
  context : FollowContext

/-- Kept offers are used for twelve hours. -/
def maxRetainedSeconds : ℚ := 12 * 60 * 60

/-! ### Chain readings -/

/-- `[^\s]{1,256}`. -/
def isAccountName (hotkey : Hotkey) : Prop :=
  1 ≤ hotkey.length ∧ hotkey.length ≤ 256 ∧ hotkey.toList.all (!isSpace ·)

instance : DecidablePred isAccountName := fun _ => instDecidableAnd

/-- `0x[0-9a-f]{64}`. -/
def isBlockHash (hash : String) : Prop :=
  hash.length = 66 ∧ hash.toList.take 2 = ['0', 'x'] ∧
    (hash.toList.drop 2).all fun c => c.isDigit || ('a' ≤ c && c ≤ 'f')

instance : DecidablePred isBlockHash := fun _ => instDecidableAnd

/-- The accounts of a vector, and its signer, are registered. -/
def registered (signer : Hotkey) (p : WeightProjection) (m : MetagraphView) : Bool :=
  (signer :: p.weightsPpm.map (·.1)).all fun hotkey => m.members.any (·.hotkey = hotkey)

namespace FollowEnv

variable (env : FollowEnv)

/-- The context of a metagraph. -/
def contextOf (m : MetagraphView) : FollowM FollowContext := do
  check (isAccountName env.identity.signer) (.economics "hotkey is malformed")
  check (isBlockHash (String.ofList (m.blockHash.toList.map Char.toLower)))
    (.economics "current_block_hash is malformed")
  check (∀ row ∈ m.members, isAccountName row.hotkey) (.economics "metagraph hotkey is malformed")
  check (m.members ≠ [] ∧ (m.members.map (·.uid)).Nodup ∧ (m.members.map (·.hotkey)).Nodup)
    (.economics "metagraph membership is empty or duplicated")
  check (env.identity.signer ∈ m.members.map (·.hotkey))
    (.economics "validator is absent from the current metagraph")
  .ok ⟨m.block, membershipDigest env.hashes.toPublicationHashes env.scope.digest m⟩

/-- The kept offer, if it is this source's and readable. -/
def loadSource (s : FollowerStore) : Option CachedSource :=
  s.cache.filter fun c => c.identity = env.identity ∧
    (c.offer.projection.chainScopeDigest = env.scope.digest ∧
      c.offer.projection.netuid = env.scope.netuid) ∧ 0 ≤ c.observedAt

end FollowEnv

namespace FollowCall

variable (env : FollowEnv) (q : FollowCall)

/-! ### Selecting a vector -/

/-- The offer of an authenticated response. -/
def parseSignedOfferResponse (r : SignedOfferResponse) : FollowM CurrentWeightOffer := do
  let fail text : FollowFault := .share ⟨text⟩
  check (r.netuid = env.scope.netuid) (fail "weight-share response netuid mismatch")
  check (0 < r.timestamp) (fail "timestamp is malformed")
  check (0 < q.requestTime) (fail "clock reading is malformed")
  check (0 < q.maxSkewSeconds ∧ q.maxSkewSeconds ≤ 600) (fail "timestamp skew bound is malformed")
  check (|q.requestTime - r.timestamp| ≤ q.maxSkewSeconds)
    (fail "timestamp is outside the accepted skew window")
  check (r.headerAuthority = r.authorityHotkey ∧ r.headerTimestamp = toString r.timestamp ∧
      r.headerNetuid = toString env.scope.netuid)
    (fail "weight-share response headers disagree with body")
  check (∀ declared, r.headerBodyDigest = some declared → declared = r.bodyDigest)
    (fail "weight-share response body digest mismatch")
  check (isSignerName r.authorityHotkey) (fail "response authority hotkey is malformed")
  check (env.verify r.authorityHotkey
      (env.responseDigest ⟨r.authorityHotkey, r.bodyDigest, env.scope.netuid, r.timestamp⟩)
      r.signature)
    (fail "weight-share signature is invalid")
  check (∀ authority, env.identity.authority = some authority → r.authorityHotkey = authority)
    (fail "weight-share authority hotkey is not the pinned authority")
  check (r.offer.projection.netuid = env.scope.netuid) (fail "offer projection netuid mismatch")
  .ok r.offer

/-- The offer that the source gives, authenticated. -/
def fetchCurrentWeights : FollowM CurrentWeightOffer := do
  let response ← q.response
  q.parseSignedOfferResponse env response

/-- The metagraph at the offer's block. -/
def boundMetagraph (sight : Sight) (source : CurrentWeightOffer) :
    FollowM MetagraphView :=
  if source.effectiveBlock = sight.live.block then .ok sight.live else q.bound

variable (cached : Option CachedSource)

/-- The checks on a fetched offer at the metagraph the call works with. -/
def admitSource (sight : Sight) (source : CurrentWeightOffer) : FollowM Unit := do
  let block := source.effectiveBlock
  check (block ≤ sight.live.block ∧ sight.live.block - block ≤ q.refreshBlocks)
    (.share ⟨"shared weight projection exceeds the initial freshness window"⟩)
  let bound ← q.boundMetagraph sight source
  let boundContext ← env.contextOf bound
  check (boundContext.metagraphDigest = source.projection.metagraphDigest)
    (.share ⟨"shared projection metagraph binding cannot be reopened"⟩)
  check (registered env.identity.signer source.projection sight.live)
    (.share ⟨"shared projection recipient is no longer registered"⟩)
  match cached with
  | none => .ok ()
  | some c => (assertMonotonicOfferUpdate c.offer source).mapError .share

/-- Fetch the source's offer and check it.  The metagraph is read again when the offer is ahead
of it, and stays the one read last, whether the offer passes or not. -/
def trySource (first : Sight) : Sight × FollowM CurrentWeightOffer :=
  match q.fetchCurrentWeights env with
  | .error fault => (first, .error fault)
  | .ok source =>
    if source.projection.chainScopeDigest = env.scope.digest ∧
        source.projection.netuid = env.scope.netuid then
      if first.live.block < source.effectiveBlock then
        match q.relive with
        | .error fault => (first, .error fault)
        | .ok live =>
          match env.contextOf live with
          | .error fault => ({ first with live }, .error fault)
          | .ok context =>
            let sight : Sight := ⟨live, context⟩
            (sight, (q.admitSource env cached sight source).map fun _ => source)
      else (first, (q.admitSource env cached first source).map fun _ => source)
    else (first, .error (.share ⟨"fetched projection differs from the connected chain scope"⟩))

/-- The kept offer is at most twelve hours old. -/
def Fresh (c : CachedSource) : Prop :=
  0 ≤ q.now - c.observedAt ∧ q.now - c.observedAt ≤ maxRetainedSeconds

instance : DecidablePred q.Fresh := fun _ => instDecidableAnd

/-- What is kept after an offer passed: the offer kept before, if it is the same one. -/
def observe (source : CurrentWeightOffer) : CachedSource :=
  match cached with
  | some c => if source = c.offer then c else ⟨env.identity, source, q.now⟩
  | none => ⟨env.identity, source, q.now⟩

/-- The kept offer, if it can still be signed. -/
def retained (sight : Sight) : Option CurrentWeightOffer :=
  cached.bind fun c =>
    if q.Fresh c ∧ c.offer.effectiveBlock ≤ sight.live.block ∧
        registered env.identity.signer c.offer.projection sight.live then some c.offer
    else none

/-- The burn vector of the subnet's owner. -/
def burnOffer (target : SubnetOwnerBurnTarget) : FollowM CurrentWeightOffer := do
  let context ← env.contextOf target.metagraph
  let authority := env.burnDigest
    ⟨env.scope, target.ownerColdkey, target.ownerHotkey, target.hotkey, context.metagraphDigest⟩
  .ok (.fromLegacyProjection
    { chainScopeDigest := env.scope.digest
      netuid := env.scope.netuid
      validatorHotkey := env.identity.signer
      policyDigest := authority
      settlementStateDigest := authority
      evaluationStateDigest := authority
      metagraphDigest := context.metagraphDigest
      arenaStateDigests := [authority]
      stackGeneration := 0
      effectiveBlock := context.block
      crownCount := 0
      evidenceDigests := []
      weightsPpm := [(target.hotkey, 1000000)]
      allocationEvidence := none
      rewardedEvidenceDigests := none })

/-- A vector to sign: where it comes from, and the context it is to be rebound to; a burn vector
has its own. -/
structure Selection where
  origin : VectorOrigin
  offer : CurrentWeightOffer
  context : Option FollowContext

/-- The source failed: sign the kept offer, or burn. -/
def fallBack (sight : Sight) : FollowProc Selection :=
  match q.retained env cached sight with
  | some offer => pure ⟨.source offer, offer, some sight.context⟩
  | none => do
    let target ← Durable.ofExcept q.burn
    let offer ← Durable.ofExcept (burnOffer env target)
    return ⟨.burn target, offer, none⟩

/-- The first reading of the metagraph. -/
def firstSight : FollowM Sight := do
  let live ← q.live
  let context ← env.contextOf live
  .ok ⟨live, context⟩

/-- Write what is kept, if it changed. -/
def keep (kept : CachedSource) : FollowProc Unit :=
  if cached = some kept then pure ()
  else effect fun s => .ok ({ s with cache := some kept }, .cached kept)

/-- Select the fetched, the kept or the burn vector. -/
def select : FollowProc Selection := do
  let cached ← Durable.read fun s => .ok (env.loadSource s)
  let first ← Durable.ofExcept (q.firstSight env)
  match q.trySource env cached first with
  | (sight, .error _) => q.fallBack env cached sight
  | (sight, .ok source) =>
    let kept := q.observe env cached source
    keep cached kept
    if q.Fresh kept then return ⟨.source source, source, some sight.context⟩
    else q.fallBack env (some kept) sight

/-! ### Publishing it -/

/-- Bind a selected vector to the follower and to the current block. -/
def bindSelection (sel : Selection) : FollowM CurrentWeightOffer := do
  let offer ← (rebindOfferSigner sel.offer env.identity.signer).mapError .share
  match sel.context with
  | none => .ok offer
  | some context => .ok (.fromLegacyProjection { offer.projection with
        effectiveBlock := context.block, metagraphDigest := context.metagraphDigest })

/-- Read the journal. -/
def journalRead {α : Type} (f : FollowedJournal → PublicationM α) : FollowProc α :=
  Durable.read fun s => (f s.journal).mapError .publication

/-- Build a record over the head, and swap it in. -/
def advance (own : CurrentWeightOffer) (current : JournalHead)
    (fields : RecordFields) : FollowProc WeightPublicationRecord := do
  let expected := current.map env.hashes.record
  let replacement ← Durable.ofExcept ((WeightPublicationRecord.ofFields
    { fields with priorRecordDigest := expected }).mapError .publication)
  effect fun s => do
    let journal ← (s.journal.compareAndSwap env.hashes own expected replacement).mapError
      .publication
    .ok ({ s with journal }, .swapped replacement)
  return replacement

/-- Journal the intent, hand the vector to the chain, and journal the result. -/
def submit (own : CurrentWeightOffer) (origin : VectorOrigin) (p : WeightProjection)
    (block : ℕ) (current : JournalHead) : FollowProc Unit := do
  let intent ← advance env own current
    { projectionDigest := env.hashes.projection p, status := .intent, submitBlock := block,
      retryAfterBlock := block, reason := "before_sdk_submission" }
  effect fun s => .ok (s, .submitted p origin)
  match q.sdk with
  | .answered true revealRound =>
    let _ ← advance env own (some intent)
      { projectionDigest := env.hashes.projection p, status := .confirmed, submitBlock := block,
        retryAfterBlock := block, confirmedBlock := block, revealRound := revealRound,
        reason := "block_inclusion" }
  | .answered false revealRound =>
    let _ ← advance env own (some intent)
      { projectionDigest := env.hashes.projection p, status := .released, submitBlock := block,
        retryAfterBlock := block, revealRound := revealRound,
        reason := "commit_failed_retry_next_pass" }
  | .raised _ =>
    let _ ← advance env own (some intent)
      { projectionDigest := env.hashes.projection p, status := .released, submitBlock := block,
        retryAfterBlock := block, reason := "commit_failed_retry_next_pass" }

/-- The metagraph at the block of a vector to sign. -/
def signingBoundMetagraph (p : WeightProjection) (live : MetagraphView) :
    FollowM MetagraphView :=
  if live.block = p.effectiveBlock then .ok live else q.signingBound

/-- The metagraph to sign at. -/
def signingMetagraph (p : WeightProjection) : FollowProc MetagraphView := do
  require (0 < q.refreshBlocks) (.publication (.publication "weight refresh cadence is malformed"))
  require (env.identity.signer = p.validatorHotkey)
    (.publication (.publication "signer wallet differs from projection authority"))
  let live ← Durable.ofExcept q.signingLive
  require (p.effectiveBlock ≤ live.block ∧ live.block - p.effectiveBlock ≤ q.refreshBlocks)
    (.publication (.staleProjection "shared projection exceeds the initial freshness window"))
  let bound ← Durable.ofExcept (q.signingBoundMetagraph p live)
  require (membershipDigest env.hashes.toPublicationHashes p.chainScopeDigest bound =
      p.metagraphDigest)
    (.publication (.publication "weight projection metagraph binding cannot be reopened"))
  require (authorityUidsKept p bound live)
    (.publication (.publication "weight recipient UID mapping changed before signing"))
  return live

/-- Publish one vector, unless the chain carries it since less than a refresh. -/
def commit (own : CurrentWeightOffer) (origin : VectorOrigin) (p : WeightProjection) :
    FollowProc Unit := do
  let live ← q.signingMetagraph env p
  match ← journalRead (load env.hashes) with
  | none => q.submit env own origin p live.block none
  | some current =>
    let previous ← journalRead (retainedProjection env.hashes current.val.projectionDigest)
    require (previous.validatorHotkey = p.validatorHotkey ∧
        previous.chainScopeDigest = p.chainScopeDigest ∧ previous.netuid = p.netuid)
      (.publication (.publication "follower journal belongs to another authority"))
    if current.val.status = .confirmed ∧ previous.weightsPpm = p.weightsPpm ∧
        live.block < current.val.confirmedBlock + q.refreshBlocks then return ()
    else q.submit env own origin p live.block (some current)

/-- Publish an offer under its journal instance. -/
def publishFollowedWeights (origin : VectorOrigin) (offer : CurrentWeightOffer) :
    FollowProc Unit := do
  let rebound ← Durable.ofExcept ((rebindOfferSigner offer env.identity.signer).mapError .share)
  q.commit env offer origin rebound.projection

/-- One invocation of `follow_with_fallback`. -/
def follow : FollowProc Unit := do
  let sel ← q.select env
  let offer ← Durable.ofExcept (bindSelection env sel)
  Durable.ofExcept ((checkScope env.scope offer).mapError .publication)
  match ← journalRead (load env.hashes) with
  | none => q.publishFollowedWeights env sel.origin offer
  | some head =>
    let retained ← journalRead (retainedProjection env.hashes head.val.projectionDigest)
    require (retained.validatorHotkey = env.identity.signer)
      (.share ⟨"follower journal belongs to another signer"⟩)
    -- a vector for this very block is kept, so that no block gets two
    if offer.effectiveBlock ≤ retained.effectiveBlock then
      let offer := CurrentWeightOffer.fromLegacyProjection retained
      Durable.ofExcept ((checkScope env.scope offer).mapError .publication)
      q.publishFollowedWeights env .journal offer
    else q.publishFollowedWeights env sel.origin offer

end FollowCall

end Cacheon
