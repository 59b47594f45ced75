import Cacheon.Weights.Offer

/-!
# The weight-share server

An evaluator pushes offers to a server with a shared secret; validators fetch the stored offer.
Requests are handled by threads: a push is verified first and stored later under a lock, and a
fetched offer is loaded under the lock and sent later.  `ShareServer.step` is one atomic step of
one thread, so that a list of steps is one interleaving of requests.

* `verifyPushRequest`, `receivePush` : authenticate a push.
* `putOfferStorage` : the checks that guard the stored offer.
* `ShareServer.Intact` : what was stored and served so far.
* `ShareServer.share_intact` : every interleaving, with restarts, is intact.
-/

namespace Cacheon

open Fallible

/-! ### Credentials and requests -/

/-- Whether a secret may still sign pushes. -/
inductive CredentialStatus where
  | active
  | retired
deriving DecidableEq

/-- A shared secret with its name. -/
structure PushCredential where
  credentialId : String
  secret : String
  status : CredentialStatus
deriving DecidableEq

/-- The secrets a server knows. -/
structure PushCredentialSet where
  credentials : List PushCredential
  distinct : (credentials.map (·.credentialId)).Nodup
  someActive : ∃ row ∈ credentials, row.status = .active

/-- The credential of a name. -/
def PushCredentialSet.get (set : PushCredentialSet) (credentialId : String) :
    Option PushCredential :=
  set.credentials.find? (·.credentialId = credentialId)

/-- What a push signs, besides the route. -/
structure PushAuth where
  credentialId : String
  timestamp : ℤ
  bodyDigest : Digest
deriving DecidableEq

/-- A push as it arrives; a header that cannot be read is absent. -/
structure PushRequest (Body : Type) where
  contentLength : Option ℤ
  body : Body
  credentialId : String
  timestamp : Option ℤ
  declaredDigest : Option Digest
  signature : String

/-- Hashes, MACs and the configuration of a server. -/
structure ShareEnv (Body : Type) where
  bodyDigest : Body → Digest
  bodyLength : Body → ℕ
  /-- `CurrentWeightOffer.from_bytes`. -/
  fromBytes : Body → ShareM CurrentWeightOffer
  offerDigest : CurrentWeightOffer → Digest
  pushDigest : PushAuth → Digest
  /-- The digest of a credential's name and an offer's digest. -/
  storageDigest : String → Digest → Digest
  /-- The MAC of a push, by the secret. -/
  pushMac : String → Digest → String
  /-- The MAC of a stored offer, by the secret. -/
  storageMac : String → Digest → String
  netuid : ℕ
  maxSkewSeconds : ℤ

/-- A push that was verified and not stored yet. -/
structure VerifiedPush (Body : Type) where
  request : PushRequest Body
  now : ℤ
  timestamp : ℤ
  credential : PushCredential
  offer : CurrentWeightOffer

/-- An offer with the server's own MAC. -/
structure AuthenticatedWeightOffer where
  credentialId : String
  offer : CurrentWeightOffer
  mac : String
deriving DecidableEq

/-- What the storage holds. -/
inductive StoredOffer where
  | unsigned (offer : CurrentWeightOffer)
  | authenticated (envelope : AuthenticatedWeightOffer)
deriving DecidableEq

/-- The offer of a stored value. -/
def StoredOffer.offer : StoredOffer → CurrentWeightOffer
  | .unsigned offer => offer
  | .authenticated envelope => envelope.offer

section Server

variable {Body : Type} (env : ShareEnv Body)

/-- What the push claims to sign. -/
def PushRequest.auth (r : PushRequest Body) : Option PushAuth :=
  r.timestamp.map (⟨r.credentialId, ·, env.bodyDigest r.body⟩)

/-! ### Handling a push -/

/-- Verify a push; the credential it was signed with. -/
def verifyPushRequest (set : PushCredentialSet) (r : PushRequest Body) (now : ℤ) :
    ShareM (PushCredential × ℤ) := do
  check (0 < now) ⟨"clock reading is malformed"⟩
  check (1 ≤ env.maxSkewSeconds ∧ env.maxSkewSeconds ≤ 600) ⟨"push skew bound is malformed"⟩
  let timestamp ← get ⟨"push timestamp is malformed"⟩ r.timestamp
  check (|now - timestamp| ≤ env.maxSkewSeconds)
    ⟨"push timestamp is outside the accepted skew window"⟩
  let declared ← get
    ⟨"X-Cacheon-Push-Body-Digest must be a lowercase 64-hex SHA-256 digest"⟩ r.declaredDigest
  check (declared = env.bodyDigest r.body) ⟨"push body digest mismatch"⟩
  let credential ← get ⟨"push credential is unknown or retired"⟩
    ((set.get r.credentialId).filter (·.status = .active))
  check (0 < timestamp) ⟨"push timestamp is malformed"⟩
  check (r.signature = env.pushMac credential.secret
      (env.pushDigest ⟨credential.credentialId, timestamp, env.bodyDigest r.body⟩))
    ⟨"push signature is invalid"⟩
  .ok (credential, timestamp)

/-- The handler of a push, up to the lock. -/
def receivePush (credentials : Option PushCredentialSet) (r : PushRequest Body) (now : ℤ) :
    ShareM (VerifiedPush Body) := do
  let set ← get ⟨"weight push is not enabled on this server"⟩ credentials
  let length ← get ⟨"push Content-Length is malformed"⟩ r.contentLength
  check (2 ≤ length ∧ length ≤ 8000000) ⟨"push body length is out of bounds"⟩
  check ((env.bodyLength r.body : ℤ) = length) ⟨"push body length mismatch"⟩
  let (credential, timestamp) ← verifyPushRequest env set r now
  let offer ← env.fromBytes r.body
  check (offer.projection.netuid = env.netuid) ⟨"pushed offer netuid differs from server netuid"⟩
  .ok ⟨r, now, timestamp, credential, offer⟩

/-- `authenticate_weight_offer`. -/
def authenticateWeightOffer (offer : CurrentWeightOffer) (credential : PushCredential) :
    AuthenticatedWeightOffer :=
  ⟨credential.credentialId, offer, env.storageMac credential.secret
    (env.storageDigest credential.credentialId (env.offerDigest offer))⟩

/-- The envelope that a push stores. -/
def VerifiedPush.envelope (push : VerifiedPush Body) : StoredOffer :=
  .authenticated (authenticateWeightOffer env push.offer push.credential)

/-- What may replace the stored value. -/
def putOfferStorage (current : Option StoredOffer) (stored : StoredOffer) :
    ShareM Unit :=
  match current, stored with
  | none, _ => .ok ()
  | some (.authenticated _), .unsigned _ =>
    .error ⟨"authenticated current offer cannot be overwritten unsigned"⟩
  | some current, stored => assertMonotonicOfferUpdate current.offer stored.offer

/-! ### Handling a fetch -/

/-- The offer of an envelope whose MAC a known secret made. -/
def verifyAuthenticatedWeightOffer (envelope : AuthenticatedWeightOffer)
    (set : PushCredentialSet) : ShareM CurrentWeightOffer := do
  let credential ← get ⟨"stored weight offer names an unknown push credential"⟩
    (set.get envelope.credentialId)
  check (envelope.mac = env.storageMac credential.secret
      (env.storageDigest envelope.credentialId (env.offerDigest envelope.offer)))
    ⟨"stored weight offer authentication failed"⟩
  .ok envelope.offer

/-- Open a loaded value: with secrets only an authentic envelope, without any only a raw offer. -/
def openStored : Option PushCredentialSet → StoredOffer → ShareM CurrentWeightOffer
  | some set, .authenticated envelope => verifyAuthenticatedWeightOffer env envelope set
  | some _, .unsigned _ =>
    .error ⟨"push-enabled weight service requires authenticated storage"⟩
  | none, .unsigned offer => .ok offer
  | none, .authenticated _ =>
    .error ⟨"authenticated storage cannot be verified without push credentials"⟩

/-- The offer to serve for a loaded value. -/
def serveOffer (credentials : Option PushCredentialSet) (stored : StoredOffer) :
    ShareM CurrentWeightOffer := do
  let offer ← openStored env credentials stored
  check (offer.projection.netuid = env.netuid) ⟨"stored offer netuid differs from server netuid"⟩
  .ok offer

/-! ### The server -/

/-- What happens when the storage is read and written under the lock. -/
inductive WriteOutcome where
  | unread
  | unwritten
  | written
  /-- The value was stored, and the call failed after that. -/
  | writtenThenFailed
deriving DecidableEq

/-- What an observer sees. -/
inductive ShareEvent (Body : Type) where
  /-- A push was stored. -/
  | accepted (push : VerifiedPush Body)
  /-- An offer was sent that was loaded after so many events. -/
  | served (offer : CurrentWeightOffer) (position : ℕ)

/-- A value that was loaded and not sent yet, with the number of events before. -/
structure LoadedOffer where
  stored : StoredOffer
  position : ℕ

/-- A server: its secrets, its storage, the requests in flight, and what happened so far. -/
structure ShareServer (Body : Type) where
  credentials : Option PushCredentialSet
  storage : Option StoredOffer
  verified : List (VerifiedPush Body)
  loads : List LoadedOffer
  log : List (ShareEvent Body)

/-- One atomic step of a thread. -/
inductive ShareStep (Body : Type) where
  | verify (request : PushRequest Body) (now : ℤ)
  | save (index : ℕ) (outcome : WriteOutcome)
  /-- A fetch whose own checks and whose reading of the storage pass, or not. -/
  | load (passes : Bool)
  | respond (index : ℕ)
  /-- A stop and a start, perhaps with other secrets. -/
  | restart (credentials : Option PushCredentialSet)

namespace ShareServer

/-- A server on an empty storage. -/
def start (credentials : Option PushCredentialSet) : ShareServer Body :=
  ⟨credentials, none, [], [], []⟩

/-- Store a verified push. -/
def save (s : ShareServer Body) (push : VerifiedPush Body) (outcome : WriteOutcome) :
    ShareServer Body :=
  if (outcome = .written ∨ outcome = .writtenThenFailed) ∧
      putOfferStorage s.storage (push.envelope env) = .ok () then
    { s with storage := some (push.envelope env), log := s.log ++ [.accepted push] }
  else s

/-- Send a loaded offer, if it is authentic. -/
def respond (s : ShareServer Body) (loaded : LoadedOffer) : ShareServer Body :=
  match serveOffer env s.credentials loaded.stored with
  | .ok offer => { s with log := s.log ++ [.served offer loaded.position] }
  | .error _ => s

/-- One step. -/
def step (s : ShareServer Body) : ShareStep Body → ShareServer Body
  | .verify request now =>
    match receivePush env s.credentials request now with
    | .ok push => { s with verified := s.verified ++ [push] }
    | .error _ => s
  | .save index outcome =>
    match s.verified[index]? with
    | some push => { s with verified := s.verified.eraseIdx index }.save env push outcome
    | none => s
  | .load passes =>
    match s.storage with
    | some stored =>
      if passes then { s with loads := s.loads ++ [⟨stored, s.log.length⟩] } else s
    | none => s
  | .respond index =>
    match s.loads[index]? with
    | some loaded => { s with loads := s.loads.eraseIdx index }.respond env loaded
    | none => s
  | .restart credentials => { s with credentials, verified := [], loads := [] }

/-- An interleaving of requests. -/
def run (credentials : Option PushCredentialSet) (steps : List (ShareStep Body)) :
    ShareServer Body :=
  steps.foldl (step env) (start credentials)

/-! ### What was stored and served -/

open List

/-- The pushes that were stored, in order. -/
def acceptedPushes (log : List (ShareEvent Body)) : List (VerifiedPush Body) :=
  log.filterMap fun
    | .accepted push => some push
    | .served _ _ => none

/-- The last push that was stored. -/
def lastAccepted (log : List (ShareEvent Body)) : Option (VerifiedPush Body) :=
  (acceptedPushes log).getLast?

/-- A later offer does not contradict an earlier one. -/
structure Updates (a b : CurrentWeightOffer) : Prop where
  scope : b.projection.chainScopeDigest = a.projection.chainScopeDigest
  netuid : b.projection.netuid = a.projection.netuid
  block : a.effectiveBlock ≤ b.effectiveBlock
  agrees : a.effectiveBlock = b.effectiveBlock → a = b

/-- The push carries a MAC that an active secret of the server makes, and its body is the
offer. -/
structure Verified (set : PushCredentialSet) (push : VerifiedPush Body) : Prop where
  known : push.credential ∈ set.credentials
  active : push.credential.status = .active
  named : push.credential.credentialId = push.request.credentialId
  stamped : push.request.timestamp = some push.timestamp
  signed : push.request.signature = env.pushMac push.credential.secret
    (env.pushDigest ⟨push.credential.credentialId, push.timestamp,
      env.bodyDigest push.request.body⟩)
  parsed : env.fromBytes push.request.body = .ok push.offer

/-- The storage holds the last accepted push, accepted pushes were verified and do not contradict
each other, and what is in flight or was sent is what the storage held when it was loaded. -/
structure Intact (P : VerifiedPush Body → Prop) (s : ShareServer Body) : Prop where
  stored : s.storage = (lastAccepted s.log).map (·.envelope env)
  updates : ((acceptedPushes s.log).map (·.offer)).Pairwise Updates
  verified : ∀ push ∈ s.verified ++ acceptedPushes s.log, P push
  loads : ∀ loaded ∈ s.loads, loaded.position ≤ s.log.length ∧
    (lastAccepted (s.log.take loaded.position)).map (·.envelope env) = some loaded.stored
  served : ∀ i offer position, s.log[i]? = some (.served offer position) → position ≤ i ∧
    ∃ push, lastAccepted (s.log.take position) = some push ∧ push.offer = offer

variable {env} {P : VerifiedPush Body → Prop} {s : ShareServer Body} {push : VerifiedPush Body}
  {credentials : Option PushCredentialSet} {offer : CurrentWeightOffer}
  {log : List (ShareEvent Body)} {stored : StoredOffer}

theorem Updates.trans {a b c : CurrentWeightOffer} (hab : Updates a b) (hbc : Updates b c) :
    Updates a c := by
  refine ⟨hbc.scope.trans hab.scope, hbc.netuid.trans hab.netuid,
    Nat.le_trans hab.block hbc.block, fun hac => ?_⟩
  have hle := hab.block
  have hle' := hbc.block
  exact (hab.agrees (by omega)).trans (hbc.agrees (by omega))

theorem receivePush_spec {r : PushRequest Body} {now : ℤ}
    (h : receivePush env credentials r now = .ok push) :
    push.request = r ∧ ∃ set, credentials = some set ∧ Verified env set push := by
  simp only [receivePush, verifyPushRequest, bind_ok, check_ok, get_ok, exists_const] at h
  obtain ⟨set, hset, length, -, -, -, ⟨credential, timestamp⟩, hverify, offer, hparse, -, h⟩ := h
  obtain ⟨-, -, timestamp', hstamped, -, declared, -, -, credential', hcred, -, hsign,
    hverify⟩ := hverify
  cases hverify
  cases h
  obtain ⟨hfound, hact⟩ := Option.filter_eq_some_iff.1 hcred
  have hnamed : credential.credentialId = r.credentialId := by
    simpa using find?_some hfound
  exact ⟨rfl, set, hset, mem_of_find?_eq_some hfound, of_decide_eq_true hact, hnamed,
    hstamped, hsign, hparse⟩

/-- What the storage accepts does not contradict what it holds. -/
theorem putOfferStorage_updates {cur : StoredOffer}
    (h : putOfferStorage (some cur) stored = .ok ()) : Updates cur.offer stored.offer := by
  have hmonotonic : assertMonotonicOfferUpdate cur.offer stored.offer = .ok () := by
    cases cur <;> cases stored
    · exact h
    · exact h
    · cases h
    · exact h
  obtain ⟨⟨hscope, hnetuid⟩, hblk, hagrees⟩ := monotonicOffer_ok.1 hmonotonic
  exact ⟨hscope, hnetuid, hblk, fun heq => (hagrees heq.symm).symm⟩

/-- Only the stored offer is served. -/
theorem serveOffer_eq (h : serveOffer env credentials stored = .ok offer) :
    offer = stored.offer := by
  simp only [serveOffer, bind_ok, exists_check] at h
  obtain ⟨served, hserved, -, h⟩ := h
  cases h
  cases credentials with
  | none =>
    cases stored with
    | unsigned offer =>
      cases hserved
      rfl
    | authenticated envelope => cases hserved
  | some set =>
    cases stored with
    | unsigned offer => cases hserved
    | authenticated envelope =>
      simp only [openStored, verifyAuthenticatedWeightOffer, bind_ok, exists_check] at hserved
      obtain ⟨credential, -, -, hserved⟩ := hserved
      cases hserved
      rfl

@[simp] theorem pushes_accepted :
    acceptedPushes (log ++ [.accepted push]) = acceptedPushes log ++ [push] := by
  simp [acceptedPushes, filterMap_append]

@[simp] theorem pushes_served {position : ℕ} :
    acceptedPushes (log ++ [.served offer position]) = acceptedPushes log := by
  simp [acceptedPushes, filterMap_append]

theorem intact_start : Intact env P (start credentials) :=
  ⟨rfl, .nil, forall_mem_nil _, forall_mem_nil _, fun _ _ _ h => nomatch h⟩

section

variable (h : Intact env P s) {loaded : LoadedOffer}

include h

/-- Dropping requests in flight changes nothing that was stored or served. -/
theorem Intact.of_subset {s' : ShareServer Body} (hstorage : s'.storage = s.storage)
    (hlog : s'.log = s.log) (hverif : ∀ push ∈ s'.verified, push ∈ s.verified)
    (hloads : ∀ loaded ∈ s'.loads, loaded ∈ s.loads) : Intact env P s' := by
  refine ⟨?_, ?_, ?_, ?_, ?_⟩
  · rw [hstorage, hlog]
    exact h.stored
  · rw [hlog]
    exact h.updates
  · obtain ⟨hold, hlogged⟩ := forall_mem_append.1 h.verified
    rw [hlog]
    exact forall_mem_append.2 ⟨fun push hpush => hold push (hverif push hpush), hlogged⟩
  · intro loaded hloaded
    rw [hlog]
    exact h.loads loaded (hloads loaded hloaded)
  · rw [hlog]
    exact h.served

/-- What was loaded stays what the storage held, whatever follows. -/
theorem Intact.loads_snoc (event : ShareEvent Body) (hloaded : loaded ∈ s.loads) :
    loaded.position ≤ (s.log ++ [event]).length ∧
      (lastAccepted ((s.log ++ [event]).take loaded.position)).map (·.envelope env) =
        some loaded.stored := by
  obtain ⟨hle, heq⟩ := h.loads loaded hloaded
  rw [take_append_of_le_length hle, length_append]
  exact ⟨Nat.le_trans hle (Nat.le_add_right _ _), heq⟩

/-- What was sent stays what the storage held, if it is so for the next event. -/
theorem Intact.served_snoc {event : ShareEvent Body}
    (hevent : ∀ offer position, event = .served offer position → position ≤ s.log.length ∧
      ∃ push, lastAccepted (s.log.take position) = some push ∧ push.offer = offer)
    (i : ℕ) (offer : CurrentWeightOffer) (position : ℕ)
    (hi : (s.log ++ [event])[i]? = some (.served offer position)) : position ≤ i ∧
      ∃ push, lastAccepted ((s.log ++ [event]).take position) = some push ∧ push.offer = offer := by
  rcases Nat.lt_or_ge i s.log.length with hlt | hge
  · rw [getElem?_append_left hlt] at hi
    obtain ⟨hle, hlast⟩ := h.served i offer position hi
    rw [take_append_of_le_length (by omega)]
    exact ⟨hle, hlast⟩
  · rw [getElem?_append_right hge] at hi
    obtain ⟨_, hsame⟩ := List.getElem?_eq_some_iff.1 hi
    rw [getElem_singleton] at hsame
    obtain ⟨hle, hlast⟩ := hevent offer position hsame
    rw [take_append_of_le_length hle]
    exact ⟨Nat.le_trans hle hge, hlast⟩

/-- Storing a verified push. -/
theorem Intact.save {out : WriteOutcome} (hP : P push) : Intact env P (s.save env push out) := by
  unfold ShareServer.save
  split_ifs with hsave
  · have hupdates : ∀ early ∈ acceptedPushes s.log, Updates early.offer push.offer := by
      intro early hearly
      rcases eq_nil_or_concat' (acceptedPushes s.log) with hnil | ⟨rest, last, hlast⟩
      · rw [hnil] at hearly
        cases hearly
      · have hstored : s.storage = some (last.envelope env) := by
          rw [h.stored, lastAccepted, hlast, getLast?_concat]
          rfl
        have hput := hsave.2
        rw [hstored] at hput
        have hlatest : Updates last.offer push.offer := putOfferStorage_updates hput
        have hpairs := h.updates
        rw [hlast, map_append, pairwise_append] at hpairs
        rw [hlast] at hearly
        rcases mem_append.1 hearly with hmem | hmem
        · exact (hpairs.2.2 _ (mem_map_of_mem hmem) _ (by simp)).trans hlatest
        · cases mem_singleton.1 hmem
          exact hlatest
    refine ⟨?_, ?_, ?_, ?_, ?_⟩
    · simp [lastAccepted]
    · rw [pushes_accepted, map_append, pairwise_append]
      refine ⟨h.updates, pairwise_singleton _ _, fun a ha b hb => ?_⟩
      obtain ⟨early, hearly, rfl⟩ := mem_map.1 ha
      cases mem_singleton.1 hb
      exact hupdates early hearly
    · rw [pushes_accepted, ← append_assoc]
      exact forall_mem_append.2 ⟨h.verified, forall_mem_singleton.2 hP⟩
    · exact fun loaded hloaded => h.loads_snoc _ hloaded
    · exact h.served_snoc fun _ _ hevent => nomatch hevent
  · exact h

/-- Sending an offer that was loaded. -/
theorem Intact.respond (hloaded : loaded.position ≤ s.log.length ∧
      (lastAccepted (s.log.take loaded.position)).map (·.envelope env) = some loaded.stored) :
    Intact env P (s.respond env loaded) := by
  unfold ShareServer.respond
  cases hserve : serveOffer env s.credentials loaded.stored with
  | error fault => exact h
  | ok offer =>
    obtain ⟨hle, hmap⟩ := hloaded
    obtain ⟨push, hpush, hstored⟩ := Option.map_eq_some_iff.1 hmap
    have hoffer : push.offer = offer := by
      rw [serveOffer_eq hserve, ← hstored]
      rfl
    refine ⟨?_, ?_, ?_, ?_, ?_⟩
    · simp only [lastAccepted, pushes_served]
      exact h.stored
    · rw [pushes_served]
      exact h.updates
    · rw [pushes_served]
      exact h.verified
    · exact fun other hother => h.loads_snoc _ hother
    · refine h.served_snoc fun _ _ hevent => ?_
      cases hevent
      exact ⟨hle, push, hpush, hoffer⟩

/-- One step of any thread. -/
theorem Intact.step {st : ShareStep Body} (hP : ∀ req now push, st = .verify req now →
      receivePush env s.credentials req now = .ok push → P push) :
    Intact env P (s.step env st) := by
  cases st with
  | verify req now =>
    simp only [ShareServer.step]
    cases hreceive : receivePush env s.credentials req now with
    | error fault => exact h
    | ok push =>
      obtain ⟨hold, hlogged⟩ := forall_mem_append.1 h.verified
      have hnew : ∀ push' ∈ [push], P push' := forall_mem_singleton.2 (hP req now push rfl hreceive)
      exact ⟨h.stored, h.updates, forall_mem_append.2
        ⟨forall_mem_append.2 ⟨hold, hnew⟩, hlogged⟩, h.loads, h.served⟩
  | save index out =>
    simp only [ShareServer.step]
    cases hpush : s.verified[index]? with
    | none => exact h
    | some push =>
      refine Intact.save ?_ (h.verified push (mem_append_left _ (mem_of_getElem? hpush)))
      exact h.of_subset rfl rfl (fun _ => mem_of_mem_eraseIdx) fun _ => id
  | load passes =>
    simp only [ShareServer.step]
    cases hstorage : s.storage with
    | none => exact h
    | some stored =>
      dsimp only
      split_ifs
      · rw [← hstorage]
        refine ⟨h.stored, h.updates, h.verified, forall_mem_append.2 ⟨h.loads,
          forall_mem_singleton.2 ⟨Nat.le_refl _, ?_⟩⟩, h.served⟩
        rw [take_length, ← h.stored, hstorage]
      · exact h
  | respond index =>
    simp only [ShareServer.step]
    cases hloaded : s.loads[index]? with
    | none => exact h
    | some loaded =>
      refine Intact.respond ?_ (h.loads loaded (mem_of_getElem? hloaded))
      exact h.of_subset rfl rfl (fun _ => id) fun _ => mem_of_mem_eraseIdx
  | restart credentials =>
    exact h.of_subset rfl rfl (fun _ hmem => nomatch hmem) fun _ hmem => nomatch hmem

theorem Intact.mono {Q : VerifiedPush Body → Prop}
    (hPQ : ∀ push, P push → Q push) : Intact env Q s :=
  ⟨h.stored, h.updates, fun push hpush => hPQ push (h.verified push hpush), h.loads, h.served⟩

end

variable {credentials : Option PushCredentialSet} {steps : List (ShareStep Body)}
  {set : PushCredentialSet}

theorem run_snoc (st : ShareStep Body) :
    run env credentials (steps ++ [st]) = (run env credentials steps).step env st := by
  simp [run]

/-- When the push was verified, its secret was an active one of the server's. -/
def Received (env : ShareEnv Body) (credentials : Option PushCredentialSet)
    (steps : List (ShareStep Body)) (push : VerifiedPush Body) : Prop :=
  ∃ before now set, before ++ [.verify push.request now] <+: steps ∧
    (run env credentials before).credentials = some set ∧ Verified env set push

theorem Received.snoc (st : ShareStep Body) (h : Received env credentials steps push) :
    Received env credentials (steps ++ [st]) push := by
  obtain ⟨before, now, set, hbef, hset⟩ := h
  exact ⟨before, now, set, hbef.trans (prefix_append _ _), hset⟩

/-- Every interleaving. -/
theorem intact_run (steps : List (ShareStep Body)) :
    Intact env (Received env credentials steps) (run env credentials steps) := by
  induction steps using List.reverseRecOn with
  | nil => exact intact_start
  | append_singleton steps st ih =>
    rw [run_snoc]
    refine (ih.mono fun push hpush => hpush.snoc st).step fun req now push hst hreceive => ?_
    obtain ⟨rfl, set, hset, hverif⟩ := receivePush_spec hreceive
    exact ⟨steps, now, set, by rw [hst], hset, hverif⟩

/-! ### Who made the pushes -/

/-- A push made by a holder of a secret. -/
structure HolderPush (Body : Type) where
  secret : String
  credentialId : String
  timestamp : ℤ
  body : Body

/-- What the holder signs. -/
def HolderPush.auth (env : ShareEnv Body) (push : HolderPush Body) : PushAuth :=
  ⟨push.credentialId, push.timestamp, env.bodyDigest push.body⟩

/-- The sets of secrets the server was started with. -/
def startedWith (credentials : Option PushCredentialSet) (steps : List (ShareStep Body)) :
    List PushCredentialSet :=
  credentials.toList ++ steps.filterMap fun
    | .restart credentials => credentials
    | _ => none

/-- Nobody presents a MAC under a secret of the server that no holder of the secret made, and
no request that is presented collides with another push. -/
structure Secure (env : ShareEnv Body) (credentials : Option PushCredentialSet)
    (steps : List (ShareStep Body)) (pushes : List (HolderPush Body)) : Prop where
  unforged : ∀ r now auth, .verify r now ∈ steps → r.auth env = some auth →
    ∀ set ∈ startedWith credentials steps, ∀ credential ∈ set.credentials,
      r.signature = env.pushMac credential.secret (env.pushDigest auth) →
      ∃ held ∈ pushes, held.secret = credential.secret ∧
        env.pushDigest (held.auth env) = env.pushDigest auth
  signing : ∀ r now auth, .verify r now ∈ steps → r.auth env = some auth →
    ∀ held ∈ pushes, env.pushDigest (held.auth env) = env.pushDigest auth → held.auth env = auth
  bodies : ∀ r now, .verify r now ∈ steps → ∀ held ∈ pushes,
    env.bodyDigest held.body = env.bodyDigest r.body → held.body = r.body

/-- The holder made the push. -/
structure MadeBy (held : HolderPush Body) (push : VerifiedPush Body) : Prop where
  secret : held.secret = push.credential.secret
  credentialId : held.credentialId = push.request.credentialId
  timestamp : some held.timestamp = push.request.timestamp
  body : held.body = push.request.body

/-- Only a restart changes the server's secrets. -/
theorem step_credentials (st : ShareStep Body) : (s.step env st).credentials = s.credentials ∨
    ∃ credentials, st = .restart credentials ∧ (s.step env st).credentials = credentials := by
  cases st with
  | restart credentials => exact .inr ⟨credentials, rfl, rfl⟩
  | _ =>
    left
    simp only [step, ShareServer.save, ShareServer.respond]
    repeat' split
    all_goals rfl

/-- The server's secrets are those of one of its starts. -/
theorem credentials_mem_startedWith (h : (run env credentials steps).credentials = some set) :
    set ∈ startedWith credentials steps := by
  induction steps using List.reverseRecOn with
  | nil =>
    change credentials = some set at h
    simp [startedWith, h]
  | append_singleton steps st ih =>
    rw [run_snoc] at h
    simp only [startedWith, filterMap_append, ← append_assoc]
    rcases step_credentials (s := run env credentials steps) st with hsame | ⟨_, rfl, hrestart⟩
    · exact mem_append_left _ (ih (hsame.symm.trans h))
    · rw [hrestart] at h
      exact mem_append_right _ (by simp [h])

/-- A verified push was made by a holder of its secret. -/
theorem Received.madeBy {pushes : List (HolderPush Body)}
    (hsecure : Secure env credentials steps pushes) (h : Received env credentials steps push) :
    ∃ held ∈ pushes, MadeBy held push := by
  obtain ⟨before, now, set, hbef, hset, hverif⟩ := h
  have hmem : .verify push.request now ∈ steps :=
    hbef.subset (mem_append_right _ (mem_singleton_self _))
  have hknown : set ∈ startedWith credentials steps := by
    obtain ⟨after, rfl⟩ := (prefix_append _ _).trans hbef
    rw [startedWith, filterMap_append, ← append_assoc]
    exact mem_append_left _ (credentials_mem_startedWith hset)
  have hauth : push.request.auth env = some ⟨push.credential.credentialId, push.timestamp,
      env.bodyDigest push.request.body⟩ := by
    rw [PushRequest.auth, hverif.stamped, hverif.named]
    rfl
  obtain ⟨held, hheld, hsecret, hdig⟩ :=
    hsecure.unforged _ now _ hmem hauth set hknown _ hverif.known hverif.signed
  have hsame : held.auth env = _ := hsecure.signing _ now _ hmem hauth held hheld hdig
  injection hsame with hname hstamp hbody
  refine ⟨held, hheld, hsecret, hname.trans hverif.named, ?_, ?_⟩
  · rw [hstamp, hverif.stamped]
  · exact hsecure.bodies _ now hmem held hheld hbody

/-- **In every interleaving the storage holds the last accepted push under the server's own MAC,
accepted offers do not contradict each other, every accepted push was made by a holder of a
secret that was active then, and every offer sent is the last one accepted when it was loaded.** -/
theorem share_intact (env : ShareEnv Body) (credentials : Option PushCredentialSet)
    (steps : List (ShareStep Body)) (pushes : List (HolderPush Body))
    (hsecure : Secure env credentials steps pushes) :
    (run env credentials steps).storage =
      (lastAccepted (run env credentials steps).log).map (·.envelope env) ∧
    ((acceptedPushes (run env credentials steps).log).map (·.offer)).Pairwise Updates ∧
    (∀ push ∈ acceptedPushes (run env credentials steps).log,
      Received env credentials steps push ∧ ∃ held ∈ pushes, MadeBy held push) ∧
    ∀ i offer position,
      (run env credentials steps).log[i]? = some (.served offer position) → position ≤ i ∧
        ∃ push, lastAccepted ((run env credentials steps).log.take position) = some push ∧
          push.offer = offer := by
  have hintact : Intact env (Received env credentials steps) (run env credentials steps) :=
    intact_run steps
  refine ⟨hintact.stored, hintact.updates, fun push hpush => ?_, hintact.served⟩
  have hrecv := hintact.verified push (mem_append_right _ hpush)
  exact ⟨hrecv, hrecv.madeBy hsecure⟩

end ShareServer

end Server

namespace ShareSample

open ShareServer List

def offer (block : ℕ) : CurrentWeightOffer := .fromLegacyProjection (sampleProjection block)

/-- A server whose bodies are block numbers. -/
def env : ShareEnv ℕ where
  bodyDigest block := .ofNat block
  bodyLength _ := 2
  fromBytes block := .ok (offer block)
  offerDigest o := .ofNat o.effectiveBlock
  pushDigest auth := auth.bodyDigest
  storageDigest _ digest := digest
  pushMac secret _ := secret
  storageMac secret _ := secret
  netuid := 1
  maxSkewSeconds := 60

/-- One active secret. -/
def credentials : PushCredentialSet where
  credentials := [⟨"main", "secret", .active⟩]
  distinct := nodup_singleton _
  someActive := ⟨_, mem_singleton_self _, rfl⟩

def request (block : ℕ) : PushRequest ℕ where
  contentLength := some 2
  body := block
  credentialId := "main"
  timestamp := some 1000
  declaredDigest := some (.ofNat block)
  signature := "secret"

/-- Two pushes, a replay of the first, and a fetch. -/
def steps : List (ShareStep ℕ) :=
  [.verify (request 100) 1000, .save 0 .written, .verify (request 101) 1000, .save 0 .written,
    .verify (request 100) 1010, .save 0 .written, .load true, .respond 0]

def pushes : List (HolderPush ℕ) := [⟨"secret", "main", 1000, 100⟩, ⟨"secret", "main", 1000, 101⟩]

/-- The blocks of the offers that were stored, and of those that were sent. -/
def blocks (log : List (ShareEvent ℕ)) : List (ℕ × Bool) :=
  log.map fun
    | .accepted push => (push.offer.effectiveBlock, true)
    | .served offer _ => (offer.effectiveBlock, false)

theorem mem_steps {r : PushRequest ℕ} {now : ℤ} (h : .verify r now ∈ steps) :
    r = request 100 ∨ r = request 101 := by
  simp only [steps, mem_cons, ShareStep.verify.injEq, reduceCtorEq, false_or,
    not_mem_nil, or_false] at h
  rcases h with ⟨rfl, -⟩ | ⟨rfl, -⟩ | ⟨rfl, -⟩ <;> simp

theorem share_intact_sample : Secure env (some credentials) steps pushes ∧
      blocks (run env (some credentials) steps).log = [(100, true), (101, true), (101, false)] ∧
      ∀ push ∈ acceptedPushes (run env (some credentials) steps).log,
        ∃ held ∈ pushes, MadeBy held push := by
  have hsecure : Secure env (some credentials) steps pushes := by
    refine ⟨fun r now auth hr hauth set hset credential hcred _ => ?_,
      fun r now auth hr hauth => ?_, fun r now hr => ?_⟩
    · have hsecret : credential.secret = "secret" := by
        have hset' : set = credentials := by simpa [startedWith, steps] using hset
        rw [hset'] at hcred
        rw [mem_singleton.1 hcred]
      rcases mem_steps hr with rfl | rfl <;> cases hauth
      · exact ⟨_, mem_cons_self, hsecret.symm, rfl⟩
      · exact ⟨_, mem_cons_of_mem _ mem_cons_self, hsecret.symm, rfl⟩
    · rcases mem_steps hr with rfl | rfl <;> cases hauth <;> decide
    · rcases mem_steps hr with rfl | rfl <;> decide
  refine ⟨hsecure, by decide, fun push hpush => ?_⟩
  exact ((share_intact env (some credentials) steps pushes hsecure).2.2.1 push hpush).2

end ShareSample

end Cacheon
