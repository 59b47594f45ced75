import Cacheon.Weights.Share

/-!
# Who may fetch an offer

A validator signs its request for the current offer, and the server looks it up in a finalized
metagraph.  The columns of the metagraph are aligned by position, in whatever order the UIDs come;
the permit is looked up at the position of the UID.

* `FetchServer.doGet` : the handler of a fetch.
* `FetchServer.Guarded` : offers go to the holders of a permit, and to all of them.
* `FetchServer.guarded_iff` : they do if and only if the entry at the UID is the entry of the row.
-/

namespace Cacheon

open Fallible

/-- The columns of a finalized metagraph. -/
structure PermitView where
  uids : List ℕ
  hotkeys : List Hotkey
  validatorPermit : List Bool
  width : uids.length = hotkeys.length ∧ hotkeys.length = validatorPermit.length
  distinct : uids.Nodup ∧ hotkeys.Nodup
  named : "" ∉ hotkeys

namespace PermitView

variable (view : PermitView) (hotkey : Hotkey)

/-- The UID of a hotkey. -/
def uidOf : Option ℕ := (view.hotkeys.idxOf? hotkey).bind (view.uids[·]?)

/-- The entry in the hotkey's own row. -/
def ownPermit : Option Bool := (view.hotkeys.idxOf? hotkey).bind (view.validatorPermit[·]?)

/-- The UID of a hotkey that holds a permit, as the server reads it. -/
def assertValidatorPermit : ShareM ℕ := do
  check (isSignerName hotkey) ⟨"permit hotkey is malformed"⟩
  let uid ← get ⟨"hotkey is not registered on the metagraph"⟩ (view.uidOf hotkey)
  check (view.validatorPermit[uid]? = some true) ⟨"hotkey does not currently hold validator_permit"⟩
  .ok uid

variable {view hotkey} {uid : ℕ}

theorem validatorPermit_ok : view.assertValidatorPermit hotkey = .ok uid ↔
    isSignerName hotkey ∧ view.uidOf hotkey = some uid ∧
      view.validatorPermit[uid]? = some true := by
  simp only [assertValidatorPermit, bind_ok, exists_check, get_ok, Except.ok.injEq]
  constructor
  · rintro ⟨hname, _, huid, hpermit, rfl⟩
    exact ⟨hname, huid, hpermit⟩
  · rintro ⟨hname, huid, hpermit⟩
    exact ⟨hname, uid, huid, hpermit, rfl⟩

/-- A row has an entry in every column. -/
theorem exists_uid {permit : Bool} (h : view.ownPermit hotkey = some permit) :
    ∃ uid, view.uidOf hotkey = some uid := by
  obtain ⟨i, hi, hpermit⟩ := Option.bind_eq_some_iff.1 h
  obtain ⟨hlt, -⟩ := List.getElem?_eq_some_iff.1 hpermit
  rw [← view.width.2, ← view.width.1] at hlt
  exact ⟨_, Option.bind_eq_some_iff.2 ⟨i, hi, List.getElem?_eq_getElem hlt⟩⟩

end PermitView

/-- What a fetch signs, besides the route. -/
structure FetchAuth where
  hotkey : Hotkey
  netuid : ℕ
  timestamp : ℤ

/-- A fetch as it arrives, with the headers that are read; one that is absent is empty. -/
structure FetchRequest where
  path : String
  hotkey : Hotkey
  timestamp : String
  signature : String
  netuid : String

/-- The answer to a fetch that gets no offer, by its status. -/
inductive FetchFault where
  | notFound
  | forbidden (fault : ShareFault)
  | unavailable (text : String)
  | internal
deriving DecidableEq

/-- A server with what it takes from elsewhere. -/
structure FetchServer (Body : Type) where
  env : ShareEnv Body
  /-- `int` of a text. -/
  readInt : String → Option ℤ
  requestDigest : FetchAuth → Digest
  /-- The wallet's check of a signature, or the text of its exception. -/
  verify : Hotkey → Digest → String → Except String Bool

namespace FetchServer

variable {Body : Type} (s : FetchServer Body)

/-- The timestamp is within the skew of the clock. -/
def assertFreshTimestamp (timestamp now : ℤ) : ShareM Unit := do
  check (0 < timestamp) ⟨"timestamp is malformed"⟩
  check (0 < now) ⟨"clock reading is malformed"⟩
  check (0 < s.env.maxSkewSeconds ∧ s.env.maxSkewSeconds ≤ 600)
    ⟨"timestamp skew bound is malformed"⟩
  check (|now - timestamp| ≤ s.env.maxSkewSeconds) ⟨"timestamp is outside the accepted skew window"⟩

/-- The digest that a request signs. -/
def requestAuthDigest (auth : FetchAuth) : ShareM Digest := do
  check (isSignerName auth.hotkey) ⟨"request hotkey is malformed"⟩
  check (0 < auth.timestamp) ⟨"request timestamp is malformed"⟩
  .ok (s.requestDigest auth)

/-- An even number of 64 to 256 hexadecimal digits. -/
def isSignature (signature : String) : Prop :=
  64 ≤ signature.length ∧ signature.length ≤ 256 ∧ signature.length % 2 = 0 ∧
    signature.toList.all Digest.isHexDigit

instance : DecidablePred isSignature := fun _ => instDecidableAnd

/-- The hotkey signed the digest. -/
def verifyAuthDigest (hotkey : Hotkey) (digest : Digest) (signature : String) :
    ShareM Unit := do
  check (isSignature signature) ⟨"weight-share signature encoding is malformed"⟩
  let ok ← (s.verify hotkey digest signature).mapError fun text =>
    ⟨"weight-share signature verification failed: " ++ text⟩
  check (ok = true) ⟨"weight-share signature is invalid"⟩

/-- The handler of a fetch, up to the metagraph. -/
def authenticateFetch (r : FetchRequest) (now : ℤ) : ShareM Unit := do
  check (r.netuid = toString s.env.netuid) ⟨"request netuid header mismatch"⟩
  let timestamp ← get ⟨"request timestamp is malformed"⟩ (s.readInt r.timestamp)
  s.assertFreshTimestamp timestamp now
  let digest ← s.requestAuthDigest ⟨r.hotkey, s.env.netuid, timestamp⟩
  s.verifyAuthDigest r.hotkey digest r.signature

/-- The part of the path before the query is the route. -/
def onRoute (r : FetchRequest) : Prop :=
  r.path.toList.takeWhile (· ≠ '?') = "/v1/current-weights".toList

instance : DecidablePred onRoute := fun _ => inferInstanceAs (Decidable (_ = _))

/-- What the handler reads during a fetch: the metagraph, the stored value, and the authority's
signature of the response; another exception than a `WeightShareError` is `none`. -/
structure FetchReadings where
  metagraph : Option PermitView
  stored : Except FetchFault StoredOffer
  sign : CurrentWeightOffer → ShareM Unit

/-- The handler of a fetch. -/
def doGet (credentials : Option PushCredentialSet) (reads : FetchReadings) (r : FetchRequest)
    (now : ℤ) : Except FetchFault CurrentWeightOffer := do
  check (onRoute r) .notFound
  (s.authenticateFetch r now).mapError .forbidden
  let metagraph ← get .internal reads.metagraph
  let _ ← (metagraph.assertValidatorPermit r.hotkey).mapError .forbidden
  let stored ← reads.stored
  let offer ← (serveOffer s.env credentials stored).mapError .forbidden
  (reads.sign offer).mapError .forbidden
  .ok offer

/-- The request is on the route and carries the hotkey's signature over the server's netuid and a
timestamp within the skew. -/
def Signed (r : FetchRequest) (now : ℤ) : Prop :=
  onRoute r ∧ r.netuid = toString s.env.netuid ∧ isSignerName r.hotkey ∧ 0 < now ∧
    (0 < s.env.maxSkewSeconds ∧ s.env.maxSkewSeconds ≤ 600) ∧ isSignature r.signature ∧
    ∃ timestamp, s.readInt r.timestamp = some timestamp ∧ 0 < timestamp ∧
      |now - timestamp| ≤ s.env.maxSkewSeconds ∧
      s.verify r.hotkey (s.requestDigest ⟨r.hotkey, s.env.netuid, timestamp⟩) r.signature = .ok true

/-- An offer goes to a signed request of a hotkey whose own entry is true, and no such request is
refused for lack of a permit. -/
def Guarded (view : PermitView) (r : FetchRequest) (now : ℤ) : Prop :=
  (∀ credentials reads offer, reads.metagraph = some view →
    s.doGet credentials reads r now = .ok offer →
      s.Signed r now ∧ view.ownPermit r.hotkey = some true) ∧
  (s.Signed r now → view.ownPermit r.hotkey = some true →
    ∃ uid, view.assertValidatorPermit r.hotkey = .ok uid)

variable {s} {r : FetchRequest} {now : ℤ} {view : PermitView}

theorem signed_iff : s.Signed r now ↔ onRoute r ∧ s.authenticateFetch r now = .ok () := by
  simp only [Signed, authenticateFetch, assertFreshTimestamp, requestAuthDigest,
    verifyAuthDigest, bind_ok, check_ok, get_ok, mapError_ok, exists_const,
    Except.ok.injEq]
  constructor
  · rintro ⟨hroute, hnetuid, hname, hnow, hskew, hencoding, t, ht, hpos, hfresh, hverify⟩
    exact ⟨hroute, hnetuid, t, ht, ⟨hpos, hnow, hskew, hfresh⟩, _, ⟨hname, hpos, rfl⟩, hencoding,
      true, hverify, rfl⟩
  · rintro ⟨hroute, hnetuid, t, ht, ⟨hpos, hnow, hskew, hfresh⟩, _, ⟨hname, -, rfl⟩, hencoding,
      _, hverify, rfl⟩
    exact ⟨hroute, hnetuid, hname, hnow, hskew, hencoding, t, ht, hpos, hfresh, hverify⟩

/-- A signed request whose hotkey passes the lookup gets an offer. -/
theorem exists_doGet {uid : ℕ} (hsign : s.Signed r now)
    (hpermit : view.assertValidatorPermit r.hotkey = .ok uid) :
    ∃ reads offer, reads.metagraph = some view ∧ s.doGet none reads r now = .ok offer := by
  obtain ⟨hroute, hauth⟩ := signed_iff.1 hsign
  let offer : CurrentWeightOffer := .fromLegacyProjection
    { (ShareSample.offer 0).projection with netuid := s.env.netuid }
  refine ⟨⟨some view, .ok (.unsigned offer), fun _ => .ok ()⟩, offer, rfl, ?_⟩
  simp only [doGet, bind_ok, check_ok, get_ok, mapError_ok, exists_const]
  refine ⟨hroute, (), hauth, view, rfl, uid, hpermit, _, rfl, offer, ?_, trivial, rfl⟩
  exact bind_ok.2 ⟨offer, rfl, bind_ok.2 ⟨(), check_of rfl, rfl⟩⟩

/-- **The permit of another row.**  For every metagraph, offers go to the holders of a permit and
to all of them if and only if the entry at the position of the UID is the entry of the row. -/
theorem guarded_iff (s : FetchServer Body) (view : PermitView) (r : FetchRequest) (now : ℤ) :
    s.Guarded view r now ↔ (s.Signed r now → ∀ uid, view.uidOf r.hotkey = some uid →
      (view.validatorPermit[uid]? = some true ↔ view.ownPermit r.hotkey = some true)) := by
  constructor
  · rintro ⟨hserved, hadm⟩ hsign uid huid
    constructor
    · intro hentry
      have hpermit := PermitView.validatorPermit_ok.2 ⟨hsign.2.2.1, huid, hentry⟩
      obtain ⟨reads, offer, hview, hoffer⟩ := exists_doGet hsign hpermit
      exact (hserved none reads offer hview hoffer).2
    · intro hown
      obtain ⟨uid', hpermit⟩ := hadm hsign hown
      obtain ⟨-, huid', hentry⟩ := PermitView.validatorPermit_ok.1 hpermit
      rwa [Option.some.inj (huid.symm.trans huid')]
  · intro hrow
    refine ⟨fun credentials reads offer hview hoffer => ?_, fun hsign hown => ?_⟩
    · simp only [doGet, bind_ok, check_ok, get_ok, mapError_ok, exists_const] at hoffer
      obtain ⟨hroute, _, hauth, _, hmetagraph, uid, hpermit, -⟩ := hoffer
      cases hview.symm.trans hmetagraph
      have hsign := signed_iff.2 ⟨hroute, hauth⟩
      obtain ⟨-, huid, hentry⟩ := PermitView.validatorPermit_ok.1 hpermit
      exact ⟨hsign, (hrow hsign uid huid).1 hentry⟩
    · obtain ⟨uid, huid⟩ := PermitView.exists_uid hown
      exact ⟨uid, PermitView.validatorPermit_ok.2 ⟨hsign.2.2.1, huid, (hrow hsign uid huid).2 hown⟩⟩

end FetchServer

namespace PermitSample

/-- Two neurons whose UIDs are not their positions; the first one holds a permit. -/
def view : PermitView where
  uids := [1, 0]
  hotkeys := ["alice", "bob"]
  validatorPermit := [true, false]
  width := ⟨rfl, rfl⟩
  distinct := by decide
  named := by decide

/-- A server that takes every signature. -/
def server : FetchServer ℕ where
  env := ShareSample.env
  readInt _ := some 1000
  requestDigest _ := .ofNat 1
  verify _ _ _ := .ok true

def request (hotkey : Hotkey) : FetchRequest where
  path := "/v1/current-weights"
  hotkey := hotkey
  timestamp := "1000"
  signature := String.ofList (List.replicate 64 'a')
  netuid := "1"

def reads : FetchServer.FetchReadings :=
  ⟨some view, .ok (.unsigned (ShareSample.offer 100)), fun _ => .ok ()⟩

/-- The holder of the permit is refused, and the other hotkey gets the offer. -/
theorem permit_of_another_row :
    server.Signed (request "alice") 1000 ∧ view.ownPermit "alice" = some true ∧
      server.doGet none reads (request "alice") 1000 =
        .error (.forbidden ⟨"hotkey does not currently hold validator_permit"⟩) ∧
      view.ownPermit "bob" = some false ∧
      server.doGet none reads (request "bob") 1000 = .ok (ShareSample.offer 100) :=
  ⟨FetchServer.signed_iff.2 (by decide), by decide, by decide, by decide, by decide⟩

end PermitSample

end Cacheon
