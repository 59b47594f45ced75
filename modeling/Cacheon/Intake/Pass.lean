import Cacheon.Intake.Leases
import Cacheon.Lib.JsonText

/-!
# The intake pass

One pass of the validator fetches the pending submissions one after the other, publishes them and
demotes copies.  What a miner's server and archive do to the pass comes in as the outcome of the
fetch, the fingerprint, the manifest and the publication, each with the text of its exception.

* `Submission` : the outcome for one reservation.
* `Store.processReservation` : one round of the loop; an exception that is not caught stops the
  pass and leaves the row where it was.
* `Store.runPass` : the pass from the pending reservations to its end.
* `Store.Harmless` : no outcome of the pass has a text that the store refuses, and none turns work
  under an evaluation lease into a copy.
* `Store.isolated_iff` : the pass settles every submission on its own exactly then.
-/

namespace Cacheon

open Fallible IntakeFault JsonText List Option Table

/-- An exception that ends a pass. -/
inductive PassFault where
  | store (fault : IntakeFault)
  /-- `UnicodeEncodeError`: a surrogate in a text that is to be stored. -/
  | encode
deriving DecidableEq

/-- The competition that a manifest selects. -/
def ArenaSelector := {name : String // name ≠ "" → Store.isArenaId name = true}

/-- What becomes of a submission outside of the store. -/
inductive Submission where
  /-- `FetchTransientError` -/
  | transient (text : Text)
  /-- `FetchError` -/
  | refused (text : Text)
  /-- `OSError`, `TypeError` or `ValueError` of the fingerprint or the manifest. -/
  | unfit (text : Text)
  /-- `WorkerBundleSourceError` -/
  | source (text : Text)
  /-- `WorkerBundlePublicationError` -/
  | storage (text : Text)
  | sound (fingerprint : SubmittedDeltaFingerprint) (publication : Digest) (root : String)
      (arena : ArenaSelector)

namespace Store

variable {K : IntakeHashes} (s : Store K) (id : Digest) {text : Text}

/-! ### The loop -/

/-- A text as the database stores it. -/
def storedText (text : Text) : Except PassFault String :=
  Fallible.get .encode ((text.mapM scalar?).map String.ofList)

/-- `markFailed` with the text of an exception. -/
def failWith (reason : Text) : Except PassFault (Store K) := do
  let reason ← storedText reason
  (s.markFailed id reason).mapError .store

/-- The reason a retry stores: none of its own when the retries are used up. -/
def retryReason (row : IntakeReservation) (reason : Text) : Except PassFault String :=
  if s.policy.maxTransportRetries ≤ row.transportAttempts then .ok "" else storedText reason

/-- `markTransportRetry` with the text of an exception. -/
def retryWith (reason : Text) : Except PassFault (Store K) := do
  let row ← (s.get id).mapError .store
  let reason ← s.retryReason row reason
  (s.markTransportRetry id reason).mapError .store

/-- What the loop does with the outcome of an active transport. -/
def settle : Submission → Except PassFault (Store K)
  | .transient text => s.retryWith id text
  | .refused text => s.failWith id (ascii "fetch:" ++ text)
  | .unfit text => s.failWith id (ascii "manifest:" ++ text)
  | .source text => s.failWith id (ascii "publication_source:" ++ text)
  | .storage text => s.retryWith id (ascii "publication:" ++ text)
  | .sound fingerprint publication root arena =>
    (s.markPublished id fingerprint publication root arena.1).mapError .store

/-- One round of the loop.  The transport is marked in a transaction of its own. -/
def processReservation (x : Submission) : Store K × Option PassFault :=
  match s.markFetching id with
  | .error fault => (s, some (.store fault))
  | .ok active =>
    if (active.reservations.find? id).map (·.status) = some .fetching then
      match active.settle id x with
      | .error fault => (active, some fault)
      | .ok settled => (settled, none)
    else (active, none)

/-- The loop over the pending reservations. -/
def processAll (contents : Digest → Submission) : List Digest → Store K → Store K × Option PassFault
  | [], s => (s, none)
  | id :: ids, s => match s.processReservation id (contents id) with
    | (s', some fault) => (s', some fault)
    | (s', none) => processAll contents ids s'

/-- The reservation waits for its transport. -/
def Awaits (r : IntakeReservation) : Prop :=
  r.status ∈ [.reserved, .transportRetry] ∧ r.transportAttempts < s.policy.maxTransportRetries

instance : DecidablePred s.Awaits := fun r => by
  unfold Awaits
  infer_instance

/-- The first reservations in finalized order that wait for their transport. -/
def pendingIds (limit : ℕ) : List Digest :=
  ((s.all.filter s.Awaits).take limit).map (·.reservationId K)

/-! ### The pass -/

/-- The names of the validator's own bundles, by their fingerprints. -/
abbrev References := SubmittedDeltaFingerprint → Option String

/-- Demote one reservation that copies a bundle of the validator.  A refusal of the store is
logged and passed over. -/
def demoteReferenceCopy (reference : References) (s : Store K) (row : IntakeReservation) :
    Intake (Store K) :=
  match row.deltaFingerprint.bind reference with
  | none => .ok s
  | some name =>
    if row.status ∈ [.failed, .expired] then .ok s
    else match s.markReferenceCopy (row.reservationId K) name with
      | .error (.intake _) => .ok s
      | result => result

/-- Demote every unresolved copy of a bundle of the validator. -/
def reconcileReferenceCopies (reference : References) : Store K × Option IntakeFault :=
  transactions (demoteReferenceCopy reference) s.all s

/-- The pass, once the arrivals are reserved. -/
def runPass (contents : Digest → Submission) (reference : References) :
    Store K × Option PassFault :=
  match s.pending s.policy.maxCohort with
  | .error fault => (s, some (.store fault))
  | .ok started =>
    match processAll contents (started.pendingIds s.policy.maxCohort) started with
    | (s', some fault) => (s', some fault)
    | (looped, none) => match looped.reconcileCopies with
      | (s', .error fault) => (s', some (.store fault))
      | (resolved, .ok _) =>
        let (s', raised) := resolved.reconcileReferenceCopies reference
        (s', raised.map .store)

/-- The reservations that the pass processes. -/
def processed : List Digest :=
  match s.pending s.policy.maxCohort with
  | .error _ => []
  | .ok started => started.pendingIds s.policy.maxCohort

/-! ### Texts -/

/-- The store takes the text as a reason. -/
def Storable (text : Text) : Prop := text.length ≤ 2048 ∧ ∀ c ∈ text, (scalar? c).isSome

theorem mapM_scalar (text : Text) :
    (∃ chars, text.mapM scalar? = some chars ∧ chars.length = text.length ∧
      ∀ c ∈ text, (scalar? c).isSome) ∨
    text.mapM scalar? = none ∧ ¬ ∀ c ∈ text, (scalar? c).isSome := by
  induction text with
  | nil => exact .inl ⟨[], rfl, rfl, by simp⟩
  | cons c text ih =>
    cases hc : scalar? c with
    | none => exact .inr ⟨by simp [hc], by simp [hc]⟩
    | some d =>
      rcases ih with ⟨chars, hchars, hlen, hall⟩ | ⟨hnone, hnot⟩
      · exact .inl ⟨d :: chars, by simp [hc, hchars], by simp [hlen], by simpa [hc] using hall⟩
      · exact .inr ⟨by simp [hc, hnone], by simpa [hc] using hnot⟩

/-- A text that the store takes, and one that it refuses. -/
theorem storedText_cases (text : Text) :
    (∃ reason, storedText text = .ok reason ∧ (reason.length ≤ 2048 ↔ Storable text)) ∨
      storedText text = .error .encode ∧ ¬ Storable text := by
  rcases mapM_scalar text with ⟨chars, hchars, hlen, h⟩ | ⟨hnone, hnot⟩
  · refine .inl ⟨String.ofList chars, by simp [storedText, hchars, Fallible.get], ?_⟩
    rw [String.length_ofList, hlen]
    exact ⟨fun hle => ⟨hle, h⟩, fun hs => hs.1⟩
  · exact .inr ⟨by simp [storedText, hnone, Fallible.get], fun hs => hnot hs.2⟩

end Store

namespace Submission

/-- The store takes what the outcome gives it; `last` says that no retry is left. -/
def Fits (last : Prop) : Submission → Prop
  | .transient text => last ∨ Store.Storable text
  | .refused text => Store.Storable (ascii "fetch:" ++ text)
  | .unfit text => Store.Storable (ascii "manifest:" ++ text)
  | .source text => Store.Storable (ascii "publication_source:" ++ text)
  | .storage text => last ∨ Store.Storable (ascii "publication:" ++ text)
  | .sound .. => True

/-- The fingerprint that the outcome publishes. -/
def delta : Submission → Option SubmittedDeltaFingerprint
  | .sound fingerprint .. => some fingerprint
  | _ => none

end Submission

namespace Store

variable {K : IntakeHashes} {s s' s'' started : Store K} {id : Digest} {r : IntakeReservation}
  {x : Submission} {f : IntakeReservation → Work} {ids : List Digest}
  {contents : Digest → Submission}

/-! ### One reservation -/

/-- The statuses that a processed reservation is left in. -/
def settledStatuses : List Status := [.published, .failed, .held, .transportRetry]

/-- One reservation is settled, and nothing else changed. -/
structure Settled (s s' : Store K) (id : Digest) (x : Submission) : Prop where
  row : ∃ r r', s.reservations.find? id = some r ∧
    s'.reservations.find? id = some r' ∧ r'.arrival = r.arrival ∧
    r'.status ∈ settledStatuses ∧ r'.deltaFingerprint = x.delta.or r.deltaFingerprint
  others : ∀ k ≠ id, s'.reservations.find? k = s.reservations.find? k
  leases : s'.leases = s.leases
  policy : s'.policy = s.policy

/-- The reservation is settled if the store takes what it is given, and the pass ends otherwise. -/
structure Settles (s : Store K) (id : Digest) (x : Submission) (fits : Prop)
    (result : Except PassFault (Store K)) : Prop where
  settled : fits → ∃ s', result = .ok s' ∧ Settled s s' id x
  raised : ¬ fits → ∃ fault, result = .error fault

theorem settled_map (hrow : s.reservations.find? id = some r)
    (hstat : (f r).status ∈ settledStatuses)
    (hdelta : (f r).deltaFingerprint = x.delta.or r.deltaFingerprint) :
    Settled s (s.mapReservation id f) id x where
  row := by
    refine ⟨r, r.withWork (f r), hrow, ?_, rfl, hstat, hdelta⟩
    rw [find?_mapReservations, hrow, map_some, if_pos (find?_eq_some.1 hrow).2]
  others k hk := find?_mapReservations.trans (map_of_key_ne hk)
  leases := rfl
  policy := rfl

section Free

variable (hidle : s.authority = []) (hfree : s.leased id = false)
  (hrow : s.reservations.find? id = some r)

include hidle hfree hrow

/-- A change of status under a text of any length. -/
theorem transition_of_text {expected : List Status} {status : Status}
    (decision : Option QualificationDecision) (hexpect : r.status ∈ expected)
    (hstat : status ∈ settledStatuses) (hdelta : x.delta = none) (text : Text) :
    Settles s id x (Storable text) (do
      let reason ← storedText text
      (s.transition id expected status decision reason).mapError PassFault.store) := by
  rcases storedText_cases text with ⟨reason, hreason, hlen⟩ | ⟨href, hnot⟩
  · simp only [hreason, bind, Except.bind]
    refine ⟨fun hs => ?_, fun hs => ?_⟩
    · rw [transition_eq hidle hrow hexpect (hlen.2 hs), hfree]
      exact ⟨_, rfl, settled_map hrow hstat (by simp [hdelta])⟩
    · have hlong : ¬ reason.length ≤ 2048 := fun h => hs (hlen.1 h)
      refine ⟨.store (intake "intake transition is malformed"), ?_⟩
      simp [transition, check, hlong, bind, Except.bind, Except.mapError]
  · simp only [href, bind, Except.bind]
    exact ⟨fun hs => absurd hs hnot, fun _ => ⟨.encode, rfl⟩⟩

section

variable (hstat : r.status = .fetching)

include hstat

theorem retryWith_spec (hdelta : x.delta = none) (text : Text) :
    Settles s id x (s.policy.maxTransportRetries ≤ r.transportAttempts ∨ Storable text)
      (s.retryWith id text) := by
  have hget : s.get id = .ok r := get_iff.2 hrow
  have hexpect : r.status ∈ [.fetching] := by simp [hstat]
  by_cases hlast : s.policy.maxTransportRetries ≤ r.transportAttempts
  · refine ⟨fun _ => ?_, fun h => absurd (.inl hlast) h⟩
    have hshort : ("transport_retry_limit" : String).length ≤ 2048 := by decide
    have hheld : s.retryWith id text = .ok (s.mapReservation id
        fun r => { r.toWork with
          status := .held, decision := none, reason := "transport_retry_limit"
          qualificationEvidenceDigest := none }) := by
      simp only [retryWith, hget, retryReason, hlast, if_true, markTransportRetry, bind,
        Except.bind, Except.mapError, transition_eq hidle hrow hexpect hshort, hfree,
        Bool.false_eq_true, if_false]
    refine ⟨_, hheld, settled_map hrow ?_ (by simp [hdelta])⟩
    show .held ∈ settledStatuses
    decide
  · have hspec := transition_of_text hidle hfree hrow none hexpect
      (by decide : .transportRetry ∈ settledStatuses) hdelta text
    have heq : s.retryWith id text = (do
        let reason ← storedText text
        (s.transition id [.fetching] .transportRetry none reason).mapError PassFault.store) := by
      simp only [retryWith, hget, retryReason, hlast, if_false, markTransportRetry, bind,
        Except.bind, Except.mapError]
    rw [heq]
    simpa only [hlast, false_or] using hspec

theorem failWith_spec (hdelta : x.delta = none) (text : Text) :
    Settles s id x (Storable text) (s.failWith id text) :=
  transition_of_text hidle hfree hrow _ (by simp [hstat]) (by decide) hdelta text

theorem markPublished_settles (fingerprint : SubmittedDeltaFingerprint) (publication : Digest)
    (root : String) (arena : ArenaSelector) :
    ∃ s', s.markPublished id fingerprint publication root arena.1 = .ok s' ∧
      Settled s s' id (.sound fingerprint publication root arena) := by
  have hget : s.get id = .ok r := get_iff.2 hrow
  have harena : s.publicationArena arena.1 =
      .ok (if s.legacyArena = some arena.1 then "" else arena.1) := by
    simp only [publicationArena, check_of arena.2]
    rfl
  simp only [markPublished, harena, hget, check_of hstat, updateReservation_eq hidle hfree, bind,
    Except.bind]
  refine ⟨_, rfl, settled_map hrow ?_ rfl⟩
  dsimp only
  split_ifs <;> decide

theorem settle_spec : Settles s id x (x.Fits (s.policy.maxTransportRetries ≤ r.transportAttempts))
      (s.settle id x) := by
  cases x with
  | transient text => exact retryWith_spec hidle hfree hrow hstat rfl text
  | refused | unfit | source => exact failWith_spec hidle hfree hrow hstat rfl _
  | storage text => exact retryWith_spec hidle hfree hrow hstat rfl _
  | sound fingerprint publication root arena =>
    obtain ⟨s', hs', hsettled⟩ :=
      markPublished_settles hidle hfree hrow hstat fingerprint publication root arena
    refine ⟨fun _ => ⟨s', ?_, hsettled⟩, fun h => absurd trivial h⟩
    simp only [settle, hs', Except.mapError]

end

end Free

theorem LeasesHold.free (hs : s.LeasesHold) (hidle : s.authority = [])
    (hrow : s.reservations.find? id = some r)
    (hstat : r.status ∉ [.published, .reproductionPending]) : s.leased id = false := by
  by_contra hlease
  obtain ⟨r', hr', hstat'⟩ := hs.status (by simpa using hlease) (by rw [hidle]; simp)
  obtain rfl := mem_unique hrow hr'
  exact hstat hstat'

theorem Awaits.not_claimable (h : s.Awaits r) : r.status ∉ [.published, .reproductionPending] := by
  rcases mem_pair.1 h.1 with hstat | hstat <;> rw [hstat] <;> decide

/-- One round of the loop settles the reservation, or ends the pass. -/
theorem processReservation_spec (hidle : s.authority = []) (hs : s.LeasesHold)
    (hrow : s.reservations.find? id = some r) (hawaits : s.Awaits r) :
    (x.Fits (s.policy.maxTransportRetries ≤ r.transportAttempts + 1) →
      ∃ s', s.processReservation id x = (s', none) ∧ Settled s s' id x) ∧
    (¬ x.Fits (s.policy.maxTransportRetries ≤ r.transportAttempts + 1) →
      ∃ s' fault, s.processReservation id x = (s', some fault) ∧
        (s'.reservations.find? id).map (·.status) = some .fetching) := by
  have hfree := hs.free hidle hrow hawaits.not_claimable
  set fetched : Work := { r.toWork with
    status := .fetching, transportAttempts := r.transportAttempts + 1, reason := "" }
  set active := s.mapReservation id fun k =>
    { k.toWork with
      status := .fetching, transportAttempts := r.transportAttempts + 1, reason := "" }
  have hbegin : s.markFetching id = .ok active := by
    have hget : s.get id = .ok r := get_iff.2 hrow
    have hfits : r.transportAttempts + 1 ≤ s.policy.maxTransportRetries := hawaits.2
    simp only [markFetching, hget, check_of hawaits.1, hfits, if_true,
      updateReservation_eq hidle hfree, bind, Except.bind, active]
  have hact : active.reservations.find? id = some (r.withWork fetched) := by
    rw [find?_mapReservations, hrow, map_some, if_pos (find?_eq_some.1 hrow).2]
  have hstat : (active.reservations.find? id).map (·.status) = some .fetching := by
    rw [hact]
    rfl
  obtain ⟨hfits, href⟩ := settle_spec (s := active) (x := x) hidle hfree hact rfl
  refine ⟨fun h => ?_, fun h => ?_⟩
  · obtain ⟨s', hs', hsettled⟩ := hfits h
    refine ⟨s', by simp only [processReservation, hbegin, hstat, hs', if_true], ?_⟩
    obtain ⟨r₁, r', hr₁, hr', harr, hstat', hdelta⟩ := hsettled.row
    obtain rfl := mem_unique hact hr₁
    refine ⟨⟨r, r', hrow, hr', harr, hstat', hdelta⟩, fun k hk => ?_, hsettled.leases,
      hsettled.policy⟩
    rw [hsettled.others k hk, find?_mapReservations, map_of_key_ne hk]
  · obtain ⟨fault, hfault⟩ := href h
    refine ⟨active, fault, ?_, hstat⟩
    simp only [processReservation, hbegin, hstat, hfault, if_true]

/-! ### The whole loop -/

/-- What holds between two calls. -/
structure Between (s : Store K) : Prop where
  idle : s.authority = []
  leases : s.LeasesHold
  marked : s.Marked

theorem between_run (policy : IntakePolicy) (recoverable : Bool) (ops : List (Op K)) :
    ((init K policy recoverable).run ops).Between :=
  ⟨idle_run policy recoverable ops, leasesHold_run policy recoverable ops,
    marked_run policy recoverable ops⟩

theorem Between.step (hs : s.Between) (op : Op K) : (s.step op).Between :=
  ⟨idle_step hs.idle op, leasesHold_step hs.idle hs.leases op, hs.marked.step op⟩

theorem Between.of_queue (hs : s.Between) (op : QueueOp) {x : Intake (Store K)}
    (hop : s.queueStep op = s.committed x) (hx : x = .ok s') : s'.Between := by
  have hstep : s.step (.queue op) = s' := by
    simp only [Store.step, hop, hx, committed]
  exact hstep ▸ hs.step _

theorem Between.settle (hs : s.Between) (h : s.settle id x = .ok s') : s'.Between := by
  cases x with
  | transient | storage =>
    simp only [Store.settle, retryWith, bind_ok, mapError_ok] at h
    obtain ⟨row, -, reason, -, h⟩ := h
    exact hs.of_queue (.markTransportRetry id reason) rfl h
  | sound fingerprint publication root arena =>
    simp only [Store.settle, mapError_ok] at h
    exact hs.of_queue (.markPublished id fingerprint publication root arena.1) rfl h
  | _ =>
    simp only [Store.settle, failWith, bind_ok, mapError_ok] at h
    obtain ⟨reason, -, h⟩ := h
    exact hs.of_queue (.markFailed id reason) rfl h

theorem Between.processReservation (hs : s.Between)
    (h : s.processReservation id x = (s', none)) : s'.Between := by
  unfold Store.processReservation at h
  split at h
  · cases h
  · next active hact =>
    have hbegun : active.Between := hs.of_queue (.markFetching id) rfl hact
    split at h
    · split at h
      · cases h
      · next settled hsettled =>
        cases h
        exact hbegun.settle hsettled
    · cases h
      exact hbegun

/-- The next transport of a reservation is its last one. -/
def LastTransport (s : Store K) (id : Digest) : Prop :=
  ∃ r, s.reservations.find? id = some r ∧ s.policy.maxTransportRetries ≤ r.transportAttempts + 1

theorem lastTransport_iff (hrow : s.reservations.find? id = some r) :
    s.LastTransport id ↔ s.policy.maxTransportRetries ≤ r.transportAttempts + 1 := by
  simp [LastTransport, hrow]

theorem lastTransport_congr (hrow : s'.reservations.find? id = s.reservations.find? id)
    (hpol : s'.policy = s.policy) : s'.LastTransport id ↔ s.LastTransport id := by
  simp only [LastTransport, hrow, hpol]

/-- Some reservations are settled, and nothing else changed. -/
structure SettledAll (s s' : Store K) (ids : List Digest) (contents : Digest → Submission) :
    Prop where
  row : ∀ id ∈ ids, ∃ r r', s.reservations.find? id = some r ∧
    s'.reservations.find? id = some r' ∧ r'.arrival = r.arrival ∧
    r'.status ∈ settledStatuses ∧
    r'.deltaFingerprint = (contents id).delta.or r.deltaFingerprint
  others : ∀ k ∉ ids, s'.reservations.find? k = s.reservations.find? k
  leases : s'.leases = s.leases

theorem SettledAll.cons (hnew : id ∉ ids) (h : Settled s s' id (contents id))
    (h' : SettledAll s' s'' ids contents) : SettledAll s s'' (id :: ids) contents where
  row k hk := by
    rcases mem_cons.1 hk with rfl | hk
    · obtain ⟨r, r', hr, hr', hspec⟩ := h.row
      exact ⟨r, r', hr, (h'.others k hnew).trans hr', hspec⟩
    · obtain ⟨r, r', hr, hr', hspec⟩ := h'.row k hk
      have hne : k ≠ id := fun heq => hnew (heq ▸ hk)
      exact ⟨r, r', (h.others k hne).symm.trans hr, hr', hspec⟩
  others k hk := by
    rw [mem_cons, not_or] at hk
    exact (h'.others k hk.2).trans (h.others k hk.1)
  leases := h'.leases.trans h.leases

/-- The loop settles every reservation, or an outcome that the store refuses ends it. -/
theorem processAll_spec (contents : Digest → Submission) (ids : List Digest) (hnodup : ids.Nodup)
    (hs : s.Between) (hids : ∀ id ∈ ids, ∃ r, s.reservations.find? id = some r ∧ s.Awaits r) :
    ((∀ id ∈ ids, (contents id).Fits (s.LastTransport id)) →
      ∃ s', processAll contents ids s = (s', none) ∧ SettledAll s s' ids contents ∧ s'.Between) ∧
    ((¬∀ id ∈ ids, (contents id).Fits (s.LastTransport id)) →
      ∃ s' fault, processAll contents ids s = (s', some fault)) := by
  induction ids generalizing s with
  | nil =>
    refine ⟨fun _ => ⟨s, rfl, ⟨by simp, fun _ _ => rfl, rfl⟩, hs⟩, fun h => absurd ?_ h⟩
    simp
  | cons id ids ih =>
    obtain ⟨hnew, hnodup⟩ := nodup_cons.1 hnodup
    obtain ⟨r, hrow, hawaits⟩ := hids id mem_cons_self
    obtain ⟨hfits, href⟩ :=
      processReservation_spec (x := contents id) hs.idle hs.leases hrow hawaits
    rw [← propext (lastTransport_iff hrow)] at hfits href
    by_cases hhead : (contents id).Fits (s.LastTransport id)
    · obtain ⟨s₁, h₁, hsettled⟩ := hfits hhead
      -- The reservations still to come are as they were.
      have hkept : ∀ k ∈ ids, s₁.reservations.find? k = s.reservations.find? k := by
        intro k hk
        exact hsettled.others k fun heq => hnew (heq ▸ hk)
      have hids₁ : ∀ k ∈ ids, ∃ r, s₁.reservations.find? k = some r ∧ s₁.Awaits r := by
        intro k hk
        obtain ⟨r, hr, hstat, hatts⟩ := hids k (mem_cons_of_mem _ hk)
        exact ⟨r, (hkept k hk).trans hr, hstat, hsettled.policy ▸ hatts⟩
      have hcondition : (∀ k ∈ id :: ids, (contents k).Fits (s.LastTransport k)) ↔
          ∀ k ∈ ids, (contents k).Fits (s₁.LastTransport k) := by
        rw [forall_mem_cons]
        refine ⟨fun h k hk => ?_, fun h => ⟨hhead, fun k hk => ?_⟩⟩
        · rw [propext (lastTransport_congr (hkept k hk) hsettled.policy)]
          exact h.2 k hk
        · rw [← propext (lastTransport_congr (hkept k hk) hsettled.policy)]
          exact h k hk
      obtain ⟨hall, hsome⟩ := ih hnodup (hs.processReservation h₁) hids₁
      rw [hcondition]
      simp only [processAll, h₁]
      refine ⟨fun h => ?_, hsome⟩
      obtain ⟨s', hs', hrest, hbetween⟩ := hall h
      exact ⟨s', hs', .cons hnew hsettled hrest, hbetween⟩
    · obtain ⟨s₁, fault, h₁, -⟩ := href hhead
      refine ⟨fun h => absurd (h id mem_cons_self) hhead, fun _ => ⟨s₁, fault, ?_⟩⟩
      simp only [processAll, h₁]

/-! ### The start of the pass -/

/-- The pass begins: deferred reservations were taken up, nothing else happened. -/
structure Started (s started : Store K) : Prop where
  between : started.Between
  policy : started.policy = s.policy
  leases : started.leases = s.leases
  row : ∀ id r, s.reservations.find? id = some r → ∃ r',
    started.reservations.find? id = some r' ∧ r'.arrival = r.arrival ∧
    r'.deltaFingerprint = r.deltaFingerprint ∧ r'.transportAttempts = r.transportAttempts ∧
    (r.status ≠ .deferred → r' = r) ∧ (r.status = .deferred → r'.status ≠ .fetching)
  known : ∀ id, s.reservations.find? id = none → started.reservations.find? id = none

theorem Between.pending (hs : s.Between) :
    ∃ started, s.pending s.policy.maxCohort = .ok started ∧ Started s started := by
  have hbound : 0 < s.policy.maxCohort ∧ s.policy.maxCohort ≤ s.policy.maxPending :=
    ⟨s.policy.positive _ (by simp), s.policy.cohort_le⟩
  set ids := ((s.all.filter (·.status = .deferred)).take
    (s.policy.maxPending - s.pendingCount)).map (·.reservationId K)
  -- No lease holds a deferred reservation.
  have hopen : ∀ r ∈ s.reservations.rows, r.status = .deferred ∧ r.reservationId K ∈ ids →
      s.fenced (r.reservationId K) = false := by
    rintro r hr ⟨hstat, -⟩
    have hfree := hs.leases.free hs.idle (find?_of_mem hr) (by rw [hstat]; decide)
    simp [fenced, hfree, hs.idle]
  have hstart : s.pending s.policy.maxCohort = .ok (s.mapReservations
      (fun r => r.status = .deferred ∧ r.reservationId K ∈ ids)
      fun r => { r.toWork with status := .reserved, reason := "" }) := by
    simp only [Store.pending, check_of hbound, activateDeferredRows, updateReservations]
    rw [check_of hopen]
    rfl
  refine ⟨_, hstart, hs.of_queue (.pending s.policy.maxCohort) rfl hstart, rfl, rfl, ?_, ?_⟩
  · intro id r hr
    rw [find?_mapReservations, hr, map_some]
    refine ⟨_, rfl, ?_⟩
    split_ifs with hdefer
    · exact ⟨rfl, rfl, rfl, fun h => absurd hdefer.1 h, fun _ h => by cases h⟩
    · exact ⟨rfl, rfl, rfl, fun _ => rfl, fun h => by rw [h]; decide⟩
  · intro id hnone
    rw [find?_mapReservations, hnone]
    rfl

theorem mem_pendingIds {limit : ℕ} (h : id ∈ s.pendingIds limit) :
    ∃ r, s.reservations.find? id = some r ∧ s.Awaits r := by
  obtain ⟨r, hr, rfl⟩ := List.mem_map.1 h
  obtain ⟨hmem, hawaits⟩ := mem_filter.1 (mem_of_mem_take hr)
  exact ⟨r, find?_of_mem (Keyed.mem_sortBy.1 hmem), of_decide_eq_true hawaits⟩

theorem nodup_pendingIds (limit : ℕ) : (s.pendingIds limit).Nodup := by
  have hall : (s.all.map (·.reservationId K)).Nodup :=
    ((Keyed.sortBy_perm.map _).nodup_iff).2 s.reservations.distinct
  exact hall.sublist (((take_sublist ..).trans filter_sublist).map _)

theorem Started.lastTransport (h : Started s started) :
    started.LastTransport id ↔ s.LastTransport id := by
  unfold LastTransport
  rw [h.policy]
  cases hrow : s.reservations.find? id with
  | none => simp [h.known id hrow]
  | some r =>
    obtain ⟨r', hr', -, -, hatts, -⟩ := h.row id r hrow
    simp [hr', hatts]

/-! ### Copies under a lease -/

/-- The reservation with the fingerprint that it has at the end of the loop. -/
def delivered (s : Store K) (contents : Digest → Submission) (r : IntakeReservation) :
    IntakeReservation :=
  if r.reservationId K ∈ s.processed then
    r.withWork { r.toWork with
      deltaFingerprint := (contents (r.reservationId K)).delta.or r.deltaFingerprint }
  else r

/-- The store takes what every processed submission gives it, and no unresolved work under an
evaluation lease copies an earlier submission that has arrived by the end of the loop. -/
def Harmless (s : Store K) (contents : Digest → Submission) : Prop :=
  (∀ id ∈ s.processed, (contents id).Fits (s.LastTransport id)) ∧
    ∀ r ∈ s.reservations.rows, r.Unresolved → s.leased (r.reservationId K) = true →
      ∀ e ∈ s.reservations.rows, ¬ (s.delivered contents e).CopiedBy r

theorem copiedBy_congr {e e' : IntakeReservation} (harr : e'.arrival = e.arrival)
    (hdelta : e'.deltaFingerprint = e.deltaFingerprint) : e'.CopiedBy r ↔ e.CopiedBy r := by
  simp only [IntakeReservation.CopiedBy, harr, hdelta]

section Looped

variable {started looped : Store K} {contents : Digest → Submission}
  (hstart : Started s started) (hproc : s.processed = started.pendingIds s.policy.maxCohort)
  (hlooped : SettledAll started looped s.processed contents)

include hstart hlooped

theorem leased_looped : looped.leased id = s.leased id := by
  rw [leased, leased, hlooped.leases, hstart.leases]

/-- What the loop leaves of a reservation that was there. -/
theorem looped_row {e : IntakeReservation} (he : s.reservations.find? id = some e) :
    ∃ e', looped.reservations.find? id = some e' ∧ e'.arrival = e.arrival ∧
      e'.deltaFingerprint = (s.delivered contents e).deltaFingerprint := by
  obtain ⟨e₁, he₁, harr₁, hdelta₁, -⟩ := hstart.row id e he
  obtain ⟨-, rfl⟩ := find?_eq_some.1 he
  unfold delivered
  split_ifs with hid
  · obtain ⟨r, r', hr, hr', harr, -, hdelta⟩ := hlooped.row _ hid
    obtain rfl := mem_unique he₁ hr
    exact ⟨r', hr', harr.trans harr₁, hdelta.trans (by rw [hdelta₁]; rfl)⟩
  · exact ⟨e₁, (hlooped.others _ hid).trans he₁, harr₁, hdelta₁⟩

theorem looped_known (hnone : s.reservations.find? id = none) :
    looped.reservations.find? id = none := by
  have hnone₁ := hstart.known id hnone
  by_cases hid : id ∈ s.processed
  · obtain ⟨r, -, hr, -⟩ := hlooped.row id hid
    rw [hnone₁] at hr
    cases hr
  · exact (hlooped.others id hid).trans hnone₁

include hproc

/-- The loop does not touch a reservation under a lease. -/
theorem looped_leased (hs : s.Between) (hlease : s.leased id = true) :
    looped.reservations.find? id = s.reservations.find? id := by
  obtain ⟨r, hr, hstat⟩ := hs.leases.status hlease (by rw [hs.idle]; simp)
  have hdefer : r.status ≠ .deferred := by
    rcases mem_pair.1 hstat with h | h <;> rw [h] <;> decide
  obtain ⟨r₁, hr₁, -, -, -, hsame, -⟩ := hstart.row id r hr
  obtain rfl := hsame hdefer
  have hid : id ∉ s.processed := by
    intro hid
    rw [hproc] at hid
    obtain ⟨r', hr', hawaits⟩ := mem_pendingIds hid
    obtain rfl := mem_unique hr₁ hr'
    exact hawaits.not_claimable hstat
  rw [hlooped.others id hid, hr₁, hr]

theorem noLeasedCopy_looped (hs : s.Between) : looped.NoLeasedCopy ↔
    ∀ r ∈ s.reservations.rows, r.Unresolved → s.leased (r.reservationId K) = true →
      ∀ e ∈ s.reservations.rows, ¬ (s.delivered contents e).CopiedBy r := by
  have hmem {r : IntakeReservation} (hlease : s.leased (r.reservationId K) = true) :
      r ∈ looped.reservations.rows ↔ r ∈ s.reservations.rows := by
    have hrow := looped_leased hstart hproc hlooped hs hlease
    constructor
    · intro hr
      exact (find?_eq_some.1 (hrow.symm.trans (find?_of_mem hr))).1
    · intro hr
      exact (find?_eq_some.1 (hrow.trans (find?_of_mem hr))).1
  have hdelivered (e : IntakeReservation) : (s.delivered contents e).arrival = e.arrival := by
    unfold delivered
    split_ifs <;> rfl
  constructor
  · intro h r hr hopen hlease e he
    obtain ⟨e', he', harr, hdelta⟩ := looped_row hstart hlooped (find?_of_mem he)
    rw [← copiedBy_congr (harr.trans (hdelivered e).symm) hdelta]
    refine h r ((hmem hlease).2 hr) hopen ?_ e' (find?_eq_some.1 he').1
    rw [leased_looped hstart hlooped]
    exact hlease
  · intro h r hr hopen hlease e' he'
    rw [leased_looped hstart hlooped] at hlease
    have he'' := find?_of_mem he'
    cases he : s.reservations.find? (e'.reservationId K) with
    | none =>
      rw [looped_known hstart hlooped he] at he''
      cases he''
    | some e =>
      obtain ⟨e₁, he₁, harr, hdelta⟩ := looped_row hstart hlooped he
      obtain rfl := mem_unique he₁ he''
      rw [copiedBy_congr (harr.trans (hdelivered e).symm) hdelta]
      exact h r ((hmem hlease).1 hr) hopen hlease e (find?_eq_some.1 he).1

end Looped

/-! ### Demotions -/

/-- Some reservations were failed, and the others are as they were. -/
def Demotes (s s' : Store K) : Prop :=
  ∀ id, s'.reservations.find? id = s.reservations.find? id ∨
    ∃ r r', s.reservations.find? id = some r ∧
      s'.reservations.find? id = some r' ∧ r'.status = .failed

theorem Demotes.trans (h : Demotes s s') (h' : Demotes s' s'') : Demotes s s'' := by
  intro id
  rcases h' id with hsame' | ⟨r', r'', hr', hr'', hfail⟩
  · rw [hsame']
    exact h id
  · rcases h id with hsame | ⟨r, _, hr, -, -⟩
    · exact .inr ⟨r', r'', hsame ▸ hr', hr'', hfail⟩
    · exact .inr ⟨r, r'', hr, hr'', hfail⟩

theorem Demotes.map (hf : ∀ r, (f r).status = .failed) : Demotes s (s.mapReservation id f) := by
  intro k
  rw [find?_mapReservations]
  cases hrow : s.reservations.find? k with
  | none => exact .inl rfl
  | some r =>
    rw [map_some]
    split_ifs
    · exact .inr ⟨r, _, rfl, rfl, hf r⟩
    · exact .inl rfl

/-- Between two calls a change of status is refused with an `IntakeError` or made. -/
theorem transition_cases {expected : List Status} {status : Status}
    {decision : Option QualificationDecision} {reason : String} (hidle : s.authority = []) :
    (∃ text, s.transition id expected status decision reason = .error (intake text)) ∨
      ∃ f : IntakeReservation → Work, (∀ r, (f r).status = status) ∧
        s.transition id expected status decision reason = .ok (s.mapReservation id f) := by
  by_cases hlen : reason.length ≤ 2048
  · cases hrow : s.reservations.find? id with
    | none =>
      have hget : s.get id = .error (intake "unknown intake reservation") := by
        simp [Store.get, hrow, Fallible.get]
      cases hlease : s.leased id <;>
        simp [transition, check, hlen, requireEvaluationMutationAuthority, hidle, hlease,
          hget, bind, Except.bind]
    | some r =>
      by_cases hexpect : r.status ∈ expected
      · rw [transition_eq hidle hrow hexpect hlen]
        split_ifs
        · exact .inl ⟨_, rfl⟩
        · exact .inr ⟨_, fun _ => rfl, rfl⟩
      · have hget : s.get id = .ok r := get_iff.2 hrow
        cases hlease : s.leased id <;>
          simp [transition, check, hlen, requireEvaluationMutationAuthority, hidle, hlease,
            hget, hexpect, bind, Except.bind]
  · simp [transition, check, hlen, bind, Except.bind]

theorem demoteReferenceCopy_spec (reference : References)
    (row : IntakeReservation) (hidle : s.authority = []) :
    ∃ s', demoteReferenceCopy reference s row = .ok s' ∧ s'.authority = [] ∧ Demotes s s' := by
  have hsame : Demotes s s := fun _ => .inl rfl
  unfold demoteReferenceCopy
  split
  · exact ⟨s, rfl, hidle, hsame⟩
  · next name _ =>
    split_ifs
    · exact ⟨s, rfl, hidle, hsame⟩
    · have hcases : (∃ text, s.markReferenceCopy (row.reservationId K) name =
          .error (intake text)) ∨ ∃ f : IntakeReservation → Work, (∀ r, (f r).status = .failed) ∧
          s.markReferenceCopy (row.reservationId K) name =
            .ok (s.mapReservation (row.reservationId K) f) := by
        unfold markReferenceCopy
        simp only [check]
        split_ifs
        · exact transition_cases hidle
        · exact .inl ⟨_, rfl⟩
      rcases hcases with ⟨text, herror⟩ | ⟨f, hf, hok⟩
      · rw [herror]
        exact ⟨s, rfl, hidle, hsame⟩
      · rw [hok]
        exact ⟨_, rfl, hidle, .map hf⟩

theorem referenceCopies_spec (reference : References)
    (rows : List IntakeReservation) (hidle : s.authority = []) :
    ∃ s', transactions (demoteReferenceCopy reference) rows s = (s', none) ∧ Demotes s s' := by
  induction rows generalizing s with
  | nil => exact ⟨s, rfl, fun _ => .inl rfl⟩
  | cons row rows ih =>
    obtain ⟨s₁, h₁, hidle₁, hdemotes₁⟩ := demoteReferenceCopy_spec reference row hidle
    obtain ⟨s', hs', hdemotes⟩ := ih hidle₁
    exact ⟨s', by simp only [transactions, h₁, hs'], hdemotes₁.trans hdemotes⟩

theorem demotes_resolved {resolved : Store K} (hfind : ∀ id, resolved.reservations.find? id =
      (s.reservations.find? id).map s.resolved) : Demotes s resolved := by
  intro id
  rw [hfind]
  cases hrow : s.reservations.find? id with
  | none => exact .inl rfl
  | some r =>
    rw [map_some, Store.resolved]
    split
    · exact .inl rfl
    · exact .inr ⟨r, _, rfl, rfl, rfl⟩

/-! ### Isolation -/

/-- The pass came to its end, every reservation it processed is settled, and no reservation was
left in its transport. -/
structure Isolated (s s' : Store K) (raised : Option PassFault) : Prop where
  finished : raised = none
  settled : ∀ id ∈ s.processed, ∃ r, s'.reservations.find? id = some r ∧ r.status ∈ settledStatuses
  transport : ∀ id r, s'.reservations.find? id = some r → r.status = .fetching →
    ∃ r₀, s.reservations.find? id = some r₀ ∧ r₀.status = .fetching

theorem isolated_of_demotes {looped : Store K} (hstart : Started s started)
    (hlooped : SettledAll started looped s.processed contents) (h : Demotes looped s') :
    Isolated s s' none where
  finished := rfl
  settled id hid := by
    obtain ⟨r, r', -, hr', -, hstat, -⟩ := hlooped.row id hid
    rcases h id with hsame | ⟨_, r'', -, hr'', hfail⟩
    · exact ⟨r', hsame.trans hr', hstat⟩
    · exact ⟨r'', hr'', by rw [hfail]; decide⟩
  transport id r hr hfetching := by
    rcases h id with hsame | ⟨_, r'', -, hr'', hfail⟩
    · rw [hsame] at hr
      by_cases hid : id ∈ s.processed
      · obtain ⟨_, r', -, hr', -, hstat, -⟩ := hlooped.row id hid
        obtain rfl := mem_unique hr hr'
        rw [hfetching] at hstat
        exact absurd hstat (by decide)
      · rw [hlooped.others id hid] at hr
        cases hrow : s.reservations.find? id with
        | none =>
          rw [hstart.known id hrow] at hr
          cases hr
        | some r₀ =>
          obtain ⟨r₁, hr₁, -, -, -, hsame₀, hdefer⟩ := hstart.row id r₀ hrow
          obtain rfl := mem_unique hr hr₁
          by_cases hstat : r₀.status = .deferred
          · exact absurd hfetching (hdefer hstat)
          · exact ⟨r₀, rfl, hsame₀ hstat ▸ hfetching⟩
    · obtain rfl := mem_unique hr hr''
      rw [hfetching] at hfail
      cases hfail

/-- **One submission does not stop the others.**  In every store that some operations lead to, and
whatever the fetches, archives and manifests do, the pass settles each reservation it processes
and comes to its end if and only if the submissions are harmless. -/
theorem isolated_iff (policy : IntakePolicy) (recoverable : Bool) (ops : List (Op K))
    (contents : Digest → Submission) (reference : References) :
    let s := (init K policy recoverable).run ops
    Isolated s (s.runPass contents reference).1 (s.runPass contents reference).2 ↔
      s.Harmless contents := by
  intro s
  have hs : s.Between := between_run policy recoverable ops
  obtain ⟨started, hpend, hstart⟩ := hs.pending
  have hproc : s.processed = started.pendingIds s.policy.maxCohort := by
    simp only [processed, hpend]
  obtain ⟨hall, hsome⟩ := processAll_spec contents s.processed
    (hproc ▸ nodup_pendingIds _) hstart.between fun id hid =>
      mem_pendingIds (hproc ▸ hid)
  have hfits : (∀ id ∈ s.processed, (contents id).Fits (started.LastTransport id)) ↔
      ∀ id ∈ s.processed, (contents id).Fits (s.LastTransport id) := by
    refine forall₂_congr fun id _ => ?_
    rw [propext hstart.lastTransport]
  rw [hfits] at hall hsome
  simp only [runPass, hpend, ← hproc]
  by_cases hfit : ∀ id ∈ s.processed, (contents id).Fits (s.LastTransport id)
  · obtain ⟨looped, hloop, hlooped, hbetween⟩ := hall hfit
    have hcopy := reconcileCopies_cases hbetween.idle hbetween.marked
    rw [hloop]
    have hclean := noLeasedCopy_looped hstart hproc hlooped hs
    by_cases hlease : looped.NoLeasedCopy
    · rw [if_pos hlease] at hcopy
      obtain ⟨resolved, hresolved, hframe, hfind⟩ := hcopy
      have hidle : resolved.authority = [] := by
        rw [hframe]
        exact hbetween.idle
      obtain ⟨s', hs', hdemotes⟩ := referenceCopies_spec reference resolved.all hidle
      simp only [hresolved, reconcileReferenceCopies, hs']
      refine iff_of_true ?_ ⟨hfit, hclean.1 hlease⟩
      exact isolated_of_demotes hstart hlooped ((demotes_resolved hfind).trans hdemotes)
    · rw [if_neg hlease] at hcopy
      obtain ⟨s', hraised⟩ : ∃ s', looped.reconcileCopies = (s', .error leaseFences) :=
        ⟨_, Prod.ext rfl hcopy⟩
      simp only [hraised]
      exact iff_of_false (fun h => nomatch h.finished) fun h => hlease (hclean.2 h.2)
  · obtain ⟨s', fault, hloop⟩ := hsome hfit
    rw [hloop]
    exact iff_of_false (fun h => nomatch h.finished) fun h => hfit h.1

/-- The first submission that the store refuses ends the pass, and its row stays in its
transport. -/
theorem runPass_stops (contents : Digest → Submission) (hs : s.Between)
    (hproc : s.processed = id :: ids) (hunfit : ¬ (contents id).Fits (s.LastTransport id))
    (reference : References) :
    (s.runPass contents reference).2 ≠ none ∧
      ((s.runPass contents reference).1.reservations.find? id).map (·.status) = some .fetching := by
  obtain ⟨started, hpend, hstart⟩ := hs.pending
  have hids : started.pendingIds s.policy.maxCohort = id :: ids := by
    simpa only [processed, hpend] using hproc
  obtain ⟨r, hrow, hawaits⟩ := mem_pendingIds (hids ▸ mem_cons_self)
  obtain ⟨-, href⟩ := processReservation_spec (x := contents id) hstart.between.idle
    hstart.between.leases hrow hawaits
  rw [← propext (lastTransport_iff hrow), propext hstart.lastTransport] at href
  obtain ⟨s', fault, hround, hstat⟩ := href hunfit
  simp only [runPass, hpend, hids, processAll, hround]
  exact ⟨by simp, hstat⟩

/-- An archive member with a long name, quoted in the text of the refusal. -/
def longRefusal : Submission := .refused (List.replicate 2043 97)

/-- Two miners wait for their transport, and the archive of the first has such a member.  The pass
raises before it looks at the second. -/
theorem runPass_stops_at_long_refusal :
    let s := (init intakeHashes {} false).run
      [Sample.reserve 2 [sampleArrival 1 alice, sampleArrival 2 bob]]
    s.processed = [sampleId 1, sampleId 2] ∧
      (s.runPass (fun _ => longRefusal) fun _ => none).2 ≠ none ∧
      ((s.runPass (fun _ => longRefusal) fun _ => none).1.reservations.find?
        (sampleId 1)).map (·.status) = some .fetching := by
  intro s
  have hproc : s.processed = [sampleId 1, sampleId 2] := by decide
  have hs : s.Between := between_run ..
  have hunfit : ¬ longRefusal.Fits (s.LastTransport (sampleId 1)) := by
    rintro ⟨hlen, -⟩
    rw [length_append, length_replicate] at hlen
    exact absurd hlen (by decide)
  have hstops := runPass_stops (fun _ => longRefusal) hs hproc hunfit fun _ => none
  exact ⟨hproc, hstops⟩

end Store

end Cacheon
