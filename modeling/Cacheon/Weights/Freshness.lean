import Cacheon.Weights.Fallback

/-!
# How old a followed vector can be

A follower that runs for long signs many vectors, some of them while its source is gone.

* `FollowCall.accepted` : the offer that passed the checks of a call, if one did.
* `FollowCall.observations` : the offers accepted in a run.
* `FollowCall.followed_fresh` : what a call signs is the burn vector, or the vector of an offer
  whose first observation in the run was at most twelve hours before.
-/

namespace Cacheon

open Fallible PublicationFault Durable List Option

namespace FollowCall

variable (env : FollowEnv) (q : FollowCall)

/-! ### What a call accepts -/

/-- The finalized blocks that a call reads. -/
def heads : List ℕ :=
  (q.live.toOption.toList ++ q.relive.toOption.toList ++
    (q.burn.toOption.toList.map (·.metagraph)) ++ q.signingLive.toOption.toList).map (·.block)

/-- The offer of a call that passed all checks. -/
def accepted (s : FollowerStore) : Option CurrentWeightOffer :=
  match q.firstSight env with
  | .error _ => none
  | .ok first => (q.trySource env (env.loadSource s) first).2.toOption

/-- What is kept after a call. -/
def cacheAfter (s : FollowerStore) : Option CachedSource :=
  match q.accepted env s with
  | none => s.cache
  | some source => some (q.observe env (env.loadSource s) source)

/-- The source signed this offer in its response to the call. -/
def Authenticates (offer : CurrentWeightOffer) : Prop :=
  ∃ r, q.response = .ok r ∧ r.offer = offer ∧ env.verify r.authorityHotkey
      (env.responseDigest ⟨r.authorityHotkey, r.bodyDigest, env.scope.netuid, r.timestamp⟩)
      r.signature ∧
    ∀ authority, env.identity.authority = some authority → r.authorityHotkey = authority

/-- A response that may not replace a kept offer: one for an earlier block, or another one for
the same block. -/
def Conflicts (kept response : CurrentWeightOffer) : Prop :=
  response.effectiveBlock < kept.effectiveBlock ∨
    response.effectiveBlock = kept.effectiveBlock ∧ response ≠ kept

variable {env q} {s : FollowerStore} {cached : Option CachedSource} {sight first : Sight}
  {source : CurrentWeightOffer} {c : CachedSource}

theorem contextOf_block {m : MetagraphView} {ctx : FollowContext}
    (h : env.contextOf m = .ok ctx) : ctx.block = m.block := by
  simp only [FollowEnv.contextOf, bind_ok, exists_check] at h
  obtain ⟨-, -, -, -, -, h⟩ := h
  cases h
  rfl

theorem loadSource_eq_some :
    env.loadSource s = some c ↔ s.cache = some c ∧ c.identity = env.identity ∧
      (c.offer.projection.chainScopeDigest = env.scope.digest ∧
        c.offer.projection.netuid = env.scope.netuid) ∧ 0 ≤ c.observedAt := by
  simp only [FollowEnv.loadSource, filter_eq_some_iff, decide_eq_true_eq]

theorem fetchWeights_authentic (h : q.fetchCurrentWeights env = .ok source) :
    q.Authenticates env source := by
  simp only [fetchCurrentWeights, parseSignedOfferResponse, bind_ok, exists_check] at h
  obtain ⟨r, hr, -, -, -, -, -, -, -, -, hverify, hauth, -, h⟩ := h
  cases h
  exact ⟨r, hr, rfl, hverify, hauth⟩

/-- An accepted offer does not contradict the kept one. -/
theorem admitSource_monotonic (h : q.admitSource env (some c) sight source = .ok ()) :
    c.offer.effectiveBlock ≤ source.effectiveBlock ∧
      (source.effectiveBlock = c.offer.effectiveBlock → source = c.offer) := by
  simp only [admitSource, bind_ok, exists_check] at h
  obtain ⟨-, bound, -, ctx, -, -, -, h⟩ := h
  exact (monotonicOffer_ok.1 (mapError_ok.1 h)).2

/-- The metagraph of a call is one of those it read. -/
theorem trySource_block (hfirst : q.firstSight env = .ok first) :
    (q.trySource env cached first).1.context.block ∈ q.heads := by
  simp only [firstSight, bind_ok] at hfirst
  obtain ⟨live, hlive, ctx, hctx, hfirst⟩ := hfirst
  cases hfirst
  have hhead : ctx.block ∈ q.heads := by
    rw [contextOf_block hctx]
    simp [heads, hlive, Except.toOption]
  unfold trySource
  split
  · exact hhead
  · split_ifs
    · split
      · exact hhead
      · next live' hlive' =>
        split
        · exact hhead
        · next ctx' hctx' =>
          rw [contextOf_block hctx']
          simp [heads, hlive', Except.toOption]
    · exact hhead
    · exact hhead

/-- What a call accepts was fetched, is for the follower's chain and passed the checks. -/
theorem trySource_spec (h : (q.trySource env cached first).2 = .ok source) :
    q.fetchCurrentWeights env = .ok source ∧
      (source.projection.chainScopeDigest = env.scope.digest ∧
        source.projection.netuid = env.scope.netuid) ∧
      ∃ sight, q.admitSource env cached sight source = .ok () := by
  have hmap {sight : Sight} {source' : CurrentWeightOffer}
      (h : (q.admitSource env cached sight source').map (fun _ => source') = .ok source) :
      source' = source ∧ q.admitSource env cached sight source' = .ok () := by
    cases hchecks : q.admitSource env cached sight source' with
    | error fault =>
      rw [hchecks] at h
      cases h
    | ok u =>
      rw [hchecks] at h
      cases h
      exact ⟨rfl, rfl⟩
  unfold trySource at h
  split at h
  · cases h
  · next source' hfetch =>
    split_ifs at h with hscope hahead
    · split at h
      · cases h
      · split at h
        · cases h
        · obtain ⟨rfl, hchecks⟩ := hmap h
          exact ⟨hfetch, hscope, _, hchecks⟩
    · obtain ⟨rfl, hchecks⟩ := hmap h
      exact ⟨hfetch, hscope, _, hchecks⟩

theorem accepted_eq_some (h : q.accepted env s = some source) :
    q.fetchCurrentWeights env = .ok source ∧
      (source.projection.chainScopeDigest = env.scope.digest ∧
        source.projection.netuid = env.scope.netuid) ∧
      ∃ sight, q.admitSource env (env.loadSource s) sight source = .ok () := by
  unfold accepted at h
  split at h
  · cases h
  · exact trySource_spec (ok_of_toOption h)

/-- A kept offer that conflicts with the response keeps its place. -/
theorem accepted_of_conflict {resp : CurrentWeightOffer} (hc : env.loadSource s = some c)
    (hr : q.fetchCurrentWeights env = .ok resp) (hconfl : Conflicts c.offer resp) :
    q.accepted env s = none := by
  by_contra hne
  obtain ⟨source, hsrc⟩ := ne_none_iff_exists'.1 hne
  obtain ⟨hfetch, -, sight, hchecks⟩ := accepted_eq_some hsrc
  rw [hr] at hfetch
  cases hfetch
  rw [hc] at hchecks
  obtain ⟨hle, hsame⟩ := admitSource_monotonic hchecks
  rcases hconfl with hlt | ⟨heq, hdiff⟩
  · omega
  · exact hdiff (hsame heq)

/-- What is kept is the offer kept before, or the accepted one, first seen now. -/
theorem observe_cases :
    (∃ c, cached = some c ∧ source = c.offer ∧ q.observe env cached source = c) ∨
      (∀ c, cached = some c → source ≠ c.offer) ∧
        q.observe env cached source = ⟨env.identity, source, q.now⟩ := by
  cases cached with
  | none => exact .inr ⟨nofun, rfl⟩
  | some c =>
    by_cases hsame : source = c.offer
    · exact .inl ⟨c, rfl, hsame, if_pos hsame⟩
    · refine .inr ⟨?_, if_neg hsame⟩
      rintro _ ⟨⟩
      exact hsame

theorem observe_offer : (q.observe env cached source).offer = source := by
  have hcases : (∃ c, cached = some c ∧ source = c.offer ∧ q.observe env cached source = c) ∨ _ :=
    observe_cases
  rcases hcases with ⟨c, -, hsame, heq⟩ | ⟨-, heq⟩
  · rw [heq, hsame]
  · rw [heq]

/-- What is kept after an accepted offer can be read back. -/
theorem loadSource_cacheAfter (h : q.accepted env s = some source) :
    env.loadSource { s with cache := q.cacheAfter env s } =
      some (q.observe env (env.loadSource s) source) := by
  obtain ⟨-, hscope, -⟩ := accepted_eq_some h
  have hcache : q.cacheAfter env s = some (q.observe env (env.loadSource s) source) := by
    unfold cacheAfter
    rw [h]
  refine loadSource_eq_some.2 ⟨hcache, ?_⟩
  have hcases : (∃ c, env.loadSource s = some c ∧ source = c.offer ∧
      q.observe env (env.loadSource s) source = c) ∨ _ := observe_cases
  rcases hcases with ⟨c, hc, -, heq⟩ | ⟨-, heq⟩
  · rw [heq]
    exact (loadSource_eq_some.1 hc).2
  · rw [heq]
    exact ⟨rfl, hscope, q.epoch⟩

theorem loadSource_after_none (h : q.accepted env s = none) :
    env.loadSource { s with cache := q.cacheAfter env s } = env.loadSource s := by
  unfold cacheAfter
  rw [h]

/-! ### One call -/

variable (env q) in
/-- Where a submitted vector of a call may come from: the owner's burn target, or the offer that
is kept after the call and still fresh. -/
def Sourced (s : FollowerStore) (p : WeightProjection) : VectorOrigin → Prop
  | .burn target => q.burn = .ok target ∧ p.weightsPpm = [(target.hotkey, 1000000)]
  | .source offer => p.weightsPpm = offer.projection.weightsPpm ∧
      ∃ c, env.loadSource { s with cache := q.cacheAfter env s } = some c ∧ c.offer = offer ∧
        q.Fresh c
  | .journal => False

variable (env q) in
/-- What a call has done so far, from a store and a log: the offer to keep is kept, new rows of
the journal are for blocks that were read, and what was submitted is sourced. -/
structure Followed (s : FollowerStore) (log : List FollowEvent)
    (w : FollowWorld) : Prop where
  cache : w.state.cache = q.cacheAfter env s
  rows : ∀ row ∈ w.state.journal.rows,
    (∃ row₀ ∈ s.journal.rows, row.offer = row₀.offer) ∨ row.offer.effectiveBlock ∈ q.heads
  events : ∃ events, w.log = log ++ events ∧
    ∀ p origin, .submitted p origin ∈ events → q.Sourced env s p origin

variable (env q) in
/-- A selected vector: sourced, and for a block that was read. -/
def Chosen (s : FollowerStore) (sel : Selection) : Prop :=
  q.Sourced env s sel.offer.projection sel.origin ∧
    (sel.context.map (·.block)).getD sel.offer.effectiveBlock ∈ q.heads

variable {log : List FollowEvent}

/-- The source failed and the offer to keep is kept. -/
theorem fallBack_followed {P : FollowWorld → Prop}
    (hP : ∀ w, P w → q.Followed env s log w) (hblk : sight.context.block ∈ q.heads)
    (hcached : ∀ c, cached = some c → q.Fresh c →
      env.loadSource { s with cache := q.cacheAfter env s } = some c) :
    Triple P (q.fallBack env cached sight) (fun sel w => P w ∧ q.Chosen env s sel)
      (q.Followed env s log) := by
  unfold fallBack
  cases hret : q.retained env cached sight with
  | some offer =>
    simp only [retained, bind_eq_some_iff] at hret
    obtain ⟨c, rfl, hc⟩ := hret
    split_ifs at hc with hfresh
    cases hc
    exact .pure fun w hw =>
      ⟨hw, ⟨rfl, c, hcached c rfl hfresh.1, rfl, hfresh.1⟩, hblk⟩
  | none =>
    refine .ofExcept hP fun target htgt => ?_
    refine .ofExcept hP fun offer hoffer => ?_
    simp only [burnOffer, bind_ok] at hoffer
    obtain ⟨ctx, hctx, hoffer⟩ := hoffer
    cases hoffer
    refine .pure fun w hw => ⟨hw, ⟨htgt, rfl⟩, ?_⟩
    show ctx.block ∈ q.heads
    rw [contextOf_block hctx]
    simp [heads, htgt, Except.toOption]

/-- A call that kept its offer and submitted nothing yet. -/
theorem followed_quiet {w : FollowWorld} {events : List FollowEvent}
    (hcache : w.state.cache = q.cacheAfter env s) (hjour : w.state.journal = s.journal)
    (hlog : w.log = log ++ events) (hquiet : ∀ p origin, .submitted p origin ∉ events) :
    q.Followed env s log w ∧ w.state.journal = s.journal := by
  refine ⟨⟨hcache, fun row hrow => ?_, events, hlog, fun p origin hmem => ?_⟩, hjour⟩
  · rw [hjour] at hrow
    exact .inl ⟨row, hrow, rfl⟩
  · exact absurd hmem (hquiet p origin)

/-- Selecting a vector keeps the offer of the call, and leaves the journal alone. -/
theorem select_followed : Triple (fun w => w.state = s ∧ w.log = log) (q.select env)
      (fun sel w => (q.Followed env s log w ∧ w.state.journal = s.journal) ∧ q.Chosen env s sel)
      (q.Followed env s log) := by
  have hidle (hcache : q.cacheAfter env s = s.cache) (w : FollowWorld)
      (hw : w.state = s ∧ w.log = log) :
      q.Followed env s log w ∧ w.state.journal = s.journal :=
    followed_quiet (by rw [hw.1, hcache]) (by rw [hw.1]) (by rw [hw.2, append_nil])
      fun _ _ => not_mem_nil
  have hcacheNone (hacc : q.accepted env s = none) : q.cacheAfter env s = s.cache := by
    simp only [cacheAfter, hacc]
  refine .bind (R := fun cached w => (w.state = s ∧ w.log = log) ∧
    cached = env.loadSource s) (.read_cases ?_ fun _ _ _ h => nomatch h)
    fun cached => .given ?_
  · rintro w _ hw ⟨⟩
    exact ⟨hw, by rw [hw.1]⟩
  rintro rfl
  refine .bind (R := fun first w => (w.state = s ∧ w.log = log) ∧
    q.firstSight env = .ok first) (.read_cases (fun w first hw hok => ⟨hw, hok⟩) ?_)
    fun first => .given fun hfirst => ?_
  · intro w err hw herr
    refine (hidle (hcacheNone ?_) w hw).1
    simp only [accepted, herr]
  have hblk : (q.trySource env (env.loadSource s) first).1.context.block ∈ q.heads :=
    trySource_block hfirst
  have hacc : q.accepted env s = (q.trySource env (env.loadSource s) first).2.toOption := by
    simp only [accepted, hfirst]
  rcases htry : q.trySource env (env.loadSource s) first with ⟨sight, result⟩
  rw [htry] at hblk hacc
  cases result with
  | error fault =>
    -- nothing is accepted, so the kept offer is the one read at the start
    refine .conseq (fallBack_followed (fun _ h => h.1) hblk ?_)
      (hidle (hcacheNone hacc)) fun _ _ h => h
    intro c hc _
    rw [loadSource_after_none hacc, hc]
  | ok source =>
    have hload := loadSource_cacheAfter hacc
    have hcache : q.cacheAfter env s = some (q.observe env (env.loadSource s) source) := by
      simp only [cacheAfter, hacc, Except.toOption]
    refine .bind (R := fun _ w => q.Followed env s log w ∧ w.state.journal = s.journal)
      (.ite ?_ ?_) fun _ => .ite ?_ ?_
    · intro hsame
      refine .pure (hidle ?_)
      rw [hcache, (loadSource_eq_some.1 hsame).1]
    · intro _
      refine .effect_cases ?_ fun _ _ _ h => nomatch h
      rintro w _ _ n hw ⟨⟩
      let kept := q.observe env (env.loadSource s) source
      let after : FollowWorld :=
        ⟨{ w.state with cache := some kept }, w.log ++ [.cached kept], n⟩
      have hafter : q.Followed env s log after ∧ after.state.journal = s.journal :=
        followed_quiet hcache.symm (congrArg (·.journal) hw.1) (by rw [← hw.2]) (by simp)
      exact ⟨hafter, hafter.1⟩
    · intro hfresh
      refine .pure fun w hw => ⟨hw, ⟨rfl, _, hload, ?_, hfresh⟩, hblk⟩
      exact observe_offer
    · intro hstale
      refine fallBack_followed (fun _ h => h.1) hblk ?_
      rintro c ⟨⟩ hfresh
      exact absurd hfresh hstale

variable {own offer : CurrentWeightOffer} {origin : VectorOrigin} {p : WeightProjection}
  {cur : JournalHead}

section

variable (hown : own.effectiveBlock ∈ q.heads)

include hown

/-- A swap for a block that was read. -/
theorem advance_followed {fields : RecordFields} :
    Triple (q.Followed env s log) (advance env own cur fields)
      (fun _ => q.Followed env s log) (q.Followed env s log) := by
  refine .ofExcept (fun _ h => h) fun repl _ => ?_
  refine .bind (R := fun _ => q.Followed env s log) (.effect ?_ fun _ h => h)
    fun _ => .pure fun _ h => h
  intro w _ _ n hw hswap
  obtain ⟨journal, hjour, hswap⟩ := bind_ok.1 hswap
  cases hswap
  have hafter : q.Followed env s log ⟨{ w.state with journal }, w.log ++ [.swapped repl], n⟩ := by
    refine ⟨hw.cache, fun row hrow => ?_, ?_⟩
    · rcases FollowedJournal.mem_of_compareAndSwap (mapError_ok.1 hjour) hrow with
        heq | ⟨row₀, hrow₀, heq⟩
      · rw [heq]
        exact .inr hown
      · rw [heq]
        exact hw.rows row₀ hrow₀
    · obtain ⟨events, hlog, hall⟩ := hw.events
      refine ⟨events ++ [.swapped repl], by rw [hlog, append_assoc], ?_⟩
      intro p origin hmem
      rcases mem_append.1 hmem with hmem | hmem
      · exact hall p origin hmem
      · cases mem_singleton.1 hmem
  exact ⟨hafter, hafter⟩

theorem submit_followed {block : ℕ} (hsourced : q.Sourced env s p origin) :
    Triple (q.Followed env s log) (q.submit env own origin p block cur)
      (fun _ => q.Followed env s log) (q.Followed env s log) := by
  refine .bind (advance_followed hown) fun intent => ?_
  refine .bind (R := fun _ => q.Followed env s log) (.effect ?_ fun _ h => h)
    fun _ => ?_
  · rintro w _ _ n hw ⟨⟩
    have hafter : q.Followed env s log ⟨w.state, w.log ++ [.submitted p origin], n⟩ := by
      obtain ⟨events, hlog, hall⟩ := hw.events
      refine ⟨hw.cache, hw.rows, events ++ [.submitted p origin], by rw [hlog, append_assoc], ?_⟩
      intro p' origin' hmem
      rcases mem_append.1 hmem with hmem | hmem
      · exact hall p' origin' hmem
      · cases mem_singleton.1 hmem
        exact hsourced
    exact ⟨hafter, hafter⟩
  · split <;> exact .bind (advance_followed hown) fun _ => .pure fun _ h => h

theorem commit_followed (hsourced : q.Sourced env s p origin) :
    Triple (q.Followed env s log) (q.commit env own origin p)
      (fun _ => q.Followed env s log) (q.Followed env s log) := by
  refine .bind (Reads.triple (.bind .require fun _ => .bind .require fun _ =>
    .bind .ofExcept fun _ => .bind .require fun _ => .bind .ofExcept fun _ =>
    .bind .require fun _ => .bind .require fun _ => .pure) fun _ h => h) fun live => ?_
  refine .bind (Reads.read.triple fun _ h => h) fun cur => ?_
  cases cur with
  | none => exact submit_followed hown hsourced
  | some cur =>
    refine .bind (Reads.read.triple fun _ h => h) fun prev => ?_
    refine .require (fun _ h => h) fun _ => ?_
    refine .ite (fun _ => .pure fun _ h => h) fun _ => ?_
    exact submit_followed hown hsourced

end

theorem rebindOfferSigner_spec {signer : Hotkey} {rebound : CurrentWeightOffer}
    (h : rebindOfferSigner offer signer = .ok rebound) :
    rebound.projection = { offer.projection with validatorHotkey := signer } := by
  simp only [rebindOfferSigner, rebindProjectionSigner, bind_ok, exists_check] at h
  obtain ⟨proj, ⟨-, hproj⟩, h⟩ := h
  cases h
  cases hproj
  split_ifs with hsame
  · rw [hsame]
  · rfl

/-- Binding a selection keeps its vector, and moves it to a block that was read. -/
theorem bindSelection_spec {sel : Selection} (hsel : q.Chosen env s sel)
    (h : bindSelection env sel = .ok offer) :
    offer.effectiveBlock ∈ q.heads ∧ q.Sourced env s offer.projection sel.origin := by
  obtain ⟨hsourced, hblk⟩ := hsel
  have hvector {p p' : WeightProjection} (heq : p'.weightsPpm = p.weightsPpm)
      (hp : q.Sourced env s p sel.origin) : q.Sourced env s p' sel.origin := by
    cases horigin : sel.origin <;> rw [horigin] at hp
    · exact ⟨heq.trans hp.1, hp.2⟩
    · exact ⟨hp.1, heq.trans hp.2⟩
    · exact hp
  simp only [bindSelection, bind_ok] at h
  obtain ⟨rebound, hreb, h⟩ := h
  have hproj := rebindOfferSigner_spec (mapError_ok.1 hreb)
  cases hctx : sel.context with
  | none =>
    rw [hctx] at h hblk
    cases h
    refine ⟨?_, hvector (by rw [hproj]) hsourced⟩
    show offer.projection.effectiveBlock ∈ q.heads
    rw [hproj]
    exact hblk
  | some ctx =>
    rw [hctx] at h hblk
    cases h
    exact ⟨hblk, hvector (by rw [hproj]; rfl) hsourced⟩

/-- One call from a store whose journal is behind the blocks that the call reads. -/
theorem follow_followed
    (hbelow : ∀ row ∈ s.journal.rows, ∀ block ∈ q.heads, row.offer.effectiveBlock < block) :
    Triple (fun w => w.state = s ∧ w.log = log) (q.follow env)
      (fun _ => q.Followed env s log) (q.Followed env s log) := by
  refine .bind select_followed fun sel => .given fun hsel => ?_
  refine .ofExcept (fun _ h => h.1) fun offer hoffer => ?_
  obtain ⟨hblk, hsourced⟩ := bindSelection_spec hsel hoffer
  have hpublish : Triple (q.Followed env s log) (q.publishFollowedWeights env sel.origin offer)
      (fun _ => q.Followed env s log) (q.Followed env s log) := by
    refine .ofExcept (fun _ h => h) fun rebound hreb => commit_followed hblk ?_
    rw [rebindOfferSigner_spec (mapError_ok.1 hreb)]
    -- the vector does not depend on the signer
    revert hsourced
    cases sel.origin <;> exact id
  refine .ofExcept (fun _ h => h.1) fun _ _ => ?_
  refine .bind (Reads.read.triple fun _ h => h.1) fun head => ?_
  cases head with
  | none => exact hpublish.conseq (fun _ h => h.1) fun _ _ h => h
  | some head =>
    refine .bind (R := fun ret w => q.Followed env s log w ∧
      ∃ row ∈ s.journal.rows, row.offer.projection = ret)
      (.read (fun w ret hw hok => ⟨hw.1, ?_⟩) fun _ h => h.1) fun ret => ?_
    · rw [hw.2] at hok
      exact FollowedJournal.retainedProjection_mem (mapError_ok.1 hok)
    refine .given fun ⟨row, hrow, hret⟩ => ?_
    refine .require (fun _ h => h) fun _ => ?_
    have hlt : ret.effectiveBlock < offer.effectiveBlock := by
      rw [← hret]
      exact hbelow row hrow _ hblk
    exact .ite (fun hle => absurd hle (Nat.not_le.2 hlt)) fun _ => hpublish

/-! ### Runs -/

variable (env) in
/-- The world after some calls on a store. -/
def run (s : FollowerStore) (calls : List (FollowCall × ℕ)) : FollowWorld :=
  runCalls (fun q => q.follow env) ⟨s, [], 0⟩ calls

variable (env) in
/-- The offers that the calls accept, each with its call. -/
def observationsFrom (w : FollowWorld) :
    List (FollowCall × ℕ) → List (FollowCall × CurrentWeightOffer)
  | [] => []
  | (q, n) :: calls => (q.accepted env w.state).toList.map (q, ·) ++
      observationsFrom (call (q.follow env) n w) calls

variable (env) in
/-- The observations of a run. -/
def observations (s : FollowerStore) (calls : List (FollowCall × ℕ)) :
    List (FollowCall × CurrentWeightOffer) :=
  observationsFrom env ⟨s, [], 0⟩ calls

variable {calls : List (FollowCall × ℕ)} {n : ℕ}

theorem observations_snoc : observations env s (calls ++ [(q, n)]) = observations env s calls ++
      (q.accepted env (run env s calls).state).toList.map (q, ·) := by
  have hfrom (w : FollowWorld) :
      observationsFrom env w (calls ++ [(q, n)]) = observationsFrom env w calls ++
        (q.accepted env (runCalls (fun q => q.follow env) w calls).state).toList.map (q, ·) := by
    induction calls generalizing w with
    | nil => simp [observationsFrom, runCalls]
    | cons c calls ih =>
      simp only [cons_append, observationsFrom, ih, append_assoc]
      rfl
  exact hfrom _

/-- The kept offer is the latest one accepted, kept since it was accepted first. -/
def Kept (seen : List (FollowCall × CurrentWeightOffer)) : Option CachedSource → Prop
  | none => seen = []
  | some c => (∃ q, (q, c.offer) ∈ seen) ∧ ∀ o ∈ seen, (o.2 = c.offer → c.observedAt ≤ o.1.now) ∧
        (o.2 ≠ c.offer → o.2.effectiveBlock < c.offer.effectiveBlock)

/-- A call either confirms the kept offer or moves to one that was never seen. -/
theorem Kept.step {seen : List (FollowCall × CurrentWeightOffer)}
    (hkept : Kept seen (env.loadSource s)) (hclock : ∀ o ∈ seen, o.1.now ≤ q.now) :
    Kept (seen ++ (q.accepted env s).toList.map (q, ·))
      (env.loadSource { s with cache := q.cacheAfter env s }) := by
  cases hacc : q.accepted env s with
  | none =>
    rw [loadSource_after_none hacc]
    simpa using hkept
  | some source =>
    rw [loadSource_cacheAfter hacc]
    obtain ⟨-, -, sight, hchecks⟩ := accepted_eq_some hacc
    have hcases : (∃ c, env.loadSource s = some c ∧ source = c.offer ∧
        q.observe env (env.loadSource s) source = c) ∨ _ := observe_cases
    rcases hcases with ⟨c, hc, rfl, heq⟩ | ⟨hother, heq⟩
    · rw [hc] at hkept
      rw [heq]
      obtain ⟨⟨first, hfirst⟩, hseen⟩ := hkept
      have hbef : c.observedAt ≤ q.now := le_trans ((hseen _ hfirst).1 rfl) (hclock _ hfirst)
      refine ⟨⟨q, by simp⟩, fun o ho => ?_⟩
      rcases mem_append.1 ho with ho | ho
      · exact hseen o ho
      · obtain rfl : o = (q, c.offer) := by simpa using ho
        exact ⟨fun _ => hbef, fun hne => absurd rfl hne⟩
    · rw [heq]
      refine ⟨⟨q, by simp⟩, fun o ho => ?_⟩
      rcases mem_append.1 ho with ho | ho
      · -- everything seen before is for an earlier block
        have hlt : o.2.effectiveBlock < source.effectiveBlock := by
          cases hc : env.loadSource s with
          | none =>
            rw [hc] at hkept
            rw [show seen = [] from hkept] at ho
            cases ho
          | some c =>
            rw [hc] at hkept hchecks
            obtain ⟨hle, hsame⟩ := admitSource_monotonic hchecks
            have hc_lt : c.offer.effectiveBlock < source.effectiveBlock :=
              Nat.lt_of_le_of_ne hle fun h => hother c hc (hsame h.symm)
            by_cases ho' : o.2 = c.offer
            · rw [ho']
              exact hc_lt
            · exact Nat.lt_trans ((hkept.2 o ho).2 ho') hc_lt
        refine ⟨fun hsame => ?_, fun _ => hlt⟩
        rw [hsame] at hlt
        exact absurd hlt (Nat.lt_irrefl _)
      · obtain rfl : o = (q, source) := by simpa using ho
        exact ⟨fun _ => le_refl _, fun hne => absurd rfl hne⟩

variable (env) in
/-- What holds after some calls: the kept offer is the latest one accepted, what was accepted was
signed by the source, and the journal has rows for the blocks read and those of the start only. -/
structure Kempt (s : FollowerStore) (calls : List (FollowCall × ℕ)) : Prop where
  kept : Kept (observations env s calls) (env.loadSource (run env s calls).state)
  seen : ∀ o ∈ observations env s calls, (∃ c ∈ calls, c.1 = o.1) ∧ o.1.Authenticates env o.2
  rows : ∀ row ∈ (run env s calls).state.journal.rows,
    (∃ row₀ ∈ s.journal.rows, row.offer = row₀.offer) ∨
      ∃ c ∈ calls, row.offer.effectiveBlock ∈ c.1.heads

variable (env) in
/-- The conditions on a run: the store has no offer of this source and no vector for the blocks to
come, the clock does not go back, and later calls read later blocks. -/
structure Steady (s : FollowerStore) (calls : List (FollowCall × ℕ)) : Prop where
  uncached : env.loadSource s = none
  behind : ∀ row ∈ s.journal.rows, ∀ c ∈ calls, ∀ block ∈ c.1.heads,
    row.offer.effectiveBlock < block
  clock : calls.Pairwise fun a b => a.1.now ≤ b.1.now
  blocks : calls.Pairwise fun a b => ∀ x ∈ a.1.heads, ∀ y ∈ b.1.heads, x < y

theorem Steady.of_append {later : List (FollowCall × ℕ)} (h : Steady env s (calls ++ later)) :
    Steady env s calls where
  uncached := h.uncached
  behind row hrow c hc := h.behind row hrow c (mem_append_left _ hc)
  clock := (pairwise_append.1 h.clock).1
  blocks := (pairwise_append.1 h.blocks).1

theorem run_snoc : run env s (calls ++ [(q, n)]) = call (q.follow env) n (run env s calls) := by
  rw [run, runCalls, foldl_append]
  rfl

/-- The next call of a run, and what holds after it. -/
theorem Kempt.step (hsteady : Steady env s (calls ++ [(q, n)])) (h : Kempt env s calls) :
    q.Followed env (run env s calls).state (run env s calls).log (run env s (calls ++ [(q, n)])) ∧
      Kempt env s (calls ++ [(q, n)]) := by
  have hbelow : ∀ row ∈ (run env s calls).state.journal.rows, ∀ block ∈ q.heads,
      row.offer.effectiveBlock < block := by
    intro row hrow block hblk
    rcases h.rows row hrow with ⟨row₀, hrow₀, heq⟩ | ⟨c, hc, hread⟩
    · rw [heq]
      exact hsteady.behind row₀ hrow₀ (q, n) (by simp) block hblk
    · exact (pairwise_append.1 hsteady.blocks).2.2 c hc (q, n) (by simp) _ hread _ hblk
  have hcall : q.Followed env (run env s calls).state (run env s calls).log
      (run env s (calls ++ [(q, n)])) := by
    rw [run_snoc]
    exact (follow_followed hbelow).call ⟨rfl, rfl⟩
  have hclock : ∀ o ∈ observations env s calls, o.1.now ≤ q.now := by
    intro o ho
    obtain ⟨⟨c, hc, hco⟩, -⟩ := h.seen o ho
    rw [← hco]
    exact (pairwise_append.1 hsteady.clock).2.2 c hc (q, n) (by simp)
  refine ⟨hcall, ?_, ?_, ?_⟩
  · have hload : env.loadSource (run env s (calls ++ [(q, n)])).state = env.loadSource
        { (run env s calls).state with cache := q.cacheAfter env (run env s calls).state } := by
      simp only [FollowEnv.loadSource, hcall.cache]
    rw [observations_snoc, hload]
    exact h.kept.step hclock
  · intro o ho
    rw [observations_snoc] at ho
    rcases mem_append.1 ho with ho | ho
    · obtain ⟨⟨c, hc, hco⟩, hauthentic⟩ := h.seen o ho
      exact ⟨⟨c, mem_append_left _ hc, hco⟩, hauthentic⟩
    · obtain ⟨source, hsrc, rfl⟩ := List.mem_map.1 ho
      rw [mem_toList] at hsrc
      exact ⟨⟨(q, n), by simp, rfl⟩, fetchWeights_authentic (accepted_eq_some hsrc).1⟩
  · intro row hrow
    rcases hcall.rows row hrow with ⟨row₀, hrow₀, heq⟩ | hread
    · rw [heq]
      rcases h.rows row₀ hrow₀ with hstart | ⟨c, hc, hread⟩
      · exact .inl hstart
      · exact .inr ⟨c, mem_append_left _ hc, hread⟩
    · exact .inr ⟨(q, n), by simp, hread⟩

theorem Steady.kempt (hsteady : Steady env s calls) : Kempt env s calls := by
  induction calls using List.reverseRecOn with
  | nil =>
    refine ⟨?_, forall_mem_nil _, fun row hrow => .inl ⟨row, hrow, rfl⟩⟩
    rw [show env.loadSource (run env s []).state = none from hsteady.uncached]
    rfl
  | append_singleton calls c ih => exact ((ih hsteady.of_append).step hsteady).2

/-- **Twelve hours.**  In every run over one source, whatever the source answers and wherever
calls fail or crash: what a call submits is the owner's burn vector, or the vector of an offer
that the source signed and that the run first accepted at most twelve hours before.  A response
that conflicts with the kept offer neither replaces it nor is submitted. -/
theorem followed_fresh (env : FollowEnv) (s : FollowerStore) (calls : List (FollowCall × ℕ))
    (hsteady : Steady env s calls) (earlier later : List (FollowCall × ℕ)) (q : FollowCall)
    (n : ℕ) (hcalls : calls = earlier ++ (q, n) :: later) :
    let before := run env s earlier
    let after := run env s (earlier ++ [(q, n)])
    (∃ events, after.log = before.log ++ events ∧ ∀ p origin, .submitted p origin ∈ events →
        (∃ target, origin = .burn target ∧ q.burn = .ok target ∧
          p.weightsPpm = [(target.hotkey, 1000000)]) ∨
        ∃ offer, origin = .source offer ∧ p.weightsPpm = offer.projection.weightsPpm ∧
          (∃ first, (first, offer) ∈ observations env s (earlier ++ [(q, n)]) ∧
            first.Authenticates env offer) ∧
          (∀ first, (first, offer) ∈ observations env s (earlier ++ [(q, n)]) →
            q.now - first.now ≤ maxRetainedSeconds) ∧
          ∀ c response, env.loadSource before.state = some c →
            q.fetchCurrentWeights env = .ok response → Conflicts c.offer response →
            offer ≠ response) ∧
    ∀ c response, env.loadSource before.state = some c →
      q.fetchCurrentWeights env = .ok response → Conflicts c.offer response →
      after.state.cache = before.state.cache := by
  intro before after
  subst hcalls
  have hsteady' : Steady env s (earlier ++ [(q, n)]) := by
    rw [append_cons] at hsteady
    exact hsteady.of_append
  obtain ⟨hcall, hkempt⟩ := hsteady'.of_append.kempt.step hsteady'
  have hload : env.loadSource after.state = env.loadSource
      { before.state with cache := q.cacheAfter env before.state } := by
    simp only [after, before, FollowEnv.loadSource, hcall.cache]
  have href {c : CachedSource} {response : CurrentWeightOffer}
      (hc : env.loadSource before.state = some c)
      (hr : q.fetchCurrentWeights env = .ok response) (hconfl : Conflicts c.offer response) :
      q.cacheAfter env before.state = before.state.cache := by
    simp only [cacheAfter, accepted_of_conflict hc hr hconfl]
  refine ⟨?_, fun c response hc hr hconfl => hcall.cache.trans (href hc hr hconfl)⟩
  obtain ⟨events, hlog, hall⟩ := hcall.events
  refine ⟨events, hlog, fun p origin hmem => ?_⟩
  have hsourced := hall p origin hmem
  cases origin with
  | journal => exact absurd hsourced id
  | burn target => exact .inl ⟨target, rfl, hsourced⟩
  | source offer =>
    obtain ⟨hwts, c, hc, rfl, hfresh⟩ := hsourced
    have hkept := hkempt.kept
    rw [show env.loadSource (run env s (earlier ++ [(q, n)])).state = some c from
      hload.trans hc] at hkept
    obtain ⟨⟨first, hfirst⟩, hseen⟩ := hkept
    refine .inr ⟨c.offer, rfl, hwts, ⟨first, hfirst, (hkempt.seen _ hfirst).2⟩, ?_, ?_⟩
    · intro first hfirst
      have hle := (hseen _ hfirst).1 rfl
      exact le_trans (sub_le_sub_left hle _) hfresh.2
    · intro c' response hc' hr hconfl hsame
      rw [href hc' hr hconfl] at hc
      have hcc : c' = c := some.inj (hc'.symm.trans hc)
      subst hcc
      rcases hconfl with hlt | ⟨-, hne⟩
      · rw [← hsame] at hlt
        exact absurd hlt (Nat.lt_irrefl _)
      · exact hne hsame.symm

end FollowCall

namespace FollowSample

def hashes : OfferHashes :=
  { FollowedSample.hashes with
    record := fun r => .ofNat (2 * r.val.submitBlock + if r.val.status = .intent then 0 else 1) }

/-- A follower of one source. -/
def env : FollowEnv where
  hashes := hashes
  responseDigest _ := .ofNat 1
  burnDigest _ := .ofNat 1
  verify _ _ _ := true
  scope := ⟨.ofNat 1, 1⟩
  identity := ⟨"https://weights", some "authority", "signer"⟩

def metagraph (block : ℕ) : MetagraphView where
  block := block
  blockHash := String.ofList ('0' :: 'x' :: List.replicate 64 'a')
  members := [⟨0, "signer", 0⟩, ⟨1, "miner", 0⟩]

def offer : CurrentWeightOffer := .fromLegacyProjection (sampleProjection 100)

def response : SignedOfferResponse where
  authorityHotkey := "authority"
  netuid := 1
  offer := offer
  timestamp := 1000
  bodyDigest := .ofNat 1
  headerAuthority := "authority"
  headerTimestamp := "1000"
  headerNetuid := "1"
  headerBodyDigest := none
  signature := "signature"

/-- A call that reaches the source; its commit fails. -/
def fetched : FollowCall where
  maxSkewSeconds := 60
  refreshBlocks := 360
  now := 1000
  epoch := by decide
  requestTime := 1000
  live := .ok (metagraph 100)
  response := .ok response
  relive := .error (.economics "unread")
  bound := .error (.economics "unread")
  burn := .error (.economics "unread")
  signingLive := .ok (metagraph 100)
  signingBound := .error (.economics "unread")
  sdk := .raised "TimeoutError"

/-- A call an hour later that does not reach the source. -/
def unreachable : FollowCall :=
  { fetched with
    now := 4600
    epoch := by decide
    requestTime := 4600
    live := .ok (metagraph 400)
    response := .error (.share ⟨"weight-share transport failed"⟩)
    signingLive := .ok (metagraph 400)
    sdk := .answered true 0 }

def start : FollowerStore := ⟨none, .empty⟩

/-- The vectors that were submitted, by where they come from. -/
def submissions (log : List FollowEvent) : List (List (Hotkey × ℕ) × VectorOrigin) :=
  log.filterMap fun
    | .submitted p origin => some (p.weightsPpm, origin)
    | _ => none

theorem followed_fresh_sample : FollowCall.Steady env start [(fetched, 9), (unreachable, 9)] ∧
      submissions (FollowCall.run env start [(fetched, 9), (unreachable, 9)]).log =
        [([("miner", 1000000)], .source offer), ([("miner", 1000000)], .source offer)] ∧
      ∃ events, (FollowCall.run env start [(fetched, 9), (unreachable, 9)]).log =
          (FollowCall.run env start [(fetched, 9)]).log ++ events ∧
        ∀ p, .submitted p (.source offer) ∈ events → ∀ first, (first, offer) ∈
            FollowCall.observations env start [(fetched, 9), (unreachable, 9)] →
            unreachable.now - first.now ≤ maxRetainedSeconds := by
  have hsteady : FollowCall.Steady env start [(fetched, 9), (unreachable, 9)] := by
    refine ⟨rfl, forall_mem_nil _, ?_, ?_⟩
    · refine .cons ?_ (pairwise_singleton _ _)
      rintro _ hmem
      cases mem_singleton.1 hmem
      decide
    · refine .cons ?_ (pairwise_singleton _ _)
      rintro _ hmem
      cases mem_singleton.1 hmem
      decide
  refine ⟨hsteady, by decide +kernel, ?_⟩
  obtain ⟨⟨events, hlog, hall⟩, -⟩ := FollowCall.followed_fresh env start _ hsteady
    [(fetched, 9)] [] unreachable 9 rfl
  refine ⟨events, hlog, fun p hp => ?_⟩
  rcases hall p _ hp with ⟨target, horigin, -⟩ | ⟨offer', horigin, -, -, hage, -⟩
  · cases horigin
  · cases horigin
    exact hage

end FollowSample

end Cacheon
