import Cacheon.Economics.Claims
import Cacheon.Lib.Apportion

/-!
# Submission-time allocation

Each claim carries the percentage its arena had when it was submitted.  The pool of a source is
priced without the stall bonus, each pool is split with it, and what no pool requests is burned.

* `allocatePool` : split a pool over credits by largest remainder.
* `allocateSubmissionWeights` : weights, arena shares, rewarded claims and burn.
* `submissionWeights_spec` : the weights split the whole over every request.
-/

namespace Cacheon

open Fallible EconomicsFault Tally List Keyed Apportion

/-- Split a pool over the positive credits. -/
def allocatePool {κ : Type} [LinearOrder κ] (credits : List (κ × ℚ)) (pool : ℕ) :
    EconomicsM (List (κ × ℕ)) :=
  get (economics "a non-empty reward pool has no positive credit") (allocate credits pool)

section Pool

variable {κ : Type} [LinearOrder κ] {claims : List (κ × ℚ)} {pool : ℕ} {parts : List (κ × ℕ)}

/-- What a returned split of tallied claims is. -/
theorem allocatePool_spec (hnonneg : ∀ c ∈ claims, 0 ≤ c.2)
    (h : allocatePool (tally claims) pool = .ok parts) :
    (parts.map (·.2)).sum = pool ∧ (∀ row ∈ parts, row.1 ∈ claims.map (·.1)) ∧
      Apportion.Split pool claims (share parts) := by
  have h : allocate (tally claims) pool = some parts := get_ok.1 h
  refine ⟨sum_allocate h nodup_tally, ?_, split_allocate hnonneg h⟩
  intro row hrow
  have hkey : row.1 ∈ (positives (tally claims)).map (·.1) := keys_allocate h ▸ mem_map_of_mem hrow
  obtain ⟨credit, hcredit, heq⟩ := mem_map.1 hkey
  have hclaim := (mem_tally.1 (mem_positives.1 hcredit).1).1
  rwa [heq] at hclaim

end Pool

/-- Two dictionaries have the same keys. -/
def sameKeys (a b : List Digest) : Bool := a.all (· ∈ b) && b.all (· ∈ a)

/-- A credited claim with its terms. -/
structure PricedClaim where
  row : StandingFamilyCredit
  source : String
  ppm : ℕ
  base : ℕ
deriving DecidableEq

/-- Look up the terms of a credited claim. -/
def priceClaim (terms : List (Digest × String × ℕ)) (baseCredits : List (Digest × ℕ))
    (row : StandingFamilyCredit) : EconomicsM PricedClaim := do
  let (source, ppm) ← get (lookup "terms") (terms.lookup row.claimDigest)
  let base ← get (lookup "base_credits") (baseCredits.lookup row.claimDigest)
  check (source ≠ "" ∧ ppm ≤ weightPpm) (economics "submission allocation terms are malformed")
  return ⟨row, source, ppm, base⟩

/-- Add up an amount over the claims of a source that were offered something. -/
def sourceSum (priced : List PricedClaim) (amount : PricedClaim → ℕ) (source : String) : ℕ :=
  ((priced.filter fun c => c.source = source ∧ c.ppm ≠ 0).map amount).sum

/-- What a claim requests of the shared pool. -/
structure Request where
  claimDigest : Digest
  hotkey : Hotkey
  source : String
  share : ℚ
deriving DecidableEq

/-- A claim with an offer and a credit requests its part of the price of its source. -/
def PricedClaim.request (priced : List PricedClaim) (c : PricedClaim) : Option Request :=
  let total := sourceSum priced (·.base) c.source
  if c.ppm = 0 ∨ c.row.credit = 0 ∨ total = 0 then none
  else
    let pool : ℚ := sourceSum priced (fun c => c.ppm * c.base) c.source / total
    let internal := sourceSum priced (fun c => c.ppm * c.row.credit) c.source
    some {
      claimDigest := c.row.claimDigest
      hotkey := c.row.hotkey
      source := c.source
      share := pool * ((c.ppm * c.row.credit : ℕ) / internal) }

/-- The requests of all claims. -/
def requested (priced : List PricedClaim) : List Request :=
  ofList (·.claimDigest) (priced.filterMap (PricedClaim.request priced))

/-- What the requests leave of the shared pool is burned. -/
def burnShare (requests : List Request) : ℚ := max 0 (weightPpm - (requests.map (·.share)).sum)

/-- The requests and the burn under the accounts they go to. -/
def recipientShares (context : GlobalRewardProjectionContext) (burnHotkey : Hotkey)
    (requests : List Request) : List (Hotkey × ℚ) :=
  (requests.map fun r => (context.recipient r.hotkey, r.share)) ++
    [(burnHotkey, burnShare requests)]

/-- The requests that go to one account; the burn has the key below every claim. -/
def recipientParts (context : GlobalRewardProjectionContext) (burnHotkey : Hotkey)
    (requests : List Request) (hotkey : Hotkey) : List (WithBot Digest × ℚ) :=
  ((requests.filter fun r => context.recipient r.hotkey = hotkey).map fun r =>
      ((r.claimDigest : WithBot Digest), r.share)) ++
    if burnHotkey = hotkey then [(⊥, burnShare requests)] else []

/-- The outcome of an allocation. -/
structure SubmissionAllocation where
  weights : List (Hotkey × ℕ)
  arenaShares : List (String × ℕ)
  rewarded : List Digest
  burned : ℕ
  /-- Each claim's rounded part of the weights. -/
  submissionWeights : List (Digest × ℕ)
deriving DecidableEq

/-- The source a part is paid under; the burn has none. -/
def ownerOf (requests : List Request) : WithBot Digest → Option String
  | none => none
  | some digest => (find? (·.claimDigest) digest requests).map (·.source)

/-- The outcome, from the weights and the parts of all accounts. -/
def SubmissionAllocation.ofParts (terms : List (Digest × String × ℕ)) (requests : List Request)
    (weights : List (Hotkey × ℕ)) (parts : List (WithBot Digest × ℕ)) : SubmissionAllocation where
  weights := weights
  arenaShares := tally (parts.filterMap fun part =>
    (ownerOf requests part.1).map fun source => (source, part.2))
  rewarded := sortBy id
    (parts.filterMap fun part => if part.2 = 0 then none else WithBot.recBotCoe none some part.1)
  burned := share parts ⊥
  submissionWeights := terms.map fun term => (term.1, share parts term.1)

/-- Price the pools without stall and split them with stall credit. -/
def allocateSubmissionWeights (credits : List StandingFamilyCredit)
    (terms : List (Digest × String × ℕ)) (context : GlobalRewardProjectionContext)
    (burnHotkey : Hotkey) (baseCredits : List (Digest × ℕ)) :
    EconomicsM SubmissionAllocation := do
  check (sameKeys (terms.map (·.1)) (credits.map (·.claimDigest)) ∧
      sameKeys (baseCredits.map (·.1)) (terms.map (·.1)) ∧ burnHotkey ∈ context.eligibleHotkeys)
    (economics "allocation terms or burn registration are incomplete")
  let priced ← credits.mapM (priceClaim terms baseCredits)
  let requests := requested priced
  let weights ← allocatePool (tally (recipientShares context burnHotkey requests)) weightPpm
  let parts ← weights.mapM fun weight =>
    allocatePool (recipientParts context burnHotkey requests weight.1) weight.2
  return .ofParts terms requests weights parts.flatten

section Spec

variable {credits : List StandingFamilyCredit} {terms : List (Digest × String × ℕ)}
  {context : GlobalRewardProjectionContext} {burnHotkey : Hotkey}
  {baseCredits : List (Digest × ℕ)} {priced : List PricedClaim} {c : PricedClaim} {r : Request}

theorem row_of_priceClaim {row : StandingFamilyCredit}
    (h : priceClaim terms baseCredits row = .ok c) : c.row = row := by
  simp only [priceClaim, bind_ok, check_ok, get_ok, exists_const] at h
  obtain ⟨_, -, base, -, -, heq⟩ := h
  cases heq
  rfl

/-- Every credited claim is priced. -/
theorem rows_of_priced (h : credits.mapM (priceClaim terms baseCredits) = .ok priced) :
    priced.map (·.row) = credits :=
  (map_eq_of_mapM (fun _ _ => row_of_priceClaim) h).trans (map_id _)

theorem request_spec (h : c.request priced = some r) :
    r.claimDigest = c.row.claimDigest ∧ r.source = c.source ∧ 0 ≤ r.share := by
  simp only [PricedClaim.request] at h
  split_ifs at h
  cases h
  exact ⟨rfl, rfl, by positivity⟩

/-- Claims of distinct digests all keep their request. -/
theorem requested_perm (h : (priced.map (·.row.claimDigest)).Nodup) :
    (requested priced).Perm (priced.filterMap (PricedClaim.request priced)) := by
  refine ofList_perm (pairwise_map.2 (pairwise_filterMap.2 ?_))
  refine (pairwise_map.1 h).imp fun hne r hr r' hr' heq => hne ?_
  rw [← (request_spec hr).1, heq, (request_spec hr').1]

theorem mem_requested (h : r ∈ requested priced) : ∃ c ∈ priced, c.request priced = some r :=
  mem_filterMap.1 (mem_of_mem_ofList h)

theorem recipientShares_nonneg :
    ∀ c ∈ recipientShares context burnHotkey (requested priced), 0 ≤ c.2 := by
  intro c hc
  rcases mem_append.1 hc with hc | hc
  · obtain ⟨r, hr, rfl⟩ := mem_map.1 hc
    obtain ⟨priced', -, hreq⟩ := mem_requested hr
    exact (request_spec hreq).2.2
  · obtain rfl := mem_singleton.1 hc
    exact le_max_left _ _

/-- The weights of an allocation: they add up to the whole, go to registered accounts, and
split the whole over the requests of the recipients. -/
theorem submissionWeights_spec {a : SubmissionAllocation}
    (h : allocateSubmissionWeights credits terms context burnHotkey baseCredits = .ok a) :
    ∃ priced, priced.map (·.row) = credits ∧
      credits.mapM (priceClaim terms baseCredits) = .ok priced ∧
      (a.weights.map (·.2)).sum = weightPpm ∧
      (∀ row ∈ a.weights, row.1 ∈ context.eligibleHotkeys) ∧
      Apportion.Split weightPpm (recipientShares context burnHotkey (requested priced))
        (share a.weights) := by
  simp only [allocateSubmissionWeights, bind_ok, exists_check] at h
  obtain ⟨⟨-, -, hburn⟩, priced, hpriced, wts, hwts, parts, -, heq⟩ := h
  cases heq
  obtain ⟨hsum, hkeys, hsplit⟩ := allocatePool_spec recipientShares_nonneg hwts
  refine ⟨priced, rows_of_priced hpriced, hpriced, hsum, ?_, hsplit⟩
  intro row hrow
  have hkey := hkeys row hrow
  simp only [recipientShares, map_append, map_map, mem_append, map_cons,
    map_nil, mem_singleton] at hkey
  rcases hkey with hkey | hkey
  · obtain ⟨r, -, hr⟩ := mem_map.1 hkey
    exact hr ▸ context.recipient_mem r.hotkey
  · exact hkey ▸ hburn

end Spec

end Cacheon
