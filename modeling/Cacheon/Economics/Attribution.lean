import Cacheon.Economics.Allocation

/-!
# The attribution of an allocation

The weight of every account is split again over the requests it was made of.  The parts of the
claims and the burn are the whole, and the parts under a source are what the source is shown.

* `sum_parts` : the parts of all accounts add up to the whole.
* `sum_submissionWeights` : the claims' parts and the burn add up to the whole.
* `sum_weights_source` : the parts of a source's claims add up to its share.
-/

namespace Cacheon

open Fallible EconomicsFault Tally List Assoc Apportion PricedClaim SubmissionAllocation Function

/-- Every part is the burn's or that of a claim in the terms, under its source. -/
def Attributed (terms : List (Digest × String × ℕ)) (requests : List Request)
    (parts : List (WithBot Digest × ℕ)) : Prop :=
  ∀ part ∈ parts, part.1 = ⊥ ∨ ∃ t ∈ terms, part.1 = t.1 ∧ ownerOf requests part.1 = some t.2.1

section Requests

variable {terms : List (Digest × String × ℕ)} {baseCredits : List (Digest × ℕ)}
  {credits : List StandingFamilyCredit} {priced : List PricedClaim}
  {context : GlobalRewardProjectionContext} {burnHotkey : Hotkey} {requests : List Request}

/-- A request has the source its claim has in the terms. -/
theorem source_of_requested
    (hpriced : credits.mapM (priceClaim terms baseCredits) = .ok priced) {r : Request}
    (hr : r ∈ requested priced) : ∃ ppm, terms.lookup r.claimDigest = some (r.source, ppm) := by
  obtain ⟨c, hc, hreq⟩ := mem_requested hr
  obtain ⟨row, -, hrow⟩ := exists_of_mapM hpriced hc
  obtain ⟨hdig, hsrc, -⟩ := request_spec hreq
  simp only [priceClaim, bind_ok, check_ok, get_ok, exists_const] at hrow
  obtain ⟨⟨source, ppm⟩, hterm, base, -, -, heq⟩ := hrow
  cases heq
  exact ⟨ppm, by rwa [hdig, hsrc]⟩

theorem sorted_requested : Keyed.Sorted (·.claimDigest) (requested priced) := Keyed.sorted_ofList

/-- The requests of one account have distinct keys. -/
theorem nodup_recipientParts (h : Keyed.Sorted (·.claimDigest) requests) (hotkey : Hotkey) :
    ((recipientParts context burnHotkey requests hotkey).map (·.1)).Nodup := by
  have hclaims : ((requests.filter fun r => context.recipient r.hotkey = hotkey).map fun r =>
      (r.claimDigest : WithBot Digest)).Nodup := by
    have hdigs := (filter_sublist (l := requests)
      (p := fun r => decide (context.recipient r.hotkey = hotkey))).map (·.claimDigest)
    have hcast := (hdigs.nodup h.nodup).map WithBot.coe_injective
    rwa [map_map] at hcast
  unfold recipientParts
  rw [map_append, map_map]
  refine Nodup.append hclaims ?_ ?_
  · split <;> simp
  · intro k hk hbot
    obtain ⟨r, -, rfl⟩ := mem_map.1 hk
    split at hbot <;> simp at hbot

section

variable {weights : List (Hotkey × ℕ)} {parts : List (List (WithBot Digest × ℕ))}
  (h : weights.mapM (fun weight => allocatePool
    (recipientParts context burnHotkey (requested priced) weight.1) weight.2) = .ok parts)

include h

/-- The parts of all accounts add up to their weights. -/
theorem sum_parts : (parts.flatten.map (·.2)).sum = (weights.map (·.2)).sum := by
  have hall := forall₂_of_mapM h
  clear h
  induction hall with
  | nil => rfl
  | cons hpart _ ih =>
    have hsum := sum_allocate (get_ok.1 hpart) (nodup_recipientParts sorted_requested _)
    rw [flatten_cons, map_append, sum_append, map_cons, sum_cons, ih, hsum]

/-- Every part is of a request or of the burn. -/
theorem mem_parts {part : WithBot Digest × ℕ} (hpart : part ∈ parts.flatten) :
    part.1 = ⊥ ∨ ∃ r ∈ requested priced, part.1 = r.claimDigest := by
  obtain ⟨account, haccount, hmem⟩ := mem_flatten.1 hpart
  obtain ⟨weight, -, hweight⟩ := exists_of_mapM h haccount
  have hkeys := keys_allocate (get_ok.1 hweight)
  have hkey : part.1 ∈ (positives
      (recipientParts context burnHotkey (requested priced) weight.1)).map (·.1) :=
    hkeys ▸ mem_map_of_mem hmem
  obtain ⟨row, hrow, heq⟩ := mem_map.1 hkey
  rw [← heq]
  rcases mem_append.1 (mem_positives.1 hrow).1 with h | h
  · obtain ⟨r, hr, rfl⟩ := mem_map.1 h
    exact .inr ⟨r, mem_of_mem_filter hr, rfl⟩
  · split at h
    · rw [mem_singleton.1 h]
      exact .inl rfl
    · cases h

/-- The parts of an allocation are under the sources of the terms. -/
theorem attributed_parts (hterms : (terms.map (·.1)).Nodup)
    (hpriced : credits.mapM (priceClaim terms baseCredits) = .ok priced) :
    Attributed terms (requested priced) parts.flatten := by
  intro part hpart
  refine (mem_parts h hpart).imp_right ?_
  rintro ⟨r, hr, hkey⟩
  obtain ⟨ppm, hlook⟩ := source_of_requested hpriced hr
  refine ⟨_, (lookup_eq_some hterms).1 hlook, hkey, ?_⟩
  rw [hkey]
  have hfind : Keyed.find? (·.claimDigest) r.claimDigest (requested priced) = some r :=
    find?_of_mem sorted_requested.nodup hr
  simp only [ownerOf, hfind]
  rfl

end

/-- The amounts of an account's parts are its share of the requests. -/
theorem total_recipientParts (hotkey : Hotkey) :
    total (recipientParts context burnHotkey requests hotkey) =
      share (recipientShares context burnHotkey requests) hotkey := by
  simp only [total, recipientParts, recipientShares, share, filter_append,
    filter_map, map_append, map_map, comp_def]
  by_cases hburn : burnHotkey = hotkey <;> simp [hburn]

theorem sourceSum_pos {c : PricedClaim} {amount : PricedClaim → ℕ} (hc : c ∈ priced)
    (hppm : c.ppm ≠ 0) (hamt : 0 < amount c) : 0 < sourceSum priced amount c.source := by
  have hmem : amount c ∈ (priced.filter fun d => d.source = c.source ∧ d.ppm ≠ 0).map amount :=
    mem_map_of_mem (mem_filter.2 ⟨hc, by simp [hppm]⟩)
  exact hamt.trans_le (single_le_sum (fun _ _ => Nat.zero_le _) _ hmem)

theorem exists_priceClaim (hterms : ∀ t ∈ terms, t.2.1 ≠ "" ∧ t.2.2 ≤ weightPpm)
    {row : StandingFamilyCredit} (hterm : row.claimDigest ∈ terms.map (·.1))
    (hbase : row.claimDigest ∈ baseCredits.map (·.1)) :
    ∃ c, priceClaim terms baseCredits row = .ok c := by
  cases hfound : terms.lookup row.claimDigest with
  | none => exact absurd hterm (lookup_eq_none.1 hfound)
  | some t =>
    cases hcredit : baseCredits.lookup row.claimDigest with
    | none => exact absurd hbase (lookup_eq_none.1 hcredit)
    | some base =>
      simp only [priceClaim, bind_ok, exists_check, get_ok]
      exact ⟨_, t, hfound, base, hcredit, hterms _ (mem_of_lookup hfound), rfl⟩

/-- Once the terms are well formed nothing can fail any more. -/
theorem exists_submissionWeights (hkeys : sameKeys (terms.map (·.1)) (credits.map (·.claimDigest)) ∧
      sameKeys (baseCredits.map (·.1)) (terms.map (·.1)) ∧ burnHotkey ∈ context.eligibleHotkeys)
    (hterms : ∀ t ∈ terms, t.2.1 ≠ "" ∧ t.2.2 ≤ weightPpm) :
    ∃ a, allocateSubmissionWeights credits terms context burnHotkey baseCredits = .ok a := by
  have hsame := hkeys
  simp only [sameKeys, Bool.and_eq_true, all_eq_true, decide_eq_true_eq] at hsame
  obtain ⟨priced, hpriced⟩ := exists_mapM (f := priceClaim terms baseCredits) fun row hrow =>
    have hterm := hsame.1.2 _ (mem_map_of_mem hrow)
    exists_priceClaim hterms hterm (hsame.2.1.2 _ hterm)
  set shares := recipientShares context burnHotkey (requested priced)
  -- What is not requested is burned, so the requests and the burn are at least the whole.
  have htotal : 0 < total (tally shares) := by
    have hwhole : (weightPpm : ℚ) ≤ total shares := by
      simp only [shares, total, recipientShares, burnShare, map_append, map_map,
        comp_def, sum_append, map_cons, map_nil, sum_singleton]
      linarith [le_max_right (0 : ℚ) (weightPpm - ((requested priced).map (·.share)).sum)]
    rw [total, sum_tally]
    exact lt_of_lt_of_le (by norm_num [weightPpm]) hwhole
  obtain ⟨weights, hwts⟩ := exists_allocate htotal
  -- An account has a weight because its parts are positive.
  obtain ⟨parts, hparts⟩ := exists_mapM (l := weights) (f := fun weight =>
      allocatePool (recipientParts context burnHotkey (requested priced) weight.1) weight.2)
    fun weight hweight => by
      obtain ⟨c, hc, hpos, -⟩ := value_allocate hwts hweight
      have hshare : c = share shares weight.1 := (mem_tally.1 hc).2
      rw [hshare, ← total_recipientParts] at hpos
      obtain ⟨part, hpart⟩ := exists_allocate hpos
      exact ⟨part, get_ok.2 hpart⟩
  simp only [allocateSubmissionWeights, bind_ok, exists_check]
  exact ⟨_, hkeys, priced, hpriced, weights, get_ok.2 hwts, parts, hparts, rfl⟩

end Requests

section Parts

variable {terms : List (Digest × String × ℕ)} {requests : List Request}
  {weights : List (Hotkey × ℕ)} {parts : List (WithBot Digest × ℕ)}

theorem nodup_coe_terms (hnodup : (terms.map (·.1)).Nodup) :
    (terms.map fun t => (t.1 : WithBot Digest)).Nodup := by
  have hcast := hnodup.map WithBot.coe_injective
  rwa [map_map] at hcast

/-- The claims' parts and the burn are all the parts. -/
theorem sum_submissionWeights (hnodup : (terms.map (·.1)).Nodup)
    (h : Attributed terms requests parts) :
    ((ofParts terms requests weights parts).submissionWeights.map (·.2)).sum +
      (ofParts terms requests weights parts).burned = (parts.map (·.2)).sum := by
  have hkeys : ∀ part ∈ parts, part.1 ∈ ⊥ :: terms.map fun t => (t.1 : WithBot Digest) := by
    intro part hpart
    rcases h part hpart with hbot | ⟨t, ht, heq, -⟩
    · exact hbot ▸ mem_cons_self
    · exact mem_cons_of_mem _ (heq ▸ mem_map.2 ⟨t, ht, rfl⟩)
  have hdistinct : (⊥ :: terms.map fun t => (t.1 : WithBot Digest)).Nodup := by
    refine nodup_cons.2 ⟨?_, nodup_coe_terms hnodup⟩
    rintro hbot
    obtain ⟨t, -, heq⟩ := mem_map.1 hbot
    exact WithBot.coe_ne_bot heq
  rw [← sum_share hdistinct hkeys, map_cons, sum_cons, add_comm, map_map]
  simp only [ofParts, map_map]
  rfl

/-- What the rows under a source add up to. -/
theorem share_filterMap_owner (owner : WithBot Digest → Option String) (source : String) :
    share (parts.filterMap fun part => (owner part.1).map fun source => (source, part.2)) source =
      ((parts.filter fun part => owner part.1 = some source).map (·.2)).sum := by
  induction parts with
  | nil => rfl
  | cons part parts ih =>
    cases howner : owner part.1 with
    | none =>
      rw [filterMap_cons_none (by rw [howner]; rfl), ih, filter_cons_of_neg (by simp [howner])]
    | some name =>
      rw [filterMap_cons_some (by rw [howner]; rfl), share_cons, ih]
      by_cases hname : name = source
      · rw [filter_cons_of_pos (by simp [howner, hname]), if_pos hname, map_cons, sum_cons]
      · rw [filter_cons_of_neg (by simp [howner, hname]), if_neg hname, zero_add]

/-- The parts of a source's claims are its share. -/
theorem sum_weights_source (hnodup : (terms.map (·.1)).Nodup)
    (h : Attributed terms requests parts) (source : String) :
    ((terms.filter (·.2.1 = source)).map fun t => share parts (t.1 : WithBot Digest)).sum =
      share (ofParts terms requests weights parts).arenaShares source := by
  simp only [ofParts, share_tally, share_filterMap_owner]
  set owned := parts.filter fun part => ownerOf requests part.1 = some source
  set keys := (terms.filter (·.2.1 = source)).map fun t => (t.1 : WithBot Digest)
  have hkeys : ∀ part ∈ owned, part.1 ∈ keys := by
    intro part hpart
    obtain ⟨hpart, howner⟩ := mem_filter.1 hpart
    rcases h part hpart with hbot | ⟨t, ht, heq, ht'⟩
    · rw [hbot] at howner
      cases howner
    · rw [ht'] at howner
      exact mem_map.2 ⟨t, mem_filter.2 ⟨ht, by simpa using howner⟩, heq.symm⟩
  have hdistinct : keys.Nodup := (filter_sublist.map _).nodup (nodup_coe_terms hnodup)
  rw [← sum_share hdistinct hkeys, map_map]
  refine congrArg List.sum (map_congr_left fun t ht => ?_)
  obtain ⟨ht, hsrc⟩ := mem_filter.1 ht
  have hsrc : t.2.1 = source := of_decide_eq_true hsrc
  -- All parts of a claim of the source are under the source.
  have hall : ∀ part ∈ parts, part.1 = t.1 → ownerOf requests part.1 = some source := by
    intro part hpart hkey
    rcases h part hpart with hbot | ⟨t', ht', heq, howner⟩
    · exact absurd (hkey.symm.trans hbot) WithBot.coe_ne_bot
    · have hsame : t'.1 = t.1 := WithBot.coe_injective (heq.symm.trans hkey)
      rw [howner, inj_on_of_nodup_map hnodup ht' ht hsame, hsrc]
  simp only [comp_apply, share, owned, filter_filter]
  refine congrArg (fun l => (List.map Prod.snd l).sum) (filter_congr fun part hpart => ?_)
  by_cases hkey : part.1 = t.1
  · have howner := hall part hpart hkey
    rw [hkey] at howner
    simp [hkey, howner]
  · simp [hkey]

/-- The shares of the sources and the burn are all the parts. -/
theorem sum_arenaShares (h : Attributed terms requests parts) :
    ((ofParts terms requests weights parts).arenaShares.map (·.2)).sum +
      (ofParts terms requests weights parts).burned = (parts.map (·.2)).sum := by
  simp only [ofParts, sum_tally]
  induction parts with
  | nil => rfl
  | cons part parts ih =>
    have ih := ih fun part hpart => h part (.tail _ hpart)
    rw [share_cons, map_cons, sum_cons, ← ih]
    rcases h part (.head _) with hbot | ⟨t, -, hkey, howner⟩
    · rw [filterMap_cons_none (by rw [hbot]; rfl), if_pos hbot]
      omega
    · rw [filterMap_cons_some (by rw [howner]; rfl), if_neg (hkey ▸ WithBot.coe_ne_bot)]
      simp only [map_cons, sum_cons]
      omega

theorem mem_rewarded (h : Attributed terms requests parts) {d : Digest} :
    d ∈ (ofParts terms requests weights parts).rewarded ↔
      ∃ w, (d, w) ∈ (ofParts terms requests weights parts).submissionWeights ∧ 0 < w := by
  have hpositive : 0 < share parts (d : WithBot Digest) ↔
      ∃ part ∈ parts, part.1 = d ∧ part.2 ≠ 0 := by
    simp [share, Nat.pos_iff_ne_zero, sum_eq_zero_iff]
  have hrew : d ∈ (ofParts terms requests weights parts).rewarded ↔
      0 < share parts (d : WithBot Digest) := by
    simp only [ofParts, Keyed.mem_sortBy, mem_filterMap, hpositive]
    refine exists_congr fun part => and_congr_right fun _ => ?_
    cases part with | mk k w => cases k <;> simp [and_comm]
  rw [hrew]
  constructor
  · intro hpos
    obtain ⟨part, hpart, hkey, -⟩ := hpositive.1 hpos
    rcases h part hpart with hbot | ⟨t, ht, hterm, -⟩
    · exact absurd (hkey.symm.trans hbot) WithBot.coe_ne_bot
    · obtain rfl : t.1 = d := WithBot.coe_injective (hterm.symm.trans hkey)
      exact ⟨_, mem_map.2 ⟨t, ht, rfl⟩, hpos⟩
  · rintro ⟨w, hw, hpos⟩
    obtain ⟨t, -, heq⟩ := mem_map.1 hw
    cases heq
    exact hpos

end Parts

/-- **The attribution of an allocation is exact**: the claims' parts and the burn add up to the
whole, and the parts of a source's claims add up to the share of the source. -/
theorem submissionWeights_attributed {credits : List StandingFamilyCredit}
    {terms : List (Digest × String × ℕ)} {context : GlobalRewardProjectionContext}
    {burnHotkey : Hotkey} {baseCredits : List (Digest × ℕ)} {a : SubmissionAllocation}
    (hterms : (terms.map (·.1)).Nodup)
    (h : allocateSubmissionWeights credits terms context burnHotkey baseCredits = .ok a) :
    a.submissionWeights.map (·.1) = terms.map (·.1) ∧
      (a.submissionWeights.map (·.2)).sum + a.burned = weightPpm ∧
      ∀ source, ((terms.filter (·.2.1 = source)).map fun t => share a.submissionWeights t.1).sum =
        share a.arenaShares source := by
  obtain ⟨-, -, -, hsum, -⟩ := submissionWeights_spec h
  simp only [allocateSubmissionWeights, bind_ok, exists_check] at h
  obtain ⟨-, priced, hpriced, weights, hwts, parts, hparts, heq⟩ := h
  cases heq
  have hattr := attributed_parts hparts hterms hpriced
  have hkeys : (terms.map fun t => (t.1, share parts.flatten (t.1 : WithBot Digest))).map (·.1) =
      terms.map (·.1) := by
    rw [map_map]
    rfl
  refine ⟨hkeys, ?_, fun source => ?_⟩
  · rw [sum_submissionWeights hterms hattr, sum_parts hparts]
    exact hsum
  · rw [← sum_weights_source hterms hattr source]
    refine congrArg List.sum (map_congr_left fun t ht => ?_)
    have hmem : (t.1, share parts.flatten (t.1 : WithBot Digest)) ∈
        terms.map fun t => (t.1, share parts.flatten (t.1 : WithBot Digest)) :=
      mem_map_of_mem (mem_of_mem_filter ht)
    exact share_of_mem (hkeys ▸ hterms) hmem

/-- **An allocation conserves the whole**, and it fails only on malformed terms. -/
theorem allocateSubmissionWeights_conserves (credits : List StandingFamilyCredit)
    (terms : List (Digest × String × ℕ)) (context : GlobalRewardProjectionContext)
    (burnHotkey : Hotkey) (baseCredits : List (Digest × ℕ)) :
    ((terms.map (·.1)).Nodup → ∀ a,
      allocateSubmissionWeights credits terms context burnHotkey baseCredits = .ok a →
      (a.weights.map (·.2)).sum = weightPpm ∧
      (∃ priced parts, credits.mapM (priceClaim terms baseCredits) = .ok priced ∧
        Apportion.Split weightPpm (recipientShares context burnHotkey (requested priced))
          (share a.weights) ∧
        a = .ofParts terms (requested priced) a.weights parts.flatten ∧
        List.Forall₂ (fun weight part => (part.map (·.2)).sum = weight.2 ∧
          allocatePool (recipientParts context burnHotkey (requested priced) weight.1) weight.2 =
            .ok part) a.weights parts) ∧
      (a.arenaShares.map (·.2)).sum + a.burned = weightPpm ∧
      (a.submissionWeights.map (·.2)).sum + a.burned = weightPpm ∧
      ∀ d, d ∈ a.rewarded ↔ ∃ w, (d, w) ∈ a.submissionWeights ∧ 0 < w) ∧
    (sameKeys (terms.map (·.1)) (credits.map (·.claimDigest)) ∧
        sameKeys (baseCredits.map (·.1)) (terms.map (·.1)) ∧
        burnHotkey ∈ context.eligibleHotkeys →
      (∀ t ∈ terms, t.2.1 ≠ "" ∧ t.2.2 ≤ weightPpm) →
      ∃ a, allocateSubmissionWeights credits terms context burnHotkey baseCredits = .ok a) ∧
    ∀ priced, credits.mapM (priceClaim terms baseCredits) = .ok priced →
      ∀ c ∈ priced, (c.request priced).isSome → sourceSum priced (·.base) c.source ≠ 0 ∧
        sourceSum priced (fun c => c.ppm * c.row.credit) c.source ≠ 0 := by
  refine ⟨fun hterms a h => ?_, exists_submissionWeights, fun priced _ c hc hrequest => ?_⟩
  · obtain ⟨priced, -, hpriced, hsum, -, hsplit⟩ := submissionWeights_spec h
    obtain ⟨-, htotal, -⟩ := submissionWeights_attributed hterms h
    simp only [allocateSubmissionWeights, bind_ok, exists_check] at h
    obtain ⟨-, priced', hpriced', weights, hwts, parts, hparts, heq⟩ := h
    obtain rfl := Except.ok.inj (hpriced.symm.trans hpriced')
    cases heq
    have hattr := attributed_parts hparts hterms hpriced
    refine ⟨hsum, ⟨priced, parts, hpriced, hsplit, rfl, ?_⟩, ?_, htotal, fun d =>
      mem_rewarded hattr⟩
    · refine (forall₂_of_mapM hparts).imp fun weight part hpart => ⟨?_, hpart⟩
      exact sum_allocate (get_ok.1 hpart) (nodup_recipientParts sorted_requested _)
    · rw [sum_arenaShares hattr, sum_parts hparts]
      exact hsum
  · simp only [request] at hrequest
    split_ifs at hrequest with hnone
    · cases hrequest
    · obtain ⟨hppm, hcredit, htotal⟩ := by simpa only [not_or] using hnone
      exact ⟨htotal, (sourceSum_pos hc hppm (Nat.mul_pos (Nat.pos_of_ne_zero hppm)
        (Nat.pos_of_ne_zero hcredit))).ne'⟩

/-! ### The exact requests of a source -/

/-- What the claims of a source request together. -/
def sourceRequest (requests : List Request) (source : String) : ℚ :=
  ((requests.filter (·.source = source)).map (·.share)).sum

/-- The price of a source: the average of its positive terms by base credit. -/
def sourcePrice (priced : List PricedClaim) (source : String) : ℚ :=
  sourceSum priced (fun c => c.ppm * c.base) source / sourceSum priced (·.base) source

/-- Some claim of the source was offered something and has credit. -/
def SourceEarns (priced : List PricedClaim) (source : String) : Prop :=
  ∃ c ∈ priced, c.source = source ∧ c.ppm ≠ 0 ∧ c.row.credit ≠ 0

/-- The claim with another credit. -/
def PricedClaim.recredit (credit : PricedClaim → ℕ) (c : PricedClaim) : PricedClaim :=
  { c with row := { c.row with credit := credit c } }

section Requested

variable {priced : List PricedClaim} {c : PricedClaim} {r : Request} {source : String}
  {credit : PricedClaim → ℕ}

/-- The requests of some claims of a source are their part of its price. -/
theorem sourceRequest_filterMap (l : List PricedClaim)
    (hbase : sourceSum priced (·.base) source ≠ 0) :
    sourceRequest (l.filterMap (request priced)) source =
      sourcePrice priced source * (sourceSum l (fun c => c.ppm * c.row.credit) source /
        sourceSum priced (fun c => c.ppm * c.row.credit) source) := by
  induction l with
  | nil => simp [sourceRequest, sourceSum]
  | cons c l ih =>
    have hsum : sourceSum (c :: l) (fun c => c.ppm * c.row.credit) source =
        (if c.source = source then c.ppm * c.row.credit else 0) +
          sourceSum l (fun c => c.ppm * c.row.credit) source := by
      by_cases hsrc : c.source = source <;> by_cases hppm : c.ppm = 0 <;>
        simp [sourceSum, hsrc, hppm]
    rw [hsum, filterMap_cons]
    cases hrequest : c.request priced with
    | none =>
      have hzero : (if c.source = source then c.ppm * c.row.credit else 0) = 0 := by
        split_ifs with hsrc
        · subst hsrc
          simpa [request, hbase, or_iff_not_imp_left] using hrequest
        · rfl
      rw [hzero, zero_add, ih]
    | some r =>
      simp only [sourceRequest, filter_cons, (request_spec hrequest).2.1, decide_eq_true_eq]
      split_ifs with hsrc
      · simp only [request] at hrequest
        split_ifs at hrequest
        cases hrequest
        refine (congrArg (_ + ·) ih).trans ?_
        rw [← hsrc, sourcePrice]
        push_cast
        ring
      · rw [zero_add]
        exact ih

/-- A source that has anything to pay requests its price. -/
theorem sourceRequest_eq (hdistinct : (priced.map (·.row.claimDigest)).Nodup)
    (hearns : SourceEarns priced source) (hbase : sourceSum priced (·.base) source ≠ 0) :
    sourceRequest (requested priced) source = sourcePrice priced source := by
  obtain ⟨c, hc, rfl, hppm, hcredit⟩ := hearns
  have hinternal : 0 < sourceSum priced (fun c => c.ppm * c.row.credit) c.source :=
    sourceSum_pos hc hppm (by positivity)
  have hperm := ((requested_perm hdistinct).filter (·.source = c.source)).map (·.share)
  refine hperm.sum_eq.trans ((sourceRequest_filterMap priced hbase).trans ?_)
  rw [div_self (by exact_mod_cast hinternal.ne'), mul_one]

theorem sum_requested (hdistinct : (priced.map (·.row.claimDigest)).Nodup) (source : String) :
    ((requested priced).map (·.share)).sum = sourceRequest (requested priced) source +
      (((priced.filterMap (request priced)).filter (·.source ≠ source)).map (·.share)).sum := by
  rw [← ((filter_append_perm (·.source = source) (requested priced)).map (·.share)).sum_eq,
    map_append, sum_append]
  have hoth := (requested_perm hdistinct).filter fun r => !decide (r.source = source)
  rw [(hoth.map _).sum_eq]
  simp [sourceRequest]

theorem sourceSum_recredit {amount : PricedClaim → ℕ} :
    sourceSum (priced.map (.recredit credit)) amount source =
      sourceSum priced (fun c => amount (c.recredit credit)) source := by
  simp only [sourceSum, filter_map, map_map]
  rfl

/-- Outside the source whose credits change the requests are as they were. -/
theorem requests_recredit (h : ∀ c, c.source ≠ source → credit c = c.row.credit) :
    ((priced.map (.recredit credit)).filterMap
        (request (priced.map (.recredit credit)))).filter (·.source ≠ source) =
      (priced.filterMap (request priced)).filter (·.source ≠ source) := by
  rw [filterMap_map, filter_filterMap, filter_filterMap]
  refine filterMap_congr fun c _ => ?_
  by_cases hsrc : c.source = source
  · have hnone (l : List PricedClaim) (d : PricedClaim) (hd : d.source = source) :
        (d.request l).filter (fun r => r.source ≠ source) = none := by
      cases h : d.request l with
      | none => rfl
      | some r => simp [Option.filter, (request_spec h).2.1, hd]
    exact (hnone _ (c.recredit credit) hsrc).trans (hnone _ c hsrc).symm
  · have hsame (d : PricedClaim) (hd : d.source ≠ source) : d.recredit credit = d := by
      rw [recredit, h d hd]
    have hsums (amount : PricedClaim → ℕ) : sourceSum (priced.map (.recredit credit)) amount
        c.source = sourceSum priced amount c.source := by
      rw [sourceSum_recredit]
      refine congrArg List.sum (map_congr_left fun d hd => ?_)
      rw [hsame d ((of_decide_eq_true (mem_filter.1 hd).2).1 ▸ hsrc)]
    rw [comp_apply, hsame c hsrc]
    simp only [request, hsums]

end Requested

/-- **A source requests the average of its terms, whatever its credits are.** -/
theorem sourceRequest_law {credits : List StandingFamilyCredit} {terms : List (Digest × String × ℕ)}
    {baseCredits : List (Digest × ℕ)} {priced : List PricedClaim} {source : String}
    (h : credits.mapM (priceClaim terms baseCredits) = .ok priced)
    (hdistinct : (credits.map (·.claimDigest)).Nodup) (hearns : SourceEarns priced source)
    (hbase : sourceSum priced (·.base) source ≠ 0) :
    sourceRequest (requested priced) source = sourcePrice priced source ∧
    (∀ p : ℕ, (∀ c ∈ priced, c.source = source → c.ppm ≠ 0 → c.ppm = p) →
      sourceRequest (requested priced) source = p) ∧
    ∀ credit : PricedClaim → ℕ, (∀ c, c.source ≠ source → credit c = c.row.credit) →
      SourceEarns (priced.map (.recredit credit)) source →
      (∀ r, r.source ≠ source →
        (r ∈ requested (priced.map (.recredit credit)) ↔ r ∈ requested priced)) ∧
      burnShare (requested (priced.map (.recredit credit))) = burnShare (requested priced) := by
  have hnodup : (priced.map (·.row.claimDigest)).Nodup := by
    rwa [← rows_of_priced h, map_map] at hdistinct
  have hprice := sourceRequest_eq hnodup hearns hbase
  refine ⟨hprice, fun p hp => ?_, fun credit hcredit hearns' => ?_⟩
  · have hterms : sourceSum priced (fun c => c.ppm * c.base) source =
        p * sourceSum priced (·.base) source := by
      rw [sourceSum, sourceSum, ← sum_map_mul_left]
      refine congrArg List.sum (map_congr_left fun c hc => ?_)
      obtain ⟨hc, hmatch⟩ := mem_filter.1 hc
      rw [hp c hc (of_decide_eq_true hmatch).1 (of_decide_eq_true hmatch).2]
    rw [hprice, sourcePrice, hterms, Nat.cast_mul,
      mul_div_cancel_right₀ _ (by exact_mod_cast hbase)]
  · have hnodup' : ((priced.map (recredit credit)).map (·.row.claimDigest)).Nodup := by
      rwa [map_map]
    have hsame : sourceRequest (requested (priced.map (.recredit credit))) source =
        sourcePrice priced source := by
      rw [sourceRequest_eq hnodup' hearns' (by rwa [sourceSum_recredit]), sourcePrice,
        sourceSum_recredit, sourceSum_recredit]
      rfl
    refine ⟨fun r hr => ?_, ?_⟩
    · have hmem := congrArg (r ∈ ·) (@requests_recredit priced _ _ hcredit)
      simpa [(requested_perm hnodup').mem_iff, (requested_perm hnodup).mem_iff, hr] using hmem
    · rw [burnShare, burnShare, sum_requested hnodup' source, sum_requested hnodup source, hsame,
        hprice, requests_recredit hcredit]

/-- A credit of five for a claim that is offered half of the whole. -/
def halfCredit : StandingFamilyCredit := ⟨.ofNat 1, .ofNat 2, "target", .ofNat 3, "miner", 5⟩

/-- The priced claim of that credit. -/
def halfPriced : PricedClaim := ⟨halfCredit, "arena", 500000, 10⟩

/-- With it another claim of the same source, and one of another source. -/
def samplePriced : List PricedClaim :=
  [halfPriced, ⟨{ halfCredit with claimDigest := .ofNat 4, credit := 2 }, "arena", 600000, 30⟩,
    ⟨{ halfCredit with claimDigest := .ofNat 5, hotkey := "rival" }, "other", 200000, 4⟩]

/-- The claims of one source ask for the average of their terms, and new credits for them leave the
other source and the burn as they were. -/
theorem sourceRequest_average :
    let credit (c : PricedClaim) := if c.source = "arena" then 7 else c.row.credit
    sourceRequest (requested samplePriced) "arena" = 575000 ∧
      sourceRequest (requested samplePriced) "other" = (200000 : ℕ) ∧
      burnShare (requested (samplePriced.map (.recredit credit))) =
        burnShare (requested samplePriced) := by
  intro credit
  have hpriced : (samplePriced.map (·.row)).mapM (priceClaim
      (samplePriced.map fun c => (c.row.claimDigest, c.source, c.ppm))
      (samplePriced.map fun c => (c.row.claimDigest, c.base))) = .ok samplePriced := by decide
  have hdistinct : ((samplePriced.map (·.row)).map (·.claimDigest)).Nodup := by decide
  have harena : SourceEarns samplePriced "arena" := ⟨halfPriced, by decide⟩
  have hearns : SourceEarns samplePriced "other" := ⟨samplePriced[2], by decide⟩
  obtain ⟨hprice, -, hrecredit⟩ := sourceRequest_law hpriced hdistinct harena (by decide)
  have hother := (sourceRequest_law hpriced hdistinct hearns (by decide)).2.1
  refine ⟨hprice.trans ?_, hother 200000 (by decide), ?_⟩
  · have haverage : sourcePrice samplePriced "arena" = ((23000000 : ℕ) : ℚ) / (40 : ℕ) := rfl
    rw [haverage]
    norm_num
  · exact (hrecredit credit (fun c hc => if_neg hc) ⟨_, .head _, by decide⟩).2

/-- A digest that is credited twice is asked for once, at half of the price of its source. -/
theorem sourceRequest_repeated : [halfCredit, halfCredit].mapM (priceClaim
      [(.ofNat 3, "arena", 500000)] [(.ofNat 3, 10)]) = .ok [halfPriced, halfPriced] ∧
    SourceEarns [halfPriced, halfPriced] "arena" ∧
    sourceSum [halfPriced, halfPriced] (·.base) "arena" ≠ 0 ∧
    sourceRequest (requested [halfPriced, halfPriced]) "arena" ≠
      sourcePrice [halfPriced, halfPriced] "arena" := by
  refine ⟨rfl, ⟨halfPriced, by decide, rfl, by decide, by decide⟩, by decide, ?_⟩
  have hrequest : sourceRequest (requested [halfPriced, halfPriced]) "arena" =
    ((10000000 : ℕ) : ℚ) / (20 : ℕ) * ((2500000 : ℕ) / (5000000 : ℕ)) + 0 := rfl
  have hprice : sourcePrice [halfPriced, halfPriced] "arena" =
    ((10000000 : ℕ) : ℚ) / (20 : ℕ) := rfl
  rw [hrequest, hprice]
  norm_num

end Cacheon
