import Cacheon.Economics.Allocation
import Cacheon.Intake.Arrival

/-!
# The arena allocation schedule

The owner's settings give every reward source its share of the pool, version by version.  A
submission is priced by the version in force when it arrived, and the primary store keeps the
last schedule it accepted together with the highest block it has seen.

* `ArenaAllocation` : a schedule, with the invariants its reader checks.
* `ArenaAllocation.fromDict`, `ArenaAllocation.toDict` : its reader and its writer.
* `ArenaAllocation.termsAt`, `ArenaAllocation.stallBonusAt` : the terms of a submission block.
* `pools_split` : pools and overcommitted weights are split by largest remainder.
* `bindSchedule` : accept a schedule that only extends the one accepted before.
-/

namespace Cacheon

open Fallible List Keyed Assoc Apportion Tally

/-- What the allocation code raises. -/
inductive AllocationFault where
  /-- `ValueError`. -/
  | value (text : String)
  /-- `IntakeError`. -/
  | intake (text : String)
  /-- A missing key or an exhausted iterator. -/
  | lookup (text : String)
  | economics (fault : EconomicsFault)
deriving DecidableEq

open AllocationFault

abbrev AllocationM := Except AllocationFault

/-- Scale down only overcommitted settings. -/
def normalizeWeights (weights : List (String × ℕ)) : AllocationM (List (String × ℕ)) := do
  check (weights ≠ []) (value "arena weights must be nonnegative integer ppm")
  if (weights.map (·.2)).sum ≤ weightPpm then return weights
  let scaled ← (allocatePool (weights.map fun w => (w.1, (w.2 : ℚ))) weightPpm).mapError economics
  return weights.map fun w => (w.1, (scaled.lookup w.1).getD 0)

/-! ### Schedules -/

/-- The settings in force from a block on. -/
structure AllocationVersion where
  fromBlock : ℕ
  weights : List (String × ℕ)
  stallBonus : ℕ
deriving DecidableEq

/-- The fields of a schedule. -/
structure AllocationFields where
  activationBlock : ℕ
  burnHotkey : String
  /-- Each source with the path of its configuration. -/
  sources : List (String × String)
  history : List AllocationVersion
deriving DecidableEq

/-- The names of the sources. -/
def AllocationFields.names (a : AllocationFields) : List String := a.sources.map (·.1)

/-- A source name: a lower-case letter, then at most 63 letters, digits, `_` and `-`. -/
def isSourceName (name : String) : Bool := isNameOver Char.isLower "0123456789_-" 63 name.toList

/-- A path from the root. -/
def isAbsolute (path : String) : Bool := path.toList.head? == some '/'

/-- An account name without white space. -/
def isBurnHotkey (hotkey : String) : Bool := hotkey != "" && !hotkey.toList.any isSpace

/-- What the reader requires of one version. -/
structure AllocationVersion.WellFormed (activation : ℕ) (names : List String)
    (v : AllocationVersion) : Prop where
  names_eq : v.weights.map (·.1) = names
  bonus_le : v.stallBonus ≤ weightPpm
  /-- Before the activation the waiting bonus has its full strength. -/
  bonus_before : v.fromBlock < activation → v.stallBonus = weightPpm

/-- What the reader requires of a schedule. -/
structure AllocationFields.WellFormed (a : AllocationFields) : Prop where
  activation_pos : 0 < a.activationBlock
  burn_ok : isBurnHotkey a.burnHotkey = true
  sources_ne : a.sources ≠ []
  sources_sorted : Keyed.Sorted (·.1) a.sources
  sources_ok : ∀ s ∈ a.sources, isSourceName s.1 = true ∧ isAbsolute s.2 = true
  history_ok : ∀ v ∈ a.history, v.WellFormed a.activationBlock a.names
  blocks_sorted : (a.history.map (·.fromBlock)).Pairwise (· < ·)
  blocks_zero : (a.history.map (·.fromBlock)).head? = some 0
  blocks_activation : a.activationBlock ∈ a.history.map (·.fromBlock)

/-- An append-only schedule. -/
structure ArenaAllocation extends AllocationFields where
  wellFormed : toAllocationFields.WellFormed
deriving DecidableEq

/-! ### Reading -/

/-- A dictionary has exactly these keys. -/
def hasFields (members : List (String × Json)) (fields : List String) : Prop :=
  members.map (·.1) ⊆ fields ∧ fields ⊆ members.map (·.1)

instance (members : List (String × Json)) (fields : List String) :
    Decidable (hasFields members fields) := instDecidableAnd

/-- Read one source and the path of its configuration. -/
def readSource (item : String × Json) : AllocationM (String × String) := do
  let malformed := value "allocation source name or config path is malformed"
  let path ← get malformed item.2.text
  check (isSourceName item.1 = true ∧ isAbsolute path = true) malformed
  return (item.1, path)

/-- Read the weight of one source. -/
def readWeight (item : String × Json) : AllocationM (String × ℕ) := do
  let weight ← get (value "arena weights must be nonnegative integer ppm") item.2.natural
  return (item.1, weight)

/-- Read one version of the settings. -/
def readVersion (activation : ℕ) (names : List String) (row : Json) :
    AllocationM AllocationVersion := do
  let fields := value "allocation history fields do not match"
  let members ← get fields row.members
  check (hasFields members ["from_block", "weights_ppm"] ∨
    hasFields members ["from_block", "weights_ppm", "stall_bonus_ppm"]) fields
  let named := value "allocation version must name every source"
  let block ← get named ((row.get? "from_block").bind Json.natural)
  let weights ← get named ((row.get? "weights_ppm").bind Json.members)
  check (weights.map (·.1) ⊆ names ∧ names ⊆ weights.map (·.1)) named
  let weights ← (ofList (·.1) weights).mapM readWeight
  let _ ← normalizeWeights weights
  let strength := value "stall bonus must be integer ppm, with full strength before activation"
  let bonus ← get strength (((row.get? "stall_bonus_ppm").map Json.natural).getD weightPpm)
  check (bonus ≤ weightPpm ∧ (block < activation → bonus = weightPpm)) strength
  return ⟨block, weights, bonus⟩

/-- Read the explicit sources and the full history of settings. -/
def readAllocation (v : Json) : AllocationM AllocationFields := do
  let members ← get (value "arena allocation fields do not match") v.members
  check (hasFields members ["activation_block", "burn_hotkey", "sources", "history"])
    (value "arena allocation fields do not match")
  let activation ← get (value "allocation activation block must be positive")
    ((v.get? "activation_block").bind Json.natural)
  check (0 < activation) (value "allocation activation block must be positive")
  let burn ← get (value "allocation burn hotkey is malformed")
    ((v.get? "burn_hotkey").bind Json.text)
  check (isBurnHotkey burn = true) (value "allocation burn hotkey is malformed")
  let sources ← get (value "allocation requires explicit sources")
    ((v.get? "sources").bind Json.members)
  check (sources ≠ []) (value "allocation requires explicit sources")
  let sources ← (ofList (·.1) sources).mapM readSource
  let history ← get (value "allocation history is empty") ((v.get? "history").bind Json.items)
  check (history ≠ []) (value "allocation history is empty")
  let rows ← history.mapM (readVersion activation (sources.map (·.1)))
  let blocks := rows.map (·.fromBlock)
  check (blocks.Pairwise (· < ·) ∧ blocks.head? = some 0 ∧ activation ∈ blocks)
    (value "allocation history needs baseline zero and ordered activation")
  return ⟨activation, burn, sources, rows⟩

section Reading

variable {a : AllocationFields} {v : AllocationVersion} {activation : ℕ} {names : List String}
  {item : String × Json}

theorem readSource_spec {s : String × String} (h : readSource item = .ok s) :
    s.1 = item.1 ∧ isSourceName s.1 = true ∧ isAbsolute s.2 = true := by
  simp only [readSource, bind_ok, check_ok, get_ok, exists_const] at h
  obtain ⟨path, -, hok, heq⟩ := h
  cases heq
  exact ⟨rfl, hok⟩

theorem readWeight_spec {w : String × ℕ} (h : readWeight item = .ok w) : w.1 = item.1 := by
  simp only [readWeight, bind_ok, get_ok] at h
  obtain ⟨weight, -, heq⟩ := h
  cases heq
  rfl

/-- Reading a dictionary gives its items in the order of their keys. -/
theorem sorted_of_mapM {β : Type} {f : String × Json → AllocationM (String × β)}
    {items : List (String × Json)} {rows : List (String × β)}
    (hf : ∀ item row, f item = .ok row → row.1 = item.1)
    (h : (ofList (·.1) items).mapM f = .ok rows) : Keyed.Sorted (·.1) rows := by
  have hsort : (rows.map (·.1)).Pairwise (· < ·) := by
    rw [map_eq_of_mapM hf h]
    exact pairwise_map.2 sorted_ofList
  exact pairwise_map.1 hsort

theorem readVersion_spec {row : Json} (hnames : names.Pairwise (· < ·))
    (h : readVersion activation names row = .ok v) : v.WellFormed activation names := by
  simp only [readVersion, bind_ok, check_ok, get_ok, exists_const] at h
  obtain ⟨-, -, -, block, -, items, -, ⟨hsub, hsup⟩, weights, hwts, -, -, bonus, -,
    ⟨hle, hbef⟩, heq⟩ := h
  cases heq
  refine ⟨?_, hle, hbef⟩
  have hsort := sorted_of_mapM (fun _ _ => readWeight_spec) hwts
  -- Both are in order and have the same elements.
  refine Pairwise.eq_of_mem_iff (pairwise_map.2 hsort) hnames fun k => ?_
  rw [map_eq_of_mapM (fun _ _ => readWeight_spec) hwts, mem_keys_ofList]
  exact ⟨fun hk => hsub hk, fun hk => hsup hk⟩

/-- What is read is well formed. -/
theorem readAllocation_wellFormed {doc : Json} (h : readAllocation doc = .ok a) : a.WellFormed := by
  simp only [readAllocation, bind_ok, check_ok, get_ok, exists_const] at h
  obtain ⟨-, -, -, activation, -, hpos, burn, -, hburn, items, -, hne, sources, hsrcs, history,
    -, -, rows, hrows, ⟨hblks, hzero, hactiv⟩, heq⟩ := h
  cases heq
  have hsort := sorted_of_mapM (fun _ _ hs => (readSource_spec hs).1) hsrcs
  have hkeys := map_eq_of_mapM (fun _ _ hs => (readSource_spec hs).1) hsrcs
  refine ⟨hpos, hburn, ?_, hsort, ?_, ?_, hblks, hzero, hactiv⟩
  · intro hnil
    obtain ⟨item, rest, rfl⟩ := exists_cons_of_ne_nil hne
    have hmem : item.1 ∈ (ofList (·.1) (item :: rest)).map (·.1) := mem_keys_ofList.2 (by simp)
    rw [← hkeys, show sources = [] from hnil] at hmem
    cases hmem
  · intro s hs
    obtain ⟨item, -, hread⟩ := exists_of_mapM hsrcs hs
    exact (readSource_spec hread).2
  · intro v hv
    obtain ⟨row, -, hread⟩ := exists_of_mapM hrows hv
    exact readVersion_spec (pairwise_map.2 hsort) hread

end Reading

namespace ArenaAllocation

/-- Read a schedule. -/
def fromDict (doc : Json) : AllocationM ArenaAllocation :=
  match h : readAllocation doc with
  | .ok a => .ok ⟨a, readAllocation_wellFormed h⟩
  | .error fault => .error fault

theorem fromDict_ok {doc : Json} {a : ArenaAllocation} :
    fromDict doc = .ok a ↔ readAllocation doc = .ok a.toAllocationFields := by
  unfold fromDict
  split
  · next fields h =>
    constructor
    · intro heq
      cases heq
      exact h
    · intro heq
      cases h.symm.trans heq
      rfl
  · next h => simp [h]

end ArenaAllocation

/-! ### Writing -/

/-- The raw settings of one version; a full bonus is left out. -/
def AllocationVersion.toDict (v : AllocationVersion) : Json :=
  .obj ([("from_block", .num v.fromBlock),
      ("weights_ppm", .obj (v.weights.map fun w => (w.1, .num w.2)))] ++
    if v.stallBonus ≠ weightPpm then [("stall_bonus_ppm", .num v.stallBonus)] else [])

namespace ArenaAllocation

variable (a : ArenaAllocation)

/-- The raw settings; their normalized terms are derived. -/
def toDict : Json :=
  .obj [("activation_block", .num a.activationBlock), ("burn_hotkey", .str a.burnHotkey),
    ("sources", .obj (a.sources.map fun s => (s.1, .str s.2))),
    ("history", .arr (a.history.map AllocationVersion.toDict))]

/-- The version in force at a block. -/
def versionAt (block : ℕ) : Option AllocationVersion :=
  a.history.reverse.find? (·.fromBlock ≤ block)

/-- The normalized terms of a submission block. -/
def termsAt (block : ℕ) : AllocationM (List (String × ℕ)) := do
  let version ← get (lookup "StopIteration") (a.versionAt block)
  normalizeWeights version.weights

/-- The strength of the waiting bonus at a submission block. -/
def stallBonusAt (block : ℕ) : AllocationM ℕ := do
  let version ← get (lookup "StopIteration") (a.versionAt block)
  return version.stallBonus

end ArenaAllocation

/-! ### The round trip -/

section RoundTrip

variable {v : AllocationVersion} {activation : ℕ} {names : List String}

theorem normalizeWeights_ok {weights terms : List (String × ℕ)} :
    normalizeWeights weights = .ok terms ↔ weights ≠ [] ∧
      ((weights.map (·.2)).sum ≤ weightPpm ∧ weights = terms ∨
      weightPpm < (weights.map (·.2)).sum ∧ ∃ scaled,
        allocate (weights.map fun w => (w.1, (w.2 : ℚ))) weightPpm = some scaled ∧
          (weights.map fun w => (w.1, (scaled.lookup w.1).getD 0)) = terms) := by
  simp only [normalizeWeights, bind_ok, exists_check]
  by_cases hsum : (weights.map (·.2)).sum ≤ weightPpm
  · simp [hsum, pure, Except.pure]
  · simp only [hsum, if_false, false_and, false_or, not_le.1 hsum, true_and, bind_ok,
      mapError_ok, allocatePool, get_ok, pure, Except.pure, Except.ok.injEq]

/-- Every dictionary of weights has normalized terms. -/
theorem normalizeWeights_isOk {weights : List (String × ℕ)} (h : weights ≠ []) :
    ∃ terms, normalizeWeights weights = .ok terms := by
  by_cases hsum : (weights.map (·.2)).sum ≤ weightPpm
  · exact ⟨weights, normalizeWeights_ok.2 ⟨h, .inl ⟨hsum, rfl⟩⟩⟩
  · -- An overcommitted row has a positive weight to split over.
    have hpos : ∃ w ∈ weights.map (fun w => (w.1, (w.2 : ℚ))), 0 < w.2 := by
      by_contra hnone
      push Not at hnone
      refine hsum (le_of_eq_of_le (sum_eq_zero ?_) (Nat.zero_le _))
      intro x hx
      obtain ⟨w, hw, rfl⟩ := mem_map.1 hx
      have hle : (w.2 : ℚ) ≤ 0 := hnone _ (mem_map_of_mem hw)
      exact_mod_cast le_antisymm hle (Nat.cast_nonneg _)
    obtain ⟨scaled, hscaled⟩ := Option.isSome_iff_exists.1 (allocate_isSome hpos)
    exact ⟨_, normalizeWeights_ok.2 ⟨h, .inr ⟨not_le.1 hsum, scaled, hscaled, rfl⟩⟩⟩

/-- Distinct keys with credits to share a pool. -/
structure PoolCredits (κ : Type) where
  rows : List (κ × ℚ)
  nodup : (rows.map (·.1)).Nodup
  nonneg : ∀ row ∈ rows, 0 ≤ row.2
  pos : 0 < total rows

theorem sum_normalized {weights scaled : List (String × ℕ)} (hnodup : (weights.map (·.1)).Nodup)
    (h : allocate (weights.map fun w => (w.1, (w.2 : ℚ))) weightPpm = some scaled) :
    ((weights.map fun w => (w.1, (scaled.lookup w.1).getD 0)).map (·.2)).sum = weightPpm := by
  have hkeys : ∀ row ∈ scaled, row.1 ∈ weights.map (·.1) := by
    intro row hrow
    obtain ⟨c, hc, -⟩ := value_allocate h hrow
    obtain ⟨w, hw, heq⟩ := mem_map.1 hc
    exact mem_map.2 ⟨w, hw, (Prod.mk.inj heq).1⟩
  have hnodup' : ((weights.map fun w => (w.1, (w.2 : ℚ))).map (·.1)).Nodup := by
    rwa [map_map]
  have hscaled : (scaled.map (·.1)).Nodup := keys_allocate h ▸ nodup_positives hnodup'
  rw [← sum_allocate h hnodup', ← sum_share hnodup hkeys, map_map, map_map]
  refine congrArg sum (map_congr_left fun w _ => ?_)
  change (scaled.lookup w.1).getD 0 = share scaled w.1
  cases hlook : scaled.lookup w.1 with
  | none => exact (share_eq_zero (lookup_eq_none.1 hlook)).symm
  | some v => exact (share_of_mem hscaled (mem_of_lookup hlook)).symm

/-- **Pools are split by largest remainder, and weights are scaled down to the whole.** -/
theorem pools_split {κ : Type} [LinearOrder κ] (credits : PoolCredits κ) (pool : ℕ)
    (weights : {w : List (String × ℕ) // w ≠ [] ∧ (w.map (·.1)).Nodup}) :
    (∃ parts, allocatePool credits.rows pool = .ok parts ∧ (parts.map (·.1)).Nodup ∧
      (∀ k, k ∈ parts.map (·.1) ↔ ∃ c, (k, c) ∈ credits.rows ∧ 0 < c) ∧
      (parts.map (·.2)).sum = pool ∧
      (∀ k c v, (k, c) ∈ credits.rows → (k, v) ∈ parts →
        v = floorQuota (total credits.rows) pool c ∨
          v = floorQuota (total credits.rows) pool c + 1) ∧
      (∀ k c v k' c' v', (k, c) ∈ credits.rows → (k, v) ∈ parts → (k', c') ∈ credits.rows →
        (k', v') ∈ parts → c < c' → v ≤ v') ∧
      missing (positives credits.rows) pool < parts.length ∧
      ∀ rows, credits.rows.Perm rows → allocatePool rows pool = .ok parts) ∧
    ∃ terms, normalizeWeights weights.1 = .ok terms ∧
      ((weights.1.map (·.2)).sum ≤ weightPpm ∧ terms = weights.1 ∨
        weightPpm < (weights.1.map (·.2)).sum ∧ terms.map (·.1) = weights.1.map (·.1) ∧
          (terms.map (·.2)).sum = weightPpm) ∧
      normalizeWeights terms = .ok terms := by
  constructor
  · obtain ⟨parts, h⟩ : ∃ parts, allocate credits.rows pool = some parts :=
      exists_allocate credits.pos
    have hkeys := keys_allocate h
    have htotal := (allocate_eq_some h).1
    have hnodup := nodup_positives credits.nodup
    refine ⟨parts, get_ok.2 h, hkeys ▸ hnodup, fun k => ?_, sum_allocate h credits.nodup, ?_, ?_,
      ?_, fun rows hperm => get_ok.2 ?_⟩
    · rw [hkeys]
      simp [mem_positives]
    · intro k c v hc hv
      rw [(mem_allocate h credits.nodup hc hv).2, total_positives credits.nonneg]
      split_ifs <;> simp
    · intro k c v k' c' v' hc hv hc' hv' hlt
      obtain ⟨hrow, rfl⟩ := mem_allocate h credits.nodup hc hv
      obtain ⟨hrow', rfl⟩ := mem_allocate h credits.nodup hc' hv'
      exact part_mono hnodup htotal hrow hrow' hlt
    · rw [← length_map (f := (·.1)), hkeys, length_map]
      exact missing_lt_length htotal
    · rw [← h]
      exact (allocate_congr credits.nodup (hperm.filter _)).symm
  · obtain ⟨weights, hne, hnodup⟩ := weights
    obtain ⟨terms, hterms⟩ := normalizeWeights_isOk hne
    obtain ⟨-, ⟨hle, rfl⟩ | ⟨hgt, scaled, hscaled, rfl⟩⟩ := normalizeWeights_ok.1 hterms
    · exact ⟨weights, hterms, .inl ⟨hle, rfl⟩, hterms⟩
    · have hsum := sum_normalized hnodup hscaled
      refine ⟨_, hterms, .inr ⟨hgt, by rw [map_map]; rfl, hsum⟩, ?_⟩
      exact normalizeWeights_ok.2 ⟨by simpa using hne, .inl ⟨hsum.le, rfl⟩⟩

/-- A version reads back as it was written. -/
theorem readVersion_toDict (hv : v.WellFormed activation names) (hne : names ≠ [])
    (hsort : names.Pairwise (· < ·)) : readVersion activation names v.toDict = .ok v := by
  have hdict : Keyed.Sorted (·.1) (v.weights.map fun w => (w.1, Json.num w.2)) := by
    have hkeys : (v.weights.map (·.1)).Pairwise (· < ·) := hv.names_eq ▸ hsort
    exact pairwise_map.2 (pairwise_map.1 hkeys)
  have hwts : (ofList (·.1) (v.weights.map fun w => (w.1, Json.num w.2))).mapM
      readWeight = .ok v.weights := by
    rw [ofList_eq_self hdict]
    refine mapM_map_ok fun w _ => ?_
    simp only [readWeight, bind_ok, get_ok]
    exact ⟨w.2, Json.natural_num_natCast _, rfl⟩
  have hnonempty : v.weights ≠ [] := by
    rintro hnil
    exact hne (hv.names_eq ▸ by rw [hnil]; rfl)
  obtain ⟨terms, hterms⟩ := normalizeWeights_isOk hnonempty
  have hkeys : (v.weights.map fun w => (w.1, Json.num w.2)).map (·.1) = names := by
    rw [map_map]
    exact hv.names_eq
  -- A full bonus is left out, and it is what the reader takes for a missing one.
  have hbonus : ((v.toDict.get? "stall_bonus_ppm").map Json.natural).getD weightPpm =
      some v.stallBonus := by
    by_cases hfull : v.stallBonus = weightPpm <;>
      simp [AllocationVersion.toDict, Json.get?, Json.members, hfull]
  simp only [readVersion, bind_ok, check_ok, get_ok, exists_const]
  refine ⟨_, rfl, ?_, v.fromBlock, ?_,
    v.weights.map fun w => (w.1, Json.num w.2), ?_, ?_, v.weights, hwts, terms, hterms,
    v.stallBonus, hbonus, ⟨hv.bonus_le, hv.bonus_before⟩, rfl⟩
  · by_cases hfull : v.stallBonus = weightPpm
    · exact .inl (by simp [hasFields, hfull])
    · exact .inr (by simp [hasFields, hfull])
  · simp [AllocationVersion.toDict, Json.get?, Json.members]
  · simp [AllocationVersion.toDict, Json.get?, Json.members]
  · rw [hkeys]
    exact ⟨Subset.refl _, Subset.refl _⟩

/-- **A schedule reads back as it was written.** -/
theorem ArenaAllocation.fromDict_toDict (a : ArenaAllocation) : fromDict a.toDict = .ok a := by
  obtain ⟨hpos, hburn, hne, hsort, hsrcs, hhist, hblks, hzero, hactiv⟩ := a.wellFormed
  have hdict : Keyed.Sorted (·.1) (a.sources.map fun s => (s.1, Json.str s.2)) :=
    pairwise_map.2 hsort
  have hread : (ofList (·.1) (a.sources.map fun s => (s.1, Json.str s.2))).mapM
      readSource = .ok a.sources := by
    rw [ofList_eq_self hdict]
    refine mapM_map_ok fun s hs => ?_
    simp only [readSource, bind_ok, check_ok, get_ok, exists_const]
    exact ⟨s.2, rfl, hsrcs s hs, rfl⟩
  have hnames : a.names ≠ [] := fun hnil => hne (map_eq_nil_iff.1 hnil)
  have hrows : (a.history.map AllocationVersion.toDict).mapM
      (readVersion a.activationBlock (a.sources.map (·.1))) = .ok a.history :=
    mapM_map_ok fun v hv =>
      readVersion_toDict (hhist v hv) hnames (pairwise_map.2 hsort)
  rw [fromDict_ok]
  simp only [readAllocation, bind_ok, check_ok, get_ok, exists_const]
  refine ⟨_, rfl, ?_, a.activationBlock, ?_, hpos, a.burnHotkey, ?_, hburn,
    a.sources.map fun s => (s.1, Json.str s.2), ?_, ?_, a.sources, hread,
    a.history.map AllocationVersion.toDict, ?_, ?_, a.history, hrows,
    ⟨hblks, hzero, hactiv⟩, rfl⟩
  · simp [hasFields]
  · simp [toDict, Json.get?, Json.members]
  · simp [toDict, Json.get?, Json.members, Json.text]
  · simp [toDict, Json.get?, Json.members]
  · exact fun hnil => hne (map_eq_nil_iff.1 hnil)
  · simp [toDict, Json.get?, Json.members, Json.items]
  · intro hnil
    rw [map_eq_nil_iff.1 hnil] at hzero
    cases hzero

end RoundTrip

/-! ### Accepting a schedule -/

/-- What the primary store keeps of the schedule it accepted last. -/
structure ScheduleRecord where
  schedule : Json
  seenThrough : ℕ
  sourceDigests : List (String × Digest)
deriving DecidableEq

/-- A proposed schedule at a block. -/
structure ScheduleCall where
  allocation : ArenaAllocation
  sourceDigests : List (String × Digest)
  block : ℕ
deriving DecidableEq

/-- Extend the weights of an accepted version with zero terms for new sources. -/
def AllocationVersion.pad (added : List String) (v : AllocationVersion) : AllocationVersion :=
  { v with weights := ofList (·.1) (v.weights ++ added.map fun name => (name, 0)) }

/-- The sources of a schedule that another one does not have. -/
def ArenaAllocation.added (old new : ArenaAllocation) : List String :=
  new.names.filter (· ∉ old.names)

/-- Accept a schedule: nothing that was accepted before may change, and new versions begin
after every block seen so far. -/
def bindSchedule (row : Option ScheduleRecord) (call : ScheduleCall) :
    AllocationM ScheduleRecord := do
  let allocation := call.allocation
  let boundary ← match row with
    | some previous => do
      let old ← ArenaAllocation.fromDict previous.schedule
      let history := old.history.map (.pad (old.added allocation))
      check (allocation.activationBlock = old.activationBlock ∧
          allocation.burnHotkey = old.burnHotkey ∧
          (∀ s ∈ old.sources, allocation.sources.lookup s.1 = some s.2) ∧
          allocation.history.take old.history.length = history ∧
          (call.sourceDigests.map (·.1) ⊆ allocation.names ∧
            allocation.names ⊆ call.sourceDigests.map (·.1)) ∧
          ∀ d ∈ previous.sourceDigests, call.sourceDigests.lookup d.1 = some d.2)
        (intake "accepted allocation history or source authority changed")
      let boundary := max call.block previous.seenThrough
      check (∀ v ∈ allocation.history.drop old.history.length, boundary < v.fromBlock)
        (intake "allocation updates must precede their future submission boundary")
      pure boundary
    | none => do
      check (call.block < allocation.activationBlock)
        (intake "register allocation before its activation block")
      pure call.block
  return ⟨allocation.toDict, boundary, call.sourceDigests⟩

/-- Calls one after the other; one that raises changes nothing. -/
def bindAll (row : Option ScheduleRecord) (calls : List ScheduleCall) : Option ScheduleRecord :=
  calls.foldl (fun row call => (bindSchedule row call).toOption.or row) row

/-! ### Normalized terms of padded settings -/

section Padding

variable {weights terms : List (String × ℕ)} {added : List String}

theorem cast_filter_pos (weights : List (String × ℕ)) :
    (weights.map fun w => (w.1, (w.2 : ℚ))).filter (0 < ·.2) =
      (weights.filter (0 < ·.2)).map fun w => (w.1, (w.2 : ℚ)) := by
  rw [filter_map]
  congr 2
  funext w
  simp

theorem lookup_scaled {scaled : List (String × ℕ)} {name : String} (h : name ∈ weights.map (·.1)) :
    (weights.map fun w => (w.1, (scaled.lookup w.1).getD 0)).lookup name =
      some ((scaled.lookup name).getD 0) := by
  rw [← lookup_map_key (f := fun name => (scaled.lookup name).getD 0) h, map_map]
  rfl

/-- **Zero terms for new sources leave the terms of the others as they were.** -/
theorem normalizeWeights_pad (hnodup : (weights.map (·.1)).Nodup) (hadded : added.Nodup)
    (hnew : ∀ name ∈ added, name ∉ weights.map (·.1)) (h : normalizeWeights weights = .ok terms) :
    ∃ terms', normalizeWeights
        (ofList (·.1) (weights ++ added.map fun name => (name, 0))) = .ok terms' ∧
      (∀ name ∈ weights.map (·.1), terms'.lookup name = terms.lookup name) ∧
      ∀ name ∈ added, terms'.lookup name = some 0 := by
  set zeros := added.map fun name => (name, 0) with hzeros
  have hnames : zeros.map (·.1) = added := by
    rw [hzeros, map_map]
    exact map_id _
  have hall : ((weights ++ zeros).map (·.1)).Nodup := by
    rw [map_append, hnames]
    exact hnodup.append hadded fun name hw ha => hnew name ha hw
  have hperm := ofList_perm hall
  have hall' := (hperm.map (·.1)).nodup_iff.2 hall
  have hsum : ((ofList (·.1) (weights ++ zeros)).map (·.2)).sum = (weights.map (·.2)).sum := by
    rw [(hperm.map _).sum_eq, map_append, sum_append, hzeros, map_map]
    simp [Function.comp_def]
  have hne : weights ≠ [] → ofList (·.1) (weights ++ zeros) ≠ [] := by
    intro hne hnil
    rw [hnil] at hperm
    exact hne (append_eq_nil_iff.1 hperm.symm.eq_nil).1
  obtain ⟨hwts, ⟨hle, rfl⟩ | ⟨hgt, scaled, hscaled, rfl⟩⟩ := normalizeWeights_ok.1 h
  · refine ⟨_, normalizeWeights_ok.2 ⟨hne hwts, .inl ⟨hsum ▸ hle, rfl⟩⟩, ?_, ?_⟩
    · intro name hname
      obtain ⟨w, hw, rfl⟩ := mem_map.1 hname
      rw [(lookup_eq_some hnodup).2 hw, lookup_eq_some hall', hperm.mem_iff]
      exact mem_append_left _ hw
    · intro name hname
      rw [lookup_eq_some hall', hperm.mem_iff]
      exact mem_append_right _ (mem_map_of_mem hname)
  · -- Only positive weights are scaled, and padding adds none.
    have hpos : (weights ++ zeros).filter (0 < ·.2) = weights.filter (0 < ·.2) := by
      rw [filter_append, hzeros, filter_map]
      simp
    have hscaled' : allocate ((ofList (·.1) (weights ++ zeros)).map
        fun w => (w.1, (w.2 : ℚ))) weightPpm = some scaled := by
      rw [← hscaled]
      refine allocate_congr ?_ ?_
      · rw [map_map]
        exact hall'
      · rw [cast_filter_pos, cast_filter_pos, ← hpos]
        exact (hperm.filter _).map _
    refine ⟨_, normalizeWeights_ok.2 ⟨hne hwts, .inr ⟨hsum ▸ hgt, scaled, hscaled', rfl⟩⟩, ?_, ?_⟩
    · intro name hname
      rw [lookup_scaled (hperm.map (·.1) |>.mem_iff.2 ?_), lookup_scaled hname]
      rw [map_append]
      exact mem_append_left _ hname
    · intro name hname
      rw [lookup_scaled (hperm.map (·.1) |>.mem_iff.2 ?_)]
      · have hnone : scaled.lookup name = none := by
          rw [lookup_eq_none, keys_allocate hscaled]
          intro hmem
          obtain ⟨row, hrow, rfl⟩ := mem_map.1 hmem
          obtain ⟨w, hw, rfl⟩ := mem_map.1 (mem_positives.1 hrow).1
          exact hnew w.1 hname (mem_map_of_mem hw)
        rw [hnone]
        rfl
      · rw [map_append, hnames]
        exact mem_append_right _ hname

end Padding

/-! ### Accepted terms are final -/

namespace ArenaAllocation

variable {old mid new : ArenaAllocation} {through through' : ℕ}

/-- A schedule that continues another one after a block. -/
structure Extends (through : ℕ) (old new : ArenaAllocation) : Prop where
  names : old.names ⊆ new.names
  history : ∃ later, new.history = old.history.map (.pad (old.added new)) ++ later ∧
    ∀ v ∈ later, through < v.fromBlock

/-- Up to a block, the terms of a schedule are those of another one, and sources that the other
one does not have were offered nothing. -/
structure Frozen (through : ℕ) (old new : ArenaAllocation) : Prop where
  names : old.names ⊆ new.names
  bonus : ∀ block ≤ through, new.stallBonusAt block = old.stallBonusAt block
  terms : ∀ block ≤ through, ∃ before after, old.termsAt block = .ok before ∧
    new.termsAt block = .ok after ∧ (∀ name ∈ old.names, after.lookup name = before.lookup name) ∧
    ∀ name ∈ new.names, name ∉ old.names → after.lookup name = some 0

variable (a : ArenaAllocation)

/-- Every block has a version, since the first one begins at zero. -/
theorem exists_versionAt (block : ℕ) : ∃ v ∈ a.history, a.versionAt block = some v := by
  have hzero := a.wellFormed.blocks_zero
  cases hhist : a.history with
  | nil =>
    rw [hhist] at hzero
    cases hzero
  | cons first rest =>
    rw [hhist] at hzero
    have hfirst : first.fromBlock = 0 := Option.some.inj hzero
    have hsome : (a.versionAt block).isSome := by
      rw [versionAt, find?_isSome]
      refine ⟨first, by simp [hhist], ?_⟩
      simp [hfirst]
    obtain ⟨v, hv⟩ := Option.isSome_iff_exists.1 hsome
    refine ⟨v, ?_, hv⟩
    rw [← hhist]
    exact mem_reverse.1 (mem_of_find?_eq_some hv)

theorem exists_termsAt (block : ℕ) : ∃ terms, a.termsAt block = .ok terms := by
  obtain ⟨v, hv, hver⟩ := a.exists_versionAt block
  have hne : v.weights ≠ [] := by
    intro hnil
    have hnames := (a.wellFormed.history_ok v hv).names_eq
    rw [hnil] at hnames
    exact a.wellFormed.sources_ne (map_eq_nil_iff.1 hnames.symm)
  obtain ⟨terms, hterms⟩ := normalizeWeights_isOk hne
  exact ⟨terms, by simp only [termsAt, bind_ok, get_ok]; exact ⟨v, hver, hterms⟩⟩

/-- The version of a past block is the accepted one, padded. -/
theorem Extends.versionAt (h : Extends through old new) {block : ℕ} (hblk : block ≤ through) :
    new.versionAt block = (old.versionAt block).map (.pad (old.added new)) := by
  obtain ⟨later, hhist, hlater⟩ := h.history
  unfold ArenaAllocation.versionAt
  have hnone : later.reverse.find? (·.fromBlock ≤ block) = none := by
    refine List.find?_eq_none.2 fun v hv => ?_
    have := hlater v (mem_reverse.1 hv)
    simp only [decide_eq_true_eq]
    omega
  rw [hhist, reverse_append, find?_append, hnone, Option.none_or, ← map_reverse, List.find?_map]
  rfl

theorem Extends.frozen (h : Extends through old new) : Frozen through old new := by
  refine ⟨h.names, fun block hblk => ?_, fun block hblk => ?_⟩
  · obtain ⟨v, -, hver⟩ := old.exists_versionAt block
    simp only [stallBonusAt, h.versionAt hblk, hver]
    rfl
  · obtain ⟨v, hv, hver⟩ := old.exists_versionAt block
    obtain ⟨before, hbef⟩ := old.exists_termsAt block
    have hterms : normalizeWeights v.weights = .ok before := by
      simp only [termsAt, bind_ok, get_ok, hver] at hbef
      obtain ⟨_, heq, hterms⟩ := hbef
      cases heq
      exact hterms
    have hnames := (old.wellFormed.history_ok v hv).names_eq
    have hnodup : (v.weights.map (·.1)).Nodup := hnames ▸ old.wellFormed.sources_sorted.nodup
    have hadded : (old.added new).Nodup := new.wellFormed.sources_sorted.nodup.filter _
    obtain ⟨after, hafter, hsame, hzero⟩ := normalizeWeights_pad hnodup hadded (fun name hname => by
        rw [hnames]
        exact of_decide_eq_true (mem_filter.1 hname).2) hterms
    refine ⟨before, after, hbef, ?_, hnames ▸ hsame, ?_⟩
    · simp only [termsAt, bind_ok, get_ok, h.versionAt hblk, hver]
      exact ⟨_, rfl, hafter⟩
    · intro name hname hold
      exact hzero name (mem_filter.2 ⟨hname, decide_eq_true hold⟩)

theorem Frozen.mono (hle : through ≤ through') (h : Frozen through' old new) :
    Frozen through old new where
  names := h.names
  bonus block hblk := h.bonus block (hblk.trans hle)
  terms block hblk := h.terms block (hblk.trans hle)

theorem Frozen.refl : Frozen through a a := by
  refine ⟨Subset.refl _, fun _ _ => rfl, fun block _ => ?_⟩
  obtain ⟨terms, hterms⟩ := a.exists_termsAt block
  exact ⟨terms, terms, hterms, hterms, fun _ _ => rfl, fun name hname hnot => absurd hname hnot⟩

theorem Frozen.trans (h : Frozen through old mid) (h' : Frozen through mid new) :
    Frozen through old new := by
  refine ⟨Subset.trans h.names h'.names, fun block hblk => ?_, fun block hblk => ?_⟩
  · exact (h'.bonus block hblk).trans (h.bonus block hblk)
  · obtain ⟨before, middle, hbef, hmiddle, hsame, hzero⟩ := h.terms block hblk
    obtain ⟨middle', after, hmiddle', hafter, hsame', hzero'⟩ := h'.terms block hblk
    cases hmiddle.symm.trans hmiddle'
    refine ⟨before, after, hbef, hafter, ?_, ?_⟩
    · intro name hname
      rw [hsame' name (h.names hname), hsame name hname]
    · intro name hname hold
      by_cases hmid : name ∈ mid.names
      · rw [hsame' name hmid, hzero name hmid hold]
      · exact hzero' name hname hmid

end ArenaAllocation

section Runs

variable {row : Option ScheduleRecord} {call : ScheduleCall} {r : ScheduleRecord}

/-- What an accepted call writes. -/
theorem bindSchedule_spec (h : bindSchedule row call = .ok r) :
    r.schedule = call.allocation.toDict ∧ ∀ prev, row = some prev →
      ∃ old, ArenaAllocation.fromDict prev.schedule = .ok old ∧ prev.seenThrough ≤ r.seenThrough ∧
        old.Extends r.seenThrough call.allocation := by
  cases row with
  | none =>
    simp only [bindSchedule, bind_ok, exists_check] at h
    obtain ⟨-, _, hblk, heq⟩ := h
    cases heq
    exact ⟨rfl, by simp⟩
  | some prev =>
    simp only [bindSchedule, bind_ok, exists_check] at h
    obtain ⟨old, hold, ⟨-, -, hsrcs, htake, -, -⟩, hdrop, _, hboundary, heq⟩ := h
    cases hboundary
    cases heq
    refine ⟨rfl, fun _ hrow => ?_⟩
    cases hrow
    refine ⟨old, hold, le_max_right _ _, ?_, call.allocation.history.drop old.history.length,
      ?_, hdrop⟩
    · intro name hname
      obtain ⟨s, hs, rfl⟩ := mem_map.1 hname
      exact mem_map_of_mem (mem_of_lookup (hsrcs s hs))
    · rw [← htake, take_append_drop]

/-- A run of calls keeps the accepted terms: the step is one call, accepted or not. -/
theorem bindAll_frozen {a : ArenaAllocation} (h : r.schedule = a.toDict)
    (calls : List ScheduleCall) : ∃ r' new, bindAll (some r) calls = some r' ∧
      r'.schedule = new.toDict ∧ r.seenThrough ≤ r'.seenThrough ∧
      a.Frozen r.seenThrough new := by
  induction calls generalizing r a with
  | nil => exact ⟨r, a, rfl, h, le_refl _, .refl a⟩
  | cons call calls ih =>
    cases hcall : bindSchedule (some r) call with
    | error fault =>
      obtain ⟨r', new, hrun, hrest⟩ := ih h
      refine ⟨r', new, ?_, hrest⟩
      rw [← hrun]
      simp [bindAll, hcall, Except.toOption]
    | ok r₁ =>
      obtain ⟨hschedule, hprev⟩ := bindSchedule_spec hcall
      obtain ⟨old, hold, hle, hext⟩ := hprev r rfl
      rw [h, a.fromDict_toDict] at hold
      cases hold
      obtain ⟨r', new, hrun, hnew, hle', hfrozen⟩ := ih hschedule
      refine ⟨r', new, ?_, hnew, hle.trans hle', ?_⟩
      · rw [← hrun]
        simp [bindAll, hcall, Except.toOption]
      · exact (hext.frozen.mono hle).trans (hfrozen.mono hle)

/-- **Accepted terms are final.**  After a call is accepted, every later accepted schedule gives
every block up to the recorded one the same waiting bonus and every known source the same term,
gives nothing there to sources added since, and records no lower block; and an accepted schedule
reads back from the store as it was. -/
theorem accepted_terms_final (before between : List ScheduleCall) (call call' : ScheduleCall)
    {r r' : ScheduleRecord} (h : bindSchedule (bindAll none before) call = .ok r)
    (h' : bindSchedule (bindAll (some r) between) call' = .ok r') :
    ArenaAllocation.fromDict r.schedule = .ok call.allocation ∧
      ArenaAllocation.fromDict call.allocation.toDict = .ok call.allocation ∧
      r.seenThrough ≤ r'.seenThrough ∧
      call.allocation.Frozen r.seenThrough call'.allocation := by
  have hschedule := (bindSchedule_spec h).1
  have hread := call.allocation.fromDict_toDict
  refine ⟨hschedule ▸ hread, hread, ?_⟩
  obtain ⟨r₁, mid, hrun, hmid, hle, hfrozen⟩ := bindAll_frozen hschedule between
  obtain ⟨old, hold, hle', hext⟩ := (bindSchedule_spec h').2 r₁ hrun
  rw [hmid, mid.fromDict_toDict] at hold
  cases hold
  exact ⟨hle.trans hle', hfrozen.trans (hext.frozen.mono (hle.trans hle'))⟩

end Runs

/-- A schedule of two sources that is overcommitted from its activation on. -/
def sampleAllocation : ArenaAllocation where
  activationBlock := 10
  burnHotkey := "burn"
  sources := [("glm", "/glm.json"), ("qwen", "/qwen.json")]
  history := [⟨0, [("glm", 0), ("qwen", 1000000)], weightPpm⟩,
    ⟨10, [("glm", 400000), ("qwen", 800000)], weightPpm⟩]
  wellFormed := by
    refine ⟨by decide, by decide, by decide, by decide, by decide, ?_, by decide, by decide,
      by decide⟩
    intro v hv
    simp only [mem_cons, not_mem_nil, or_false] at hv
    rcases hv with rfl | rfl <;> exact ⟨rfl, by decide, by decide⟩

/-- The same with a third source and a version that begins later. -/
def sampleExtended : ArenaAllocation where
  activationBlock := 10
  burnHotkey := "burn"
  sources := [("glm", "/glm.json"), ("kimi", "/kimi.json"), ("qwen", "/qwen.json")]
  history := [⟨0, [("glm", 0), ("kimi", 0), ("qwen", 1000000)], weightPpm⟩,
    ⟨10, [("glm", 400000), ("kimi", 0), ("qwen", 800000)], weightPpm⟩,
    ⟨30, [("glm", 300000), ("kimi", 500000), ("qwen", 200000)], 500000⟩]
  wellFormed := by
    refine ⟨by decide, by decide, by decide, by decide, by decide, ?_, by decide, by decide,
      by decide⟩
    intro v hv
    simp only [mem_cons, not_mem_nil, or_false] at hv
    rcases hv with rfl | rfl | rfl <;> exact ⟨rfl, by decide, by decide⟩

/-- The schedule is registered, refused at a later block without its digests, and extended. -/
theorem accepted_terms_final_sample : sampleAllocation.Frozen 5 sampleExtended := by
  let digests : List (String × Digest) := [("glm", .ofNat 1), ("qwen", .ofNat 2)]
  let digests' : List (String × Digest) :=
    [("glm", .ofNat 1), ("kimi", .ofNat 3), ("qwen", .ofNat 2)]
  have h : bindSchedule (bindAll none []) ⟨sampleAllocation, digests, 5⟩ =
      .ok ⟨sampleAllocation.toDict, 5, digests⟩ := by decide
  have h' : bindSchedule (bindAll (some ⟨sampleAllocation.toDict, 5, digests⟩)
        [⟨sampleExtended, [], 12⟩]) ⟨sampleExtended, digests', 20⟩ =
      .ok ⟨sampleExtended.toDict, 20, digests'⟩ := by decide +kernel
  exact (accepted_terms_final [] [⟨sampleExtended, [], 12⟩] ⟨sampleAllocation, digests, 5⟩
    ⟨sampleExtended, digests', 20⟩ h h').2.2.2

end Cacheon
