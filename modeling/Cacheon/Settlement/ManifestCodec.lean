import Cacheon.Economics.Targets
import Cacheon.Strict

/-!
# The stored form of evaluation stacks

Contributions and stack manifests are written as JSON objects and read back through their
constructors.

* `ContributionRef.toJson`, `ContributionRef.ofJson`, `EvaluationStackManifest.toJson`,
  `EvaluationStackManifest.ofJson` — the two directions.
* `ContributionRef.ofJson_ok`, `EvaluationStackManifest.ofJson_ok` : a value is read from
  exactly the texts of its own stored form.
-/

namespace Cacheon

open Fallible List Keyed ContributionRef

/-- How a stored record may be refused. -/
inductive DecodeFault where
  /-- A malformed contribution or stack. -/
  | manifest (message : String)
  /-- A malformed audit policy. -/
  | session (message : String)
  /-- A malformed reference to retained evidence. -/
  | evidence (message : String)
  | settlement (message : String)
deriving DecidableEq

open DecodeFault

abbrev DecodeM := Except DecodeFault

/-! ### Contributions -/

namespace ContributionRef

variable (c : ContributionRef)

/-- The members of the stored form. -/
def members : List (String × Json) := [
  ("artifact_digest", .str c.artifactDigest.hex),
  ("attribution_digest", .str c.attributionDigest.hex),
  ("schema_version", .num 1),
  ("selected_payload_digest", .str c.selectedPayloadDigest.hex),
  ("target_id", .str c.targetId),
  ("target_spec_digest", .str c.targetSpecDigest.hex),
  ("type", .str "proposal")]

/-- The stored form. -/
def toJson : Json := .obj c.members

/-- The fields of the stored form. -/
def fields : List String :=
  ["artifact_digest", "attribution_digest", "schema_version", "selected_payload_digest",
    "target_id", "target_spec_digest", "type"]

/-- Read a contribution. -/
def ofJson (v : Json) : DecodeM ContributionRef := do
  requireExactFields manifest "proposal contribution" fields v
  check (v.member "type" = .str "proposal")
    (manifest "proposal contribution type must be 'proposal'")
  let targetId ← requireText manifest "target_id must be a canonical target ID" isTargetId
    (v.member "target_id")
  let targetSpecDigest ← requireDigest manifest "target_spec_digest" (v.member "target_spec_digest")
  let artifactDigest ← requireDigest manifest "artifact_digest" (v.member "artifact_digest")
  let selectedPayloadDigest ← requireDigest manifest "selected_payload_digest"
    (v.member "selected_payload_digest")
  let attributionDigest ← requireDigest manifest "attribution_digest"
    (v.member "attribution_digest")
  check (v.member "schema_version" = .num 1)
    (manifest "unsupported proposal contribution schema_version")
  return ⟨targetId, targetSpecDigest, artifactDigest, selectedPayloadDigest, attributionDigest⟩

/-- A contribution the constructor accepts. -/
def Constructible : Prop := isTargetId c.targetId = true

instance : DecidablePred Constructible := fun c =>
  inferInstanceAs (Decidable (isTargetId c.targetId = true))

theorem map_members : c.members.map (·.1) = fields := rfl

/-- A contribution is read from exactly the texts of its stored form. -/
theorem ofJson_ok {v : Json} {c : ContributionRef} :
    ofJson v = .ok c ↔ v.canonical = c.toJson.canonical ∧ c.Constructible := by
  rw [toJson, Json.canonical_eq_obj_iff c.map_members (by decide)]
  simp only [ofJson, members, bind_ok, check_ok, exactFields_ok, requireText_ok,
    requireDigest_ok, exists_const, forall_mem_cons,
    Json.canonical_str, Json.canonical_num, Json.canonical_eq_str, Json.canonical_eq_num,
    Constructible]
  constructor
  · rintro ⟨hfields, htype, targetId, ⟨htgt, hid⟩, spec, hspec, art, hart, pay,
      hpay, attribution, hattr, hver, hreturn⟩
    cases hreturn
    exact ⟨⟨hfields, hart, hattr, hver, hpay, htgt, hspec, htype,
      forall_mem_nil _⟩, hid⟩
  · rintro ⟨⟨hfields, hart, hattr, hver, hpay, htgt, hspec, htype, -⟩, hid⟩
    exact ⟨hfields, htype, _, ⟨htgt, hid⟩, _, hspec, _, hart, _, hpay, _, hattr, hver, rfl⟩

/-- Contributions of one stored form are equal. -/
theorem eq_of_canonical_toJson {c d : ContributionRef} (hc : c.Constructible)
    (hd : d.Constructible) (h : c.toJson.canonical = d.toJson.canonical) : c = d := by
  have hread : ofJson c.toJson = .ok c := ofJson_ok.2 ⟨rfl, hc⟩
  have hread' : ofJson c.toJson = .ok d := ofJson_ok.2 ⟨h, hd⟩
  exact Except.ok.inj (hread.symm.trans hread')

end ContributionRef

/-- Read a contribution of any kind; there is one kind. -/
def contributionRefOfJson (v : Json) : DecodeM ContributionRef := do
  check (v.members.isSome) (manifest "contribution must be an object")
  check (v.get? "type" = some (.str "proposal")) (manifest "contribution requires type 'proposal'")
  ofJson v

theorem contributionRef_ok {v : Json} {c : ContributionRef} :
    contributionRefOfJson v = .ok c ↔ v.canonical = c.toJson.canonical ∧ c.Constructible := by
  rw [← ofJson_ok]
  simp only [contributionRefOfJson, bind_ok, check_ok, exists_const]
  refine ⟨fun h => h.2.2, fun h => ⟨?_, ?_, h⟩⟩
  all_goals
    simp only [ofJson, bind_ok, check_ok, exists_const, exactFields_ok] at h
    obtain ⟨⟨members, hmems, -⟩, htype, -⟩ := h
  · exact Option.isSome_iff_exists.2 ⟨members, hmems⟩
  · cases hget : v.get? "type" with
    | none => simp [Json.member, hget] at htype
    | some w => simpa [Json.member, hget] using htype

/-! ### Stacks -/

/-- A contribution as a member of the entries of a stack. -/
def entryMember (c : ContributionRef) : String × Json := (c.targetId, c.toJson)

/-- Read one entry of a stack. -/
def readEntry (row : String × Json) : DecodeM (String × ContributionRef) := do
  let ref ← contributionRefOfJson row.2
  return (row.1, ref)

/-- The checks on one entry: its key is the target of its contribution. -/
def checkEntry (row : (String × ContributionRef) × ℕ) : DecodeM Unit := do
  check (isTargetId row.1.1)
    (manifest ("entry " ++ toString row.2 ++ " target must be a canonical target ID"))
  check (row.1.2.targetId = row.1.1) (manifest ("entry key '" ++ row.1.1 ++
    "' does not match ref target '" ++ row.1.2.targetId ++ "'"))

/-- The entries of a stack, one for each target. -/
abbrev StackEntries := {l : List ContributionRef // Keyed.Sorted targetId l}

/-- The checked entries in the order of their targets. -/
def entryRows (rows : List (String × ContributionRef)) : DecodeM StackEntries := do
  forM rows.zipIdx checkEntry
  let entries := sortBy targetId (rows.map (·.2))
  if h : Keyed.Sorted targetId entries then return ⟨entries, h⟩
  else .error (manifest "entries contain duplicate targets")

variable {entries : StackEntries}

theorem entryRows_ok {rows : List (String × ContributionRef)} : entryRows rows = .ok entries ↔
      (∀ row ∈ rows, isTargetId row.1 = true ∧ row.2.targetId = row.1) ∧
        sortBy targetId (rows.map (·.2)) = entries.val := by
  simp only [entryRows, bind_ok, exists_forM, checkEntry, check_ok, exists_const]
  refine and_congr ?_ ?_
  · constructor
    · intro h row hrow
      obtain ⟨i, hi, rfl⟩ := getElem_of_mem hrow
      exact h (rows[i], i) (mem_zipIdx_iff_getElem?.2 (getElem?_eq_getElem hi))
    · intro h row hrow
      exact h row.1 (fst_mem_of_mem_zipIdx hrow)
  · split_ifs with hsorted
    · exact ⟨fun h => congrArg Subtype.val (Except.ok.inj h), fun h => congrArg _ (Subtype.ext h)⟩
    · refine ⟨fun h => (nomatch h), fun h => absurd ?_ hsorted⟩
      rw [h]
      exact entries.property

variable {rows : List (String × Json)} {refs : List (String × ContributionRef)}

/-- What is read from the rows of a stored stack, row by row. -/
theorem map_of_mapM_readEntry (h : rows.mapM readEntry = .ok refs) :
    (refs.map fun r => (r.1, r.2.toJson.canonical)) = rows.map (fun m => (m.1, m.2.canonical)) ∧
      ∀ r ∈ refs, r.2.Constructible := by
  have hrow : ∀ row r, readEntry row = .ok r →
      r.1 = row.1 ∧ row.2.canonical = r.2.toJson.canonical ∧ r.2.Constructible := by
    intro row r hr
    simp only [readEntry, bind_ok, contributionRef_ok] at hr
    obtain ⟨c, ⟨hcanon, hc⟩, hreturn⟩ := hr
    cases hreturn
    exact ⟨rfl, hcanon, hc⟩
  constructor
  · refine map_eq_of_mapM (fun row r hr => ?_) h
    obtain ⟨hkey, hcanon, -⟩ := hrow row r hr
    rw [hkey, hcanon]
  · intro r hr
    obtain ⟨row, -, hread⟩ := exists_of_mapM h hr
    exact (hrow row r hread).2.2

/-- A contribution as a member of the canonical entries of a stack. -/
def canonicalEntry (c : ContributionRef) : String × Json := (c.targetId, c.toJson.canonical)

theorem canonical_entries (entries : StackEntries) :
    (Json.obj (entries.val.map entryMember)).canonical = .obj (entries.val.map canonicalEntry) := by
  rw [Json.canonical_obj, map_map]
  congr 1
  refine sortBy_eq_self (pairwise_map.2 ?_)
  exact entries.property.imp fun h => h.le

theorem sortBy_map_canonical (hkeys : ∀ r ∈ refs, r.2.targetId = r.1) :
    sortBy Prod.fst (refs.map fun r => (r.1, r.2.toJson.canonical)) =
      (sortBy targetId (refs.map (·.2))).map canonicalEntry := by
  have hsort : ∀ l : List ContributionRef, (sortBy targetId l).map canonicalEntry =
        sortBy Prod.fst (l.map canonicalEntry) := fun l => map_sortBy fun _ => rfl
  rw [hsort, map_map]
  congr 1
  refine map_congr_left fun r hr => ?_
  rw [← hkeys r hr]
  rfl

/-- Every row of the stored form of entries can be read. -/
theorem exists_readEntry (h : sortBy Prod.fst (rows.map fun m => (m.1, m.2.canonical)) =
      entries.val.map canonicalEntry) (hcons : ∀ c ∈ entries.val, c.Constructible) :
    ∀ row ∈ rows, ∃ r, readEntry row = .ok r ∧ r.2.targetId = r.1 := by
  intro row hrow
  have hmem : (row.1, row.2.canonical) ∈ entries.val.map canonicalEntry := by
    rw [← h, mem_sortBy]
    exact mem_map.2 ⟨row, hrow, rfl⟩
  obtain ⟨c, hc, heq⟩ := mem_map.1 hmem
  have hread := contributionRef_ok.2 ⟨(congrArg Prod.snd heq).symm, hcons c hc⟩
  refine ⟨(row.1, c), ?_, congrArg Prod.fst heq⟩
  rw [readEntry, hread]
  rfl

/-- Entries are read from exactly the objects of their stored form. -/
theorem readEntries_ok : (∃ refs, rows.mapM readEntry = .ok refs ∧ entryRows refs = .ok entries) ↔
      (Json.obj rows).canonical = (Json.obj (entries.val.map entryMember)).canonical ∧
        ∀ c ∈ entries.val, c.Constructible := by
  rw [canonical_entries, Json.canonical_obj, Json.obj.injEq]
  constructor
  · rintro ⟨refs, hread, hrows⟩
    obtain ⟨hkeys, hsorted⟩ := entryRows_ok.1 hrows
    obtain ⟨hmap, hcons⟩ := map_of_mapM_readEntry hread
    rw [← hmap, sortBy_map_canonical fun r hr => (hkeys r hr).2, hsorted]
    refine ⟨rfl, fun c hc => ?_⟩
    rw [← hsorted, mem_sortBy] at hc
    obtain ⟨r, hr, rfl⟩ := mem_map.1 hc
    exact hcons r hr
  · rintro ⟨hcanon, hcons⟩
    have hrow := exists_readEntry hcanon hcons
    obtain ⟨refs, hrefs⟩ := exists_mapM fun row hmem => (hrow row hmem).imp fun r hr => hr.1
    obtain ⟨hmap, hread⟩ := map_of_mapM_readEntry hrefs
    have hkeys : ∀ r ∈ refs, r.2.targetId = r.1 := by
      intro r hr
      obtain ⟨row, hmem, hok⟩ := exists_of_mapM hrefs hr
      obtain ⟨r', hok', hkey⟩ := hrow row hmem
      cases hok.symm.trans hok'
      exact hkey
    refine ⟨refs, hrefs, entryRows_ok.2 ⟨fun r hr => ⟨?_, hkeys r hr⟩, ?_⟩⟩
    · rw [← hkeys r hr]
      exact hread r hr
    · rw [← hmap, sortBy_map_canonical hkeys] at hcanon
      refine eq_of_map_eq (fun c hc d hd hcd => ?_) hcanon
      obtain ⟨r, hr, rfl⟩ := mem_map.1 (mem_sortBy.1 hc)
      exact eq_of_canonical_toJson (hread r hr) (hcons d hd) (congrArg Prod.snd hcd)

namespace EvaluationStackManifest

variable (catalogDigest : Json → Digest)

/-- The members of the stored form; the digest of the catalog is computed from it. -/
def members (m : EvaluationStackManifest) : List (String × Json) := [
  ("arena_digest", .str m.arenaDigest.hex),
  ("base_engine_digest", .str m.baseEngineDigest.hex),
  ("catalog_digest", .str (catalogDigest m.catalogSnapshot).hex),
  ("catalog_snapshot", m.catalogSnapshot),
  ("entries", .obj (m.entries.map entryMember)),
  ("runtime_digest", .str m.runtimeDigest.hex),
  ("schema_version", .num 1),
  ("stack_policy_version", .str "evaluation-stack.v1"),
  ("type", .str "evaluation_stack")]

def toJson (m : EvaluationStackManifest) : Json :=
  .obj (m.members catalogDigest)

def fields : List String :=
  ["arena_digest", "base_engine_digest", "catalog_digest", "catalog_snapshot", "entries",
    "runtime_digest", "schema_version", "stack_policy_version", "type"]

/-- A nonempty object. -/
def isCatalog (snapshot : Json) : Bool := snapshot.members.any (· ≠ [])

/-- Bind a catalog to its digest; what is kept is its canonical form. -/
def catalogBinding (snapshot digest : Json) : DecodeM Json := do
  check (isCatalog snapshot) (manifest "catalog_snapshot must be a non-empty object")
  let supplied ← requireDigest manifest "catalog_digest" digest
  check (supplied = catalogDigest snapshot.canonical)
    (manifest "catalog_digest does not match the embedded catalog_snapshot")
  return snapshot.canonical

/-- Read a stack. -/
def ofJson (v : Json) : DecodeM EvaluationStackManifest := do
  requireExactFields manifest "evaluation stack manifest" fields v
  check (v.member "type" = .str "evaluation_stack")
    (manifest "evaluation stack type must be 'evaluation_stack'")
  let rows ← get (manifest "evaluation stack entries must be an object")
    (v.member "entries").members
  let refs ← rows.mapM readEntry
  check (v.member "schema_version" = .num 1) (manifest "unsupported stack schema_version")
  check (v.member "stack_policy_version" = .str "evaluation-stack.v1")
    (manifest "unsupported stack_policy_version")
  let runtimeDigest ← requireDigest manifest "runtime_digest" (v.member "runtime_digest")
  let baseEngineDigest ← requireDigest manifest "base_engine_digest" (v.member "base_engine_digest")
  let arenaDigest ← requireDigest manifest "arena_digest" (v.member "arena_digest")
  let snapshot ← catalogBinding catalogDigest (v.member "catalog_snapshot")
    (v.member "catalog_digest")
  let entries ← entryRows refs
  return ⟨runtimeDigest, baseEngineDigest, arenaDigest, snapshot, entries.val, entries.property⟩

/-- A stack the constructor accepts: the catalog is a nonempty object in its canonical form. -/
def Constructible (m : EvaluationStackManifest) : Prop :=
  m.catalogSnapshot.canonical = m.catalogSnapshot ∧ isCatalog m.catalogSnapshot = true ∧
    ∀ c ∈ m.entries, c.Constructible

instance : DecidablePred Constructible := fun m =>
  inferInstanceAs (Decidable (_ ∧ _ ∧ ∀ c ∈ m.entries, _))

theorem map_members (m : EvaluationStackManifest) :
    (m.members catalogDigest).map (·.1) = fields := rfl

variable {catalogDigest} {v : Json}

theorem isCatalog_canonical (snapshot : Json) :
    isCatalog snapshot.canonical = isCatalog snapshot := by
  cases snapshot with
  | obj members =>
    have hlen : (sortBy Prod.fst (members.map fun m => (m.1, m.2.canonical))).length =
        members.length := sortBy_perm.length_eq.trans (length_map _)
    simp only [isCatalog, Json.canonical_obj, Json.members, Option.any_some, ne_eq,
      ← length_eq_zero_iff, hlen]
  | arr items => rw [Json.canonical_arr]; rfl
  | null | bool _ | num _ | str _ => rfl

theorem catalogBinding_ok {value digest snapshot : Json} :
    catalogBinding catalogDigest value digest = .ok snapshot ↔
      isCatalog value = true ∧ digest = .str (catalogDigest snapshot).hex ∧
        value.canonical = snapshot := by
  simp only [catalogBinding, bind_ok, exists_check, requireDigest_ok]
  constructor
  · rintro ⟨hcat, supplied, hdig, rfl, hreturn⟩
    cases hreturn
    exact ⟨hcat, hdig, rfl⟩
  · rintro ⟨hcat, hdig, rfl⟩
    exact ⟨hcat, _, hdig, rfl, rfl⟩

theorem members_eq_some : v.members = some rows ↔ v = .obj rows := by
  cases v <;> simp [Json.members]

/-- A stack is read from exactly the texts of its stored form. -/
theorem ofJson_ok {m : EvaluationStackManifest} : ofJson catalogDigest v = .ok m ↔
      v.canonical = (m.toJson catalogDigest).canonical ∧ m.Constructible := by
  rw [toJson, Json.canonical_eq_obj_iff (m.map_members catalogDigest) (by decide)]
  simp only [ofJson, members, bind_ok, check_ok, get_ok, exactFields_ok,
    requireDigest_ok, catalogBinding_ok, members_eq_some, exists_const,
    forall_mem_cons, Json.canonical_str, Json.canonical_num, Json.canonical_eq_str,
    Json.canonical_eq_num, Constructible]
  constructor
  · rintro ⟨hfields, htype, rows, hrows, refs, hrefs, hver, hpol, runtime, hruntime,
      engine, hengine, arena, harena, snapshot, ⟨hcat, hdig, hsnap⟩, entries, hents,
      hreturn⟩
    cases hreturn
    obtain ⟨hstored, hcons⟩ := readEntries_ok.1 ⟨refs, hrefs, hents⟩
    subst hsnap
    refine ⟨⟨hfields, harena, hengine, hdig, ?_, ?_, hruntime, hver, hpol, htype,
      forall_mem_nil _⟩, Json.canonical_canonical _, ?_, hcons⟩
    · rw [Json.canonical_canonical]
    · rw [hrows, hstored]
    · rw [isCatalog_canonical, hcat]
  · rintro ⟨⟨hfields, harena, hengine, hdig, hsnap, hents, hruntime, hver, hpol,
      htype, -⟩, hcanon, hcat, hcons⟩
    obtain ⟨rows, hrows⟩ : ∃ rows, v.member "entries" = .obj rows := by
      cases hv : v.member "entries" <;> simp [hv, Json.canonical] at hents ⊢
    rw [hrows] at hents
    have hread : (Json.obj rows).canonical =
        (Json.obj ((⟨m.entries, m.sorted⟩ : StackEntries).val.map entryMember)).canonical ∧
          ∀ c ∈ (⟨m.entries, m.sorted⟩ : StackEntries).val, c.Constructible :=
      ⟨hents, hcons⟩
    obtain ⟨refs, hrefs, hok⟩ := readEntries_ok.2 hread
    rw [hcanon] at hsnap
    refine ⟨hfields, htype, rows, hrows, refs, hrefs, hver, hpol, _, hruntime, _, hengine,
      _, harena, _, ⟨?_, hdig, hsnap⟩, _, hok, rfl⟩
    rw [← isCatalog_canonical, hsnap, hcat]

end EvaluationStackManifest

end Cacheon
