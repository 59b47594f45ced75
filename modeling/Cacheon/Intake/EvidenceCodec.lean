import Cacheon.Intake.Arrival
import Cacheon.Settlement.Codec

/-!
# The stored form of settlement evidence

A settlement keeps the evidence it reopened: one attempt, or the two attempts of a historical
pair.

* `SettlementEvidence.ofJson_ok` : evidence is read from exactly the texts of its stored form.
* `stored_form_exact_iff` : what the stored forms of qualifications, candidates and evidence
  determine.
-/

namespace Cacheon

open Fallible DecodeFault SettlementCandidate QualificationFields Json

/-! ### References to retained artifacts -/

namespace Sha256

/-- The 64 hexadecimal digits of a hash. -/
def hex (h : Sha256) : String := h.elim (String.ofList (List.replicate 64 '0')) Digest.hex

/-- Read a hash; unlike a digest it may be all zero. -/
def ofJson (v : Json) : DecodeM Sha256 :=
  if v = .str (hex none) then .ok none
  else some <$> requireDigest evidence "evidence sha256" v

theorem ofJson_ok {v : Json} {h : Sha256} : ofJson v = .ok h ↔ v = .str h.hex := by
  unfold ofJson
  split_ifs with hzero
  · subst hzero
    cases h with
    | none => simp
    | some d =>
      have hne : hex none ≠ d.hex := by
        intro heq
        have hnone : Digest.ofHex (hex none) = none := by decide
        rw [heq, Digest.ofHex_hex] at hnone
        cases hnone
      simpa [hex] using hne
  · rw [map_some_ok]
    cases h with
    | none => simpa using hzero
    | some d => simp [requireDigest_ok, hex]

end Sha256

namespace EvidenceArtifactRef

/-- A lowercase name of at most `length + 1` characters. -/
def isName (length : ℕ) (text : String) : Bool := isNameOver isLowerAlnum "._-" length text.toList

/-- One half of a media type. -/
def isMediaToken : List Char → Bool := isNameOver isLowerAlnum "!#$&^_.+-" 63

/-- A media type: two tokens with a slash between them. -/
def isMedia (text : String) : Bool :=
  match text.toList.dropWhile (· ≠ '/') with
  | [] => false
  | _ :: rest => isMediaToken (text.toList.takeWhile (· ≠ '/')) && isMediaToken rest

/-- The largest retained artifact. -/
def hardMaxEvidenceBytes : ℕ := 2 ^ 30

variable (r : EvidenceArtifactRef)

def members : List (String × Json) := [
  ("domain", .str r.domain),
  ("media_type", .str r.mediaType),
  ("schema", .str r.schema),
  ("sha256", .str r.sha256.hex),
  ("size", .num r.size)]

def toJson : Json := .obj r.members

def fields : List String := ["domain", "media_type", "schema", "sha256", "size"]

/-- Read a reference. -/
def ofJson (v : Json) : DecodeM EvidenceArtifactRef := do
  check (v.hasFields fields) (evidence "evidence reference schema is not closed")
  let domain ← requireText evidence "evidence domain is invalid" (isName 95) (v.member "domain")
  let sha256 ← Sha256.ofJson (v.member "sha256")
  let size ← get (evidence "evidence size is invalid")
    ((v.member "size").natural.filter (· ≤ hardMaxEvidenceBytes))
  let mediaType ← requireText evidence "evidence media_type is invalid" isMedia
    (v.member "media_type")
  let schema ← requireText evidence "evidence schema is invalid" (isName 127) (v.member "schema")
  return ⟨domain, sha256, size, mediaType, schema⟩

/-- A reference the constructor accepts. -/
def Constructible : Prop :=
  isName 95 r.domain = true ∧ r.size ≤ hardMaxEvidenceBytes ∧ isMedia r.mediaType = true ∧
    isName 127 r.schema = true

theorem map_members : r.members.map (·.1) = fields := rfl

/-- A reference is read from exactly the texts of its stored form. -/
theorem ofJson_ok {v : Json} {r : EvidenceArtifactRef} :
    ofJson v = .ok r ↔ v.canonical = r.toJson.canonical ∧ r.Constructible := by
  rw [toJson, canonical_eq_obj_iff r.map_members (by decide)]
  simp only [ofJson, members, bind_ok, check_ok, get_ok, Option.filter_eq_some_iff,
    natural_eq_some, decide_eq_true_eq, requireText_ok, Sha256.ofJson_ok, exists_const,
    List.forall_mem_cons, canonical_str, canonical_num, canonical_eq_str,
    canonical_eq_num, Constructible]
  constructor
  · rintro ⟨hfields, domain, ⟨hdom, hname⟩, sha, hsha, size, ⟨hsize, hbound⟩, media,
      ⟨hmedia, hisMedia⟩, schema, ⟨hschema, hisSchema⟩, hreturn⟩
    cases hreturn
    exact ⟨⟨hfields, hdom, hmedia, hschema, hsha, hsize, List.forall_mem_nil _⟩, hname, hbound,
      hisMedia, hisSchema⟩
  · rintro ⟨⟨hfields, hdom, hmedia, hschema, hsha, hsize, -⟩, hname, hbound, hisMedia, hisSchema⟩
    exact ⟨hfields, _, ⟨hdom, hname⟩, _, hsha, _, ⟨hsize, hbound⟩, _, ⟨hmedia, hisMedia⟩, _,
      ⟨hschema, hisSchema⟩, rfl⟩

end EvidenceArtifactRef

/-! ### Evidence -/

namespace SettlementEvidence

variable (e : SettlementEvidence)

/-- The members of the accepted run. -/
def baseMembers : List (String × Json) := [
  ("candidate_digest", .str e.candidateDigest.hex),
  ("primary_attempt_ref", e.primaryAttemptRef.toJson),
  ("primary_authority_digest", .str e.primaryAuthorityDigest.hex),
  ("primary_report_digest", .str e.primaryReportDigest.hex),
  ("primary_selection_evidence_digest", .str e.primarySelectionEvidenceDigest.hex),
  ("reservation_digest", .str e.reservationDigest.hex)]

/-- The members of a second run. -/
def reproductionMembers (r : Digest × EvidenceArtifactRef × Digest × Digest) :
    List (String × Json) := [
  ("reproduction_attempt_ref", r.2.1.toJson),
  ("reproduction_authority_digest", .str r.1.hex),
  ("reproduction_report_digest", .str r.2.2.1.hex),
  ("reproduction_selection_evidence_digest", .str r.2.2.2.hex)]

def toJson : Json :=
  .obj (e.baseMembers ++ (e.reproduction.map reproductionMembers).getD [])

/-- The digest, under the domain of the evidence's kind. -/
def digest (canonicalDigest : String → Json → Digest) (e : SettlementEvidence) : Digest :=
  canonicalDigest (if e.reproduction = none then "cacheon.settlement.evidence.v2"
    else "cacheon.settlement.evidence") e.toJson.canonical

/-- The fields of stored evidence. -/
def fieldsWith (reproduction : Bool) : List String :=
  ["candidate_digest", "primary_attempt_ref", "primary_authority_digest",
    "primary_report_digest", "primary_selection_evidence_digest", "reservation_digest"] ++
    if reproduction then ["reproduction_attempt_ref", "reproduction_authority_digest",
      "reproduction_report_digest", "reproduction_selection_evidence_digest"] else []

/-- The two runs share nothing. -/
def runsDiffer : Prop :=
  ∀ r ∈ e.reproduction, e.primaryAuthorityDigest ≠ r.1 ∧
    e.primaryAttemptRef.sha256 ≠ r.2.1.sha256 ∧ e.primaryReportDigest ≠ r.2.2.1 ∧
    e.primarySelectionEvidenceDigest ≠ r.2.2.2

instance : DecidablePred runsDiffer := fun e =>
  inferInstanceAs (Decidable (∀ r ∈ e.reproduction, _))

/-- The second run of stored evidence. -/
def readReproduction (v : Json) :
    DecodeM (Option (Digest × EvidenceArtifactRef × Digest × Digest)) :=
  match v.get? "reproduction_attempt_ref" with
  | none => .ok none
  | some value => some <$> do
    let ref ← EvidenceArtifactRef.ofJson value
    let authority ← requireDigest settlement "reproduction_authority_digest"
      (v.member "reproduction_authority_digest")
    let report ← requireDigest settlement "reproduction_report_digest"
      (v.member "reproduction_report_digest")
    let selection ← requireDigest settlement "reproduction_selection_evidence_digest"
      (v.member "reproduction_selection_evidence_digest")
    return (authority, ref, report, selection)

/-- Read evidence. -/
def ofJson (v : Json) : DecodeM SettlementEvidence := do
  check (v.hasFields (fieldsWith true) ∨ v.hasFields (fieldsWith false))
    (settlement "settlement evidence fields do not match")
  let ref ← EvidenceArtifactRef.ofJson (v.member "primary_attempt_ref")
  let candidate ← requireDigest settlement "candidate_digest" (v.member "candidate_digest")
  let reservation ← requireDigest settlement "reservation_digest" (v.member "reservation_digest")
  let authority ← requireDigest settlement "primary_authority_digest"
    (v.member "primary_authority_digest")
  let report ← requireDigest settlement "primary_report_digest" (v.member "primary_report_digest")
  let selection ← requireDigest settlement "primary_selection_evidence_digest"
    (v.member "primary_selection_evidence_digest")
  let reproduction ← readReproduction v
  let e : SettlementEvidence :=
    ⟨candidate, reservation, authority, ref, report, selection, reproduction⟩
  check e.runsDiffer (settlement "settlement evidence does not contain a reproduction")
  return e

/-- Evidence the constructors accept. -/
def Constructible : Prop :=
  e.primaryAttemptRef.Constructible ∧ (∀ r ∈ e.reproduction, r.2.1.Constructible) ∧ e.runsDiffer

variable {v : Json} {e : SettlementEvidence}

theorem map_members :
    (e.baseMembers ++ (e.reproduction.map reproductionMembers).getD []).map (·.1) =
      fieldsWith e.reproduction.isSome := by
  cases e.reproduction <;> rfl

theorem readReproduction_ok {repro : Bool} (h : v.hasFields (fieldsWith repro))
    {read : Option (Digest × EvidenceArtifactRef × Digest × Digest)} :
    readReproduction v = .ok read ↔ repro = read.isSome ∧
      (∀ m ∈ (read.map reproductionMembers).getD [], (v.member m.1).canonical = m.2.canonical) ∧
      ∀ r ∈ read, r.2.1.Constructible := by
  unfold readReproduction
  cases repro with
  | false =>
    rw [get?_of_not_mem h (by decide)]
    cases read <;> simp
  | true =>
    rw [get?_of_mem_fields h (by decide), map_some_ok]
    simp only [bind_ok, EvidenceArtifactRef.ofJson_ok, requireDigest_ok]
    cases read with
    | none => simp
    | some r =>
      simp only [Option.map_some, Option.getD_some, reproductionMembers, List.forall_mem_cons,
        canonical_str, canonical_eq_str]
      constructor
      · rintro ⟨_, ⟨ref, ⟨href, hcons⟩, auth, hauth, report, hrep,
          selection, hselection, hreturn⟩, hread⟩
        cases hreturn
        cases hread
        refine ⟨rfl, ⟨href, hauth, hrep, hselection, List.forall_mem_nil _⟩, ?_⟩
        rintro _ ⟨⟩
        exact hcons
      · rintro ⟨-, ⟨href, hauth, hrep, hselection, -⟩, hcons⟩
        exact ⟨_, ⟨_, ⟨href, hcons r rfl⟩, _, hauth, _, hrep, _, hselection, rfl⟩,
          rfl⟩

/-- Evidence is read from exactly the texts of its stored form. -/
theorem ofJson_ok : ofJson v = .ok e ↔ v.canonical = e.toJson.canonical ∧ e.Constructible := by
  have hnodup : ∀ repro : Bool, (fieldsWith repro).Nodup := by decide
  rw [toJson, canonical_eq_obj_iff e.map_members (hnodup _), List.forall_mem_append]
  simp only [ofJson, baseMembers, bind_ok, check_ok, EvidenceArtifactRef.ofJson_ok,
    requireDigest_ok, exists_const, List.forall_mem_cons, canonical_str,
    canonical_eq_str, Constructible]
  constructor
  · rintro ⟨hfields, ref, ⟨href, hcons⟩, cand, hcand, resv,
      hresv, authority, hauth, report, hrep, selection, hselection, repro,
      hrepro, hdiffer, hreturn⟩
    cases hreturn
    obtain ⟨given, hgiven⟩ : ∃ given, v.hasFields (fieldsWith given) :=
      hfields.elim (fun h => ⟨_, h⟩) fun h => ⟨_, h⟩
    obtain ⟨rfl, hmems, hrepros⟩ := (readReproduction_ok hgiven).1 hrepro
    exact ⟨⟨hgiven, ⟨hcand, href, hauth, hrep, hselection, hresv,
      List.forall_mem_nil _⟩, hmems⟩, hcons, hrepros, hdiffer⟩
  · rintro ⟨⟨hgiven, ⟨hcand, href, hauth, hrep, hselection, hresv, -⟩,
      hmems⟩, hcons, hrepros, hdiffer⟩
    refine ⟨?_, _, ⟨href, hcons⟩, _, hcand, _, hresv, _, hauth, _, hrep, _, hselection, _,
      (readReproduction_ok hgiven).2 ⟨rfl, hmems, hrepros⟩, hdiffer, rfl⟩
    cases hisSome : e.reproduction.isSome with
    | true => exact .inl (hisSome ▸ hgiven)
    | false => exact .inr (hisSome ▸ hgiven)

end SettlementEvidence

/-! ### The stored forms -/

section Stored

open QualificationFields (SpellsLegacySpeedPolicy)

/-- **What the stored forms determine.**  Whatever the order of its members, the text of a
qualification, a candidate or evidence is read as the value it was written from, with the same
digest; and a text that is read is written again exactly, unless it spells the legacy speed policy
of a qualification without an audit. -/
theorem stored_form_exact_iff (H : SettlementHashes) (canonicalDigest : String → Json → Digest)
    (hpolicies : H.legacySpeedPolicy ≠ H.residentSpeedPolicy) :
    (∀ q : QualificationFields, q.Constructible H →
      ∀ v : Json, v.canonical = (q.toJson H canonicalDigest).canonical →
        ∃ q', ofJson H canonicalDigest v = .ok q' ∧ q' = q ∧
          q'.digest H canonicalDigest = q.digest H canonicalDigest) ∧
    (∀ c : SettlementCandidate H, c.Constructible →
      ∀ v : Json, v.canonical = (c.toJson canonicalDigest).canonical →
        ∃ c', ofJson canonicalDigest v = .ok c' ∧ c' = c ∧
          c'.storedDigest canonicalDigest = c.storedDigest canonicalDigest) ∧
    (∀ e : SettlementEvidence, e.Constructible → ∀ v : Json, v.canonical = e.toJson.canonical →
        ∃ e', SettlementEvidence.ofJson v = .ok e' ∧ e' = e ∧
          e'.digest canonicalDigest = e.digest canonicalDigest) ∧
    (∀ (v : Json) (q : QualificationFields), ofJson H canonicalDigest v = .ok q →
        (v.canonical = (q.toJson H canonicalDigest).canonical ↔ ¬ SpellsLegacySpeedPolicy H v)) ∧
    (∀ (v : Json) (c : SettlementCandidate H), ofJson canonicalDigest v = .ok c →
      (v.canonical = (c.toJson canonicalDigest).canonical ↔
        ¬ SpellsLegacySpeedPolicy H (v.member "primary") ∧
          ¬ SpellsLegacySpeedPolicy H (v.member "reproduction"))) ∧
    (∀ (v : Json) (e : SettlementEvidence), SettlementEvidence.ofJson v = .ok e →
      v.canonical = e.toJson.canonical) := by
  refine ⟨fun q hq v hv => ⟨q, ?_, rfl, rfl⟩, fun c hc v hv => ⟨c, ?_, rfl, rfl⟩,
    fun e he v hv => ⟨e, ?_, rfl, rfl⟩,
    fun v q h => QualificationFields.canonical_eq_toJson_iff hpolicies h,
    fun v c h => SettlementCandidate.canonical_eq_toJson_iff hpolicies h,
    fun v e h => (SettlementEvidence.ofJson_ok.1 h).1⟩
  · exact (ofJson_ok hpolicies).2 ⟨hq, _, id, hv⟩
  · exact ofJson_of_canonical hpolicies hc hv
  · exact SettlementEvidence.ofJson_ok.2 ⟨hv, he⟩

end Stored

namespace StoredSample

def canonicalDigest (domain : String) (_ : Json) : Digest := mixDigest [mixText domain]

/-- A stack with a catalog. -/
def stack : EvaluationStackManifest :=
  { sampleStack with catalogSnapshot := .obj [("targets", .arr [])] }

/-- A qualification of the first kind: the legacy speed policy and no audit. -/
def legacy : QualificationFields :=
  { sampleQualification 1 1 10 "miner" "slot" 1 stack (samplePercent 15 (by decide)) with
    auditControlDigest := sampleHashes.legacyAuditControl
    auditPolicy := none
    auditEvidenceDigest := sampleHashes.legacyAuditEvidence }

/-- Its text with the speed policy written out. -/
def spelled : Json := .obj (legacy.membersWith canonicalDigest true)

theorem legacy_constructible : legacy.Constructible sampleHashes := by decide

theorem ofJson_spelled : ofJson sampleHashes canonicalDigest spelled = .ok legacy :=
  (ofJson_ok (by decide)).2 ⟨legacy_constructible, true, fun _ => rfl, rfl⟩

/-- Two texts of one qualification: the one it is written as, and one that names the legacy
speed policy. -/
theorem legacy_speed_policy_spelled : ofJson sampleHashes canonicalDigest spelled = .ok legacy ∧
      ofJson sampleHashes canonicalDigest
        (legacy.toJson sampleHashes canonicalDigest) = .ok legacy ∧
      spelled.canonical ≠ (legacy.toJson sampleHashes canonicalDigest).canonical := by
  refine ⟨ofJson_spelled, ?_, fun heq => ?_⟩
  · exact (ofJson_ok (by decide)).2 ⟨legacy_constructible, _, id, rfl⟩
  · have hspells : QualificationFields.SpellsLegacySpeedPolicy sampleHashes spelled := by
      decide
    exact (QualificationFields.canonical_eq_toJson_iff (by decide) ofJson_spelled).1 heq hspells

theorem stored_form_exact_iff_sample :
    sampleHashes.legacySpeedPolicy ≠ sampleHashes.residentSpeedPolicy ∧
      legacy.Constructible sampleHashes ∧
      (spelled.canonical = (legacy.toJson sampleHashes canonicalDigest).canonical ↔
        ¬ QualificationFields.SpellsLegacySpeedPolicy sampleHashes spelled) :=
  ⟨by decide, legacy_constructible,
    (stored_form_exact_iff sampleHashes canonicalDigest (by decide)).2.2.2.1 spelled legacy
      ofJson_spelled⟩

end StoredSample

end Cacheon
