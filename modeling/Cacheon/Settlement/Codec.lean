import Cacheon.Lib.DecimalText
import Cacheon.Settlement.Candidate
import Cacheon.Settlement.ManifestCodec

/-!
# The stored form of settlement candidates

A qualification is written as a JSON object.  Three groups of its fields are optional: the digest
of the speed policy, the audit, and the lane orientation; the writer leaves out what an older row
never had, and the reader accepts five sets of fields.

* `QualificationFields.toJson`, `QualificationFields.ofJson` : the two directions; likewise for
  `SlotAuditPolicy`, `ResidentLaneOrientation` and `SettlementCandidate`.
* `QualificationFields.ofJson_ok` : from which texts a qualification is read.
* `QualificationFields.SpellsLegacySpeedPolicy` : the one text that is read and not written.
-/

namespace Cacheon

open Fallible DecodeFault List Option Decimal EvaluationStackManifest QualificationFields Json

/-! ### Audit policies -/

namespace SlotAuditPolicy

/-- The most receipts of one audit. -/
def maxAuditReceipts : ℕ := 4096

/-- A nonzero 128-bit number in lowercase hexadecimal digits. -/
def isBindingId (text : String) : Bool :=
  decide (text.toList.length = 32) && text.toList.all Digest.isHexDigit &&
    decide (text ≠ "00000000000000000000000000000000")

def members (p : SlotAuditPolicy) : List (String × Json) := [
  ("expected_member_count", .num p.control.expectedMemberCount),
  ("expected_slots", .arr (p.control.expectedSlots.map .str)),
  ("minimum_calls", .num p.control.minimumCalls),
  ("sample_rate_ppm", .num p.control.sampleRatePpm),
  ("validator_seed", .str p.validatorSeed)]

def toJson (p : SlotAuditPolicy) : Json := .obj p.members

def fields : List String :=
  ["expected_member_count", "expected_slots", "minimum_calls", "sample_rate_ppm", "validator_seed"]

/-- Sorted slots without a duplicate. -/
def slotsCanonical (slots : List String) : Prop :=
  slots ≠ [] ∧ slots.length ≤ maxAuditReceipts ∧ Keyed.Sorted id slots ∧
    slots.all isNodeAddress = true

instance : DecidablePred slotsCanonical := fun _ => inferInstanceAs (Decidable (_ ∧ _ ∧ _ ∧ _))

/-- Read an audit policy. -/
def ofJson (v : Json) : DecodeM SlotAuditPolicy := do
  check (v.hasFields fields) (session "slot audit policy fields do not match the schema")
  let slots ← requireStrings session "audit expected_slots must be an array"
    (v.member "expected_slots")
  let seed ← requireText session "audit validator_seed must be nonzero 128-bit lowercase hex"
    isBindingId (v.member "validator_seed")
  let rate ← requireIntIn session "audit sample_rate_ppm" 1 1000000 (v.member "sample_rate_ppm")
  let calls ← requireIntIn session "audit minimum_calls" 1 1000000000 (v.member "minimum_calls")
  check (slotsCanonical slots)
    (session "audit expected_slots must be a nonempty sorted unique slot array")
  let count ← requireIntIn session "audit expected_member_count" 1 64
    (v.member "expected_member_count")
  check (slots.length * count ≤ maxAuditReceipts)
    (session "audit slot/member receipt bound is exceeded")
  return ⟨seed, rate, calls, slots, count⟩

/-- A policy the constructor accepts. -/
def Constructible (p : SlotAuditPolicy) : Prop :=
  isBindingId p.validatorSeed = true ∧
    (1 ≤ p.control.sampleRatePpm ∧ p.control.sampleRatePpm ≤ 1000000) ∧
    (1 ≤ p.control.minimumCalls ∧ p.control.minimumCalls ≤ 1000000000) ∧
    slotsCanonical p.control.expectedSlots ∧
    (1 ≤ p.control.expectedMemberCount ∧ p.control.expectedMemberCount ≤ 64) ∧
    p.control.expectedSlots.length * p.control.expectedMemberCount ≤ maxAuditReceipts

instance : DecidablePred Constructible := fun _ =>
  inferInstanceAs (Decidable (_ ∧ _ ∧ _ ∧ _ ∧ _ ∧ _))

theorem map_members (p : SlotAuditPolicy) : p.members.map (·.1) = fields := rfl

/-- A policy is read from exactly the texts of its stored form. -/
theorem ofJson_ok {v : Json} {p : SlotAuditPolicy} :
    ofJson v = .ok p ↔ v.canonical = p.toJson.canonical ∧ p.Constructible := by
  rw [toJson, canonical_eq_obj_iff p.map_members (by decide)]
  simp only [ofJson, members, bind_ok, check_ok, requireStrings_ok, requireText_ok,
    requireIntIn_ok, exists_const, forall_mem_cons, canonical_str,
    canonical_num, canonical_eq_str, canonical_eq_num, canonical_eq_strings,
    Constructible]
  constructor
  · rintro ⟨hfields, slots, hslots, seed, ⟨hseed, hid⟩, rate, ⟨hrate, hrates⟩, calls,
      ⟨hcalls, hcallBounds⟩, hcanon, count, ⟨hcount, hcounts⟩, hreceipts, hreturn⟩
    cases hreturn
    exact ⟨⟨hfields, hcount, hslots, hcalls, hrate, hseed, forall_mem_nil _⟩,
      hid, hrates, hcallBounds, hcanon, hcounts, hreceipts⟩
  · rintro ⟨⟨hfields, hcount, hslots, hcalls, hrate, hseed, -⟩, hid, hrates, hcallBounds,
      hcanon, hcounts, hreceipts⟩
    exact ⟨hfields, _, hslots, _, ⟨hseed, hid⟩, _, ⟨hrate, hrates⟩, _, ⟨hcalls, hcallBounds⟩,
      hcanon, _, ⟨hcount, hcounts⟩, hreceipts, rfl⟩

end SlotAuditPolicy

/-! ### Lane orientations -/

namespace ResidentLaneOrientation

def members (o : ResidentLaneOrientation) : List (String × Json) := [
  ("speed_evidence_policy_digest", .str o.speedEvidencePolicyDigest.hex),
  ("control_digest", .str o.controlDigest.hex),
  ("baseline_physical_lane_digest", .str o.baselinePhysicalLaneDigest.hex),
  ("candidate_physical_lane_digest", .str o.candidatePhysicalLaneDigest.hex)]

def toJson (o : ResidentLaneOrientation) : Json := .obj o.members

def fields : List String :=
  ["speed_evidence_policy_digest", "control_digest", "baseline_physical_lane_digest",
    "candidate_physical_lane_digest"]

/-- Read an orientation. -/
def ofJson (v : Json) : DecodeM ResidentLaneOrientation := do
  check (v.hasFields fields) (settlement "resident lane orientation fields do not match")
  let policy ← requireDigest settlement "speed_evidence_policy_digest"
    (v.member "speed_evidence_policy_digest")
  let control ← requireDigest settlement "control_digest" (v.member "control_digest")
  let baseline ← requireDigest settlement "baseline_physical_lane_digest"
    (v.member "baseline_physical_lane_digest")
  let candidate ← requireDigest settlement "candidate_physical_lane_digest"
    (v.member "candidate_physical_lane_digest")
  return ⟨policy, control, baseline, candidate⟩

theorem map_members (o : ResidentLaneOrientation) : o.members.map (·.1) = fields := rfl

/-- An orientation is read from exactly the texts of its stored form. -/
theorem ofJson_ok {v : Json} {o : ResidentLaneOrientation} :
    ofJson v = .ok o ↔ v.canonical = o.toJson.canonical := by
  rw [toJson, canonical_eq_obj_iff o.map_members (by decide)]
  simp only [ofJson, members, bind_ok, check_ok, requireDigest_ok, exists_const,
    forall_mem_cons, canonical_str, canonical_eq_str]
  constructor
  · rintro ⟨hfields, policy, hpol, control, hctl, baseline, hbaseline, cand, hcand, hreturn⟩
    cases hreturn
    exact ⟨hfields, hpol, hctl, hbaseline, hcand, forall_mem_nil _⟩
  · rintro ⟨hfields, hpol, hctl, hbaseline, hcand, -⟩
    exact ⟨hfields, _, hpol, _, hctl, _, hbaseline, _, hcand, rfl⟩

end ResidentLaneOrientation

/-! ### Speedups -/

namespace Speedup

variable {s : Speedup}

/-- The canonical decimal spelling. -/
def text (s : Speedup) : String := String.ofList s.val.spell

/-- A normalized decimal as a speedup: it is greater than one. -/
def ofNormal (d : Decimal) : Option Speedup := if h : IsSpeedup d then some ⟨d, h⟩ else none

theorem ofNormal_eq_some {d : Decimal} : ofNormal d = some s ↔ d = s.val := by
  rw [ofNormal, dite_none_right_eq_some]
  exact ⟨fun ⟨_, heq⟩ => congrArg Subtype.val (some.inj heq),
    fun heq => ⟨heq ▸ s.property, congrArg some (Subtype.ext heq)⟩⟩

/-- Read a speedup in its canonical spelling. -/
def ofJson (value : Json) : DecodeM Speedup := do
  let text ← get (settlement "speedup must be an exact decimal string") value.text
  let parsed ← get (settlement "speedup is not decimal") (ofPlain text.toList)
  let speedup ← get (settlement "a settlement candidate must have speedup greater than one")
    (ofNormal (parsed.normalize decimalContext))
  check (speedup.text = text)
    (settlement ("speedup must use canonical decimal spelling '" ++ speedup.text ++ "'"))
  return speedup

theorem ofPlain_text (s : Speedup) :
    (ofPlain s.text.toList).map (normalize decimalContext) = some s.val := by
  obtain ⟨⟨coeff, exp⟩, hlarge, hlast, hshort⟩ := s
  have hvalue := lt_iff.1 hlarge
  rw [Decimal.toRat_one, Decimal.toRat] at hvalue
  have hpos : (0 : ℤ) < coeff := by
    by_contra hneg
    have hcoeff : (coeff : ℚ) ≤ 0 := by exact_mod_cast not_lt.1 hneg
    have hpow : (0 : ℚ) < 10 ^ exp := zpow_pos (by norm_num) _
    nlinarith
  obtain ⟨c, rfl⟩ := Int.eq_ofNat_of_zero_le hpos.le
  have hspell : (text ⟨⟨c, exp⟩, hlarge, hlast, hshort⟩).toList = spell ⟨c, exp⟩ :=
    String.toList_ofList
  rw [hspell]
  refine normalize_ofPlain_spell ?_ (by simpa using hshort) (fun hexp => ?_)
  · have hcast : (c : ℤ) % 10 ≠ 0 := hlast
    omega
  · -- the value exceeds one, so the digits reach past the point
    have hexp' : exp = -((-exp).toNat : ℤ) := by omega
    rw [hexp', zpow_neg, zpow_natCast, Int.cast_natCast, ← div_eq_mul_inv,
      one_lt_div (by positivity)] at hvalue
    exact_mod_cast hvalue.le

/-- A speedup is read from exactly its spelling. -/
@[simp] theorem ofJson_ok {value : Json} : ofJson value = .ok s ↔ value = .str s.text := by
  simp only [ofJson, bind_ok, check_ok, get_ok, text_eq_some, ofNormal_eq_some, exists_const]
  constructor
  · rintro ⟨text, rfl, parsed, -, speedup, -, htext, hreturn⟩
    cases hreturn
    rw [htext]
  · rintro rfl
    obtain ⟨parsed, hparse, hnormal⟩ := map_eq_some_iff.1 s.ofPlain_text
    exact ⟨s.text, rfl, parsed, hparse, s, hnormal, rfl, rfl⟩

end Speedup

/-! ### Qualifications -/

/-- The message of a settlement fault. -/
def DecodeFault.ofSettlement : SettlementFault → DecodeFault
  | .settlement text => settlement text
  | .composition text => settlement text

/-- The domain of catalog digests. -/
def targetCatalogDomain : String := "cacheon.target-catalog"

namespace QualificationFields

variable (H : SettlementHashes) (canonicalDigest : String → Json → Digest)

variable (q : QualificationFields)

/-- The members every qualification has. -/
def baseMembers : List (String × Json) := [
  ("arena_digest", .str q.arenaDigest.hex),
  ("arm_digest", .str q.armDigest.hex),
  ("candidate_manifest", q.candidateManifest.toJson (canonicalDigest targetCatalogDomain)),
  ("candidate_stack_digest", .str q.challenger.stackDigest.hex),
  ("candidate_tree_digest", .str q.challenger.treeDigest.hex),
  ("event_index", .num q.eventIndex),
  ("event_subindex", .num q.eventSubindex),
  ("finalized_block", .num q.finalizedBlock),
  ("hotkey", .str q.hotkey),
  ("incumbent_stack_digest", .str q.incumbent.stackDigest.hex),
  ("incumbent_tree_digest", .str q.incumbent.treeDigest.hex),
  ("incumbent_manifest", q.incumbentManifest.toJson (canonicalDigest targetCatalogDomain)),
  ("lane", .str "registered"),
  ("members", .arr (q.members.map .str)),
  ("qualification_attempt_digest", .str q.qualificationAttemptDigest.hex),
  ("qualification_authority_digest", .str q.qualificationAuthorityDigest.hex),
  ("qualification_plan_digest", .str q.qualificationPlanDigest.hex),
  ("qualification_report_digest", .str q.qualificationReportDigest.hex),
  ("selection_commitment_digest", .str q.selectionCommitmentDigest.hex),
  ("selection_secret_commitment_digest", .str q.selectionSecretCommitmentDigest.hex),
  ("selection_evidence_digest", .str q.selectionEvidenceDigest.hex),
  ("proposal_digest", .str ""),
  ("reservation_digest", .str q.reservationDigest.hex),
  ("selected_delta_digest", .str q.selectedDeltaDigest.hex),
  ("speedup", .str q.speedup.text),
  ("target_id", .str q.targetId)]

/-- The fields every qualification has. -/
def baseFields : List String :=
  ["arena_digest", "arm_digest", "candidate_manifest", "candidate_stack_digest",
    "candidate_tree_digest", "event_index", "event_subindex", "finalized_block", "hotkey",
    "incumbent_stack_digest", "incumbent_tree_digest", "incumbent_manifest", "lane", "members",
    "qualification_attempt_digest", "qualification_authority_digest",
    "qualification_plan_digest", "qualification_report_digest", "selection_commitment_digest",
    "selection_secret_commitment_digest", "selection_evidence_digest", "proposal_digest",
    "reservation_digest", "selected_delta_digest", "speedup", "target_id"]

/-- The member of the speed policy. -/
def speedMembers (policy : Digest) : List (String × Json) :=
  [("speed_evidence_policy_digest", .str policy.hex)]

/-- The members of the audit, if there is one. -/
def auditMembers (policy : Option SlotAuditPolicy) (control evidence : Digest) :
    List (String × Json) :=
  match policy with
  | none => []
  | some policy => [
    ("audit_control_digest", .str control.hex),
    ("audit_evidence_digest", .str evidence.hex),
    ("audit_policy", policy.toJson)]

/-- The member of the lane orientation, if there is one. -/
def orientationMembers (orientation : Option ResidentLaneOrientation) : List (String × Json) :=
  match orientation with
  | none => []
  | some orientation => [("resident_lane_orientation", orientation.toJson)]

/-- The members of a qualification with or without its speed policy. -/
def membersWith (speed : Bool) (q : QualificationFields) : List (String × Json) :=
  q.baseMembers canonicalDigest ++
    (if speed then speedMembers q.speedEvidencePolicyDigest else []) ++
    auditMembers q.auditPolicy q.auditControlDigest q.auditEvidenceDigest ++
    orientationMembers q.residentLaneOrientation

/-- Older rows have no speed policy, and their bytes stay as they are. -/
def writesSpeedPolicy : Bool :=
  q.speedEvidencePolicyDigest ≠ H.legacySpeedPolicy ∨ q.auditPolicy ≠ none

def toJson : Json :=
  .obj (q.membersWith canonicalDigest (q.writesSpeedPolicy H))

/-- The digest of a qualification. -/
def digest : Digest :=
  let domain :=
    if q.residentLaneOrientation ≠ none then "cacheon.settlement.qualification.resident-lane-v1"
    else if q.auditPolicy = none then "cacheon.settlement.qualification"
    else "cacheon.settlement.qualification.audit-v1"
  canonicalDigest domain (q.toJson H canonicalDigest).canonical

/-- The fields of a stored qualification, by the optional groups it has. -/
def shape (speed audit orientation : Bool) : List String :=
  baseFields ++ (if speed then ["speed_evidence_policy_digest"] else []) ++
    (if audit then ["audit_control_digest", "audit_evidence_digest", "audit_policy"] else []) ++
    (if orientation then ["resident_lane_orientation"] else [])

/-- The sets of fields the reader accepts. -/
def shapes : List (List String) :=
  [shape false false false, shape true false false, shape true true false, shape true true true,
    shape true false true]

/-- The audit of a stored qualification, with the digests that go with it. -/
def readAudit (v : Json) : DecodeM (Option SlotAuditPolicy × Json × Json) :=
  match v.get? "audit_policy" with
  | none => .ok (none, .str H.legacyAuditControl.hex, .str H.legacyAuditEvidence.hex)
  | some value => do
    let policy ← SlotAuditPolicy.ofJson value
    return (some policy, v.member "audit_control_digest", v.member "audit_evidence_digest")

/-- The lane orientation of a stored qualification. -/
def readOrientation (v : Json) : DecodeM (Option ResidentLaneOrientation) :=
  match v.get? "resident_lane_orientation" with
  | none => .ok none
  | some value => some <$> ResidentLaneOrientation.ofJson value

/-- The candidate's stack of a stored qualification. -/
def readCandidateManifest (v : Json) : DecodeM (Option EvaluationStackManifest) :=
  match v.member "candidate_manifest" with
  | .null => .ok none
  | value => some <$> ofJson (canonicalDigest targetCatalogDomain) value

/-- Read a digest of a settlement record. -/
def digestOf (v : Json) (field : String) : DecodeM Digest :=
  requireDigest settlement field (v.member field)

/-- Read a qualification. -/
def ofJson (v : Json) : DecodeM QualificationFields := do
  check (∃ fields ∈ shapes, v.hasFields fields)
    (settlement "settlement qualification fields do not match")
  let audit ← readAudit H v
  let orientation ← readOrientation v
  let members ← requireStrings settlement "settlement qualification members are malformed"
    (v.member "members")
  let candidate ← readCandidateManifest canonicalDigest v
  let incumbent ← EvaluationStackManifest.ofJson (canonicalDigest targetCatalogDomain)
    (v.member "incumbent_manifest")
  check (v.member "lane" = .str "registered") (settlement "settlement lane is unsupported")
  let arenaDigest ← digestOf v "arena_digest"
  let reservationDigest ← digestOf v "reservation_digest"
  let selectedDeltaDigest ← digestOf v "selected_delta_digest"
  let authorityDigest ← digestOf v "qualification_authority_digest"
  let planDigest ← digestOf v "qualification_plan_digest"
  let attemptDigest ← digestOf v "qualification_attempt_digest"
  let reportDigest ← digestOf v "qualification_report_digest"
  let commitmentDigest ← digestOf v "selection_commitment_digest"
  let secretDigest ← digestOf v "selection_secret_commitment_digest"
  let selectionDigest ← digestOf v "selection_evidence_digest"
  let armDigest ← digestOf v "arm_digest"
  let incumbentStack ← digestOf v "incumbent_stack_digest"
  let incumbentTree ← digestOf v "incumbent_tree_digest"
  let candidateStack ← digestOf v "candidate_stack_digest"
  let candidateTree ← digestOf v "candidate_tree_digest"
  let speedPolicy ← requireDigest settlement "speed_evidence_policy_digest"
    ((v.get? "speed_evidence_policy_digest").getD (.str H.legacySpeedPolicy.hex))
  let auditControl ← requireDigest settlement "audit_control_digest" audit.2.1
  let auditEvidence ← requireDigest settlement "audit_evidence_digest" audit.2.2
  let finalizedBlock ← requireInt settlement "finalized_block" 0 (v.member "finalized_block")
  let eventIndex ← requireInt settlement "event_index" 0 (v.member "event_index")
  let eventSubindex ← requireInt settlement "event_subindex" 0 (v.member "event_subindex")
  let hotkey ← requireIdentifier settlement "hotkey" isIdentifier (v.member "hotkey")
  let targetId ← requireIdentifier settlement "target_id" isIdentifier (v.member "target_id")
  let speedup ← Speedup.ofJson (v.member "speedup")
  let candidateManifest ← get
    (settlement "registered candidate lacks its exact stack manifest") candidate
  check (v.member "proposal_digest" = .str "")
    (settlement "registered candidates cannot name a discovery proposal")
  let q : QualificationFields :=
    { arenaDigest, reservationDigest, finalizedBlock, eventIndex, eventSubindex, hotkey,
      targetId, members, selectedDeltaDigest
      qualificationAuthorityDigest := authorityDigest
      qualificationPlanDigest := planDigest
      qualificationAttemptDigest := attemptDigest
      qualificationReportDigest := reportDigest
      selectionCommitmentDigest := commitmentDigest
      selectionSecretCommitmentDigest := secretDigest
      selectionEvidenceDigest := selectionDigest
      armDigest
      incumbent := ⟨incumbentStack, incumbentTree⟩
      challenger := ⟨candidateStack, candidateTree⟩
      speedup
      incumbentManifest := incumbent
      candidateManifest
      speedEvidencePolicyDigest := speedPolicy
      auditControlDigest := auditControl
      auditPolicy := audit.1
      auditEvidenceDigest := auditEvidence
      residentLaneOrientation := orientation }
  (q.postInit H).mapError DecodeFault.ofSettlement
  return q

/-- A qualification the constructors accept. -/
def Constructible : Prop :=
  q.postInit H = .ok () ∧ q.incumbentManifest.Constructible ∧ q.candidateManifest.Constructible ∧
    ∀ policy ∈ q.auditPolicy, policy.Constructible

instance : DecidablePred (Constructible H) := fun _ =>
  inferInstanceAs (Decidable (_ ∧ _ ∧ _ ∧ _))

variable {H canonicalDigest} {v : Json} {q : QualificationFields} {speed audit orientation : Bool}

theorem map_baseMembers : (q.baseMembers canonicalDigest).map (·.1) = baseFields := rfl

theorem map_membersWith (speed : Bool) (q : QualificationFields) :
    (q.membersWith canonicalDigest speed).map (·.1) =
      shape speed q.auditPolicy.isSome q.residentLaneOrientation.isSome := by
  simp only [membersWith, map_append, map_baseMembers, shape]
  congr 1
  · congr 1
    · congr 1
      cases speed <;> rfl
    · unfold auditMembers
      cases q.auditPolicy <;> rfl
  · unfold orientationMembers
    cases q.residentLaneOrientation <;> rfl

theorem shape_nodup (speed audit orientation : Bool) : (shape speed audit orientation).Nodup := by
  cases speed <;> cases audit <;> cases orientation <;> decide

/-! #### The optional groups -/

section

variable (h : v.hasFields (shape speed audit orientation))

include h

theorem get?_speed_of_shape : v.get? "speed_evidence_policy_digest" =
      if speed then some (v.member "speed_evidence_policy_digest") else none := by
  cases speed with
  | true => exact get?_of_mem_fields h (by cases audit <;> cases orientation <;> decide)
  | false => exact get?_of_not_mem h (by cases audit <;> cases orientation <;> decide)

theorem get?_audit_of_shape :
    v.get? "audit_policy" = if audit then some (v.member "audit_policy") else none := by
  cases audit with
  | true => exact get?_of_mem_fields h (by cases speed <;> cases orientation <;> decide)
  | false => exact get?_of_not_mem h (by cases speed <;> cases orientation <;> decide)

theorem get?_orientation_of_shape : v.get? "resident_lane_orientation" =
      if orientation then some (v.member "resident_lane_orientation") else none := by
  cases orientation with
  | true => exact get?_of_mem_fields h (by cases speed <;> cases audit <;> decide)
  | false => exact get?_of_not_mem h (by cases speed <;> cases audit <;> decide)

theorem readSpeed_of_shape (legacy : Json) : (v.get? "speed_evidence_policy_digest").getD legacy =
      if speed then v.member "speed_evidence_policy_digest" else legacy := by
  rw [get?_speed_of_shape h]
  cases speed <;> rfl

end

theorem hex_inj {d d' : Digest} : str d.hex = .str d'.hex ↔ d = d' := by
  rw [str.injEq]
  refine ⟨fun heq => some.inj ?_, fun heq => heq ▸ rfl⟩
  rw [← Digest.ofHex_hex, ← Digest.ofHex_hex d', heq]

/-- The stored members agree with the qualification's. -/
def Agrees (v : Json) (members : List (String × Json)) : Prop :=
  ∀ m ∈ members, (v.member m.1).canonical = m.2.canonical

@[simp] theorem agrees_nil : Agrees v [] ↔ True := iff_true_intro (forall_mem_nil _)

@[simp] theorem agrees_cons {m : String × Json} {members : List (String × Json)} :
    Agrees v (m :: members) ↔ (v.member m.1).canonical = m.2.canonical ∧ Agrees v members :=
  forall_mem_cons

theorem readSpeed_eq_str {legacy policy : Digest} :
    (if speed then v.member "speed_evidence_policy_digest" else .str legacy.hex) = .str policy.hex ↔
      if speed then Agrees v (speedMembers policy) else policy = legacy := by
  cases speed with
  | true => simp [speedMembers]
  | false =>
    simp only [Bool.false_eq_true, if_false, hex_inj]
    exact eq_comm

theorem readAudit_ok (h : v.hasFields (shape speed audit orientation))
    {policy : Option SlotAuditPolicy} {control ev : Digest} :
    readAudit H v = .ok (policy, .str control.hex, .str ev.hex) ↔
      audit = policy.isSome ∧ Agrees v (auditMembers policy control ev) ∧
        (policy = none → control = H.legacyAuditControl ∧ ev = H.legacyAuditEvidence) ∧
        ∀ p ∈ policy, p.Constructible := by
  rw [readAudit, get?_audit_of_shape h]
  unfold auditMembers
  cases audit with
  | true =>
    simp only [if_true, bind_ok, SlotAuditPolicy.ofJson_ok]
    cases policy with
    | none =>
      refine ⟨?_, by simp⟩
      rintro ⟨policy, -, hread⟩
      cases hread
    | some policy =>
      simp only [agrees_cons, agrees_nil, canonical_str, canonical_eq_str, and_true]
      constructor
      · rintro ⟨policy', ⟨hcanon, hcons⟩, hread⟩
        obtain ⟨hpol, hctl, hev⟩ := by
          simpa only [pure, Except.pure, Except.ok.injEq, Prod.mk.injEq, some.injEq] using hread
        subst hpol
        refine ⟨rfl, ⟨hctl, hev, hcanon⟩, by simp, ?_⟩
        rintro _ ⟨⟩
        exact hcons
      · rintro ⟨-, ⟨hctl, hev, hcanon⟩, -, hcons⟩
        refine ⟨policy, ⟨hcanon, hcons policy rfl⟩, ?_⟩
        rw [hctl, hev]
        rfl
  | false =>
    simp only [Bool.false_eq_true, if_false, Except.ok.injEq, Prod.mk.injEq, hex_inj]
    cases policy with
    | none => simp [eq_comm]
    | some policy => simp

theorem readOrientation_ok (h : v.hasFields (shape speed audit orientation))
    {read : Option ResidentLaneOrientation} :
    readOrientation v = .ok read ↔
      orientation = read.isSome ∧ Agrees v (orientationMembers read) := by
  rw [readOrientation, get?_orientation_of_shape h]
  unfold orientationMembers
  cases orientation with
  | true =>
    simp only [if_true, map_some_ok]
    cases read with
    | none => simp
    | some o =>
      simp only [ResidentLaneOrientation.ofJson_ok, some.injEq, exists_eq_right,
        isSome_some, true_and, agrees_cons, agrees_nil, and_true]
  | false =>
    cases read with
    | none => simp
    | some o => simp

theorem candidateManifest_ok {m : EvaluationStackManifest} :
    readCandidateManifest canonicalDigest v = .ok (some m) ↔
      EvaluationStackManifest.ofJson (canonicalDigest targetCatalogDomain)
        (v.member "candidate_manifest") = .ok m := by
  unfold readCandidateManifest
  split
  · rename_i hnull
    rw [hnull, EvaluationStackManifest.ofJson_ok]
    simp [EvaluationStackManifest.toJson, Json.canonical_obj]
  · simp [map_some_ok]

/-- What is read from a stored qualification, by the fields there are. -/
theorem ofJson_eq_ok_of_shape (hshape : shape speed audit orientation ∈ shapes)
    (h : v.hasFields (shape speed audit orientation)) :
    ofJson H canonicalDigest v = .ok q ↔ q.Constructible H ∧
      Agrees v (q.baseMembers canonicalDigest) ∧
      (if speed then Agrees v (speedMembers q.speedEvidencePolicyDigest)
        else q.speedEvidencePolicyDigest = H.legacySpeedPolicy) ∧
      (audit = q.auditPolicy.isSome ∧
        Agrees v (auditMembers q.auditPolicy q.auditControlDigest q.auditEvidenceDigest)) ∧
      orientation = q.residentLaneOrientation.isSome ∧
        Agrees v (orientationMembers q.residentLaneOrientation) := by
  have hfields : ∃ fields ∈ shapes, v.hasFields fields := ⟨_, hshape, h⟩
  simp only [ofJson, bind_ok, check_ok, get_ok, mapError_ok, exists_const,
    requireStrings_ok, digestOf, requireDigest_ok, requireInt_ok,
    requireIdentifier, requireText_ok, Speedup.ofJson_ok, hfields, true_and, readSpeed_of_shape h]
  simp only [baseMembers, agrees_cons, agrees_nil, canonical_str, canonical_num,
    canonical_eq_str, canonical_eq_num, canonical_eq_strings, and_true]
  constructor
  · intro hok
    obtain ⟨read, hread, o, horient, members, hmems, cand, hcand, inc, hinc, hlane, hok⟩ := hok
    obtain ⟨arena, harena, resv, hresv, delta, hdelta, auth, hauth, plan,
      hplan, attempt, hatt, report, hrep, hok⟩ := hok
    obtain ⟨commitment, hcomm, secret, hsecret, sel, hselection, arm, harm, istack,
      histack, itree, hitree, cstack, hcstack, ctree, hctree, hok⟩ := hok
    obtain ⟨policy, hpol, control, hctl, ev, hev, block, hblk, index, hindex,
      subindex, hsubindex, hok⟩ := hok
    obtain ⟨hotkey, hhotkey, target, htgt, speedup, hspeedup, man, hman, hproposal, u,
      hpost, hreturn⟩ := hok
    subst hman
    obtain ⟨hstored, hcandidateConstructible⟩ :=
      EvaluationStackManifest.ofJson_ok.1 (candidateManifest_ok.1 hcand)
    obtain ⟨hincumbentStored, hincumbentConstructible⟩ := ofJson_ok.1 hinc
    obtain ⟨auditPolicy, controlValue, evidenceValue⟩ := read
    obtain rfl : controlValue = _ := hctl
    obtain rfl : evidenceValue = _ := hev
    obtain ⟨haudit, hauditMembers, -, hauditConstructible⟩ := (readAudit_ok h).1 hread
    cases hreturn
    refine ⟨⟨hpost, hincumbentConstructible, hcandidateConstructible, hauditConstructible⟩,
      ⟨harena, harm, hstored, hcstack, hctree, hindex.1, hsubindex.1,
        hblk.1, hhotkey.1, histack, hitree, hincumbentStored, hlane, hmems, hatt,
        hauth, hplan, hrep, hcomm, hsecret, hselection, hproposal, hresv,
        hdelta, hspeedup, htgt.1⟩, readSpeed_eq_str.1 hpol, ⟨haudit, hauditMembers⟩,
      (readOrientation_ok h).1 horient⟩
  · rintro ⟨⟨hpost, hincumbentConstructible, hcandidateConstructible, hauditConstructible⟩, hbase,
      hpol, ⟨haudit, hauditMembers⟩, horient⟩
    obtain ⟨harena, harm, hstored, hcstack, hctree, hindex, hsubindex, hblk, hhotkey, histack,
      hitree, hincumbentStored, hlane, hmems, hatt, hauth, hplan, hrep, hcomm,
      hsecret, hselection, hproposal, hresv, hdelta, hspeedup, htgt⟩ := hbase
    have hchecks := hpost
    simp only [postInit, bind_ok, exists_check] at hchecks
    obtain ⟨hisHotkey, hisTarget, -, hleg, -⟩ := hchecks
    exact ⟨_, (readAudit_ok h).2 ⟨haudit, hauditMembers, hleg, hauditConstructible⟩, _,
      (readOrientation_ok h).2 horient, _, hmems, _,
      candidateManifest_ok.2 (EvaluationStackManifest.ofJson_ok.2
        ⟨hstored, hcandidateConstructible⟩), _,
      ofJson_ok.2 ⟨hincumbentStored, hincumbentConstructible⟩, hlane,
      _, harena, _, hresv, _, hdelta, _, hauth, _, hplan, _, hatt, _, hrep, _,
      hcomm, _, hsecret, _, hselection, _, harm, _, histack, _, hitree, _, hcstack, _,
      hctree, _, readSpeed_eq_str.2 hpol, _, rfl, _, rfl, _, ⟨hblk, Nat.zero_le _⟩, _,
      ⟨hindex, Nat.zero_le _⟩, _, ⟨hsubindex, Nat.zero_le _⟩, _, ⟨hhotkey, hisHotkey⟩, _,
      ⟨htgt, hisTarget⟩, _, hspeedup, _, rfl, hproposal, (), hpost, rfl⟩

theorem canonical_eq_members : v.canonical = (obj (q.membersWith canonicalDigest speed)).canonical ↔
      v.hasFields (shape speed q.auditPolicy.isSome q.residentLaneOrientation.isSome) ∧
        Agrees v (q.baseMembers canonicalDigest) ∧
        (if speed then Agrees v (speedMembers q.speedEvidencePolicyDigest) else True) ∧
        Agrees v (auditMembers q.auditPolicy q.auditControlDigest q.auditEvidenceDigest) ∧
        Agrees v (orientationMembers q.residentLaneOrientation) := by
  rw [canonical_eq_obj_iff (map_membersWith speed q) (shape_nodup ..)]
  unfold Agrees membersWith
  simp only [forall_mem_append, and_assoc]
  cases speed <;> simp

/-- A qualification whose speed policy is not written has no audit and no orientation. -/
theorem of_not_writesSpeedPolicy (hpols : H.legacySpeedPolicy ≠ H.residentSpeedPolicy)
    (hq : q.postInit H = .ok ()) (h : q.writesSpeedPolicy H = false) :
    q.speedEvidencePolicyDigest = H.legacySpeedPolicy ∧ q.auditPolicy = none ∧
      q.residentLaneOrientation = none := by
  simp only [writesSpeedPolicy, decide_eq_false_iff_not, not_or, not_not] at h
  simp only [postInit, bind_ok, exists_check] at hq
  obtain ⟨-, -, -, -, -, -, horient, -⟩ := hq
  refine ⟨h.1, h.2, isNone_iff_eq_none.1 ?_⟩
  rw [h.1] at horient
  simpa [hpols] using horient

/-- **From which texts a qualification is read**: those of its stored form, and those that write
the speed policy where the stored form leaves it out. -/
theorem ofJson_ok (hpols : H.legacySpeedPolicy ≠ H.residentSpeedPolicy) :
    ofJson H canonicalDigest v = .ok q ↔ q.Constructible H ∧
      ∃ speed : Bool, (q.writesSpeedPolicy H = true → speed = true) ∧
        v.canonical = (obj (q.membersWith canonicalDigest speed)).canonical := by
  constructor
  · intro h
    have hfields : ∃ fields ∈ shapes, v.hasFields fields := by
      simp only [ofJson, bind_ok, exists_check] at h
      exact h.1
    obtain ⟨fields, hmem, hfields⟩ := hfields
    obtain ⟨speed, audit, orientation, hshape, hgroups⟩ : ∃ speed audit orientation,
        fields = shape speed audit orientation ∧
          (speed = false → audit = false ∧ orientation = false) := by
      simp only [shapes, mem_cons, not_mem_nil, or_false] at hmem
      obtain rfl | rfl | rfl | rfl | rfl := hmem
      · exact ⟨_, _, _, rfl, fun _ => ⟨rfl, rfl⟩⟩
      all_goals exact ⟨_, _, _, rfl, by simp⟩
    subst hshape
    obtain ⟨hq, hbase, hspeed, ⟨haudit, hauditMembers⟩, horient, horientationMembers⟩ :=
      (ofJson_eq_ok_of_shape hmem hfields).1 h
    refine ⟨hq, speed, fun hwrites => ?_, canonical_eq_members.2
      ⟨haudit ▸ horient ▸ hfields, hbase, ?_, hauditMembers, horientationMembers⟩⟩
    · -- without the field the policy is the legacy one and there is no audit
      by_contra hnot
      have hfalse : speed = false := by simpa using hnot
      subst hfalse
      have hnone : q.auditPolicy = none := by
        rw [(hgroups rfl).1] at haudit
        simpa using haudit.symm
      have hleg : q.speedEvidencePolicyDigest = H.legacySpeedPolicy := by simpa using hspeed
      simp [writesSpeedPolicy, hnone, hleg] at hwrites
    · cases speed with
      | true => exact hspeed
      | false => trivial
  · rintro ⟨hq, speed, hwrites, hcanon⟩
    obtain ⟨hfields, hbase, hspeed, hauditMembers, horientationMembers⟩ :=
      canonical_eq_members.1 hcanon
    have hshape : shape speed q.auditPolicy.isSome q.residentLaneOrientation.isSome ∈ shapes ∧
        (speed = false → q.speedEvidencePolicyDigest = H.legacySpeedPolicy) := by
      cases speed with
      | true =>
        cases q.auditPolicy <;> cases q.residentLaneOrientation <;> simp [shapes]
      | false =>
        have hwrote : q.writesSpeedPolicy H = false := by
          by_contra hnot
          exact absurd (hwrites (by simpa using hnot)) (by decide)
        obtain ⟨hleg, haudit, horient⟩ := of_not_writesSpeedPolicy hpols hq.1 hwrote
        refine ⟨?_, fun _ => hleg⟩
        rw [haudit, horient]
        exact .head _
    refine (ofJson_eq_ok_of_shape hshape.1 hfields).2 ⟨hq, hbase, ?_, ⟨rfl, hauditMembers⟩, rfl,
      horientationMembers⟩
    cases speed with
    | true => exact hspeed
    | false => exact hshape.2 rfl

variable (H) in
/-- The text writes the legacy speed policy although it has no audit: the one spelling that the
reader accepts and the writer never makes. -/
def SpellsLegacySpeedPolicy (v : Json) : Prop :=
  v.get? "speed_evidence_policy_digest" = some (.str H.legacySpeedPolicy.hex) ∧
    v.get? "audit_policy" = none

instance : DecidablePred (SpellsLegacySpeedPolicy H) := fun _ =>
  instDecidableAnd

/-- A text that is read is written again exactly unless it spells the legacy speed policy. -/
theorem canonical_eq_toJson_iff (hpols : H.legacySpeedPolicy ≠ H.residentSpeedPolicy)
    (h : ofJson H canonicalDigest v = .ok q) :
    v.canonical = (q.toJson H canonicalDigest).canonical ↔ ¬ SpellsLegacySpeedPolicy H v := by
  obtain ⟨-, speed, hwrites, hcanon⟩ := (ofJson_ok hpols).1 h
  obtain ⟨hfields, -, hspeed, -⟩ := canonical_eq_members.1 hcanon
  have hwrote : q.writesSpeedPolicy H = false ↔
      q.speedEvidencePolicyDigest = H.legacySpeedPolicy ∧ q.auditPolicy.isSome = false := by
    simp [writesSpeedPolicy]
  have hspells : SpellsLegacySpeedPolicy H v ↔ speed = true ∧ q.writesSpeedPolicy H = false := by
    rw [SpellsLegacySpeedPolicy, get?_speed_of_shape hfields, get?_audit_of_shape hfields, hwrote]
    cases speed with
    | false => simp
    | true =>
      have hmember : v.member "speed_evidence_policy_digest" =
          .str q.speedEvidencePolicyDigest.hex := by simpa [speedMembers] using hspeed
      cases q.auditPolicy with
      | none => simpa [hmember] using hex_inj
      | some policy => simp
  rw [hspells, toJson]
  constructor
  · rintro heq ⟨rfl, hnot⟩
    rw [hnot] at heq
    have hsome := get?_speed_of_shape hfields
    have hnone := get?_speed_of_shape (canonical_eq_members.1 heq).1
    rw [hsome] at hnone
    cases hnone
  · intro hnot
    have hsame : speed = q.writesSpeedPolicy H := by
      cases hw : q.writesSpeedPolicy H with
      | true => exact hwrites hw
      | false => simpa [hw] using hnot
    rw [hcanon, hsame]

end QualificationFields

/-! ### Candidates -/

namespace SettlementCandidate

variable {H : SettlementHashes} (canonicalDigest : String → Json → Digest)

def toJson (c : SettlementCandidate H) : Json :=
  .obj (("primary", c.primary.toJson H canonicalDigest) ::
    c.fields.reproduction.toList.map fun r => ("reproduction", r.toJson H canonicalDigest))

/-- The digest, under the domain of the candidate's kind. -/
def storedDigest (c : SettlementCandidate H) : Digest :=
  let domain :=
    if c.fields.reproduction = none then "cacheon.settlement.candidate.v5"
    else if c.primary.residentLaneOrientation ≠ none then "cacheon.settlement.candidate.v4"
    else if c.primary.auditPolicy = none then "cacheon.settlement.candidate.v2"
    else "cacheon.settlement.candidate.v3"
  canonicalDigest domain (c.toJson canonicalDigest).canonical

/-- The fields of a stored candidate. -/
def fieldsWith (reproduction : Bool) : List String :=
  "primary" :: if reproduction then ["reproduction"] else []

/-- The checks of the constructors, on fields that have been read. -/
def ofFields (fields : CandidateFields) : Option (SettlementCandidate H) :=
  if h : fields.primary.postInit H = .ok () ∧ (∀ r ∈ fields.reproduction, r.postInit H = .ok ()) ∧
      fields.postInit = .ok () then
    some ⟨fields, h.1, h.2.1, h.2.2⟩
  else none

variable (H) in
/-- The second run of a stored pair. -/
def readReproduction (v : Json) : DecodeM (Option QualificationFields) :=
  match v.get? "reproduction" with
  | none => .ok none
  | some value => some <$> ofJson H canonicalDigest value

/-- Read a candidate. -/
def ofJson (v : Json) : DecodeM (SettlementCandidate H) := do
  check (v.hasFields (fieldsWith false) ∨ v.hasFields (fieldsWith true))
    (settlement "settlement candidate fields do not match")
  let primary ← QualificationFields.ofJson H canonicalDigest (v.member "primary")
  let reproduction ← readReproduction H canonicalDigest v
  let fields : CandidateFields := ⟨primary, reproduction⟩
  fields.postInit.mapError DecodeFault.ofSettlement
  -- the qualifications were checked when they were read
  get (settlement "settlement candidate requires an exact qualification") (ofFields fields)

/-- A candidate whose qualifications the constructors accept. -/
def Constructible (c : SettlementCandidate H) : Prop := ∀ q ∈ c.qualifications, q.Constructible H

variable {canonicalDigest} {v : Json} {c : SettlementCandidate H}

theorem ofFields_eq_some {fields : CandidateFields} :
    ofFields fields = some c ↔ fields = c.fields := by
  unfold ofFields
  split_ifs with h
  · refine ⟨fun heq => congrArg SettlementCandidate.fields (some.inj heq), ?_⟩
    rintro rfl
    rfl
  · refine ⟨fun heq => (nomatch heq), fun heq => absurd ?_ h⟩
    rw [heq]
    exact ⟨c.primaryChecked, c.reproductionChecked, c.checked⟩

theorem readReproduction_ok {repro : Bool} (h : v.hasFields (fieldsWith repro))
    {read : Option QualificationFields} :
    readReproduction H canonicalDigest v = .ok read ↔ repro = read.isSome ∧
      ∀ r ∈ read, QualificationFields.ofJson H canonicalDigest (v.member "reproduction") =
        .ok r := by
  unfold readReproduction
  cases repro with
  | false =>
    rw [get?_of_not_mem h (by decide)]
    cases read <;> simp
  | true =>
    rw [get?_of_mem_fields h (by decide), map_some_ok]
    cases read <;> simp

/-- A candidate is read from its qualifications. -/
theorem ofJson_ok : ofJson canonicalDigest v = .ok c ↔
    v.hasFields (fieldsWith c.fields.reproduction.isSome) ∧
      QualificationFields.ofJson H canonicalDigest (v.member "primary") = .ok c.primary ∧
      ∀ r ∈ c.fields.reproduction,
        QualificationFields.ofJson H canonicalDigest (v.member "reproduction") = .ok r := by
  simp only [ofJson, bind_ok, check_ok, mapError_ok, get_ok, ofFields_eq_some, exists_const]
  constructor
  · rintro ⟨hfields, q, hprim, repro, hrepro, -, -, hread⟩
    obtain ⟨given, hfields⟩ : ∃ given, v.hasFields (fieldsWith given) :=
      hfields.elim (fun h => ⟨_, h⟩) fun h => ⟨_, h⟩
    obtain ⟨rfl, hread'⟩ := (readReproduction_ok hfields).1 hrepro
    rw [primary, ← hread]
    exact ⟨hfields, hprim, hread'⟩
  · rintro ⟨hfields, hprim, hrepro⟩
    refine ⟨?_, c.primary, hprim, c.fields.reproduction,
      (readReproduction_ok hfields).2 ⟨rfl, hrepro⟩, (), c.checked, rfl⟩
    cases hisSome : c.fields.reproduction.isSome with
    | false => exact .inl (hisSome ▸ hfields)
    | true => exact .inr (hisSome ▸ hfields)

theorem canonical_eq_toJson : v.canonical = (c.toJson canonicalDigest).canonical ↔
    v.hasFields (fieldsWith c.fields.reproduction.isSome) ∧
      (v.member "primary").canonical = (c.primary.toJson H canonicalDigest).canonical ∧
      ∀ r ∈ c.fields.reproduction,
        (v.member "reproduction").canonical = (r.toJson H canonicalDigest).canonical := by
  have hkeys : (("primary", c.primary.toJson H canonicalDigest) ::
      c.fields.reproduction.toList.map fun r =>
        ("reproduction", r.toJson H canonicalDigest)).map (·.1) =
      fieldsWith c.fields.reproduction.isSome := by
    cases c.fields.reproduction <;> rfl
  have hnodup : ∀ repro : Bool, (fieldsWith repro).Nodup := by decide
  rw [toJson, canonical_eq_obj_iff hkeys (hnodup _)]
  simp only [forall_mem_cons, List.forall_mem_map, mem_toList, mem_def]

/-- The text of a candidate is read back. -/
theorem ofJson_of_canonical (hpols : H.legacySpeedPolicy ≠ H.residentSpeedPolicy)
    (hc : c.Constructible) (h : v.canonical = (c.toJson canonicalDigest).canonical) :
    ofJson canonicalDigest v = .ok c := by
  obtain ⟨hfields, hprim, hrepro⟩ := canonical_eq_toJson.1 h
  -- reading sees a text only up to the order of its members
  have hread : ∀ q ∈ c.qualifications, ∀ w : Json,
      w.canonical = (q.toJson H canonicalDigest).canonical →
        QualificationFields.ofJson H canonicalDigest w = .ok q := by
    intro q hq w hw
    exact (QualificationFields.ofJson_ok hpols).2 ⟨hc q hq, _, id, hw⟩
  refine ofJson_ok.2 ⟨hfields, hread _ (.head _) _ hprim, fun r hr => ?_⟩
  exact hread r (.tail _ (mem_toList.2 hr)) _ (hrepro r hr)

/-- A text that is read is written again exactly unless a qualification in it spells the legacy
speed policy. -/
theorem canonical_eq_toJson_iff (hpols : H.legacySpeedPolicy ≠ H.residentSpeedPolicy)
    (h : ofJson canonicalDigest v = .ok c) :
    v.canonical = (c.toJson canonicalDigest).canonical ↔
      ¬ QualificationFields.SpellsLegacySpeedPolicy H (v.member "primary") ∧
        ¬ QualificationFields.SpellsLegacySpeedPolicy H (v.member "reproduction") := by
  obtain ⟨hfields, hprim, hrepro⟩ := ofJson_ok.1 h
  rw [canonical_eq_toJson, ← QualificationFields.canonical_eq_toJson_iff hpols hprim,
    and_iff_right hfields]
  refine and_congr_right fun _ => ?_
  cases hr : c.fields.reproduction with
  | none =>
    -- without a second run there is no text that could spell anything
    rw [hr] at hfields
    have hnone : v.member "reproduction" = .null := by
      rw [member, get?_of_not_mem hfields (by decide)]
      rfl
    rw [hnone]
    refine iff_of_true (by simp) fun h => ?_
    cases h.1
  | some r =>
    rw [← QualificationFields.canonical_eq_toJson_iff hpols (hrepro r hr)]
    exact ⟨fun h => h r rfl, fun h => by rintro _ ⟨⟩; exact h⟩

end SettlementCandidate

end Cacheon
