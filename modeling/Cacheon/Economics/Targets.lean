import Cacheon.Economics.Claims
import Cacheon.Lib.Closure

/-!
# Active reward targets

The relations between the targets of a sealed catalog, checked on the targets that are active
in a stack.  A catalog is JSON data; it is read field by field as the retained policy wrote it.
-/

namespace Cacheon

open Fallible EconomicsFault Json

/-- The targets of a catalog under their identifiers. -/
abbrev CatalogRows := List (String × Json)

/-- A target identifier: letters, digits, dots, underscores and dashes. -/
def isTargetId (s : String) : Bool :=
  s ≠ "" && s.toList.all fun c => c.isAlphanum || c = '.' || c = '_' || c = '-'

/-- Read one target of a catalog. -/
def catalogTarget (index : ℕ) (row : Json) : EconomicsM (String × Json) := do
  let label := "catalog target " ++ toString index
  check (row.members.isSome) (manifest (label ++ " must be an object"))
  let target ← get (manifest (label ++ " ID must be a canonical target ID"))
    ((row.get? "target_id").bind text)
  check (isTargetId target) (manifest (label ++ " ID must be a canonical target ID"))
  return (target, row)

/-- Read the targets of a catalog. -/
def catalogRows (snapshot : Json) : EconomicsM CatalogRows := do
  let shape := manifest "catalog_snapshot targets must be a non-empty list"
  let targets ← get shape ((snapshot.get? "targets").bind items)
  check (targets ≠ []) shape
  let rows ← targets.zipIdx.mapM fun row => catalogTarget row.2 row.1
  check ((rows.map (·.1)).Nodup) (manifest "catalog_snapshot contains duplicate target IDs")
  return rows

/-- The specification digests of the catalog a stack was sealed under. -/
def sealedTargetSpecDigests (E : EconomicsHashes) (rows : CatalogRows) : List (String × Digest) :=
  Keyed.sortBy (·.1) (rows.map fun row => (row.1, E.targetSpec row.2))

/-- A relation between active targets does not hold. -/
def incomplete (reason : String) : EconomicsFault :=
  economics ("active reward families overlap or are incomplete: " ++ reason)

variable (rows : CatalogRows)

/-- Read a field that lists distinct targets of the catalog. -/
def ids (field : String) (row : Json) : EconomicsM (List String) := do
  let values ← get (incomplete field) ((row.get? field).bind items)
  let texts ← get (incomplete field) (values.mapM text)
  check (texts.Nodup ∧ ∀ t ∈ texts, t ∈ rows.map (·.1)) (incomplete field)
  return texts

/-- Read such a field of a target of the catalog. -/
def targetIds (field target : String) : EconomicsM (List String) := do
  let row ← get (lookup target) (rows.lookup target)
  ids rows field row

/-- The targets a relation leads to from one target. -/
def targetClosure (children : String → EconomicsM (List String))
    (target : String) : EconomicsM (List String) :=
  Closure.closure children (incomplete "relationship cycle") rows.length target

/-- The schema of a catalog. -/
inductive CatalogSchema where
  | v1
  | v2
deriving DecidableEq

/-- Read the schema of a catalog. -/
def catalogSchema (snapshot : Json) : EconomicsM CatalogSchema :=
  match snapshot.get? "schema_version" with
  | some (.num 1) => .ok .v1
  | some (.num 2) => .ok .v2
  | _ => .error (incomplete "unsupported catalog schema")

/-- The policy version a schema goes with. -/
def CatalogSchema.policyVersion : CatalogSchema → String
  | .v1 => "target-catalog.v1"
  | .v2 => "target-catalog.v2"

/-- The second schema lists conflicts; the first has none. -/
def checkConflicts (schema : CatalogSchema) (rows : CatalogRows) (active : List String)
    (target : String) : EconomicsM Unit :=
  match schema with
  | .v1 => .ok ()
  | .v2 => do
    let conflicts ← targetIds rows "conflicts_with" target
    check (∀ t ∈ conflicts, t ∉ active) (incomplete "conflicts_with")

/-- Check one active target and add its members to those that are owned. -/
def checkTarget (schema : CatalogSchema) (rows : CatalogRows) (active owned : List String)
    (target : String) : EconomicsM (List String) := do
  let displaced ← targetClosure rows (targetIds rows "displaces") target
  check (∀ t ∈ displaced, t ∉ active) (incomplete "displaces")
  let required ← targetClosure rows (targetIds rows "requires") target
  check (∀ t ∈ required, t ∈ active) (incomplete "requires")
  checkConflicts schema rows active target
  let members ← targetIds rows "members" target
  check (members ≠ [] ∧ ∀ m ∈ members, m ∉ owned) (incomplete "shared or empty member ownership")
  return owned ++ members

/-- The composition rules between active targets read so far. -/
structure Composition where
  pairs : List (String × String)
  ruleIds : List String
  /-- Which target takes precedence over which. -/
  edges : List (String × String)
deriving DecidableEq

/-- A lowercase 64-digit hexadecimal text. -/
def isHexDigest (s : String) : Bool :=
  s.length = 64 && s.toList.all Digest.isHexDigit

/-- A target with a contract composes within its binding family. -/
def checkBindingFamily (rule : Json) (target : String) : EconomicsM Unit := do
  let row ← get (lookup target) (rows.lookup target)
  match row.get? "contract_ref" with
  | none | some .null => .ok ()
  | some contract =>
    check (contract.members.isSome) (lookup "get")
    check (contract.member "binding_family_id" = rule.member "binding_family_id")
      (incomplete "composition binding family")

/-- Check a rule between two active targets. -/
def checkActiveRule (state : Composition) (rule : Json)
    (targets : List String) : EconomicsM Composition := do
  match targets with
  | [left, right] =>
    check (left < right) (incomplete "composition pair")
    let ruleId ← get (incomplete "composition rule ID") ((rule.get? "rule_id").bind text)
    check (ruleId ≠ "") (incomplete "composition rule ID")
    check ((left, right) ∉ state.pairs ∧ ruleId ∉ state.ruleIds)
      (incomplete "duplicate composition")
    let order ← ids rows "precedence" rule
    check (order = [left, right] ∨ order = [right, left]) (incomplete "composition precedence")
    check (rule.get? "schema_version" = some (.num 1)) (incomplete "composition schema")
    check (rule.get? "mode" = some (.str "first_applicable")) (incomplete "composition mode")
    let digest ← get (incomplete "composition binding digest")
      ((rule.get? "binding_contract_digest").bind text)
    check (isHexDigest digest) (incomplete "composition binding digest")
    checkBindingFamily rows rule left
    checkBindingFamily rows rule right
    return {
      pairs := (left, right) :: state.pairs
      ruleIds := ruleId :: state.ruleIds
      edges := state.edges ++ order.head?.toList.zip order.tail }
  | _ => .error (incomplete "composition pair")

/-- Check one composition rule; a rule that names an inactive target is passed over. -/
def checkRule (active : List String) (state : Composition) (rule : Json) :
    EconomicsM Composition := do
  check (rule.members.isSome) (incomplete "composition rule")
  let targets ← ids rows "target_ids" rule
  if ∀ t ∈ targets, t ∈ active then checkActiveRule rows state rule targets else .ok state

/-- Two active targets compose exactly when both say so and a rule covers them. -/
def checkCoverage (state : Composition) (left right : String) : EconomicsM Unit := do
  let ofLeft ← targetIds rows "compatible_with" left
  let ofRight ← targetIds rows "compatible_with" right
  check ((right ∈ ofLeft ↔ left ∈ ofRight) ∧ (left ∈ ofRight ↔ (left, right) ∈ state.pairs))
    (incomplete "composition coverage")

/-- The first schema states composition by rules between pairs of targets. -/
def checkComposition (snapshot : Json) (rows : CatalogRows) (active : List String) :
    EconomicsM Unit := do
  let rules ← get (incomplete "composition rules") ((snapshot.get? "composition_rules").bind items)
  let state ← rules.foldlM (checkRule rows active) ⟨[], [], []⟩
  active.forM fun left => active.forM fun right =>
    if left < right then checkCoverage rows state left right else .ok ()
  active.forM fun target => do
    let _ ← targetClosure rows (fun t => .ok ((state.edges.filter (·.1 = t)).map (·.2))) target
    return ()

/-- The active targets of a stack, in order, once the relations between them hold. -/
def activeRewardTargets (stack : EvaluationStackManifest) (rows : CatalogRows) :
    EconomicsM (List String) := do
  let snapshot := stack.catalogSnapshot
  let schema ← catalogSchema snapshot
  check (snapshot.get? "policy_version" = some (.str schema.policyVersion))
    (incomplete "catalog policy")
  let active := stack.entries.map (·.targetId)
  check (∀ t ∈ active, t ∈ rows.map (·.1)) (incomplete "unregistered active target")
  let _ ← active.foldlM (checkTarget schema rows active) []
  match schema with
  | .v1 => checkComposition snapshot rows active
  | .v2 => .ok ()
  return active

end Cacheon
