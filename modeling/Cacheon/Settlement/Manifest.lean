import Cacheon.Identity
import Cacheon.Lib.Json

/-!
# Evaluation stacks

The incumbent a candidate is measured against: a base engine with one contribution for each
active target.
-/

namespace Cacheon

/-- One miner's contribution to a target. -/
structure ContributionRef where
  targetId : String
  targetSpecDigest : Digest
  artifactDigest : Digest
  selectedPayloadDigest : Digest
  attributionDigest : Digest
deriving DecidableEq

/-- A complete evaluation incumbent.  The entries are kept in the order of their targets, one
for each target. -/
structure EvaluationStackManifest where
  runtimeDigest : Digest
  baseEngineDigest : Digest
  arenaDigest : Digest
  catalogSnapshot : Json
  entries : List ContributionRef
  sorted : Keyed.Sorted ContributionRef.targetId entries
deriving DecidableEq

namespace EvaluationStackManifest

/-- The contribution to a target. -/
def entryOf (m : EvaluationStackManifest) (target : String) : Option ContributionRef :=
  Keyed.find? ContributionRef.targetId target m.entries

/-- Replace the contribution to one target. -/
def withContribution (m : EvaluationStackManifest) (contribution : ContributionRef) :
    EvaluationStackManifest :=
  { m with
    entries := Keyed.put ContributionRef.targetId contribution m.entries
    sorted := m.sorted.put }

variable {m : EvaluationStackManifest} {c : ContributionRef} {target : String}

@[simp] theorem entryOf_withContribution_self :
    (m.withContribution c).entryOf c.targetId = some c :=
  Keyed.find?_put_self

end EvaluationStackManifest

/-- The content identity of one materialised engine arm. -/
structure StackArmIdentity where
  stackDigest : Digest
  treeDigest : Digest
deriving DecidableEq

end Cacheon
