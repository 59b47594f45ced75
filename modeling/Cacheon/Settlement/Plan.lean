import Cacheon.Lib.HashChain
import Cacheon.Settlement.Candidate

/-!
# Planning a settlement

`planSettlement` looks at one cohort of candidates over one incumbent.  It holds the
candidates that cannot beat their target's tip, crowns the fastest of the others, holds the
rest, and moves the stack to the winner's contribution.  The plan is a hash-chained list of
events that the store commits as it is.
-/

namespace Cacheon

open Fallible SettlementFault HashChain

/-- The change of the stack a plan makes. -/
structure StackTransitionOutput where
  candidateDigest : Digest
  before : StackArmIdentity
  after : StackArmIdentity
  manifest : EvaluationStackManifest
deriving DecidableEq

/-- What one settlement does. -/
structure SettlementPlan where
  before : StackArmIdentity
  after : StackArmIdentity
  winnerCandidateDigest : Option Digest
  events : List SettlementEvent
  transition : Option StackTransitionOutput
deriving DecidableEq

/-- The current lineage of each target that has one. -/
abbrev LineageTips := List (String × TargetLineage)

variable (H : SettlementHashes)

/-- How settlement events are chained. -/
def SettlementEvent.links : Links SettlementEvent Digest where
  sequence := SettlementEvent.sequence
  previous := SettlementEvent.previousEventDigest
  hash := H.event

/-- The event with this content at a place of the journal. -/
def EventBody.event (b : EventBody) (sequence : ℕ) (previous : Option Digest) : SettlementEvent :=
  { b with sequence := sequence, previousEventDigest := previous }

/-- The events with these contents, continuing a journal. -/
def journalEvents (sequence : ℕ) (previous : Option Digest) (bodies : List EventBody) :
    List SettlementEvent :=
  ((⟨sequence, previous, []⟩ : Appender SettlementEvent Digest).addAll
    (SettlementEvent.links H) (bodies.map EventBody.event)).entries

variable {H}

namespace SettlementCandidate

/-- The artifact the candidate was measured against. -/
def incumbentArtifact (c : SettlementCandidate H) : Option Digest :=
  (c.primary.incumbentManifest.entryOf c.primary.targetId).map (·.artifactDigest)

/-- Why a candidate cannot beat the tip of its target's lineage. -/
def lineageHoldReason (c : SettlementCandidate H) (lineage : TargetLineage) : Option String :=
  if c.incumbentArtifact = some lineage.tip.artifactDigest then none
  else match lineage.thresholdFrom c.incumbentArtifact with
    | .error _ => some "stale_incumbent"
    | .ok none => none
    | .ok (some threshold) =>
      if threshold.1 < c.speedup.val then none else some "lost_potential"

variable (before : StackArmIdentity)

variable (tips : LineageTips)

/-- Why a candidate is held before any selection. -/
def holdReason (c : SettlementCandidate H) : Option String :=
  match tips.lookup c.primary.targetId with
  | some lineage => c.lineageHoldReason lineage
  | none => if c.primary.incumbent ≠ before then some "stale_incumbent" else none

/-- The candidate takes part in the selection. -/
def Admitted (c : SettlementCandidate H) : Prop :=
  c.holdReason before tips = none ∧ c.primary.lane = .registered

instance : DecidablePred (Admitted (H := H) before tips) :=
  fun c => inferInstanceAs
    (Decidable (c.holdReason before tips = none ∧ c.primary.lane = .registered))

/-- The selection order: the faster candidate, then the earlier one. -/
def Ahead (c d : SettlementCandidate H) : Prop :=
  c.speedup.neg < d.speedup.neg ∨
    ¬ d.speedup.neg < c.speedup.neg ∧ c.finalizedOrder < d.finalizedOrder

instance : DecidableRel (Ahead (H := H)) := fun c d => inferInstanceAs
  (Decidable (c.speedup.neg < d.speedup.neg ∨
    ¬ d.speedup.neg < c.speedup.neg ∧ c.finalizedOrder < d.finalizedOrder))

/-- The event that holds a candidate. -/
def hold (reason : String) (c : SettlementCandidate H) : EventBody :=
  { eventType := .hold
    candidateDigest := c.digest
    subjectDigest := c.primary.selectedDeltaDigest
    targetId := c.primary.targetId
    source := before
    destination := before
    reason := reason }

/-- Why a candidate that took part in the selection is held. -/
def lossReason (winner c : SettlementCandidate H) : String :=
  if membersOverlap c.primary.members winner.primary.members then "conflict_lost"
  else "incumbent_advanced"

end SettlementCandidate

open SettlementCandidate

/-- The arm a plan starts from. -/
def planBefore (H : SettlementHashes) (current : EvaluationStackManifest) (tree : Digest) :
    StackArmIdentity := ⟨H.manifest current, tree⟩

variable (before : StackArmIdentity)

variable (tips : LineageTips)

/-- The admitted candidates of a cohort. -/
def admitted (cs : List (SettlementCandidate H)) : List (SettlementCandidate H) :=
  cs.filter fun c => c.Admitted before tips

/-- Build a transition. -/
def StackTransitionOutput.make (H : SettlementHashes) (t : StackTransitionOutput) :
    SettlementM StackTransitionOutput := do
  check (H.manifest t.manifest = t.after.stackDigest ∧ t.before ≠ t.after)
    (settlement "stack transition output is inconsistent")
  return t

/-- Build a plan. -/
def SettlementPlan.make (H : SettlementHashes) (p : SettlementPlan) :
    SettlementM SettlementPlan := do
  check (∀ pair ∈ p.events.zip p.events.tail, pair.2.sequence = pair.1.sequence + 1 ∧
      pair.2.previousEventDigest = some (H.event pair.1))
    (settlement "settlement event journal is not contiguous")
  check (p.transition = none → p.winnerCandidateDigest = none ∧ p.before = p.after)
    (settlement "non-transition settlement plan names a winner")
  check (∀ t ∈ p.transition, some t.candidateDigest = p.winnerCandidateDigest ∧
      t.before = p.before ∧ t.after = p.after)
    (settlement "settlement transition differs from its plan")
  return p

/-- The digest of a composed tree, by its manifest. -/
abbrev TreeResolver := EvaluationStackManifest → SettlementM Digest

/-- The stack a winner leads to.  A stack that was measured exactly as it is adopted keeps
the identities of that measurement. -/
def adoptStack (winner : SettlementCandidate H) (composed : EvaluationStackManifest)
    (treeDigestOf : Option TreeResolver) :
    SettlementM (EvaluationStackManifest × StackArmIdentity) := do
  check (H.manifest composed ≠ before.stackDigest)
    (settlement "composed stack does not change the incumbent stack identity")
  if H.manifest composed = winner.primary.challenger.stackDigest then
    .ok (winner.primary.candidateManifest, winner.primary.challenger)
  else match treeDigestOf with
    | none => .error (settlement "composed stack requires a tree digest resolver")
    | some resolve => do
      let tree ← resolve composed
      .ok (composed, ⟨H.manifest composed, tree⟩)

/-- The winner was measured over an ancestor of the tip, not over the tip. -/
def ancestorWin (winner : SettlementCandidate H) : Bool :=
  (tips.lookup winner.primary.targetId).any fun lineage =>
    winner.incumbentArtifact ≠ some lineage.tip.artifactDigest

/-- The events of a crown. -/
def crownBodies (before after : StackArmIdentity) (tips : LineageTips)
    (winner : SettlementCandidate H) (replacement : ContributionRef)
    (prior : Option ContributionRef) (adopted : EvaluationStackManifest) : List EventBody :=
  let body (eventType : SettlementEventType) (subject : Digest) (destination : StackArmIdentity)
      (reason : String) : EventBody :=
    { eventType, candidateDigest := winner.digest, subjectDigest := subject
      targetId := winner.primary.targetId, source := before, destination, reason }
  [body .crown (H.contribution replacement) before
    (if ancestorWin tips winner then "qualified_ancestor_win" else "qualified_win")] ++
  (prior.map fun p => body .retirement (H.contribution p) before "superseded").toList ++
  [body .adoption (H.contribution replacement) after "adopted",
    body .stackTransition (H.manifest adopted) after "incumbent_updated"]

/-- The candidates held before the selection, in finalized order. -/
def staleBodies (rows : List (SettlementCandidate H)) : List EventBody :=
  (Keyed.sortBy finalizedOrder (rows.filter (·.holdReason before tips ≠ none))).map fun c =>
    c.hold before ((c.holdReason before tips).getD "")

/-- The candidates that lost the selection, in finalized order. -/
def loserBodies (registered : List (SettlementCandidate H))
    (winner : SettlementCandidate H) : List EventBody :=
  (Keyed.sortBy finalizedOrder (registered.filter (· ≠ winner))).map fun c =>
    c.hold before (lossReason winner c)

/-- Select one winner over one incumbent and emit a hash-chained plan. -/
def planSettlement (candidates : List (SettlementCandidate H))
    (currentManifest : EvaluationStackManifest) (currentTreeDigest : Digest)
    (initialEventSequence : ℕ) (previousEventDigest : Option Digest) (tips : LineageTips)
    (treeDigestOf : Option TreeResolver) :
    SettlementM SettlementPlan := do
  check (tips.all fun tip => isIdentifier tip.1)
    (settlement "lineage tip target is not a canonical identifier")
  let before := planBefore H currentManifest currentTreeDigest
  check ((candidates.map digest).Nodup ∧ (candidates.map (·.primary.reservationDigest)).Nodup)
    (settlement "settlement candidates contain duplicates")
  let stale := staleBodies before tips candidates
  let registered := admitted before tips candidates
  match Keyed.minBy Ahead registered with
  | none =>
    SettlementPlan.make H ⟨before, before, none,
      journalEvents H initialEventSequence previousEventDigest stale, none⟩
  | some winner =>
    let replacement ← get (settlement "KeyError")
      (winner.primary.candidateManifest.entryOf winner.primary.targetId)
    let (adopted, after) ← adoptStack before winner
      (currentManifest.withContribution replacement) treeDigestOf
    let bodies := stale ++ loserBodies before registered winner ++
      crownBodies before after tips winner replacement
        (currentManifest.entryOf winner.primary.targetId) adopted
    let transition ← StackTransitionOutput.make H ⟨winner.digest, before, after, adopted⟩
    SettlementPlan.make H ⟨before, after, some winner.digest,
      journalEvents H initialEventSequence previousEventDigest bodies, some transition⟩

end Cacheon
