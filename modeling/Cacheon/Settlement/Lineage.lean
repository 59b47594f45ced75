import Cacheon.Identity
import Cacheon.Lib.Decimal
import Cacheon.Lib.Fallible
import Mathlib.Algebra.Order.BigOperators.GroupWithZero.List
import Mathlib.Data.List.TakeWhile

/-!
# Target lineages

The winners of one target, from the first to the current one.  Each winner records the
artifact it was measured against and its measured speedup; a candidate measured against an
ancestor must beat the product of the speedups from that ancestor to the tip.
-/

namespace Cacheon

open Fallible

/-- What the settlement code raises. -/
inductive SettlementFault where
  /-- `SettlementError`. -/
  | settlement (text : String)
  /-- An error of the composed-tree resolver. -/
  | composition (text : String)
deriving DecidableEq

open SettlementFault

abbrev SettlementM := Except SettlementFault

/-- The default context of decimal arithmetic. -/
def decimalContext : Decimal.Context := ⟨28, .halfEven⟩

/-- The canonical spelling of a measured speedup: greater than one, without trailing zeros,
and short enough to be exact in decimal arithmetic. -/
def IsSpeedup (d : Decimal) : Prop :=
  Decimal.one < d ∧ d.coeff % 10 ≠ 0 ∧ d.coeff.natAbs < 10 ^ decimalContext.prec

instance : DecidablePred IsSpeedup := fun d => inferInstanceAs
  (Decidable (Decimal.one < d ∧ d.coeff % 10 ≠ 0 ∧ d.coeff.natAbs < 10 ^ decimalContext.prec))

/-- A measured speedup. -/
def Speedup : Type := {d : Decimal // IsSpeedup d}
deriving DecidableEq

namespace Speedup

/-- The exact value. -/
def toRat (s : Speedup) : ℚ := s.val.toRat

/-- The first component of the settlement key: faster candidates come first. -/
def neg (s : Speedup) : Decimal := s.val.neg decimalContext

theorem toRat_neg (s : Speedup) : s.neg.toRat = -s.toRat := by
  rw [neg, Decimal.neg, Decimal.round_of_short (by simpa using s.property.2.2)]
  simp [toRat, Decimal.toRat]

theorem one_lt_toRat (s : Speedup) : 1 < s.toRat := by
  rw [← Decimal.toRat_one]
  exact Decimal.lt_iff.1 s.property.1

theorem coeff_pos (s : Speedup) : 0 < s.val.coeff := by
  have hpos : 0 < s.toRat := one_pos.trans s.one_lt_toRat
  rw [toRat, Decimal.toRat, mul_pos_iff_of_pos_right (zpow_pos (by norm_num) _)] at hpos
  exact_mod_cast hpos

theorem neg_lt_iff {s t : Speedup} : s.neg < t.neg ↔ t.toRat < s.toRat := by
  rw [Decimal.lt_iff, toRat_neg, toRat_neg, neg_lt_neg_iff]

end Speedup

/-- One crowned edge, from a parent artifact to its winner. -/
structure TargetLineageNode where
  artifactDigest : Digest
  parentArtifactDigest : Option Digest
  winnerSpeedup : Speedup
  transitionEventId : Digest
deriving DecidableEq

/-- Every node's parent is the node before it. -/
def Contiguous : List TargetLineageNode → Prop
  | [] => True
  | [_] => True
  | a :: b :: l => b.parentArtifactDigest = some a.artifactDigest ∧ Contiguous (b :: l)

instance decidableContiguous : DecidablePred Contiguous
  | [] => isTrue trivial
  | [_] => isTrue trivial
  | a :: b :: l => match decEq b.parentArtifactDigest (some a.artifactDigest) with
    | isTrue h => match decidableContiguous (b :: l) with
      | isTrue hl => isTrue ⟨h, hl⟩
      | isFalse hl => isFalse fun hc => hl hc.2
    | isFalse h => isFalse fun hc => h hc.1

/-- The active path of one target, from its root to its tip. -/
structure TargetLineage where
  nodes : List TargetLineageNode
  nonempty : nodes ≠ []
  distinct : (nodes.map (·.artifactDigest)).Nodup
  contiguous : Contiguous nodes
deriving DecidableEq

namespace TargetLineage

/-- Build a lineage, or say what is wrong with its nodes. -/
def ofNodes (nodes : List TargetLineageNode) : SettlementM TargetLineage :=
  if h : nodes ≠ [] ∧ (nodes.map (·.artifactDigest)).Nodup then
    if hc : Contiguous nodes then .ok ⟨nodes, h.1, h.2, hc⟩
    else .error (settlement "target lineage is not contiguous")
  else .error (settlement "target lineage nodes are malformed")

variable (l : TargetLineage)

/-- The current winner. -/
def tip : TargetLineageNode := l.nodes.getLast l.nonempty

variable (artifact : Option Digest)

/-- The part of the path that starts over this artifact. -/
def pathFrom : List TargetLineageNode :=
  l.nodes.dropWhile (·.parentArtifactDigest ≠ artifact)

/-- Multiply the speedups of a path as decimal arithmetic does. -/
def composedSpeedup (path : List TargetLineageNode) : Decimal :=
  path.foldl (fun threshold node => threshold.mul decimalContext node.winnerSpeedup.val) Decimal.one

/-- The composed speedup from an ancestor to the tip, with the first transition over the
ancestor; nothing to beat for the tip itself. -/
def thresholdFrom : SettlementM (Option (Decimal × Digest)) :=
  if artifact = some l.tip.artifactDigest then .ok none
  else match l.pathFrom artifact with
    | [] => .error (settlement "candidate baseline is not in the active lineage")
    | first :: rest => .ok (some (composedSpeedup (first :: rest), first.transitionEventId))

/-- The artifact is the tip, or a winner was measured against it. -/
def OnPath : Prop :=
  artifact = some l.tip.artifactDigest ∨ ∃ node ∈ l.nodes, node.parentArtifactDigest = artifact

/-- The winners over an ancestor, up to the tip. -/
def edgesFrom : List TargetLineageNode :=
  if artifact = some l.tip.artifactDigest then [] else l.pathFrom artifact

/-- The exact product of the speedups of a path. -/
def speedupProduct (path : List TargetLineageNode) : ℚ := (path.map (·.winnerSpeedup.toRat)).prod

variable {l}

theorem pathFrom_eq_nil {artifact : Option Digest} :
    l.pathFrom artifact = [] ↔ ¬ ∃ node ∈ l.nodes, node.parentArtifactDigest = artifact := by
  simp [pathFrom, List.dropWhile_eq_nil_iff]

/-- Products are exact as long as the coefficients multiply to one that fits. -/
theorem toRat_foldl_mul {path : List TargetLineageNode} {d : Decimal} (hd : 0 < d.coeff)
    (hfits : d.coeff * (path.map (·.winnerSpeedup.val.coeff)).prod < 10 ^ decimalContext.prec) :
    (path.foldl (fun t node => t.mul decimalContext node.winnerSpeedup.val) d).toRat =
      d.toRat * speedupProduct path := by
  induction path generalizing d with
  | nil => simp [speedupProduct]
  | cons node path ih =>
    simp only [List.map_cons, List.prod_cons, ← mul_assoc] at hfits
    have hproduct := mul_pos hd node.winnerSpeedup.coeff_pos
    have hrest : 0 < (path.map (·.winnerSpeedup.val.coeff)).prod := by
      refine List.prod_pos fun _ hmem => ?_
      obtain ⟨later, -, rfl⟩ := List.mem_map.1 hmem
      exact later.winnerSpeedup.coeff_pos
    have hle := (le_mul_of_one_le_right hproduct.le hrest).trans_lt hfits
    have hshort : (d.coeff * node.winnerSpeedup.val.coeff).natAbs < 10 ^ decimalContext.prec := by
      zify
      rwa [abs_of_pos hproduct]
    rw [List.foldl_cons, Decimal.mul, Decimal.round_of_short hshort, ih hproduct hfits,
      Decimal.toRat_product]
    simp [speedupProduct, Speedup.toRat, mul_assoc]

end TargetLineage

end Cacheon
