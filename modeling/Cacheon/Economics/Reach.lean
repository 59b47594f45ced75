import Cacheon.Economics.Targets
import Cacheon.Intake.Rewards

/-!
# Reachability in the reward relations

Two walks follow a relation that the operator wrote: the closure over the targets of a catalog
and the continuations of a reward group.

* `relations_followed` : each fails on a cycle and otherwise comes to what is reachable.
-/

namespace Cacheon

open Closure Relation List

/-- A relation between the targets of a catalog. -/
structure TargetRelation (rows : CatalogRows) where
  next : String → List String
  mem_rows : ∀ t u, Step next t u → t ∈ rows.map (·.1)

variable {cs : List (RewardGroup × RewardGroup)} {fuel : ℕ} {key e : RewardGroup}

/-- A group continues another one. -/
def Continues (cs : List (RewardGroup × RewardGroup)) (key earlier : RewardGroup) : Prop :=
  cs.lookup key = some earlier

/-- The walk returns the end of a chain without a cycle. -/
theorem continuedGroup_spec (h : continuedGroup cs fuel key = .ok e) :
    ReflTransGen (Continues cs) key e ∧ cs.lookup e = none ∧ ¬ Cyclic (Continues cs) key := by
  induction fuel generalizing key with
  | zero => cases h
  | succ fuel ih =>
    cases hlook : cs.lookup key with
    | none =>
      obtain rfl : key = e := by simpa [continuedGroup, hlook] using h
      refine ⟨.refl, hlook, fun hcyclic => ?_⟩
      obtain ⟨b, hb, -⟩ := hcyclic.exists_step
      cases hlook.symm.trans hb
    | some early =>
      simp only [continuedGroup, hlook] at h
      obtain ⟨hchain, hlast, hacyclic⟩ := ih h
      refine ⟨.head hlook hchain, hlast, fun hcyclic => ?_⟩
      obtain ⟨b, hb, hcyclic⟩ := hcyclic.exists_step
      cases hlook.symm.trans hb
      exact hacyclic hcyclic

theorem exists_continuedGroup (h : ¬ Cyclic (Continues cs) key) :
    ∃ e, continuedGroup cs (cs.length + 1) key = .ok e := by
  have hkeys : ∀ a b, Continues cs a b → a ∈ cs.map (·.1) := fun a b hab =>
    mem_map_of_mem (Assoc.mem_of_lookup hab)
  rw [← length_map (fun c : RewardGroup × RewardGroup => c.1)]
  refine walk_induction (P := fun n _ a => ∃ e, continuedGroup cs n a = .ok e) hkeys ?_ h
  intro n _ a _ hnext
  cases hlook : cs.lookup a with
  | none => exact ⟨a, by simp [continuedGroup, hlook]⟩
  | some early => simpa only [continuedGroup, hlook] using hnext early hlook

/-- **Both walks fail if and only if they meet a cycle.**  The closure otherwise holds exactly
what is reachable in one or more steps, after nested visits that come to an end; a chain of
continuations is followed to its end, from where nothing is left to follow. -/
theorem relations_followed (rows : CatalogRows) (R : TargetRelation rows) (target : String)
    (cs : List (RewardGroup × RewardGroup)) (key : RewardGroup) :
    WellFounded (Calls R.next) ∧
    (Cyclic (Step R.next) target ∧
        (∃ err, targetClosure rows (fun t => .ok (R.next t)) target = .error err) ∨
      ¬ Cyclic (Step R.next) target ∧ ∃ found,
        targetClosure rows (fun t => .ok (R.next t)) target = .ok found ∧
          ∀ t, t ∈ found ↔ TransGen (Step R.next) target t) ∧
    (Cyclic (Continues cs) key ∧ (∃ err, continuedGroup cs (cs.length + 1) key = .error err) ∨
      ¬ Cyclic (Continues cs) key ∧ ∃ e, continuedGroup cs (cs.length + 1) key = .ok e ∧
        ReflTransGen (Continues cs) key e ∧ cs.lookup e = none ∧
          continuedGroup cs (cs.length + 1) e = .ok e) := by
  refine ⟨wellFounded_calls R.mem_rows, ?_, ?_⟩
  · have hclosure := closure_spec (incomplete "relationship cycle") target R.mem_rows
    rwa [length_map] at hclosure
  cases h : continuedGroup cs (cs.length + 1) key with
  | error err =>
    refine .inl ⟨?_, err, rfl⟩
    by_contra hacyclic
    obtain ⟨e, hok⟩ := exists_continuedGroup hacyclic
    cases h.symm.trans hok
  | ok e =>
    obtain ⟨hchain, hlast, hacyclic⟩ := continuedGroup_spec h
    exact .inr ⟨hacyclic, e, rfl, hchain, hlast, by simp [continuedGroup, hlast]⟩

end Cacheon
