import Cacheon.Lib.Fallible
import Mathlib.Data.List.Basic
import Mathlib.Logic.Relation

/-!
# Depth-first closure of a fallible relation

`Closure.closure` collects what is reachable from a node in one or more steps and fails on a
cycle or on a node whose successors cannot be read.

* `Closure.walk_induction` : how to prove that a walk with bounded depth comes to its end.
* `Closure.closure_spec` : the closure fails exactly on cycles and holds what is reachable.
-/

namespace Closure

variable {α ε : Type} [DecidableEq α]

/-- Visit a node below the path `visiting`; `found` is what was collected so far.  The path
has no repetition, so a depth of one more than the number of nodes is never exhausted. -/
def visit (children : α → Except ε (List α)) (cycle : ε) :
    ℕ → List α → List α → α → Except ε (List α)
  | 0, _, _, _ => .error cycle
  | depth + 1, visiting, found, node =>
    if node ∈ visiting then .error cycle
    else if node ∈ found then .ok found
    else do
      let next ← children node
      next.foldlM (fun found child => do
        let found ← visit children cycle depth (node :: visiting) found child
        .ok (if child ∈ found then found else found ++ [child])) found

/-- Everything reachable from a node in one or more steps. -/
def closure (children : α → Except ε (List α)) (cycle : ε) (nodes : ℕ) (node : α) :
    Except ε (List α) :=
  visit children cycle (nodes + 1) [] [] node

open List Relation Fallible

/-- One step of a relation. -/
def Step (next : α → List α) (a b : α) : Prop := b ∈ next a

/-- A cycle is reachable from a node. -/
def Cyclic (R : α → α → Prop) (a : α) : Prop := ∃ x, ReflTransGen R a x ∧ TransGen R x x

/-- A visit makes another visit below it. -/
def Calls (next : α → List α) (inner outer : List α × α) : Prop :=
  outer.2 ∉ outer.1 ∧ inner.2 ∈ next outer.2 ∧ inner.1 = outer.2 :: outer.1

/-- Nodes with all their successors, none of them on a cycle. -/
def Explored (next : α → List α) (found : List α) : Prop :=
  ∀ a ∈ found, next a ⊆ found ∧ ¬ TransGen (Step next) a a

/-- How many nodes are off a path. -/
def unvisited (keys path : List α) : ℕ := (keys.filter (· ∉ path)).length

variable {R : α → α → Prop} {next : α → List α} {cycle : ε} {depth : ℕ}
  {keys path found found' : List α} {node a b : α}

omit [DecidableEq α] in
/-- The way to a cycle starts with a step. -/
theorem Cyclic.exists_step (h : Cyclic R a) : ∃ b, R a b ∧ Cyclic R b := by
  obtain ⟨x, hx, hcycle⟩ := h
  obtain ⟨b, hab, hb⟩ := TransGen.head'_iff.1 (hcycle.trans_right hx)
  exact ⟨b, hab, x, hb, hcycle⟩

theorem unvisited_lt (ha : a ∈ keys) (hnew : a ∉ path) :
    unvisited keys (a :: path) < unvisited keys path := by
  have hfilter : keys.filter (· ∉ a :: path) = (keys.filter (· ∉ path)).filter (· ≠ a) := by
    simp [filter_filter]
  rw [unvisited, unvisited, hfilter, length_filter_lt_length_iff_exists]
  exact ⟨a, by simp [ha, hnew]⟩

/-- Nested visits come to an end. -/
theorem wellFounded_calls (hkeys : ∀ a b, Step next a b → a ∈ keys) : WellFounded (Calls next) := by
  refine Subrelation.wf ?_ (measure fun call : List α × α => unvisited keys call.1).wf
  rintro ⟨_, child⟩ ⟨path, node⟩ ⟨hnew, hchild, rfl⟩
  exact unvisited_lt (hkeys node child hchild) hnew

/-- Where no cycle is reachable a walk may assume that its path does not repeat, and a depth of
one more than the number of nodes is enough. -/
theorem walk_induction {P : ℕ → List α → α → Prop} (hkeys : ∀ a b, R a b → a ∈ keys)
    (hstep : ∀ n path a, a ∉ path → (∀ b, R a b → P n (a :: path) b) → P (n + 1) path a)
    (ha : ¬ Cyclic R a) : P (keys.length + 1) [] a := by
  suffices h : ∀ n path a, ¬ Cyclic R a → (∀ b ∈ path, TransGen R b a) →
      unvisited keys path < n → P n path a from
    h _ _ _ ha (by simp) (Nat.lt_succ_of_le (length_filter_le _ _))
  intro n
  induction n with
  | zero => exact fun _ _ _ _ hn => absurd hn (Nat.not_lt_zero _)
  | succ n ih =>
    intro path a ha hpath hn
    have hnew : a ∉ path := fun h => ha ⟨a, .refl, hpath a h⟩
    refine hstep n path a hnew fun b hab => ih _ b ?_ ?_ ?_
    · exact fun ⟨x, hx, hcycle⟩ => ha ⟨x, hx.head hab, hcycle⟩
    · exact forall_mem_cons.2 ⟨.single hab, fun c hc => (hpath c hc).tail hab⟩
    · exact Nat.lt_of_lt_of_le (unvisited_lt (hkeys a b hab) hnew) (Nat.le_of_lt_succ hn)

omit [DecidableEq α] in
theorem Explored.mem (h : Explored next found) (ha : next a ⊆ found)
    (hab : TransGen (Step next) a b) : b ∈ found := by
  induction hab with
  | single hstep => exact ha hstep
  | tail _ hstep ih => exact (h _ ih).1 hstep

theorem mem_add : b ∈ (if a ∈ found then found else found ++ [a]) ↔ b ∈ found ∨ b = a := by
  split_ifs with h
  · exact (or_iff_left_of_imp fun hb => hb ▸ h).symm
  · simp

/-- A node whose successors are explored can be added. -/
theorem Explored.add (h : Explored next found) (ha : next a ⊆ found) :
    Explored next (if a ∈ found then found else found ++ [a]) := by
  intro b hb
  rcases mem_add.1 hb with hb | rfl
  · exact ⟨fun c hc => mem_add.2 (.inl ((h b hb).1 hc)), (h b hb).2⟩
  · exact ⟨fun c hc => mem_add.2 (.inl (ha hc)), fun hcycle => (h b (h.mem ha hcycle)).2 hcycle⟩

/-- A visit that returns has explored everything below its node, and nothing else. -/
theorem visit_spec (hfound : Explored next found)
    (h : visit (fun a => .ok (next a)) cycle depth path found node = .ok found') :
    Explored next found' ∧ found ⊆ found' ∧ next node ⊆ found' ∧
      ∀ a ∈ found', a ∈ found ∨ TransGen (Step next) node a := by
  induction depth generalizing path found found' node with
  | zero => cases h
  | succ depth ih =>
    simp only [visit] at h
    split_ifs at h with _ hknown
    · cases h
      exact ⟨hfound, Subset.refl _, (hfound node hknown).1, fun a ha => .inl ha⟩
    -- the children are visited one after another, each with what was found before it
    replace h : (next node).foldlM (m := Except ε) _ found = .ok found' := h
    obtain ⟨l, hl⟩ : ∃ l, l = next node := ⟨_, rfl⟩
    rw [← hl] at h ⊢
    replace hl := (Perm.of_eq hl).subset
    clear hknown
    induction l generalizing found with
    | nil =>
      cases h
      exact ⟨hfound, Subset.refl _, nil_subset _, fun a ha => .inl ha⟩
    | cons child l ihl =>
      simp only [foldlM_cons, bind_ok] at h
      obtain ⟨_, ⟨found₁, hvisit, hadd⟩, hrest⟩ := h
      cases hadd
      obtain ⟨hchild, hl⟩ := cons_subset.1 hl
      obtain ⟨hfound₁, hsub, hbelow, hnew⟩ := ih hfound hvisit
      obtain ⟨hfound', hsub', hl', hnew'⟩ := ihl (hfound₁.add hbelow) hrest hl
      refine ⟨hfound', fun a ha => hsub' (mem_add.2 (.inl (hsub ha))),
        cons_subset.2 ⟨hsub' (mem_add.2 (.inr rfl)), hl'⟩, fun a ha => ?_⟩
      rcases hnew' a ha with ha | ha
      · rcases mem_add.1 ha with ha | rfl
        · exact (hnew a ha).imp_right (.head hchild)
        · exact .inr (.single hchild)
      · exact .inr ha

theorem exists_visit (hnew : node ∉ path) (h : ∀ child ∈ next node, ∀ found, ∃ found',
      visit (fun a => .ok (next a)) cycle depth (node :: path) found child = .ok found') :
    ∃ found', visit (fun a => .ok (next a)) cycle (depth + 1) path found node = .ok found' := by
  simp only [visit, if_neg hnew]
  split_ifs with hknown
  · exact ⟨found, rfl⟩
  change ∃ found', (next node).foldlM (m := Except ε) _ found = .ok found'
  clear hknown
  generalize next node = l at h
  induction l generalizing found with
  | nil => exact ⟨found, rfl⟩
  | cons child l ih =>
    obtain ⟨⟨found₁, h₁⟩, hl⟩ := (forall_mem_cons.1 h).imp_left (· found)
    obtain ⟨found', h'⟩ := ih hl
    exact ⟨found', by simp only [foldlM_cons, h₁]; exact h'⟩

/-- **A closure fails if and only if it meets a cycle, and is else what is reachable.** -/
theorem closure_spec (cycle : ε) (node : α) (hkeys : ∀ a b, Step next a b → a ∈ keys) :
    Cyclic (Step next) node ∧
        (∃ err, closure (fun a => .ok (next a)) cycle keys.length node = .error err) ∨
      ¬ Cyclic (Step next) node ∧ ∃ found,
        closure (fun a => .ok (next a)) cycle keys.length node = .ok found ∧
          ∀ a, a ∈ found ↔ TransGen (Step next) node a := by
  have hempty : Explored next [] := by simp [Explored]
  cases h : closure (fun a => .ok (next a)) cycle keys.length node with
  | error err =>
    refine .inl ⟨?_, err, rfl⟩
    by_contra hacyclic
    obtain ⟨found, hok⟩ := walk_induction (P := fun n path a => ∀ found, ∃ found',
      visit (fun a => .ok (next a)) cycle n path found a = .ok found') hkeys
      (fun n path a hnew hbelow found => exists_visit hnew hbelow) hacyclic []
    cases h.symm.trans hok
  | ok found =>
    obtain ⟨hfound, -, hsub, hnew⟩ := visit_spec hempty h
    refine .inr ⟨fun ⟨x, hx, hcycle⟩ => ?_, found, rfl, fun a => ⟨fun ha => ?_, hfound.mem hsub⟩⟩
    · exact (hfound x (hfound.mem hsub (hcycle.trans_right hx))).2 hcycle
    · exact (hnew a ha).resolve_left not_mem_nil

end Closure
