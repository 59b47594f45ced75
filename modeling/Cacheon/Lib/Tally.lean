import Mathlib.Algebra.BigOperators.Group.List.Basic
import Mathlib.Data.List.Dedup

/-!
# Tallies

Adding up keyed amounts key by key, as a loop over a dictionary of running sums does.
-/

namespace Tally

open List

variable {κ M : Type} [DecidableEq κ] [AddCommMonoid M]

/-- What the rows of one key add up to. -/
def share (l : List (κ × M)) (k : κ) : M := ((l.filter (·.1 = k)).map (·.2)).sum

/-- One row for each key. -/
def tally (l : List (κ × M)) : List (κ × M) := (l.map (·.1)).dedup.map fun k => (k, share l k)

variable {l l₁ l₂ : List (κ × M)} {k : κ} {x : κ × M} {keys : List κ}

@[simp] theorem share_nil : share ([] : List (κ × M)) k = 0 := rfl

theorem share_cons (x : κ × M) : share (x :: l) k = (if x.1 = k then x.2 else 0) + share l k := by
  by_cases h : x.1 = k <;> simp [share, h]

@[simp] theorem share_append : share (l₁ ++ l₂) k = share l₁ k + share l₂ k := by
  simp [share]

theorem share_eq_of_perm (h : l₁.Perm l₂) : share l₁ k = share l₂ k := ((h.filter _).map _).sum_eq

theorem share_eq_zero (h : k ∉ l.map (·.1)) : share l k = 0 := by
  have hnil : l.filter (·.1 = k) = [] := by
    refine filter_eq_nil_iff.2 fun x hx => ?_
    simp only [decide_eq_true_eq]
    rintro rfl
    exact h (mem_map_of_mem hx)
  rw [share, hnil]
  rfl

@[simp] theorem keys_tally : (tally l).map (·.1) = (l.map (·.1)).dedup := by
  simp [tally, Function.comp_def]

theorem nodup_tally : ((tally l).map (·.1)).Nodup := by
  rw [keys_tally]
  exact nodup_dedup _

theorem mem_tally : x ∈ tally l ↔ x.1 ∈ l.map (·.1) ∧ x.2 = share l x.1 := by
  unfold tally
  rw [mem_map]
  constructor
  · rintro ⟨k, hk, rfl⟩
    exact ⟨mem_dedup.1 hk, rfl⟩
  · rintro ⟨hk, hx⟩
    exact ⟨x.1, mem_dedup.2 hk, Prod.ext rfl hx.symm⟩

/-- In a list of distinct keys the share of a key is the amount beside it. -/
theorem share_of_mem (hnodup : (l.map (·.1)).Nodup) (hx : x ∈ l) : share l x.1 = x.2 := by
  induction l with
  | nil => cases hx
  | cons y l ih =>
    rw [map_cons, nodup_cons] at hnodup
    rw [share_cons]
    rcases mem_cons.1 hx with rfl | hx
    · rw [if_pos rfl, share_eq_zero hnodup.1, add_zero]
    · have hne : y.1 ≠ x.1 := fun h => hnodup.1 (h ▸ mem_map_of_mem hx)
      rw [if_neg hne, zero_add, ih hnodup.2 hx]

@[simp] theorem share_tally : share (tally l) k = share l k := by
  by_cases hk : k ∈ l.map (·.1)
  · exact share_of_mem nodup_tally (mem_tally.2 ⟨hk, rfl⟩ : (k, share l k) ∈ tally l)
  · rw [share_eq_zero hk, share_eq_zero]
    rwa [keys_tally, mem_dedup]

theorem sum_ite_eq_of_nodup (hnodup : keys.Nodup) (hk : k ∈ keys) (m : M) :
    (keys.map fun k' => if k = k' then m else 0).sum = m := by
  induction keys with
  | nil => cases hk
  | cons k' keys ih =>
    rw [nodup_cons] at hnodup
    rw [map_cons, sum_cons]
    by_cases h : k = k'
    · subst h
      have hrest : ∀ k' ∈ keys, (if k = k' then m else 0) = 0 :=
        fun k' hk' => if_neg fun (h : k = k') => hnodup.1 (h ▸ hk')
      rw [map_congr_left hrest]
      simp
    · rw [if_neg h, zero_add]
      exact ih hnodup.2 ((mem_cons.1 hk).resolve_left h)

/-- The amounts of a list of distinct keys that has every key of the rows. -/
theorem sum_share (hnodup : keys.Nodup) (hkeys : ∀ x ∈ l, x.1 ∈ keys) :
    (keys.map fun k => share l k).sum = (l.map (·.2)).sum := by
  induction l with
  | nil => simp
  | cons x l ih =>
    simp only [share_cons, sum_map_add, map_cons, sum_cons]
    rw [sum_ite_eq_of_nodup hnodup (hkeys x (.head _)) x.2]
    rw [ih fun y hy => hkeys y (.tail _ hy)]

/-- A tally keeps the sum of the amounts. -/
theorem sum_tally : ((tally l).map (·.2)).sum = (l.map (·.2)).sum := by
  unfold tally
  rw [map_map]
  refine sum_share (nodup_dedup _) fun x hx => ?_
  exact mem_dedup.2 (mem_map_of_mem hx)

end Tally
