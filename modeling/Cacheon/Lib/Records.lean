import Mathlib.Algebra.BigOperators.Group.List.Basic
import Mathlib.Algebra.Order.Field.Basic
import Mathlib.Data.List.Induction

/-!
# Records

A sequence of scored elements, some of which are taken.  The best of it is the greatest taken
score over a floor, and a record is a taken element that beats the best before it.

* `Records.best` : the best of a sequence.
* `Records.Compared` : each element knows the best before it.
* `Compared.increasing` : the records rise strictly from the floor.
* `Compared.prod_gains` : the gains of the records multiply to what the best has gained.
-/

namespace Records

open List

variable {α F : Type} [LinearOrder F] {score : α → F} {taken : α → Bool} {floor : F} {a : α}
  {l : List α}

/-- The greatest taken score over a floor. -/
def best (score : α → F) (taken : α → Bool) (floor : F) (l : List α) : F :=
  l.foldl (fun b a => if taken a then max b (score a) else b) floor

theorem best_concat : best score taken floor (l ++ [a]) =
    if taken a then max (best score taken floor l) (score a) else best score taken floor l := by
  simp [best]

theorem floor_le_best : floor ≤ best score taken floor l := by
  induction l using List.reverseRecOn with
  | nil => exact le_rfl
  | append_singleton l a ih =>
    rw [best_concat]
    split_ifs
    · exact ih.trans (le_max_left _ _)
    · exact ih

theorem score_le_best (ha : a ∈ l) (htaken : taken a) : score a ≤ best score taken floor l := by
  induction l using List.reverseRecOn with
  | nil => cases ha
  | append_singleton l b ih =>
    rw [best_concat]
    rcases mem_append.1 ha with ha | ha
    · split_ifs
      · exact (ih ha).trans (le_max_left _ _)
      · exact ih ha
    · rw [← mem_singleton.1 ha, if_pos htaken]
      exact le_max_right _ _

/-- Each taken element knows the best before it. -/
def Compared (score : α → F) (taken : α → Bool) (floor : F) (previous : α → F) (l : List α) :
    Prop :=
  ∀ l₁ a l₂, l = l₁ ++ a :: l₂ → taken a → previous a = best score taken floor l₁

variable {previous : α → F}

theorem Compared.init (h : Compared score taken floor previous (l ++ [a])) :
    Compared score taken floor previous l := by
  intro l₁ b l₂ hl hb
  exact h l₁ b (l₂ ++ [a]) (by rw [hl]; simp) hb

theorem Compared.last (h : Compared score taken floor previous (l ++ [a])) (ha : taken a) :
    previous a = best score taken floor l := h l a [] rfl ha

/-- The records of a sequence. -/
def records (score : α → F) (taken : α → Bool) (previous : α → F) (l : List α) : List α :=
  l.filter fun a => taken a && decide (previous a < score a)

theorem records_concat : records score taken previous (l ++ [a]) = records score taken previous l ++
      if taken a ∧ previous a < score a then [a] else [] := by
  unfold records
  by_cases h : taken a = true ∧ previous a < score a <;> simp [h]

theorem taken_of_mem_records (h : a ∈ records score taken previous l) : a ∈ l ∧ taken a := by
  obtain ⟨hmem, hrec⟩ := mem_filter.1 h
  rw [Bool.and_eq_true] at hrec
  exact ⟨hmem, hrec.1⟩

/-- The records rise strictly from the floor. -/
theorem Compared.increasing (h : Compared score taken floor previous l) :
    (floor :: (records score taken previous l).map score).Pairwise (· < ·) := by
  induction l using List.reverseRecOn with
  | nil => exact pairwise_singleton _ _
  | append_singleton l a ih =>
    rw [records_concat]
    split_ifs with hrec
    · obtain ⟨htaken, hlt⟩ := hrec
      rw [h.last htaken] at hlt
      rw [map_append, ← cons_append, pairwise_append]
      refine ⟨ih h.init, pairwise_singleton _ _, fun b hb c hc => ?_⟩
      obtain rfl : c = score a := by simpa using hc
      rcases mem_cons.1 hb with rfl | hb
      · exact floor_le_best.trans_lt hlt
      · obtain ⟨d, hd, rfl⟩ := mem_map.1 hb
        obtain ⟨hmem, hd⟩ := taken_of_mem_records hd
        exact (score_le_best hmem hd).trans_lt hlt
    · rw [append_nil]
      exact ih h.init

variable {F : Type} [Field F] [LinearOrder F] {score previous : α → F} {floor : F}

/-- The gains of the records multiply to what the best has gained over the floor. -/
theorem Compared.prod_gains (hfloor : 0 < floor) (h : Compared score taken floor previous l) :
    ((records score taken previous l).map fun a => score a / previous a).prod =
      best score taken floor l / floor := by
  induction l using List.reverseRecOn with
  | nil => simp [records, best, hfloor.ne']
  | append_singleton l a ih =>
    have hbest : 0 < best score taken floor l := hfloor.trans_le floor_le_best
    rw [records_concat, best_concat]
    by_cases htaken : taken a = true
    · rw [h.last htaken, if_pos htaken]
      by_cases hlt : best score taken floor l < score a
      · rw [if_pos ⟨htaken, hlt⟩, max_eq_right hlt.le, map_append, prod_append,
          ih h.init, map_singleton, prod_singleton, h.last htaken]
        rw [mul_comm, div_mul_div_cancel₀ hbest.ne']
      · rw [if_neg (fun hrec => hlt hrec.2), max_eq_left (not_lt.1 hlt), append_nil]
        exact ih h.init
    · rw [if_neg (fun hrec => htaken hrec.1), if_neg htaken, append_nil]
      exact ih h.init

end Records
