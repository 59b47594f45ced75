import Mathlib.Data.List.Basic

/-!
# A window that moves over a queue

A loop takes the first elements of a queue, as many as its window has places.  Those it keeps stay
at the head and hold their places, the others leave the queue, and the loop looks again until a
window has nothing that leaves.  `Window.seen` says what such a loop looks at, in one scan.
-/

namespace Window

open List

variable {α : Type} (keep keep' : α → Prop) [DecidablePred keep] [DecidablePred keep']

/-- What the loop sees through a window of some places. -/
def seen : List α → ℕ → List α
  | [], _ => []
  | _ :: _, 0 => []
  | a :: l, b + 1 => a :: seen l (if keep a then b else b + 1)

variable {keep keep'} {l l' : List α} {b : ℕ} {a : α}

theorem seen_sublist : (seen keep l b).Sublist l := by
  induction l generalizing b with
  | nil => exact .refl _
  | cons a l ih =>
    cases b with
    | zero => exact nil_sublist _
    | succ b => exact ih.cons_cons a

/-- A window sees all of a list that fits in, and after it through the places that are left. -/
theorem seen_append (h : l.length ≤ b) :
    seen keep (l ++ l') b = l ++ seen keep l' (b - l.countP (keep ·)) := by
  induction l generalizing b with
  | nil => rfl
  | cons a l ih =>
    cases b with
    | zero => cases h
    | succ b =>
      have hfits : l.length ≤ b := Nat.le_of_succ_le_succ h
      rw [cons_append, seen, countP_cons, cons_append]
      by_cases ha : keep a
      · rw [if_pos ha, ih hfits, if_pos (decide_eq_true ha), Nat.succ_sub_succ]
      · rw [if_neg ha, ih (Nat.le_succ_of_le hfits), if_neg (by simpa using ha)]
        rfl

/-- One round: the window, and what the loop sees later.  The next round sees what this one kept
and the same later; where nothing leaves, nothing comes later. -/
theorem seen_round (keep : α → Prop) [DecidablePred keep] (l : List α) (b : ℕ) :
    ∃ later, seen keep l b = l.take b ++ later ∧
      seen keep ((l.take b).filter (keep ·) ++ l.drop b) b = (l.take b).filter (keep ·) ++ later ∧
      ((∀ a ∈ l.take b, keep a) → later = []) := by
  have hfits : (l.take b).length ≤ b := length_take_le b l
  have hkept : ((l.take b).filter (keep ·)).length ≤ b := Nat.le_trans (length_filter_le _ _) hfits
  have hcount : ((l.take b).filter (keep ·)).countP (keep ·) = (l.take b).countP (keep ·) := by
    rw [countP_filter]
    simp
  refine ⟨seen keep (l.drop b) (b - (l.take b).countP (keep ·)), ?_, ?_, fun hall => ?_⟩
  · have h : seen keep (l.take b ++ l.drop b) b = _ := seen_append hfits
    rwa [take_append_drop] at h
  · rw [seen_append hkept, hcount]
  · have hcount : (l.take b).countP (keep ·) = (l.take b).length :=
      countP_eq_length.2 fun a ha => decide_eq_true (hall a ha)
    rw [hcount, length_take]
    rcases Nat.le_total b l.length with hle | hle
    · rw [Nat.min_eq_left hle, Nat.sub_self]
      cases l.drop b <;> rfl
    · rw [drop_eq_nil_of_le hle]
      rfl

/-- What is seen depends on what happens to the elements seen. -/
theorem seen_congr (h : ∀ a ∈ seen keep l b, (keep a ↔ keep' a)) :
    seen keep' l b = seen keep l b := by
  induction l generalizing b with
  | nil => rfl
  | cons a l ih =>
    cases b with
    | zero => rfl
    | succ b =>
      rw [seen, seen]
      have ha : keep a ↔ keep' a := h a mem_cons_self
      have hplaces : (if keep' a then b else b + 1) = if keep a then b else b + 1 :=
        if_congr ha.symm rfl rfl
      rw [hplaces, ih fun a ha => h a (.tail _ ha)]

end Window
