import Mathlib.Data.List.Pairwise
import Mathlib.Data.List.Sort

/-!
# Lists ordered by a key

Three ways a program uses keys: a table sorted by its key, with insert-or-replace
(`Keyed.put`); a collection sorted by a key (`Keyed.sortBy`); the least element under a strict
order, the first one on ties (`Keyed.minBy`).  The last two do not depend on the order the
elements come in as long as no two of them tie.
-/

namespace Keyed

open List

variable {κ α : Type} [LinearOrder κ] (key : α → κ)

/-! ### Sorted tables -/

/-- Every key occurs once, in increasing order. -/
def Sorted (l : List α) : Prop := l.Pairwise (key · < key ·)

instance (l : List α) : Decidable (Sorted key l) :=
  inferInstanceAs (Decidable (l.Pairwise (key · < key ·)))

/-- The row of a key. -/
def find? (k : κ) (l : List α) : Option α := l.find? (key · = k)

/-- Insert a row, in place of the row with its key if there is one. -/
def put (a : α) : List α → List α
  | [] => [a]
  | b :: l => if key a < key b then a :: b :: l
    else if key b < key a then b :: put a l else a :: l

variable {key} {a b : α} {l l' : List α} {k : κ} {p : α → Bool} {β : Type} {f : α → β}

theorem mem_of_mem_put (h : b ∈ put key a l) : b = a ∨ b ∈ l := by
  induction l with
  | nil => exact .inl (mem_singleton.1 h)
  | cons c l ih =>
    unfold put at h
    split_ifs at h with h1 h2
    · exact mem_cons.1 h
    · rcases mem_cons.1 h with rfl | h
      · exact .inr (by simp)
      · exact (ih h).imp_right (mem_cons_of_mem c)
    · exact (mem_cons.1 h).imp_right (mem_cons_of_mem c)

theorem Sorted.put (h : Sorted key l) : Sorted key (put key a l) := by
  induction l with
  | nil => exact pairwise_singleton _ _
  | cons c l ih =>
    obtain ⟨hc, hl⟩ := pairwise_cons.1 h
    unfold Keyed.put
    split_ifs with h1 h2
    · refine pairwise_cons.2 ⟨?_, h⟩
      intro b hb
      rcases mem_cons.1 hb with rfl | hb
      · exact h1
      · exact h1.trans (hc b hb)
    · refine pairwise_cons.2 ⟨?_, ih hl⟩
      intro b hb
      rcases mem_of_mem_put hb with rfl | hb
      · exact h2
      · exact hc b hb
    · have heq : key a = key c := le_antisymm (not_lt.1 h2) (not_lt.1 h1)
      exact pairwise_cons.2 ⟨fun b hb => heq ▸ hc b hb, hl⟩

theorem find?_put_self : find? key (key a) (put key a l) = some a := by
  induction l with
  | nil => simp [put, find?]
  | cons c l ih =>
    unfold put
    split_ifs with h1 h2
    · simp [find?]
    · rw [find?, find?_cons_of_neg (by simpa using h2.ne)]
      exact ih
    · simp [find?]

theorem find?_put_of_ne (hk : k ≠ key a) (h : Sorted key l) :
    find? key k (put key a l) = find? key k l := by
  induction l with
  | nil => simp [put, find?, hk.symm]
  | cons c l ih =>
    obtain ⟨hc, hl⟩ := pairwise_cons.1 h
    unfold put
    split_ifs with h1 h2
    · rw [find?, find?_cons_of_neg (by simpa using hk.symm)]
      rfl
    · simp only [find?, find?_cons]
      split
      · rfl
      · exact ih hl
    · have heq : key a = key c := le_antisymm (not_lt.1 h2) (not_lt.1 h1)
      rw [find?, find?, find?_cons_of_neg (by simpa using hk.symm),
        find?_cons_of_neg (by simpa [← heq] using hk.symm)]

theorem key_of_find? (h : find? key k l = some a) : key a = k := by
  simpa using find?_some h

/-- The dictionary a list of rows builds: a later row replaces one of the same key. -/
def ofList (key : α → κ) (l : List α) : List α := l.foldl (fun table a => put key a table) []

theorem put_perm (h : key a ∉ l.map key) : (put key a l).Perm (a :: l) := by
  induction l with
  | nil => exact .refl _
  | cons b l ih =>
    rw [map_cons, mem_cons, not_or] at h
    unfold put
    split_ifs with h1 h2
    · exact .refl _
    · exact ((ih h.2).cons b).trans (.swap a b l)
    · exact absurd (le_antisymm (not_lt.1 h2) (not_lt.1 h1)) h.1

theorem foldl_put_perm (h : ((l ++ l').map key).Nodup) :
    (l.foldl (fun table a => put key a table) l').Perm (l ++ l') := by
  induction l generalizing l' with
  | nil => exact .refl _
  | cons a l ih =>
    rw [cons_append, map_cons, nodup_cons] at h
    have hput : (put key a l').Perm (a :: l') :=
      put_perm fun hmem => h.1 (by rw [map_append]; exact mem_append_right _ hmem)
    have hmiddle : (l ++ put key a l').Perm (a :: (l ++ l')) :=
      (hput.append_left l).trans perm_middle
    refine (ih ?_).trans hmiddle
    exact ((hmiddle.map key).nodup_iff).2 (nodup_cons.2 h)

/-- Rows of distinct keys are all kept. -/
theorem ofList_perm (h : (l.map key).Nodup) : (ofList key l).Perm l := by
  have hnodup : ((l ++ []).map key).Nodup := by rwa [append_nil]
  have hfold := foldl_put_perm hnodup
  rwa [append_nil] at hfold

theorem mem_keys_put : k ∈ (put key a l).map key ↔ k = key a ∨ k ∈ l.map key := by
  induction l with
  | nil => simp [put]
  | cons b l ih =>
    unfold put
    split_ifs with h1 h2
    · simp
    · simp only [map_cons, mem_cons, ih]
      exact or_left_comm
    · -- The row of the same key is replaced.
      have hkey : key a = key b := le_antisymm (not_lt.1 h2) (not_lt.1 h1)
      simp [hkey]

/-- A dictionary has only rows it is built from. -/
theorem mem_of_mem_ofList (h : a ∈ ofList key l) : a ∈ l := by
  have hfold : ∀ table : List α, a ∈ l.foldl (fun table a => put key a table) table →
      a ∈ l ∨ a ∈ table := by
    clear h
    induction l with
    | nil => exact fun _ => .inr
    | cons b l ih =>
      intro table h
      rcases ih _ h with h | h
      · exact .inl (.tail _ h)
      · exact (mem_of_mem_put h).imp_left fun heq => mem_cons.2 (.inl heq)
  exact (hfold [] h).resolve_right not_mem_nil

/-- A dictionary has the keys of the rows it is built from. -/
theorem mem_keys_ofList : k ∈ (ofList key l).map key ↔ k ∈ l.map key := by
  have hfold : ∀ table : List α, k ∈ (l.foldl (fun table a => put key a table) table).map key ↔
      k ∈ l.map key ∨ k ∈ table.map key := by
    induction l with
    | nil => simp
    | cons a l ih =>
      intro table
      rw [foldl_cons, ih, mem_keys_put, map_cons, mem_cons, or_assoc]
      exact or_left_comm
  exact (hfold []).trans (or_iff_left not_mem_nil)

theorem sorted_foldl_put (h : Sorted key l') :
    Sorted key (l.foldl (fun table a => put key a table) l') := by
  induction l generalizing l' with
  | nil => exact h
  | cons a l ih => exact ih h.put

theorem sorted_ofList : Sorted key (ofList key l) := sorted_foldl_put .nil

/-- Two sorted collections with the same rows are the same. -/
theorem Sorted.eq_of_perm (h : Sorted key l) (h' : Sorted key l') (hperm : l.Perm l') : l = l' :=
  hperm.eq_of_pairwise (fun _ _ _ _ hab hba => absurd hab (not_lt.2 hba.le)) h h'

theorem Sorted.nodup (h : Sorted key l) : (l.map key).Nodup := pairwise_map.2 (h.imp ne_of_lt)

theorem ofList_eq_self (h : Sorted key l) : ofList key l = l :=
  sorted_ofList.eq_of_perm h (ofList_perm h.nodup)

/-! ### Sorting -/

variable (key) in
/-- Sort by a key; rows with equal keys keep their order. -/
def sortBy (l : List α) : List α := l.insertionSort (key · ≤ key ·)

theorem sortBy_perm : (sortBy key l).Perm l := perm_insertionSort _ _

@[simp] theorem mem_sortBy : a ∈ sortBy key l ↔ a ∈ l := sortBy_perm.mem_iff

theorem sortBy_sorted : (sortBy key l).Pairwise (key · ≤ key ·) :=
  pairwise_insertionSort (key · ≤ key ·) l

/-- What sorts first is taken first. -/
theorem mem_take_sortBy (ha : a ∈ (sortBy key l).take n) (hb : b ∈ l) (h : key b < key a) :
    b ∈ (sortBy key l).take n := by
  have hsort : (sortBy key l).Pairwise (key · ≤ key ·) := sortBy_sorted
  replace hb : b ∈ sortBy key l := mem_sortBy.2 hb
  rw [← take_append_drop n (sortBy key l)] at hb hsort
  refine (mem_append.1 hb).resolve_right fun hb => ?_
  exact absurd ((pairwise_append.1 hsort).2.2 a ha b hb) (not_le.2 h)

theorem sortBy_eq_self (h : l.Pairwise (key · ≤ key ·)) : sortBy key l = l := h.insertionSort_eq

theorem sortBy_sortBy : sortBy key (sortBy key l) = sortBy key l :=
  Pairwise.insertionSort_eq sortBy_sorted

/-- The keys of a sorted collection are themselves sorted. -/
theorem sortBy_id_map_sortBy : sortBy id ((sortBy key l).map key) = (sortBy key l).map key := by
  refine Pairwise.insertionSort_eq ?_
  exact pairwise_map.2 sortBy_sorted

theorem sortBy_eq_of_perm (hinj : ∀ a ∈ l, ∀ b ∈ l, key a = key b → a = b)
    (h : l.Perm l') : sortBy key l = sortBy key l' := by
  refine Perm.eq_of_pairwise ?_ (pairwise_insertionSort _ _)
    (pairwise_insertionSort _ _) ((sortBy_perm.trans h).trans sortBy_perm.symm)
  intro a b ha hb hab hba
  exact hinj a (mem_sortBy.1 ha) b (h.mem_iff.2 (mem_sortBy.1 hb)) (le_antisymm hab hba)

theorem filter_orderedInsert (h : l.Pairwise (key · ≤ key ·)) :
    (l.orderedInsert (key · ≤ key ·) a).filter p =
      if p a then (l.filter p).orderedInsert (key · ≤ key ·) a else l.filter p := by
  induction l with
  | nil => by_cases hp : p a <;> simp [hp]
  | cons b l ih =>
    obtain ⟨hb, hl⟩ := pairwise_cons.1 h
    rw [orderedInsert_cons]
    by_cases hab : key a ≤ key b
    · rw [if_pos hab]
      by_cases hp : p a
      · rw [filter_cons_of_pos hp, if_pos hp]
        -- The new element is in front of every row, so also of those that are kept.
        cases hkept : (b :: l).filter p with
        | nil => rfl
        | cons c rest =>
          have hc : c ∈ b :: l := mem_of_mem_filter (hkept ▸ mem_cons_self)
          have hac : key a ≤ key c := by
            rcases mem_cons.1 hc with rfl | hc
            · exact hab
            · exact hab.trans (hb c hc)
          rw [orderedInsert_cons, if_pos hac]
      · rw [filter_cons_of_neg hp, if_neg hp]
    · rw [if_neg hab]
      by_cases hpb : p b
      · rw [filter_cons_of_pos hpb, filter_cons_of_pos hpb, ih hl]
        split_ifs
        · rw [orderedInsert_cons, if_neg hab]
        · rfl
      · rw [filter_cons_of_neg hpb, filter_cons_of_neg hpb, ih hl]

/-- Sorting keeps the order of what a filter keeps. -/
theorem filter_sortBy : (sortBy key l).filter p = sortBy key (l.filter p) := by
  induction l with
  | nil => rfl
  | cons a l ih =>
    have hcons (l : List α) :
        sortBy key (a :: l) = (sortBy key l).orderedInsert (key · ≤ key ·) a := rfl
    rw [hcons, filter_orderedInsert sortBy_sorted, ih]
    by_cases hp : p a
    · rw [if_pos hp, filter_cons_of_pos hp, hcons]
    · rw [if_neg hp, filter_cons_of_neg hp]

/-- A sorted list splits where a predicate on the keys turns false for good. -/
theorem eq_filter_append_of_mono (h : l.Pairwise (key · ≤ key ·))
    (hp : ∀ a b, key a ≤ key b → p b = true → p a = true) :
    l = l.filter p ++ l.filter (fun a => !p a) := by
  induction l with
  | nil => rfl
  | cons a l ih =>
    obtain ⟨ha, hl⟩ := pairwise_cons.1 h
    by_cases hpa : p a = true
    · rw [filter_cons_of_pos hpa, filter_cons_of_neg (by simp [hpa]), cons_append, ← ih hl]
    · have hall : ∀ b ∈ a :: l, ¬ p b = true := by
        intro b hb
        rcases mem_cons.1 hb with rfl | hb
        · exact hpa
        · exact fun hpb => hpa (hp a b (ha b hb) hpb)
      rw [filter_eq_nil_iff.2 hall, filter_eq_self.2 (by simpa using hall), nil_append]

/-- A sorted list splits at every key. -/
theorem eq_filter_append (h : l.Pairwise (key · ≤ key ·)) (k : κ) :
    l = l.filter (key · < k) ++ l.filter (k ≤ key ·) := by
  have hsplit := eq_filter_append_of_mono (p := fun a => decide (key a < k)) h
    (fun a b hab hb => by simpa using hab.trans_lt (by simpa using hb))
  simpa only [← decide_not, not_lt] using hsplit

/-- Two elements of a list come in one order or the other. -/
theorem rel_or_rel {R : α → α → Prop} (h : l.Pairwise R) (ha : a ∈ l) (hb : b ∈ l) (hne : a ≠ b) :
    R a b ∨ R b a :=
  have : Std.Symm fun a b => R a b ∨ R b a := ⟨fun _ _ => Or.symm⟩
  (h.imp (S := fun a b => R a b ∨ R b a) Or.inl).forall ha hb hne

/-- Lists with equal images are equal where the map tells their elements apart. -/
theorem eq_of_map_eq (hinj : ∀ a ∈ l, ∀ b ∈ l', f a = f b → a = b) (h : l.map f = l'.map f) :
    l = l' := by
  induction l generalizing l' with
  | nil => exact (map_eq_nil_iff.1 h.symm).symm
  | cons a l ih =>
    cases l' with
    | nil => cases h
    | cons b l' =>
      obtain ⟨hhead, htail⟩ := cons.inj h
      rw [hinj a (.head _) b (.head _) hhead,
        ih (fun a ha b hb => hinj a (.tail _ ha) b (.tail _ hb)) htail]

/-- Sorting commutes with a map that keeps the keys. -/
theorem map_sortBy {key' : β → κ} (h : ∀ a, key' (f a) = key a) :
    (sortBy key l).map f = sortBy key' (l.map f) :=
  map_insertionSort _ _ f l fun a _ b _ => by rw [h a, h b]

theorem sortBy_append_least (h : ∀ b ∈ l, key a < key b) :
    sortBy key (l ++ [a]) = a :: sortBy key l := by
  induction l with
  | nil => rfl
  | cons b l ih =>
    obtain ⟨hb, hl⟩ := forall_mem_cons.1 h
    have hcons : sortBy key (b :: l ++ [a]) = (sortBy key (l ++ [a])).orderedInsert _ b := rfl
    rw [hcons, ih hl, orderedInsert_cons, if_neg hb.not_ge]
    rfl

/-- Where an element with a new key comes in a sorted collection. -/
theorem sortBy_concat (h : ∀ b ∈ l, key b ≠ key a) :
    ∃ rest, sortBy key (l ++ [a]) = (sortBy key l).filter (key · < key a) ++ a :: rest := by
  have hlate : ∀ b ∈ l.filter (key a ≤ key ·), key a < key b := by
    intro b hb
    obtain ⟨hmem, hle⟩ := mem_filter.1 hb
    exact lt_of_le_of_ne (of_decide_eq_true hle) (h b hmem).symm
  have hsort : (sortBy key (l ++ [a])).Pairwise (key · ≤ key ·) := sortBy_sorted
  have hsplit := eq_filter_append hsort (key a)
  rw [filter_sortBy, filter_sortBy, filter_append, filter_append] at hsplit
  refine ⟨sortBy key (l.filter (key a ≤ key ·)), ?_⟩
  rw [← sortBy_append_least hlate, filter_sortBy]
  simpa using hsplit

/-! ### The least element -/

section Least

variable (lt : α → α → Prop) [DecidableRel lt]

/-- The first of the least elements. -/
def minBy : List α → Option α
  | [] => none
  | a :: l => some (l.foldl (fun best b => if lt b best then b else best) a)

variable {lt}

theorem foldl_min_mem : l.foldl (fun best b => if lt b best then b else best) a ∈ a :: l := by
  induction l generalizing a with
  | nil => simp
  | cons b l ih =>
    simp only [foldl_cons]
    have h := ih (a := if lt b a then b else a)
    split_ifs at h ⊢
    · exact mem_cons_of_mem a h
    · rcases mem_cons.1 h with h | h
      · rw [h]
        simp
      · exact mem_cons_of_mem a (mem_cons_of_mem b h)

theorem minBy_mem (h : minBy lt l = some a) : a ∈ l := by
  cases l with
  | nil => cases h
  | cons b l =>
    cases h
    exact foldl_min_mem

@[simp] theorem minBy_eq_none : minBy lt l = none ↔ l = [] := by
  cases l <;> simp [minBy]

section

variable (hlt : ∀ x y, lt x y ↔ key x < key y)

include hlt

/-- Under the order of a key, no key is less than that of the fold's result. -/
theorem foldl_min_le :
    ∀ b ∈ a :: l, key (l.foldl (fun best b => if lt b best then b else best) a) ≤ key b := by
  induction l generalizing a with
  | nil => exact forall_mem_singleton.2 le_rfl
  | cons c l ih =>
    have hmin : key (if lt c a then c else a) ≤ key a ∧ key (if lt c a then c else a) ≤ key c := by
      split_ifs with hca
      · exact ⟨((hlt c a).1 hca).le, le_rfl⟩
      · exact ⟨le_rfl, not_lt.1 fun h => hca ((hlt c a).2 h)⟩
    obtain ⟨hhead, htail⟩ := forall_mem_cons.1 (ih (a := if lt c a then c else a))
    exact forall_mem_cons.2 ⟨hhead.trans hmin.1, forall_mem_cons.2 ⟨hhead.trans hmin.2, htail⟩⟩

theorem minBy_le (h : minBy lt l = some a) : ∀ b ∈ l, key a ≤ key b := by
  cases l with
  | nil => cases h
  | cons c l =>
    cases h
    exact foldl_min_le hlt

/-- The least element does not depend on the order when no two elements tie. -/
theorem minBy_eq_of_perm (htri : ∀ a ∈ l, ∀ b ∈ l, key a = key b → a = b) (h : l.Perm l') :
    minBy lt l = minBy lt l' := by
  cases hl : minBy lt l with
  | none =>
    obtain rfl := minBy_eq_none.1 hl
    rw [nil_perm.1 h]
    rfl
  | some m =>
    cases hl' : minBy lt l' with
    | none =>
      obtain rfl := minBy_eq_none.1 hl'
      rw [perm_nil.1 h] at hl
      cases hl
    | some m' =>
      have hm := minBy_mem hl
      have hm' := h.mem_iff.2 (minBy_mem hl')
      rw [htri m hm m' hm' (le_antisymm (minBy_le hlt hl m' hm')
        (minBy_le hlt hl' m (h.mem_iff.1 hm)))]

end

end Least

end Keyed
