import Cacheon.Lib.Assoc
import Mathlib.Data.List.Induction

/-!
# Tables with a primary key

A table keeps its rows in the order they were inserted and no two rows share a key.  Updates
cannot touch the key, so the invariant is part of the type.

* `Table.find?` : the row of a key; `find?_eq_some` says when it is a given row.
* `Table.insert` : fails on a key that is taken.
* `Table.put` : insert, or replace the row with that key.
* `Table.update` : rewrite the rows that satisfy a predicate.
-/

/-- Rows with distinct keys, in insertion order. -/
structure Table {α κ : Type} (key : α → κ) where
  rows : List α
  distinct : (rows.map key).Nodup

namespace Table

open List Function

variable {α κ : Type} {key : α → κ}

@[ext] theorem ext {s t : Table key} (h : s.rows = t.rows) : s = t := by
  cases s
  cases h
  rfl

instance [DecidableEq α] : DecidableEq (Table key) := fun _ _ =>
  decidable_of_iff _ ⟨ext, congrArg rows⟩

instance : Membership α (Table key) := ⟨fun t a => a ∈ t.rows⟩

/-- The table without rows. -/
def empty : Table key := ⟨[], nodup_nil⟩

variable (t : Table key)

/-- Keep the rows that satisfy a predicate. -/
def filter (p : α → Prop) [DecidablePred p] : Table key :=
  ⟨t.rows.filter p, t.distinct.sublist (filter_sublist.map key)⟩

/-- Rewrite the rows that satisfy a predicate. -/
def update (p : α → Prop) [DecidablePred p] (f : α → α) (hf : ∀ a, key (f a) = key a) :
    Table key where
  rows := t.rows.map fun a => if p a then f a else a
  distinct := by
    have hkeys : (t.rows.map fun a => if p a then f a else a).map key = t.rows.map key := by
      rw [map_map]
      refine map_congr_left fun a _ => ?_
      simp only [comp_apply]
      split_ifs
      · exact hf a
      · rfl
    rw [hkeys]
    exact t.distinct

/-- Rewrite every row. -/
def map (f : α → α) (hf : ∀ a, key (f a) = key a) : Table key where
  rows := t.rows.map f
  distinct := by
    rw [map_map, show key ∘ f = key from funext hf]
    exact t.distinct

variable [DecidableEq κ]

/-- The row of a key. -/
def find? (k : κ) : Option α := t.rows.find? (key · = k)

/-- Add a row, unless its key is taken. -/
def insert (a : α) : Option (Table key) :=
  if h : key a ∈ t.rows.map key then none
  else some ⟨t.rows ++ [a], by
    rw [map_append, nodup_append]
    refine ⟨t.distinct, nodup_singleton _, ?_⟩
    rintro k hk _ hk' rfl
    exact h (mem_singleton.1 hk' ▸ hk)⟩

/-- Add a row, in place of the row with its key if there is one. -/
def put (a : α) : Table key :=
  match t.insert a with
  | some t' => t'
  | none => ⟨t.rows.map fun b => if key b = key a then a else b, by
      have hkeys : (t.rows.map fun b => if key b = key a then a else b).map key =
          t.rows.map key := by
        rw [map_map]
        refine map_congr_left fun b _ => ?_
        simp only [comp_apply]
        split_ifs with h
        · exact h.symm
        · rfl
      rw [hkeys]
      exact t.distinct⟩

/-- The table after adding rows one by one. -/
def putAll (l : List α) : Table key := l.foldl (fun t a => t.put a) empty

/-! ### Lookups -/

variable {t} {a b : α} {k : κ}

omit [DecidableEq κ] in
theorem eq_of_key (ha : a ∈ t.rows) (hb : b ∈ t.rows) (h : key a = key b) : a = b :=
  inj_on_of_nodup_map t.distinct ha hb h

theorem find?_eq_some : t.find? k = some a ↔ a ∈ t.rows ∧ key a = k := by
  constructor
  · intro h
    exact ⟨mem_of_find?_eq_some h, by simpa using find?_some h⟩
  · rintro ⟨hmem, rfl⟩
    exact Assoc.find?_of_mem t.distinct hmem

theorem find?_eq_none : t.find? k = none ↔ ∀ a ∈ t.rows, key a ≠ k := by
  simp [find?]

theorem find?_of_mem (h : a ∈ t.rows) : t.find? (key a) = some a := find?_eq_some.2 ⟨h, rfl⟩

@[simp] theorem find?_empty : (empty : Table key).find? k = none := rfl

variable {f : α → α} {t' : Table key}

theorem find?_update {p : α → Prop} [DecidablePred p] (hf : ∀ a, key (f a) = key a) :
    (t.update p f hf).find? k = (t.find? k).map fun a => if p a then f a else a := by
  have hkey (a : α) : key (if p a then f a else a) = key a := by
    split_ifs
    · exact hf a
    · rfl
  unfold find? update
  rw [List.find?_map]
  congr 2
  funext a
  simp only [comp_apply, hkey]

/-- The filter matters at a key as far as it tells rows of that key apart. -/
theorem find?_filter {p : α → Prop} [DecidablePred p] {q : α → Bool}
    (h : ∀ a, key a = k → (p a ↔ q a)) : (t.filter p).find? k = (t.find? k).filter q := by
  cases hfind : t.find? k with
  | none =>
    refine find?_eq_none.2 fun a ha => ?_
    exact find?_eq_none.1 hfind a (mem_of_mem_filter ha)
  | some a =>
    obtain ⟨ha, hkey⟩ := find?_eq_some.1 hfind
    by_cases hq : q a
    · rw [Option.filter, if_pos hq]
      exact find?_eq_some.2 ⟨mem_filter.2 ⟨ha, decide_eq_true ((h a hkey).2 hq)⟩, hkey⟩
    · rw [Option.filter, if_neg hq]
      refine find?_eq_none.2 fun b hb hkey' => hq ?_
      obtain ⟨hb, hpb⟩ := mem_filter.1 hb
      rw [eq_of_key ha hb (hkey.trans hkey'.symm)]
      exact (h b hkey').1 (of_decide_eq_true hpb)

theorem find?_filter_self {p : α → Prop} [DecidablePred p] (h : ∀ a, key a = k → p a) :
    (t.filter p).find? k = t.find? k :=
  (find?_filter (q := fun _ => true) fun a ha => iff_of_true (h a ha) rfl).trans
    (by cases t.find? k <;> rfl)

/-- A change to the row of one key is none to the row of another. -/
theorem map_of_key_ne {k' : κ} (hk : k ≠ k') :
    (t.find? k).map (fun a => if key a = k' then f a else a) = t.find? k := by
  cases hfind : t.find? k with
  | none => rfl
  | some a =>
    rw [Option.map_some, if_neg]
    rw [(find?_eq_some.1 hfind).2]
    exact hk

theorem rows_of_insert (h : t.insert a = some t') :
    t'.rows = t.rows ++ [a] ∧ t.find? (key a) = none := by
  unfold insert at h
  split_ifs at h with hmem
  cases h
  refine ⟨rfl, find?_eq_none.2 ?_⟩
  intro b hb hkey
  exact hmem (hkey ▸ mem_map_of_mem hb)

theorem find?_of_insert (h : t.insert a = some t') :
    t'.find? k = if k = key a then some a else t.find? k := by
  obtain ⟨hrows, hnone⟩ := rows_of_insert h
  unfold find? at hnone ⊢
  rw [hrows, find?_append]
  by_cases hk : k = key a
  · subst hk
    simp [hnone]
  · simp [hk, Ne.symm hk]

theorem insert_eq_none : t.insert a = none ↔ (t.find? (key a)).isSome := by
  unfold insert
  split_ifs with hmem
  · obtain ⟨b, hb, hkey⟩ := mem_map.1 hmem
    simp [find?_eq_some.2 ⟨hb, hkey⟩]
  · have hnone : t.find? (key a) = none := find?_eq_none.2 fun b hb hkey =>
      hmem (hkey ▸ mem_map_of_mem hb)
    simp [hnone]

theorem rows_put : (t.put a).rows =
    if key a ∈ t.rows.map key then t.rows.map fun b => if key b = key a then a else b
    else t.rows ++ [a] := by
  unfold put insert
  split_ifs <;> rfl

theorem find?_map (hf : ∀ a, key (f a) = key a) : (t.map f hf).find? k = (t.find? k).map f := by
  unfold find? map
  rw [List.find?_map]
  congr 2
  funext a
  simp only [comp_apply, hf]

/-- Rewriting the rows goes past adding one. -/
theorem put_map (hf : ∀ a, key (f a) = key a) : (t.put a).map f hf = (t.map f hf).put (f a) := by
  have hkeys : (t.rows.map f).map key = t.rows.map key := by
    rw [map_map, show key ∘ f = key from funext hf]
  refine ext ?_
  rw [rows_put]
  show (t.put a).rows.map f = if key (f a) ∈ (t.rows.map f).map key then _ else _
  rw [rows_put, hkeys, hf]
  split_ifs with hmem
  · simp only [map, map_map]
    refine map_congr_left fun b _ => ?_
    by_cases hb : key b = key a <;> simp [hb, hf]
  · simp [map]

/-- The rows after adding one in place of the row with its key. -/
theorem mem_put : b ∈ (t.put a).rows ↔ b = a ∨ b ∈ t.rows ∧ key b ≠ key a := by
  rw [rows_put]
  split_ifs with hmem
  · rw [mem_map]
    constructor
    · rintro ⟨c, hc, rfl⟩
      by_cases h : key c = key a <;> simp [h, hc]
    · rintro (rfl | ⟨hb, hne⟩)
      · obtain ⟨c, hc, hkey⟩ := mem_map.1 hmem
        exact ⟨c, hc, if_pos hkey⟩
      · exact ⟨b, hb, if_neg hne⟩
  · have hfree : b ∈ t.rows → key b ≠ key a := fun hb h => hmem (h ▸ mem_map_of_mem hb)
    rw [mem_append, mem_singleton, or_comm, and_iff_left_of_imp hfree]

theorem find?_put : (t.put a).find? k = if k = key a then some a else t.find? k := by
  ext b
  split_ifs with hk <;> simp only [find?_eq_some, mem_put] <;> grind

variable {l : List α}

theorem putAll_concat : (putAll (l ++ [a]) : Table key) = (putAll l).put a := by
  simp [putAll]

theorem mem_of_mem_putAll (h : b ∈ (putAll l : Table key).rows) : b ∈ l := by
  induction l using List.reverseRecOn with
  | nil => cases h
  | append_singleton l a ih =>
    rw [putAll_concat] at h
    rcases mem_put.1 h with rfl | h
    · simp
    · exact mem_append_left _ (ih h.1)

theorem putAll_map (hf : ∀ a, key (f a) = key a) :
    (putAll l : Table key).map f hf = putAll (l.map f) := by
  induction l using List.reverseRecOn with
  | nil => rfl
  | append_singleton l a ih =>
    rw [map_append, map_singleton, putAll_concat, putAll_concat, put_map, ih]

/-- Insert the rows whose keys are missing. -/
theorem find?_insertMissing {f : κ → α} (hf : ∀ k, key (f k) = k) (ks : List κ) :
    (ks.foldl (fun t k => (t.insert (f k)).getD t) t).find? k =
      (t.find? k).or (if k ∈ ks then some (f k) else none) := by
  induction ks generalizing t with
  | nil => simp
  | cons k' ks ih =>
    rw [foldl_cons, ih]
    cases hinsert : t.insert (f k') with
    | none =>
      -- The key is taken, so its row stays.
      have htaken := insert_eq_none.1 hinsert
      rw [hf] at htaken
      by_cases hk : k = k'
      · subst hk
        obtain ⟨a, ha⟩ := Option.isSome_iff_exists.1 htaken
        simp [ha]
      · simp [hk]
    | some t' =>
      simp only [Option.getD_some, find?_of_insert hinsert, hf]
      by_cases hk : k = k'
      · subst hk
        have hfree := (rows_of_insert hinsert).2
        rw [hf] at hfree
        simp [hfree]
      · simp [hk]

/-! ### Counting rows -/

omit [DecidableEq κ] in
/-- Two kinds of rows that exclude each other, counted together. -/
theorem countP_or {p q : α → Bool} (h : ∀ a ∈ l, p a → q a = false) :
    l.countP (fun a => p a || q a) = l.countP p + l.countP q := by
  induction l with
  | nil => rfl
  | cons a l ih =>
    have hrest := ih fun b hb => h b (mem_cons_of_mem _ hb)
    simp only [countP_cons, hrest]
    by_cases hp : p a
    · have hq := h a mem_cons_self hp
      simp [hp, hq]
      omega
    · simp [hp]
      omega

/-- No key is counted twice. -/
theorem countP_key_le : t.rows.countP (key · = k) ≤ 1 := by
  have hcount : (t.rows.map key).count k ≤ 1 := nodup_iff_count_le_one.1 t.distinct _
  refine Nat.le_trans ?_ hcount
  rw [List.count, countP_map]
  refine countP_mono_left fun b _ hb => ?_
  simpa using hb

/-- The row of a key is counted once. -/
theorem countP_key {p : α → Prop} [DecidablePred p] (ha : a ∈ t.rows) (hp : p a) :
    t.rows.countP (fun b => key b = key a ∧ p b) = 1 := by
  refine Nat.le_antisymm ?_ (countP_pos_iff.2 ⟨a, ha, by simp [hp]⟩)
  refine Nat.le_trans (countP_mono_left fun b _ hb => ?_) (countP_key_le (k := key a))
  simpa using (of_decide_eq_true hb).1

end Table
