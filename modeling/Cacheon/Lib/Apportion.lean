import Cacheon.Lib.Keyed
import Cacheon.Lib.Tally
import Mathlib.Algebra.BigOperators.Ring.Finset
import Mathlib.Algebra.Order.BigOperators.Group.List
import Mathlib.Data.Prod.Lex
import Mathlib.Data.Rat.Floor

/-!
# Largest-remainder apportionment

An integer pool is split over keyed rational credits: each key gets the floor of its exact
quota, and the units left over go to the largest remainders, the smaller key on ties.

* `Apportion.allocate` : the split; it fails when no credit is positive.
* `Apportion.sum_allocate` : the parts add up to the pool.
* `Apportion.value_allocate` : each part is the floor of its quota or one more.
* `Apportion.keys_allocate` : exactly the keys of positive credit get a part.
* `Apportion.split_allocate` : a split over tallied claims honours every claim.
-/

namespace Apportion

open List Keyed

variable {κ : Type} [LinearOrder κ]

/-- The exact share of a credit. -/
def quota (total : ℚ) (pool : ℕ) (credit : ℚ) : ℚ := credit * pool / total

/-- The whole units of the exact share. -/
def floorQuota (total : ℚ) (pool : ℕ) (credit : ℚ) : ℕ := ⌊quota total pool credit⌋₊

/-- The order in which left-over units are handed out: the largest remainder first. -/
def remainderKey (total : ℚ) (pool : ℕ) (row : κ × ℚ) : ℚ ×ₗ κ :=
  toLex (-(row.2 * pool - floorQuota total pool row.2 * total), row.1)

/-- The credits that take part, in the order of their keys. -/
def positives (credits : List (κ × ℚ)) : List (κ × ℚ) := sortBy (·.1) (credits.filter (0 < ·.2))

/-- The sum of the credits. -/
def total (rows : List (κ × ℚ)) : ℚ := (rows.map (·.2)).sum

/-- The units left over after the floors. -/
def missing (rows : List (κ × ℚ)) (pool : ℕ) : ℕ :=
  pool - (rows.map fun row => floorQuota (total rows) pool row.2).sum

/-- The keys that get one unit more. -/
def bumped (rows : List (κ × ℚ)) (pool : ℕ) : List κ :=
  ((sortBy (remainderKey (total rows) pool) rows).take (missing rows pool)).map (·.1)

/-- Split a pool over the positive credits. -/
def allocate (credits : List (κ × ℚ)) (pool : ℕ) : Option (List (κ × ℕ)) :=
  let rows := positives credits
  if total rows ≤ 0 then none
  else some (rows.map fun row =>
    (row.1, floorQuota (total rows) pool row.2 + if row.1 ∈ bumped rows pool then 1 else 0))

variable {credits rows : List (κ × ℚ)} {pool : ℕ} {parts : List (κ × ℕ)} {row row' : κ × ℚ}

/-! ### The positive credits -/

theorem mem_positives : row ∈ positives credits ↔ row ∈ credits ∧ 0 < row.2 := by
  simp [positives]

theorem nodup_positives (h : (credits.map (·.1)).Nodup) :
    ((positives credits).map (·.1)).Nodup := by
  refine ((sortBy_perm.map _).nodup_iff).2 ?_
  exact (filter_sublist.map _).nodup h

/-- Only the positive credits count, in whatever order they come. -/
theorem allocate_congr {credits' : List (κ × ℚ)} (hnodup : (credits.map (·.1)).Nodup)
    (h : (credits.filter (0 < ·.2)).Perm (credits'.filter (0 < ·.2))) :
    allocate credits pool = allocate credits' pool := by
  have hpositives : positives credits = positives credits' := by
    refine sortBy_eq_of_perm ?_ h
    intro a ha b hb heq
    exact inj_on_of_nodup_map hnodup (mem_of_mem_filter ha) (mem_of_mem_filter hb) heq
  simp only [allocate, hpositives]

omit [LinearOrder κ] in
theorem le_total (h : ∀ row ∈ rows, 0 < row.2) (hrow : row ∈ rows) : row.2 ≤ total rows := by
  refine single_le_sum ?_ row.2 (mem_map_of_mem hrow)
  intro x hx
  obtain ⟨row, hrow, rfl⟩ := mem_map.1 hx
  exact (h row hrow).le

/-- The pool is split whenever some credit is positive. -/
theorem allocate_isSome (h : ∃ row ∈ credits, 0 < row.2) : (allocate credits pool).isSome := by
  obtain ⟨row, hrow, hpos⟩ := h
  have hmem : row ∈ positives credits := mem_positives.2 ⟨hrow, hpos⟩
  have hle := le_total (fun r hr => (mem_positives.1 hr).2) hmem
  have hnot : ¬ total (positives credits) ≤ 0 := fun hle' => absurd (hle.trans hle') hpos.not_ge
  simp [allocate, hnot]

theorem exists_allocate (h : 0 < total credits) : ∃ parts, allocate credits pool = some parts := by
  have hpos : (credits.map fun _ => (0 : ℚ)).sum < (credits.map Prod.snd).sum := by
    simpa [total] using h
  exact Option.isSome_iff_exists.1 (allocate_isSome (exists_lt_of_sum_lt _ _ hpos))

/-! ### The units left over -/

section Rows

variable (hpos : ∀ row ∈ rows, 0 < row.2) (htotal : 0 < total rows)

omit [LinearOrder κ] in
include htotal in
theorem sum_quota : (rows.map fun row => quota (total rows) pool row.2).sum = pool := by
  have hmap : (rows.map fun row => quota (total rows) pool row.2) =
      (rows.map (·.2)).map (fun c => c * ((pool : ℚ) / total rows)) := by
    rw [map_map]
    refine map_congr_left fun row _ => ?_
    simp only [quota, Function.comp_apply, mul_div_assoc]
  rw [hmap, sum_map_mul_right, map_id']
  change total rows * ((pool : ℚ) / total rows) = pool
  field_simp

omit [LinearOrder κ] in
include hpos htotal in
theorem floorQuota_le (hrow : row ∈ rows) :
    (floorQuota (total rows) pool row.2 : ℚ) ≤ quota (total rows) pool row.2 := by
  refine Nat.floor_le ?_
  exact div_nonneg (mul_nonneg (hpos row hrow).le (Nat.cast_nonneg _)) htotal.le

omit [LinearOrder κ] in
include hpos htotal in
theorem sum_floorQuota_le :
    (rows.map fun row => floorQuota (total rows) pool row.2).sum ≤ pool := by
  have h : ((rows.map fun row => (floorQuota (total rows) pool row.2 : ℚ)).sum) ≤ pool := by
    rw [← sum_quota htotal]
    exact sum_le_sum fun row hrow => floorQuota_le hpos htotal hrow
  have hcast : ((rows.map fun row => floorQuota (total rows) pool row.2).sum : ℚ) =
      (rows.map fun row => (floorQuota (total rows) pool row.2 : ℚ)).sum := by
    rw [Nat.cast_list_sum, map_map]
    rfl
  rw [← hcast] at h
  exact_mod_cast h

omit [LinearOrder κ] in
include htotal in
/-- Fewer units are left over than there are keys. -/
theorem missing_lt_length : missing rows pool < rows.length := by
  have hne : rows ≠ [] := by
    rintro rfl
    exact lt_irrefl _ htotal
  have h : (pool : ℚ) < (rows.map fun row => (floorQuota (total rows) pool row.2 : ℚ) + 1).sum := by
    rw [← sum_quota htotal]
    exact sum_lt_sum_of_ne_nil hne _ _ fun row _ => Nat.lt_floor_add_one _
  have hcast : (rows.map fun row => (floorQuota (total rows) pool row.2 : ℚ) + 1).sum =
      (((rows.map fun row => floorQuota (total rows) pool row.2).sum + rows.length : ℕ) : ℚ) := by
    rw [sum_map_add, map_const', sum_replicate, Nat.cast_add, Nat.cast_list_sum, map_map]
    simp only [nsmul_eq_mul, mul_one]
    rfl
  rw [hcast] at h
  have h' : pool < (rows.map fun row => floorQuota (total rows) pool row.2).sum + rows.length := by
    exact_mod_cast h
  have hlen := length_pos_iff.2 hne
  unfold missing
  omega

end Rows

theorem bumped_perm_sublist (rows : List (κ × ℚ)) (pool : ℕ) :
    ∃ rest, (bumped rows pool ++ rest).Perm (rows.map (·.1)) := by
  refine ⟨((sortBy (remainderKey (total rows) pool) rows).drop (missing rows pool)).map (·.1), ?_⟩
  unfold bumped
  rw [← map_append, take_append_drop]
  exact sortBy_perm.map _

theorem length_bumped (htotal : 0 < total rows) :
    (bumped rows pool).length = missing rows pool := by
  unfold bumped
  rw [length_map, length_take, sortBy_perm.length_eq]
  exact min_eq_left (missing_lt_length htotal).le

/-- Each bumped key adds one unit. -/
theorem sum_bumps (hnodup : (rows.map (·.1)).Nodup) :
    (rows.map fun row => if row.1 ∈ bumped rows pool then 1 else 0).sum =
      (bumped rows pool).length := by
  obtain ⟨rest, hperm⟩ := bumped_perm_sublist rows pool
  have hsplit := hperm.nodup_iff.2 hnodup
  have hdisj := disjoint_of_nodup_append hsplit
  calc (rows.map fun row => if row.1 ∈ bumped rows pool then 1 else 0).sum
      = ((rows.map (·.1)).map fun k => if k ∈ bumped rows pool then 1 else 0).sum := by
        rw [map_map]
        rfl
    _ = ((bumped rows pool ++ rest).map fun k => if k ∈ bumped rows pool then 1 else 0).sum :=
        ((hperm.map _).sum_eq).symm
    _ = ((bumped rows pool).map fun _ => 1).sum + (rest.map fun _ => 0).sum := by
        rw [map_append, sum_append]
        congr 2
        · exact map_congr_left fun k hk => if_pos hk
        · exact map_congr_left fun k hk => if_neg fun hb => hdisj hb hk
    _ = (bumped rows pool).length := by simp

/-- A larger credit never gets less. -/
theorem part_mono (hnodup : (rows.map (·.1)).Nodup) (htotal : 0 < total rows) (hrow : row ∈ rows)
    (hrow' : row' ∈ rows) (hlt : row.2 < row'.2) :
    (floorQuota (total rows) pool row.2 + if row.1 ∈ bumped rows pool then 1 else 0) ≤
      floorQuota (total rows) pool row'.2 + if row'.1 ∈ bumped rows pool then 1 else 0 := by
  have hfloor : floorQuota (total rows) pool row.2 ≤ floorQuota (total rows) pool row'.2 := by
    refine Nat.floor_le_floor ?_
    unfold quota
    gcongr
  rcases hfloor.lt_or_eq with hless | hsame
  · split_ifs <;> omega
  -- of two equal floors the larger credit leaves the larger remainder
  have hbump : row.1 ∈ bumped rows pool → row'.1 ∈ bumped rows pool := by
    intro hmem
    obtain ⟨r, hr, hkey⟩ := mem_map.1 hmem
    obtain rfl := inj_on_of_nodup_map hnodup (mem_sortBy.1 (mem_of_mem_take hr)) hrow hkey
    refine mem_map_of_mem (mem_take_sortBy hr hrow' ?_)
    have hpool : (0 : ℚ) < pool := by
      rcases Nat.eq_zero_or_pos pool with rfl | hpos
      · simp [missing] at hr
      · exact_mod_cast hpos
    refine Prod.Lex.toLex_lt_toLex.2 (.inl ?_)
    simp only [hsame]
    gcongr
  split_ifs <;> simp_all

/-! ### The split -/

section

variable (h : allocate credits pool = some parts)

include h

theorem allocate_eq_some :
    0 < total (positives credits) ∧ parts = (positives credits).map fun row =>
      (row.1, floorQuota (total (positives credits)) pool row.2 +
        if row.1 ∈ bumped (positives credits) pool then 1 else 0) := by
  simp only [allocate] at h
  split_ifs at h with htotal
  cases h
  exact ⟨not_le.1 htotal, rfl⟩

/-- **The parts add up to the pool.** -/
theorem sum_allocate (hnodup : (credits.map (·.1)).Nodup) : (parts.map (·.2)).sum = pool := by
  obtain ⟨htotal, rfl⟩ := allocate_eq_some h
  have hpos : ∀ row ∈ positives credits, 0 < row.2 := fun row hrow => (mem_positives.1 hrow).2
  rw [map_map]
  simp only [Function.comp_def]
  rw [sum_map_add, sum_bumps (nodup_positives hnodup), length_bumped htotal]
  have hle : ((positives credits).map fun row =>
      floorQuota (total (positives credits)) pool row.2).sum ≤ pool :=
    sum_floorQuota_le hpos htotal
  unfold missing
  omega

/-- Exactly the keys of positive credit get a part, in order. -/
theorem keys_allocate : parts.map (·.1) = (positives credits).map (·.1) := by
  obtain ⟨-, rfl⟩ := allocate_eq_some h
  rw [map_map]
  rfl

/-- Each part is the floor of its exact share, or one more. -/
theorem value_allocate {k : κ} {v : ℕ} (hmem : (k, v) ∈ parts) : ∃ c, (k, c) ∈ credits ∧ 0 < c ∧
      (v = floorQuota (total (positives credits)) pool c ∨
        v = floorQuota (total (positives credits)) pool c + 1) := by
  obtain ⟨-, rfl⟩ := allocate_eq_some h
  obtain ⟨⟨k', c⟩, hrow, heq⟩ := mem_map.1 hmem
  obtain ⟨rfl, rfl⟩ := Prod.mk.injEq .. ▸ heq
  obtain ⟨hcred, hpos⟩ := mem_positives.1 hrow
  refine ⟨c, hcred, hpos, ?_⟩
  split
  · exact .inr rfl
  · exact .inl rfl

/-- The part of a key, from its credit. -/
theorem mem_allocate (hnodup : (credits.map (·.1)).Nodup)
    {k : κ} {c : ℚ} {v : ℕ} (hc : (k, c) ∈ credits) (hv : (k, v) ∈ parts) :
    (k, c) ∈ positives credits ∧ v = floorQuota (total (positives credits)) pool c +
      if k ∈ bumped (positives credits) pool then 1 else 0 := by
  obtain ⟨-, rfl⟩ := allocate_eq_some h
  obtain ⟨⟨_, _⟩, hrow, heq⟩ := mem_map.1 hv
  cases heq
  cases inj_on_of_nodup_map hnodup (mem_positives.1 hrow).1 hc rfl
  exact ⟨hrow, rfl⟩

end

/-! ### Splits over claims -/

open Tally

/-- A split of a pool over claims: each key gets the floor of the exact share of all its
claims, or one more when it has some claim. -/
def Split (pool : ℕ) (claims : List (κ × ℚ)) (part : κ → ℕ) : Prop :=
  ∀ k, part k = floorQuota (total claims) pool (share claims k) ∨
    0 < share claims k ∧ part k = floorQuota (total claims) pool (share claims k) + 1

variable {claims : List (κ × ℚ)}

theorem Split.of_perm {claims' : List (κ × ℚ)} {part : κ → ℕ} (hperm : claims.Perm claims')
    (h : Split pool claims part) : Split pool claims' part := by
  have htotal : total claims = total claims' := (hperm.map _).sum_eq
  intro k
  have hk := h k
  rwa [htotal, share_eq_of_perm hperm] at hk

theorem share_nonneg (h : ∀ c ∈ claims, 0 ≤ c.2) (k : κ) : 0 ≤ share claims k := by
  refine sum_nonneg fun x hx => ?_
  obtain ⟨c, hc, rfl⟩ := mem_map.1 hx
  exact h c (mem_of_mem_filter hc)

omit [LinearOrder κ] in
/-- Rows of zero do not count. -/
theorem sum_filter_pos {M : Type} [AddCommMonoid M] [LinearOrder M] {l : List (κ × M)}
    (h : ∀ row ∈ l, 0 ≤ row.2) : ((l.filter (0 < ·.2)).map (·.2)).sum = (l.map (·.2)).sum := by
  induction l with
  | nil => rfl
  | cons row l ih =>
    obtain ⟨hrow, hrest⟩ := forall_mem_cons.1 h
    rcases hrow.lt_or_eq with hpos | hzero
    · simp [hpos, ih hrest]
    · simp [← hzero, ih hrest]

theorem total_positives (h : ∀ c ∈ credits, 0 ≤ c.2) : total (positives credits) = total credits :=
  (sortBy_perm.map _).sum_eq.trans (sum_filter_pos h)

theorem total_positives_tally (h : ∀ c ∈ claims, 0 ≤ c.2) :
    total (positives (tally claims)) = total claims := by
  refine (total_positives fun c hc => ?_).trans sum_tally
  rw [(mem_tally.1 hc).2]
  exact share_nonneg h c.1

/-- **A split over tallied claims honours every claim.** -/
theorem split_allocate (hnonneg : ∀ c ∈ claims, 0 ≤ c.2)
    (h : allocate (tally claims) pool = some parts) : Split pool claims (share parts) := by
  intro k
  have hkeys := keys_allocate h
  have hnodup : (parts.map (·.1)).Nodup := hkeys ▸ nodup_positives nodup_tally
  rw [← total_positives_tally hnonneg]
  by_cases hk : k ∈ parts.map (·.1)
  · obtain ⟨⟨k, v⟩, hmem, rfl⟩ := mem_map.1 hk
    obtain ⟨c, hc, hpos, hv⟩ := value_allocate h hmem
    have hshare : c = share claims k := (mem_tally.1 hc).2
    rw [share_of_mem hnodup hmem, ← hshare]
    exact hv.imp_right fun hv => ⟨hpos, hv⟩
  · -- a key without a part has no credit
    have hzero : share claims k = 0 := by
      by_contra hne
      have hpos : 0 < share claims k := lt_of_le_of_ne (share_nonneg hnonneg k) (Ne.symm hne)
      have hclaim : k ∈ claims.map (·.1) := by
        by_contra hnot
        exact hne (share_eq_zero hnot)
      have hrow : (k, share claims k) ∈ positives (tally claims) :=
        mem_positives.2 ⟨mem_tally.2 ⟨hclaim, rfl⟩, hpos⟩
      exact hk (hkeys ▸ mem_map_of_mem hrow)
    rw [share_eq_zero hk, hzero]
    simp [floorQuota, quota]

end Apportion
