import Mathlib.Data.List.Nodup
import Mathlib.Data.List.Perm.Basic

/-!
# Association lists

A dictionary as its items: with distinct keys, a lookup finds exactly the items that are there,
whatever their order.
-/

namespace Assoc

open List

section Lookup

variable {κ β : Type} [BEq κ] [LawfulBEq κ] {l l' : List (κ × β)} {k : κ} {v : β}

theorem mem_of_lookup (h : l.lookup k = some v) : (k, v) ∈ l := by
  obtain ⟨l₁, l₂, rfl, -⟩ := lookup_eq_some_iff.1 h
  simp

theorem lookup_eq_some (hnodup : (l.map (·.1)).Nodup) : l.lookup k = some v ↔ (k, v) ∈ l := by
  refine ⟨mem_of_lookup, fun h => ?_⟩
  obtain ⟨l₁, l₂, rfl⟩ := append_of_mem h
  rw [map_append, nodup_append] at hnodup
  refine lookup_eq_some_iff.2 ⟨l₁, l₂, rfl, fun p hp => bne_iff_ne.2 ?_⟩
  exact (hnodup.2.2 _ (mem_map_of_mem hp) k (.head _)).symm

theorem lookup_eq_none : l.lookup k = none ↔ k ∉ l.map (·.1) := by
  rw [lookup_eq_none_iff]
  simp only [bne_iff_ne, mem_map, not_exists, not_and]
  exact ⟨fun h x hx hk => h x hx hk.symm, fun h x hx hk => h x hx hk.symm⟩

theorem lookup_eq_of_perm (hnodup : (l.map (·.1)).Nodup) (h : l.Perm l') :
    l.lookup k = l'.lookup k := by
  have hnodup' : (l'.map (·.1)).Nodup := (h.map _).nodup_iff.1 hnodup
  refine Option.ext fun v => ?_
  rw [lookup_eq_some hnodup, lookup_eq_some hnodup', h.mem_iff]

end Lookup

variable {κ β : Type} [DecidableEq κ] {l l' : List (κ × β)} {k : κ} {v : β}

section Rows

variable {α : Type} {key : α → κ} {rows rows' : List α} {a : α}

/-- A row of a list with distinct keys is the one found under its key. -/
theorem find?_of_mem (hnodup : (rows.map key).Nodup) (ha : a ∈ rows) :
    rows.find? (key · = key a) = some a := by
  cases hfind : rows.find? (key · = key a) with
  | none => simpa using List.find?_eq_none.1 hfind a ha
  | some b =>
    have hb : key b = key a := by simpa using find?_some hfind
    rw [inj_on_of_nodup_map hnodup (mem_of_find?_eq_some hfind) ha hb]

theorem find?_eq_of_perm (hnodup : (rows.map key).Nodup) (h : rows.Perm rows') :
    rows.find? (key · = k) = rows'.find? (key · = k) := by
  cases hfind : rows.find? (key · = k) with
  | none =>
    refine (List.find?_eq_none.2 fun a ha => ?_).symm
    exact List.find?_eq_none.1 hfind a (h.mem_iff.2 ha)
  | some a =>
    have hk : key a = k := by simpa using find?_some hfind
    subst hk
    have ha : a ∈ rows' := h.mem_iff.1 (mem_of_find?_eq_some hfind)
    exact (find?_of_mem ((h.map key).nodup_iff.1 hnodup) ha).symm

end Rows

/-- Looking up every key gives every value. -/
theorem map_lookup (hnodup : (l.map (·.1)).Nodup) :
    (l.map (·.1)).map (fun k => l.lookup k) = l.map fun x => some x.2 := by
  rw [map_map]
  exact map_congr_left fun x hx => (lookup_eq_some hnodup).2 hx

/-- A dictionary given by a function of its keys. -/
theorem lookup_map_key {f : κ → β} {keys : List κ} (h : k ∈ keys) :
    (keys.map fun k => (k, f k)).lookup k = some (f k) := by
  induction keys with
  | nil => cases h
  | cons k' keys ih =>
    rw [map_cons, lookup_cons]
    by_cases hk : k = k'
    · subst hk
      simp
    · rw [beq_false_of_ne hk]
      exact ih ((mem_cons.1 h).resolve_left hk)

end Assoc
