import Cacheon.Lib.Assoc
import Cacheon.Lib.Keyed
import Mathlib.Data.String.Basic

/-!
# JSON values

Canonical JSON data: no floating-point numbers, and objects as their members in order.  Writing
a value as canonical text and reading it back sorts the members of every object (`canonical`).
-/

/-- A JSON value. -/
inductive Json where
  | null
  | bool (b : Bool)
  | num (n : Int)
  | str (s : String)
  | arr (items : List Json)
  | obj (members : List (String × Json))

namespace Json

open List Keyed

mutual

/-- Decide equality of values. -/
def decEq : (a b : Json) → Decidable (a = b)
  | .null, b => match b with
    | .null => isTrue rfl
    | .bool _ | .num _ | .str _ | .arr _ | .obj _ => isFalse (fun h => nomatch h)
  | .bool x, b => match b with
    | .bool y => if h : x = y then isTrue (h ▸ rfl) else isFalse fun e => h (by cases e; rfl)
    | .null | .num _ | .str _ | .arr _ | .obj _ => isFalse (fun h => nomatch h)
  | .num x, b => match b with
    | .num y => if h : x = y then isTrue (h ▸ rfl) else isFalse fun e => h (by cases e; rfl)
    | .null | .bool _ | .str _ | .arr _ | .obj _ => isFalse (fun h => nomatch h)
  | .str x, b => match b with
    | .str y => if h : x = y then isTrue (h ▸ rfl) else isFalse fun e => h (by cases e; rfl)
    | .null | .bool _ | .num _ | .arr _ | .obj _ => isFalse (fun h => nomatch h)
  | .arr xs, b => match b with
    | .arr ys => match decEqItems xs ys with
      | isTrue h => isTrue (h ▸ rfl)
      | isFalse h => isFalse fun e => h (by cases e; rfl)
    | .null | .bool _ | .num _ | .str _ | .obj _ => isFalse (fun h => nomatch h)
  | .obj xs, b => match b with
    | .obj ys => match decEqMembers xs ys with
      | isTrue h => isTrue (h ▸ rfl)
      | isFalse h => isFalse fun e => h (by cases e; rfl)
    | .null | .bool _ | .num _ | .str _ | .arr _ => isFalse (fun h => nomatch h)

/-- Decide equality of arrays. -/
def decEqItems : (xs ys : List Json) → Decidable (xs = ys)
  | [], [] => isTrue rfl
  | [], _ :: _ => isFalse (fun h => nomatch h)
  | _ :: _, [] => isFalse (fun h => nomatch h)
  | x :: xs, y :: ys => match decEq x y, decEqItems xs ys with
    | isTrue hx, isTrue hxs => isTrue (hx ▸ hxs ▸ rfl)
    | isFalse hx, _ => isFalse fun e => hx (by cases e; rfl)
    | _, isFalse hxs => isFalse fun e => hxs (by cases e; rfl)

/-- Decide equality of objects. -/
def decEqMembers : (xs ys : List (String × Json)) → Decidable (xs = ys)
  | [], [] => isTrue rfl
  | [], _ :: _ => isFalse (fun h => nomatch h)
  | _ :: _, [] => isFalse (fun h => nomatch h)
  | (k, x) :: xs, (l, y) :: ys => match decEq x y, decEqMembers xs ys with
    | isTrue hx, isTrue hxs =>
      if hk : k = l then isTrue (hk ▸ hx ▸ hxs ▸ rfl) else isFalse fun e => hk (by cases e; rfl)
    | isFalse hx, _ => isFalse fun e => hx (by cases e; rfl)
    | _, isFalse hxs => isFalse fun e => hxs (by cases e; rfl)

end

instance : DecidableEq Json := decEq

/-- The members of an object, none for any other value. -/
def members : Json → Option (List (String × Json))
  | .obj members => some members
  | _ => none

/-- The items of an array, none for any other value. -/
def items : Json → Option (List Json)
  | .arr items => some items
  | _ => none

/-- The text of a string, none for any other value. -/
def text : Json → Option String
  | .str s => some s
  | _ => none

/-- The value of a nonnegative integer, none for any other value. -/
def natural : Json → Option Nat
  | .num n => if 0 ≤ n then some n.toNat else none
  | _ => none

@[simp] theorem natural_num_natCast (n : Nat) : natural (.num n) = some n := by
  simp [natural]

/-- A member of an object. -/
def get? (key : String) (v : Json) : Option Json :=
  v.members.bind fun members => (members.find? (·.1 = key)).map (·.2)

/-- A member of an object, null where there is none. -/
def member (key : String) (v : Json) : Json := (v.get? key).getD .null

/-- The object has exactly these members, each once. -/
def hasFields (fields : List String) (v : Json) : Prop :=
  ∃ members ∈ v.members, (members.map (·.1)).Perm fields

instance (fields : List String) : DecidablePred (hasFields fields) := fun v =>
  inferInstanceAs (Decidable (∃ members ∈ v.members, _))

/-! ### Canonical text -/

mutual

/-- The value read back from the canonical text of a value. -/
def canonical : Json → Json
  | .null => .null
  | .bool b => .bool b
  | .num n => .num n
  | .str s => .str s
  | .arr items => .arr (canonicalItems items)
  | .obj members => .obj (sortBy Prod.fst (canonicalMembers members))

/-- The items of an array. -/
def canonicalItems : List Json → List Json
  | [] => []
  | v :: items => v.canonical :: canonicalItems items

/-- The members of an object, before they are sorted. -/
def canonicalMembers : List (String × Json) → List (String × Json)
  | [] => []
  | (key, v) :: members => (key, v.canonical) :: canonicalMembers members

end

theorem items_eq_map (items : List Json) : canonicalItems items = items.map canonical := by
  induction items with
  | nil => rfl
  | cons v items ih => rw [canonicalItems, ih, map_cons]

theorem members_eq_map (members : List (String × Json)) :
    canonicalMembers members = members.map fun m => (m.1, m.2.canonical) := by
  induction members with
  | nil => rfl
  | cons m members ih => rw [canonicalMembers, ih, map_cons]

@[simp] theorem canonical_str (s : String) : (str s).canonical = str s := rfl

@[simp] theorem canonical_num (n : Int) : (num n).canonical = num n := rfl

@[simp] theorem canonical_null : null.canonical = null := rfl

@[simp] theorem canonical_arr (items : List Json) :
    (arr items).canonical = arr (items.map canonical) := by
  rw [canonical, items_eq_map]

theorem canonical_obj (members : List (String × Json)) : (obj members).canonical =
    obj (sortBy Prod.fst (members.map fun m => (m.1, m.2.canonical))) := by
  rw [canonical, members_eq_map]

variable {members : List (String × Json)} {key : String}

/-- Sorting by a key keeps the first entry of each key. -/
theorem find?_sortBy : (sortBy Prod.fst members).find? (·.1 = key) = members.find? (·.1 = key) := by
  rw [← head?_filter, ← head?_filter, filter_sortBy, sortBy_eq_self]
  refine pairwise_of_forall_mem_list fun a ha b hb => ?_
  have hkey := of_decide_eq_true (mem_filter.1 ha).2
  have hkey' := of_decide_eq_true (mem_filter.1 hb).2
  rw [hkey, hkey']

theorem get?_canonical (v : Json) (key : String) :
    v.canonical.get? key = (v.get? key).map canonical := by
  cases v with
  | obj members =>
    have hmap : (members.map fun m => (m.1, m.2.canonical)).find? (·.1 = key) =
        (members.find? (·.1 = key)).map fun m => (m.1, m.2.canonical) := List.find?_map ..
    simp only [canonical_obj, get?, Json.members, Option.bind_some, find?_sortBy, hmap,
      Option.map_map]
    rfl
  | arr items => rw [canonical_arr]; rfl
  | null | bool _ | num _ | str _ => rfl

theorem member_canonical (v : Json) (key : String) :
    v.canonical.member key = (v.member key).canonical := by
  rw [member, get?_canonical, member]
  cases v.get? key <;> rfl

variable {fields : List String} {v : Json}

theorem hasFields_canonical : v.canonical.hasFields fields ↔ v.hasFields fields := by
  cases v with
  | obj members =>
    have hkeys : ((sortBy Prod.fst
        (members.map fun m => (m.1, m.2.canonical))).map (·.1)).Perm (members.map (·.1)) := by
      have hperm : ((sortBy Prod.fst (members.map fun m => (m.1, m.2.canonical))).map
          (·.1)).Perm ((members.map fun m => (m.1, m.2.canonical)).map (·.1)) :=
        sortBy_perm.map _
      rwa [map_map] at hperm
    simp only [canonical_obj, hasFields, Json.members, Option.mem_def, Option.some.injEq,
      exists_eq_left', hkeys.congr_left]
  | arr items => rw [canonical_arr]; rfl
  | null | bool _ | num _ | str _ => rfl

mutual

/-- Reading the canonical text back a second time changes nothing. -/
theorem canonical_canonical : ∀ v : Json, v.canonical.canonical = v.canonical
  | .null | .bool _ | .num _ | .str _ => rfl
  | .arr items => by rw [canonical, canonical, canonicalItems_canonical items]
  | .obj members => by
    have hsort : ∀ l : List (String × Json), canonicalMembers (sortBy Prod.fst l) =
        sortBy Prod.fst (canonicalMembers l) := by
      intro l
      rw [members_eq_map, members_eq_map]
      exact map_sortBy fun _ => rfl
    rw [canonical, canonical, hsort, canonicalMembers_canonical members, sortBy_sortBy]

/-- The items of an array. -/
theorem canonicalItems_canonical : ∀ items : List Json,
    canonicalItems (canonicalItems items) = canonicalItems items
  | [] => rfl
  | v :: items => by
    rw [canonicalItems, canonicalItems, canonical_canonical v, canonicalItems_canonical items]

/-- The members of an object. -/
theorem canonicalMembers_canonical : ∀ members : List (String × Json),
    canonicalMembers (canonicalMembers members) = canonicalMembers members
  | [] => rfl
  | (_, v) :: members => by
    rw [canonicalMembers, canonicalMembers, canonical_canonical v,
      canonicalMembers_canonical members]

end

attribute [simp] canonical_canonical

/-! ### Values of one canonical form -/

@[simp] theorem canonical_eq_str {s : String} : v.canonical = str s ↔ v = str s := by
  cases v <;> simp [canonical]

@[simp] theorem canonical_eq_num {n : Int} : v.canonical = num n ↔ v = num n := by
  cases v <;> simp [canonical]

theorem canonical_eq_strings {l : List String} :
    v.canonical = (arr (l.map str)).canonical ↔ v = arr (l.map str) := by
  constructor
  · intro h
    cases v with
    | arr items =>
      simp only [canonical_arr, map_map, arr.injEq] at h ⊢
      induction items generalizing l with
      | nil => simpa using h
      | cons v items ih =>
        cases l with
        | nil => simp at h
        | cons s l =>
          simp only [map_cons, cons.injEq, Function.comp_apply, canonical_str,
            canonical_eq_str] at h ⊢
          exact ⟨h.1, ih h.2⟩
    | null | bool _ | num _ | str _ | obj _ => simp [canonical] at h
  · rintro rfl
    rfl

theorem member_of_mem {m : String × Json}
    (hnodup : (members.map (·.1)).Nodup) (hm : m ∈ members) : (obj members).member m.1 = m.2 := by
  have hfind : members.find? (·.1 = m.1) = some m := Assoc.find?_of_mem hnodup hm
  simp [member, get?, Json.members, hfind]

/-- Two objects with the same keys whose members agree have the same canonical members. -/
theorem map_canonical_perm {own members : List (String × Json)}
    (hown : (own.map (·.1)).Nodup) (hkeys : (own.map (·.1)).Perm (members.map (·.1)))
    (h : ∀ m ∈ members, ((obj own).member m.1).canonical = m.2.canonical) :
    (own.map fun m => (m.1, m.2.canonical)).Perm (members.map fun m => (m.1, m.2.canonical)) := by
  have hnodup : ∀ {l : List (String × Json)}, (l.map (·.1)).Nodup →
      (l.map fun m => (m.1, m.2.canonical)).Nodup := by
    intro l hl
    exact Nodup.of_map Prod.fst (by rwa [map_map])
  refine (perm_ext_iff_of_nodup (hnodup hown) (hnodup (hkeys.nodup_iff.1 hown))).2 ?_
  intro x
  constructor
  · intro hx
    obtain ⟨m, hm, rfl⟩ := mem_map.1 hx
    obtain ⟨m', hm', hkey⟩ := mem_map.1 (hkeys.subset (mem_map_of_mem hm))
    have hvalue := h m' hm'
    rw [hkey, member_of_mem hown hm] at hvalue
    exact mem_map.2 ⟨m', hm', by rw [hkey, hvalue]⟩
  · intro hx
    obtain ⟨m, hm, rfl⟩ := mem_map.1 hx
    obtain ⟨m', hm', hkey⟩ := mem_map.1 (hkeys.symm.subset (mem_map_of_mem hm))
    have hvalue := h m hm
    rw [← hkey, member_of_mem hown hm'] at hvalue
    exact mem_map.2 ⟨m', hm', by rw [hkey, hvalue]⟩

theorem get?_of_mem_fields (h : v.hasFields fields) (hkey : key ∈ fields) :
    v.get? key = some (v.member key) := by
  obtain ⟨members, hmems, hperm⟩ := h
  obtain ⟨m, hm, rfl⟩ := mem_map.1 (hperm.mem_iff.2 hkey)
  have hfound : (members.find? (·.1 = m.1)).isSome := find?_isSome.2 ⟨m, hm, by simp⟩
  obtain ⟨found, hfound⟩ := Option.isSome_iff_exists.1 hfound
  have hget : v.get? m.1 = some found.2 := by simp [get?, Option.mem_def.1 hmems, hfound]
  rw [member, hget, Option.getD_some]

theorem get?_of_not_mem (h : v.hasFields fields) (hkey : key ∉ fields) : v.get? key = none := by
  obtain ⟨members, hmems, hperm⟩ := h
  have hfind : members.find? (·.1 = key) = none := by
    refine List.find?_eq_none.2 fun m hm heq => hkey ?_
    rw [← of_decide_eq_true heq]
    exact hperm.mem_iff.1 (mem_map_of_mem hm)
  simp [get?, Option.mem_def.1 hmems, hfind]

/-- A value has the canonical form of an object exactly if it has its fields and their values. -/
theorem canonical_eq_obj_iff (hfields : members.map (·.1) = fields) (hnodup : fields.Nodup) :
    v.canonical = (obj members).canonical ↔ v.hasFields fields ∧
      ∀ m ∈ members, (v.member m.1).canonical = m.2.canonical := by
  subst hfields
  constructor
  · intro h
    refine ⟨?_, fun m hm => ?_⟩
    · rw [← hasFields_canonical, h, hasFields_canonical]
      exact ⟨members, rfl, .refl _⟩
    · rw [← member_canonical, h, member_canonical, member_of_mem hnodup hm]
  · rintro ⟨⟨own, hown, hkeys⟩, h⟩
    cases v with
    | obj own' =>
      cases hown
      have hperm := map_canonical_perm (hkeys.nodup_iff.2 hnodup) hkeys h
      rw [canonical_obj, canonical_obj]
      congr 1
      refine sortBy_eq_of_perm (fun a ha b hb hab => ?_) hperm
      refine inj_on_of_nodup_map (f := Prod.fst) ?_ ha hb hab
      rw [map_map]
      exact hkeys.nodup_iff.2 hnodup
    | null | bool _ | num _ | str _ | arr _ => cases hown

end Json
