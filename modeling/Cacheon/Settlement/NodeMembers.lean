import Cacheon.Lib.Keyed
import Cacheon.Lib.RelativePath
import Cacheon.Settlement.Candidate
import Mathlib.Data.Set.Pairwise.List

/-!
# Node members

A node address names a module of the served model with everything under it, a star standing for
any one segment of the name.  A contribution declares the modules it replaces this way.

* `requireNodeMembers` : the members of a manifest.
* `segmentsOverlap_iff` : two addresses overlap where a module lies under both.
* `nodeMembers_spec` : what the comparison and the check of members mean.
-/

namespace Cacheon

open Fallible RelativePath List Keyed

/-- Why the declared members are refused. -/
inductive NodeMembersFault where
  /-- Node addresses must sit under the roots. -/
  | outside (roots : List String) (member : String)
  /-- Two node addresses overlap; claim the wider node alone. -/
  | overlap (left right : String)
deriving DecidableEq

/-- The pairs of a list, an earlier element first. -/
def pairs {α : Type} : List α → List (α × α)
  | [] => []
  | a :: l => l.map (a, ·) ++ pairs l

/-- The member is a root or continues one behind a dot. -/
def sitsUnder (roots : List String) (member : String) : Prop :=
  ∃ root ∈ roots, member = root ∨ root.toList ++ ['.'] <+: member.toList

instance (roots : List String) : DecidablePred (sitsUnder roots) := fun _ => by
  unfold sitsUnder
  infer_instance

/-- Sorted distinct node addresses at or under the roots, none containing another. -/
def requireNodeMembers (declared roots : List String) : Except NodeMembersFault (List String) := do
  let members := sortBy id declared.dedup
  forM members fun member =>
    check (isNodeAddress member ∧ sitsUnder roots member) (.outside roots member)
  forM (pairs members) fun pair =>
    check (membersOverlap [pair.1] [pair.2] = false) (.overlap pair.1 pair.2)
  .ok members

/-! ### What an address covers -/

/-- A name at or under an address. -/
def Covers : List (List Char) → List (List Char) → Prop
  | [], _ => True
  | _ :: _, [] => False
  | a :: address, c :: name => (a = c ∨ a = ['*']) ∧ Covers address name

/-- A segment that is no star. -/
def IsConcrete (c : List Char) : Prop := isSegment c ∧ c ≠ ['*']

/-- The name lies at or under the address. -/
def AtOrUnder (name address : String) : Prop := Covers (segments address) (segments name)

/-- A module's name: an address of any length without a star. -/
def IsModule (name : String) : Prop := ∀ segment ∈ segments name, IsConcrete segment

variable {left right : List (List Char)}

/-- A star may stand for this segment. -/
theorem exists_segment {s : List Char} (h : isSegment s) :
    ∃ c, IsConcrete c ∧ (s = c ∨ s = ['*']) := by
  by_cases hstar : s = ['*']
  · exact ⟨['a'], ⟨by decide, by decide⟩, .inr hstar⟩
  · exact ⟨s, ⟨h, hstar⟩, .inl rfl⟩

theorem exists_covers (h : ∀ s ∈ left, isSegment s) :
    ∃ name, (∀ c ∈ name, IsConcrete c) ∧ Covers left name := by
  induction left with
  | nil => exact ⟨[], by simp, trivial⟩
  | cons a left ih =>
    obtain ⟨ha, hleft⟩ := forall_mem_cons.1 h
    obtain ⟨c, hc, hac⟩ := exists_segment ha
    obtain ⟨name, hname, hcovers⟩ := ih hleft
    exact ⟨c :: name, forall_mem_cons.2 ⟨hc, hname⟩, hac, hcovers⟩

/-- Two addresses overlap where some module lies at or under both. -/
theorem segmentsOverlap_iff (hleft : ∀ s ∈ left, isSegment s) (hright : ∀ s ∈ right, isSegment s) :
    segmentsOverlap left right ↔
      ∃ name, (∀ c ∈ name, IsConcrete c) ∧ Covers left name ∧ Covers right name := by
  -- The comparison stops with the shorter address; the name goes on with the longer one.
  induction left generalizing right with
  | nil =>
    exact iff_of_true (by simp [segmentsOverlap])
      ((exists_covers hright).imp fun _ h => ⟨h.1, trivial, h.2⟩)
  | cons a left ih =>
    cases right with
    | nil =>
      exact iff_of_true (by simp [segmentsOverlap])
        ((exists_covers hleft).imp fun _ h => ⟨h.1, h.2, trivial⟩)
    | cons b right =>
      obtain ⟨ha, hleft⟩ := forall_mem_cons.1 hleft
      obtain ⟨hb, hright⟩ := forall_mem_cons.1 hright
      simp only [segmentsOverlap, Bool.and_eq_true, Bool.or_eq_true, decide_eq_true_eq,
        ih hleft hright]
      constructor
      · rintro ⟨hab, name, hname, hcl, hcr⟩
        obtain ⟨c, hc, hac, hbc⟩ :
            ∃ c, IsConcrete c ∧ (a = c ∨ a = ['*']) ∧ (b = c ∨ b = ['*']) := by
          rcases hab with (rfl | rfl) | rfl
          · exact (exists_segment ha).imp fun _ h => ⟨h.1, h.2, h.2⟩
          · exact (exists_segment hb).imp fun _ h => ⟨h.1, .inr rfl, h.2⟩
          · exact (exists_segment ha).imp fun _ h => ⟨h.1, h.2, .inr rfl⟩
        exact ⟨c :: name, forall_mem_cons.2 ⟨hc, hname⟩, ⟨hac, hcl⟩, hbc, hcr⟩
      · rintro ⟨_ | ⟨c, name⟩, hname, hcl, hcr⟩
        · exact hcl.elim
        · refine ⟨?_, name, (forall_mem_cons.1 hname).2, hcl.2, hcr.2⟩
          grind [Covers]

/-! ### Texts and their segments -/

theorem splitDots_eq (l : List Char) : splitDots l = l.splitOn '.' := by
  induction l with
  | nil => rfl
  | cons c l ih =>
    rw [splitDots, splitOn_cons_eq_if_modifyHead, ih]
    cases hsplit : l.splitOn '.' <;> simp_all

theorem not_mem_of_isSegment {s : List Char} (h : isSegment s) : '.' ∉ s := by
  simp only [isSegment, Bool.or_eq_true, decide_eq_true_eq, Bool.and_eq_true, all_eq_true] at h
  rcases h with rfl | h
  · decide
  · intro hdot
    exact absurd (h.2 '.' hdot) (by decide)

/-- Star-free segments are those of a module. -/
theorem exists_module {name : List (List Char)} (hne : name ≠ [])
    (h : ∀ c ∈ name, IsConcrete c) : ∃ text, IsModule text ∧ segments text = name := by
  have hsegs : segments (String.ofList (['.'].intercalate name)) = name := by
    rw [segments, String.toList_ofList, splitDots_eq, splitOn_intercalate '.'
      (fun c hc => not_mem_of_isSegment (h c hc).1) hne]
  exact ⟨_, fun c hc => h c (hsegs ▸ hc), hsegs⟩

theorem isSegment_of_address {member : String} (h : isNodeAddress member) :
    ∀ s ∈ segments member, isSegment s :=
  all_eq_true.1 (Bool.and_eq_true_iff.1 h).2

/-- Two member sets overlap if and only if some module lies at or under a member of each. -/
theorem membersOverlap_iff {left right : List String} (hleft : ∀ x ∈ left, isNodeAddress x)
    (hright : ∀ y ∈ right, isNodeAddress y) : membersOverlap left right ↔
      ∃ name, IsModule name ∧ (∃ x ∈ left, AtOrUnder name x) ∧ ∃ y ∈ right, AtOrUnder name y := by
  simp only [membersOverlap, any_eq_true]
  constructor
  · rintro ⟨x, hx, y, hy, h⟩
    obtain ⟨name, hname, hcx, hcy⟩ := (segmentsOverlap_iff (isSegment_of_address (hleft x hx))
      (isSegment_of_address (hright y hy))).1 h
    have hne : name ≠ [] := by
      rintro rfl
      cases hsplit : segments x with
      | nil => exact splitOn_ne_nil _ _ ((splitDots_eq _).symm.trans hsplit)
      | cons a rest => rwa [hsplit] at hcx
    obtain ⟨text, htext, rfl⟩ := exists_module hne hname
    exact ⟨text, htext, ⟨x, hx, hcx⟩, y, hy, hcy⟩
  · rintro ⟨name, hname, ⟨x, hx, hcx⟩, y, hy, hcy⟩
    exact ⟨x, hx, y, hy, (segmentsOverlap_iff (isSegment_of_address (hleft x hx))
      (isSegment_of_address (hright y hy))).2 ⟨_, hname, hcx, hcy⟩⟩

/-- An address without a star covers what it is a prefix of. -/
theorem covers_iff_prefix {address name : List (List Char)} (h : ['*'] ∉ address) :
    Covers address name ↔ address <+: name := by
  induction address generalizing name with
  | nil => simp [Covers]
  | cons a address ih =>
    obtain ⟨ha, hrest⟩ := not_or.1 (mt mem_cons.2 h)
    cases name with
    | nil => simp [Covers]
    | cons c name => simp [Covers, ih hrest, cons_prefix_cons, Ne.symm ha]

/-- A text is another or continues it behind a dot where its segments continue the other's. -/
theorem segments_prefix_iff {root member : String} : segments root <+: segments member ↔
    member = root ∨ root.toList ++ ['.'] <+: member.toList := by
  simp only [segments, splitDots_eq, ← String.toList_inj]
  constructor
  · rintro ⟨rest, hrest⟩
    have hjoin : ['.'].intercalate (member.toList.splitOn '.') = member.toList :=
      intercalate_splitOn '.'
    by_cases hnil : rest = []
    · rw [← hjoin, ← hrest, hnil, append_nil, intercalate_splitOn]
      exact .inl rfl
    · -- What follows the root is the rest joined again, since both have the same segments.
      refine .inr ⟨['.'].intercalate rest, ?_⟩
      rw [← hjoin, ← hrest, ← splitOn_intercalate '.' (fun s hs => not_mem_of_mem_splitOn
        (hrest ▸ mem_append_right _ hs)) hnil, ← splitOn_append_cons_self]
      simp [intercalate_splitOn]
  · rintro (h | ⟨rest, h⟩)
    · rw [h]
    · rw [← h, append_assoc, singleton_append, splitOn_append_cons_self]
      exact prefix_append _ _

theorem sitsUnder_iff {roots : List String} {member : String}
    (hroots : ∀ root ∈ roots, ['*'] ∉ segments root) :
    sitsUnder roots member ↔ ∃ root ∈ roots, AtOrUnder member root := by
  refine exists_congr fun root => and_congr_right fun hroot => ?_
  rw [AtOrUnder, covers_iff_prefix (hroots root hroot), segments_prefix_iff]

/-! ### The members of a manifest -/

theorem forall_mem_pairs {α : Type} {l : List α} {P : α → α → Prop} :
    (∀ p ∈ pairs l, P p.1 p.2) ↔ l.Pairwise P := by
  induction l with
  | nil => simp [pairs]
  | cons a l ih => rw [pairs, forall_mem_append, forall_mem_map, ih, pairwise_cons]

/-- No module is claimed by both. -/
def Apart (x y : String) : Prop := ¬∃ name, IsModule name ∧ AtOrUnder name x ∧ AtOrUnder name y

instance : Std.Symm Apart := ⟨fun _ _ h ⟨name, hname, hy, hx⟩ => h ⟨name, hname, hx, hy⟩⟩

theorem forall_pairs_iff {l : List String} (hnodup : l.Nodup) (hl : ∀ x ∈ l, isNodeAddress x) :
    (∀ p ∈ pairs l, membersOverlap [p.1] [p.2] = false) ↔ {x | x ∈ l}.Pairwise Apart := by
  rw [forall_mem_pairs (P := fun x y => membersOverlap [x] [y] = false), Nodup.pairwise_coe hnodup]
  refine Pairwise.iff_of_mem fun {x y} hx hy => ?_
  have hiff : membersOverlap [x] [y] = true ↔ _ :=
    membersOverlap_iff (by simpa using hl x hx) (by simpa using hl y hy)
  rw [← Bool.not_eq_true, hiff]
  simp [Apart]

/-- **Members overlap where they claim a common module**, and a manifest's members are accepted if
and only if each is an address at or under a root and no module is claimed by two of them. -/
theorem nodeMembers_spec :
    (∀ left right : List String, (∀ x ∈ left, isNodeAddress x) → (∀ y ∈ right, isNodeAddress y) →
      (membersOverlap left right ↔ ∃ name, IsModule name ∧ (∃ x ∈ left, AtOrUnder name x) ∧
        ∃ y ∈ right, AtOrUnder name y)) ∧
    ∀ declared roots members : List String, (∀ root ∈ roots, ['*'] ∉ segments root) →
      (requireNodeMembers declared roots = .ok members ↔
        (∀ x ∈ declared, isNodeAddress x ∧ ∃ root ∈ roots, AtOrUnder x root) ∧
        (∀ x ∈ declared, ∀ y ∈ declared, x ≠ y →
          ¬∃ name, IsModule name ∧ AtOrUnder name x ∧ AtOrUnder name y) ∧
        sortBy id declared.dedup = members) := by
  refine ⟨fun _ _ => membersOverlap_iff, fun declared roots members hroots => ?_⟩
  have hnodup : (sortBy id declared.dedup).Nodup := sortBy_perm.nodup_iff.2 declared.nodup_dedup
  have hmem : ∀ x, x ∈ sortBy id declared.dedup ↔ x ∈ declared := by simp
  simp only [requireNodeMembers, bind_ok, exists_forM, check_ok, Except.ok.injEq,
    sitsUnder_iff hroots, ← hmem]
  exact and_congr_right fun hl => and_congr_left fun _ =>
    forall_pairs_iff hnodup fun x hx => (hl x hx).1

/-- A template and a member under one of its modules overlap. -/
theorem nodeMembers_spec_layers : ∃ name, IsModule name ∧
    (∃ x ∈ ["model.layers.*"], AtOrUnder name x) ∧
      ∃ y ∈ ["model.layers.0.attn"], AtOrUnder name y :=
  (nodeMembers_spec.1 _ _ (by decide) (by decide)).1 (by decide)

end Cacheon
