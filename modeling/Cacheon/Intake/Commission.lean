import Cacheon.Intake.Leases

/-!
# The commission boundary

An operator commissions an incumbent, and the work that holds no evidence yet is bound to it, one
reservation after the other.  A reservation of a retry group takes over the segment that the
others of its group have in the commissioned arena, whatever stack that segment names.

* `Store.bind_spec`, `Store.rebindRow_spec` : what one binding writes, group included.
* `Store.BoundTo` : the segment of a reservation names the commissioned stack and tree.
* `Store.CommissionFits` : the first reservation of each group that is to be rebound finds no
  segment of another stack in the commissioned arena.
* `Store.commissionBoundary_iff` : after the boundary all unmeasured work is bound to the
  commission if and only if the commission fits.
-/

namespace Cacheon

open Fallible IntakeFault List Option Table

namespace Store

variable {K : IntakeHashes} {p : Permit} {s s₁ s' : Store K} {id k arena : Digest}
  {row r : IntakeReservation} {state : EvaluationStackState} {reason : String}

/-! ### One binding -/

/-- The segment a reservation has in an arena. -/
def segmentIn (s : Store K) (arena id : Digest) : Option BaselineSegment :=
  (s.segments.find? id).filter (·.arenaDigest = arena)

theorem segmentIn_eq_some {b : BaselineSegment} : s.segmentIn arena id = some b ↔
      s.segments.find? id = some b ∧ b.arenaDigest = arena := by
  simp [segmentIn, filter_eq_some_iff]

theorem groupSegment_spec {grouped : Bool} {ids : List Digest} {state' : EvaluationStackState}
    (h : s.groupSegment grouped ids state = .ok state') :
    (grouped = true → ∀ id ∈ ids, ∀ b, s.segments.find? id = some b →
      b.toEvaluationStackState = state') ∧
    (state' = state ∨ ∃ id ∈ ids, ∃ b, s.segments.find? id = some b ∧
      b.toEvaluationStackState = state') := by
  unfold groupSegment at h
  split at h
  · next hsingle =>
    cases h
    exact ⟨fun hgrouped => by simp [hgrouped] at hsingle, .inl rfl⟩
  · -- The rows that the group has already.
    have hmem (b : BaselineSegment) : b ∈ s.segments.rows.filter (·.reservationId ∈ ids) ↔
          b.reservationId ∈ ids ∧ s.segments.find? b.reservationId = some b := by
      simp only [mem_filter, decide_eq_true_eq, find?_eq_some, and_true]
      exact and_comm
    split at h
    · next hnone =>
      cases h
      refine ⟨fun _ id hid b hb => ?_, .inl rfl⟩
      have hkey := (find?_eq_some.1 hb).2
      rw [map_eq_nil_iff] at hnone
      have hrow := (hmem b).2 ⟨hkey ▸ hid, hkey ▸ hb⟩
      rw [hnone] at hrow
      cases hrow
    · next _ rest hrows =>
      simp only [bind_ok, exists_check] at h
      obtain ⟨hsame, h⟩ := h
      cases h
      constructor
      · intro _ id hid b hb
        have hkey := (find?_eq_some.1 hb).2
        have hlisted := List.mem_map_of_mem (f := (·.toEvaluationStackState))
          ((hmem b).2 ⟨hkey ▸ hid, hkey ▸ hb⟩)
        rw [hrows] at hlisted
        rcases mem_cons.1 hlisted with heq | hrest
        · exact heq
        · exact hsame _ hrest
      · have hfirst : state' ∈ (s.segments.rows.filter (·.reservationId ∈ ids)).map
            (·.toEvaluationStackState) := hrows ▸ mem_cons_self
        obtain ⟨b, hb, heq⟩ := List.mem_map.1 hfirst
        obtain ⟨hid, hfind⟩ := (hmem b).1 hb
        exact .inr ⟨_, hid, b, hfind, heq⟩

/-- A binding keeps the segments that the group has in the stack's arena, and gives the others
of the group one more segment of one and the same stack. -/
theorem bind_spec (h : s.bindReservationBaselineSegment id state reason = .ok s') :
    ∃ row state', s.reservations.find? id = some row ∧ s' = s.withSegments s'.segments ∧
      (∀ k ∉ s.retryGroup row, s'.segments.find? k = s.segments.find? k) ∧
      (∀ k ∈ s.retryGroup row, ∃ b, s'.segments.find? k = some b ∧
        (s.segmentIn state.arenaDigest k = some b ∨
          s.segmentIn state.arenaDigest k = none ∧ b.toEvaluationStackState = state')) ∧
      (row.retryGroupDigest.isSome → ∀ k ∈ s.retryGroup row,
        ∀ b ∈ s.segmentIn state.arenaDigest k, b.toEvaluationStackState = state') ∧
      (state' = state ∨ ∃ k ∈ s.retryGroup row, ∃ b ∈ s.segmentIn state.arenaDigest k,
        b.toEvaluationStackState = state') := by
  simp only [bindReservationBaselineSegment, bind_ok, exists_check, get_ok] at h
  obtain ⟨-, row, hrow, -, reason', -, state', hstate, h⟩ := h
  cases h
  have hkept (k : Digest) (hk : k ∈ s.retryGroup row) : (s.segments.filter fun b =>
        ¬(b.reservationId ∈ s.retryGroup row ∧ b.arenaDigest ≠ state.arenaDigest)).find? k =
        s.segmentIn state.arenaDigest k :=
    find?_filter fun b hkey => by simp [hkey, hk]
  have hfind (k : Digest) : ((s.retryGroup row).foldl (fun t id => (t.insert
      { state' with reservationId := id, bindingReason := reason' }).getD t)
      (s.segments.filter fun b =>
        ¬(b.reservationId ∈ s.retryGroup row ∧ b.arenaDigest ≠ state.arenaDigest))).find? k = _ :=
    find?_insertMissing (fun _ => rfl) _
  obtain ⟨hgrp, hsrc⟩ := groupSegment_spec hstate
  refine ⟨row, state', hrow, rfl, fun k hk => (hfind k).trans ?_, fun k hk => ?_, ?_, ?_⟩
  · rw [if_neg hk, or_none]
    exact find?_filter_self fun b hkey => by simp [hkey, hk]
  · cases hin : s.segmentIn state.arenaDigest k with
    | some b =>
      refine ⟨b, (hfind k).trans ?_, .inl rfl⟩
      rw [hkept k hk, hin]
      rfl
    | none =>
      refine ⟨{ state' with reservationId := k, bindingReason := reason' }, (hfind k).trans ?_,
        .inr ⟨rfl, rfl⟩⟩
      rw [hkept k hk, hin, if_pos hk]
      rfl
  · intro hgrouped k hk b hb
    exact hgrp hgrouped k hk b ((hkept k hk).trans hb)
  · refine hsrc.imp_right ?_
    rintro ⟨k, hk, b, hb, heq⟩
    exact ⟨k, hk, b, (hkept k hk).symm.trans hb, heq⟩

/-! ### Rebinding one reservation -/

variable {incumbent : EvaluationStackManifest} {tree : Digest} {rows : List IntakeReservation}

/-- The stack is the commissioned one, by its digest and its tree. -/
def Commissioned (K : IntakeHashes) (incumbent : EvaluationStackManifest) (tree : Digest)
    (state : EvaluationStackState) : Prop :=
  K.manifest state.manifest = K.manifest incumbent ∧ state.treeDigest = tree

instance (state : EvaluationStackState) : Decidable (Commissioned K incumbent tree state) := by
  unfold Commissioned
  infer_instance

/-- The segment of a reservation names the commissioned stack and tree. -/
def BoundTo (s : Store K) (incumbent : EvaluationStackManifest) (tree id : Digest) : Prop :=
  ∃ b ∈ s.segments.find? id, Commissioned K incumbent tree b.toEvaluationStackState

instance (id : Digest) : Decidable (s.BoundTo incumbent tree id) := by
  unfold BoundTo
  infer_instance

theorem commissioned_stack :
    Commissioned K incumbent tree (commissionedStack K incumbent tree) := ⟨rfl, rfl⟩

theorem mem_retry_self : r.reservationId K ∈ s.retryGroup r := by
  unfold retryGroup
  split <;> simp

/-- Only a reservation of a group is bound together with others. -/
theorem isSome_of_mem_retry (hk : k ∈ s.retryGroup r) (hne : k ≠ r.reservationId K) :
    r.retryGroupDigest.isSome := by
  unfold retryGroup at hk
  split at hk
  · exact absurd (mem_singleton.1 hk) hne
  · next hgrp => simp [hgrp]

theorem segmentIn_unbound :
    (s.withSegments (s.segments.filter (·.reservationId ≠ id))).segmentIn arena k =
      if k = id then none else s.segmentIn arena k := by
  unfold segmentIn
  show Option.filter _ ((s.segments.filter (·.reservationId ≠ id)).find? k) = _
  rw [find?_filter (q := fun _ => k ≠ id) fun b hkey => by simp [hkey]]
  by_cases hk : k = id <;> simp [hk]

/-- A binding that was written for a reservation and its group: all of them name one stack, and
it is the commissioned one unless another of the group had a segment in its arena. -/
structure Rebound (s s' : Store K) (incumbent : EvaluationStackManifest) (tree : Digest)
    (r : IntakeReservation) (state : EvaluationStackState) : Prop where
  frame : s' = s.withSegments s'.segments
  others : ∀ k ∉ s.retryGroup r, s'.segments.find? k = s.segments.find? k
  group : ∀ k ∈ s.retryGroup r, ∃ b, s'.segments.find? k = some b ∧ b.toEvaluationStackState = state
  kept : ∀ k ∈ s.retryGroup r, k ≠ r.reservationId K →
    ∀ b ∈ s.segmentIn incumbent.arenaDigest k, b.toEvaluationStackState = state
  source : state = commissionedStack K incumbent tree ∨
    ∃ k ∈ s.retryGroup r, k ≠ r.reservationId K ∧
      ∃ b ∈ s.segmentIn incumbent.arenaDigest k, b.toEvaluationStackState = state

theorem rebindRow_spec (hr : s.reservations.find? (r.reservationId K) = some r)
    (h : s.rebindRow incumbent tree r = .ok s') :
    s.BoundTo incumbent tree (r.reservationId K) ∧ s' = s ∨
      ¬ s.BoundTo incumbent tree (r.reservationId K) ∧
        ∃ state, Rebound s s' incumbent tree r state := by
  simp only [rebindRow, bind_ok] at h
  obtain ⟨prior, hprior, h⟩ := h
  have hbound : (prior.any fun p => K.manifest p.manifest = K.manifest incumbent ∧
      p.treeDigest = tree) = true ↔ s.BoundTo incumbent tree (r.reservationId K) := by
    unfold reservationBaselineSegment reopenStack at hprior
    unfold BoundTo Commissioned
    cases hb : s.segments.find? (r.reservationId K) with
    | none =>
      rw [hb] at hprior
      cases hprior
      simp
    | some b =>
      simp only [hb, check] at hprior
      split_ifs at hprior
      · cases hprior
        simp
      · cases hprior
  split at h
  · next hmatch =>
    cases h
    exact .inl ⟨hbound.1 hmatch, rfl⟩
  · next hmatch =>
    refine .inr ⟨fun hb => hmatch (hbound.2 hb), ?_⟩
    obtain ⟨row, state, hrow, hframe, hoth, hgrp, hkept, hsrc⟩ := bind_spec h
    obtain rfl : r = row := mem_unique hr hrow
    have hseg {k : Digest} {b : BaselineSegment} (hb : b ∈ (s.withSegments
        (s.segments.filter (·.reservationId ≠ r.reservationId K))).segmentIn
          (commissionedStack K incumbent tree).arenaDigest k) :
        k ≠ r.reservationId K ∧ b ∈ s.segmentIn incumbent.arenaDigest k := by
      rw [segmentIn_unbound, mem_def] at hb
      split_ifs at hb with hk
      exact ⟨hk, hb⟩
    refine ⟨state, ⟨hframe, fun k hk => (hoth k hk).trans ?_, fun k hk => ?_, ?_, ?_⟩⟩
    · -- Outside of the group is also outside of the one segment that was taken away.
      have hne : k ≠ r.reservationId K := fun heq => hk (heq ▸ mem_retry_self)
      exact find?_filter_self fun b hkey => by simp [hkey, hne]
    · obtain ⟨b, hb, hin | ⟨-, hstate⟩⟩ := hgrp k hk
      · have hgrouped := isSome_of_mem_retry hk (hseg hin).1
        exact ⟨b, hb, hkept hgrouped k hk b hin⟩
      · exact ⟨b, hb, hstate⟩
    · intro k hk hne b hb
      refine hkept (isSome_of_mem_retry hk hne) k hk b ?_
      rw [segmentIn_unbound, if_neg hne]
      exact hb
    · refine hsrc.imp_right ?_
      rintro ⟨k, hk, b, hb, hstate⟩
      obtain ⟨hne, hb⟩ := hseg hb
      exact ⟨k, hk, hne, b, hb, hstate⟩

/-! ### Retry groups -/

theorem mem_retryGroup : k ∈ s.retryGroup r ↔ k = r.reservationId K ∨
    r.retryGroupDigest.isSome ∧ ∃ mate ∈ s.reservations.rows, mate.reservationId K = k ∧
      mate.status = .published ∧ mate.retryGroupDigest = r.retryGroupDigest := by
  unfold retryGroup
  split
  · next hgrp => simp [hgrp]
  · next group hgrp =>
    simp only [hgrp, mem_cons, mem_filter, List.mem_map, Keyed.mem_sortBy,
      decide_eq_true_eq, isSome_some, true_and]
    constructor
    · rintro (hk | ⟨⟨mate, ⟨hmate, hstat, hmates⟩, hk⟩, -⟩)
      · exact .inl hk
      · exact .inr ⟨mate, hmate, hk, hstat, hmates⟩
    · rintro (hk | ⟨mate, hmate, hk, hstat, hmates⟩)
      · exact .inl hk
      · by_cases hself : k = r.reservationId K
        · exact .inl hself
        · exact .inr ⟨⟨mate, ⟨hmate, hstat, hmates⟩, hk⟩, hself⟩

/-- The groups of some reservations are the same or have nothing in common. -/
def Partitioned (s : Store K) (rows : List IntakeReservation) : Prop :=
  ∀ r ∈ rows, ∀ r' ∈ rows, if r'.reservationId K ∈ s.retryGroup r then
    ∀ k, k ∈ s.retryGroup r' ↔ k ∈ s.retryGroup r
  else ∀ k ∈ s.retryGroup r', k ∉ s.retryGroup r

/-- Work that can be rebound is published when it is in a group. -/
theorem published_of_rebindable (hm : s.Marked) (hr : r ∈ s.reservations.rows)
    (hrebindable : s.Rebindable r) (hgrp : r.retryGroupDigest.isSome) :
    r.status = .published := by
  have hmark := hm _ r (find?_of_mem hr)
  have hpast := hmark.2.1 (hmark.2.2 hgrp)
  have hstat := hrebindable.1
  revert hpast hstat
  cases r.status <;> decide

theorem partitioned_rebindable (hm : s.Marked)
    (hrows : ∀ r ∈ rows, r ∈ s.reservations.rows ∧ s.Rebindable r) : s.Partitioned rows := by
  intro r hr r' hr'
  obtain ⟨hr, hrebindable⟩ := hrows r hr
  obtain ⟨hr', hrebindable'⟩ := hrows r' hr'
  have hpub := published_of_rebindable hm hr hrebindable
  have hpub' := published_of_rebindable hm hr' hrebindable'
  split_ifs with hmem
  · rcases mem_retryGroup.1 hmem with hself | ⟨hgrp, mate, hmate, hkey, -, hsame⟩
    · rw [eq_of_key hr' hr hself]
      exact fun _ => Iff.rfl
    · obtain rfl := eq_of_key hmate hr' hkey
      intro k
      -- Both are in the group they share, so the group has the same members for both.
      rw [mem_retryGroup, mem_retryGroup, hsame]
      constructor
      · rintro (rfl | hk)
        · exact .inr ⟨hgrp, mate, hmate, rfl, hpub' (hsame ▸ hgrp), hsame⟩
        · exact .inr hk
      · rintro (rfl | hk)
        · exact .inr ⟨hgrp, r, hr, rfl, hpub hgrp, rfl⟩
        · exact .inr hk
  · intro k hk' hk
    refine hmem (mem_retryGroup.2 ?_)
    rcases mem_retryGroup.1 hk' with rfl | ⟨hgrp', mate', hmate', rfl, -, hsame'⟩
    · rcases mem_retryGroup.1 hk with hself | hk
      · exact .inl hself
      · exact .inr hk
    · rcases mem_retryGroup.1 hk with hself | ⟨hgrp, mate, hmate, hkey, -, hsame⟩
      · obtain rfl := eq_of_key hmate' hr hself
        exact .inr ⟨hsame' ▸ hgrp', r', hr', rfl, hpub' hgrp', hsame'.symm⟩
      · obtain rfl := eq_of_key hmate hmate' hkey
        exact .inr ⟨hgrp, r', hr', rfl, hpub' hgrp', hsame'.symm.trans hsame⟩

/-! ### The walk over the work to rebind -/

/-- Rebind some reservations, one after the other. -/
def rebindRows (s : Store K) (incumbent : EvaluationStackManifest) (tree : Digest)
    (rows : List IntakeReservation) : Intake (Store K) :=
  rows.foldlM (fun s r => s.rebindRow incumbent tree r) s

/-- The reservations of the walk are the stored ones. -/
def Stored (s : Store K) (rows : List IntakeReservation) : Prop :=
  ∀ r ∈ rows, s.reservations.find? (r.reservationId K) = some r

theorem rebindRow_frame (hr : s.reservations.find? (r.reservationId K) = some r)
    (h : s.rebindRow incumbent tree r = .ok s') : ∃ t, s' = s.withSegments t := by
  rcases rebindRow_spec hr h with ⟨-, rfl⟩ | ⟨-, _, hreb⟩
  · exact ⟨s'.segments, rfl⟩
  · exact ⟨_, hreb.frame⟩

/-- What the step of the walk keeps is kept by the walk: the step may use that the reservations
are stored, and the groups are those of the start. -/
theorem rebindRows_induction {I : Store K → Prop} (hstor : s.Stored rows) (hs : I s)
    (hstep : ∀ s₁ s₂ : Store K, ∀ r ∈ rows, (∃ t, s₁ = s.withSegments t) →
      s₁.reservations.find? (r.reservationId K) = some r → I s₁ →
      s₁.rebindRow incumbent tree r = .ok s₂ → I s₂)
    (h : s.rebindRows incumbent tree rows = .ok s') : I s' ∧ ∃ t, s' = s.withSegments t := by
  suffices hwalk : ∀ (rest : List IntakeReservation) (s₁ : Store K), (∀ r ∈ rest, r ∈ rows) →
      (∃ t, s₁ = s.withSegments t) → I s₁ → s₁.rebindRows incumbent tree rest = .ok s' →
      I s' ∧ ∃ t, s' = s.withSegments t by
    exact hwalk rows s (fun _ h => h) ⟨s.segments, rfl⟩ hs h
  intro rest
  induction rest with
  | nil =>
    intro s₁ _ hframe hI h
    cases h
    exact ⟨hI, hframe⟩
  | cons r rest ih =>
    rintro s₁ hrest ⟨t, rfl⟩ hI h
    simp only [rebindRows, foldlM_cons, bind_ok] at h
    obtain ⟨s₂, h₂, h⟩ := h
    have hr := hrest r mem_cons_self
    have hfind : (s.withSegments t).reservations.find? (r.reservationId K) = some r :=
      hstor r hr
    obtain ⟨t₂, ht₂⟩ := rebindRow_frame hfind h₂
    exact ih s₂ (fun r' hr' => hrest r' (.tail _ hr')) ⟨t₂, ht₂⟩
      (hstep _ s₂ r hr ⟨t, rfl⟩ hfind hI h₂) h

section Group

variable {rows : List IntakeReservation} (hstor : s.Stored rows) {group : List Digest}

include hstor

/-- A group whose reservations in the walk are bound already is left alone. -/
theorem rebindRows_untouched
    (hgrp : ∀ r ∈ rows, r.reservationId K ∉ group → ∀ k ∈ s.retryGroup r, k ∉ group)
    (hbound : ∀ r ∈ rows, r.reservationId K ∈ group → s.BoundTo incumbent tree (r.reservationId K))
    (h : s.rebindRows incumbent tree rows = .ok s') :
    ∀ k ∈ group, s'.segments.find? k = s.segments.find? k := by
  refine (rebindRows_induction (I := fun s₁ => ∀ k ∈ group, s₁.segments.find? k =
    s.segments.find? k) hstor (fun _ _ => rfl) ?_ h).1
  rintro _ s₂ r hr ⟨t, rfl⟩ hfind hsame hstep k hk
  rcases rebindRow_spec hfind hstep with ⟨-, rfl⟩ | ⟨hnot, _, hreb⟩
  · exact hsame k hk
  · by_cases hin : r.reservationId K ∈ group
    · refine absurd ?_ hnot
      obtain ⟨b, hb, hmatch⟩ := hbound r hr hin
      exact ⟨b, (hsame _ hin).trans hb, hmatch⟩
    · have hout : k ∉ s.retryGroup r := fun hmem => hgrp r hr hin k hmem hk
      exact (hreb.others k hout).trans (hsame k hk)

/-- A group that agrees on a stack of the commissioned arena keeps agreeing on it. -/
theorem rebindRows_uniform (hgrp : ∀ r ∈ rows, if r.reservationId K ∈ group then
      ∀ k, k ∈ s.retryGroup r ↔ k ∈ group else ∀ k ∈ s.retryGroup r, k ∉ group)
    (harena : state.arenaDigest = incumbent.arenaDigest) (htwo : ∀ k ∈ group, ∃ k' ∈ group, k' ≠ k)
    (huniform : ∀ k ∈ group, ∃ b, s.segments.find? k = some b ∧
      b.toEvaluationStackState = state) (h : s.rebindRows incumbent tree rows = .ok s') :
    ∀ k ∈ group, ∃ b, s'.segments.find? k = some b ∧ b.toEvaluationStackState = state := by
  refine (rebindRows_induction (I := fun s₁ => ∀ k ∈ group, ∃ b,
    s₁.segments.find? k = some b ∧ b.toEvaluationStackState = state) hstor huniform
    ?_ h).1
  rintro _ s₂ r hr ⟨t, rfl⟩ hfind huniform hstep k hk
  rcases rebindRow_spec hfind hstep with ⟨-, rfl⟩ | ⟨-, state', hreb⟩
  · exact huniform k hk
  · have hr' := hgrp r hr
    split_ifs at hr' with hin
    · -- Another of the group still has the segment, and the binding takes it over.
      obtain ⟨k', hk', hne⟩ := htwo _ hin
      obtain ⟨b, hb, hstate⟩ := huniform k' hk'
      have hseg : b ∈ (s.withSegments t).segmentIn incumbent.arenaDigest k' :=
        segmentIn_eq_some.2 ⟨hb, (congrArg (·.arenaDigest) hstate).trans harena⟩
      have hsame := hreb.kept k' ((hr' k').2 hk') hne b hseg
      rw [← hstate, hsame]
      exact hreb.group k ((hr' k).2 hk)
    · obtain ⟨b, hb, hstate⟩ := huniform k hk
      exact ⟨b, (hreb.others k fun hmem => hr' k hmem hk).trans hb, hstate⟩

end Group

/-- The first reservation of each group that is to be rebound finds no segment of another stack
in the commissioned arena. -/
def CommissionFits (s : Store K) (incumbent : EvaluationStackManifest) (tree : Digest)
    (rows : List IntakeReservation) : Prop :=
  ∀ earlier r later, rows = earlier ++ r :: later → ¬ s.BoundTo incumbent tree (r.reservationId K) →
    (∀ r' ∈ earlier, r'.reservationId K ∈ s.retryGroup r →
      s.BoundTo incumbent tree (r'.reservationId K)) →
    ∀ k ∈ s.retryGroup r, k ≠ r.reservationId K → ∀ b ∈ s.segmentIn incumbent.arenaDigest k,
        Commissioned K incumbent tree b.toEvaluationStackState

/-- The reservations after one either are of its group or have nothing to do with it. -/
theorem Partitioned.later {earlier later : List IntakeReservation}
    (hpart : s.Partitioned (earlier ++ r :: later)) :
    ∀ r' ∈ later, if r'.reservationId K ∈ s.retryGroup r then
      ∀ k, k ∈ s.retryGroup r' ↔ k ∈ s.retryGroup r
    else ∀ k ∈ s.retryGroup r', k ∉ s.retryGroup r :=
  fun r' hr' => hpart r (by simp) r' (by simp [hr'])

theorem Stored.later {earlier later : List IntakeReservation}
    (hstor : s.Stored (earlier ++ r :: later)) : s.Stored later :=
  fun r' hr' => hstor r' (by simp [hr'])

section Split

variable {earlier later : List IntakeReservation} (hstor : s.Stored (earlier ++ r :: later))
  (hpart : s.Partitioned (earlier ++ r :: later))
  (hfree : ¬ s.BoundTo incumbent tree (r.reservationId K))
  (hbound : ∀ r' ∈ earlier, r'.reservationId K ∈ s.retryGroup r →
    s.BoundTo incumbent tree (r'.reservationId K))
  (h : s.rebindRows incumbent tree (earlier ++ r :: later) = .ok s')

include hstor hpart hfree hbound h

/-- Where the walk comes to the first reservation of a group that is not bound: the group gets
one stack, and nothing before has touched it. -/
theorem rebindRows_first : ∃ t state, (s.withSegments t).rebindRows incumbent tree later = .ok s' ∧
      (∀ k ∈ s.retryGroup r, ∃ b, t.find? k = some b ∧ b.toEvaluationStackState = state) ∧
      (∀ k ∈ s.retryGroup r, k ≠ r.reservationId K →
        ∀ b ∈ s.segmentIn incumbent.arenaDigest k, b.toEvaluationStackState = state) ∧
      (state = commissionedStack K incumbent tree ∨ ∃ k ∈ s.retryGroup r, k ≠ r.reservationId K ∧
          ∃ b ∈ s.segmentIn incumbent.arenaDigest k, b.toEvaluationStackState = state) := by
  simp only [rebindRows, foldlM_append, foldlM_cons, bind_ok] at h
  obtain ⟨s₁, h₁, s₂, h₂, h⟩ := h
  have hr : r ∈ earlier ++ r :: later := by simp
  have hearly : s.Stored earlier := fun r' hr' => hstor r' (mem_append_left _ hr')
  obtain ⟨-, t₁, rfl⟩ := rebindRows_induction (I := fun _ => True) hearly trivial
    (fun _ _ _ _ _ _ _ _ => trivial) h₁
  have hsame : ∀ k ∈ s.retryGroup r, t₁.find? k = s.segments.find? k := by
    refine rebindRows_untouched hearly (fun r' hr' hout => ?_) hbound h₁
    have hgroups := hpart r hr r' (mem_append_left _ hr')
    rwa [if_neg hout] at hgroups
  have hseg {k : Digest} (hk : k ∈ s.retryGroup r) :
      (s.withSegments t₁).segmentIn incumbent.arenaDigest k =
        s.segmentIn incumbent.arenaDigest k := by
    exact congrArg _ (hsame k hk)
  have hfind : (s.withSegments t₁).reservations.find? (r.reservationId K) = some r :=
    hstor r hr
  rcases rebindRow_spec hfind h₂ with ⟨hbound₁, -⟩ | ⟨-, state, hreb⟩
  · refine absurd ?_ hfree
    obtain ⟨b, hb, hmatch⟩ := hbound₁
    exact ⟨b, (hsame _ mem_retry_self).symm.trans hb, hmatch⟩
  · have hframe := hreb.frame
    refine ⟨s₂.segments, state, ?_, hreb.group, fun k hk hne b hb => ?_, ?_⟩
    · rw [hframe] at h
      exact h
    · exact hreb.kept k hk hne b ((hseg hk).trans hb)
    · refine hreb.source.imp_right ?_
      rintro ⟨k, hk, hne, b, hb, hstate⟩
      exact ⟨k, hk, hne, b, (hseg hk).symm.trans hb, hstate⟩

/-- A group that fits is bound to the commission from then on. -/
theorem bound_of_fits (hfits : ∀ k ∈ s.retryGroup r, k ≠ r.reservationId K →
      ∀ b ∈ s.segmentIn incumbent.arenaDigest k,
        Commissioned K incumbent tree b.toEvaluationStackState) :
    ∀ k ∈ s.retryGroup r, s'.BoundTo incumbent tree k := by
  obtain ⟨t, state, hlater, hgrp, -, hsrc⟩ := rebindRows_first hstor hpart hfree hbound h
  have hcommissioned : Commissioned K incumbent tree state := by
    rcases hsrc with rfl | ⟨k, hk, hne, b, hb, rfl⟩
    · exact commissioned_stack
    · exact hfits k hk hne b hb
  have hall : ∀ k ∈ s.retryGroup r, (s.withSegments t).BoundTo incumbent tree k := by
    intro k hk
    obtain ⟨b, hb, rfl⟩ := hgrp k hk
    exact ⟨b, hb, hcommissioned⟩
  have huntouched : ∀ k ∈ s.retryGroup r,
      s'.segments.find? k = (s.withSegments t).segments.find? k := by
    refine rebindRows_untouched (s := s.withSegments t) hstor.later
      (fun r' hr' hout => ?_) (fun r' _ hin => hall _ hin) hlater
    have hgroups := hpart.later r' hr'
    rwa [if_neg hout] at hgroups
  intro k hk
  obtain ⟨b, hb, hmatch⟩ := hall k hk
  exact ⟨b, (huntouched k hk).trans hb, hmatch⟩

/-- A group with a segment of another stack in the commissioned arena ends on that stack. -/
theorem not_bound_of_mate {b : BaselineSegment} (hk : k ∈ s.retryGroup r)
    (hne : k ≠ r.reservationId K) (hb : b ∈ s.segmentIn incumbent.arenaDigest k)
    (hother : ¬ Commissioned K incumbent tree b.toEvaluationStackState) :
    ¬ s'.BoundTo incumbent tree (r.reservationId K) := by
  obtain ⟨t, state, hlater, hgrp, hkept, -⟩ := rebindRows_first hstor hpart hfree hbound h
  have hstate := hkept k hk hne b hb
  have harena : state.arenaDigest = incumbent.arenaDigest := by
    rw [← hstate]
    exact (segmentIn_eq_some.1 hb).2
  -- The reservation and its mate are two of the group, so one of them always has the segment.
  have htwo : ∀ k₁ ∈ s.retryGroup r, ∃ k₂ ∈ s.retryGroup r, k₂ ≠ k₁ := by
    intro k₁ _
    by_cases hk₁ : k₁ = k
    · exact ⟨_, mem_retry_self, fun heq => hne (hk₁ ▸ heq).symm⟩
    · exact ⟨k, hk, Ne.symm hk₁⟩
  obtain ⟨b', hb', hstate'⟩ := rebindRows_uniform (s := s.withSegments t)
    hstor.later hpart.later harena htwo hgrp hlater _ mem_retry_self
  rintro ⟨b₁, hb₁, hmatch⟩
  rw [hb', mem_def, some_inj] at hb₁
  rw [← hb₁, hstate', ← hstate] at hmatch
  exact hother hmatch

end Split

/-- **The walk over the work to rebind** binds all of it to the commission if and only if the
commission fits. -/
theorem rebindRows_iff (hstor : s.Stored rows) (hpart : s.Partitioned rows)
    (h : s.rebindRows incumbent tree rows = .ok s') :
    (∀ r ∈ rows, s'.BoundTo incumbent tree (r.reservationId K)) ↔
      s.CommissionFits incumbent tree rows := by
  constructor
  · rintro hall earlier r later rfl hfree hbound k hk hne b hb
    by_contra hother
    exact not_bound_of_mate hstor hpart hfree hbound h hk hne hb hother (hall r (by simp))
  · intro hfits r₀ hr₀
    by_cases hsome : ∃ r ∈ rows, r.reservationId K ∈ s.retryGroup r₀ ∧
        ¬ s.BoundTo incumbent tree (r.reservationId K)
    · -- Take the first of the group that is not bound.
      obtain ⟨r, hr⟩ : ∃ r, rows.find? (fun r => decide (r.reservationId K ∈ s.retryGroup r₀ ∧
          ¬ s.BoundTo incumbent tree (r.reservationId K))) = some r := by
        rw [← isSome_iff_exists, find?_isSome]
        simpa using hsome
      obtain ⟨hfirst, earlier, later, rfl, hbef⟩ := find?_eq_some_iff_append.1 hr
      obtain ⟨hin, hfree⟩ := of_decide_eq_true hfirst
      have hgroups := hpart r₀ hr₀ r (by simp)
      rw [if_pos hin] at hgroups
      have hbound : ∀ r' ∈ earlier, r'.reservationId K ∈ s.retryGroup r →
          s.BoundTo incumbent tree (r'.reservationId K) := by
        intro r' hr' hin'
        by_contra hfree'
        have hnot := hbef r' hr'
        rw [decide_eq_true ⟨(hgroups _).1 hin', hfree'⟩] at hnot
        cases hnot
      exact bound_of_fits hstor hpart hfree hbound h
        (hfits earlier r later rfl hfree hbound) _ ((hgroups _).2 mem_retry_self)
    · have hbound : ∀ r ∈ rows, r.reservationId K ∈ s.retryGroup r₀ →
          s.BoundTo incumbent tree (r.reservationId K) := by
        intro r hr hin
        by_contra hfree
        exact hsome ⟨r, hr, hin, hfree⟩
      have hapart : ∀ r ∈ rows, r.reservationId K ∉ s.retryGroup r₀ →
          ∀ k ∈ s.retryGroup r, k ∉ s.retryGroup r₀ := by
        intro r hr hout
        have hgroups := hpart r₀ hr₀ r hr
        rwa [if_neg hout] at hgroups
      have hsame := rebindRows_untouched hstor hapart hbound h _ mem_retry_self
      obtain ⟨b, hb, hmatch⟩ := hbound r₀ hr₀ mem_retry_self
      exact ⟨b, hsame.trans hb, hmatch⟩

/-! ### Retained runs are decided -/

/-- A reservation with a retained run is decided. -/
def Judged (s : Store K) : Prop :=
  ∀ id, s.retained id ≠ [] →
    ∃ r, s.reservations.find? id = some r ∧ r.status ∈ [.qualified, .failed]

theorem Judged.step (hp : p.passes = false) (hstep : StoreStep p s s') (h : s.Judged) :
    s'.Judged := by
  intro id hid
  have hret : s'.retained id = s.retained id := by
    unfold retained
    rw [hstep.qualifications hp]
  obtain ⟨r, hr, hstat⟩ := h id (hret ▸ hid)
  obtain ⟨r', hr', hrow⟩ := hstep.kept id r hr
  exact ⟨r', hr', hrow.decided hstat⟩

section Outcome

variable {batch : QualificationIntakeBatch K}
  {o : QualificationIntakeOutcome K} {root : Option String} {block : ℕ}

/-- A retry plan is of the undecided runs. -/
theorem retryOf_eq_none (ho : o ∈ batch.outcomes) (hd : o.decision ≠ .noDecision) :
    retryOf batch o.reservationDigest = none := by
  by_contra hsome
  simp only [retryOf, bind_eq_none_iff, map_eq_none_iff, not_forall] at hsome
  obtain ⟨plan, hplan, hgrp⟩ := hsome
  obtain ⟨group, hfind⟩ := ne_none_iff_exists'.1 hgrp
  have hmem : o.reservationDigest ∈ group.1 := by simpa using find?_some hfind
  have hgroups : group.1 ∈ plan.reservationGroups := by
    have hindexed := mem_of_find?_eq_some hfind
    exact fst_mem_of_mem_zipIdx hindexed
  have hflat : o.reservationDigest ∈
      (batch.outcomes.filter (·.decision = .noDecision)).map (·.reservationDigest) := by
    rw [← batch.retried, hplan]
    exact mem_flatten.2 ⟨_, hgroups, hmem⟩
  obtain ⟨o', ho', hid⟩ := List.mem_map.1 hflat
  obtain ⟨ho', hd'⟩ := mem_filter.1 ho'
  -- Every reservation has one outcome in the batch.
  obtain rfl := inj_on_of_nodup_map batch.distinct ho' ho hid
  exact hd (of_decide_eq_true hd')

theorem retained_retainOutcome {ref : Option EvidenceArtifactRef} {ev : Option Digest}
    (h : s.retainOutcome batch row o ref ev root block = .ok s') :
    s'.retained id = s.retained id ∨
      id = o.reservationDigest ∧ o.settlementQualification.isSome := by
  obtain ⟨-, rfl⟩ | ⟨q, _, _, t, hq, -, -, hret, h⟩ := retainOutcome_cases h
  · exact .inl rfl
  · obtain ⟨_, _, -, -, -, -, -, rfl⟩ := insertCandidate_spec h
    by_cases hid : id = o.reservationDigest
    · exact .inr ⟨hid, by simp [hq]⟩
    · refine .inl ((hret id).trans ?_)
      rw [if_neg (Ne.symm hid), append_nil]

theorem Judged.applyOutcome (ho : o ∈ batch.outcomes)
    (happly : applyOutcome batch block root s o = .ok s') (h : s.Judged) : s'.Judged := by
  simp only [Store.applyOutcome, bind_ok, exists_check] at happly
  obtain ⟨row, hrow, hstat, s₂, h₂, happly⟩ := happly
  have hqueue : s₂.queue = s.queue := (retainOutcome_frame h₂).1.trans rfl
  have hrow₂ : s₂.reservations.find? o.reservationDigest = some row := by
    rw [hqueue]
    exact get_iff.1 hrow
  obtain ⟨hself, hoth⟩ := find?_updateReservation happly hrow₂
  obtain rfl := updateReservations_eq happly
  intro id hid
  have hsame : s₂.retained id = s.retained id ∨
      id = o.reservationDigest ∧ o.settlementQualification.isSome :=
    (retained_retainOutcome h₂).imp_left fun h => h.trans rfl
  by_cases heq : id = o.reservationDigest
  · -- Before the run was retained the reservation was being qualified, so it had none.
    subst heq
    have hqual : o.settlementQualification.isSome := by
      rcases hsame with hsame | ⟨-, hsome⟩
      · obtain ⟨r, hr, hdec⟩ := h _ (hsame ▸ hid)
        rw [get_iff.1 hrow, some_inj] at hr
        rw [← hr, hstat.1] at hdec
        exact absurd hdec (by decide)
      · exact hsome
    obtain ⟨q, hq⟩ := isSome_iff_exists.1 hqual
    have hpass : o.decision = .pass := ((batch.wellFormed o ho).2.2.2.2 q hq).1
    refine ⟨_, hself, ?_⟩
    rw [retryOf_eq_none ho (by rw [hpass]; decide)]
    simp [verdict, hpass, IntakeReservation.withWork]
  · have hret : s.retained id ≠ [] := by
      rcases hsame with hsame | ⟨hid', -⟩
      · exact hsame ▸ hid
      · exact absurd hid' heq
    obtain ⟨r, hr, hdec⟩ := h id hret
    exact ⟨r, (hoth id heq).trans (hqueue ▸ hr), hdec⟩

end Outcome

theorem Judged.acceptRetainedPass (haccept : s.acceptRetainedPass row = .ok s')
    (h : s.Judged) : s'.Judged := by
  obtain ⟨_, _, s₁, -, -, -, h₁, h₂⟩ := acceptRetainedPass_ok haccept
  obtain ⟨_, _, -, -, -, -, -, rfl⟩ := insertCandidate_spec h₁
  obtain rfl := updateReservations_eq h₂
  intro id hid
  obtain ⟨r, hr, hdec⟩ := h id hid
  by_cases heq : id = row.reservationId K
  · refine ⟨_, find?_mapReservations.trans ((congrArg _ hr).trans rfl), ?_⟩
    simp only [if_pos ((find?_eq_some.1 hr).2.trans heq)]
    exact mem_cons_self
  · exact ⟨r, find?_mapReservations.trans ((map_of_key_ne heq).trans hr), hdec⟩

theorem judged_run (policy : IntakePolicy) (recov : Bool) (ops : List (Op K)) :
    ((init K policy recov).run ops).Judged := by
  refine run_invariant (fun _ hid => absurd rfl hid) fun s op hs => ?_
  exact step_of_passes (fun _ _ _ hp hstep h => h.step hp hstep)
    (fun _ _ _ _ _ _ ho happly h => h.applyOutcome ho happly)
    (fun _ _ _ haccept h => h.acceptRetainedPass haccept) hs op

/-- **Nothing is evaluated twice at once, or after its PASS.**  A reservation is in one active
lease at most, waits there as it was claimed, and has no retained PASS. -/
theorem leased_unjudged (policy : IntakePolicy) (recov : Bool) (ops : List (Op K)) :
    let s := (init K policy recov).run ops
    (∀ l ∈ s.leases.rows, ∀ l' ∈ s.leases.rows, l.state = .active →
      l'.state = .active → ∀ id ∈ l.reservationIds, id ∈ l'.reservationIds → l = l') ∧
    (∀ l ∈ s.leases.rows, l.state = .active → ∀ m ∈ l.members,
      (s.reservations.find? m.1).map (·.status) = some m.2) ∧
    ∀ id, s.leased id = true → s.retained id = [] := by
  have hs := leasesHold_run (K := K) policy recov ops
  have hfree (id : Digest) : id ∉ ((init K policy recov).run ops).authority := by simp [idle_run]
  refine ⟨fun l hl l' hl' hact hact' id hid hid' => ?_,
    fun l hl hact m hm => hs.unchanged l hl hact m hm (hfree m.1), fun id hleased => ?_⟩
  · exact eq_of_key hl hl' (hs.exclusive l hl l' hl' hact hact' id hid hid')
  obtain ⟨r, hr, hstat⟩ := hs.status hleased (hfree id)
  -- A retained run has decided its row, and this one still waits.
  by_contra hret
  obtain ⟨r', hr', hdec⟩ := judged_run policy recov ops id hret
  obtain rfl := mem_unique hr hr'
  rcases mem_pair.1 hstat with h | h <;> simp [h] at hdec

/-! ### Segments have a stack -/

/-- Every segment is in an arena that has a stack. -/
def Anchored (s : Store K) : Prop :=
  ∀ id b, s.core.segments.find? id = some b → s.core.arenas b.arenaDigest = true

theorem Anchored.bind (hstack : s.core.arenas state.arenaDigest = true)
    (h : s.bindReservationBaselineSegment id state reason = .ok s') (hs : s.Anchored) :
    s'.Anchored ∧ s'.core.arenas = s.core.arenas := by
  obtain ⟨row, state', -, hframe, hoth, hgrp, -, hsrc⟩ := bind_spec h
  have harenas : s'.core.arenas = s.core.arenas := by rw [hframe]; rfl
  refine ⟨fun k b hb => ?_, harenas⟩
  rw [harenas]
  have hold {k : Digest} {b : BaselineSegment} (hb : s.segmentIn state.arenaDigest k = some b) :
      s.core.arenas b.arenaDigest = true := hs k b (segmentIn_eq_some.1 hb).1
  by_cases hk : k ∈ s.retryGroup row
  · obtain ⟨b', hb', hin | ⟨-, hstate⟩⟩ := hgrp k hk
    all_goals obtain rfl : b' = b := mem_unique hb' hb
    · exact hold hin
    · -- The stack that was bound is the given one, or one of the group had it.
      rcases hsrc with rfl | ⟨_, -, b'', hb'', hstate'⟩
      · rw [show b'.arenaDigest = state'.arenaDigest from congrArg (·.arenaDigest) hstate]
        exact hstack
      · rw [show b'.arenaDigest = b''.arenaDigest from
          congrArg (·.arenaDigest) (hstate.trans hstate'.symm)]
        exact hold hb''
  · exact hs k b ((hoth k hk).symm.trans hb)

theorem Anchored.congr (hs : s.Anchored) (hsegs : s'.core.segments = s.core.segments)
    (harenas : s'.core.arenas = s.core.arenas) : s'.Anchored := by
  intro id b hb
  rw [harenas]
  exact hs id b (hsegs ▸ hb)

theorem Anchored.onLeases (hs : s.Anchored) (h : OnLeases s s') : s'.Anchored := by
  refine hs.congr h.segments ?_
  unfold core
  simp only [h.ledger]

theorem Move.anchored (h : Move p s s') (hs : s.Anchored) : s'.Anchored := by
  cases h with
  | aside h => exact hs.congr (congrArg Core.segments h) (congrArg Core.arenas h)
  | charge _ h =>
    exact hs.congr ((congrArg Core.segments h).trans rfl) ((congrArg Core.arenas h).trans rfl)
  | commission h =>
    intro id b hb
    rw [congrArg Core.arenas h]
    simp [hs id b ((congrArg (·.segments.find? id) h).symm.trans hb)]
  | rows h =>
    rw [updateReservations_eq h]
    exact hs
  | reserve h =>
    obtain ⟨rows, -, rfl⟩ := insertReservation_spec h
    exact hs
  | finalize => exact hs
  | bind _ hstack h => exact (hs.bind hstack h).1
  | unbind =>
    intro k b hb
    have hfind := (find?_filter fun _ _ => decide_eq_true_iff.symm).symm.trans hb
    exact hs k b (eq_some_of_filter_eq_some hfind)
  | bindQueue hstack h =>
    refine (foldlM_invariant (I := fun s' => s'.Anchored ∧ s'.core.arenas = s.core.arenas) h
      ⟨hs, rfl⟩ fun s₁ _ s₂ _ hbind hs₁ => ?_).1
    obtain ⟨hs₂, harenas⟩ := hs₁.1.bind (hs₁.2 ▸ hstack) hbind
    exact ⟨hs₂, harenas.trans hs₁.2⟩
  | claim _ _ _ h => exact hs.onLeases (openLease_onLeases h)
  | expire _ _ _ _ h => exact hs.onLeases (endLease_onLeases h)
  | recover _ _ _ h _ => exact hs.onLeases (transition_onLeases h)
  | release _ h => exact hs.onLeases (releaseRecovery_onLeases h)
  | authorize => exact hs
  | complete _ _ _ _ h =>
    exact Anchored.onLeases (s := { s with authority := [] }) hs (completeLease_onLeases h)
  | reopen => exact hs

theorem anchored_run (policy : IntakePolicy) (recov : Bool) (ops : List (Op K)) :
    ((init K policy recov).run ops).Anchored := by
  refine run_invariant (fun _ _ hb => by cases hb) fun s op hs => ?_
  exact (s.step_spec op).moves.invariant hs fun _ _ hs h => h.anchored hs

/-! ### Installing the stack -/

/-- A decided reservation is in nobody's group. -/
theorem not_retried_of_decided (hr : r ∈ s.reservations.rows)
    (hopen : r.status ∉ [.qualified, .failed]) (hrow : s.reservations.find? k = some row)
    (hdec : row.status ∈ [.qualified, .failed]) : k ∉ s.retryGroup r := by
  obtain ⟨hmem, rfl⟩ := find?_eq_some.1 hrow
  intro hk
  rcases mem_retryGroup.1 hk with hself | ⟨-, mate, hmate, hkey, hpub, -⟩
  · rw [eq_of_key hmem hr hself] at hdec
    exact hopen hdec
  · rw [← eq_of_key hmate hmem hkey, hpub] at hdec
    exact absurd hdec (by decide)

/-- All segments of the stack's arena are of the stack. -/
def OnlyStack (s : Store K) (state : EvaluationStackState) : Prop :=
  ∀ k, ∀ b ∈ s.segmentIn state.arenaDigest k, b.toEvaluationStackState = state

theorem OnlyStack.bind (h : s.bindReservationBaselineSegment id state reason = .ok s')
    (hs : s.OnlyStack state) : s'.OnlyStack state := by
  obtain ⟨row, state', -, -, hoth, hgrp, -, hsrc⟩ := bind_spec h
  have hstate' : state' = state := by
    rcases hsrc with hsame | ⟨k, -, b, hb, hstate⟩
    · exact hsame
    · exact hstate.symm.trans (hs k b hb)
  intro k b hb
  by_cases hk : k ∈ s.retryGroup row
  · obtain ⟨b', hb', hin | ⟨-, hstate⟩⟩ := hgrp k hk
    all_goals obtain rfl : b' = b := some_inj.1 (hb'.symm.trans (segmentIn_eq_some.1 hb).1)
    · exact hs k b' hin
    · exact hstate.trans hstate'
  · refine hs k b ?_
    unfold segmentIn at hb ⊢
    rwa [hoth k hk] at hb

/-- What the boundary reads of the queue, and does not change. -/
structure SameWork (s s' : Store K) : Prop where
  reservations : s'.reservations = s.reservations
  leases : s'.leases = s.leases
  selectedArena : s'.selectedArena = s.selectedArena
  qualifications : s'.qualifications = s.qualifications

theorem SameWork.rebindable (h : SameWork s s') : s'.Rebindable r ↔ s.Rebindable r := by
  unfold Rebindable leased retained
  rw [h.leases, h.selectedArena, h.qualifications]

theorem SameWork.retryGroup (h : SameWork s s') : s'.retryGroup r = s.retryGroup r := by
  unfold Store.retryGroup
  rw [h.reservations]

/-- The store once the stack of the commission is installed. -/
structure Installed (s s₁ : Store K) (incumbent : EvaluationStackManifest) (tree : Digest) :
    Prop where
  same : SameWork s s₁
  decided : ∀ k row, s.reservations.find? k = some row → row.status ∈ [.qualified, .failed] →
      s₁.segments.find? k = s.segments.find? k
  segments : s₁.segments = s.segments ∨ s.core.arenas incumbent.arenaDigest = false ∧
      (s.Anchored → s₁.OnlyStack (commissionedStack K incumbent tree))

theorem bindUnboundQueueToStack_spec (h : s.bindUnboundQueueToStack state reason = .ok s') :
    (∀ k row, s.reservations.find? k = some row → row.status ∈ [.qualified, .failed] →
      s'.segments.find? k = s.segments.find? k) ∧
    (s.OnlyStack state → s'.OnlyStack state) := by
  constructor
  · intro k row hrow hdec
    -- The rows to bind are read before the first of them is bound.
    refine (foldlM_invariant (I := fun s₁ => s₁.reservations = s.reservations ∧
      s₁.segments.find? k = s.segments.find? k) h ⟨rfl, rfl⟩ ?_).2
    rintro s₁ r s₂ hr hbind ⟨hsame, hseg⟩
    obtain ⟨hmem, hact⟩ := mem_filter.1 hr
    have hstat := (of_decide_eq_true hact).1
    have hopen : ∀ r', s₁.reservations.find? (r.reservationId K) = some r' →
        r'.status ∉ [.qualified, .failed] := by
      intro r' hr'
      rw [hsame, find?_of_mem hmem, some_inj] at hr'
      subst hr'
      intro hmem'
      revert hstat hmem'
      cases r.status <;> decide
    obtain ⟨r₁, _, hr₁, hframe, hoth, -⟩ := bind_spec hbind
    refine ⟨by rw [hframe]; exact hsame, (hoth k ?_).trans hseg⟩
    exact not_retried_of_decided (find?_eq_some.1 hr₁).1 (hopen r₁ hr₁) (hsame ▸ hrow) hdec
  · intro hs
    exact foldlM_invariant (I := fun s => s.OnlyStack state) h hs fun _ _ _ _ h hs => hs.bind h

theorem installed_of_install (h : s.installCommission incumbent tree = .ok s₁) :
    Installed s s₁ incumbent tree := by
  rcases installCommission_spec h with ⟨state, -, rfl⟩ | ⟨hnone, h⟩
  · exact ⟨⟨rfl, rfl, rfl, rfl⟩, fun _ _ _ _ => rfl, .inl rfl⟩
  · simp only [initializeEvaluationStack, initializeEvaluationStackRow, hnone, bind_ok] at h
    obtain ⟨s₀, h₀, state, hstate, h⟩ := h
    cases h₀
    have hinst : state = commissionedStack K incumbent tree := by
      obtain ⟨row, hrow, rfl, -⟩ := evaluationStack_spec hstate
      have hput := find?_put.symm.trans hrow
      split_ifs at hput with harena
      · cases hput
        rfl
      · exact absurd rfl harena
    subst hinst
    obtain ⟨hdec, honly⟩ := bindUnboundQueueToStack_spec h
    have hfree : s.core.arenas incumbent.arenaDigest = false := by
      show (s.evaluationStacks.find? incumbent.arenaDigest).isSome = false
      rw [hnone]
      rfl
    refine ⟨?_, hdec, .inr ⟨hfree, fun hanch => honly fun k b hb => ?_⟩⟩
    · obtain ⟨t, rfl⟩ := bindUnboundQueue_eq h
      exact ⟨rfl, rfl, rfl, rfl⟩
    · -- An arena without a stack has no segments yet.
      obtain ⟨hfind, harena⟩ := segmentIn_eq_some.1 hb
      have hstack := hanch k b hfind
      rw [harena] at hstack
      exact absurd (hfree.symm.trans hstack) (by decide)

/-- The condition is the same before and after the installation. -/
theorem Installed.fits (h : Installed s s₁ incumbent tree) (hanch : s.Anchored) :
    s₁.CommissionFits incumbent tree rows ↔ s.CommissionFits incumbent tree rows := by
  rcases h.segments with hsame | ⟨hfree, honly⟩
  · unfold CommissionFits BoundTo segmentIn
    simp only [h.same.retryGroup, hsame]
  · refine iff_of_true ?_ ?_
    · intro _ _ _ _ _ _ k _ _ b hb
      rw [honly hanch k b hb]
      exact commissioned_stack
    · intro _ _ _ _ _ _ k _ _ b hb
      obtain ⟨hfind, harena⟩ := segmentIn_eq_some.1 hb
      have hstack := hanch k b hfind
      rw [harena, hfree] at hstack
      cases hstack

/-! ### The boundary -/

/-- The walk leaves the segments of decided reservations. -/
theorem rebindRows_decided (hrows : ∀ r ∈ rows, r ∈ s.reservations.rows ∧ s.Rebindable r)
    (hrow : s.reservations.find? k = some row) (hdec : row.status ∈ [.qualified, .failed])
    (h : s.rebindRows incumbent tree rows = .ok s') :
    s'.segments.find? k = s.segments.find? k := by
  refine (rebindRows_induction (I := fun s₁ => s₁.segments.find? k =
    s.segments.find? k) (fun r hr => find?_of_mem (hrows r hr).1) rfl ?_ h).1
  rintro _ s₂ r hr ⟨t, rfl⟩ hfind hsame hstep
  rcases rebindRow_spec hfind hstep with ⟨-, rfl⟩ | ⟨-, _, hreb⟩
  · exact hsame
  · obtain ⟨hmem, hrebindable⟩ := hrows r hr
    have hopen : r.status ∉ [.qualified, .failed] := by
      have hstat := hrebindable.1
      intro hmem'
      revert hstat hmem'
      cases r.status <;> decide
    have hout : k ∉ s.retryGroup r := not_retried_of_decided hmem hopen hrow hdec
    exact (hreb.others k hout).trans hsame

theorem commissionBoundary_spec {order : RowOrder} {answer : Option (Digest × Digest × Digest)}
    (h : s.commissionBoundary incumbent tree order = (s', .ok answer)) :
    ∃ s₁, Installed s s₁ incumbent tree ∧ s₁.rebindRows incumbent tree
      (order.arrange (s.reservations.rows.filter s.Rebindable)) = .ok s' := by
  unfold commissionBoundary at h
  split at h
  · cases h
  · next s₁ h₁ =>
    have hinst := installed_of_install h₁
    have hrows : s₁.reservations.rows.filter s₁.Rebindable =
        s.reservations.rows.filter s.Rebindable := by
      rw [hinst.same.reservations]
      exact filter_congr fun r _ => decide_eq_decide.2 hinst.same.rebindable
    simp only [hrows] at h
    split at h
    · cases h
    · next s₂ h₂ =>
      obtain rfl := (Prod.mk.inj h).1
      exact ⟨s₁, hinst, h₂⟩

/-- **The commission boundary.**  In every store that some operations lead to, and for every
order in which the database returns the work to rebind: when the boundary returns, all work
without evidence and without a lease is bound to the commission, and the segments of retained
runs are what they were, if and only if the commission fits. -/
theorem commissionBoundary_iff (policy : IntakePolicy) (recoverable : Bool) (ops : List (Op K))
    (incumbent : EvaluationStackManifest) (tree : Digest) (order : RowOrder) (s' : Store K)
    (answer : Option (Digest × Digest × Digest))
    (h : ((init K policy recoverable).run ops).commissionBoundary incumbent tree order =
      (s', .ok answer)) :
    let s := (init K policy recoverable).run ops
    ((∀ r ∈ s'.reservations.rows, s'.Rebindable r → s'.BoundTo incumbent tree (r.reservationId K)) ∧
      ∀ id, s.retained id ≠ [] → s'.segments.find? id = s.segments.find? id) ↔
    s.CommissionFits incumbent tree (order.arrange (s.reservations.rows.filter s.Rebindable)) := by
  intro s
  have hmark : s.Marked := marked_run policy recoverable ops
  have hjudged : s.Judged := judged_run policy recoverable ops
  have hanch : s.Anchored := anchored_run policy recoverable ops
  obtain ⟨s₁, hinst, hwalk⟩ := commissionBoundary_spec h
  have hmark₁ : s₁.Marked := by
    intro id r hr
    rw [hinst.same.reservations] at hr
    exact hmark id r hr
  have hlisted (r : IntakeReservation) :
      r ∈ order.arrange (s.reservations.rows.filter s.Rebindable) ↔
        r ∈ s₁.reservations.rows ∧ s₁.Rebindable r := by
    rw [(order.perm _).mem_iff, mem_filter, decide_eq_true_eq, hinst.same.rebindable,
      hinst.same.reservations]
  have hstor : s₁.Stored (order.arrange (s.reservations.rows.filter s.Rebindable)) :=
    fun r hr => find?_of_mem ((hlisted r).1 hr).1
  have hpart := partitioned_rebindable hmark₁ fun r hr => (hlisted r).1 hr
  obtain ⟨-, t, ht⟩ := rebindRows_induction (I := fun _ => True) hstor trivial
    (fun _ _ _ _ _ _ _ _ => trivial) hwalk
  have hafter : (∀ r ∈ s'.reservations.rows, s'.Rebindable r →
      s'.BoundTo incumbent tree (r.reservationId K)) ↔
      ∀ r ∈ order.arrange (s.reservations.rows.filter s.Rebindable),
        s'.BoundTo incumbent tree (r.reservationId K) := by
    simp only [hlisted, and_imp]
    rw [ht]
    rfl
  have hret : ∀ id, s.retained id ≠ [] → s'.segments.find? id = s.segments.find? id := by
    intro id hid
    obtain ⟨row, hrow, hdec⟩ := hjudged id hid
    have hrow₁ : s₁.reservations.find? id = some row := by
      rw [hinst.same.reservations]
      exact hrow
    exact (rebindRows_decided (fun r hr => (hlisted r).1 hr) hrow₁ hdec hwalk).trans
      (hinst.decided id row hrow hdec)
  rw [hafter, rebindRows_iff hstor hpart hwalk, hinst.fits hanch]
  exact and_iff_left hret

end Store

namespace Sample

/-- A run of a submission without a decision. -/
def undecided (n : ℕ) : QualificationIntakeOutcome sampleHashes where
  reservationDigest := sampleId n
  selectedDeltaDigest := (sampleContribution "attn" n).selectedDeltaDigest sampleHashes
  decision := .noDecision
  reason := "undecided"
  failureDigest := some (.ofNat 77)

/-- The result of a cohort without decisions, which is to be tried again in two halves. -/
def bisect (authority : ℕ) (left right : List ℕ) : Option (QualificationIntakeBatch sampleHashes) :=
  let outcomes := (left ++ right).map undecided
  let groups := [left.map sampleId, right.map sampleId]
  if h : outcomes ≠ [] ∧ (∀ o ∈ outcomes, o.WellFormed (.ofNat (4000 + authority))) ∧
      (outcomes.map (·.reservationDigest)).Nodup ∧
      (∀ o ∈ outcomes, o.attemptArtifactSha256 = none) ∧
      (groups ≠ [] ∧ ∀ group ∈ groups, group ≠ []) ∧ groups.flatten.Nodup ∧
      groups.flatten = (outcomes.filter (·.decision = .noDecision)).map (·.reservationDigest) then
    some
      { authorityManifestDigest := .ofNat (4000 + authority)
        outcomes := outcomes
        attemptRef := none
        retryPlan := some
          { strategy := .bisect, reservationGroups := groups, nonempty := h.2.2.2.2.1
            distinct := h.2.2.2.2.2.1, halves := fun _ => rfl }
        nonempty := h.1
        wellFormed := h.2.1
        distinct := h.2.2.1
        attempts := fun o ho => by rw [h.2.2.2.1 o ho]; rfl
        retried := h.2.2.2.2.2.2 }
  else none

/-- Another incumbent of the sample arena. -/
def otherStack : EvaluationStackManifest := { sampleStack with baseEngineDigest := .ofNat 26 }

/-- Three submissions were measured over the sample stack without a decision, and two of them
are to be tried again together. -/
def bisected : List (Op intakeHashes) :=
  [.initializeStack sampleStack (sampleTree sampleStack),
    reserve 3 [sampleArrival 1 alice, sampleArrival 2 bob, sampleArrival 3 carol]] ++
    publish 1 1 "" ++ publish 2 2 "" ++ publish 3 3 "" ++ claim 1 [1, 2, 3] ++
    (bisect 1 [1, 2] [3]).toList.map fun batch => .applyBatch batch 3 none

def insertionOrder : Store.RowOrder := ⟨id, fun _ => .refl _⟩

/-- The same incumbent in another arena. -/
def movedStack : EvaluationStackManifest := { sampleStack with arenaDigest := .ofNat 27 }

/-- The commission of the other arena, before the retry group is claimed again. -/
def boundary : Store intakeHashes × Intake (Option (Digest × Digest × Digest)) :=
  (start.run bisected).commissionBoundary movedStack (sampleTree movedStack) insertionOrder

end Sample

namespace Store

set_option maxRecDepth 4000 in
/-- The commission fits a retry group of two, and both are bound to it. -/
theorem commissionBoundary_iff_sample :
    let s := (init intakeHashes {} false).run Sample.bisected
    Sample.boundary.2 = .ok none ∧
    (∀ r ∈ s.reservations.rows, r.reservationId intakeHashes = sampleId 1 →
      s.retryGroup r = [sampleId 1, sampleId 2]) ∧
    (∀ r ∈ Sample.boundary.1.reservations.rows, Sample.boundary.1.Rebindable r ∧
      Sample.boundary.1.BoundTo Sample.movedStack (sampleTree Sample.movedStack)
        (r.reservationId intakeHashes)) ∧
    s.CommissionFits Sample.movedStack (sampleTree Sample.movedStack)
      (Sample.insertionOrder.arrange (s.reservations.rows.filter s.Rebindable)) := by
  intro s
  have hreturns : Sample.boundary.2 = .ok none := by decide
  have hres : Sample.boundary = (Sample.boundary.1, .ok none) :=
    Prod.mk.eta.symm.trans (congrArg (Prod.mk Sample.boundary.1) hreturns)
  have hbound : ∀ r ∈ Sample.boundary.1.reservations.rows,
      Sample.boundary.1.Rebindable r ∧ Sample.boundary.1.BoundTo Sample.movedStack
        (sampleTree Sample.movedStack) (r.reservationId intakeHashes) := by decide
  have hnone : s.qualifications.rows = [] := by decide
  refine ⟨hreturns, by decide, hbound, ?_⟩
  refine (commissionBoundary_iff {} false Sample.bisected Sample.movedStack
    (sampleTree Sample.movedStack) Sample.insertionOrder Sample.boundary.1 none hres).1
    ⟨fun r hr _ => (hbound r hr).2, fun id hid => absurd ?_ hid⟩
  show s.qualifications.rows.filter _ = []
  rw [hnone]
  rfl

/-- The two submissions of one retry group keep each other on the stack they were measured
over. -/
theorem commissionBoundary_keeps_group :
    let s := (init intakeHashes {} false).run Sample.bisected
    let result := s.commissionBoundary Sample.otherStack (sampleTree Sample.otherStack)
      Sample.insertionOrder
    result.2.isOk = true ∧ ∀ n ∈ [1, 2], ∃ r ∈ result.1.reservations.rows,
      r.reservationId intakeHashes = sampleId n ∧ result.1.Rebindable r ∧
        ¬ result.1.BoundTo Sample.otherStack (sampleTree Sample.otherStack) (sampleId n) := by
  decide

end Store

end Cacheon
