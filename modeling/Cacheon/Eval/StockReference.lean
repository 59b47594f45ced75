import Cacheon.Lib.Fallible

/-!
# The stock reference of a lane

A qualification reads candidates against stock lifetimes that are measured once and retained.  From
policy version 21 on, the lifetimes come in two pairs, each measured by its own evaluator process:
the first pair waits in a file of its own, the second one completes the reference.

* `openReference` : the states that one call goes through, and how it ends.  A call that is killed
  leaves one of these states.
* `ReferenceStep` : calls, killed anywhere or not, and retired references.
* `open_reference_iff` : a call ends well exactly when no pointer file was left empty and the
  retained stock reaches the floor.
-/

namespace Cacheon

open Fallible List

/-- Stock lifetimes in one reference. -/
def referenceBoots : ℕ := 4

/-- Lifetimes that one evaluator process measures. -/
def candidateBoots : ℕ := 2

/-- An engine lifetime: the measurement it belongs to and its place there. -/
structure Lifetime where
  measurement : ℕ
  boot : ℕ
deriving DecidableEq

/-- The lifetimes of one measurement. -/
def lifetimes (measurement boots : ℕ) : List Lifetime :=
  (List.range boots).map fun boot => ⟨measurement, boot⟩

/-- A pointer file: just created, or written with a reference to published lifetimes. -/
inductive PointerFile where
  | created
  | written (executions : List Lifetime)
deriving DecidableEq

/-- The files of one lane identity, and how often stock was measured for it. -/
structure ReferenceFiles where
  pointer : Option PointerFile
  /-- `<identity>.first-pair.json` -/
  first : Option PointerFile
  measured : ℕ
deriving DecidableEq

/-- How a call may fail. -/
inductive ReferenceFault where
  /-- The pointer file is no JSON text. -/
  | unreadable
  | lacksLifetimes
  | invalidSessions
  | fileExists
  /-- A pair is retained; candidates are read in a fresh evaluator process. -/
  | pairRetained
  | belowFloor
deriving DecidableEq

/-- What a call reads from its plan. -/
structure ReferencePlan where
  version : ℕ
  /-- The lifetime passes `_validate_replay_sessions`. -/
  valid : Lifetime → Bool
  /-- The decode p50 of the lifetimes reaches the sealed floor. -/
  reachesFloor : List Lifetime → Bool

namespace ReferencePlan

variable (p : ReferencePlan)

/-- Stock is measured in pairs. -/
def paired : Bool := decide (21 ≤ p.version)

/-- How a call ends with lifetimes at hand. -/
def conclude (executions : List Lifetime) : Except ReferenceFault (List Lifetime) := do
  check (p.reachesFloor executions) .belowFloor
  pure executions

/-- Read the lifetimes behind a pointer file. -/
def reopen : PointerFile → Except ReferenceFault (List Lifetime)
  | .created => .error .unreadable
  | .written executions => .ok executions

variable (s : ReferenceFiles) (executions : List Lifetime)

/-- The first pair, when there is one. -/
def firstPair : Except ReferenceFault (List Lifetime) :=
  match s.first with
  | some file => if p.paired then reopen file else .ok []
  | none => .ok []

/-- Publish lifetimes as the reference: retire the first pair, create the pointer, write it. -/
def retainReference : List ReferenceFiles × Except ReferenceFault (List Lifetime) :=
  let s := if p.paired then { s with first := none } else s
  ([s, { s with pointer := some .created }, { s with pointer := some (.written executions) }],
    if p.paired then .error .pairRetained else p.conclude executions)

/-- Publish lifetimes as the first pair. -/
def retainFirst : List ReferenceFiles × Except ReferenceFault (List Lifetime) :=
  if s.first ≠ none then ([], .error .fileExists)
  else ([{ s with first := some .created }, { s with first := some (.written executions) }],
    if p.paired then .error .pairRetained else p.conclude executions)

/-- Check and retain lifetimes after a measurement. -/
def retain : List ReferenceFiles × Except ReferenceFault (List Lifetime) :=
  if executions.length = referenceBoots then
    if ∀ row ∈ executions, p.valid row then p.retainReference s executions
    else ([], .error .invalidSessions)
  else if executions.length = candidateBoots then
    if ∀ row ∈ executions, p.valid row then p.retainFirst s executions
    else ([], .error .invalidSessions)
  else ([], .error .lacksLifetimes)

/-- `open_reference`: the states after each change of a file, and the end. -/
def openReference : List ReferenceFiles × Except ReferenceFault (List Lifetime) :=
  match s.pointer with
  | some file => ([], do
    let executions ← reopen file
    check (executions.length = referenceBoots) .lacksLifetimes
    check (∀ row ∈ executions, p.valid row) .invalidSessions
    p.conclude executions)
  | none =>
    let boots := if p.paired then candidateBoots else referenceBoots
    let measured := { s with measured := s.measured + 1 }
    match p.firstPair s with
    | .error fault => ([measured], .error fault)
    | .ok first =>
      let (after, outcome) := p.retain measured (first ++ lifetimes s.measured boots)
      (measured :: after, outcome)

end ReferencePlan

/-- The lifetimes that a file names. -/
def fileLists : Option PointerFile → List (List Lifetime)
  | some (.written executions) => [executions]
  | _ => []

/-- The lifetimes that the files of a lane name. -/
def ReferenceFiles.held (s : ReferenceFiles) : List (List Lifetime) :=
  fileLists s.pointer ++ fileLists s.first

/-- The files of a lane, the references that were retired there, and every reference that a call
has returned. -/
structure ReferenceHistory where
  files : ReferenceFiles
  retired : List (List Lifetime)
  returned : List (List Lifetime)

namespace ReferenceHistory

/-- A lane without files. -/
def fresh : ReferenceHistory := ⟨⟨none, none, 0⟩, [], []⟩

/-- The references that were ever completed. -/
def references (h : ReferenceHistory) : List (List Lifetime) :=
    h.retired ++ fileLists h.files.pointer

end ReferenceHistory

/-- One call for a lane, or the end of its reference. -/
inductive ReferenceStep (p : ReferencePlan) : ReferenceHistory → ReferenceHistory → Prop
  /-- The call is killed, or ends without returning. -/
  | stopped {h : ReferenceHistory} {s : ReferenceFiles}
      (hs : s ∈ h.files :: (p.openReference h.files).1) : ReferenceStep p h { h with files := s }
  | returned {h : ReferenceHistory} {executions : List Lifetime}
      (houtcome : (p.openReference h.files).2 = .ok executions) :
      ReferenceStep p h ⟨(p.openReference h.files).1.getLastD h.files, h.retired,
        h.returned ++ [executions]⟩
  /-- The pointer file is taken away. -/
  | retired {h : ReferenceHistory} :
      ReferenceStep p h ⟨{ h.files with pointer := none }, h.references, h.returned⟩

/-- The fault is one of the files that the call found. -/
def ReferenceFault.ofFiles (fault : ReferenceFault) : Bool :=
  fault ∈ [.unreadable, .lacksLifetimes, .fileExists]

/-- The call returns a whole reference, or it measures stock and its files do not stop it. -/
def CallSound (p : ReferencePlan) (s : ReferenceFiles) : Prop :=
  match (p.openReference s).2 with
  | .ok executions => executions.length = referenceBoots
  | .error fault => fault.ofFiles = false ∧
    ∃ s' ∈ (p.openReference s).1, s'.measured = s.measured + 1

/-- No pointer file is empty. -/
def ReferenceFiles.Complete (s : ReferenceFiles) : Prop :=
  s.pointer ≠ some .created ∧ s.first ≠ some .created

/-- Two pairs of different measurements. -/
def JoinsPairs (executions : List Lifetime) : Prop :=
  ∃ a b, a ≠ b ∧ executions = lifetimes a candidateBoots ++ lifetimes b candidateBoots

/-! ### What every history keeps -/

section

variable {p : ReferencePlan} {s s' : ReferenceFiles} {h h' : ReferenceHistory} {n : ℕ}
  {first : Option PointerFile} {executions : List Lifetime}

/-- What the pointer may name. -/
def IsReference (p : ReferencePlan) (executions : List Lifetime) : Prop :=
  executions.length = referenceBoots ∧ (∀ row ∈ executions, p.valid row = true) ∧
    (p.paired = true → JoinsPairs executions)

/-- What the files of a lane are, whatever was killed. -/
structure FilesSound (p : ReferencePlan) (s : ReferenceFiles) : Prop where
  pointer : ∀ executions, s.pointer = some (.written executions) → IsReference p executions
  first : ∀ file, s.first = some file → p.paired = true ∧ s.pointer = none ∧
    ∀ executions, file = .written executions →
      ∃ a < s.measured, executions = lifetimes a candidateBoots

/-- A call without a pointer or an empty file has the first pair at hand, or nothing. -/
theorem FilesSound.firstPair (hs : FilesSound p s) (hfirst : s.first ≠ some .created) :
    ∃ l, p.firstPair s = .ok l ∧ (fileLists s.first).flatten = l ∧ (s.first = none ∧ l = [] ∨
        p.paired = true ∧ ∃ a < s.measured, l = lifetimes a candidateBoots) := by
  unfold ReferencePlan.firstPair
  cases hfile : s.first with
  | none => exact ⟨[], rfl, rfl, .inl ⟨rfl, rfl⟩⟩
  | some file =>
    obtain ⟨hpair, -, hwrote⟩ := hs.first file hfile
    cases file with
    | created => exact absurd hfile hfirst
    | written executions =>
      exact ⟨executions, if_pos hpair, append_nil _, .inr ⟨hpair, hwrote executions rfl⟩⟩

/-- The files after a measurement are sound, and what they name is as before, nothing, or the new
lifetimes after those of the first pair. -/
structure Enlarges (p : ReferencePlan) (s s' : ReferenceFiles) : Prop where
  sound : FilesSound p s'
  measured : s'.measured = s.measured + 1
  held : s'.held = s.held ∨ s'.held = [] ∨
    ∃ boots, s'.held = [s.held.flatten ++ lifetimes s.measured boots]

/-- Retaining the first pair. -/
theorem retainFirst_spec (hpair : p.paired = true) :
    let r := p.retainFirst ⟨none, none, n + 1⟩ (lifetimes n candidateBoots)
    (∀ s ∈ r.1, Enlarges p ⟨none, none, n⟩ s) ∧ r.2 = .error .pairRetained := by
  simp only [ReferencePlan.retainFirst, hpair, ne_eq, not_true_eq_false, ↓reduceIte,
    forall_mem_cons, not_mem_nil, false_implies, implies_true, and_true]
  refine ⟨⟨⟨nofun, fun file hfile => ?_⟩, rfl, .inl rfl⟩, ⟨nofun, fun file hfile => ?_⟩, rfl,
    .inr (.inr ⟨candidateBoots, rfl⟩)⟩ <;> cases hfile
  · exact ⟨hpair, rfl, nofun⟩
  · refine ⟨hpair, rfl, fun executions heq => ?_⟩
    cases heq
    exact ⟨n, Nat.lt_succ_self n, rfl⟩

/-- Retaining a reference. -/
theorem retainReference_spec (hfirst : p.paired = false → first = none)
    (hheld : ∃ boots, executions = (fileLists first).flatten ++ lifetimes n boots)
    (href : IsReference p executions) :
    let r := p.retainReference ⟨none, first, n + 1⟩ executions
    (∀ s ∈ r.1, Enlarges p ⟨none, first, n⟩ s) ∧
      r.1.getLast? = some ⟨some (.written executions), none, n + 1⟩ ∧
      (r.2 = .ok executions ∨ r.2 = .error .belowFloor ∨ r.2 = .error .pairRetained) := by
  have hnone : (if p.paired = true then (⟨none, none, n + 1⟩ : ReferenceFiles)
      else ⟨none, first, n + 1⟩) = ⟨none, none, n + 1⟩ := by
    split_ifs with hp
    · rfl
    · rw [hfirst (by simpa using hp)]
  simp only [ReferencePlan.retainReference, hnone, forall_mem_cons, not_mem_nil,
    false_implies, implies_true, and_true]
  refine ⟨⟨⟨⟨nofun, nofun⟩, rfl, .inr (.inl rfl)⟩, ⟨⟨nofun, nofun⟩, rfl, .inr (.inl rfl)⟩,
    ⟨fun x hx => ?_, nofun⟩, rfl, .inr (.inr ?_)⟩, rfl, ?_⟩
  · cases hx
    exact href
  · obtain ⟨boots, rfl⟩ := hheld
    exact ⟨boots, rfl⟩
  · unfold ReferencePlan.conclude
    by_cases hfloor : p.reachesFloor executions = true <;> split_ifs <;>
      simp [check, hfloor, bind, Except.bind, pure, Except.pure]

/-- A call that measured stock: every state on its way is sound, and it fails only for what it
measured or because a pair has to wait. -/
structure Measures (p : ReferencePlan) (s : ReferenceFiles)
    (r : List ReferenceFiles × Except ReferenceFault (List Lifetime)) : Prop where
  grows : ∀ s' ∈ r.1, Enlarges p s s'
  measured : r.1 ≠ []
  outcome : (∃ x s, r.2 = .ok x ∧ IsReference p x ∧ r.1.getLast? = some s ∧
      s.pointer = some (.written x)) ∨ ∃ fault, r.2 = .error fault ∧ fault.ofFiles = false

/-- Lifetimes of the number of a reference are retained as one, if they are valid. -/
theorem measures_reference (hsound : Enlarges p ⟨none, first, n⟩ ⟨none, first, n + 1⟩)
    (hx : executions.length = referenceBoots) (hjoins : p.paired = true → JoinsPairs executions)
    (hheld : ∃ boots, executions = (fileLists first).flatten ++ lifetimes n boots)
    (hfirst : p.paired = false → first = none) :
    Measures p ⟨none, first, n⟩
      (⟨none, first, n + 1⟩ :: (p.retain ⟨none, first, n + 1⟩ executions).1,
      (p.retain ⟨none, first, n + 1⟩ executions).2) := by
  simp only [ReferencePlan.retain, if_pos hx]
  split_ifs with hvalid
  · obtain ⟨hsteps, hlast, houtcome⟩ := retainReference_spec hfirst hheld ⟨hx, hvalid, hjoins⟩
    refine ⟨forall_mem_cons.2 ⟨hsound, hsteps⟩, cons_ne_nil _ _, ?_⟩
    rcases houtcome with houtcome | houtcome | houtcome
    · exact .inl ⟨_, _, houtcome, ⟨hx, hvalid, hjoins⟩,
        (getLast?_cons_of_ne_nil (by simp [ReferencePlan.retainReference])).trans hlast, rfl⟩
    · exact .inr ⟨_, houtcome, rfl⟩
    · exact .inr ⟨_, houtcome, rfl⟩
  · exact ⟨forall_mem_cons.2 ⟨hsound, nofun⟩, cons_ne_nil _ _, .inr ⟨_, rfl, rfl⟩⟩

section

variable (hs : FilesSound p s)

include hs

theorem FilesSound.remeasured : Enlarges p s { s with measured := s.measured + 1 } := by
  refine ⟨⟨hs.pointer, fun file hfile => ?_⟩, rfl, .inl rfl⟩
  obtain ⟨hpair, hptr, hwrote⟩ := hs.first file hfile
  refine ⟨hpair, hptr, fun x hx => ?_⟩
  obtain ⟨a, ha, heq⟩ := hwrote x hx
  exact ⟨a, Nat.lt_succ_of_lt ha, heq⟩

theorem FilesSound.measures (hnone : s.pointer = none)
    (hcreated : s.first ≠ some .created) : Measures p s (p.openReference s) := by
  obtain ⟨pointer, first, n⟩ := s
  obtain rfl : pointer = none := hnone
  obtain ⟨l, hl, hheld, hcases⟩ := hs.firstPair hcreated
  have hlen (a boots : ℕ) : (lifetimes a boots).length = boots := by simp [lifetimes]
  have hsound : Enlarges p ⟨none, first, n⟩ ⟨none, first, n + 1⟩ := hs.remeasured
  rcases hcases with ⟨rfl, rfl⟩ | ⟨hpair, a, ha, rfl⟩
  · cases hpair : p.paired with
    | true =>
      simp only [ReferencePlan.openReference, hl, hpair, ↓reduceIte, nil_append,
        ReferencePlan.retain, hlen, if_neg (by decide : candidateBoots ≠ referenceBoots)]
      split_ifs with hvalid
      · obtain ⟨hsteps, houtcome⟩ := retainFirst_spec (n := n) hpair
        exact ⟨forall_mem_cons.2 ⟨hsound, hsteps⟩, cons_ne_nil _ _, .inr ⟨_, houtcome, rfl⟩⟩
      · exact ⟨forall_mem_cons.2 ⟨hsound, nofun⟩, cons_ne_nil _ _, .inr ⟨_, rfl, rfl⟩⟩
    | false =>
      simp only [ReferencePlan.openReference, hl, hpair, Bool.false_eq_true, ↓reduceIte, nil_append]
      exact measures_reference hsound (hlen n _) (by simp [hpair])
        ⟨referenceBoots, rfl⟩ fun _ => rfl
  · simp only [ReferencePlan.openReference, hl, hpair, ↓reduceIte]
    refine measures_reference hsound rfl (fun _ => ⟨a, n, Nat.ne_of_lt ha, rfl⟩)
      ⟨candidateBoots, ?_⟩ (by simp [hpair])
    rw [hheld]

/-- The call with a pointer to a reference. -/
theorem FilesSound.reopened (hptr : s.pointer = some (.written executions)) :
    p.openReference s = ([], p.conclude executions) := by
  obtain ⟨hlen, hvalid, -⟩ := hs.pointer executions hptr
  simp only [ReferencePlan.openReference, hptr, ReferencePlan.reopen, bind, Except.bind,
    check_of hlen, check_of hvalid]

/-- An empty file stops every call. -/
theorem FilesSound.unreadable (hempty : ¬ s.Complete) : (p.openReference s).2 = .error .unreadable ∧
      ∀ s' ∈ (p.openReference s).1, s' = { s with measured := s.measured + 1 } := by
  by_cases hptr : s.pointer = some .created
  · simp [ReferencePlan.openReference, hptr, ReferencePlan.reopen, bind, Except.bind]
  · have hfirst : s.first = some .created := by
      by_contra hfirst
      exact hempty ⟨hptr, hfirst⟩
    obtain ⟨hpair, hnone, -⟩ := hs.first _ hfirst
    simp [ReferencePlan.openReference, hnone, ReferencePlan.firstPair, hfirst, hpair,
      ReferencePlan.reopen]

theorem FilesSound.grows (hmem : s' ∈ (p.openReference s).1) :
    Enlarges p s s' ∧ ∀ x ∈ fileLists s.pointer, x ∈ fileLists s'.pointer := by
  by_cases hcompl : s.Complete
  · match hp : s.pointer with
    | some .created => exact absurd hp hcompl.1
    | some (.written x) =>
      rw [hs.reopened hp] at hmem
      cases hmem
    | none => exact ⟨(hs.measures hp hcompl.2).grows s' hmem, nofun⟩
  · obtain rfl := (hs.unreadable hcompl).2 s' hmem
    exact ⟨hs.remeasured, fun _ => id⟩

/-- A call that returns leaves the pointer at what it returns. -/
theorem FilesSound.returns (houtcome : (p.openReference s).2 = .ok executions) :
    (p.openReference s).1.getLastD s ∈ s :: (p.openReference s).1 ∧
      ((p.openReference s).1.getLastD s).pointer = some (.written executions) := by
  by_cases hcompl : s.Complete
  · match hp : s.pointer with
    | some .created => exact absurd hp hcompl.1
    | some (.written x) =>
      rw [hs.reopened hp] at houtcome ⊢
      simp only [ReferencePlan.conclude, bind_ok, exists_check] at houtcome
      cases houtcome.2
      exact ⟨mem_cons_self, hp⟩
    | none =>
      obtain ⟨x, s', hx, -, hlast, hptr⟩ | ⟨fault, hfault, -⟩ := (hs.measures hp hcompl.2).outcome
      · obtain rfl := Except.ok.inj (hx.symm.trans houtcome)
        rw [getLastD_eq_getLast?, hlast, Option.getD_some]
        exact ⟨.tail _ (mem_of_getLast? hlast), hptr⟩
      · simp [hfault] at houtcome
  · simp [(hs.unreadable hcompl).1] at houtcome

end

/-- What a lane keeps: a lifetime is in one reference or in the first pair, and the returned
references are among those that were completed. -/
structure HistorySound (p : ReferencePlan) (h : ReferenceHistory) : Prop where
  files : FilesSound p h.files
  retired : ∀ x ∈ h.retired, IsReference p x
  measured : ∀ x ∈ h.retired ++ h.files.held, ∀ row ∈ x, row.measurement < h.files.measured
  apart : (h.retired ++ h.files.held).Pairwise List.Disjoint
  returned : ∀ x ∈ h.returned, x ∈ h.references

/-- The files change as a measurement changes them, and no reference is lost. -/
theorem HistorySound.grows (hsound : HistorySound p h) (hg : Enlarges p h.files s)
    (href : ∀ x ∈ fileLists h.files.pointer, x ∈ fileLists s.pointer) :
    HistorySound p { h with files := s } := by
  have hreturned : ∀ x ∈ h.returned, x ∈ h.retired ++ fileLists s.pointer := fun x hx =>
    mem_append.2 ((mem_append.1 (hsound.returned x hx)).imp_right (href x))
  obtain ⟨hs, hmeasured, hheld⟩ := hg
  have hlater : ∀ x ∈ h.retired ++ h.files.held, ∀ row ∈ x, row.measurement < s.measured :=
    fun x hx row hrow => hmeasured ▸ Nat.lt_succ_of_lt (hsound.measured x hx row hrow)
  rcases hheld with hheld | hheld | ⟨boots, hheld⟩
  · exact ⟨hs, hsound.retired, hheld ▸ hlater, hheld ▸ hsound.apart, hreturned⟩
  · have hsub : (h.retired ++ s.held).Sublist (h.retired ++ h.files.held) := by
      rw [hheld, append_nil]
      exact sublist_append_left _ _
    exact ⟨hs, hsound.retired, fun x hx => hlater x (hsub.subset hx), hsound.apart.sublist hsub,
      hreturned⟩
  · obtain ⟨hretired, -, hapart⟩ := pairwise_append.1 hsound.apart
    have hnew {row : Lifetime} (hrow : row ∈ lifetimes h.files.measured boots) :
        row.measurement = h.files.measured := by
      obtain ⟨b, -, rfl⟩ := mem_map.1 hrow
      rfl
    refine ⟨hs, hsound.retired, ?_, ?_, hreturned⟩ <;> rw [hheld]
    · refine forall_mem_append.2 ⟨fun x hx => hlater x (mem_append_left _ hx),
        forall_mem_singleton.2 (forall_mem_append.2 ⟨fun row hrow => ?_, fun row hrow => ?_⟩)⟩
      · obtain ⟨x, hx, hrow⟩ := mem_flatten.1 hrow
        exact hlater x (mem_append_right _ hx) row hrow
      · rw [hnew hrow, hmeasured]
        exact Nat.lt_succ_self _
    · refine pairwise_append.2
        ⟨hretired, pairwise_singleton _ _, fun x hx y hy row hrow hrow' => ?_⟩
      rw [mem_singleton.1 hy, mem_append, mem_flatten] at hrow'
      rcases hrow' with ⟨z, hz, hrow'⟩ | hrow'
      · exact hapart x hx z hz hrow hrow'
      · exact Nat.lt_irrefl _ (hnew hrow' ▸ hsound.measured x (mem_append_left _ hx) row hrow)

theorem HistorySound.stopped (hsound : HistorySound p h)
    (hmem : s ∈ h.files :: (p.openReference h.files).1) : HistorySound p { h with files := s } := by
  rcases mem_cons.1 hmem with rfl | hmem
  · exact hsound
  · obtain ⟨hgrows, href⟩ := hsound.files.grows hmem
    exact hsound.grows hgrows href

theorem mem_fileLists {file : Option PointerFile} :
    executions ∈ fileLists file ↔ file = some (.written executions) := by
  rcases file with _ | _ | x <;> simp [fileLists, eq_comm]

theorem history_of_steps (hsteps : Relation.ReflTransGen (ReferenceStep p) .fresh h) :
    HistorySound p h := by
  induction hsteps with
  | refl => exact ⟨⟨nofun, nofun⟩, nofun, nofun, .nil, nofun⟩
  | @tail h h' _ hstep ih =>
    cases hstep with
    | stopped hmem => exact ih.stopped hmem
    | returned houtcome =>
      obtain ⟨hmem, hptr⟩ := ih.files.returns houtcome
      obtain ⟨hs, hretired, hmeasured, hapart, hreturned⟩ := ih.stopped hmem
      refine ⟨hs, hretired, hmeasured, hapart, forall_mem_append.2 ⟨hreturned, ?_⟩⟩
      exact forall_mem_singleton.2 (mem_append_right _ (mem_fileLists.2 hptr))
    | retired =>
      obtain ⟨⟨hpointer, hfirst⟩, hretired, hmeasured, hapart, hreturned⟩ := ih
      -- The reference moves from the pointer to the retired ones.
      have hheld : h.references ++ ReferenceFiles.held { h.files with pointer := none } =
          h.retired ++ h.files.held := append_assoc ..
      refine ⟨⟨nofun, fun file hfile => ?_⟩, forall_mem_append.2 ⟨hretired, fun x hx => ?_⟩,
        hheld ▸ hmeasured, hheld ▸ hapart, fun x hx => mem_append_left _ (hreturned x hx)⟩
      · obtain ⟨hpair, -, hwrote⟩ := hfirst file hfile
        exact ⟨hpair, rfl, hwrote⟩
      · exact hpointer x (mem_fileLists.1 hx)

/-- **A call ends well exactly when no earlier call left an empty pointer file and the retained
stock reaches the floor.**  From version 21 on a returned reference joins two pairs of different
calls.  No lifetime is in two of the references that were ever completed. -/
theorem open_reference_iff (p : ReferencePlan) {h : ReferenceHistory}
    (hsteps : Relation.ReflTransGen (ReferenceStep p) .fresh h) :
    (CallSound p h.files ↔ h.files.Complete ∧
      ∀ x, h.files.pointer = some (.written x) → p.reachesFloor x = true) ∧
    (∀ x ∈ h.returned, x ∈ h.references ∧ (p.paired = true → JoinsPairs x)) ∧
    h.references.Pairwise List.Disjoint := by
  have hsound := history_of_steps hsteps
  have hs := hsound.files
  refine ⟨⟨fun hcall => ?_, fun ⟨hcompl, hfloor⟩ => ?_⟩, fun x hx => ⟨hsound.returned x hx, ?_⟩, ?_⟩
  · have hcompl : h.files.Complete := by
      by_contra hempty
      simp [CallSound, (hs.unreadable hempty).1, ReferenceFault.ofFiles] at hcall
    refine ⟨hcompl, fun x hptr => ?_⟩
    by_contra hfloor
    simp [CallSound, hs.reopened hptr, ReferencePlan.conclude, check, hfloor, bind, Except.bind]
      at hcall
  · unfold CallSound
    match hptr : h.files.pointer with
    | some .created => exact absurd hptr hcompl.1
    | some (.written x) =>
      simpa [hs.reopened hptr, ReferencePlan.conclude, check, hfloor x hptr, bind, Except.bind,
        pure, Except.pure] using (hs.pointer x hptr).1
    | none =>
      obtain ⟨hgrows, hmeasured, houtcome⟩ := hs.measures hptr hcompl.2
      rcases houtcome with ⟨x, s, houtcome, hx, -⟩ | ⟨fault, houtcome, hfault⟩ <;> rw [houtcome]
      · exact hx.1
      · obtain ⟨s, l, hl⟩ := exists_cons_of_ne_nil hmeasured
        exact ⟨hfault, s, hl ▸ mem_cons_self, (hgrows s (hl ▸ mem_cons_self)).measured⟩
  · intro hpair
    rcases mem_append.1 (hsound.returned x hx) with hx | hx
    · exact (hsound.retired x hx).2.2 hpair
    · exact (hs.pointer x (mem_fileLists.1 hx)).2.2 hpair
  · refine hsound.apart.sublist ?_
    rw [ReferenceFiles.held, ← append_assoc]
    exact sublist_append_left _ _

end

/-- A call killed right after it created the pointer: every later call fails on the empty file. -/
theorem call_fails_on_created_pointer : ∃ h,
    Relation.ReflTransGen (ReferenceStep ⟨20, fun _ => true, fun _ => true⟩) .fresh h ∧
      ¬ CallSound ⟨20, fun _ => true, fun _ => true⟩ h.files :=
  ⟨⟨⟨some .created, none, 1⟩, [], []⟩, .single (.stopped (by decide)), by
    simp [CallSound, ReferencePlan.openReference, ReferencePlan.reopen, bind, Except.bind,
      ReferenceFault.ofFiles]⟩

/-- Two pairs make a reference, which is returned and retired; two more make the next one. -/
theorem open_reference_paired :
    let p : ReferencePlan := ⟨21, fun _ => true, fun _ => true⟩
    let x := lifetimes 0 2 ++ lifetimes 1 2
    let y := lifetimes 2 2 ++ lifetimes 3 2
    let h : ReferenceHistory := ⟨⟨some (.written y), none, 4⟩, [x], [x, y]⟩
    CallSound p h.files ∧ (∀ z ∈ [x, y], z ∈ h.references ∧ JoinsPairs z) ∧ List.Disjoint x y := by
  intro p x y h
  have hpairs (s s' : ReferenceFiles) (hs : s' ∈ s :: (p.openReference s).1) (retired returned) :
      ReferenceStep p ⟨s, retired, returned⟩ ⟨s', retired, returned⟩ := .stopped hs
  have hsteps : Relation.ReflTransGen (ReferenceStep p) .fresh h := by
    refine .head (hpairs _ ⟨none, some (.written (lifetimes 0 2)), 1⟩ (by decide) _ _) ?_
    refine .head (hpairs _ ⟨some (.written x), none, 2⟩ (by decide) _ _) ?_
    refine .head (@ReferenceStep.returned p _ x rfl) (.head .retired ?_)
    refine .head (hpairs _ ⟨none, some (.written (lifetimes 2 2)), 3⟩ (by decide) _ _) ?_
    refine .head (hpairs _ ⟨some (.written y), none, 4⟩ (by decide) _ _) ?_
    exact .single (@ReferenceStep.returned p _ y rfl)
  obtain ⟨hcall, hreturned, hapart⟩ := open_reference_iff p hsteps
  refine ⟨hcall.2 ⟨⟨by decide, by decide⟩, fun _ _ => rfl⟩, fun z hz => ?_, ?_⟩
  · exact ⟨(hreturned z hz).1, (hreturned z hz).2 rfl⟩
  · exact (pairwise_cons.1 hapart).1 y mem_cons_self

end Cacheon
