import Cacheon.Weights.Readback

/-!
# No attempt is signed over an unresolved one

The journal exists so that a signer that dies at any point never signs a second time while
an earlier attempt may still reach the chain.  We follow what an observer sees: the moves of
the journal's head, and the submissions.

* `headOf`, `outstanding` : the head and the unresolved submission, read off the log.
* `Safe` : the invariant: every submission in the log was admissible, and an outstanding
  submission is guarded by an unresolved head.
* `safeAt_invariant` : a swap and a submission of a call keep it.
* `submission_guarded` : what follows for every sequence of calls.
-/

namespace Cacheon

open PublicationFault Fallible Durable ReconcileRequest

/-- The journal head after the events of the log. -/
def headOf (log : List PublicationEvent) : JournalHead :=
  log.foldl (fun head ev => match ev with
    | .swapped _ after => some after
    | .submitted _ _ => head) none

/-- Whether some submission was not followed by a resolved head. -/
def outstanding (log : List PublicationEvent) : Bool :=
  log.foldl (fun open_ ev => match ev with
    | .swapped _ after => open_ && decide after.val.status.Unresolved
    | .submitted _ _ => true) false

variable {log : List PublicationEvent} {before : JournalHead} {after : WeightPublicationRecord}

@[simp] theorem headOf_swapped : headOf (log ++ [.swapped before after]) = some after := by
  simp [headOf]

variable {p : WeightProjection} {head : JournalHead}

@[simp] theorem headOf_submitted : headOf (log ++ [.submitted p head]) = headOf log := by
  simp [headOf]

@[simp] theorem outstanding_swapped : outstanding (log ++ [.swapped before after]) =
      (outstanding log && decide after.val.status.Unresolved) := by
  simp [outstanding]

@[simp] theorem outstanding_submitted : outstanding (log ++ [.submitted p head]) = true := by
  simp [outstanding]

/-- A submission stays outstanding until a swap resolves it. -/
theorem exists_of_not_outstanding {before after : List PublicationEvent}
    (h : outstanding (before ++ .submitted p head :: after) = false) :
    ∃ b r, .swapped b r ∈ after ∧ r.val.status.Resolved := by
  induction after using List.reverseRecOn with
  | nil => simp at h
  | append_singleton after ev ih =>
    rw [← List.cons_append, ← List.append_assoc] at h
    cases ev with
    | submitted _ _ =>
      rw [outstanding_submitted] at h
      cases h
    | swapped b r =>
      rw [outstanding_swapped, Bool.and_eq_false_iff] at h
      rcases h with h | h
      · obtain ⟨b', r', hmem, hr⟩ := ih h
        exact ⟨b', r', List.mem_append_left _ hmem, hr⟩
      · exact ⟨b, r, by simp, PublicationStatus.not_unresolved_iff.1 (by simpa using h)⟩

variable (env : PublicationEnv)

/-- An event the protocol allows after these events.  A swap starts from the current head; a
submission directly follows the swap that journals its intent over a resolved head, and no
earlier submission is outstanding. -/
def Admissible (log : List PublicationEvent) : PublicationEvent → Prop
  | .swapped before _ => before = headOf log
  | .submitted p head =>
    outstanding log = false ∧ ∃ earlier before r,
      log = earlier ++ [.swapped before r] ∧ head = some r ∧ r.val.status = .intent ∧
      r.val.projectionDigest = env.hashes.projection p ∧
      ∀ b, before = some b → b.val.status.Resolved

/-- The invariant of the publication code. -/
structure Safe (w : PublicationWorld) : Prop where
  admissible : Along (Admissible env) w.log
  head : w.state.headRecord = headOf w.log
  guarded : outstanding w.log → ∃ r, headOf w.log = some r ∧ r.val.status.Unresolved

/-- The invariant, with the head known. -/
structure SafeAt (current : JournalHead) (w : PublicationWorld) : Prop
    extends Safe env w where
  current_eq : headOf w.log = current

variable {env} {q : ReconcileRequest} {current : JournalHead}

variable {w : PublicationWorld}

theorem Safe.setBudget (h : Safe env w) (n : ℕ) :
    Safe env { w with budget := n } := ⟨h.admissible, h.head, h.guarded⟩

theorem Safe.at (h : Safe env w) : SafeAt env w.state.headRecord w := ⟨h, h.head.symm⟩

theorem Safe.empty : Safe env ⟨Journal.empty, [], 0⟩ :=
  ⟨along_nil, rfl, fun h => by simp [outstanding] at h⟩

/-- Nothing is outstanding behind a resolved head. -/
theorem SafeAt.not_outstanding (h : SafeAt env current w)
    (hc : ∀ r, current = some r → r.val.status.Resolved) : outstanding w.log = false := by
  by_contra ho
  obtain ⟨r, hr, hu⟩ := h.guarded (by simpa using ho)
  have hres := hc r (h.current_eq.symm.trans hr)
  exact PublicationStatus.not_unresolved_iff.2 hres hu

/-- Any accepted swap keeps the invariant. -/
theorem Safe.swap {j : Journal} {r : WeightPublicationRecord} {n : ℕ}
    (h : Safe env w) (hj : j.headRecord = some r) :
    SafeAt env (some r) ⟨j, w.log ++ [.swapped w.state.headRecord r], n⟩ where
  admissible := h.admissible.snoc h.head
  head := by simp [hj]
  guarded := by
    intro ho
    simp only [outstanding_swapped, Bool.and_eq_true, decide_eq_true_eq] at ho
    exact ⟨r, by simp, ho.2⟩
  current_eq := by simp

/-- A swap and a submission of a call keep the invariant. -/
theorem safeAt_invariant : q.CallInvariant env (SafeAt env) where
  head h := h.head.trans h.current_eq
  swapped := by
    intro c w r j n hw _ hj
    have hsafe := hw.toSafe.swap (n := n) hj
    rwa [hw.head, hw.current_eq] at hsafe
  submitted := by
    intro c v w r n hv hc _ hw hlog hstat hproj
    have hadm : Admissible env w.log (.submitted q.projection (some r)) := by
      refine ⟨?_, v.log, c, r, hlog, rfl, hstat, hproj, hc⟩
      rw [hlog, outstanding_swapped, hv.not_outstanding hc, Bool.false_and]
    exact
      { admissible := hw.admissible.snoc hadm
        head := by rw [headOf_submitted]; exact hw.head
        guarded := fun _ => ⟨r, by rw [headOf_submitted]; exact hw.current_eq, .inl hstat⟩
        current_eq := by rw [headOf_submitted]; exact hw.current_eq }

/-! ### Runs -/

/-- What the control plane may call against one journal: a reconciliation, or an operator's
release of a hold. -/
inductive PublicationCall where
  | reconcile (q : ReconcileRequest)
  | release (q : ReconcileRequest) (reason : String)

/-- The process of a call. -/
def PublicationCall.process (env : PublicationEnv) : PublicationCall → Publication Unit
  | .reconcile q => do discard (q.reconcile env)
  | .release q reason => do discard (q.releaseWeightPublicationHold env reason)

/-- The world after a sequence of calls on a new journal, each with its crash point. -/
def publicationRun (env : PublicationEnv) (calls : List (PublicationCall × ℕ)) : PublicationWorld :=
  runCalls (PublicationCall.process env) ⟨Journal.empty, [], 0⟩ calls

theorem PublicationCall.process_safe (c : PublicationCall) :
    Triple (Kept (SafeAt env)) (c.process env) (fun _ => Kept (SafeAt env))
      (Kept (SafeAt env)) := by
  cases c with
  | reconcile q => exact .bind safeAt_invariant.reconcile fun _ => .pure fun _ h => h
  | release q reason =>
    refine .bind (R := fun r => SafeAt env (some r)) ?_ fun _ => .pure fun _ h => ⟨_, h⟩
    rintro w ⟨_, hw⟩
    exact safeAt_invariant.releaseWeightPublicationHold w hw

theorem safe_publicationRun (env : PublicationEnv) (calls : List (PublicationCall × ℕ)) :
    Safe env (publicationRun env calls) := by
  obtain ⟨_, h⟩ := invariant_runCalls (I := Kept (SafeAt env))
    (fun _ n ⟨_, h⟩ => ⟨_, h.toSafe.setBudget n, h.current_eq⟩)
    (fun c _ => PublicationCall.process_safe c.1) ⟨_, Safe.empty.at⟩
  exact h.toSafe

/-- **No attempt is signed over an unresolved one.**  In every sequence of calls with any
chain readings and any crash points, each submission directly follows the swap that made its
`intent` the durable head, that swap started from no head or a resolved one, and between two
submissions the head passes through `confirmed` or `released`. -/
theorem submission_guarded (env : PublicationEnv) (calls : List (PublicationCall × ℕ)) :
    (∀ before p head after, (publicationRun env calls).log = before ++ .submitted p head :: after →
      ∃ earlier previous r, before = earlier ++ [.swapped previous r] ∧
        head = some r ∧ r.val.status = .intent ∧
        r.val.projectionDigest = env.hashes.projection p ∧ previous = headOf earlier ∧
        ∀ b, previous = some b → ¬ b.val.status.Unresolved) ∧
    (∀ before p head between p' head' after, (publicationRun env calls).log =
        before ++ .submitted p head :: (between ++ .submitted p' head' :: after) →
      ∃ previous r, .swapped previous r ∈ between ∧
        (r.val.status = .confirmed ∨ r.val.status = .released)) ∧
    (publicationRun env calls).state.headRecord = headOf (publicationRun env calls).log := by
  have hsafe := safe_publicationRun env calls
  refine ⟨?_, ?_, hsafe.head⟩
  · intro before p head after hlog
    obtain ⟨-, earlier, previous, r, hb, hhead, hstat, hproj, hres⟩ :=
      hsafe.admissible before _ after hlog
    have hprev : Admissible env earlier (.swapped previous r) := by
      refine hsafe.admissible earlier _ (.submitted p head :: after) ?_
      rw [hlog, hb, List.append_assoc, List.singleton_append]
    refine ⟨earlier, previous, r, hb, hhead, hstat, hproj, hprev, ?_⟩
    exact fun b hb' => PublicationStatus.not_unresolved_iff.2 (hres b hb')
  · intro before p head between p' head' after hlog
    have hadm : Admissible env (before ++ .submitted p head :: between) (.submitted p' head') := by
      refine hsafe.admissible _ _ after ?_
      rw [hlog, List.append_assoc, List.cons_append]
    exact exists_of_not_outstanding hadm.1

end Cacheon
