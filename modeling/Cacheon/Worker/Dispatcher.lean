import Cacheon.Identity

/-!
# The CPU transfer loop

The dispatcher walks the queue of published requests, pulls the result of each one from the pod
and records what it did in a dispatch state beside the request.

* `serveRequest` : one request: the states after each file operation, and how the walk goes on.
* `pass` : one walk over the queue.  A pass that is killed leaves one of its states.
* `inspectResult` : the two holds that an incomplete local result causes.
* `served_sound` : as long as no pass is killed between the two operations that import a result,
  a request that is recorded as received has a complete result.
-/

namespace Cacheon

open List Function

/-- The dispatch state of a request. -/
inductive DispatchState where
  | transferred
  | resultReceived
deriving DecidableEq

/-- `results/<request id>`: the row of a verified result, and whether `RESULT_READY` is there. -/
structure LocalResult (ρ : Type) where
  row : ρ
  ready : Bool
deriving DecidableEq

/-- What the dispatcher writes. -/
structure CpuSpool (ρ : Type) where
  dispatch : Digest → Option DispatchState
  results : Digest → Option (LocalResult ρ)

/-- What the pod and the clock answer for one request during a pass. -/
structure RemoteAnswer (ρ : Type) where
  /-- `result-status`: it fails, there is no result, or this one is ready. -/
  status : Option (Option ρ)
  /-- The archive arrives whole and verifies. -/
  copied : Bool
  /-- A local result passes `verify_adapter_result` again. -/
  verified : Bool
  acknowledged : Bool
  checkpointed : Bool
  expired : Bool
  transfers : Bool

/-- How the walk goes on after a request. -/
inductive Flow where
  /-- On to the next request, with the request that the worker is taken to be busy with. -/
  | next (active : Option Digest)
  | stop
  /-- A `RemoteWorkerError` ends the pass. -/
  | retry
deriving DecidableEq

variable {ρ : Type}

namespace CpuSpool

variable (s : CpuSpool ρ)

/-- Write the dispatch state of a request. -/
def writeDispatchState (id : Digest) (state : DispatchState) : CpuSpool ρ :=
  { s with dispatch := update s.dispatch id (some state) }

/-- Rename an extracted result to its place, or create `RESULT_READY` in it. -/
def setResult (id : Digest) (row : ρ) (ready : Bool) : CpuSpool ρ :=
  { s with results := update s.results id (some ⟨row, ready⟩) }

/-- A result that is not there yet is renamed into place and marked ready.  One that is there is
left as it is, ready or not. -/
def importResult (id : Digest) (row : ρ) : List (CpuSpool ρ) :=
  match s.results id with
  | some _ => []
  | none => [s.setResult id row false, s.setResult id row true]

/-- The state a list of operations ends in. -/
def after (states : List (CpuSpool ρ)) : CpuSpool ρ := states.getLastD s

/-- `pull_result`, once the pod has announced a result. -/
def pullResult [DecidableEq ρ] (s : CpuSpool ρ) (id : Digest) (row : ρ) (answer : RemoteAnswer ρ) :
    List (CpuSpool ρ) × Flow :=
  if answer.copied ∧ ∀ l ∈ s.results id, answer.verified ∧ l.row = row then
    let states := s.importResult id row
    if answer.acknowledged then
      (states ++ [(s.after states).writeDispatchState id .resultReceived], .next none)
    else (states, .retry)
  else ([], .retry)

/-- A request that the pod has no result for: expire it or transfer it. -/
def dispatchRequest (noDecision : Digest → ρ) (s : CpuSpool ρ) (active : Option Digest)
    (id : Digest) (answer : RemoteAnswer ρ) : List (CpuSpool ρ) × Flow :=
  if ¬ answer.checkpointed then ([], .retry)
  else if active ≠ none ∧ active ≠ some id then ([], .stop)
  else if s.dispatch id = some .transferred then ([], .stop)
  else if answer.expired then
    -- `write_local_no_decision` returns at once when the directory exists
    let states := s.importResult id (noDecision id)
    (states ++ [(s.after states).writeDispatchState id .resultReceived], .next active)
  else if answer.transfers then ([s.writeDispatchState id .transferred], .stop)
  else ([], .retry)

/-- One request of the queue. -/
def serveRequest [DecidableEq ρ] (noDecision : Digest → ρ) (s : CpuSpool ρ)
    (active : Option Digest) (id : Digest) (answer : RemoteAnswer ρ) :
    List (CpuSpool ρ) × Flow :=
  if s.dispatch id = some .resultReceived then ([], .next active)
  else if ∃ l ∈ s.results id, l.ready = true then
    if answer.verified then ([s.writeDispatchState id .resultReceived], .next active)
    else ([], .retry)
  else match answer.status with
    | none => ([], .retry)
    | some (some row) => s.pullResult id row answer
    | some none => s.dispatchRequest noDecision active id answer

/-- One walk over the queue, from the active request of the pod's heartbeat: the states on the
way, and whether it ends without an error. -/
def pass [DecidableEq ρ] (noDecision : Digest → ρ) (s : CpuSpool ρ) (active : Option Digest) :
    List (Digest × RemoteAnswer ρ) → List (CpuSpool ρ) × Bool
  | [] => ([], true)
  | (id, answer) :: queue =>
    match s.serveRequest noDecision active id answer with
    | (states, .next active) =>
      let (rest, ended) := (s.after states).pass noDecision active queue
      (states ++ rest, ended)
    | (states, .stop) => (states, true)
    | (states, .retry) => (states, false)

/-- A recorded result is complete. -/
def Received : Prop :=
  ∀ id, s.dispatch id = some .resultReceived → ∃ l ∈ s.results id, l.ready = true

/-- Every local result has its `RESULT_READY`. -/
def Marked : Prop := ∀ id, ∀ l ∈ s.results id, l.ready = true

/-- The holds of `_inspect_locked` for a local result that is not complete. -/
inductive ResultHold where
  | resultPartial
  | resultMissing
deriving DecidableEq

/-- What `inspect_planned_qualification` makes of the local result of a request. -/
def inspectResult (id : Digest) : Option ResultHold :=
  match s.results id with
  | some l => if l.ready then none else some .resultPartial
  | none => if s.dispatch id = some .resultReceived then some .resultMissing else none

/-- A spool before the first pass. -/
def fresh : CpuSpool ρ := ⟨fun _ => none, fun _ => none⟩

/-- A spool that passes have worked on, none of them killed while a result lacked its marker. -/
inductive Served [DecidableEq ρ] (noDecision : Digest → ρ) : CpuSpool ρ → Prop
  | fresh : Served noDecision fresh
  | passed {s : CpuSpool ρ} (hs : Served noDecision s) (active : Option Digest)
      (queue : List (Digest × RemoteAnswer ρ)) :
      Served noDecision (s.after (s.pass noDecision active queue).1)
  | killed {s s' : CpuSpool ρ} (hs : Served noDecision s) (active : Option Digest)
      (queue : List (Digest × RemoteAnswer ρ)) (hmem : s' ∈ (s.pass noDecision active queue).1)
      (hmarked : s'.Marked) : Served noDecision s'

/-! ### What a pass keeps -/

variable {noDecision : Digest → ρ} {s : CpuSpool ρ} {id : Digest} {row : ρ}
  {states : List (CpuSpool ρ)}

/-- Operations after which every recorded result is complete, and that end with every result
marked. -/
structure Keeps (s : CpuSpool ρ) (states : List (CpuSpool ρ)) : Prop where
  received : ∀ s' ∈ states, s'.Received
  marked : (s.after states).Marked

theorem Keeps.nil (hs : s.Marked) : Keeps s [] := ⟨nofun, hs⟩

theorem Keeps.append {rest : List (CpuSpool ρ)} (h : Keeps s states)
    (hrest : Keeps (s.after states) rest) : Keeps s (states ++ rest) := by
  refine ⟨forall_mem_append.2 ⟨h.received, hrest.received⟩, ?_⟩
  · have hafter : s.after (states ++ rest) = (s.after states).after rest := by
      simp only [after, getLastD_eq_getLast?, getLast?_append]
      cases rest.getLast? <;> simp
    exact hafter ▸ hrest.marked

theorem Keeps.dispatch {state : DispatchState} (hs : s.Received) (hmarked : s.Marked)
    (hstate : state = .resultReceived → ∃ l ∈ s.results id, l.ready = true) :
    Keeps s [s.writeDispatchState id state] := by
  refine ⟨fun s' hs' => ?_, hmarked⟩
  obtain rfl := mem_singleton.1 hs'
  intro id' hid'
  by_cases heq : id' = id
  · subst heq
    simp only [writeDispatchState, update_self, Option.some.injEq] at hid'
    exact hstate hid'
  · simp only [writeDispatchState, update_of_ne heq] at hid'
    exact hs id' hid'

/-- Importing a result, then recording it. -/
theorem Keeps.import (id : Digest) (row : ρ) (hs : s.Received) (hmarked : s.Marked) :
    Keeps s (s.importResult id row) ∧ (s.after (s.importResult id row)).Received ∧
      ∃ l ∈ (s.after (s.importResult id row)).results id, l.ready = true := by
  unfold importResult
  cases hid : s.results id with
  | some l => exact ⟨.nil hmarked, hs, l, hid, hmarked id l hid⟩
  | none =>
    have hrecv (ready : Bool) : (s.setResult id row ready).Received := fun id' hid' => by
      obtain ⟨l, hl, hready⟩ := hs id' hid'
      have hne : id' ≠ id := fun heq => by simp [heq, hid] at hl
      exact ⟨l, by simpa [setResult, update_of_ne hne] using hl, hready⟩
    refine ⟨⟨?_, fun id' l hl => ?_⟩, hrecv true, ⟨row, true⟩, ?_, rfl⟩
    · simp only [forall_mem_cons]
      exact ⟨hrecv false, hrecv true, nofun⟩
    · by_cases heq : id' = id
      · have hl' : some ⟨row, true⟩ = some l := by
          simpa [after, setResult, heq] using hl
        exact Option.some.inj hl' ▸ rfl
      · exact hmarked id' l (by simpa [after, setResult, update_of_ne heq] using hl)
    · simp [after, setResult]

theorem Keeps.recorded (hs : s.Received) (hmarked : s.Marked) : Keeps s (s.importResult id row ++
      [(s.after (s.importResult id row)).writeDispatchState id .resultReceived]) :=
  have h := Keeps.import id row hs hmarked
  h.1.append (Keeps.dispatch h.2.1 h.1.marked fun _ => h.2.2)

theorem Keeps.after_received (h : Keeps s states) (hs : s.Received) :
    (s.after states).Received := by
  unfold after
  cases hlast : states.getLast? with
  | none => rwa [getLastD_eq_getLast?, hlast]
  | some s' =>
    rw [getLastD_eq_getLast?, hlast]
    exact h.received s' (mem_of_getLast? hlast)

variable [DecidableEq ρ]

theorem serveRequest_keeps (noDecision : Digest → ρ) (active : Option Digest) (id : Digest)
    (answer : RemoteAnswer ρ) (hs : s.Received) (hmarked : s.Marked) :
    Keeps s (s.serveRequest noDecision active id answer).1 := by
  unfold serveRequest
  split_ifs with hrecv hready hverif
  · exact .nil hmarked
  · exact .dispatch hs hmarked fun _ => hready
  · exact .nil hmarked
  split
  · exact .nil hmarked
  · unfold pullResult
    split_ifs with hcopy hack
    · exact .recorded hs hmarked
    · exact (Keeps.import id _ hs hmarked).1
    · exact .nil hmarked
  · unfold dispatchRequest
    split_ifs
    all_goals first
      | exact .nil hmarked
      | exact .recorded hs hmarked
      | exact .dispatch hs hmarked nofun

theorem pass_keeps (noDecision : Digest → ρ) (active : Option Digest)
    (queue : List (Digest × RemoteAnswer ρ)) (hs : s.Received) (hmarked : s.Marked) :
    Keeps s (s.pass noDecision active queue).1 := by
  induction queue generalizing s active with
  | nil => exact .nil hmarked
  | cons head queue ih =>
    have hserve := serveRequest_keeps noDecision active head.1 head.2 hs hmarked
    unfold pass
    split
    next states active' heq =>
      rw [heq] at hserve
      exact hserve.append (ih active' (hserve.after_received hs) hserve.marked)
    all_goals
      next states heq =>
        rw [heq] at hserve
        exact hserve

theorem Served.keeps (hs : Served noDecision s) : s.Received ∧ s.Marked := by
  induction hs with
  | fresh => exact ⟨nofun, nofun⟩
  | passed _ active queue ih =>
    have hkeeps := pass_keeps noDecision active queue ih.1 ih.2
    exact ⟨hkeeps.after_received ih.1, hkeeps.marked⟩
  | killed _ active queue hmem hmarked ih =>
    exact ⟨(pass_keeps noDecision active queue ih.1 ih.2).received _ hmem, hmarked⟩

/-- **Recorded results are complete in every state**, and a pass that ends leaves no local result
for a hold, as long as no pass was killed between the rename and the marker of a result. -/
theorem served_sound {noDecision : Digest → ρ} {s : CpuSpool ρ} (hs : Served noDecision s)
    (active : Option Digest) (queue : List (Digest × RemoteAnswer ρ)) :
    (∀ s' ∈ s :: (s.pass noDecision active queue).1, s'.Received) ∧
      ∀ id, (s.after (s.pass noDecision active queue).1).inspectResult id = none := by
  obtain ⟨hrecv, hmarked⟩ := hs.keeps
  have hkeeps := pass_keeps noDecision active queue hrecv hmarked
  refine ⟨forall_mem_cons.2 ⟨hrecv, hkeeps.received⟩, fun id => ?_⟩
  unfold inspectResult
  split
  next l hl => rw [if_pos (hkeeps.marked id l hl)]
  next hl =>
    refine if_neg fun hid => ?_
    obtain ⟨l, hmem, -⟩ := hkeeps.after_received hrecv id hid
    simp [hl] at hmem

/-- A request, and a pod that has its result and answers everything. -/
def announcedQueue : List (Digest × RemoteAnswer ℕ) :=
  [(.ofNat 0, ⟨some (some 7), true, true, true, true, false, true⟩)]

/-- A pass over a fresh spool is killed between the marker and the record of a result, and the next
pass records it. -/
theorem served_sound_announced :
    let s := fresh.setResult (.ofNat 0) 7 true
    let states := (s.pass (fun _ => 0) none announcedQueue).1
    (∀ s' ∈ s :: states, s'.Received) ∧ (∀ id, (s.after states).inspectResult id = none) ∧
      (s.after states).dispatch (.ofNat 0) = some .resultReceived := by
  intro s states
  have hmarked : s.Marked := (Keeps.import (s := fresh) (.ofNat 0) 7 nofun nofun).1.marked
  have hs : Served (fun _ => 0) s := .killed .fresh none announcedQueue (.tail _ (.head _)) hmarked
  obtain ⟨hrecv, hinspect⟩ := served_sound hs none announcedQueue
  exact ⟨hrecv, hinspect, by decide⟩

/-- A pass killed right after the rename leaves a result without its marker.  The next pass takes
it for an imported one, ends without an error and records it as received: a held partial result. -/
theorem received_without_marker : ∃ s ∈ (fresh.pass (fun _ => 0) none announcedQueue).1,
      (s.pass (fun _ => 0) none announcedQueue).2 = true ∧
      ((s.after (s.pass (fun _ => 0) none announcedQueue).1).dispatch ⟨1, by decide⟩ =
        some .resultReceived) ∧
      (s.after (s.pass (fun _ => 0) none announcedQueue).1).inspectResult ⟨1, by decide⟩ =
        some .resultPartial :=
  ⟨fresh.setResult ⟨1, by decide⟩ 7 false, mem_cons_self, by decide, by decide, by decide⟩

end CpuSpool

end Cacheon
