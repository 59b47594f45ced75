import Mathlib.Data.List.Basic

/-!
# Processes over durable state, with crash points

A process reads a durable state, changes it by atomic steps and leaves a log of what an
outside observer saw.  It may stop early, because a step is refused or because the machine
crashes; whatever it had already made durable stays.

* `Durable.Proc` : processes: state passing with an exception that does *not* roll back.
* `Durable.effect` : one atomic step.  A budget counts the steps left before the crash, so
  that quantifying over the budget quantifies over every crash point from the first step on.  A
  crash before it leaves the world as it was: it is the call that was never made.
* `Durable.Triple` : partial-correctness triples with a separate postcondition for an early
  stop, and the rules for the process combinators.
* `Durable.Along` : every entry of a log is admissible after the entries before it.
* `Durable.invariant_runCalls` : an invariant kept by every call, however it stops, holds
  after every sequence of calls.
-/

namespace Durable

variable {σ ε e α β ι : Type}

/-- The durable state, the log of steps already taken, and the steps left before a crash. -/
structure World (σ ε : Type) where
  /-- What survives a crash. -/
  state : σ
  /-- What an observer saw, oldest first. -/
  log : List ε
  /-- Atomic steps left before the machine stops. -/
  budget : ℕ
deriving Repr, DecidableEq

/-- Why a process stopped early. -/
inductive Stop (e : Type) where
  /-- The machine stopped between two atomic steps. -/
  | crash
  | raised (err : e)
deriving Repr, DecidableEq

/-- A process: the world is kept when it stops early. -/
abbrev Proc (σ ε e : Type) := ExceptT (Stop e) (StateM (World σ ε))

/-- Raise an error. -/
def raise (err : e) : Proc σ ε e α := fun w => (.error (.raised err), w)

/-- Stop unless the condition holds. -/
def require (p : Prop) [Decidable p] (err : e) : Proc σ ε e Unit :=
  if p then pure () else raise err

/-- Read the durable state; the read itself may raise. -/
def read (f : σ → Except e α) : Proc σ ε e α := fun w =>
  match f w.state with
  | .ok a => (.ok a, w)
  | .error err => (.error (.raised err), w)

/-- One atomic step.  A refused step changes nothing; after an accepted one the machine may
crash before the process sees the result. -/
def effect (f : σ → Except e (σ × ε)) : Proc σ ε e Unit := fun w =>
  match f w.state with
  | .error err => (.error (.raised err), w)
  | .ok (s, ev) =>
    let w' : World σ ε := ⟨s, w.log ++ [ev], w.budget - 1⟩
    if w.budget = 0 then (.error .crash, w') else (.ok (), w')

/-- Take a value that an outside reading may fail to give. -/
def ofExcept (x : Except e α) : Proc σ ε e α := read fun _ => x

/-! ### Triples -/

/-- From a world in `P`, the process either returns in `Q` or stops early in `E`. -/
def Triple (P : World σ ε → Prop) (m : Proc σ ε e α) (Q : α → World σ ε → Prop)
    (E : World σ ε → Prop) : Prop :=
  ∀ w, P w → match m w with
    | (.ok a, w') => Q a w'
    | (.error _, w') => E w'

variable {P P' E : World σ ε → Prop} {Q Q' : α → World σ ε → Prop}

variable {m : Proc σ ε e α} {err : e} {a : α}

theorem Triple.conseq (h : Triple P m Q E) (hP : ∀ w, P' w → P w)
    (hQ : ∀ a w, Q a w → Q' a w) : Triple P' m Q' E := by
  intro w hw
  have hm := h w (hP w hw)
  revert hm
  cases m w with
  | mk r w' =>
    cases r with
    | ok a => exact hQ a w'
    | error _ => exact id

/-- A fact that does not depend on the world is given to the whole process. -/
theorem Triple.given {p : Prop} (h : p → Triple P m Q E) :
    Triple (fun w => P w ∧ p) m Q E := fun w hw => h hw.2 w hw.1

theorem Triple.pure (h : ∀ w, P w → Q a w) : Triple (e := e) P (Pure.pure a) Q E := h

theorem Triple.raise (h : ∀ w, P w → E w) : Triple P (Durable.raise err : Proc σ ε e α) Q E := h

variable {f : β → Proc σ ε e α} {w w' : World σ ε} {I : World σ ε → Prop} {A : List ε → ε → Prop}
  {x : Except e α} {ev : ε}

theorem bind_of_ok {m : Proc σ ε e β} {b : β} (h : m w = (.ok b, w')) : (m >>= f) w = f b w' := by
  simp only [Bind.bind, ExceptT.bind, ExceptT.mk, StateT.bind, h]
  rfl

theorem bind_of_error {m : Proc σ ε e β} {r : Stop e} (h : m w = (.error r, w')) :
    (m >>= f) w = (.error r, w') := by
  simp only [Bind.bind, ExceptT.bind, ExceptT.mk, StateT.bind, h]
  rfl

theorem Triple.bind {m : Proc σ ε e β} {R : β → World σ ε → Prop}
    (hm : Triple P m R E) (hf : ∀ b, Triple (R b) (f b) Q E) : Triple P (m >>= f) Q E := by
  intro w hw
  have h := hm w hw
  rcases hmw : m w with ⟨r, w'⟩
  rw [hmw] at h
  cases r with
  | ok b =>
    rw [bind_of_ok hmw]
    exact hf b w' h
  | error r =>
    rw [bind_of_error hmw]
    exact h

theorem Triple.ite {c : Prop} [Decidable c] {m m' : Proc σ ε e α} (ht : c → Triple P m Q E)
    (hf : ¬ c → Triple P m' Q E) : Triple P (if c then m else m') Q E := by
  split
  · exact ht ‹_›
  · exact hf ‹_›

/-- What was required holds in the rest of the process. -/
theorem Triple.require {p : Prop} [Decidable p] {f : Unit → Proc σ ε e α} (hE : ∀ w, P w → E w)
    (h : p → Triple P (f ()) Q E) : Triple P (Durable.require p err >>= f) Q E :=
  .bind (R := fun _ w => P w ∧ p) (.ite (fun hp => .pure fun _ hw => ⟨hw, hp⟩)
    fun _ => .raise hE) fun _ => .given h

/-- What every round of a loop keeps, the loop keeps. -/
theorem Triple.forM {l : List β} {f : β → Proc σ ε e PUnit}
    (h : ∀ b ∈ l, Triple I (f b) (fun _ => I) E) : Triple I (ForM.forM l f) (fun _ => I) E := by
  induction l with
  | nil => exact .pure fun _ hw => hw
  | cons b l ih =>
    exact .bind (h b (by simp)) fun _ => ih fun b hb => h b (by simp [hb])

theorem Triple.read_cases {f : σ → Except e α} (h : ∀ w a, P w → f w.state = .ok a → Q a w)
    (hE : ∀ w err, P w → f w.state = .error err → E w) : Triple P (Durable.read f) Q E := by
  intro w hw
  unfold Durable.read
  cases hf : f w.state with
  | ok a => exact h w a hw hf
  | error err => exact hE w err hw hf

theorem Triple.read {f : σ → Except e α} (h : ∀ w a, P w → f w.state = .ok a → Q a w)
    (hE : ∀ w, P w → E w) : Triple P (Durable.read f) Q E :=
  .read_cases h fun w _ hw _ => hE w hw

theorem Triple.ofExcept {x : Except e β} (hE : ∀ w, P w → E w)
    (h : ∀ b, x = .ok b → Triple P (f b) Q E) : Triple P (Durable.ofExcept x >>= f) Q E :=
  .bind (R := fun b w => P w ∧ x = .ok b) (.read (fun _ _ hw hx => ⟨hw, hx⟩) hE)
    fun b => .given (h b)

section Effect

variable {f : σ → Except e (σ × ε)} {Q : Unit → World σ ε → Prop}
  (h : ∀ w s ev n, P w → f w.state = .ok (s, ev) →
    Q () ⟨s, w.log ++ [ev], n⟩ ∧ E ⟨s, w.log ++ [ev], n⟩)
include h

/-- The rule of the atomic step: a refused step stops in the old state, an accepted one
either returns or crashes in the new one. -/
theorem Triple.effect_cases (hE : ∀ w err, P w → f w.state = .error err → E w) :
    Triple P (Durable.effect f) Q E := by
  intro w hw
  unfold Durable.effect
  cases hf : f w.state with
  | error err => exact hE w err hw hf
  | ok r =>
    obtain ⟨s, ev⟩ := r
    have := h w s ev (w.budget - 1) hw hf
    by_cases hb : w.budget = 0
    · simp only [hb, ↓reduceIte]
      rw [hb] at this
      exact this.2
    · simp only [hb, ↓reduceIte]
      exact this.1

theorem Triple.effect (hE : ∀ w, P w → E w) : Triple P (Durable.effect f) Q E :=
  .effect_cases h fun w _ hw _ => hE w hw

end Effect

/-! ### Processes that only read -/

/-- The process leaves the world as it is. -/
def Reads (m : Proc σ ε e α) : Prop := ∀ w, (m w).2 = w

theorem Reads.triple (h : Reads m) (hE : ∀ w, P w → E w) : Triple P m (fun _ => P) E := by
  intro w hw
  have hm := h w
  rcases hr : m w with ⟨r, w'⟩
  rw [hr] at hm
  cases hm
  cases r with
  | ok a => exact hw
  | error _ => exact hE _ hw

theorem Reads.bind {m : Proc σ ε e β} (hm : Reads m) (hf : ∀ b, Reads (f b)) : Reads (m >>= f) := by
  intro w
  have h := hm w
  rcases hr : m w with ⟨r, w'⟩
  rw [hr] at h
  cases h
  cases r with
  | ok b =>
    rw [bind_of_ok hr]
    exact hf b _
  | error r => rw [bind_of_error hr]

theorem Reads.pure : Reads (Pure.pure a : Proc σ ε e α) := fun _ => rfl

theorem Reads.require {p : Prop} [Decidable p] :
    Reads (Durable.require p err : Proc σ ε e Unit) := by
  intro w
  unfold Durable.require
  split <;> rfl

theorem Reads.read {f : σ → Except e α} : Reads (Durable.read f : Proc σ ε e α) := by
  intro w
  unfold Durable.read
  split <;> rfl

theorem Reads.ofExcept : Reads (Durable.ofExcept x : Proc σ ε e α) := Reads.read

theorem Reads.ite {c : Prop} [Decidable c] {m m' : Proc σ ε e α} (ht : Reads m)
    (hf : Reads m') : Reads (if c then m else m') := by
  split
  · exact ht
  · exact hf

/-! ### Logs -/

/-- Every entry of the log is admissible after the entries before it. -/
def Along (A : List ε → ε → Prop) (log : List ε) : Prop :=
  ∀ before ev after, log = before ++ ev :: after → A before ev

theorem along_nil : Along A [] := by
  intro before ev after h
  simp at h

theorem Along.snoc {log : List ε} (h : Along A log) (hev : A log ev) : Along A (log ++ [ev]) := by
  intro before ev' after heq
  rcases List.eq_nil_or_concat' after with rfl | ⟨l, x, rfl⟩
  · obtain ⟨rfl, hx⟩ := List.append_inj' heq rfl
    cases hx
    exact hev
  · rw [← List.cons_append, ← List.append_assoc] at heq
    obtain ⟨rfl, -⟩ := List.append_inj' heq rfl
    exact h before ev' l rfl

/-! ### Calls -/

/-- Run one call that crashes after at most `budget + 1` steps, and keep what is durable. -/
def call (m : Proc σ ε e α) (budget : ℕ) (w : World σ ε) : World σ ε :=
  (m { w with budget := budget }).2

/-- Run a sequence of calls, each with its own crash point. -/
def runCalls (m : ι → Proc σ ε e α) (w : World σ ε) (calls : List (ι × ℕ)) : World σ ε :=
  calls.foldl (fun w c => call (m c.1) c.2 w) w

variable {w : World σ ε} {n : ℕ} {calls : List (ι × ℕ)}

theorem Triple.call (h : Triple P m (fun _ => E) E) (hw : P { w with budget := n }) :
    E (call m n w) := by
  have := h _ hw
  unfold Durable.call
  revert this
  cases m { w with budget := n } with
  | mk r w' => cases r <;> exact id

/-- A call of one atomic step that is accepted. -/
theorem call_effect_of_ok {f : σ → Except e (σ × ε)} {s : σ} (h : f w.state = .ok (s, ev)) :
    call (effect f) n w = ⟨s, w.log ++ [ev], n - 1⟩ := by
  by_cases hn : n = 0 <;> simp [call, effect, h, hn]

/-- **Invariants of call sequences.**  What every call keeps, whether it returns, raises or
crashes, holds after any sequence of calls. -/
theorem invariant_runCalls {m : ι → Proc σ ε e α} (hbudget : ∀ w n, I w → I { w with budget := n })
    (hcall : ∀ c ∈ calls, Triple I (m c.1) (fun _ => I) I) (hw : I w) : I (runCalls m w calls) := by
  induction calls generalizing w with
  | nil => exact hw
  | cons c calls ih =>
    have hfirst : I (call (m c.1) c.2 w) := (hcall c (by simp)).call (hbudget w c.2 hw)
    exact ih (fun c' hc' => hcall c' (by simp [hc'])) hfirst

end Durable
