import Mathlib.Data.List.Perm.Basic

/-!
# Fallible computations

`Except` computations are taken apart by what a successful result tells: `bind_ok` for
one step, `check_ok` for a guard, `forM_ok` for a guard on every element of a list,
`forall₂_of_mapM` for a step on every element and `foldlM_rel` for a loop with a state.  The
lemmas on `= .error` tell which step failed.
-/

namespace Fallible

open List

variable {ε α β : Type}

/-- Fail unless the condition holds. -/
def check (p : Prop) [Decidable p] (err : ε) : Except ε Unit :=
  if p then .ok () else .error err

/-- The value of a lookup, or the error for a missing one. -/
def get (err : ε) : Option α → Except ε α
  | some a => .ok a
  | none => .error err

variable {x : Except ε α} {f : α → Except ε β} {b : β}

theorem bind_ok : (x >>= f) = .ok b ↔ ∃ a, x = .ok a ∧ f a = .ok b := by
  cases x with
  | error e =>
    refine ⟨(nomatch ·), ?_⟩
    rintro ⟨_, ⟨⟩, _⟩
  | ok a =>
    refine ⟨fun h => ⟨a, rfl, h⟩, ?_⟩
    rintro ⟨_, ⟨⟩, hf⟩
    exact hf

variable {err : ε} {o : Option α} {a : α} {ε' : Type}

@[simp] theorem check_ok {p : Prop} [Decidable p] {u : Unit} : check p err = .ok u ↔ p := by
  unfold check
  split <;> simp [*]

theorem exists_check {p q : Prop} [Decidable p] : (∃ u, check p err = .ok u ∧ q) ↔ p ∧ q := by
  simp

theorem bind_eq_error :
    (x >>= f) = .error err ↔ x = .error err ∨ ∃ a, x = .ok a ∧ f a = .error err := by
  cases x with
  | error e =>
    refine ⟨fun h => .inl (by cases h; rfl), ?_⟩
    rintro (h | ⟨_, ⟨⟩, _⟩)
    cases h
    rfl
  | ok a =>
    refine ⟨fun h => .inr ⟨a, rfl, h⟩, ?_⟩
    rintro (⟨⟨⟩⟩ | ⟨_, ⟨⟩, hf⟩)
    exact hf

@[simp] theorem check_eq_error {p : Prop} [Decidable p] {err err' : ε} :
    check p err = .error err' ↔ ¬p ∧ err = err' := by
  unfold check
  split <;> simp [*]

@[simp] theorem get_eq_error {err err' : ε} : get err o = .error err' ↔ o = none ∧ err = err' := by
  cases o <;> simp [get]

@[simp] theorem mapError_eq_error {f : ε → ε'} {err : ε'} :
    x.mapError f = .error err ↔ ∃ e, x = .error e ∧ f e = err := by
  cases x <;> simp [Except.mapError]

theorem check_of {p : Prop} [Decidable p] (h : p) : check p err = .ok () := check_ok.2 h

@[simp] theorem get_ok : get err o = .ok a ↔ o = some a := by
  cases o <;> simp [get]

@[simp] theorem mapError_ok {f : ε → ε'} : x.mapError f = .ok a ↔ x = .ok a := by
  cases x <;> simp [Except.mapError]

theorem map_some_ok : some <$> x = .ok o ↔ ∃ a, x = .ok a ∧ some a = o := by
  cases x with
  | error | ok => simp [Functor.map, Except.map]

theorem ok_of_isOk (h : x.isOk = true) : ∃ a, x = .ok a := by
  cases x with
  | error e => cases h
  | ok a => exact ⟨a, rfl⟩

theorem ok_of_toOption (h : x.toOption = some a) : x = .ok a := by
  cases x with
  | error e => cases h
  | ok b =>
    cases h
    rfl

variable {l : List α}

theorem forM_ok {f : α → Except ε Unit} : forM l f = .ok () ↔ ∀ a ∈ l, f a = .ok () := by
  induction l with
  | nil => simp [pure, Except.pure]
  | cons a l ih =>
    simp only [forM_cons, bind_ok, ih, mem_cons, forall_eq_or_imp]
    exact ⟨fun ⟨_, ha, hl⟩ => ⟨ha, hl⟩, fun ⟨ha, hl⟩ => ⟨_, ha, hl⟩⟩

theorem exists_forM {f : α → Except ε Unit} {q : Prop} :
    (∃ u, forM l f = .ok u ∧ q) ↔ (∀ a ∈ l, f a = .ok ()) ∧ q :=
  ⟨fun ⟨_, h, hq⟩ => ⟨forM_ok.1 h, hq⟩, fun ⟨h, hq⟩ => ⟨(), forM_ok.2 h, hq⟩⟩

variable {l' : List β}

theorem forall₂_of_mapM (h : l.mapM f = .ok l') : List.Forall₂ (fun a b => f a = .ok b) l l' := by
  induction l generalizing l' with
  | nil =>
    cases h
    exact .nil
  | cons a l ih =>
    simp only [mapM_cons, bind_ok] at h
    obtain ⟨b, hb, bs, hbs, heq⟩ := h
    cases heq
    exact .cons hb (ih hbs)

/-- What every step keeps, the whole map keeps. -/
theorem map_eq_of_mapM {γ : Type} {u : α → γ} {v : β → γ} (huv : ∀ a b, f a = .ok b → v b = u a)
    (h : l.mapM f = .ok l') : l'.map v = l.map u := by
  have hall := forall₂_of_mapM h
  clear h
  induction hall with
  | nil => rfl
  | cons hab _ ih => rw [map_cons, map_cons, huv _ _ hab, ih]

theorem mapM_of_forall₂ (h : List.Forall₂ (fun a b => f a = .ok b) l l') : l.mapM f = .ok l' := by
  induction h with
  | nil => rfl
  | cons hab _ ih => simp only [mapM_cons, hab, ih]; rfl

theorem exists_mapM (h : ∀ a ∈ l, ∃ b, f a = .ok b) : ∃ l', l.mapM f = .ok l' := by
  induction l with
  | nil => exact ⟨[], rfl⟩
  | cons a l ih =>
    obtain ⟨b, hb⟩ := h a (.head _)
    obtain ⟨l', hl'⟩ := ih fun a ha => h a (.tail _ ha)
    refine ⟨b :: l', ?_⟩
    simp only [mapM_cons, hb, hl']
    rfl

/-- Lookups on every element, with one error for all. -/
theorem mapM_get {f : α → Option β} : (l.mapM fun a => get err (f a)) = get err (l.mapM f) := by
  induction l with
  | nil => rfl
  | cons a l ih =>
    rw [mapM_cons, mapM_cons, ih]
    cases f a with
    | none => rfl
    | some b => cases l.mapM f <;> rfl

/-- A step that undoes a map on every element. -/
theorem mapM_map_ok {l : List β} {g : β → α}
    (h : ∀ b ∈ l, f (g b) = .ok b) : (l.map g).mapM f = .ok l := by
  refine mapM_of_forall₂ ?_
  rw [forall₂_map_left_iff, forall₂_same]
  exact h

/-- A step on every element of a rearranged list. -/
theorem mapM_perm {l l' : List α} {r : List β} (hperm : l.Perm l')
    (h : l.mapM f = .ok r) : ∃ r', l'.mapM f = .ok r' ∧ r.Perm r' := by
  obtain ⟨r', hr', hall⟩ := (perm_comp_forall₂ hperm.symm (forall₂_of_mapM h))
  exact ⟨r', mapM_of_forall₂ hr', hall.symm⟩

theorem exists_of_forall₂ {R : α → β → Prop} (h : List.Forall₂ R l l') (hb : b ∈ l') :
    ∃ a ∈ l, R a b := by
  induction h with
  | nil => cases hb
  | cons hab _ ih =>
    rcases mem_cons.1 hb with rfl | hb
    · exact ⟨_, mem_cons_self, hab⟩
    · obtain ⟨a, ha, hf⟩ := ih hb
      exact ⟨a, mem_cons_of_mem _ ha, hf⟩

theorem exists_of_mapM (h : l.mapM f = .ok l') (hb : b ∈ l') : ∃ a ∈ l, f a = .ok b :=
  exists_of_forall₂ (R := fun a b => f a = .ok b) (forall₂_of_mapM h) hb

theorem mapM_exists (h : l.mapM f = .ok l') (ha : a ∈ l) : ∃ b ∈ l', f a = .ok b :=
  exists_of_forall₂ (R := fun b a => f a = .ok b) (forall₂_of_mapM h).flip ha

/-- What every step of a loop does to the state, the whole loop does. -/
theorem foldlM_rel {R : β → β → Prop} (hrefl : ∀ b, R b b)
    (htrans : ∀ b b' b'', R b b' → R b' b'' → R b b'') {f : β → α → Except ε β} {b' : β}
    (hf : ∀ b a b', a ∈ l → f b a = .ok b' → R b b') (h : l.foldlM f b = .ok b') : R b b' := by
  induction l generalizing b with
  | nil =>
    cases h
    exact hrefl _
  | cons a l ih =>
    simp only [foldlM_cons, bind_ok] at h
    obtain ⟨b₁, h₁, h⟩ := h
    have hrest := ih (fun b a b' ha => hf b a b' (mem_cons_of_mem _ ha)) h
    exact htrans _ _ _ (hf _ a b₁ mem_cons_self h₁) hrest

/-- What every step of a loop keeps, the whole loop keeps. -/
theorem foldlM_invariant {I : β → Prop} {f : β → α → Except ε β} {b' : β}
    (h : l.foldlM f b = .ok b') (hb : I b) (hf : ∀ b a b', a ∈ l → f b a = .ok b' → I b → I b') :
    I b' :=
  foldlM_rel (R := fun b b' => I b → I b') (fun _ h => h) (fun _ _ _ h h' hb => h' (h hb)) hf h hb

/-! ### Operations that may be refused -/

variable {σ ι : Type}

/-- The state after an operation; a refused one changes nothing. -/
def attempt (f : σ → Except ε σ) (s : σ) : σ :=
  match f s with
  | .ok s' => s'
  | .error _ => s

/-- The state after a sequence of operations. -/
def attempts (f : ι → σ → Except ε σ) (s : σ) (ops : List ι) : σ :=
  ops.foldl (fun s op => attempt (f op) s) s

/-- What every accepted operation keeps holds after every sequence of operations. -/
theorem attempts_invariant {I : σ → Prop} {f : ι → σ → Except ε σ} {s : σ}
    (hstep : ∀ op s s', I s → f op s = .ok s' → I s') (hs : I s) (ops : List ι) :
    I (attempts f s ops) := by
  induction ops generalizing s with
  | nil => exact hs
  | cons op ops ih =>
    have hop : I (attempt (f op) s) := by
      unfold attempt
      cases hf : f op s with
      | ok s' => exact hstep op s s' hs hf
      | error _ => exact hs
    exact ih hop

end Fallible
