import Mathlib.Data.List.Basic
import Mathlib.Data.List.Induction

/-!
# Hash-chained logs

A log whose entries carry a sequence number and the digest of the entry before.

* `HashChain.Chained` : the entries continue a position without a gap.
* `HashChain.walk` : follow the links back to the first entry, refusing a cycle; on a chained
  log it visits every entry once (`walk_of_chained`).
* `HashChain.Appender` : an appender that numbers and chains what it is given; whatever it
  writes is chained (`Appender.wellFormed_addAll`).
-/

namespace HashChain

open List

variable {ε δ : Type}

/-- How entries are numbered, linked and hashed. -/
structure Links (ε δ : Type) where
  sequence : ε → ℕ
  /-- The digest of the entry before it. -/
  previous : ε → Option δ
  hash : ε → δ

variable (L : Links ε δ)

/-- The entries continue sequence `n` after digest `p`. -/
def Chained (n : ℕ) (p : Option δ) : List ε → Prop
  | [] => True
  | e :: l => L.sequence e = n ∧ L.previous e = p ∧ Chained (n + 1) (some (L.hash e)) l

/-- The digest that the next entry links to. -/
def tip (p : Option δ) (l : List ε) : Option δ := l.foldl (fun _ e => some (L.hash e)) p

variable {L} {n : ℕ} {p : Option δ} {l l' : List ε} {e : ε}

@[simp] theorem tip_nil : tip L p [] = p := rfl

@[simp] theorem tip_snoc : tip L p (l ++ [e]) = some (L.hash e) := by simp [tip]

@[simp] theorem chained_nil : Chained L n p [] := trivial

theorem chained_append : Chained L n p (l ++ l') ↔
      Chained L n p l ∧ Chained L (n + l.length) (tip L p l) l' := by
  induction l generalizing n p with
  | nil => simp
  | cons e l ih =>
    have hlen : n + 1 + l.length = n + (e :: l).length := by simp only [length_cons]; omega
    simp only [cons_append, Chained, ih, hlen, and_assoc]
    rfl

theorem Chained.le_sequence (h : Chained L n p l) (he : e ∈ l) : n ≤ L.sequence e := by
  induction l generalizing n p with
  | nil => cases he
  | cons e' l ih =>
    rcases mem_cons.1 he with rfl | he
    · exact Nat.le_of_eq h.1.symm
    · exact Nat.le_of_succ_le (ih h.2.2 he)

/-- The entries of a chain are in the order of their numbers. -/
theorem Chained.pairwise (h : Chained L n p l) : l.Pairwise (L.sequence · < L.sequence ·) := by
  induction l generalizing n p with
  | nil => exact .nil
  | cons e l ih =>
    refine .cons (fun e' he' => ?_) (ih h.2.2)
    rw [h.1]
    exact h.2.2.le_sequence he'

/-- The number after the largest one is the next of the chain. -/
theorem Chained.next_sequence (h : Chained L 1 p l) :
    (l.map L.sequence).foldr max 0 + 1 = 1 + l.length := by
  have hmax : ∀ {n p} (l : List ε), l ≠ [] → Chained L n p l →
      (l.map L.sequence).foldr max 0 + 1 = n + l.length := by
    intro n p l
    induction l generalizing n p with
    | nil => exact fun hne => absurd rfl hne
    | cons e l ih =>
      intro _ h
      cases l with
      | nil => simp [h.1]
      | cons e' l =>
        have hrest := ih (cons_ne_nil _ _) h.2.2
        simp only [map_cons, foldr_cons, length_cons, h.1] at hrest ⊢
        omega
  cases l with
  | nil => rfl
  | cons e l => exact hmax (e :: l) (cons_ne_nil _ _) h

/-! ### Readers -/

/-- Why a walk back along the links stopped. -/
inductive WalkFault where
  /-- An entry was visited twice. -/
  | cycle
  /-- A link has no entry. -/
  | missing
  /-- The entry found under a link has another digest. -/
  | differs
deriving DecidableEq, Repr

variable (L) in
/-- Follow the links from an entry to the first one, and give the digests visited.  An entry
that is visited twice ends the walk, so the number of entries bounds it. -/
def walk [DecidableEq δ] (find : δ → Option ε) : ℕ → List δ → ε → Except WalkFault (List δ)
  | 0, _, _ => .error .cycle
  | fuel + 1, seen, e =>
    if L.hash e ∈ seen then .error .cycle
    else match L.previous e with
      | none => .ok (L.hash e :: seen)
      | some d => match find d with
        | none => .error .missing
        | some e' =>
          if L.hash e' = d then walk find fuel (L.hash e :: seen) e' else .error .differs

/-- A walk from the end of a chain visits every entry once. -/
theorem walk_of_chained [DecidableEq δ] {find : δ → Option ε} {seen : List δ} {fuel : ℕ}
    (h : Chained L n none (l ++ [e])) (hfind : ∀ e' ∈ l, find (L.hash e') = some e')
    (hnodup : ((l ++ [e]).map L.hash ++ seen).Nodup) (hfuel : l.length < fuel) :
    walk L find fuel seen e = .ok ((l ++ [e]).map L.hash ++ seen) := by
  induction l using List.reverseRecOn generalizing e seen fuel with
  | nil =>
    obtain ⟨fuel, rfl⟩ := Nat.exists_eq_add_of_lt hfuel
    have hnew : L.hash e ∉ seen := (nodup_cons.1 hnodup).1
    have hfirst : L.previous e = none := h.2.1
    simp [walk, hnew, hfirst]
  | append_singleton l e' ih =>
    obtain ⟨fuel, rfl⟩ : ∃ k, fuel = k + 1 := ⟨fuel - 1, by omega⟩
    obtain ⟨hl, -, hlink, -⟩ := chained_append.1 h
    have hshift : (l ++ [e'] ++ [e]).map L.hash ++ seen =
        (l ++ [e']).map L.hash ++ L.hash e :: seen := by simp
    rw [hshift] at hnodup ⊢
    have hnew : L.hash e ∉ seen := (nodup_cons.1 (nodup_append.1 hnodup).2.1).1
    have hfound := hfind e' (by simp)
    have hfuel' : l.length < fuel := by
      simp only [length_append, length_singleton] at hfuel
      omega
    have hrest := ih hl (fun x hx => hfind x (by simp [hx])) hnodup hfuel'
    simpa [walk, hnew, hlink, hfound] using hrest

/-! ### Writers -/

/-- An appender at a position of the chain. -/
structure Appender (ε δ : Type) where
  next : ℕ
  previous : Option δ
  entries : List ε

variable (L) in
/-- Number, link and append one entry. -/
def Appender.add (w : Appender ε δ) (draft : ℕ → Option δ → ε) : Appender ε δ :=
  let e := draft w.next w.previous
  ⟨w.next + 1, some (L.hash e), w.entries ++ [e]⟩

variable (L) in
/-- Append several entries. -/
def Appender.addAll (w : Appender ε δ) (drafts : List (ℕ → Option δ → ε)) : Appender ε δ :=
  drafts.foldl (Appender.add L) w

variable (L) in
/-- The appender is at the end of a chain that started at `n`, `p`. -/
structure Appender.WellFormed (n : ℕ) (p : Option δ) (w : Appender ε δ) : Prop where
  chained : Chained L n p w.entries
  next : w.next = n + w.entries.length
  previous : w.previous = tip L p w.entries

/-- The draft takes the number and the link it is given. -/
def Draft (L : Links ε δ) (draft : ℕ → Option δ → ε) : Prop :=
  ∀ n p, L.sequence (draft n p) = n ∧ L.previous (draft n p) = p

theorem Appender.wellFormed_start : Appender.WellFormed L n p ⟨n, p, []⟩ := ⟨trivial, rfl, rfl⟩

theorem Appender.WellFormed.add {w : Appender ε δ} {draft : ℕ → Option δ → ε}
    (hw : w.WellFormed L n p) (hd : Draft L draft) : (w.add L draft).WellFormed L n p := by
  obtain ⟨hseq, hprev⟩ := hd w.next w.previous
  refine ⟨?_, ?_, ?_⟩
  · refine chained_append.2 ⟨hw.chained, ?_, ?_, trivial⟩
    · rw [hseq, hw.next]
    · rw [hprev, hw.previous]
  · simp only [Appender.add, length_append, length_singleton, hw.next]
    omega
  · simp [Appender.add]

theorem Appender.WellFormed.addAll {w : Appender ε δ} {drafts : List (ℕ → Option δ → ε)}
    (hw : w.WellFormed L n p) (hd : ∀ d ∈ drafts, Draft L d) :
    (w.addAll L drafts).WellFormed L n p := by
  induction drafts generalizing w with
  | nil => exact hw
  | cons d drafts ih =>
    exact ih (hw.add (hd d (by simp))) fun d' hd' => hd d' (mem_cons_of_mem d hd')

/-- What a appender appends is what it was given, up to the numbers and links. -/
theorem Appender.map_entries_addAll {β : Type} {body : ε → β} {make : β → ℕ → Option δ → ε}
    (h : ∀ b n p, body (make b n p) = b) {w : Appender ε δ} {bodies : List β} :
    (w.addAll L (bodies.map make)).entries.map body = w.entries.map body ++ bodies := by
  induction bodies generalizing w with
  | nil => simp [Appender.addAll]
  | cons b bodies ih =>
    have hrest := ih (w := w.add L (make b))
    simp only [Appender.addAll, map_cons, foldl_cons] at hrest ⊢
    rw [hrest]
    simp [Appender.add, h]

end HashChain
