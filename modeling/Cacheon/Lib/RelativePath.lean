import Mathlib.Data.String.Basic

/-!
# Relative paths

A path below a directory, as its components, and its text with slashes between them.  Paths are
ordered component by component, texts character by character; the two orders differ.

* `RelativePath.posix` : the text.
* `RelativePath.Clash` : a directory whose name, followed by a character below the slash, begins
  the name of a sibling.
* `RelativePath.posix_lt_iff` : where two paths do not clash the orders agree.
* `RelativePath.posix_inj` : a text names one path.
-/

/-- A path below a directory, as its components. -/
abbrev RelativePath := List String

instance RelativePath.lawfulBEq : LawfulBEq RelativePath := List.instLawfulBEq

namespace RelativePath

open List

variable {c : String} {p : RelativePath}

/-- A component: not empty and without a slash. -/
def IsName (c : String) : Prop := c.toList ≠ [] ∧ '/' ∉ c.toList

instance : DecidablePred IsName := fun _ => instDecidableAnd

/-- The characters of a path, with a slash between components. -/
def chars : RelativePath → List Char
  | [] => []
  | [c] => c.toList
  | c :: d :: rest => c.toList ++ '/' :: chars (d :: rest)

/-- The text of a path. -/
def posix (p : RelativePath) : String := String.ofList p.chars

/-- Split characters at the slashes. -/
def splitSlash : List Char → List (List Char)
  | [] => [[]]
  | c :: rest =>
    if c = '/' then [] :: splitSlash rest
    else match splitSlash rest with
      | [] => [[c]]
      | part :: parts => (c :: part) :: parts

theorem chars_cons (h : p ≠ []) : chars (c :: p) = c.toList ++ '/' :: chars p := by
  cases p with
  | nil => exact absurd rfl h
  | cons d rest => rfl

theorem exists_chars_cons (c : String) (p : RelativePath) :
    ∃ u, chars (c :: p) = c.toList ++ u := by
  cases p with
  | nil => exact ⟨[], (append_nil _).symm⟩
  | cons d rest => exact ⟨_, rfl⟩

/-! ### Characters in order -/

section Lex

variable {α : Type} [LinearOrder α]

theorem append_cons_lt {pre s t : List α} {a b : α} (h : a < b) :
    pre ++ a :: s < pre ++ b :: t := by
  exact append_left_lt (cons_lt_cons_iff.2 (.inl h))

theorem lt_append_cons (l : List α) (x : α) (s : List α) : l < l ++ x :: s := by
  have h : l ++ [] < l ++ x :: s := append_left_lt (nil_lt_cons x s)
  rwa [append_nil] at h

/-- A smaller list is a proper prefix, or is smaller where the two part. -/
theorem lt_cases {l l' : List α} (h : l < l') : (∃ x s, l' = l ++ x :: s) ∨
    ∃ pre a b s t, l = pre ++ a :: s ∧ l' = pre ++ b :: t ∧ a < b := by
  induction l generalizing l' with
  | nil =>
    cases l' with
    | nil => exact absurd h (lt_irrefl _)
    | cons b l' => exact .inl ⟨b, l', rfl⟩
  | cons a l ih =>
    cases l' with
    | nil => exact absurd h (not_lt_nil _)
    | cons b l' =>
      rcases cons_lt_cons_iff.1 h with hlt | ⟨rfl, hlt⟩
      · exact .inr ⟨[], a, b, l, l', rfl, rfl, hlt⟩
      · rcases ih hlt with ⟨x, s, rfl⟩ | ⟨pre, c, d, s, t, rfl, rfl, hcd⟩
        · exact .inl ⟨x, s, rfl⟩
        · exact .inr ⟨a :: pre, c, d, s, t, rfl, rfl, hcd⟩

end Lex

/-! ### The two orders -/

/-- The first path passes through a directory whose name, followed by a character below the
slash, begins the component of the second path at the same place. -/
def Clash (p q : RelativePath) : Prop :=
  ∃ (pre : RelativePath) (c d : String) (below rest : RelativePath) (x : Char) (s : List Char),
    p = pre ++ c :: below ∧ below ≠ [] ∧ q = pre ++ d :: rest ∧
      d.toList = c.toList ++ x :: s ∧ x < '/'

variable {p q : RelativePath} {l : List Char}

theorem Clash.cons (h : Clash p q) : Clash (c :: p) (c :: q) := by
  obtain ⟨pre, a, b, below, rest, x, s, rfl, hbelow, rfl, hname, hx⟩ := h
  exact ⟨c :: pre, a, b, below, rest, x, s, rfl, hbelow, rfl, hname, hx⟩

/-- Paths that clash come in opposite orders. -/
theorem Clash.lt (h : Clash p q) : p < q ∧ chars q < chars p := by
  obtain ⟨pre, c, d, below, rest, x, s, rfl, hbelow, rfl, hname, hx⟩ := h
  have hcd : c < d := by
    rw [String.lt_iff_toList_lt, hname]
    exact lt_append_cons ..
  refine ⟨append_cons_lt hcd, ?_⟩
  induction pre with
  | nil =>
    rw [nil_append, nil_append, chars_cons hbelow]
    obtain ⟨u, hu⟩ := exists_chars_cons d rest
    rw [hu, hname, append_assoc]
    exact append_cons_lt hx
  | cons a pre ih =>
    rw [cons_append, cons_append, chars_cons (by simp), chars_cons (by simp)]
    exact append_left_lt (cons_lt_cons_iff.2 (.inr ⟨rfl, ih⟩))

/-- Where paths do not clash the order of the texts follows the order of the components. -/
theorem chars_lt_of_lt (hq : ∀ d ∈ q, IsName d) (h : p < q)
    (hclash : ¬ Clash p q) : chars p < chars q := by
  induction p generalizing q with
  | nil =>
    cases q with
    | nil => exact absurd h (lt_irrefl _)
    | cons d rest =>
      obtain ⟨u, hu⟩ := exists_chars_cons d rest
      obtain ⟨x, s, hname⟩ := exists_cons_of_ne_nil (hq d (.head _)).1
      rw [hu, hname]
      exact nil_lt_cons x (s ++ u)
  | cons c below ih =>
    cases q with
    | nil => exact absurd h (not_lt_nil _)
    | cons d rest =>
      obtain ⟨u, hu⟩ := exists_chars_cons d rest
      rcases cons_lt_cons_iff.1 h with hcd | ⟨rfl, hrest⟩
      · rcases lt_cases (String.lt_iff_toList_lt.1 hcd) with ⟨x, s, hname⟩ |
          ⟨pre, a, b, s, t, hc, hd, hab⟩
        · -- the name is a proper prefix: a slash or the end stands against the next character
          rw [hu, hname]
          by_cases hbelow : below = []
          · subst hbelow
            rw [chars, append_assoc]
            exact lt_append_cons ..
          · rw [chars_cons hbelow, append_assoc]
            refine append_cons_lt ?_
            have hx : x ≠ '/' := by
              rintro rfl
              exact (hq d (.head _)).2 (by rw [hname]; simp)
            have hnot : ¬ x < '/' := fun hlt =>
              hclash ⟨[], c, d, below, rest, x, s, rfl, hbelow, rfl, hname, hlt⟩
            exact lt_of_le_of_ne (not_lt.1 hnot) hx.symm
        · obtain ⟨w, hw⟩ := exists_chars_cons c below
          rw [hu, hw, hc, hd, append_assoc, append_assoc]
          exact append_cons_lt hab
      · have hrest' : rest ≠ [] := by
          rintro rfl
          exact absurd hrest (not_lt_nil _)
        rw [chars_cons hrest']
        by_cases hbelow : below = []
        · subst hbelow
          exact lt_append_cons ..
        · rw [chars_cons hbelow]
          refine append_left_lt (cons_lt_cons_iff.2 (.inr ⟨rfl, ?_⟩))
          exact ih (fun d hd => hq d (.tail _ hd)) hrest fun hc => hclash hc.cons

@[simp] theorem toList_posix (p : RelativePath) : p.posix.toList = p.chars := String.toList_ofList

/-- Where two paths do not clash their texts come in the order of the paths. -/
theorem posix_lt_iff (hp : ∀ c ∈ p, IsName c) (hq : ∀ d ∈ q, IsName d)
    (hpq : ¬ Clash p q) (hqp : ¬ Clash q p) : posix p < posix q ↔ p < q := by
  rw [String.lt_iff_toList_lt, toList_posix, toList_posix]
  refine ⟨fun h => ?_, fun h => chars_lt_of_lt hq h hpq⟩
  rcases lt_trichotomy p q with hlt | rfl | hgt
  · exact hlt
  · exact absurd h (lt_irrefl _)
  · exact absurd (chars_lt_of_lt hp hgt hqp) h.asymm

/-! ### Reading a text -/

theorem splitSlash_eq (l : List Char) : splitSlash l = l.splitOn '/' := by
  induction l with
  | nil => rfl
  | cons c l ih =>
    rw [splitSlash, splitOn_cons_eq_if_modifyHead, ih]
    cases hsplit : l.splitOn '/' <;> simp_all

/-- A part has no separator. -/
theorem not_mem_of_mem_splitOn {a : Char} {part : List Char} (h : part ∈ l.splitOn a) :
    a ∉ part := by
  induction l generalizing part with
  | nil => simp_all
  | cons c l ih =>
    rw [splitOn_cons_eq_if_modifyHead] at h
    cases hsplit : l.splitOn a <;> grind [List.modifyHead]

theorem chars_eq (p : RelativePath) : p.chars = ['/'].intercalate (p.map String.toList) := by
  induction p with
  | nil => rfl
  | cons c p ih =>
    cases p with
    | nil => simp [chars]
    | cons d rest => simp [chars_cons, ih]

/-- A path is read back from its text. -/
theorem splitSlash_chars (hne : p ≠ []) (hp : ∀ c ∈ p, IsName c) :
    splitSlash p.chars = p.map String.toList := by
  rw [splitSlash_eq, chars_eq]
  refine splitOn_intercalate '/' (fun part hpart => ?_) (mt map_eq_nil_iff.1 hne)
  obtain ⟨c, hc, rfl⟩ := mem_map.1 hpart
  exact (hp c hc).2

theorem posix_inj (hp : p ≠ []) (hq : q ≠ []) (hpn : ∀ c ∈ p, IsName c)
    (hqn : ∀ c ∈ q, IsName c) (h : posix p = posix q) : p = q := by
  have hchars : p.chars = q.chars := by rw [← toList_posix, ← toList_posix, h]
  have hsplit := congrArg splitSlash hchars
  rw [splitSlash_chars hp hpn, splitSlash_chars hq hqn] at hsplit
  exact map_injective_iff.2 (fun _ _ => String.toList_inj.1) hsplit

end RelativePath
