import Cacheon.Lib.Keyed
import Mathlib.Data.List.Lex

/-!
# Canonical JSON text

JSON data over strings of code points, its text without white space, and the bytes of the text.
Strings may hold surrogates, which have a text but no UTF-8 encoding.

* `JsonTree.render` : the text of data, members in the order they are in.
* `JsonTree.canonical` : the members of every object sorted by key.
* `JsonTree.read` : the data that a text without white space starts with; `read_render` says that
  it reads every tree back, so that a text is the text of one tree only.
* `utf8_inj` : so are the bytes of a text.
-/

open List

namespace JsonText

variable {r s : Text} {c n m : ℕ}

/-- A string as its code points. -/
abbrev Text := List ℕ

/-- The code points of a literal. -/
def ascii (s : String) : Text := s.toList.map Char.toNat

theorem ascii_inj {s t : String} : ascii s = ascii t ↔ s = t := by
  simp [ascii, map_inj_right, Char.toNat_inj, String.toList_inj]

/-! ### Strings and numbers -/

/-- A lowercase hexadecimal digit. -/
def hexDigit (n : ℕ) : ℕ := if n < 10 then 48 + n else 87 + n

/-- One code point inside quotes. -/
def escape (c : ℕ) : Text :=
  if c = 34 then ascii "\\\""
  else if c = 92 then ascii "\\\\"
  else if c = 10 then ascii "\\n"
  else if c = 13 then ascii "\\r"
  else if c = 9 then ascii "\\t"
  else if c = 12 then ascii "\\f"
  else if c = 8 then ascii "\\b"
  else if c < 32 then ascii "\\u00" ++ [hexDigit (c / 16), hexDigit (c % 16)]
  else [c]

/-- A quoted string. -/
def quote (s : Text) : Text := 34 :: (s.flatMap escape ++ [34])

/-- The decimal digits of a number. -/
def digits (n : ℕ) : Text := (Nat.toDigits 10 n).map Char.toNat

/-- A decimal integer. -/
def intText (n : ℤ) : Text := if n < 0 then 45 :: digits n.natAbs else digits n.natAbs

/-- The code point that an escaped text starts with, and what follows it. -/
def unescape : Text → Option (ℕ × Text)
  | 92 :: 34 :: rest => some (34, rest)
  | 92 :: 92 :: rest => some (92, rest)
  | 92 :: 110 :: rest => some (10, rest)
  | 92 :: 114 :: rest => some (13, rest)
  | 92 :: 116 :: rest => some (9, rest)
  | 92 :: 102 :: rest => some (12, rest)
  | 92 :: 98 :: rest => some (8, rest)
  | 92 :: 117 :: 48 :: 48 :: high :: low :: rest =>
    some (16 * (high - 48) + (if low < 58 then low - 48 else low - 87), rest)
  | c :: rest => some (c, rest)
  | [] => none

theorem unescape_escape (c : ℕ) (rest : Text) : unescape (escape c ++ rest) = some (c, rest) := by
  unfold escape
  split_ifs with h₁ h₂ h₃ h₄ h₅ h₆ h₇ h₈
  · rw [h₁]; rfl
  · rw [h₂]; rfl
  · rw [h₃]; rfl
  · rw [h₄]; rfl
  · rw [h₅]; rfl
  · rw [h₆]; rfl
  · rw [h₇]; rfl
  · have hread : 16 * (hexDigit (c / 16) - 48) + (if hexDigit (c % 16) < 58 then
        hexDigit (c % 16) - 48 else hexDigit (c % 16) - 87) = c := by
      unfold hexDigit
      split_ifs <;> omega
    show some (_, rest) = _
    rw [hread]
  · rw [singleton_append, unescape.eq_def]
    split <;> simp_all

/-- An escape never starts with the closing quote. -/
theorem escape_append_ne {q : Text} : escape c ++ q ≠ 34 :: r := by
  intro h
  have hread := congrArg unescape h
  rw [unescape_escape] at hread
  have hc : c = 34 := by cases hread; rfl
  subst hc
  cases h

/-- The string up to its closing quote, and what follows it. -/
def readString : ℕ → Text → Option (Text × Text)
  | 0, _ => none
  | _ + 1, 34 :: rest => some ([], rest)
  | fuel + 1, t => do
    let (c, rest) ← unescape t
    let (s, rest) ← readString fuel rest
    return (c :: s, rest)

theorem readString_append {fuel : ℕ} (h : s.length < fuel) :
    readString fuel (s.flatMap escape ++ 34 :: r) = some (s, r) := by
  induction s generalizing fuel with
  | nil =>
    obtain ⟨fuel, rfl⟩ := Nat.exists_eq_succ_of_ne_zero (Nat.ne_of_gt h)
    rfl
  | cons c s ih =>
    obtain ⟨fuel, rfl⟩ := Nat.exists_eq_succ_of_ne_zero (Nat.ne_of_gt (Nat.zero_lt_of_lt h))
    rw [flatMap_cons, append_assoc, readString]
    · rw [unescape_escape]
      simp [ih (Nat.lt_of_succ_lt_succ h)]
    · exact fun rest => escape_append_ne

/-- A decimal digit. -/
def isDigit (c : ℕ) : Bool := decide (48 ≤ c ∧ c ≤ 57)

/-- A text that cannot continue a number. -/
def Stops (r : Text) : Prop := ∀ c ∈ r.head?, isDigit c = false

theorem stops_nil : Stops [] := fun _ h => nomatch h

theorem stops_cons (h : isDigit c = false) : Stops (c :: r) := by
  intro d hd
  cases hd
  exact h

theorem isDigit_of_mem_digits (h : c ∈ digits n) : isDigit c = true := by
  obtain ⟨d, hd, rfl⟩ := mem_map.1 h
  have hdigit := Nat.isDigit_of_mem_toDigits (by decide) (by decide) hd
  simpa [isDigit, Char.isDigit, UInt32.le_iff_toNat_le] using hdigit

theorem digits_ne_nil (n : ℕ) : digits n ≠ [] := by
  simp [digits, Nat.toDigits_ne_nil]

/-- The digits of a number are what the text has before something that is not a digit. -/
theorem takeWhile_digits_append (n : ℕ) (hr : Stops r) :
    (digits n ++ r).takeWhile isDigit = digits n := by
  rw [takeWhile_append_of_pos fun c hc => isDigit_of_mem_digits hc]
  cases r with
  | nil => simp
  | cons c r => rw [takeWhile_cons_of_neg (by simp [hr c rfl]), append_nil]

/-- The number that a text starts with, and what follows it. -/
def readInt : Text → Option (ℤ × Text)
  | 45 :: rest => (readNat rest).map fun n => (-n.1, n.2)
  | t => (readNat t).map fun n => (n.1, n.2)
where
  /-- The same without a sign. -/
  readNat (t : Text) : Option (ℕ × Text) :=
    if t.takeWhile isDigit = [] then none
    else some (Nat.ofDigitChars 10 ((t.takeWhile isDigit).map Char.ofNat) 0, t.dropWhile isDigit)

theorem readNat_append (n : ℕ) (hr : Stops r) : readInt.readNat (digits n ++ r) = some (n, r) := by
  have hchars : (digits n).map Char.ofNat = Nat.toDigits 10 n := by
    simp [digits, Function.comp_def]
  have hrest : (digits n ++ r).dropWhile isDigit = r := by
    have hsplit := takeWhile_append_dropWhile (p := isDigit) (l := digits n ++ r)
    rw [takeWhile_digits_append n hr] at hsplit
    exact append_cancel_left hsplit
  rw [readInt.readNat, takeWhile_digits_append n hr, if_neg (digits_ne_nil n), hchars, hrest,
    Nat.ofDigitChars_ten_toDigits]

/-- The first code point of an integer. -/
theorem intText_eq_cons (n : ℤ) : ∃ c rest, intText n = c :: rest ∧
    (c = 45 ∨ isDigit c = true) := by
  obtain ⟨c, rest, hdigits⟩ := exists_cons_of_ne_nil (digits_ne_nil n.natAbs)
  unfold intText
  split_ifs
  · exact ⟨45, _, rfl, .inl rfl⟩
  · exact ⟨c, rest, hdigits, .inr (isDigit_of_mem_digits (hdigits ▸ mem_cons_self))⟩

theorem readInt_append (n : ℤ) (hr : Stops r) : readInt (intText n ++ r) = some (n, r) := by
  unfold intText
  split_ifs with hneg
  · rw [cons_append, readInt, readNat_append _ hr]
    simp only [Option.map_some, Option.some.injEq, Prod.mk.injEq, and_true]
    omega
  · rw [readInt, readNat_append _ hr]
    · simp only [Option.map_some, Option.some.injEq, Prod.mk.injEq, and_true]
      omega
    · intro rest heq
      obtain ⟨c, rest', hdigits⟩ := exists_cons_of_ne_nil (digits_ne_nil n.natAbs)
      have hc : isDigit c = true := isDigit_of_mem_digits (hdigits ▸ mem_cons_self)
      rw [hdigits] at heq
      cases heq
      cases hc

end JsonText

open JsonText

/-! ### Trees -/

/-- JSON data. -/
inductive JsonTree where
  | null
  | bool (b : Bool)
  | int (n : ℤ)
  | str (s : Text)
  | arr (items : List JsonTree)
  | obj (members : List (Text × JsonTree))

namespace JsonTree

variable {v w : JsonTree}

mutual

/-- The text of data. -/
def render : JsonTree → Text
  | .null => ascii "null"
  | .bool true => ascii "true"
  | .bool false => ascii "false"
  | .int n => intText n
  | .str s => quote s
  | .arr [] => [91, 93]
  | .arr (v :: items) => 91 :: (v.render ++ renderItems items)
  | .obj [] => [123, 125]
  | .obj ((key, v) :: members) => 123 :: (quote key ++ 58 :: (v.render ++ renderMembers members))

/-- The items of an array after the first, and its end. -/
def renderItems : List JsonTree → Text
  | [] => [93]
  | v :: items => 44 :: (v.render ++ renderItems items)

/-- The members of an object after the first, and its end. -/
def renderMembers : List (Text × JsonTree) → Text
  | [] => [125]
  | (key, v) :: members => 44 :: (quote key ++ 58 :: (v.render ++ renderMembers members))

end

theorem stops_renderItems (items : List JsonTree) (r : Text) : Stops (renderItems items ++ r) := by
  cases items <;> exact stops_cons rfl

variable (members : List (Text × JsonTree))

theorem stops_renderMembers (r : Text) : Stops (renderMembers members ++ r) := by
  cases members <;> exact stops_cons rfl

mutual

/-- The data that a text starts with, and what follows it. -/
def read : ℕ → Text → Option (JsonTree × Text)
  | 0, _ => none
  | _ + 1, 110 :: 117 :: 108 :: 108 :: rest => some (.null, rest)
  | _ + 1, 116 :: 114 :: 117 :: 101 :: rest => some (.bool true, rest)
  | _ + 1, 102 :: 97 :: 108 :: 115 :: 101 :: rest => some (.bool false, rest)
  | fuel + 1, 34 :: rest => (readString fuel rest).map fun s => (.str s.1, s.2)
  | _ + 1, 91 :: 93 :: rest => some (.arr [], rest)
  | fuel + 1, 91 :: rest => (readItems fuel (44 :: rest)).map fun items => (.arr items.1, items.2)
  | _ + 1, 123 :: 125 :: rest => some (.obj [], rest)
  | fuel + 1, 123 :: rest => (readMembers fuel (44 :: rest)).map fun m => (.obj m.1, m.2)
  | _ + 1, t => (readInt t).map fun n => (.int n.1, n.2)

/-- The items of an array after the first, up to its end. -/
def readItems : ℕ → Text → Option (List JsonTree × Text)
  | _ + 1, 93 :: rest => some ([], rest)
  | fuel + 1, 44 :: rest => do
    let (v, rest) ← read fuel rest
    let (items, rest) ← readItems fuel rest
    return (v :: items, rest)
  | _, _ => none

/-- The members of an object after the first, up to its end. -/
def readMembers : ℕ → Text → Option (List (Text × JsonTree) × Text)
  | _ + 1, 125 :: rest => some ([], rest)
  | fuel + 1, 44 :: 34 :: rest => do
    let (key, rest) ← readString fuel rest
    let 58 :: rest := rest | none
    let (v, rest) ← read fuel rest
    let (members, rest) ← readMembers fuel rest
    return ((key, v) :: members, rest)
  | _, _ => none

end

theorem render_append_ne {r s : Text} : v.render ++ r ≠ 93 :: s := by
  rcases v with _ | (_ | _) | n | t | (_ | _) | (_ | _)
  case int =>
    obtain ⟨c, rest, hcons, hc⟩ := intText_eq_cons n
    rw [render, hcons]
    intro h
    cases h
    simp [isDigit] at hc
  all_goals nofun

mutual

/-- **A text is read back**, if what follows cannot continue a number. -/
theorem read_render : ∀ v : JsonTree, ∃ n, ∀ fuel r, Stops r →
    read (fuel + n) (v.render ++ r) = some (v, r)
  | .null | .bool true | .bool false | .arr [] | .obj [] => ⟨1, fun _ _ _ => rfl⟩
  | .int n => ⟨1, fun fuel r hr => by
      obtain ⟨c, rest, hcons, hc⟩ := intText_eq_cons n
      have hread := readInt_append n hr
      rw [render, hcons, cons_append] at *
      have hdefault : read (fuel + 1) (c :: (rest ++ r)) =
          (readInt (c :: (rest ++ r))).map fun n => (.int n.1, n.2) := by
        rcases hc with rfl | hdigit
        · rfl
        · have hrange : 48 ≤ c ∧ c ≤ 57 := by simpa [isDigit] using hdigit
          rw [read.eq_def]
          split <;> first | rfl | simp_all
      rw [hdefault, hread]
      rfl⟩
  | .str s => ⟨s.length + 2, fun fuel r _ => by
      rw [render, quote, cons_append, append_assoc, singleton_append]
      show (readString (fuel + s.length + 1) _).map _ = _
      rw [readString_append (by omega)]
      rfl⟩
  | .arr (v :: items) => by
    obtain ⟨n, hn⟩ := readItems_render (v :: items)
    refine ⟨n + 1, fun fuel r _ => ?_⟩
    have hitems := hn fuel r
    rw [renderItems, cons_append, append_assoc] at hitems
    rw [render, cons_append, append_assoc, ← Nat.add_assoc, read, hitems]
    · rfl
    · exact fun _ => render_append_ne
  | .obj (m :: members) => by
    obtain ⟨n, hn⟩ := readMembers_render (m :: members)
    refine ⟨n + 1, fun fuel r _ => ?_⟩
    show (readMembers (fuel + n) (renderMembers (m :: members) ++ r)).map _ = _
    rw [hn]
    rfl

/-- So are the items of an array up to its end. -/
theorem readItems_render : ∀ items : List JsonTree, ∃ n, ∀ fuel r,
    readItems (fuel + n) (renderItems items ++ r) = some (items, r)
  | [] => ⟨1, fun _ _ => rfl⟩
  | v :: items => by
    obtain ⟨n, hn⟩ := read_render v
    obtain ⟨m, hm⟩ := readItems_render items
    refine ⟨m + n + 1, fun fuel r => ?_⟩
    have hfirst := hn (fuel + m) _ (stops_renderItems items r)
    have hrest := hm (fuel + n) r
    rw [renderItems, cons_append, append_assoc, ← Nat.add_assoc, ← Nat.add_assoc, readItems, hfirst]
    simp [Nat.add_right_comm, hrest]

/-- So are the members of an object up to its end. -/
theorem readMembers_render : ∀ members : List (Text × JsonTree), ∃ n, ∀ fuel r,
    readMembers (fuel + n) (renderMembers members ++ r) = some (members, r)
  | [] => ⟨1, fun _ _ => rfl⟩
  | (key, v) :: members => by
    obtain ⟨n, hn⟩ := read_render v
    obtain ⟨m, hm⟩ := readMembers_render members
    refine ⟨m + n + key.length + 1 + 1, fun fuel r => ?_⟩
    have hkey : ∀ r, readString (fuel + (m + n + key.length + 1)) (key.flatMap escape ++ 34 :: r) =
        some (key, r) := fun r => readString_append (by omega)
    have hvalue := hn (fuel + m + key.length + 1) _ (stops_renderMembers members r)
    have hrest := hm (fuel + n + key.length + 1) r
    rw [show fuel + m + key.length + 1 + n = fuel + (m + n + key.length + 1) by omega] at hvalue
    rw [show fuel + n + key.length + 1 + m = fuel + (m + n + key.length + 1) by omega] at hrest
    rw [renderMembers, quote]
    simp only [cons_append, append_assoc, nil_append]
    rw [← Nat.add_assoc, readMembers, hkey]
    simp [hvalue, hrest]

end

theorem render_injective (h : v.render = w.render) : v = w := by
  obtain ⟨n, hn⟩ := read_render v
  obtain ⟨m, hm⟩ := read_render w
  have hread := hn m [] stops_nil
  rw [h, Nat.add_comm, hm n [] stops_nil] at hread
  cases hread
  rfl

/-! ### Sorted members -/

mutual

/-- The same data with the members of every object sorted by key. -/
def canonical : JsonTree → JsonTree
  | .null => .null
  | .bool b => .bool b
  | .int n => .int n
  | .str s => .str s
  | .arr items => .arr (canonicalItems items)
  | .obj members => .obj (Keyed.sortBy Prod.fst (canonicalMembers members))

/-- The items of an array. -/
def canonicalItems : List JsonTree → List JsonTree
  | [] => []
  | v :: items => v.canonical :: canonicalItems items

/-- The members of an object, before they are sorted. -/
def canonicalMembers : List (Text × JsonTree) → List (Text × JsonTree)
  | [] => []
  | (key, v) :: members => (key, v.canonical) :: canonicalMembers members

end

theorem members_eq_map : canonicalMembers members = members.map fun m => (m.1, m.2.canonical) := by
  induction members with
  | nil => rfl
  | cons m members ih => rw [canonicalMembers, ih, map_cons]

theorem canonical_obj : (obj members).canonical =
    obj (Keyed.sortBy Prod.fst (members.map fun m => (m.1, m.2.canonical))) := by
  rw [canonical, members_eq_map]

/-- The text of an object is its members' texts, joined. -/
theorem render_obj : (obj members).render =
    123 :: (List.intercalate [44] (members.map fun m => quote m.1 ++ 58 :: m.2.render) ++
      [125]) := by
  have htail : ∀ (m : Text × JsonTree) (members : List (Text × JsonTree)),
      quote m.1 ++ 58 :: (m.2.render ++ renderMembers members) = List.intercalate [44]
        ((m :: members).map fun m => quote m.1 ++ 58 :: m.2.render) ++ [125] := by
    intro m members
    induction members generalizing m with
    | nil => simp [renderMembers, List.intercalate]
    | cons m' members ih =>
      have hrest := ih m'
      rw [map_cons] at hrest
      rw [map_cons, map_cons, intercalate_cons_cons, append_assoc, ← hrest]
      simp [renderMembers]
  cases members with
  | nil => rfl
  | cons m members => rw [render, htail]

end JsonTree

/-! ### Bytes -/

namespace JsonText

variable {bytes : List UInt8}

/-- The character of a code point, none for a surrogate. -/
def scalar? (c : ℕ) : Option Char := if c.isValidChar then some (Char.ofNat c) else none

/-- The strict UTF-8 encoding of a text. -/
def utf8 (t : Text) : Option (List UInt8) :=
  (t.mapM scalar?).map fun chars => chars.flatMap String.utf8EncodeChar

theorem utf8_append (s t : Text) :
    utf8 (s ++ t) = (utf8 s).bind fun a => (utf8 t).map fun b => a ++ b := by
  simp only [utf8, mapM_append]
  cases s.mapM scalar? <;> cases t.mapM scalar? <;> simp

theorem toNat_of_scalar? {c : ℕ} {d : Char} (h : scalar? c = some d) : d.toNat = c := by
  unfold scalar? at h
  split_ifs at h with hc
  cases h
  rw [Char.ofNat, dif_pos hc]
  rfl

theorem map_toNat_of_mapM {t : Text} {chars : List Char} (h : t.mapM scalar? = some chars) :
    chars.map Char.toNat = t := by
  induction t generalizing chars with
  | nil =>
    cases h
    rfl
  | cons c t ih =>
    simp only [mapM_cons, bind, Option.bind_eq_some_iff] at h
    obtain ⟨d, hd, rest, hrest, heq⟩ := h
    cases heq
    rw [map_cons, toNat_of_scalar? hd, ih hrest]

/-- Bytes are the bytes of one text only. -/
theorem utf8_inj {s t : Text} (hs : utf8 s = some bytes) (ht : utf8 t = some bytes) : s = t := by
  obtain ⟨chars, hchars, hbytes⟩ := Option.map_eq_some_iff.1 hs
  obtain ⟨chars', hchars', hbytes'⟩ := Option.map_eq_some_iff.1 ht
  have hencode : chars.utf8Encode = chars'.utf8Encode :=
    congrArg List.toByteArray (hbytes.trans hbytes'.symm)
  have hsame : chars = chars' := by
    have hread := congrArg ByteArray.utf8Decode? hencode
    simpa using hread
  rw [← map_toNat_of_mapM hchars, hsame, map_toNat_of_mapM hchars']

/-- The bytes of parts that are joined. -/
theorem utf8_intercalate {sep : Text} (hsep : utf8 sep = some bytes) (parts : List Text) :
    utf8 (List.intercalate sep parts) = (parts.mapM utf8).map (List.intercalate bytes) := by
  induction parts with
  | nil => rfl
  | cons part parts ih =>
    cases parts with
    | nil => cases hpart : utf8 part <;> simp [hpart]
    | cons next parts =>
      rw [intercalate_cons_cons, utf8_append, utf8_append, hsep, ih]
      simp only [mapM_cons]
      cases hpart : utf8 part with
      | none => rfl
      | some a =>
        cases hnext : utf8 next with
        | none => rfl
        | some b => cases parts.mapM utf8 <;> simp [intercalate_cons_cons]

end JsonText
