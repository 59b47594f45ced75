import Cacheon.Identity
import Cacheon.Lib.Fallible
import Cacheon.Lib.Json

/-!
# Strict validation

The shared checks on values read from JSON.  Each takes the error of its caller.

* `requireDigest`, `requireInt`, `requireIdentifier`, `requireExactFields`, `requireStrings`.
* `requireDigest_ok`, … : a check that passes says exactly what the value is.
-/

namespace Cacheon

open Fallible Option Json

variable {ε : Type} (error : String → ε)

/-- 64 lowercase hexadecimal digits. -/
def isSha256Hex (text : String) : Bool :=
  decide (text.toList.length = 64) && text.toList.all Digest.isHexDigit

/-- A digest that is not all zero. -/
def requireDigest (field : String) (value : Json) : Except ε Digest := do
  let text ← get (error (field ++ " must be a lowercase 64-hex SHA-256 digest"))
    (value.text.filter isSha256Hex)
  get (error (field ++ " must not be the all-zero digest")) (Digest.ofHex text)

/-- An integer of at least `minimum`. -/
def requireInt (field : String) (minimum : ℕ) (value : Json) : Except ε ℕ :=
  get (error (field ++ " must be an integer >= " ++ toString minimum))
    (value.natural.filter (minimum ≤ ·))

/-- An integer between two bounds. -/
def requireIntIn (field : String) (minimum maximum : ℕ) (value : Json) : Except ε ℕ :=
  get (error (field ++ " must be an integer in [" ++ toString minimum ++ ", " ++
    toString maximum ++ "]")) (value.natural.filter fun n => minimum ≤ n ∧ n ≤ maximum)

/-- A text of the caller's grammar. -/
def requireText (message : String) (pattern : String → Bool) (value : Json) : Except ε String :=
  get (error message) (value.text.filter pattern)

/-- An identifier of the caller's grammar. -/
def requireIdentifier (field : String) (pattern : String → Bool) (value : Json) : Except ε String :=
  requireText error (field ++ " is not a canonical identifier") pattern value

/-- An object with exactly these fields. -/
def requireExactFields (label : String) (fields : List String) (value : Json) : Except ε Unit := do
  check (value.members.isSome) (error (label ++ " must be an object"))
  check (value.hasFields fields) (error (label ++ " fields mismatch"))

/-- An array of texts. -/
def requireStrings (message : String) (value : Json) : Except ε (List String) :=
  get (error message) (value.items.bind fun items => items.mapM text)

variable {error} {value : Json} {s field message : String} {pattern : String → Bool} {d : Digest}
  {n minimum : ℕ} {l : List String}

theorem isSha256Hex_of_ofHex {text : String} (h : Digest.ofHex text = some d) :
    isSha256Hex text = true := by
  unfold Digest.ofHex at h
  split_ifs at h with htext
  simp [isSha256Hex, htext.1, htext.2]

@[simp] theorem text_eq_some : value.text = some s ↔ value = .str s := by
  cases value <;> simp [text]

theorem natural_eq_some : value.natural = some n ↔ value = .num n := by
  cases value with
  | num k =>
    simp only [natural, ite_none_right_eq_some, some.injEq, num.injEq]
    omega
  | null | bool _ | str _ | arr _ | obj _ => simp [natural]

@[simp] theorem requireDigest_ok :
    requireDigest error field value = .ok d ↔ value = .str d.hex := by
  simp only [requireDigest, bind_ok, get_ok, filter_eq_some_iff, text_eq_some]
  constructor
  · rintro ⟨text, ⟨rfl, -⟩, hread⟩
    rw [Digest.hex_of_ofHex hread]
  · rintro rfl
    exact ⟨d.hex, ⟨rfl, isSha256Hex_of_ofHex (Digest.ofHex_hex d)⟩, Digest.ofHex_hex d⟩

@[simp] theorem requireInt_ok :
    requireInt error field minimum value = .ok n ↔ value = .num n ∧ minimum ≤ n := by
  simp [requireInt, filter_eq_some_iff, natural_eq_some]

@[simp] theorem requireIntIn_ok {maximum : ℕ} :
    requireIntIn error field minimum maximum value = .ok n ↔
      value = .num n ∧ minimum ≤ n ∧ n ≤ maximum := by
  simp [requireIntIn, filter_eq_some_iff, natural_eq_some]

@[simp] theorem requireText_ok :
    requireText error message pattern value = .ok s ↔ value = .str s ∧ pattern s = true := by
  simp [requireText, filter_eq_some_iff]

@[simp] theorem exactFields_ok {label : String} {fields : List String} {u : Unit} :
    requireExactFields error label fields value = .ok u ↔ value.hasFields fields := by
  simp only [requireExactFields, bind_ok, check_ok, exists_const, and_iff_right_iff_imp]
  rintro ⟨members, hmems, -⟩
  exact isSome_iff_exists.2 ⟨members, hmems⟩

theorem mapM_text_eq_some {items : List Json} : items.mapM text = some l ↔ items = l.map .str := by
  induction items generalizing l with
  | nil => cases l <;> simp
  | cons v items ih =>
    cases l with
    | nil => simp [List.mapM_cons, bind_eq_some_iff]
    | cons s l => simp [List.mapM_cons, bind_eq_some_iff, ih]

@[simp] theorem requireStrings_ok :
    requireStrings error message value = .ok l ↔ value = .arr (l.map .str) := by
  cases value <;> simp [requireStrings, items, mapM_text_eq_some]

end Cacheon
