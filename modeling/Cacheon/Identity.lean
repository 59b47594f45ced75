import Mathlib.Algebra.Group.Nat.Defs
import Mathlib.Data.List.Induction
import Mathlib.Order.Nat

/-!
# Content identities

Every durable object of the subnet is named by a SHA-256 digest of its canonical encoding.
The hash itself is outside the model: each function that hashes takes the hash as a
parameter.
-/

namespace Cacheon

open List

/-- A lowercase 64-hex SHA-256 digest that is not the all-zero placeholder, by its value.
Hex strings of one length compare as the numbers they write, so the order of the source's
digest strings is the order of `ℕ`. -/
def Digest : Type := {n : ℕ // 0 < n ∧ n < 2 ^ 256}
deriving DecidableEq

namespace Digest

instance : LinearOrder Digest := inferInstanceAs (LinearOrder {n : ℕ // 0 < n ∧ n < 2 ^ 256})

/-- The `n`-th digest. -/
def ofNat (n : ℕ) : Digest :=
  ⟨n % (2 ^ 256 - 1) + 1, Nat.succ_pos _, Nat.add_lt_of_lt_sub (Nat.mod_lt _ (by decide))⟩

instance : Inhabited Digest := ⟨ofNat 0⟩

/-- The 64 lowercase hexadecimal digits of a digest. -/
def hex (d : Digest) : String :=
  let digits := Nat.toDigits 16 d.val
  String.ofList (List.replicate (64 - digits.length) '0' ++ digits)

/-- A lowercase hexadecimal digit. -/
def isHexDigit (c : Char) : Bool := c.isDigit || ('a' ≤ c && c ≤ 'f')

/-- The value of a hexadecimal digit. -/
def hexValue (c : Char) : ℕ := if c.isDigit then c.toNat - 48 else c.toNat - 87

/-- The number that hexadecimal digits write. -/
def ofHexDigits (l : List Char) : ℕ := l.foldl (fun n c => 16 * n + hexValue c) 0

/-- The digest that a text writes: 64 lowercase hexadecimal digits, not all zero. -/
def ofHex (text : String) : Option Digest :=
  if text.toList.length = 64 ∧ text.toList.all isHexDigit then
    if h : 0 < ofHexDigits text.toList ∧ ofHexDigits text.toList < 2 ^ 256 then some ⟨_, h⟩
    else none
  else none

theorem digitChar_spec {n : ℕ} (h : n < 16) :
    hexValue n.digitChar = n ∧ isHexDigit n.digitChar = true := by
  have hall : ∀ n : Fin 16, hexValue (n : ℕ).digitChar = n ∧
      isHexDigit (n : ℕ).digitChar = true := by decide
  exact hall ⟨n, h⟩

theorem hexValue_spec {c : Char} (h : isHexDigit c = true) :
    hexValue c < 16 ∧ (hexValue c).digitChar = c := by
  have hall : ∀ n < 128, isHexDigit (Char.ofNat n) = true →
      hexValue (Char.ofNat n) < 16 ∧ (hexValue (Char.ofNat n)).digitChar = Char.ofNat n := by
    decide
  have hsmall : c.toNat < 128 := by
    simp only [isHexDigit, Char.isDigit, Bool.or_eq_true, Bool.and_eq_true, decide_eq_true_eq,
      Char.le_def, UInt32.le_iff_toNat_le] at h
    have hf : ('f' : Char).val.toNat = 102 := rfl
    have hnine : ('9' : Char).val.toNat = 57 := rfl
    have hval : c.toNat = c.val.toNat := rfl
    omega
  have hc := hall c.toNat hsmall
  rw [Char.ofNat_toNat] at hc
  exact hc h

/-- What the hexadecimal digits of a number write, and that they are such digits. -/
theorem toDigits_spec (n : ℕ) : ofHexDigits (Nat.toDigits 16 n) = n ∧
    ∀ c ∈ Nat.toDigits 16 n, isHexDigit c = true := by
  induction n using Nat.strongRecOn with
  | ind n ih =>
    rcases Nat.lt_or_ge n 16 with hlt | hge
    · obtain ⟨hvalue, hdigit⟩ := digitChar_spec hlt
      rw [Nat.toDigits_of_lt_base hlt]
      simp [ofHexDigits, hvalue, hdigit]
    · obtain ⟨hdiv, hdigits⟩ := ih (n / 16) (Nat.div_lt_self (by omega) (by decide))
      obtain ⟨hvalue, hdigit⟩ := digitChar_spec (Nat.mod_lt n (by decide : 0 < 16))
      rw [Nat.toDigits_of_base_le (by decide) hge]
      constructor
      · simp only [ofHexDigits, foldl_append, foldl_cons, foldl_nil] at hdiv ⊢
        omega
      · exact forall_mem_append.2 ⟨hdigits, forall_mem_singleton.2 hdigit⟩

@[simp] theorem ofHexDigits_zeros_append (k : ℕ) (l : List Char) :
    ofHexDigits (List.replicate k '0' ++ l) = ofHexDigits l := by
  induction k with
  | zero => rfl
  | succ k ih => exact ih

/-- The spelling of a digest: 64 digits that write its value. -/
theorem hex_spec (d : Digest) : d.hex.toList.length = 64 ∧ d.hex.toList.all isHexDigit = true ∧
    ofHexDigits d.hex.toList = d.val := by
  obtain ⟨hvalue, hdigits⟩ := toDigits_spec d.val
  have hshort : (Nat.toDigits 16 d.val).length ≤ 64 :=
    (Nat.length_toDigits_le_iff (by decide) (by decide)).2 d.property.2
  simp only [hex, String.toList_ofList, length_append, length_replicate, all_append,
    Bool.and_eq_true, all_eq_true, ofHexDigits_zeros_append]
  refine ⟨by omega, ⟨fun c hc => ?_, hdigits⟩, hvalue⟩
  rw [eq_of_mem_replicate hc]
  rfl

/-- A digest is the digest its digits write. -/
@[simp] theorem ofHex_hex (d : Digest) : ofHex d.hex = some d := by
  obtain ⟨hlen, hall, hread⟩ := d.hex_spec
  simp only [ofHex, hlen, hall, hread, and_self, if_true, dif_pos d.property]
  rfl

/-- Hexadecimal digits of one length write different numbers. -/
theorem ofHexDigits_inj {l l' : List Char} (hl : ∀ c ∈ l, isHexDigit c = true)
    (hl' : ∀ c ∈ l', isHexDigit c = true) (hlen : l.length = l'.length)
    (h : ofHexDigits l = ofHexDigits l') : l = l' := by
  induction l using List.reverseRecOn generalizing l' with
  | nil => exact (length_eq_zero_iff.1 hlen.symm).symm
  | append_singleton l c ih =>
    rcases eq_nil_or_concat l' with rfl | ⟨l', c', rfl⟩
    · simp at hlen
    · rw [concat_eq_append] at hl' hlen h ⊢
      have hc := hexValue_spec (hl c (by simp))
      have hc' := hexValue_spec (hl' c' (by simp))
      simp only [ofHexDigits, foldl_append, foldl_cons, foldl_nil] at h
      have hvalue : hexValue c = hexValue c' := by omega
      have hdigits : ∀ d ∈ l, isHexDigit d = true := fun d hd => hl d (by simp [hd])
      have hdigits' : ∀ d ∈ l', isHexDigit d = true := fun d hd => hl' d (by simp [hd])
      have hsame : l.length = l'.length := by simpa using hlen
      have hnum : ofHexDigits l = ofHexDigits l' := by
        simp only [ofHexDigits]
        omega
      have hrest : l = l' := ih hdigits hdigits' hsame hnum
      rw [hrest, ← hc.2, ← hc'.2, hvalue]

/-- A text that is read as a digest is the digest's own spelling. -/
theorem hex_of_ofHex {text : String} {d : Digest} (h : ofHex text = some d) : d.hex = text := by
  obtain ⟨hlen, hall, hread⟩ := d.hex_spec
  unfold ofHex at h
  split_ifs at h with htext hbounds
  have hvalue : ofHexDigits text.toList = d.val := congrArg Subtype.val (Option.some.inj h)
  exact String.toList_inj.1 (ofHexDigits_inj (all_eq_true.1 hall)
    (all_eq_true.1 htext.2) (hlen.trans htext.1.symm) (hread.trans hvalue.symm))

end Digest

/-- The contents of a file. -/
abbrev Bytes := List UInt8

/-- A chain account, by its address. -/
abbrev Hotkey := String

/-- Whether a text is free of the characters no journal field may carry. -/
def isPlainText (text : String) : Bool := text.toList.all fun c => c ≠ '\x00' ∧ c ≠ '\r' ∧ c ≠ '\n'

/-- Lowercase letters and digits. -/
def isLowerAlnum (c : Char) : Bool := c.isLower || c.isDigit

/-- A character of the alphabet, then at most `bound` of the alphabet or of `extra`. -/
def isNameOver (alphabet : Char → Bool) (extra : String) (bound : ℕ) : List Char → Bool
  | [] => false
  | c :: rest => alphabet c && decide (rest.length ≤ bound) &&
      rest.all fun c => alphabet c || extra.toList.contains c

end Cacheon
