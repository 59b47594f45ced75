import Cacheon.Lib.Framing

/-!
# Revealed messages

The chain stores a revealed message behind its length, and the SDK hands these bytes over as a
text, as bytes or as integers.  A text is read as it is and, where it is one, as a hexadecimal.

* `RawReveal.decodeRawReveal` : the message of a value, if one reading of it is a message.
* `RawReveal.decodeRawReveal_spec` : the stored bytes of a message give the message in every
  representation, no value is ambiguous, and no two byte strings are read as one message.
-/

namespace Cacheon

open List Option

/-- A value as the SDK hands it over; a text that has no UTF-8 form is `other`. -/
inductive RawReveal where
  | text (s : String)
  | bytes (b : List UInt8)
  | ints (l : List ℤ)
  | other

namespace RawReveal

def maxRevealMessageBytes : ℕ := 4096

def limit : ℕ := maxRevealMessageBytes + 2

def hexDigit (c : Char) : Option ℕ :=
  if '0' ≤ c ∧ c ≤ '9' then some (c.toNat - 48)
  else if 'a' ≤ c ∧ c ≤ 'f' then some (c.toNat - 87)
  else if 'A' ≤ c ∧ c ≤ 'F' then some (c.toNat - 55)
  else none

/-- The bytes that pairs of digits spell. -/
def fromHex : List Char → Option (List UInt8)
  | [] => some []
  | [_] => none
  | a :: b :: rest => do
    let high ← hexDigit a
    let low ← hexDigit b
    return .ofNat (16 * high + low) :: (← fromHex rest)

/-- A hexadecimal text: `0x` and at least one pair of digits. -/
def hexBytes : List Char → Option (List UInt8)
  | '0' :: 'x' :: rest => (fromHex rest).filter (· ≠ [])
  | _ => none

/-- The UTF-8 form of a text. -/
def encode (s : String) : List UInt8 := s.toUTF8.data.toList

/-- The byte strings that a value may stand for. -/
def revealByteCandidates : RawReveal → List (List UInt8)
  | .text s =>
    if s.length ≤ 2 + 2 * limit then
      ((encode s :: (hexBytes s.toList).toList).filter (·.length ≤ limit)).eraseDups
    else []
  | .bytes b => if b.length ≤ limit then [b] else []
  | .ints l =>
    if l.length ≤ limit ∧ ∀ n ∈ l, 0 ≤ n ∧ n ≤ 255 then [l.map fun n => .ofNat n.toNat] else []
  | .other => []

/-- The offset and the size that the first bytes give; longer sizes are beyond the bound. -/
def compactLength : List UInt8 → Option (ℕ × ℕ)
  | [] => none
  | first :: rest =>
    if first.toNat % 4 = 0 then some (1, first.toNat / 4)
    else if first.toNat % 4 = 1 then
      rest.head?.map fun second => (2, (first.toNat + 256 * second.toNat) / 4)
    else none

/-- The message of a byte string. -/
def message (encoded : List UInt8) : Option String :=
  match compactLength encoded with
  | none => none
  | some (offset, size) =>
    if offset = 2 ∧ size < 64 ∨ maxRevealMessageBytes < size ∨ encoded.length ≠ offset + size then
      none
    else String.fromUTF8? ⟨(encoded.drop offset).toArray⟩

def decodeRevealCandidates (candidates : List (List UInt8)) : Except String String :=
  match candidates.filterMap message with
  | [decoded] => .ok decoded
  | _ => .error "chain reveal history has malformed or ambiguous SCALE bytes"

def decodeRawReveal (v : RawReveal) : Except String String :=
  decodeRevealCandidates v.revealByteCandidates

/-! ### What is stored -/

/-- A length in the compact form. -/
def compact (n : ℕ) : List UInt8 :=
  if n < 64 then [.ofNat (4 * n)] else [.ofNat ((4 * n + 1) % 256), .ofNat ((4 * n + 1) / 256)]

/-- The stored bytes of a message. -/
def scale (m : String) : List UInt8 := compact (encode m).length ++ encode m

/-- The values that stand for a byte string. -/
inductive Represents : RawReveal → List UInt8 → Prop
  | hex {s : String} {b : List UInt8} : hexBytes s.toList = some b → Represents (.text s) b
  | bytes {b : List UInt8} : Represents (.bytes b) b
  | ints {b : List UInt8} : Represents (.ints (b.map fun byte => (byte.toNat : ℤ))) b
  | text {s : String} : Represents (.text s) (encode s)

variable {s m : String} {b h : List UInt8} {c : Char}

theorem fromUTF8_eq_some : String.fromUTF8? ⟨b.toArray⟩ = some m ↔ b = encode m := by
  unfold String.fromUTF8? encode
  split
  · next hvalid =>
    rw [some.injEq]
    constructor
    · rintro rfl
      rfl
    · rintro rfl
      rfl
  · next hinvalid =>
    refine iff_of_false (by simp) ?_
    rintro rfl
    exact hinvalid m.isValidUTF8

/-- A byte string is read as a message if and only if it is stored for it. -/
theorem message_eq_some :
    message b = some m ↔ b = scale m ∧ (encode m).length ≤ maxRevealMessageBytes := by
  constructor
  · intro hm
    unfold message at hm
    split at hm
    · cases hm
    next offset size hsize =>
    split_ifs at hm with hbad
    rw [fromUTF8_eq_some] at hm
    rw [scale, ← hm, length_drop, compact]
    unfold compactLength at hsize
    split at hsize
    · cases hsize
    next first rest =>
    have hfirst := first.toNat_lt
    split_ifs at hsize with hzero hone
    · cases hsize
      rw [if_pos (by omega), show 4 * ((first :: rest).length - 1) = first.toNat by omega]
      exact ⟨by simp, by omega⟩
    · obtain ⟨second, hsecond, hsize⟩ := map_eq_some_iff.1 hsize
      cases hsize
      obtain ⟨rest, rfl⟩ := head?_eq_some_iff.1 hsecond
      have hn : 4 * ((first :: second :: rest).length - 2) + 1 =
        first.toNat + 256 * second.toNat := by
        omega
      rw [if_neg (by omega), hn, Nat.add_mul_mod_self_left, Nat.mod_eq_of_lt hfirst,
        Nat.add_mul_div_left _ _ (by decide), Nat.div_eq_of_lt hfirst]
      exact ⟨by simp, by omega⟩
  · rintro ⟨rfl, hbound⟩
    have hsize : compactLength (scale m) = some ((compact (encode m).length).length,
        (encode m).length) := by
      unfold maxRevealMessageBytes at hbound
      unfold scale compact
      split_ifs with hshort
      · simp [compactLength]
        omega
      · simp [compactLength]
        omega
    rw [message, hsize]
    simp only
    rw [if_neg, scale, drop_left]
    · exact fromUTF8_eq_some.2 rfl
    · unfold scale compact
      split_ifs <;> simp <;> omega

theorem encode_eq : encode s = s.toList.flatMap String.utf8EncodeChar := by
  have hs : s.toUTF8 = s.toList.utf8Encode := by
    rw [← String.toByteArray_ofList, String.ofList_toList]
    rfl
  rw [encode, hs, List.utf8Encode, data_toByteArray]

/-- Digits have one byte each. -/
theorem length_fromHex {cs : List Char} (hcs : fromHex cs = some h) :
    (cs.flatMap String.utf8EncodeChar).length = 2 * h.length := by
  have hdigit {c : Char} {n : ℕ} (hc : hexDigit c = some n) :
      (String.utf8EncodeChar c).length = 1 := by
    rw [String.length_utf8EncodeChar, Char.utf8Size_eq_one_iff]
    unfold hexDigit at hc
    split_ifs at hc with h0 h1 h2
    · exact UInt32.le_trans h0.2 (by decide)
    · exact UInt32.le_trans h1.2 (by decide)
    · exact UInt32.le_trans h2.2 (by decide)
  induction cs using fromHex.induct generalizing h with
  | case1 =>
    cases hcs
    rfl
  | case2 => cases hcs
  | case3 a b rest ih =>
    simp only [fromHex, bind_eq_bind, bind_eq_some_iff] at hcs
    obtain ⟨high, ha, low, hb, tail, htail, hcs⟩ := hcs
    cases hcs
    simp only [flatMap_cons, length_append, hdigit ha, hdigit hb, ih htail, length_cons]
    omega

theorem encode_of_hexBytes (hs : hexBytes s.toList = some h) :
    ∃ rest, encode s = 48 :: 120 :: rest ∧ rest.length = 2 * h.length := by
  unfold hexBytes at hs
  split at hs
  · next cs heq =>
    rw [encode_eq, heq]
    exact ⟨_, rfl, length_fromHex (eq_some_of_filter_eq_some hs)⟩
  · cases hs

/-- A hexadecimal text is no stored message: it would have thirteen bytes. -/
theorem message_of_hexBytes (hs : hexBytes s.toList = some h) : message (encode s) = none := by
  rw [eq_none_iff_forall_ne_some]
  intro m hm
  obtain ⟨hscale, hbound⟩ := message_eq_some.1 hm
  obtain ⟨rest, hrest, hcs⟩ := encode_of_hexBytes hs
  have hlen := congrArg List.length (hrest.symm.trans hscale)
  have hhead := congrArg (fun l => l.head?.map UInt8.toNat) (hrest.symm.trans hscale)
  unfold scale compact at hlen hhead
  split_ifs at hlen hhead with hshort
  · simp at hlen hhead
    omega
  · simp at hhead
    omega

theorem length_le_encode : s.length ≤ (encode s).length := by
  rw [encode_eq, ← String.length_toList]
  induction s.toList with
  | nil => exact Nat.le_refl _
  | cons c cs ih =>
    have hc := Char.utf8Size_pos c
    rw [flatMap_cons, length_append, String.length_utf8EncodeChar, length_cons]
    omega

/-- A text is read as its hexadecimal, if it is one, or as it is. -/
theorem filterMap_text (hs : s.length ≤ 2 + 2 * limit)
    (hb : (hexBytes s.toList).getD (encode s) = b) :
    (revealByteCandidates (.text s)).filterMap message =
      ([b].filter (·.length ≤ limit)).filterMap message := by
  rw [revealByteCandidates, if_pos hs]
  cases hhex : hexBytes s.toList with
  | none =>
    obtain rfl : encode s = b := by rwa [hhex] at hb
    by_cases hlong : (encode s).length ≤ limit <;> simp [hlong, eraseDups_cons]
  | some h =>
    obtain rfl : h = b := by rwa [hhex] at hb
    have hnone := message_of_hexBytes hhex
    by_cases hsame : h = encode s
    · by_cases hlong : (encode s).length ≤ limit <;> simp [hlong, hsame, hnone, eraseDups_cons]
    · by_cases hlong : (encode s).length ≤ limit <;> by_cases hh : h.length ≤ limit <;>
        simp [hlong, hh, hnone, hsame, eraseDups_cons]

theorem decodeRawReveal_ok {v : RawReveal} :
    v.decodeRawReveal = .ok m ↔ v.revealByteCandidates.filterMap message = [m] := by
  unfold decodeRawReveal decodeRevealCandidates
  split <;> simp_all

/-- **Revealed messages are read back.**  The stored bytes of a message give the message in every
representation, no value is ambiguous, and no two byte strings are read as one message. -/
theorem decodeRawReveal_spec :
    (∀ m v, (encode m).length ≤ maxRevealMessageBytes → Represents v (scale m) →
      v.decodeRawReveal = .ok m) ∧
    (∀ v : RawReveal, (v.revealByteCandidates.filterMap message).length ≤ 1) ∧
    ∀ b b' m, decodeRawReveal (.bytes b) = .ok m → decodeRawReveal (.bytes b') = .ok m →
      b = b' := by
  refine ⟨fun m v hbound hv => ?_, fun v => ?_, fun b b' m hb hb' => ?_⟩
  · have hmessage : message (scale m) = some m := message_eq_some.2 ⟨rfl, hbound⟩
    have hlen : (scale m).length ≤ limit := by
      unfold scale compact limit
      split_ifs <;> simp <;> omega
    have hread : v.revealByteCandidates.filterMap message =
        ([scale m].filter (·.length ≤ limit)).filterMap message := by
      generalize scale m = b at *
      cases hv with
      | @hex s b hs =>
        refine filterMap_text ?_ (by rw [hs]; rfl)
        obtain ⟨rest, hrest, hpairs⟩ := encode_of_hexBytes hs
        have hle := @length_le_encode s
        rw [hrest, length_cons, length_cons] at hle
        omega
      | bytes => simp [revealByteCandidates, hlen]
      | ints =>
        have hbyte (byte : UInt8) : (byte.toNat : ℤ) ≤ 255 := by
          have := byte.toNat_lt
          omega
        simp [revealByteCandidates, Function.comp_def, hlen, hbyte]
      | @text s =>
        have hnone : hexBytes s.toList = none := by
          rw [eq_none_iff_forall_ne_some]
          intro h hs
          rw [message_of_hexBytes hs] at hmessage
          cases hmessage
        refine filterMap_text ?_ (by rw [hnone]; rfl)
        have hle := @length_le_encode s
        omega
    rw [decodeRawReveal_ok, hread]
    simp [hlen, hmessage]
  · have hone (l : List (List UInt8)) (hl : l.length ≤ 1) : (l.filterMap message).length ≤ 1 :=
      (length_filterMap_le _ _).trans hl
    cases v with
    | text s =>
      by_cases hs : s.length ≤ 2 + 2 * limit
      · rw [filterMap_text hs rfl]
        exact hone _ (length_filter_le _ _)
      · rw [revealByteCandidates, if_neg hs]
        exact Nat.zero_le _
    | other => exact Nat.zero_le _
    | bytes | ints =>
      refine hone _ ?_
      simp only [revealByteCandidates]
      split_ifs <;> simp
  · have hstored {b : List UInt8} (hb : decodeRawReveal (.bytes b) = .ok m) : b = scale m := by
      rw [decodeRawReveal_ok, revealByteCandidates] at hb
      split_ifs at hb
      · have hm : m ∈ [b].filterMap message := hb ▸ mem_singleton_self m
        exact (message_eq_some.1 (by simpa using hm)).1
      · cases hb
    rw [hstored hb, hstored hb']

end RawReveal

end Cacheon
