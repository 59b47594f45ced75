import Mathlib.Data.Nat.Digits.Defs
import Mathlib.Data.List.Basic

/-!
# Length-prefixed records

A sequence of named byte strings, each name and each content after its length in big-endian
bytes.

* `Framing.frames` : the bytes of a sequence.
* `Framing.frames_inj` : the bytes determine the sequence.
-/

namespace Framing

open List

/-- A number in so many big-endian bytes. -/
def bigEndian : ℕ → ℕ → List UInt8
  | 0, _ => []
  | width + 1, n => bigEndian width (n / 256) ++ [UInt8.ofNat n]

/-- The bytes of one record. -/
def frame (record : List UInt8 × List UInt8) : List UInt8 :=
  bigEndian 4 record.1.length ++ record.1 ++ bigEndian 8 record.2.length ++ record.2

/-- The bytes of a sequence of records. -/
def frames (records : List (List UInt8 × List UInt8)) : List UInt8 := records.flatMap frame

/-- The lengths fit their bytes. -/
def Fits (record : List UInt8 × List UInt8) : Prop :=
  record.1.length < 256 ^ 4 ∧ record.2.length < 256 ^ 8

@[simp] theorem length_bigEndian (width n : ℕ) : (bigEndian width n).length = width := by
  induction width generalizing n with
  | zero => rfl
  | succ width ih => simp [bigEndian, ih]

theorem bigEndian_inj {width n m : ℕ} (hn : n < 256 ^ width) (hm : m < 256 ^ width)
    (h : bigEndian width n = bigEndian width m) : n = m := by
  induction width generalizing n m with
  | zero =>
    omega
  | succ width ih =>
    obtain ⟨hrest, hlast⟩ := append_inj' h rfl
    have hdiv : n / 256 = m / 256 := by
      refine ih ?_ ?_ hrest
      · exact Nat.div_lt_of_lt_mul (by rwa [pow_succ, mul_comm] at hn)
      · exact Nat.div_lt_of_lt_mul (by rwa [pow_succ, mul_comm] at hm)
    have hmod : n % 256 = m % 256 := by
      have hbyte := congrArg UInt8.toNat (singleton_inj.1 hlast)
      simpa using hbyte
    omega

theorem frame_append_inj {a b : List UInt8 × List UInt8} {s t : List UInt8} (ha : Fits a)
    (hb : Fits b) (h : frame a ++ s = frame b ++ t) : a = b ∧ s = t := by
  simp only [frame, append_assoc] at h
  obtain ⟨hsize, h⟩ := append_inj h (by simp)
  obtain ⟨hname, h⟩ := append_inj h (bigEndian_inj ha.1 hb.1 hsize)
  obtain ⟨hsize, h⟩ := append_inj h (by simp)
  obtain ⟨hdata, h⟩ := append_inj h (bigEndian_inj ha.2 hb.2 hsize)
  exact ⟨Prod.ext hname hdata, h⟩

/-- The bytes determine the sequence. -/
theorem frames_inj {l l' : List (List UInt8 × List UInt8)} (hl : ∀ a ∈ l, Fits a)
    (hl' : ∀ a ∈ l', Fits a) (h : frames l = frames l') : l = l' := by
  have hne : ∀ {a : List UInt8 × List UInt8} {s : List UInt8}, frame a ++ s ≠ [] := by
    intro a s heq
    have hlen := congrArg List.length heq
    simp only [frame, length_append, length_bigEndian, length_nil] at hlen
    omega
  induction l generalizing l' with
  | nil =>
    cases l' with
    | nil => rfl
    | cons b l' => exact absurd h.symm hne
  | cons a l ih =>
    cases l' with
    | nil => exact absurd h hne
    | cons b l' =>
      obtain ⟨ha, hl⟩ := forall_mem_cons.1 hl
      obtain ⟨hb, hl'⟩ := forall_mem_cons.1 hl'
      obtain ⟨hhead, htail⟩ := frame_append_inj ha hb h
      rw [hhead, ih hl hl' htail]

end Framing
