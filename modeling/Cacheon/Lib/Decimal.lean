import Mathlib.Algebra.Order.Field.Power
import Mathlib.Tactic.Ring
import Mathlib.Tactic.Linarith
import Mathlib.Tactic.Positivity

/-!
# Decimal floating point

Arbitrary-size decimals as a coefficient and a power of ten, with operations that round to a
fixed number of significant digits.  Comparison is exact.

* `Decimal.toRat` : the value.
* `Decimal.lt_iff` : comparison is comparison of values.
* `Decimal.round` : round in a context; exact on short coefficients (`round_of_short`).
* `Decimal.neg`, `Decimal.add`, `Decimal.mul`, `Decimal.div` : the rounded operations.
-/

/-- A decimal number `coeff * 10 ^ exp`. -/
structure Decimal where
  coeff : ℤ
  exp : ℤ
deriving DecidableEq, Repr

namespace Decimal

/-- The value of a decimal. -/
def toRat (d : Decimal) : ℚ := d.coeff * 10 ^ d.exp

/-- The decimal one. -/
def one : Decimal := ⟨1, 0⟩

theorem toRat_one : one.toRat = 1 := by simp [one, toRat]

/-! ### Comparison -/

/-- The coefficient at a common, smaller exponent. -/
def align (e : ℤ) (d : Decimal) : ℤ := d.coeff * 10 ^ (d.exp - e).toNat

variable {d : Decimal}

theorem toRat_eq_align {e : ℤ} (h : e ≤ d.exp) : d.toRat = align e d * 10 ^ e := by
  have hexp : d.exp = ((d.exp - e).toNat : ℤ) + e := by omega
  rw [toRat, align, hexp, zpow_add₀ (by norm_num), zpow_natCast]
  have hnat : ((d.exp - e).toNat : ℤ) + e - e = ((d.exp - e).toNat : ℤ) := by omega
  rw [hnat, Int.toNat_natCast]
  push_cast
  ring

/-- The first decimal is smaller. -/
def Less (a b : Decimal) : Prop := align (min a.exp b.exp) a < align (min a.exp b.exp) b

instance : LT Decimal := ⟨Less⟩

instance (a b : Decimal) : Decidable (a < b) :=
  inferInstanceAs (Decidable (align (min a.exp b.exp) a < align (min a.exp b.exp) b))

theorem lt_iff {a b : Decimal} : a < b ↔ a.toRat < b.toRat := by
  rw [toRat_eq_align (min_le_left a.exp b.exp), toRat_eq_align (min_le_right a.exp b.exp),
    mul_lt_mul_iff_left₀ (zpow_pos (by norm_num) _), Int.cast_lt]
  exact Iff.rfl

/-! ### Rounding -/

/-- Count decimal digits, at most `fuel` of them. -/
def countDigits : ℕ → ℕ → ℕ
  | 0, _ => 0
  | fuel + 1, n => if n = 0 then 0 else countDigits fuel (n / 10) + 1

/-- The number of decimal digits; zero has none. -/
def digits (n : ℕ) : ℕ := countDigits (n.log2 + 1) n

theorem countDigits_le_iff {fuel n : ℕ} (hfuel : n < 10 ^ fuel) {p : ℕ} :
    countDigits fuel n ≤ p ↔ n < 10 ^ p := by
  induction fuel generalizing n p with
  | zero =>
    have : n = 0 := by simpa using hfuel
    subst this
    simp [countDigits]
  | succ fuel ih =>
    unfold countDigits
    split
    · rename_i h
      subst h
      simp
    · rename_i h
      cases p with
      | zero => simpa using h
      | succ p =>
        have hdiv : n / 10 < 10 ^ fuel := by
          exact Nat.div_lt_of_lt_mul (by omega)
        rw [Nat.succ_le_succ_iff, ih hdiv, pow_succ, Nat.div_lt_iff_lt_mul (by norm_num)]

theorem digits_le_iff {n p : ℕ} : digits n ≤ p ↔ n < 10 ^ p := by
  refine countDigits_le_iff ?_
  calc n < 2 ^ (n.log2 + 1) := Nat.lt_log2_self
    _ ≤ 10 ^ (n.log2 + 1) := Nat.pow_le_pow_left (by omega) _

/-- How an inexact result is rounded. -/
inductive Rounding where
  /-- To the nearest, ties to the even digit. -/
  | halfEven
  /-- Towards minus infinity. -/
  | floor
deriving DecidableEq, Repr

/-- The precision and rounding of an operation. -/
structure Context where
  prec : ℕ
  /-- How a longer result is rounded. -/
  rounding : Rounding
deriving DecidableEq, Repr

/-- Divide a magnitude by `10 ^ k` and round. -/
def roundDigits (rounding : Rounding) (negative : Bool) (n k : ℕ) : ℕ :=
  let q := n / 10 ^ k
  let r := n % 10 ^ k
  match rounding with
  | .halfEven => if 10 ^ k < 2 * r ∨ (2 * r = 10 ^ k ∧ q % 2 = 1) then q + 1 else q
  | .floor => if negative ∧ r ≠ 0 then q + 1 else q

/-- Round to the significant digits of the context. -/
def round (ctx : Context) (d : Decimal) : Decimal :=
  let excess := digits d.coeff.natAbs - ctx.prec
  if excess = 0 then d
  else ⟨d.coeff.sign * roundDigits ctx.rounding (d.coeff < 0) d.coeff.natAbs excess, d.exp + excess⟩

variable {ctx : Context}

/-- A coefficient that already fits is not rounded. -/
theorem round_of_short (h : d.coeff.natAbs < 10 ^ ctx.prec) : d.round ctx = d := by
  have : digits d.coeff.natAbs - ctx.prec = 0 := Nat.sub_eq_zero_of_le (digits_le_iff.2 h)
  simp [round, this]

theorem le_roundDigits (rounding : Rounding) (negative : Bool) (n k : ℕ) :
    n / 10 ^ k ≤ roundDigits rounding negative n k := by
  unfold roundDigits
  cases rounding <;> simp only <;> split_ifs <;> omega

/-- Rounding a positive decimal loses less than one unit of its last digit. -/
theorem le_toRat_round (hd : 0 < d.coeff) (hprec : 0 < ctx.prec) :
    (1 - 1 / 10 ^ (ctx.prec - 1)) * d.toRat ≤ (d.round ctx).toRat := by
  obtain ⟨n, hn⟩ := Int.eq_ofNat_of_zero_le hd.le
  have hpow : (0 : ℚ) < 10 ^ (ctx.prec - 1) := by positivity
  have hexp : (0 : ℚ) < 10 ^ d.exp := by positivity
  unfold round
  simp only
  split_ifs with hexcess
  · have hpos : 0 < d.toRat := by
      rw [toRat]
      positivity
    have hloss : 0 ≤ 1 / (10 : ℚ) ^ (ctx.prec - 1) * d.toRat := by positivity
    linarith
  · set k := digits d.coeff.natAbs - ctx.prec with hk
    have hnat : d.coeff.natAbs = n := by rw [hn]; rfl
    rw [hnat] at hk ⊢
    -- The coefficient has `prec + k` digits, so its last `k` are a small part of it.
    have hlong : 10 ^ (ctx.prec - 1) * 10 ^ k ≤ n := by
      have : ¬ digits n ≤ ctx.prec - 1 + k := by omega
      rw [digits_le_iff, not_lt, pow_add] at this
      exact this
    have hround : n < (roundDigits ctx.rounding (d.coeff < 0) n k + 1) * 10 ^ k := by
      have hdiv := Nat.lt_div_mul_add (a := n) (show 0 < 10 ^ k by positivity)
      have hle := Nat.mul_le_mul_right (10 ^ k) (le_roundDigits ctx.rounding (d.coeff < 0) n k)
      rw [Nat.add_mul, Nat.one_mul]
      omega
    generalize roundDigits ctx.rounding (d.coeff < 0) n k = rounded at hround ⊢
    have hsign : d.coeff.sign = 1 := Int.sign_eq_one_of_pos hd
    rw [hsign, one_mul, toRat, toRat, hn, zpow_add₀ (by norm_num), zpow_natCast]
    have hlong' : (10 : ℚ) ^ (ctx.prec - 1) * 10 ^ k ≤ n := by exact_mod_cast hlong
    have hround' : (n : ℚ) < (rounded + 1) * 10 ^ k := by exact_mod_cast hround
    have hlast : (10 : ℚ) ^ k ≤ n / 10 ^ (ctx.prec - 1) := by
      rw [le_div_iff₀ hpow, mul_comm]
      exact hlong'
    have hkept : (1 - 1 / 10 ^ (ctx.prec - 1)) * (n : ℚ) ≤ rounded * 10 ^ k := by
      rw [sub_mul, one_mul, one_div_mul_eq_div]
      linarith
    calc (1 - 1 / 10 ^ (ctx.prec - 1)) * (((n : ℤ) : ℚ) * 10 ^ d.exp)
        = (1 - 1 / 10 ^ (ctx.prec - 1)) * (n : ℚ) * 10 ^ d.exp := by push_cast; ring
      _ ≤ rounded * 10 ^ k * 10 ^ d.exp := mul_le_mul_of_nonneg_right hkept hexp.le
      _ = _ := by push_cast; ring

/-! ### Operations -/

/-- An integer. -/
def ofNat (n : ℕ) : Decimal := ⟨n, 0⟩

/-- Change the sign. -/
def neg (ctx : Context) (d : Decimal) : Decimal := round ctx ⟨-d.coeff, d.exp⟩

/-- Add. -/
def add (ctx : Context) (a b : Decimal) : Decimal :=
  round ctx ⟨align (min a.exp b.exp) a + align (min a.exp b.exp) b, min a.exp b.exp⟩

/-- Multiply. -/
def mul (ctx : Context) (a b : Decimal) : Decimal := round ctx ⟨a.coeff * b.coeff, a.exp + b.exp⟩

/-- Drop trailing zeros while the exponent is below the ideal one. -/
def dropZeros (ideal : ℤ) : ℕ → Decimal → Decimal
  | 0, d => d
  | fuel + 1, d =>
    if d.exp < ideal ∧ d.coeff % 10 = 0 then dropZeros ideal fuel ⟨d.coeff / 10, d.exp + 1⟩
    else d

/-- Divide by a positive decimal: an integer quotient with digits to spare, made sticky when
it is inexact, then rounded. -/
def div (ctx : Context) (a b : Decimal) : Decimal :=
  let shift : ℤ := (digits b.coeff.natAbs : ℤ) - digits a.coeff.natAbs + ctx.prec + 1
  let exp := a.exp - b.exp - shift
  let num := a.coeff.natAbs * 10 ^ shift.toNat
  let den := b.coeff.natAbs * 10 ^ (-shift).toNat
  let quotient := num / den
  if num % den = 0 then
    round ctx (dropZeros (a.exp - b.exp) shift.toNat ⟨a.coeff.sign * quotient, exp⟩)
  else round ctx ⟨a.coeff.sign * (if quotient % 5 = 0 then quotient + 1 else quotient : ℕ), exp⟩

/-- The greatest integer not above. -/
def floor (d : Decimal) : ℤ :=
  if 0 ≤ d.exp then d.coeff * 10 ^ d.exp.toNat else d.coeff / 10 ^ (-d.exp).toNat

theorem toRat_product (a b : Decimal) :
    toRat ⟨a.coeff * b.coeff, a.exp + b.exp⟩ = a.toRat * b.toRat := by
  simp only [toRat, Int.cast_mul, zpow_add₀ (show (10 : ℚ) ≠ 0 by norm_num)]
  ring

end Decimal
