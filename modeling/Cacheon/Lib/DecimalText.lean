import Cacheon.Lib.Decimal
import Mathlib.Data.List.TakeWhile

/-!
# Decimal texts

The plain spelling of a positive decimal, without an exponent, and how it is read.

* `Decimal.spell`, `Decimal.ofPlain` : writing and reading.
* `Decimal.normalize` : round in a context and drop trailing zeros.
* `Decimal.normalize_ofPlain_spell` : what was written is read back.
-/

namespace Decimal

open List

variable {c m : ℕ} {e : ℤ} {ctx : Context}

/-- Drop trailing zeros of the coefficient, at most so many. -/
def stripZeros : ℕ → Decimal → Decimal
  | 0, d => d
  | fuel + 1, d => if d.coeff % 10 = 0 then stripZeros fuel ⟨d.coeff / 10, d.exp + 1⟩ else d

/-- Round in a context and drop trailing zeros. -/
def normalize (ctx : Context) (d : Decimal) : Decimal :=
  let rounded := d.round ctx
  if rounded.coeff = 0 then ⟨0, 0⟩ else stripZeros (digits rounded.coeff.natAbs) rounded

/-- The spelling of a decimal that is not negative, without an exponent. -/
def spell (d : Decimal) : List Char :=
  let ds := Nat.toDigits 10 d.coeff.natAbs
  if 0 ≤ d.exp then ds ++ List.replicate d.exp.toNat '0'
  else
    let places := (-d.exp).toNat
    if places < ds.length then
      ds.take (ds.length - places) ++ '.' :: ds.drop (ds.length - places)
    else '0' :: '.' :: (List.replicate (places - ds.length) '0' ++ ds)

/-- Read decimal digits with at most one point. -/
def ofPlain (text : List Char) : Option Decimal :=
  let whole := text.takeWhile Char.isDigit
  match text.dropWhile Char.isDigit with
  | [] => if whole = [] then none else some ⟨Nat.ofDigitChars 10 whole 0, 0⟩
  | c :: fraction =>
    if c = '.' ∧ fraction.all Char.isDigit ∧ whole ++ fraction ≠ [] then
      some ⟨Nat.ofDigitChars 10 (whole ++ fraction) 0, -fraction.length⟩
    else none

theorem stripZeros_mul_pow {fuel : ℕ} (hc : c % 10 ≠ 0) (hfuel : m ≤ fuel) :
    stripZeros fuel ⟨(c * 10 ^ m : ℕ), e⟩ = ⟨c, e + m⟩ := by
  induction m generalizing fuel e with
  | zero =>
    cases fuel with
    | zero => simp [stripZeros]
    | succ fuel =>
      have hlast : ((c * 10 ^ 0 : ℕ) : ℤ) % 10 ≠ 0 := by omega
      rw [stripZeros, if_neg hlast]
      simp
  | succ m ih =>
    obtain ⟨fuel, rfl⟩ : ∃ k, fuel = k + 1 := ⟨fuel - 1, by omega⟩
    have hcoeff : ((c * 10 ^ (m + 1) : ℕ) : ℤ) = (c * 10 ^ m : ℕ) * 10 := by
      push_cast
      ring
    have hzero : ((c * 10 ^ (m + 1) : ℕ) : ℤ) % 10 = 0 := by omega
    have hdiv : ((c * 10 ^ (m + 1) : ℕ) : ℤ) / 10 = (c * 10 ^ m : ℕ) := by omega
    rw [stripZeros, if_pos hzero]
    simp only [hdiv]
    rw [ih (by omega)]
    congr 1
    omega

theorem le_digits_mul_pow (hc : 0 < c) : m ≤ digits (c * 10 ^ m) := by
  by_contra hlt
  have hshort : c * 10 ^ m < 10 ^ (m - 1) := digits_le_iff.1 (by omega)
  have hle : 10 ^ (m - 1) ≤ 10 ^ m := Nat.pow_le_pow_right (by omega) (by omega)
  have hmul : 10 ^ m ≤ c * 10 ^ m := Nat.le_mul_of_pos_left _ hc
  omega

/-- Rounding a short coefficient with trailing zeros only drops zeros. -/
theorem round_mul_pow (hc : 0 < c) (hshort : c < 10 ^ ctx.prec) :
    ∃ k, k ≤ m ∧ round ctx ⟨(c * 10 ^ m : ℕ), e⟩ = ⟨(c * 10 ^ (m - k) : ℕ), e + k⟩ := by
  have hk : digits (c * 10 ^ m) - ctx.prec ≤ m := by
    have hdigits : digits (c * 10 ^ m) ≤ ctx.prec + m := by
      rw [digits_le_iff, pow_add]
      exact Nat.mul_lt_mul_of_pos_right hshort (by positivity)
    omega
  refine ⟨digits (c * 10 ^ m) - ctx.prec, hk, ?_⟩
  · generalize hexcess : digits (c * 10 ^ m) - ctx.prec = k at hk ⊢
    have hsplit : c * 10 ^ m = c * 10 ^ (m - k) * 10 ^ k := by
      rw [mul_assoc, ← pow_add, Nat.sub_add_cancel hk]
    have hexact : roundDigits ctx.rounding (((c * 10 ^ m : ℕ) : ℤ) < 0) (c * 10 ^ m) k =
        c * 10 ^ (m - k) := by
      rw [hsplit]
      unfold roundDigits
      rw [Nat.mul_div_cancel _ (by positivity), Nat.mul_mod_left]
      have hunit : 0 < 10 ^ k := by positivity
      cases ctx.rounding with
      | halfEven =>
        dsimp only
        rw [if_neg (by omega)]
      | floor => simp
    unfold round
    simp only [Int.natAbs_natCast, hexcess]
    by_cases hzero : k = 0
    · subst hzero
      simp
    · have hpos : 0 < c * 10 ^ m := by positivity
      rw [if_neg hzero, hexact, Int.sign_natCast_of_ne_zero (by omega)]
      simp

/-- A coefficient without trailing zeros is found again. -/
theorem normalize_mul_pow (hc : c % 10 ≠ 0) (hshort : c < 10 ^ ctx.prec) :
    normalize ctx ⟨(c * 10 ^ m : ℕ), e⟩ = ⟨c, e + m⟩ := by
  have hpos : 0 < c := by omega
  obtain ⟨k, hk, hround⟩ := round_mul_pow (m := m) (e := e) hpos hshort
  have hne : ((c * 10 ^ (m - k) : ℕ) : ℤ) ≠ 0 := by positivity
  simp only [normalize, hround]
  rw [if_neg hne, Int.natAbs_natCast, stripZeros_mul_pow hc (le_digits_mul_pow hpos)]
  congr 1
  omega

section Reading

variable {whole fraction : List Char} (hwhole : ∀ d ∈ whole, Char.isDigit d)

include hwhole

theorem ofPlain_whole (hne : whole ≠ []) :
    ofPlain whole = some ⟨Nat.ofDigitChars 10 whole 0, 0⟩ := by
  simp only [ofPlain, takeWhile_eq_self_iff.2 hwhole, dropWhile_eq_nil_iff.2 hwhole, if_neg hne]

theorem ofPlain_point (hfraction : ∀ d ∈ fraction, Char.isDigit d) (hne : whole ++ fraction ≠ []) :
    ofPlain (whole ++ '.' :: fraction) =
      some ⟨Nat.ofDigitChars 10 (whole ++ fraction) 0, -fraction.length⟩ := by
  have htake : (whole ++ '.' :: fraction).takeWhile Char.isDigit = whole := by
    rw [takeWhile_append_of_pos hwhole, takeWhile_cons_of_neg (by decide), append_nil]
  have hdrop : (whole ++ '.' :: fraction).dropWhile Char.isDigit = '.' :: fraction := by
    rw [dropWhile_append_of_pos hwhole, dropWhile_cons_of_neg (by decide)]
  simp only [ofPlain, htake, hdrop]
  rw [if_pos ⟨trivial, all_eq_true.2 hfraction, hne⟩]

end Reading

/-- **What was written is read back**, for a short coefficient without trailing zeros. -/
theorem normalize_ofPlain_spell (hc : c % 10 ≠ 0) (hshort : c < 10 ^ ctx.prec)
    (hsize : e < 0 → 10 ^ (-e).toNat ≤ c) :
    (ofPlain (spell ⟨c, e⟩)).map (normalize ctx) = some ⟨c, e⟩ := by
  set ds := Nat.toDigits 10 c with hds
  have hdigits : ∀ d ∈ ds, Char.isDigit d = true := fun d hd =>
    Nat.isDigit_of_mem_toDigits (by decide) (by decide) hd
  rcases lt_or_ge e 0 with hneg | hnonneg
  · -- the point stands inside the digits
    set places := (-e).toNat with hplaces
    have hlen : places < ds.length := by
      by_contra hlt
      have hsmall : c < 10 ^ places :=
        (Nat.length_toDigits_le_iff (by decide) (by omega)).1 (Nat.le_of_not_lt hlt)
      omega
    have hspell : spell ⟨c, e⟩ =
        ds.take (ds.length - places) ++ '.' :: ds.drop (ds.length - places) := by
      simp only [spell, Int.natAbs_natCast, ← hds, ← hplaces, if_neg (not_le.2 hneg),
        if_pos hlen]
    have hexp : -((ds.length - (ds.length - places) : ℕ) : ℤ) = e := by omega
    have hnormal := normalize_mul_pow (m := 0) (e := e) hc hshort
    rw [hspell, ofPlain_point (fun d hd => hdigits d (mem_of_mem_take hd))
      (fun d hd => hdigits d (mem_of_mem_drop hd)) (by simp [hds, Nat.toDigits_ne_nil]),
      take_append_drop, Nat.ofDigitChars_ten_toDigits, length_drop, hexp, Option.map_some]
    simpa using hnormal
  · have hspell : spell ⟨c, e⟩ = ds ++ List.replicate e.toNat '0' := by
      simp only [spell, Int.natAbs_natCast, ← hds, if_pos hnonneg]
    have hall : ∀ d ∈ ds ++ List.replicate e.toNat '0', Char.isDigit d = true :=
      forall_mem_append.2 ⟨hdigits, fun d hd => eq_of_mem_replicate hd ▸ rfl⟩
    rw [hspell, ofPlain_whole hall (by simp [hds, Nat.toDigits_ne_nil]), Nat.ofDigitChars_append,
      hds, Nat.ofDigitChars_ten_toDigits, Nat.ofDigitChars_replicate_zero, Nat.mul_comm,
      Option.map_some, normalize_mul_pow hc hshort]
    congr 2
    omega

end Decimal
