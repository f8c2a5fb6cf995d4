import Bajiru.Python
import Mathlib.Data.Int.Log
import Mathlib.Algebra.Order.Field.Power
import Mathlib.Algebra.Order.Ring.Abs
import Mathlib.Tactic.Positivity

/-!
# Binary floating-point formats

A number is rounded to the nearest multiple of the last place of its binade, halfway to the even one. Rounding does not
leave the binade (`round_binade`), so that it keeps the order (`round_mono`), and it keeps the integers that fit in the
significant bits (`round_intCast`). There is no largest number: results that overflow are outside of the formats.
-/

namespace Bajiru

/-- A format with so many significant bits; below `2 ^ minExp` the last place stays where it is. -/
structure FloatFormat where
  precision : Nat
  minExp : Int
  precision_pos : 0 < precision
  minExp_nonpos : minExp ≤ 0

namespace FloatFormat

/-- `float16`. -/
def half : FloatFormat := ⟨11, -14, by decide, by decide⟩

/-- `float32`. -/
def single : FloatFormat := ⟨24, -126, by decide, by decide⟩

/-- `float64`. -/
def double : FloatFormat := ⟨53, -1022, by decide, by decide⟩

variable {K : Type*} [Field K] [LinearOrder K] [IsStrictOrderedRing K] [FloorRing K]

/-- The exponent of the binade of a number. -/
def exponent (f : FloatFormat) (x : K) : Int := max (Int.log 2 |x|) f.minExp

/-- The last place of a binade. -/
def ulp (f : FloatFormat) (e : Int) : K := 2 ^ (e - (f.precision - 1))

/-- The nearest number of the format. -/
def round (f : FloatFormat) (x : K) : K := Python.round (x / f.ulp (f.exponent x)) * f.ulp (f.exponent x)

variable {f : FloatFormat} {x y : K}

theorem ulp_pos (f : FloatFormat) (e : Int) : (0 : K) < f.ulp e := zpow_pos two_pos _

omit [IsStrictOrderedRing K] in
/-- A power of two from the binade on, in last places. -/
theorem zpow_eq_mul_ulp (f : FloatFormat) (e : Int) (k : Nat) :
    (2 : K) ^ (e + k) = ((2 ^ (f.precision - 1 + k) : Nat) : Int) * f.ulp e := by
  have hpos := f.precision_pos
  rw [ulp, Int.cast_natCast, Nat.cast_pow, Nat.cast_ofNat, ← zpow_natCast, ← zpow_add₀ two_ne_zero]
  congr 1
  omega

theorem lt_zpow_exponent (f : FloatFormat) (x : K) : |x| < 2 ^ (f.exponent x + 1) := by
  have hlog := Int.lt_zpow_succ_log_self one_lt_two |x|
  rw [Nat.cast_ofNat] at hlog
  exact hlog.trans_le (zpow_le_zpow_right₀ one_le_two (Int.add_le_add_right (le_max_left _ _) 1))

theorem zpow_exponent_le (hx : x ≠ 0) (hnormal : f.minExp < f.exponent x) : 2 ^ f.exponent x ≤ |x| := by
  have hlog := Int.zpow_log_le_self one_lt_two (abs_pos.2 hx)
  rw [Nat.cast_ofNat] at hlog
  have hexp : f.exponent x = Int.log 2 |x| := by
    unfold exponent at hnormal ⊢
    omega
  rwa [hexp]

/-! ## The order -/

theorem round_nonneg (f : FloatFormat) (hx : 0 ≤ x) : 0 ≤ f.round x := by
  have hulp := f.ulp_pos (K := K) (f.exponent x)
  have hround := Python.round_mono (div_nonneg hx hulp.le)
  rw [← Int.cast_zero, Python.round_intCast] at hround
  exact mul_nonneg (Int.cast_nonneg hround) hulp.le

theorem round_neg (f : FloatFormat) (x : K) : f.round (-x) = -f.round x := by
  have hexp : f.exponent (-x) = f.exponent x := by rw [exponent, abs_neg, exponent]
  rw [round, hexp, neg_div, Python.round_neg, Int.cast_neg, neg_mul, round]

/-- **Rounding does not leave the binade**, but for its upper end. -/
theorem round_binade (hx : 0 < x) :
    f.round x ≤ 2 ^ (f.exponent x + 1) ∧ (f.minExp < f.exponent x → 2 ^ f.exponent x ≤ f.round x) := by
  have hulp := f.ulp_pos (K := K) (f.exponent x)
  constructor
  · have hlt := f.lt_zpow_exponent x
    have hzpow := f.zpow_eq_mul_ulp (K := K) (f.exponent x) 1
    rw [abs_of_pos hx] at hlt
    rw [Nat.cast_one] at hzpow
    rw [hzpow] at hlt ⊢
    have hround := Python.round_mono ((div_lt_iff₀ hulp).2 hlt).le
    rw [Python.round_intCast] at hround
    exact mul_le_mul_of_nonneg_right (Int.cast_le.2 hround) hulp.le
  · intro hnormal
    have hle := zpow_exponent_le hx.ne' hnormal
    have hzpow := f.zpow_eq_mul_ulp (K := K) (f.exponent x) 0
    rw [abs_of_pos hx] at hle
    rw [Nat.cast_zero, add_zero] at hzpow
    rw [hzpow] at hle ⊢
    have hround := Python.round_mono ((le_div_iff₀ hulp).2 hle)
    rw [Python.round_intCast] at hround
    exact mul_le_mul_of_nonneg_right (Int.cast_le.2 hround) hulp.le

theorem exponent_mono (f : FloatFormat) (hx : 0 < x) (hxy : x ≤ y) : f.exponent x ≤ f.exponent y := by
  unfold exponent
  rw [abs_of_pos hx, abs_of_pos (hx.trans_le hxy)]
  exact max_le_max_right _ (Int.log_mono_right hx hxy)

theorem round_le_round (f : FloatFormat) (hx : 0 < x) (hxy : x ≤ y) : f.round x ≤ f.round y := by
  rcases (f.exponent_mono hx hxy).eq_or_lt with heq | hlt
  · have hulp := f.ulp_pos (K := K) (f.exponent y)
    rw [round, round, heq]
    exact mul_le_mul_of_nonneg_right
      (Int.cast_le.2 (Python.round_mono (div_le_div_of_nonneg_right hxy hulp.le))) hulp.le
  · calc f.round x ≤ 2 ^ (f.exponent x + 1) := (round_binade hx).1
      _ ≤ 2 ^ f.exponent y := zpow_le_zpow_right₀ one_le_two hlt
      _ ≤ f.round y := (round_binade (hx.trans_le hxy)).2 ((le_max_right _ _).trans_lt hlt)

@[simp] theorem round_zero (f : FloatFormat) : f.round (0 : K) = 0 := by
  have hround := Python.round_intCast (K := K) 0
  rw [Int.cast_zero] at hround
  rw [round, zero_div, hround, Int.cast_zero, zero_mul]

/-- **Rounding keeps the order.** -/
theorem round_mono (f : FloatFormat) : Monotone (f.round : K → K) := by
  intro x y hxy
  rcases lt_trichotomy x 0 with hx | rfl | hx
  · rcases le_or_gt 0 y with hy | hy
    · have hneg := f.round_nonneg (neg_pos.2 hx).le
      rw [f.round_neg] at hneg
      exact (neg_nonneg.1 hneg).trans (f.round_nonneg hy)
    · have hneg := f.round_le_round (neg_pos.2 hy) (neg_le_neg hxy)
      rw [f.round_neg, f.round_neg] at hneg
      exact neg_le_neg_iff.1 hneg
  · rw [round_zero]
    exact f.round_nonneg hxy
  · exact f.round_le_round hx hxy

/-! ## Integers -/

/-- A multiple of the last place is a number of the format. -/
theorem round_eq_self {m : Int} (hx : x = m * f.ulp (f.exponent x)) : f.round x = x := by
  have hulp := f.ulp_pos (K := K) (f.exponent x)
  have hdiv : x / f.ulp (f.exponent x) = m := (div_eq_iff hulp.ne').2 hx
  rw [round, hdiv, Python.round_intCast, ← hx]

theorem exponent_natCast (f : FloatFormat) (n : Nat) : f.exponent (n : K) = Nat.log 2 n := by
  have hmin := f.minExp_nonpos
  rw [exponent, Nat.abs_cast, Int.log_natCast, max_eq_left (by omega)]

theorem round_natCast (f : FloatFormat) {n : Nat} (hn : n ≤ 2 ^ f.precision) : f.round (n : K) = n := by
  have hpos := f.precision_pos
  rcases hn.eq_or_lt with rfl | hlt
  · have hzpow := f.zpow_eq_mul_ulp (K := K) f.precision 0
    rw [Nat.cast_zero, add_zero, zpow_natCast] at hzpow
    refine round_eq_self (m := ((2 ^ (f.precision - 1 + 0) : Nat) : Int)) ?_
    rw [exponent_natCast, Nat.log_pow one_lt_two, ← hzpow, Nat.cast_pow, Nat.cast_ofNat]
  · have hlog : Nat.log 2 n < f.precision := Nat.log_lt_of_lt_pow' hpos.ne' hlt
    have hexp : ((Nat.log 2 n : Nat) : Int) - (f.precision - 1) = -((f.precision - 1 - Nat.log 2 n : Nat) : Int) := by
      omega
    refine round_eq_self (m := n * 2 ^ (f.precision - 1 - Nat.log 2 n)) ?_
    rw [exponent_natCast, ulp, hexp, zpow_neg, zpow_natCast]
    push_cast
    rw [mul_assoc, mul_inv_cancel₀ (by positivity), mul_one]

@[simp] theorem round_one (f : FloatFormat) : f.round (1 : K) = 1 := by
  exact_mod_cast f.round_natCast (K := K) Nat.one_le_two_pow

/-- **The integers of the significant bits are kept.** -/
theorem round_intCast (f : FloatFormat) {n : Int} (hn : |n| ≤ 2 ^ f.precision) : f.round (n : K) = n := by
  obtain ⟨m, rfl | rfl⟩ := n.eq_nat_or_neg
  · rw [Nat.abs_cast] at hn
    rw [Int.cast_natCast]
    exact f.round_natCast (by exact_mod_cast hn)
  · rw [abs_neg, Nat.abs_cast] at hn
    rw [Int.cast_neg, round_neg, Int.cast_natCast, f.round_natCast (by exact_mod_cast hn)]

/-- The format as the floats of Python. -/
def rounding (f : FloatFormat) : Python.Rounding := ⟨f.round, f.round_nonneg⟩

theorem double_regular : double.rounding.Regular := ⟨double.round_mono, double.round_intCast⟩

end FloatFormat

end Bajiru
