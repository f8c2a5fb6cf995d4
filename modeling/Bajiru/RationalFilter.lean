import Mathlib.Analysis.Complex.Basic
import Mathlib.Data.List.GetD
import Mathlib.RingTheory.PowerSeries.Basic
import Mathlib.Tactic.LinearCombination

/-!
# Digital filters by their coefficients

`lfilter b a x` is the filter whose outputs `y` have `∑ a k * y (n - k) = ∑ b k * x (n - k)`. As power series, `a * y`
and `b * x` agree as far as the samples go (`lfilter_series`), so filters in a row have the products of their
coefficients (`Filters.comp`) and their transfer function is the product of the quotients. A filter whose numerator is
its denominator in reverse passes every frequency unchanged in size (`norm_transfer`), if it is stable: `stable_one`
and `stable_two` say when filters of order 1 and 2 are.
-/

namespace Bajiru.RationalFilter

/-! ## The filter -/

section Filter

variable {K : Type*} [Field K]

/-- `∑ cs k * samples k`. -/
def dot (cs samples : List K) : K := (List.zipWith (· * ·) cs samples).sum

@[simp] theorem dot_nil (samples : List K) : dot [] samples = 0 := rfl

@[simp] theorem dot_cons (c s : K) (cs samples : List K) : dot (c :: cs) (s :: samples) = c * s + dot cs samples :=
  List.sum_cons

/-- The outputs for `x`, after the inputs `xs` and the outputs `ys`, both from the latest on. -/
def outputs (b : List K) (a₀ : K) (as xs ys : List K) : List K → List K
  | [] => []
  | s :: x =>
    let y := (dot b (s :: xs) - dot as ys) / a₀
    y :: outputs b a₀ as (s :: xs) (y :: ys) x

/-- `scipy.signal.lfilter(b, a, x)`. -/
def lfilter (b a x : List K) : List K := outputs b (a.headD 0) a.tail [] [] x

theorem length_outputs (b : List K) (a₀ : K) (as xs ys x : List K) : (outputs b a₀ as xs ys x).length = x.length := by
  induction x generalizing xs ys with
  | nil => rfl
  | cons s x ih => exact congrArg Nat.succ (ih _ _)

@[simp] theorem length_lfilter (b a x : List K) : (lfilter b a x).length = x.length := length_outputs ..

/-- **The difference equation** at each output. -/
theorem outputs_equation (b as : List K) {a₀ : K} (ha : a₀ ≠ 0) (xs ys x : List K) {n : Nat} (hn : n < x.length) :
    dot (a₀ :: as) (((outputs b a₀ as xs ys x).take (n + 1)).reverse ++ ys) =
      dot b ((x.take (n + 1)).reverse ++ xs) := by
  induction x generalizing xs ys n with
  | nil => exact absurd hn (Nat.not_lt_zero n)
  | cons s x ih =>
    rw [outputs]
    cases n with
    | zero =>
      simp only [List.take_succ_cons, List.take_zero, List.reverse_singleton, List.singleton_append, dot_cons]
      rw [mul_div_cancel₀ _ ha, sub_add_cancel]
    | succ n =>
      have hstep := ih (s :: xs) ((dot b (s :: xs) - dot as ys) / a₀ :: ys) (Nat.lt_of_succ_lt_succ hn)
      simpa only [List.take_succ_cons, List.reverse_cons, List.append_assoc, List.singleton_append] using hstep

/-! ## Power series -/

/-- The power series of finitely many coefficients. -/
def series (cs : List K) : PowerSeries K := PowerSeries.mk fun n => cs.getD n 0

theorem series_cons (c : K) (cs : List K) : series (c :: cs) = PowerSeries.C c + PowerSeries.X * series cs := by
  ext n
  cases n with
  | zero => simp [series]
  | succ n => simp [series, PowerSeries.coeff_succ_X_mul]

theorem series_nil : series ([] : List K) = 0 := by
  ext n
  simp [series]

/-- A coefficient of a product, inside the samples. -/
theorem coeff_series_mul (cs samples : List K) {n : Nat} (hn : n < samples.length) :
    PowerSeries.coeff n (series cs * series samples) = dot cs (samples.take (n + 1)).reverse := by
  induction cs generalizing n with
  | nil => rw [series_nil, zero_mul, map_zero, dot_nil]
  | cons c cs ih =>
    have hlast : (samples.take (n + 1)).reverse = samples.getD n 0 :: (samples.take n).reverse := by
      rw [List.take_succ_eq_append_getElem hn, List.reverse_append, List.reverse_singleton, List.singleton_append,
        List.getD_eq_getElem _ _ hn]
    rw [series_cons, add_mul, map_add, PowerSeries.coeff_C_mul, hlast, dot_cons, mul_assoc]
    congr 1
    · rw [series, PowerSeries.coeff_mk]
    · cases n with
      | zero => simp [dot]
      | succ n => rw [PowerSeries.coeff_succ_X_mul, ih (Nat.lt_of_succ_lt hn)]

/-- `x` and `y` are input and output of the filter `b / a`, as far as they go. -/
def Filters (b a : PowerSeries K) (x y : List K) : Prop :=
  y.length = x.length ∧ PowerSeries.X ^ x.length ∣ a * series y - b * series x

/-- **The filter** has the transfer function `b / a`. -/
theorem lfilter_series {b as : List K} {a₀ : K} (ha : a₀ ≠ 0) (x : List K) :
    Filters (series b) (series (a₀ :: as)) x (lfilter b (a₀ :: as) x) := by
  refine ⟨length_lfilter .., ?_⟩
  rw [PowerSeries.X_pow_dvd_iff]
  intro n hn
  have hequation := outputs_equation b as ha [] [] x hn
  rw [List.append_nil, List.append_nil] at hequation
  rw [map_sub, coeff_series_mul _ _ (by rwa [length_lfilter]), coeff_series_mul _ _ hn, sub_eq_zero]
  exact hequation

/-- Filters in a row. -/
theorem Filters.comp {b a b' a' : PowerSeries K} {x y z : List K} (h : Filters b a x y) (h' : Filters b' a' y z) :
    Filters (b' * b) (a' * a) x z := by
  obtain ⟨hlen, d, hd⟩ := h
  obtain ⟨hlen', d', hd'⟩ := h'
  rw [hlen] at hd'
  refine ⟨hlen'.trans hlen, a * d' + b' * d, ?_⟩
  linear_combination a * hd' + b' * hd

end Filter

/-! ## The transfer function -/

open ComplexConjugate

/-- `∑ cs k * w ^ k`. -/
def eval : List ℝ → ℂ → ℂ
  | [], _ => 0
  | c :: cs, w => c + w * eval cs w

/-- The transfer function at `z`. -/
noncomputable def transfer (b a : List ℝ) (z : ℂ) : ℂ := eval b z⁻¹ / eval a z⁻¹

/-- All roots of the denominator, as a polynomial in `z`, are inside the unit circle. -/
def Stable (a : List ℝ) : Prop := ∀ z : ℂ, eval a.reverse z = 0 → ‖z‖ < 1

theorem eval_append_singleton (cs : List ℝ) (c : ℝ) (w : ℂ) : eval (cs ++ [c]) w = eval cs w + w ^ cs.length * c := by
  induction cs with
  | nil => simp [eval]
  | cons d cs ih =>
    rw [List.cons_append, eval, eval, ih, List.length_cons]
    ring

theorem eval_conj (cs : List ℝ) (w : ℂ) : eval cs (conj w) = conj (eval cs w) := by
  induction cs with
  | nil => simp [eval]
  | cons c cs ih => simp [eval, ih]

/-- Reversed coefficients are those of the reciprocal. -/
theorem eval_reverse (cs : List ℝ) {w : ℂ} (hw : w ≠ 0) : w * eval cs.reverse w = w ^ cs.length * eval cs w⁻¹ := by
  induction cs with
  | nil => simp [eval]
  | cons c cs ih =>
    rw [List.reverse_cons, eval_append_singleton, mul_add, ih, eval, List.length_reverse, List.length_cons]
    field_simp
    ring

theorem norm_eval_reverse (cs : List ℝ) {w : ℂ} (hw : ‖w‖ = 1) : ‖eval cs.reverse w‖ = ‖eval cs w‖ := by
  have hne : w ≠ 0 := by
    rw [← norm_ne_zero_iff, hw]
    exact one_ne_zero
  have hrev := congrArg norm (eval_reverse cs hne)
  rwa [norm_mul, norm_mul, norm_pow, hw, one_mul, one_pow, one_mul, Complex.inv_eq_conj hw, eval_conj,
    RCLike.norm_conj] at hrev

theorem Stable.eval_ne_zero {a : List ℝ} (ha : Stable a) {w : ℂ} (hw : ‖w‖ = 1) : eval a w ≠ 0 := by
  intro hzero
  have hrev : ‖eval a.reverse w‖ = 0 := by rw [norm_eval_reverse a hw, hzero, norm_zero]
  exact absurd (ha w (norm_eq_zero.1 hrev)) hw.not_lt

/-- **All-pass**: with the denominator in reverse as numerator, every frequency keeps its size. -/
theorem norm_transfer {a : List ℝ} (ha : Stable a) {z : ℂ} (hz : ‖z‖ = 1) : ‖transfer a.reverse a z‖ = 1 := by
  have hinv : ‖z⁻¹‖ = 1 := by rw [norm_inv, hz, inv_one]
  rw [transfer, norm_div, norm_eval_reverse a hinv]
  exact div_self (norm_ne_zero_iff.2 (ha.eval_ne_zero hinv))

/-! ## Stability of order 1 and 2 -/

theorem stable_one {a : ℝ} (ha : |a| < 1) : Stable [1, -a] := by
  intro z hz
  have hroot : z = a := by
    simp only [List.reverse_cons, List.reverse_nil, List.nil_append, List.singleton_append, eval] at hz
    push_cast at hz
    linear_combination hz
  rw [hroot, Complex.norm_real, Real.norm_eq_abs]
  exact ha

/-- A real root is inside the unit circle. -/
theorem abs_lt_one_of_root {a₀ a₁ a₂ x : ℝ} (h₂ : |a₂| < a₀) (h₁ : |a₁| < a₀ + a₂) (h : a₀ * x ^ 2 + a₁ * x + a₂ = 0) :
    |x| < 1 := by
  by_contra hx
  rw [not_lt] at hx
  have hpos : 0 < (a₀ + a₂ - |a₁|) * |x| := mul_pos (by linarith) (by linarith)
  have hmul : -(|a₁| * |x|) ≤ a₁ * x := by
    rw [← abs_mul]
    exact neg_abs_le _
  have hfactor : 0 ≤ (|x| - 1) * (a₀ * |x| - a₂) := by
    refine mul_nonneg (by linarith) ?_
    have hscale : a₀ * 1 ≤ a₀ * |x| := mul_le_mul_of_nonneg_left hx ((abs_nonneg a₂).trans h₂.le)
    linarith [le_abs_self a₂]
  rw [← sq_abs x] at h
  linarith [sq (|x|), show (|x| - 1) * (a₀ * |x| - a₂) = a₀ * |x| ^ 2 - (a₀ + a₂) * |x| + a₂ by ring,
    show (a₀ + a₂ - |a₁|) * |x| = (a₀ + a₂) * |x| - |a₁| * |x| by ring]

/-- Roots that are not real have the square `a₂ / a₀` of their size. -/
theorem normSq_of_root {a₀ a₁ a₂ : ℝ} {z : ℂ} (him : z.im ≠ 0) (h : (a₀ : ℂ) * z ^ 2 + a₁ * z + a₂ = 0) :
    a₀ * Complex.normSq z = a₂ := by
  have hre := congrArg Complex.re h
  have himag := congrArg Complex.im h
  simp only [sq, Complex.add_re, Complex.mul_re, Complex.ofReal_re, Complex.ofReal_im, Complex.add_im, Complex.mul_im,
    Complex.zero_re, Complex.zero_im] at hre himag
  have hsum : 2 * a₀ * z.re + a₁ = 0 := by
    refine (mul_eq_zero.1 (?_ : z.im * (2 * a₀ * z.re + a₁) = 0)).resolve_left him
    linear_combination himag
  rw [Complex.normSq_apply]
  linear_combination z.re * hsum - hre

/-- **The stability triangle.** -/
theorem stable_two {a₀ a₁ a₂ : ℝ} (h₂ : |a₂| < a₀) (h₁ : |a₁| < a₀ + a₂) : Stable [a₀, a₁, a₂] := by
  intro z hz
  have hroot : (a₀ : ℂ) * z ^ 2 + a₁ * z + a₂ = 0 := by
    simp only [List.reverse_cons, List.reverse_nil, List.nil_append, List.cons_append, eval] at hz
    linear_combination hz
  by_cases him : z.im = 0
  · have hreal : (z.re : ℂ) = z := Complex.ext rfl him.symm
    rw [← hreal] at hroot ⊢
    rw [Complex.norm_real, Real.norm_eq_abs]
    exact abs_lt_one_of_root h₂ h₁ (by exact_mod_cast hroot)
  · have hnorm := normSq_of_root him hroot
    have hpos : 0 < a₀ := (abs_nonneg a₂).trans_lt h₂
    rw [Complex.normSq_eq_norm_sq] at hnorm
    have hlt : a₀ * ‖z‖ ^ 2 < a₀ * 1 := by
      rw [hnorm, mul_one]
      exact (le_abs_self a₂).trans_lt h₂
    have hsq := lt_of_mul_lt_mul_left hlt hpos.le
    exact (sq_lt_one_iff₀ (norm_nonneg z)).1 hsq

end Bajiru.RationalFilter
