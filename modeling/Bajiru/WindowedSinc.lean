import Bajiru.Numerals
import Bajiru.SineSum

/-!
# Windowed sincs

Tap `i` of `n` is the sinc at its distance from the middle, times a window. Under a window that is symmetric, is not
negative and falls from the middle on, the taps are symmetric and their sum is positive (`sum_tap_pos`): a filter can
always be scaled to the gain that it should have. A Kaiser window is one for every function in the place of the Bessel
function that is positive and grows (`window_kaiser`).
-/

namespace Bajiru.WindowedSinc

open Finset

/-- `sin (θ * m) / (π * m)`, at 0 its limit. -/
noncomputable def sinc (θ m : ℝ) : ℝ := if m = 0 then θ / Real.pi else Real.sin (θ * m) / (Real.pi * m)

/-- How far tap `i` is from the middle. -/
noncomputable def offset (n i : Nat) : ℝ := (i : ℝ) - ((n : ℝ) - 1) / 2

/-- A window over `n` taps. -/
structure Window (n : Nat) (win : Nat → ℝ) : Prop where
  symm i : i < n → win (n - 1 - i) = win i
  nonneg i : i < n → 0 ≤ win i
  middle : 0 < n → 0 < win (n / 2)
  falls i : n / 2 ≤ i → i + 1 < n → win (i + 1) ≤ win i

/-- A tap. -/
noncomputable def tap (θ : ℝ) (win : Nat → ℝ) (n i : Nat) : ℝ := sinc θ (offset n i) * win i

variable {n i : Nat} {θ : ℝ} {win : Nat → ℝ}

theorem sinc_neg (θ m : ℝ) : sinc θ (-m) = sinc θ m := by
  unfold sinc
  simp only [neg_eq_zero, mul_neg, Real.sin_neg, neg_div_neg_eq]

theorem offset_reflect (hi : i < n) : offset n (n - 1 - i) = -offset n i := by
  unfold offset
  rw [Nat.cast_sub (by omega), Nat.cast_sub (by omega)]
  push_cast
  ring

/-- The taps are symmetric. -/
theorem tap_reflect (hw : Window n win) (hi : i < n) : tap θ win n (n - 1 - i) = tap θ win n i := by
  rw [tap, tap, offset_reflect hi, sinc_neg, hw.symm i hi]

/-- The zeros of the sinc. -/
theorem sinc_zero {f : Nat} (hf : 0 < f) {m : Int} (hm : m ≠ 0) : sinc (Real.pi / f) (f * m) = 0 := by
  have hfreal : (f : ℝ) ≠ 0 := Nat.cast_ne_zero.2 hf.ne'
  have hmul : Real.pi / f * (f * m) = m * Real.pi := by
    field_simp
  rw [sinc, if_neg (mul_ne_zero hfreal (Int.cast_ne_zero.2 hm)), hmul, Real.sin_int_mul_pi, zero_div]

/-! ## The sum of the taps -/

/-- Both sides of a symmetric list of even length. -/
theorem sum_even {g : Nat → ℝ} {p : Nat} (h : ∀ k, k < p → g (p - 1 - k) = g (p + k)) :
    ∑ i ∈ range (p + p), g i = 2 * ∑ k ∈ range p, g (p + k) := by
  rw [sum_range_add, ← sum_range_reflect, sum_congr rfl fun k hk => h k (mem_range.1 hk)]
  ring

/-- Both sides of a symmetric list of odd length, and its middle. -/
theorem sum_odd {g : Nat → ℝ} {p : Nat} (h : ∀ k, k < p → g (p - 1 - k) = g (p + 1 + k)) :
    ∑ i ∈ range (p + 1 + p), g i = g p + 2 * ∑ k ∈ range p, g (p + 1 + k) := by
  rw [sum_range_add, sum_range_succ, ← sum_range_reflect, sum_congr rfl fun k hk => h k (mem_range.1 hk)]
  ring

/-- Of an even number of taps the sincs are sines of odd multiples. -/
theorem tap_even {p : Nat} (k : Nat) : tap θ win (p + p) (p + k) =
    2 / Real.pi * (win (p + k) * (Real.sin ((2 * k + 1) * (θ / 2)) / (2 * k + 1))) := by
  have hpi := Real.pi_ne_zero
  have hodd : (2 * (k : ℝ) + 1) ≠ 0 := by positivity
  have hoffset : offset (p + p) (p + k) = (2 * k + 1) / 2 := by
    unfold offset
    push_cast
    ring
  have harg : θ * ((2 * (k : ℝ) + 1) / 2) = (2 * k + 1) * (θ / 2) := by ring
  rw [tap, hoffset, sinc, if_neg (div_ne_zero hodd two_ne_zero), harg]
  field_simp

/-- Of an odd number they are sines of all multiples. -/
theorem tap_odd {p : Nat} (k : Nat) : tap θ win (p + 1 + p) (p + 1 + k) =
    1 / Real.pi * (win (p + 1 + k) * (Real.sin ((k + 1) * θ) / (k + 1))) := by
  have hpi := Real.pi_ne_zero
  have hk : ((k : ℝ) + 1) ≠ 0 := Nat.cast_add_one_ne_zero k
  have hoffset : offset (p + 1 + p) (p + 1 + k) = k + 1 := by
    unfold offset
    push_cast
    ring
  rw [tap, hoffset, sinc, if_neg hk, mul_comm θ]
  field_simp

theorem tap_middle {p : Nat} : tap θ win (p + 1 + p) p = θ / Real.pi * win p := by
  have hoffset : offset (p + 1 + p) p = 0 := by
    unfold offset
    push_cast
    ring
  rw [tap, hoffset, sinc, if_pos rfl]

theorem sum_tap_even_pos {p : Nat} (hw : Window (p + p) win) (hp : 0 < p) (h0 : 0 < θ) (hpi : θ ≤ Real.pi) :
    0 < ∑ i ∈ range (p + p), tap θ win (p + p) i := by
  have hhalf : (p + p) / 2 = p := by omega
  have hmiddle := hw.middle (by omega)
  rw [hhalf] at hmiddle
  have hsum : ∑ i ∈ range (p + p), tap θ win (p + p) i = 2 * ∑ k ∈ range p, tap θ win (p + p) (p + k) :=
    sum_even fun k hk => by rw [← tap_reflect hw (show p + k < p + p by omega)]; congr 1; omega
  rw [hsum, sum_congr rfl fun k _ => tap_even k, ← mul_sum]
  refine mul_pos two_pos (mul_pos (div_pos two_pos Real.pi_pos) ?_)
  have h0' : 0 < θ / 2 := by linarith
  have hpi' : θ / 2 < Real.pi := by linarith [Real.pi_pos]
  exact SineSum.sum_mul_sin_odd_pos (u := fun k => win (p + k)) hp hmiddle (fun k hk => hw.nonneg _ (by omega))
    (fun k hk => hw.falls (p + k) (by omega) (by omega)) h0' hpi'

theorem sum_tap_odd_pos {p : Nat} (hw : Window (p + 1 + p) win) (h0 : 0 < θ) (hpi : θ ≤ Real.pi) :
    0 < ∑ i ∈ range (p + 1 + p), tap θ win (p + 1 + p) i := by
  have hhalf : (p + 1 + p) / 2 = p := by omega
  have hmiddle := hw.middle (by omega)
  rw [hhalf] at hmiddle
  have hsum : ∑ i ∈ range (p + 1 + p), tap θ win (p + 1 + p) i =
      tap θ win (p + 1 + p) p + 2 * ∑ k ∈ range p, tap θ win (p + 1 + p) (p + 1 + k) :=
    sum_odd fun k hk => by rw [← tap_reflect hw (show p + 1 + k < p + 1 + p by omega)]; congr 1; omega
  rw [hsum, sum_congr rfl fun k _ => tap_odd k, ← mul_sum, tap_middle]
  refine add_pos_of_pos_of_nonneg (mul_pos (div_pos h0 Real.pi_pos) hmiddle) ?_
  refine mul_nonneg two_pos.le (mul_nonneg (div_pos one_pos Real.pi_pos).le ?_)
  exact SineSum.sum_mul_sin_nonneg (fun k hk => hw.nonneg _ (by omega))
    (fun k hk => hw.falls (p + 1 + k) (by omega) (by omega)) h0.le hpi

/-- **The sum of the taps is positive.** -/
theorem sum_tap_pos (hw : Window n win) (hn : 0 < n) (h0 : 0 < θ) (hpi : θ ≤ Real.pi) :
    0 < ∑ i ∈ range n, tap θ win n i := by
  obtain ⟨p, rfl | rfl⟩ : ∃ p, n = p + p ∨ n = p + 1 + p := ⟨n / 2, by omega⟩
  · exact sum_tap_even_pos hw (by omega) h0 hpi
  · exact sum_tap_odd_pos hw h0 hpi

/-! ## Kaiser windows -/

/-- The place of tap `i` between the ends, from -1 to 1. -/
noncomputable def place (n i : Nat) : ℝ := 2 * i / ((n : ℝ) - 1) - 1

/-- A Kaiser window, with `bessel` in the place of the Bessel function. -/
noncomputable def kaiser (bessel : ℝ → ℝ) (beta : ℝ) (n i : Nat) : ℝ :=
  bessel (beta * √(1 - place n i * place n i)) / bessel beta

theorem place_reflect (hi : i < n) (hn : 1 < n) : place n (n - 1 - i) = -place n i := by
  have hreal : ((n : ℝ) - 1) ≠ 0 := by
    have : (1 : ℝ) < n := by exact_mod_cast hn
    linarith
  unfold place
  rw [Nat.cast_sub (by omega), Nat.cast_sub (by omega)]
  push_cast
  field_simp
  ring

theorem place_mono (hn : 1 < n) {j : Nat} (hij : i ≤ j) : place n i ≤ place n j := by
  have hreal : (0 : ℝ) < (n : ℝ) - 1 := by
    have : (1 : ℝ) < n := by exact_mod_cast hn
    linarith
  have hcast : (i : ℝ) ≤ j := by exact_mod_cast hij
  unfold place
  gcongr

theorem place_nonneg (hn : 1 < n) (hi : n / 2 ≤ i) : 0 ≤ place n i := by
  have hreal : (0 : ℝ) < (n : ℝ) - 1 := by
    have : (1 : ℝ) < n := by exact_mod_cast hn
    linarith
  have hcast : (n : ℝ) ≤ 2 * i + 1 := by exact_mod_cast (by omega : n ≤ 2 * i + 1)
  unfold place
  rw [sub_nonneg, le_div_iff₀ hreal]
  linarith

/-- **A Kaiser window** falls from the middle on, if its function is positive and grows. -/
theorem window_kaiser {bessel : ℝ → ℝ} (hpos : ∀ x, 0 ≤ x → 0 < bessel x)
    (hmono : ∀ x y, 0 ≤ x → x ≤ y → bessel x ≤ bessel y) {beta : ℝ} (hbeta : 0 ≤ beta) (n : Nat) :
    Window n (kaiser bessel beta n) := by
  have harg : ∀ r : ℝ, 0 ≤ beta * √(1 - r * r) := fun r => mul_nonneg hbeta (Real.sqrt_nonneg _)
  have hkaiser : ∀ i, 0 < kaiser bessel beta n i := fun i => div_pos (hpos _ (harg _)) (hpos _ hbeta)
  refine ⟨fun i hi => ?_, fun i _ => (hkaiser i).le, fun _ => hkaiser _, fun i hi hlt => ?_⟩
  · obtain hn | hn := Nat.lt_or_ge 1 n
    · rw [kaiser, place_reflect hi hn, neg_mul_neg, kaiser]
    · congr 1
      omega
  · have hn : 1 < n := by omega
    have hplace := mul_self_le_mul_self (place_nonneg hn hi) (place_mono hn (Nat.le_succ i))
    refine div_le_div_of_nonneg_right (hmono _ _ (harg _) ?_) (hpos _ hbeta).le
    exact mul_le_mul_of_nonneg_left (Real.sqrt_le_sqrt (by linarith)) hbeta

end Bajiru.WindowedSinc
