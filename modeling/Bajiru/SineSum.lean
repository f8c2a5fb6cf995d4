import Mathlib
import Bajiru.Numerals

/-!
# Sums of sines

The sine sums behind a windowed sinc are not negative: `∑ c k * sin ((k + 1) * θ) / (k + 1)` and
`∑ c k * sin ((2 * k + 1) * θ)` for weights `c` that are not negative and do not grow. Summation by parts leaves the
sums without weights. That of the odd multiples is a square, and the one over all multiples has its minimum at the ends:
at a minimum inside, the last sine is not negative, and the sum before it is not either.
-/

namespace Bajiru.SineSum

open Finset Real

/-- **Summation by parts**: weights that fall keep sums that are not negative. -/
theorem sum_mul_nonneg {n : Nat} {c b : Nat → ℝ} (hpos : ∀ k, k < n → 0 ≤ c k)
    (hanti : ∀ k, k + 1 < n → c (k + 1) ≤ c k) (hb : ∀ m, m ≤ n → 0 ≤ ∑ k ∈ range m, b k) :
    0 ≤ ∑ k ∈ range n, c k * b k := by
  cases n with
  | zero => simp
  | succ n =>
    have hparts := sum_range_by_parts c b (n + 1)
    simp only [smul_eq_mul, Nat.add_sub_cancel] at hparts
    rw [hparts, sub_nonneg]
    have hlast : 0 ≤ c n * ∑ k ∈ range (n + 1), b k := mul_nonneg (hpos n (Nat.lt_succ_self n)) (hb _ le_rfl)
    refine (sum_nonpos fun k hk => ?_).trans hlast
    have hk := mem_range.1 hk
    exact mul_nonpos_of_nonpos_of_nonneg (sub_nonpos.2 (hanti k (Nat.succ_lt_succ hk))) (hb _ (Nat.succ_le_succ hk.le))

/-! ## Odd multiples -/

/-- The sines of the odd multiples sum to a square. -/
theorem sum_sin_odd (n : Nat) (θ : ℝ) : (∑ k ∈ range n, sin ((2 * k + 1) * θ)) * sin θ = sin (n * θ) ^ 2 := by
  induction n with
  | zero => simp
  | succ n ih =>
    rw [sum_range_succ, add_mul, ih]
    have hmid : (2 * (n : ℝ) + 1) * θ = n * θ + (n * θ + θ) := by ring
    have hnext : ((n + 1 : Nat) : ℝ) * θ = n * θ + θ := by push_cast; ring
    rw [hmid, hnext, sin_add (n * θ) (n * θ + θ), sin_add (n * θ) θ, cos_add (n * θ) θ]
    linear_combination -(sin (n * θ) ^ 2) * sin_sq_add_cos_sq θ

theorem sum_sin_odd_nonneg {θ : ℝ} (h0 : 0 < θ) (hpi : θ < Real.pi) (n : Nat) :
    0 ≤ ∑ k ∈ range n, sin ((2 * k + 1) * θ) := by
  have hsin : 0 < sin θ := sin_pos_of_pos_of_lt_pi h0 hpi
  refine nonneg_of_mul_nonneg_left ?_ hsin
  rw [sum_sin_odd]
  exact sq_nonneg _

/-- **With weights that fall**, over the multiples. What is taken off the first weight keeps the others in order. -/
theorem sum_mul_sin_odd_pos {n : Nat} {u : Nat → ℝ} (hn : 0 < n) (hfirst : 0 < u 0) (hpos : ∀ k, k < n → 0 ≤ u k)
    (hanti : ∀ k, k + 1 < n → u (k + 1) ≤ u k) {θ : ℝ} (h0 : 0 < θ) (hpi : θ < Real.pi) :
    0 < ∑ k ∈ range n, u k * (sin ((2 * k + 1) * θ) / (2 * k + 1)) := by
  have hsin : 0 < sin θ := sin_pos_of_pos_of_lt_pi h0 hpi
  have hodd : ∀ k : Nat, (0 : ℝ) < 2 * k + 1 := fun k => by positivity
  have hrest : 0 ≤ ∑ k ∈ range n, (if k = 0 then u 0 / 3 else u k / (2 * k + 1)) * sin ((2 * k + 1) * θ) := by
    refine sum_mul_nonneg (fun k hk => ?_) (fun k hk => ?_) fun m _ => sum_sin_odd_nonneg h0 hpi m
    · split
      · exact div_nonneg hfirst.le (by norm_num)
      · exact div_nonneg (hpos k hk) (hodd k).le
    · rw [if_neg (Nat.succ_ne_zero k)]
      split
      next hzero =>
        subst hzero
        norm_num
        exact div_le_div_of_nonneg_right (hanti 0 hk) (by norm_num)
      next =>
        refine div_le_div₀ (hpos k (Nat.lt_of_succ_lt hk)) (hanti k hk) (hodd k) ?_
        push_cast
        linarith
  obtain ⟨n, rfl⟩ := Nat.exists_eq_succ_of_ne_zero hn.ne'
  rw [sum_range_succ'] at hrest ⊢
  have htail : ∀ k : Nat, u (k + 1) * (sin ((2 * ((k + 1 : Nat) : ℝ) + 1) * θ) / (2 * ((k + 1 : Nat) : ℝ) + 1)) =
      (if k + 1 = 0 then u 0 / 3 else u (k + 1) / (2 * ((k + 1 : Nat) : ℝ) + 1)) *
        sin ((2 * ((k + 1 : Nat) : ℝ) + 1) * θ) := by
    intro k
    rw [if_neg (Nat.succ_ne_zero k)]
    ring
  simp only [htail]
  have hhead : (2 * ((0 : Nat) : ℝ) + 1) * θ = θ := by push_cast; ring
  have hmore : u 0 / 3 * sin θ < u 0 * sin θ := mul_lt_mul_of_pos_right (by linarith) hsin
  rw [if_pos rfl, hhead] at hrest
  rw [hhead, Nat.cast_zero, mul_zero, zero_add, div_one]
  linarith

/-! ## All multiples -/

/-- `∑ sin (k * θ) / k`. -/
noncomputable def sineSum (n : Nat) (θ : ℝ) : ℝ := ∑ k ∈ range n, sin ((k + 1) * θ) / (k + 1)

/-- The sum of the cosines, its derivative. -/
theorem sum_cos (n : Nat) (θ : ℝ) :
    2 * sin (θ / 2) * ∑ k ∈ range n, cos ((k + 1) * θ) = sin ((n + 1 / 2) * θ) - sin (θ / 2) := by
  induction n with
  | zero =>
    have hstart : (((0 : Nat) : ℝ) + 1 / 2) * θ = θ / 2 := by push_cast; ring
    rw [hstart, range_zero, sum_empty, mul_zero, sub_self]
  | succ n ih =>
    have hstep := sin_sub_sin ((((n + 1 : Nat) : ℝ) + 1 / 2) * θ) ((n + 1 / 2) * θ)
    have hdiff : ((((n + 1 : Nat) : ℝ) + 1 / 2) * θ - (n + 1 / 2) * θ) / 2 = θ / 2 := by push_cast; ring
    have hmean : ((((n + 1 : Nat) : ℝ) + 1 / 2) * θ + (n + 1 / 2) * θ) / 2 = (n + 1) * θ := by push_cast; ring
    rw [hdiff, hmean] at hstep
    rw [sum_range_succ, mul_add, ih, ← hstep]
    ring

theorem hasDerivAt_sineSum (n : Nat) (θ : ℝ) : HasDerivAt (sineSum n) (∑ k ∈ range n, cos ((k + 1) * θ)) θ := by
  unfold sineSum
  refine HasDerivAt.fun_sum fun k _ => ?_
  have hk : ((k : ℝ) + 1) ≠ 0 := Nat.cast_add_one_ne_zero k
  have hsin := ((hasDerivAt_id θ).const_mul ((k : ℝ) + 1)).sin.div_const ((k : ℝ) + 1)
  simpa [mul_div_assoc, hk] using hsin

theorem sineSum_zero (n : Nat) : sineSum n 0 = 0 := by simp [sineSum]

theorem sineSum_pi (n : Nat) : sineSum n Real.pi = 0 := by
  refine sum_eq_zero fun k _ => ?_
  have hmul := sin_nat_mul_pi (k + 1)
  push_cast at hmul
  rw [hmul, zero_div]

/-- **Where the derivative vanishes** the last sine is not negative. -/
theorem sin_nonneg_of_sum_cos {n : Nat} {θ : ℝ} (h0 : 0 < θ) (hpi : θ < Real.pi)
    (h : ∑ k ∈ range (n + 1), cos ((k + 1) * θ) = 0) : 0 ≤ sin ((n + 1) * θ) := by
  have hsin : 0 < sin (θ / 2) := sin_pos_of_pos_of_lt_pi (by linarith) (by linarith)
  have hcos : 0 < cos (θ / 2) := cos_pos_of_mem_Ioo ⟨by linarith, by linarith⟩
  have heq : sin (((n + 1 : Nat) + 1 / 2) * θ) = sin (θ / 2) := by
    have hsum := sum_cos (n + 1) θ
    rw [h, mul_zero] at hsum
    linarith
  have hsub : ((n : ℝ) + 1) * θ = ((n + 1 : Nat) + 1 / 2) * θ - θ / 2 := by push_cast; ring
  have hle : cos (((n + 1 : Nat) + 1 / 2) * θ) ≤ cos (θ / 2) := by
    refine abs_le_of_sq_le_sq' ?_ hcos.le |>.2
    rw [cos_sq', cos_sq', heq]
  rw [hsub, sin_sub, heq, mul_comm (cos _), ← mul_sub]
  exact mul_nonneg hsin.le (sub_nonneg.2 hle)

/-- **The sum is not negative** on the half circle. -/
theorem sineSum_nonneg (n : Nat) {θ : ℝ} (h0 : 0 ≤ θ) (hpi : θ ≤ Real.pi) : 0 ≤ sineSum n θ := by
  induction n generalizing θ with
  | zero => simp [sineSum]
  | succ n ih =>
    have hcont : ContinuousOn (sineSum (n + 1)) (Set.Icc 0 Real.pi) := fun θ _ =>
      (hasDerivAt_sineSum (n + 1) θ).continuousAt.continuousWithinAt
    obtain ⟨x, hx, hmin⟩ := isCompact_Icc.exists_isMinOn (Set.nonempty_Icc.2 Real.pi_pos.le) hcont
    refine le_trans ?_ (hmin ⟨h0, hpi⟩)
    obtain rfl | hx0 := hx.1.eq_or_lt
    · exact (sineSum_zero _).ge
    obtain rfl | hxpi := hx.2.eq_or_lt
    · exact (sineSum_pi _).ge
    -- a minimum inside
    have hlocal : IsLocalMin (sineSum (n + 1)) x := hmin.isLocalMin (Icc_mem_nhds hx0 hxpi)
    have hderiv := hlocal.hasDerivAt_eq_zero (hasDerivAt_sineSum (n + 1) x)
    have hlast := sin_nonneg_of_sum_cos hx0 hxpi hderiv
    rw [sineSum, sum_range_succ]
    exact add_nonneg (ih hx.1 hx.2) (div_nonneg hlast (Nat.cast_add_one_pos n).le)

/-- With weights that fall. -/
theorem sum_mul_sin_nonneg {n : Nat} {c : Nat → ℝ} (hpos : ∀ k, k < n → 0 ≤ c k)
    (hanti : ∀ k, k + 1 < n → c (k + 1) ≤ c k) {θ : ℝ} (h0 : 0 ≤ θ) (hpi : θ ≤ Real.pi) :
    0 ≤ ∑ k ∈ range n, c k * (sin ((k + 1) * θ) / (k + 1)) :=
  sum_mul_nonneg hpos hanti fun m _ => sineSum_nonneg m h0 hpi

end Bajiru.SineSum
