import Mathlib.Algebra.BigOperators.Field
import Mathlib.Algebra.Order.Monoid.Unbundled.WithTop
import Mathlib.Analysis.SpecialFunctions.Exp
import Mathlib.Analysis.SpecialFunctions.Sqrt
import Mathlib.Tactic.Common

/-!
# Attention with a mask

A query attends to every position with the softmax of its scores. A mask is added to the scores, and a position whose
mask is `-∞` has the weight 0, so that keys and values at such positions do not matter (`attend_congr`).
-/

namespace Bajiru.Attention

variable {ι κ ν : Type*}

/-- The exponential, with 0 for `-∞`. -/
noncomputable def expMasked (x : WithBot ℝ) : ℝ := (x.map Real.exp).unbotD 0

@[simp] theorem expMasked_bot : expMasked ⊥ = 0 := rfl

section Score

variable [Fintype κ]

/-- The score of a key, with the mask. -/
noncomputable def score (q : κ → ℝ) (k : ι → κ → ℝ) (mask : ι → WithBot ℝ) (s : ι) : WithBot ℝ :=
  (((∑ i, q i * k s i) / Real.sqrt (Fintype.card κ) : ℝ) : WithBot ℝ) + mask s

theorem score_of_bot (q : κ → ℝ) (k : ι → κ → ℝ) {mask : ι → WithBot ℝ} {s : ι} (h : mask s = ⊥) :
    score q k mask s = ⊥ := by
  rw [score, h, WithBot.add_bot]

theorem score_congr (q : κ → ℝ) {k k' : ι → κ → ℝ} {mask : ι → WithBot ℝ} (h : ∀ s, mask s ≠ ⊥ → k s = k' s) :
    score q k mask = score q k' mask := by
  funext s
  rcases eq_or_ne (mask s) ⊥ with hs | hs
  · rw [score_of_bot q k hs, score_of_bot q k' hs]
  · rw [score, score, h s hs]

end Score

variable [Fintype ι] [Fintype κ]

/-- The softmax of the scores. -/
noncomputable def weight (scores : ι → WithBot ℝ) (s : ι) : ℝ := expMasked (scores s) / ∑ r, expMasked (scores r)

omit [Fintype κ] in
theorem weight_of_bot {scores : ι → WithBot ℝ} {s : ι} (h : scores s = ⊥) : weight scores s = 0 := by
  rw [weight, h, expMasked_bot, zero_div]

/-- The scaled dot-product attention of a query. -/
noncomputable def attend (q : κ → ℝ) (k : ι → κ → ℝ) (v : ι → ν → ℝ) (mask : ι → WithBot ℝ) (c : ν) : ℝ :=
  ∑ s, weight (score q k mask) s * v s c

/-- **Masked positions do not matter.** -/
theorem attend_congr (q : κ → ℝ) {k k' : ι → κ → ℝ} {v v' : ι → ν → ℝ} {mask : ι → WithBot ℝ}
    (hk : ∀ s, mask s ≠ ⊥ → k s = k' s) (hv : ∀ s, mask s ≠ ⊥ → v s = v' s) :
    attend q k v mask = attend q k' v' mask := by
  funext c
  unfold attend
  rw [score_congr q hk]
  refine Finset.sum_congr rfl fun s _ => ?_
  rcases eq_or_ne (mask s) ⊥ with hs | hs
  · rw [weight_of_bot (score_of_bot q k' hs), zero_mul, zero_mul]
  · rw [hv s hs]

end Bajiru.Attention
