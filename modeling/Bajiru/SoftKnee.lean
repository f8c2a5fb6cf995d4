import Bajiru.Numerals
import Mathlib.Topology.Algebra.Order.Field
import Mathlib.Topology.Instances.Real.Lemmas
import Mathlib.Tactic.FieldSimp
import Mathlib.Tactic.Linarith
import Mathlib.Tactic.Positivity
import Mathlib.Tactic.Ring

/-!
# Soft knees

The ramp `max 0 x`, rounded off by a parabola between `-h` and `h` (`knee_mid`). It is continuous and monotone, 0 up to
`-h` and strictly increasing from there, so that it tells two levels apart unless both lie below the knee (`knee_inj`).
-/

namespace Bajiru.SoftKnee

/-- The ramp with a knee of width `2 * h`. -/
noncomputable def knee (h x : ℝ) : ℝ := max 0 (min (2 * h) (x + h)) ^ 2 / (4 * h) + max 0 (x - h)

variable {h x y : ℝ}

theorem knee_below (hh : 0 < h) (hx : x ≤ -h) : knee h x = 0 := by
  have hmin : min (2 * h) (x + h) ≤ 0 := (min_le_right _ _).trans (by linarith)
  rw [knee, max_eq_left hmin, max_eq_left (by linarith : x - h ≤ 0)]
  simp

theorem knee_mid (h0 : -h ≤ x) (h1 : x ≤ h) : knee h x = (x + h) ^ 2 / (4 * h) := by
  rw [knee, min_eq_right (by linarith : x + h ≤ 2 * h), max_eq_right (by linarith : 0 ≤ x + h),
    max_eq_left (by linarith : x - h ≤ 0), add_zero]

theorem knee_above (hh : 0 < h) (hx : h ≤ x) : knee h x = x := by
  rw [knee, min_eq_left (by linarith : 2 * h ≤ x + h), max_eq_right (by linarith : 0 ≤ 2 * h),
    max_eq_right (by linarith : 0 ≤ x - h)]
  field_simp
  ring

theorem continuous_knee (h : ℝ) : Continuous (knee h) := by
  unfold knee
  fun_prop

theorem monotone_knee (hh : 0 < h) : Monotone (knee h) := by
  intro x y hxy
  have hramp : max 0 (min (2 * h) (x + h)) ≤ max 0 (min (2 * h) (y + h)) :=
    max_le_max_left _ (min_le_min_left _ (by linarith))
  unfold knee
  gcongr

theorem knee_nonneg (hh : 0 < h) (x : ℝ) : 0 ≤ knee h x := by
  unfold knee
  positivity

/-- From `-h` on the ramp rises. -/
theorem knee_lt (hh : 0 < h) (hx : -h ≤ x) (hxy : x < y) : knee h x < knee h y := by
  rcases le_or_gt y h with hy | hy
  · rw [knee_mid hx (hxy.le.trans hy), knee_mid (hx.trans hxy.le) hy]
    have hsum : 0 ≤ x + h := by linarith
    gcongr
  · rcases le_or_gt x h with hx' | hx'
    · calc knee h x ≤ knee h h := monotone_knee hh hx'
        _ = h := knee_above hh le_rfl
        _ < y := hy
        _ = knee h y := (knee_above hh hy.le).symm
    · rwa [knee_above hh hx'.le, knee_above hh hy.le]

/-- **The ramp tells levels apart** unless both lie below the knee. -/
theorem knee_inj (hh : 0 < h) : knee h x = knee h y ↔ x = y ∨ (x ≤ -h ∧ y ≤ -h) := by
  constructor
  · intro heq
    by_contra hne
    rw [not_or, not_and_or, not_le, not_le] at hne
    obtain ⟨hne, hlevel⟩ := hne
    wlog hxy : x < y generalizing x y with hother
    · exact hother heq.symm (Ne.symm hne) hlevel.symm (lt_of_le_of_ne (not_lt.1 hxy) (Ne.symm hne))
    · rcases le_or_gt x (-h) with hx | hx
      · have hy : -h < y := hlevel.resolve_left (not_lt.2 hx)
        have hpos := knee_lt hh le_rfl hy
        rw [knee_below hh le_rfl, ← heq, knee_below hh hx] at hpos
        exact lt_irrefl 0 hpos
      · exact (knee_lt hh hx.le hxy).ne heq
  · rintro (rfl | ⟨hx, hy⟩)
    · rfl
    · rw [knee_below hh hx, knee_below hh hy]

end Bajiru.SoftKnee
