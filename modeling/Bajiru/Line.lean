import Mathlib.Algebra.Order.Field.Basic
import Mathlib.Tactic.Linarith
import Mathlib.Tactic.LinearCombination
import Mathlib.Tactic.Ring

/-!
# Lines through two points

`line a b` is the affine function through two points of the plane with different abscissas. Two lines that agree at two
abscissas are one line (`line_eq_iff`), and between its points a line lies between their ordinates (`line_mem`).
-/

namespace Bajiru

variable {K : Type*} [Field K]

/-- The line through `a` and `b`. -/
def line (a b : K × K) (x : K) : K := a.2 + (x - a.1) / (b.1 - a.1) * (b.2 - a.2)

theorem line_left (a b : K × K) : line a b a.1 = a.2 := by
  simp [line]

theorem line_right {a b : K × K} (h : a.1 ≠ b.1) : line a b b.1 = b.2 := by
  unfold line
  rw [div_self (sub_ne_zero.2 (Ne.symm h)), one_mul]
  ring

/-- A line is affine. -/
theorem line_eq (a b : K × K) (x : K) :
    line a b x = (b.2 - a.2) / (b.1 - a.1) * x + (a.2 - (b.2 - a.2) / (b.1 - a.1) * a.1) := by
  unfold line
  ring

/-- Lines that agree at two abscissas. -/
theorem line_unique {a b c d : K × K} {x y : K} (hxy : x ≠ y) (hx : line a b x = line c d x)
    (hy : line a b y = line c d y) : line a b = line c d := by
  rw [line_eq, line_eq c d] at hx hy
  have hslope : (b.2 - a.2) / (b.1 - a.1) = (d.2 - c.2) / (d.1 - c.1) := by
    apply mul_right_cancel₀ (sub_ne_zero.2 hxy)
    linear_combination hx - hy
  funext z
  rw [line_eq, line_eq c d]
  rw [hslope] at hx ⊢
  linear_combination hx

/-- Lines agree at two abscissas exactly if the points of one lie on the other. -/
theorem line_eq_iff {a b c d : K × K} (hab : a.1 ≠ b.1) {x y : K} (hxy : x ≠ y) :
    line a b x = line c d x ∧ line a b y = line c d y ↔ line c d a.1 = a.2 ∧ line c d b.1 = b.2 := by
  constructor
  · rintro ⟨hx, hy⟩
    rw [← line_unique hxy hx hy]
    exact ⟨line_left a b, line_right hab⟩
  · rintro ⟨ha, hb⟩
    rw [line_unique hab ((line_left a b).trans ha.symm) ((line_right hab).trans hb.symm)]
    exact ⟨rfl, rfl⟩

/-- Between its points a line lies between their ordinates. -/
theorem line_mem [LinearOrder K] [IsStrictOrderedRing K] {a b : K × K} {x : K} (ha : a.1 ≤ x) (hb : x ≤ b.1)
    (hab : a.1 < b.1) : min a.2 b.2 ≤ line a b x ∧ line a b x ≤ max a.2 b.2 := by
  have hpos : 0 < b.1 - a.1 := sub_pos.2 hab
  have ht0 : 0 ≤ (x - a.1) / (b.1 - a.1) := div_nonneg (sub_nonneg.2 ha) hpos.le
  have ht1 : (x - a.1) / (b.1 - a.1) ≤ 1 := (div_le_one hpos).2 (by linarith)
  unfold line
  generalize (x - a.1) / (b.1 - a.1) = t at *
  rcases le_total a.2 b.2 with h | h
  · rw [min_eq_left h, max_eq_right h]
    constructor <;> nlinarith
  · rw [min_eq_right h, max_eq_left h]
    constructor <;> nlinarith

end Bajiru
