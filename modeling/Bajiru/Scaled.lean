import Mathlib.Algebra.BigOperators.Ring.List
import Mathlib.Algebra.Order.BigOperators.Group.List
import Mathlib.Algebra.Order.Field.Basic
import Mathlib.Data.List.GetD
import Mathlib.Tactic.Common

/-!
# Weights scaled to the sum 1

`scaled xs` divides weights by their sum. It does not see a common factor (`scaled_div`).
-/

namespace Bajiru

variable {K : Type*} [Field K]

/-- The weights in proportion, with the sum 1. -/
def scaled (xs : List K) : List K := xs.map (· / xs.sum)

theorem sum_map_div (xs : List K) (c : K) : (xs.map (· / c)).sum = xs.sum / c := by
  simp only [div_eq_mul_inv, List.sum_map_mul_right, List.map_id']

theorem getD_map_div (xs : List K) (c : K) (i : Nat) : (xs.map (· / c)).getD i 0 = xs.getD i 0 / c := by
  have hmap := List.getD_map (l := xs) (d := 0) (n := i) (· / c)
  rwa [zero_div] at hmap

theorem length_scaled (xs : List K) : (scaled xs).length = xs.length := List.length_map _

theorem sum_scaled {xs : List K} (h : xs.sum ≠ 0) : (scaled xs).sum = 1 := by
  rw [scaled, sum_map_div, div_self h]

/-- A common factor goes. -/
theorem scaled_div (xs : List K) {c : K} (hc : c ≠ 0) : scaled (xs.map (· / c)) = scaled xs := by
  rw [scaled, sum_map_div, scaled, List.map_map]
  exact List.map_congr_left fun x _ => div_div_div_cancel_right₀ hc x _

variable [LinearOrder K] [IsStrictOrderedRing K]

theorem scaled_nonneg {xs : List K} (h : ∀ x ∈ xs, 0 ≤ x) : ∀ x ∈ scaled xs, 0 ≤ x := by
  intro y hy
  obtain ⟨x, hx, rfl⟩ := List.mem_map.1 hy
  exact div_nonneg (h x hx) (List.sum_nonneg h)

/-- Weights with a positive one among them. -/
theorem sum_pos_of_mem {xs : List K} (h : ∀ x ∈ xs, 0 ≤ x) {x : K} (hx : x ∈ xs) (hpos : 0 < x) : 0 < xs.sum :=
  hpos.trans_le (List.single_le_sum h x hx)

end Bajiru
