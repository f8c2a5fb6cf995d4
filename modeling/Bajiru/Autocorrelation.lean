import Mathlib.Algebra.BigOperators.Ring.Finset
import Mathlib.Algebra.Order.BigOperators.Ring.Finset
import Mathlib.Algebra.Order.Ring.Basic
import Mathlib.Tactic.Common
import Mathlib.Tactic.LinearCombination

/-!
# Autocorrelation and squared differences

The squared difference between a signal of `n` entries and its shift by `k`, with zeros past the end, comes from the
autocorrelation and the energy of the first `k` entries (`squaredDifference_eq`).
-/

namespace Bajiru

variable {R : Type*} [CommRing R]

/-- The linear autocorrelation of `n` entries at lag `k`. -/
def autocorrelation (x : Nat → R) (n k : Nat) : R := ∑ j ∈ Finset.range n, x j * x (j + k)

/-- The squared difference between `n` entries and those `k` later. -/
def squaredDifference (x : Nat → R) (n k : Nat) : R := ∑ j ∈ Finset.range n, (x j - x (j + k)) ^ 2

/-- The energy of the first `k` entries. -/
def energy (x : Nat → R) (k : Nat) : R := ∑ j ∈ Finset.range k, x j ^ 2

theorem energy_add (x : Nat → R) (k n : Nat) : energy x (k + n) = energy x k + ∑ j ∈ Finset.range n, x (j + k) ^ 2 := by
  rw [energy, Finset.sum_range_add]
  exact congrArg _ (Finset.sum_congr rfl fun j _ => by rw [Nat.add_comm])

/-- Past the end nothing is added. -/
theorem energy_add_of_zero {x : Nat → R} {n : Nat} (hx : ∀ j, n ≤ j → x j = 0) (k : Nat) :
    energy x (n + k) = energy x n := by
  rw [energy_add, Finset.sum_eq_zero, add_zero]
  intro j _
  rw [hx _ (Nat.le_add_left n j), sq, zero_mul]

theorem autocorrelation_zero (x : Nat → R) (n : Nat) : autocorrelation x n 0 = energy x n :=
  Finset.sum_congr rfl fun j _ => (sq (x j)).symm

/-- **The squared difference** from the autocorrelation and the energy of a prefix. -/
theorem squaredDifference_eq {x : Nat → R} {n : Nat} (hx : ∀ j, n ≤ j → x j = 0) (k : Nat) :
    squaredDifference x n k = 2 * (autocorrelation x n 0 - autocorrelation x n k) - energy x k := by
  have hshift : energy x k + ∑ j ∈ Finset.range n, x (j + k) ^ 2 = energy x n := by
    rw [← energy_add, Nat.add_comm, energy_add_of_zero hx]
  have hexpand : squaredDifference x n k =
      energy x n + ∑ j ∈ Finset.range n, x (j + k) ^ 2 - 2 * autocorrelation x n k := by
    rw [squaredDifference, energy, autocorrelation, Finset.mul_sum, ← Finset.sum_add_distrib, ← Finset.sum_sub_distrib]
    exact Finset.sum_congr rfl fun j _ => by ring
  rw [hexpand, autocorrelation_zero]
  linear_combination hshift

theorem squaredDifference_nonneg [LinearOrder R] [IsStrictOrderedRing R] (x : Nat → R) (n k : Nat) :
    0 ≤ squaredDifference x n k :=
  Finset.sum_nonneg fun _ _ => sq_nonneg _

theorem energy_nonneg [LinearOrder R] [IsStrictOrderedRing R] (x : Nat → R) (k : Nat) : 0 ≤ energy x k :=
  Finset.sum_nonneg fun _ _ => sq_nonneg _

end Bajiru
