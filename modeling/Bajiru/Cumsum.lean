import Mathlib.Algebra.BigOperators.Group.List.Basic
import Mathlib.Algebra.BigOperators.Intervals
import Mathlib.Algebra.Order.BigOperators.Group.List
import Mathlib.Algebra.Ring.Nat
import Mathlib.Algebra.Ring.Int.Defs
import Mathlib.Tactic.Common

/-!
# Cumulative sums

The entries of `cumsum xs` are the sums of the prefixes of `xs`. Over the entries of a mask, the cumulative sum less 1
numbers the true ones without gaps, so that a sum over these numbers is a sum over `0 .. count - 1` (`sum_numbered`).
-/

namespace Bajiru.Numpy

section Cumsum

variable {M : Type*} [AddMonoid M]

/-- The sums of the prefixes, with `acc` in front. -/
def cumsumFrom (acc : M) : List M → List M
  | [] => []
  | x :: xs => (acc + x) :: cumsumFrom (acc + x) xs

/-- `np.cumsum(xs)`. -/
def cumsum (xs : List M) : List M := cumsumFrom 0 xs

theorem length_cumsumFrom (acc : M) (xs : List M) : (cumsumFrom acc xs).length = xs.length := by
  induction xs generalizing acc with
  | nil => rfl
  | cons x xs ih => exact congrArg Nat.succ (ih _)

@[simp] theorem length_cumsum (xs : List M) : (cumsum xs).length = xs.length := length_cumsumFrom 0 xs

theorem getElem?_cumsumFrom (acc : M) {xs : List M} {k : Nat} (hk : k < xs.length) :
    (cumsumFrom acc xs)[k]? = some (acc + (xs.take (k + 1)).sum) := by
  induction xs generalizing acc k with
  | nil => exact absurd hk (Nat.not_lt_zero k)
  | cons x xs ih =>
    cases k with
    | zero => simp [cumsumFrom]
    | succ k =>
      rw [cumsumFrom, List.getElem?_cons_succ, ih _ (Nat.lt_of_succ_lt_succ hk), List.take_succ_cons, List.sum_cons,
        add_assoc]

/-- **An entry** is the sum of a prefix. -/
theorem getElem?_cumsum {xs : List M} {k : Nat} (hk : k < xs.length) :
    (cumsum xs)[k]? = some (xs.take (k + 1)).sum := by
  rw [cumsum, getElem?_cumsumFrom 0 hk, zero_add]

theorem cumsumFrom_append (acc : M) (xs ys : List M) :
    cumsumFrom acc (xs ++ ys) = cumsumFrom acc xs ++ cumsumFrom (acc + xs.sum) ys := by
  induction xs generalizing acc with
  | nil => simp [cumsumFrom]
  | cons x xs ih => rw [List.cons_append, cumsumFrom, ih, cumsumFrom, List.cons_append, List.sum_cons, add_assoc]

theorem cumsum_concat (xs : List M) (x : M) : cumsum (xs ++ [x]) = cumsum xs ++ [xs.sum + x] := by
  rw [cumsum, cumsumFrom_append, zero_add]
  rfl

theorem cumsum_nonneg [Preorder M] [AddLeftMono M] {xs : List M} (h : ∀ x ∈ xs, 0 ≤ x) : ∀ x ∈ cumsum xs, 0 ≤ x := by
  intro y hy
  obtain ⟨k, hk⟩ := List.mem_iff_getElem?.1 hy
  obtain ⟨hlt, -⟩ := List.getElem?_eq_some_iff.1 hk
  rw [length_cumsum] at hlt
  obtain rfl := Option.some.inj ((getElem?_cumsum hlt).symm.trans hk)
  exact List.sum_nonneg fun x hx => h x (List.mem_of_mem_take hx)

end Cumsum

/-! ## The entries of a mask -/

/-- The number of each true entry of a mask, from 0. -/
def numbers (mask : List Bool) : List Int := (cumsum (mask.map fun b => if b then 1 else 0)).map (· - 1)

theorem sum_ones (mask : List Bool) : (mask.map fun b => if b then (1 : Int) else 0).sum = mask.count true := by
  induction mask with
  | nil => rfl
  | cons b mask ih =>
    rw [List.map_cons, List.sum_cons, ih, List.count_cons]
    cases b <;> simp [add_comm]

theorem length_numbers (mask : List Bool) : (numbers mask).length = mask.length := by
  rw [numbers, List.length_map, length_cumsum, List.length_map]

theorem numbers_concat (mask : List Bool) (b : Bool) :
    numbers (mask ++ [b]) = numbers mask ++ [(mask.count true : Int) + (if b then 1 else 0) - 1] := by
  rw [numbers, List.map_append, List.map_singleton, cumsum_concat, List.map_append, sum_ones]
  rfl

theorem getElem?_numbers {mask : List Bool} {k : Nat} (hk : k < mask.length) :
    (numbers mask)[k]? = some (((mask.take (k + 1)).count true : Int) - 1) := by
  rw [numbers, List.getElem?_map, getElem?_cumsum (by rwa [List.length_map]), ← List.map_take, sum_ones, Option.map_some]

/-- The number of a true entry. -/
theorem number_lt {mask : List Bool} {k : Nat} (h : mask[k]? = some true) :
    ∃ n < mask.count true, (numbers mask)[k]? = some (n : Int) := by
  obtain ⟨hk, hget⟩ := List.getElem?_eq_some_iff.1 h
  have htake : (mask.take (k + 1)).count true = (mask.take k).count true + 1 := by
    rw [List.take_succ_eq_append_getElem hk, hget, List.count_append]
    rfl
  have hle : (mask.take (k + 1)).count true ≤ mask.count true := (List.take_sublist _ _).count_le _
  refine ⟨(mask.take k).count true, by omega, ?_⟩
  rw [getElem?_numbers hk, htake]
  congr 1
  omega

/-- **The true entries are numbered without gaps.** -/
theorem sum_numbered {K : Type*} [AddCommMonoid K] (f : Int → K) (mask : List Bool) :
    (List.zipWith (fun b k => if b then f k else 0) mask (numbers mask)).sum =
      ∑ k ∈ Finset.range (mask.count true), f k := by
  induction mask using List.reverseRecOn with
  | nil => rfl
  | append_singleton mask b ih =>
    rw [numbers_concat, List.zipWith_append (length_numbers mask).symm, List.sum_append, ih, List.count_append]
    cases b with
    | false => simp
    | true =>
      rw [show [true].count true = 1 from rfl, Finset.sum_range_succ]
      simp

end Bajiru.Numpy
