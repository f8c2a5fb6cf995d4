import Mathlib.Algebra.BigOperators.Intervals
import Mathlib.Algebra.Order.Field.Basic
import Mathlib.Tactic.FieldSimp
import Mathlib.Tactic.Linarith
import Mathlib.Tactic.Positivity
import Mathlib.Tactic.Ring

/-!
# Tents over increasing knots

A ramp of width `w` rises over the integers `0 .. w - 1` to 1 (`rise`), or falls there to 0 (`fall`); the two sum to 1.
A tent rises to its knot and falls from it. The tents over increasing knots, each as wide as the gaps beside it, sum to
1 between the first knot and the last, and outside to the outer ramps alone (`sum_tentAt`).
-/

namespace Bajiru.Tents

variable {K : Type*} [Field K]

/-- The rise to 1 over a ramp of width `w`. -/
def rise (w k : Int) : K := if 0 ≤ k ∧ k < w then (k + 1) / w else 0

def fall (w k : Int) : K := if 0 ≤ k ∧ k < w then 1 - (k + 1) / w else 0

/-- The tent at distance `k` from its peak. -/
def tent (l r k : Int) : K := rise l (k + l) + fall r k

/-- The tent of the knot `p j` of `p 0 .. p n`, with outer ramps of the widths `l` and `r`. -/
def tentAt (l r : Int) (p : Nat → Int) (n j : Nat) (i : Int) : K :=
  tent (if j = 0 then l else p j - p (j - 1)) (if j = n then r else p (j + 1) - p j) (i - p j)

theorem rise_add_fall (w k : Int) : rise w k + fall w k = if 0 ≤ k ∧ k < w then (1 : K) else 0 := by
  unfold rise fall
  split
  · ring
  · exact add_zero 0

/-- Each place between the knots is in one gap. -/
theorem sum_gaps {p : Nat → Int} {n : Nat} (hp : ∀ j, j < n → p j < p (j + 1)) (i : Int) :
    ∑ j ∈ Finset.range n, (if 0 ≤ i - p j ∧ i - p j < p (j + 1) - p j then (1 : K) else 0) =
      if p 0 ≤ i ∧ i < p n then 1 else 0 := by
  induction n with
  | zero => rw [Finset.sum_range_zero, if_neg (by omega)]
  | succ n ih =>
    have hlast := hp n (Nat.lt_succ_self n)
    have hmono : p 0 ≤ p n := by
      clear ih
      induction n with
      | zero => exact le_rfl
      | succ n ih => exact (ih (fun j hj => hp j (by omega)) (hp n (by omega))).trans (hp n (by omega)).le
    rw [Finset.sum_range_succ, ih fun j hj => hp j (by omega)]
    rcases lt_or_ge i (p n) with h | h
    · rw [if_neg (show ¬(0 ≤ i - p n ∧ i - p n < p (n + 1) - p n) by omega), add_zero]
      exact if_congr (by omega) rfl rfl
    · rw [if_neg (show ¬(p 0 ≤ i ∧ i < p n) by omega), zero_add]
      exact if_congr (by omega) rfl rfl

/-- **The tents sum to 1 between the knots.** -/
theorem sum_tentAt {p : Nat → Int} {n : Nat} (hp : ∀ j, j < n → p j < p (j + 1)) (l r i : Int) :
    ∑ j ∈ Finset.range (n + 1), tentAt l r p n j i =
      rise l (i - p 0 + l) + (if p 0 ≤ i ∧ i < p n then (1 : K) else 0) + fall r (i - p n) := by
  have hrise : ∑ j ∈ Finset.range (n + 1), rise (if j = 0 then l else p j - p (j - 1))
      (i - p j + if j = 0 then l else p j - p (j - 1)) =
        ∑ j ∈ Finset.range n, rise (p (j + 1) - p j) (i - p j) + (rise l (i - p 0 + l) : K) := by
    rw [Finset.sum_range_succ', if_pos rfl]
    refine congrArg (· + _) (Finset.sum_congr rfl fun j _ => ?_)
    rw [if_neg (Nat.succ_ne_zero j), Nat.add_sub_cancel, show i - p (j + 1) + (p (j + 1) - p j) = i - p j by omega]
  have hfall : ∑ j ∈ Finset.range (n + 1), fall (if j = n then r else p (j + 1) - p j) (i - p j) =
      ∑ j ∈ Finset.range n, fall (p (j + 1) - p j) (i - p j) + (fall r (i - p n) : K) := by
    rw [Finset.sum_range_succ, if_pos rfl]
    refine congrArg (· + _) (Finset.sum_congr rfl fun j hj => ?_)
    rw [if_neg (Finset.mem_range.1 hj).ne]
  have hgaps : ∑ j ∈ Finset.range n, (rise (p (j + 1) - p j) (i - p j) : K) +
      ∑ j ∈ Finset.range n, fall (p (j + 1) - p j) (i - p j) = if p 0 ≤ i ∧ i < p n then 1 else 0 := by
    rw [← Finset.sum_add_distrib, ← sum_gaps hp i]
    exact Finset.sum_congr rfl fun j _ => rise_add_fall _ _
  simp only [tentAt, tent]
  rw [Finset.sum_add_distrib, hrise, hfall, ← hgaps]
  ring

/-! ## Values of the ramps -/

theorem rise_of_neg {w k : Int} (h : k < 0) : rise w k = (0 : K) := if_neg (by omega)

theorem rise_of_le {w k : Int} (h : w ≤ k) : rise w k = (0 : K) := if_neg (by omega)

theorem fall_of_neg {w k : Int} (h : k < 0) : fall w k = (0 : K) := if_neg (by omega)

theorem fall_of_le {w k : Int} (h : w ≤ k) : fall w k = (0 : K) := if_neg (by omega)

/-- A tent is 0 beside its ramps. -/
theorem tent_of_not_mem {l r k : Int} (hl : 0 ≤ l) (hr : 0 ≤ r) (h : ¬(-l ≤ k ∧ k < r)) : tent l r k = (0 : K) := by
  unfold tent
  rcases lt_or_ge k (-l) with hk | hk
  · rw [rise_of_neg (by omega), fall_of_neg (by omega), add_zero]
  · rw [rise_of_le (by omega), fall_of_le (by omega), add_zero]

theorem fall_one [CharZero K] (k : Int) : fall 1 k = (0 : K) := by
  unfold fall
  split
  next h =>
    obtain rfl : k = 0 := by omega
    norm_num
  next => rfl

variable [LinearOrder K] [IsStrictOrderedRing K]

theorem rise_nonneg (w k : Int) : 0 ≤ (rise w k : K) := by
  unfold rise
  split
  next h =>
    have hk : (0 : K) ≤ k := by exact_mod_cast h.1
    have hw : (0 : K) ≤ w := by exact_mod_cast (h.1.trans_lt h.2).le
    positivity
  next => exact le_rfl

theorem fall_nonneg (w k : Int) : 0 ≤ (fall w k : K) := by
  unfold fall
  split
  next h =>
    have hw : (0 : K) < w := by exact_mod_cast h.1.trans_lt h.2
    have hk : (k : K) + 1 ≤ w := by exact_mod_cast h.2
    exact sub_nonneg.2 ((div_le_one hw).2 hk)
  next => exact le_rfl

/-- A ramp starts above 0. -/
theorem rise_zero_pos {w : Int} (h : 0 < w) : 0 < (rise w 0 : K) := by
  have hw : (0 : K) < w := by exact_mod_cast h
  rw [rise, if_pos ⟨le_rfl, h⟩, Int.cast_zero, zero_add]
  exact one_div_pos.2 hw

theorem fall_zero_pos {w : Int} (h : 1 < w) : 0 < (fall w 0 : K) := by
  have hw : (1 : K) < w := by exact_mod_cast h
  rw [fall, if_pos ⟨le_rfl, by omega⟩, Int.cast_zero, zero_add, sub_pos, div_lt_one (by linarith)]
  exact hw

end Bajiru.Tents
