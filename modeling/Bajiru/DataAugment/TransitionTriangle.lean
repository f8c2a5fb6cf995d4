import Bajiru.Numpy
import Bajiru.Scaled
import Mathlib.Algebra.Ring.CharZero
import Mathlib.Data.Nat.Dist
import Mathlib.Tactic.FieldSimp
import Mathlib.Tactic.Positivity
import Mathlib.Tactic.Ring

/-!
# `transition_local_triangle` of the pitch tracker

A row of the transition matrix is a padded triangle, rolled to its state and cut to its band. For an odd width the roll
centres the triangle at the state for either parity of the states, and what is wrapped around falls to the cuts
(`getElem?_transRow`). So the rows are triangles of states, scaled to the sum 1 (`transitionLocalTriangle_banded`). The
rows of an even width are off their centre, but distributions too (`exists_transitionLocalTriangle`).
-/

namespace Bajiru.DataAugment

variable {K : Type*} [Field K]

/-! ## The function -/

/-- `scipy.signal.windows.triang(M)`. -/
def triang (M : Nat) : List K :=
  if M ≤ 1 then List.replicate M 1
  else
    let n := (List.range ((M + 1) / 2)).map fun k => ((k + 1 : Nat) : K)
    if M % 2 = 0 then
      let w := n.map fun k : K => (2 * k - 1) / M
      w ++ w.reverse
    else
      let w := n.map fun k : K => 2 * k / (M + 1)
      w ++ w.dropLast.reverse

/-- `np.zeros(n)`; a negative length raises. -/
def zeros (n : Int) : Option (List K) := if n < 0 then none else some (List.replicate n.toNat 0)

/-- `trans_row_base`. -/
def transRowBase (nStates width : Nat) : Option (List K) :=
  let win := triang width
  let lpad : Int := ((nStates : Int) - width) / 2
  let rpad : Int := nStates - width - lpad
  (zeros lpad).bind fun left => (zeros rpad).map fun right => left ++ win ++ right

/-- `trans_row` of state `i`. -/
def transRow (nStates width : Nat) (transRowBase : List K) (i : Nat) : List K :=
  let row := Numpy.roll transRowBase (nStates / 2 + i + 1 : Nat)
  let row := Python.setSlice row (min nStates (i + width / 2 + 1) : Nat) row.length 0
  Python.setSlice row 0 (max 0 ((i : Int) - (width / 2 : Nat))) 0

/-- `transition_local_triangle(n_states, width)`. -/
def transitionLocalTriangle (nStates width : Nat) : Option (List (List K)) :=
  (transRowBase nStates width).map fun base => (List.range nStates).map fun i => scaled (transRow nStates width base i)

/-! ## The triangle -/

/-- The triangle of half-width `h` around the state `i`, at the state `j`. -/
def triangleAt (h i j : Nat) : Nat := h + 1 - Nat.dist i j

/-- Within the band the triangle only moves. -/
theorem triangleAt_shift {h i j : Nat} (hi : i ≤ j + h) (hj : j ≤ i + h) :
    triangleAt h h (h + j - i) = triangleAt h i j := by
  unfold triangleAt Nat.dist
  omega

theorem triangleAt_eq_zero {h i j : Nat} : triangleAt h i j = 0 ↔ h < Nat.dist i j := by
  unfold triangleAt
  omega

theorem length_triang (M : Nat) : (triang M : List K).length = M := by
  unfold triang
  split
  · exact List.length_replicate
  · dsimp only
    split
    · simp only [List.length_append, List.length_reverse, List.length_map, List.length_range]
      omega
    · simp only [List.length_append, List.length_reverse, List.length_dropLast, List.length_map, List.length_range]
      omega

variable [CharZero K]

/-- An odd window is a triangle around its middle. -/
theorem getElem?_triang {h m : Nat} (hm : m < 2 * h + 1) :
    (triang (2 * h + 1) : List K)[m]? = some ((triangleAt h h m : K) / (h + 1)) := by
  have hh : (h : K) + 1 ≠ 0 := Nat.cast_add_one_ne_zero h
  unfold triang
  split
  · obtain rfl : h = 0 := by omega
    obtain rfl : m = 0 := by omega
    simp [triangleAt, Nat.dist]
  · have hodd : ¬(2 * h + 1) % 2 = 0 := by omega
    have hlen : (2 * h + 1 + 1) / 2 = h + 1 := by omega
    have hentry : ∀ k, 2 * ((k + 1 : Nat) : K) / ((2 * h + 1 : Nat) + 1) = ((k + 1 : Nat) : K) / (h + 1) := by
      intro k
      have hden : (((2 * h + 1 : Nat) : K) + 1) = 2 * (h + 1) := by
        push_cast
        ring
      rw [hden, mul_div_mul_left _ _ two_ne_zero]
    simp only [if_neg hodd, hlen, List.map_map, Function.comp_def, hentry]
    rcases Nat.lt_or_ge m (h + 1) with hleft | hright
    · rw [List.getElem?_append_left (by simpa using hleft), List.getElem?_map, List.getElem?_range hleft,
        Option.map_some, show triangleAt h h m = m + 1 by unfold triangleAt Nat.dist; omega]
    · have hlast : 2 * h - m < h := by omega
      rw [List.getElem?_append_right (by simpa using hright), List.length_map, List.length_range,
        List.getElem?_reverse (by simp only [List.length_dropLast, List.length_map, List.length_range]; omega),
        List.getElem?_dropLast, List.length_dropLast, List.length_map, List.length_range, if_pos (by omega),
        show h + 1 - 1 - 1 - (m - (h + 1)) = 2 * h - m by omega, List.getElem?_map,
        List.getElem?_range (by omega), Option.map_some,
        show triangleAt h h m = 2 * h - m + 1 by unfold triangleAt Nat.dist; omega]

/-! ## A row -/

omit [CharZero K] in
/-- Where the padded triangle starts. -/
theorem exists_transRowBase {nStates width : Nat} (hle : width ≤ nStates) :
    ∃ lpad rpad, lpad + width + rpad = nStates ∧ lpad = (nStates - width) / 2 ∧
      transRowBase nStates width = some (List.replicate lpad 0 ++ triang width ++ List.replicate rpad 0 : List K) := by
  have hlpad : ((nStates : Int) - width) / 2 = ((nStates - width) / 2 : Nat) := by omega
  refine ⟨(nStates - width) / 2, nStates - width - (nStates - width) / 2, by omega, rfl, ?_⟩
  unfold transRowBase zeros
  dsimp only
  rw [hlpad, if_neg (by omega), Int.toNat_natCast, Option.bind_some, if_neg (by omega), Option.map_some]
  congr 3
  omega

/-- The triangle in the middle of its padding. -/
theorem getElem?_padded {lpad rpad h m : Nat} (hm : m < 2 * h + 1) :
    (List.replicate lpad 0 ++ triang (2 * h + 1) ++ List.replicate rpad 0 : List K)[lpad + m]? =
      some ((triangleAt h h m : K) / (h + 1)) := by
  rw [List.getElem?_append_left (by rw [List.length_append, List.length_replicate, length_triang]; omega),
    List.getElem?_append_right (by rw [List.length_replicate]; omega), List.length_replicate, Nat.add_sub_cancel_left,
    getElem?_triang hm]

omit [CharZero K] in
theorem length_transRowBase {nStates width : Nat} {base : List K} (hle : width ≤ nStates)
    (hbase : transRowBase nStates width = some base) : base.length = nStates := by
  obtain ⟨lpad, rpad, hlen, -, heq⟩ := exists_transRowBase (K := K) hle
  obtain rfl := Option.some.inj (heq.symm.trans hbase)
  rw [List.length_append, List.length_append, List.length_replicate, List.length_replicate, length_triang, hlen]

omit [CharZero K] in
@[simp] theorem length_transRow (nStates width : Nat) (base : List K) (i : Nat) :
    (transRow nStates width base i).length = base.length := by
  unfold transRow
  dsimp only
  rw [Python.length_setSlice, Python.length_setSlice, Numpy.length_roll]

/-- **The row of a state** before it is scaled: the triangle around the state. -/
theorem getElem?_transRow {nStates h i j : Nat} {base : List K} (hle : 2 * h + 1 ≤ nStates) (hj : j < nStates)
    (hbase : transRowBase nStates (2 * h + 1) = some base) :
    (transRow nStates (2 * h + 1) base i)[j]? = some ((triangleAt h i j : K) / (h + 1)) := by
  have hbaseLen := length_transRowBase hle hbase
  obtain ⟨lpad, rpad, hlen, hcentre, heq⟩ := exists_transRowBase (K := K) hle
  obtain rfl := Option.some.inj (heq.symm.trans hbase)
  have hwidth : (2 * h + 1) / 2 = h := by omega
  have houtside : h < Nat.dist i j → (0 : K) = (triangleAt h i j : K) / (h + 1) := by
    intro hfar
    rw [triangleAt_eq_zero.2 hfar, Nat.cast_zero, zero_div]
  have hdist : Nat.dist i j = i - j + (j - i) := rfl
  unfold transRow
  dsimp only
  rw [Python.getElem?_setSlice le_rfl (by omega) (by rw [Python.length_setSlice, Numpy.length_roll, hbaseLen]; exact hj),
    Python.getElem?_setSlice (by omega) (by omega) (by rw [Numpy.length_roll, hbaseLen]; exact hj), Numpy.length_roll,
    hbaseLen, hwidth]
  split
  · rw [← houtside (by omega)]
  · split
    · rw [← houtside (by omega)]
    · -- inside the band the roll does not go around the end
      rw [Numpy.getElem?_roll (m := lpad + (h + j - i)) (by omega) (by omega), getElem?_padded (by omega)]
      · rw [triangleAt_shift (by omega) (by omega)]
      · rw [hbaseLen, Int.modEq_iff_dvd]
        exact ⟨1, by omega⟩

/-- The triangle around a state, restricted to the states. -/
def triangleRow (nStates h i : Nat) : List K := (List.range nStates).map fun j => (triangleAt h i j : K)

omit [CharZero K] in
theorem sum_triangleRow (nStates h i : Nat) :
    (triangleRow nStates h i : List K).sum = ∑ k ∈ Finset.range nStates, (triangleAt h i k : K) := rfl

theorem transRow_eq {nStates h i : Nat} {base : List K} (hle : 2 * h + 1 ≤ nStates)
    (hbase : transRowBase nStates (2 * h + 1) = some base) :
    transRow nStates (2 * h + 1) base i = (triangleRow nStates h i).map (· / ((h : K) + 1)) := by
  have hlen : (transRow nStates (2 * h + 1) base i).length = nStates := by
    rw [length_transRow, length_transRowBase hle hbase]
  refine List.ext_getElem? fun j => ?_
  rw [triangleRow, List.map_map]
  rcases Nat.lt_or_ge j nStates with hj | hj
  · rw [getElem?_transRow hle hj hbase, List.getElem?_map, List.getElem?_range hj]
    rfl
  · rw [List.getElem?_eq_none (by omega), List.getElem?_eq_none]
    rwa [List.length_map, List.length_range]

/-! ## The matrix -/

/-- A row of a banded stochastic matrix: the triangle around state `i`, scaled to the sum 1. -/
structure BandedRow [LE K] (nStates h i : Nat) (row : List K) : Prop where
  length : row.length = nStates
  entry : ∀ j < nStates, row[j]? = some ((triangleAt h i j : K) / ∑ k ∈ Finset.range nStates, (triangleAt h i k : K))
  band : ∀ j < nStates, row[j]? = some 0 ↔ h < Nat.dist i j
  nonneg : ∀ x ∈ row, 0 ≤ x
  sum : row.sum = 1

section Ordered

variable {K : Type*} [Field K] [LinearOrder K] [IsStrictOrderedRing K]

theorem sum_triangleRow_pos {nStates h i : Nat} (hi : i < nStates) : 0 < (triangleRow nStates h i : List K).sum := by
  refine sum_pos_of_mem (x := ((h + 1 : Nat) : K)) (fun x hx => ?_) ?_ (Nat.cast_pos.2 (Nat.succ_pos h))
  · obtain ⟨j, -, rfl⟩ := List.mem_map.1 hx
    exact Nat.cast_nonneg _
  · refine List.mem_map.2 ⟨i, List.mem_range.2 hi, ?_⟩
    rw [triangleAt, Nat.dist_self, Nat.sub_zero]

theorem bandedRow_scaled {nStates h i : Nat} (hi : i < nStates) :
    BandedRow nStates h i (scaled (triangleRow nStates h i : List K)) := by
  have hpos := sum_triangleRow_pos (K := K) (h := h) hi
  have hentry : ∀ j < nStates, (scaled (triangleRow nStates h i : List K))[j]? =
      some ((triangleAt h i j : K) / ∑ k ∈ Finset.range nStates, (triangleAt h i k : K)) := by
    intro j hj
    rw [scaled, sum_triangleRow, triangleRow, List.map_map, List.getElem?_map, List.getElem?_range hj]
    rfl
  refine ⟨?_, hentry, fun j hj => ?_, scaled_nonneg fun x hx => ?_, sum_scaled hpos.ne'⟩
  · rw [length_scaled, triangleRow, List.length_map, List.length_range]
  · rw [hentry j hj, Option.some_inj, div_eq_zero_iff, or_iff_left (by rw [← sum_triangleRow]; exact hpos.ne'),
      Nat.cast_eq_zero, triangleAt_eq_zero]
  · obtain ⟨j, -, rfl⟩ := List.mem_map.1 hx
    exact Nat.cast_nonneg _

/-- The rows are the scaled triangles of the states. -/
theorem transitionLocalTriangle_eq {nStates h : Nat} (hle : 2 * h + 1 ≤ nStates) :
    transitionLocalTriangle nStates (2 * h + 1) =
      some ((List.range nStates).map fun i => scaled (triangleRow nStates h i : List K)) := by
  obtain ⟨lpad, rpad, -, -, hbase⟩ := exists_transRowBase (K := K) hle
  rw [transitionLocalTriangle, hbase, Option.map_some]
  refine congrArg some (List.map_congr_left fun i hi => ?_)
  rw [transRow_eq hle hbase, scaled_div _ (Nat.cast_add_one_ne_zero h)]

/-- **The transition matrix** is banded and stochastic, and each of its rows is centred at its state. -/
theorem transitionLocalTriangle_banded {nStates width : Nat} (hodd : width % 2 = 1) (hle : width ≤ nStates) :
    ∃ transition : List (List K), transitionLocalTriangle nStates width = some transition ∧
      transition.length = nStates ∧ ∀ i < nStates, ∃ row, transition[i]? = some row ∧
        BandedRow nStates (width / 2) i row := by
  obtain ⟨h, rfl⟩ : ∃ h, width = 2 * h + 1 := ⟨width / 2, by omega⟩
  have hhalf : (2 * h + 1) / 2 = h := by omega
  rw [transitionLocalTriangle_eq hle, hhalf]
  refine ⟨_, rfl, by rw [List.length_map, List.length_range], fun i hi => ?_⟩
  exact ⟨_, by rw [List.getElem?_map, List.getElem?_range hi]; rfl, bandedRow_scaled hi⟩

/-- Four states and the width 3: the bands at both ends are cut. -/
theorem transitionLocalTriangle_four : ∃ transition : List (List ℚ), transitionLocalTriangle 4 3 = some transition ∧
    transition.length = 4 ∧ ∀ i < 4, ∃ row, transition[i]? = some row ∧ BandedRow 4 1 i row :=
  transitionLocalTriangle_banded (by decide) (by decide)

example : transitionLocalTriangle 4 3 = some [[2 / 3, 1 / 3, 0, 0], [1 / 4, 1 / 2, 1 / 4, 0], [0, 1 / 4, 1 / 2, 1 / 4],
    [0, 0, 1 / 3, (2 / 3 : ℚ)]] := by
  decide +kernel

end Ordered

end Bajiru.DataAugment
