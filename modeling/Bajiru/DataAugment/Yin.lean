import Bajiru.Autocorrelation
import Bajiru.Cumsum
import Bajiru.Numpy
import Bajiru.OptionMapM
import Mathlib.Algebra.Order.BigOperators.Group.List
import Mathlib.Algebra.Order.Field.Basic
import Mathlib.Data.List.GetD
import Mathlib.Tactic.NormNum

/-!
# The difference function of the pitch tracker

`cumulative_mean_normalized_difference` takes the squared difference of each lag from the autocorrelation and the energy
of a prefix, in place in the array of these energies. The first energy is overwritten before lag 1 reads it, so the
value of lag 1 is too large by the square of the first sample; the other lags are right. A matrix of frames is the list
of its columns.
-/

namespace Bajiru.DataAugment

variable {K : Type*} [Field K]

/-! ## The function -/

/-- A frame, with zeros past its end. -/
def samples (yFrame : List K) (j : Nat) : K := yFrame.getD j 0

/-- `autocorrelate(y_frames, max_size)` of a frame. -/
def autocorrelate (yFrame : List K) (maxSize : Nat) : List K :=
  let n := yFrame.length
  (List.range (min maxSize n)).map (autocorrelation (samples yFrame) n)

/-- The column of `yin_frames` before it is normalised. -/
def yinFrame (yFrame : List K) (maxPeriod : Nat) : Option (List K) :=
  let acfFrame := autocorrelate yFrame (maxPeriod + 1)
  let yin := Numpy.cumsum (yFrame.map (· ^ 2))
  (Python.setItem yin 0 0).bind fun yin =>
    (Numpy.broadcast (fun a b => 2 * (a - b)) (Python.slice acfFrame 0 1) (Python.slice acfFrame 1 (maxPeriod + 1))).bind
      fun drops =>
        (Numpy.broadcast (· - ·) drops (Python.slice yin 0 maxPeriod)).bind
          (Numpy.setSlice yin 1 (maxPeriod + 1))

/-- `np.finfo(np.float64).tiny`. -/
def tiny : K := (2 ^ 1022)⁻¹

/-- The column of `result`. -/
def normalized (yin : List K) (minPeriod : Int) (maxPeriod : Nat) : Option (List K) :=
  let yinNumerator := Python.slice yin minPeriod (maxPeriod + 1)
  let kRange := (List.range maxPeriod).map fun (i : Nat) => (i : K) + 1
  (Numpy.broadcast (· / ·) (Numpy.cumsum (Python.slice yin 1 (maxPeriod + 1))) kRange).bind fun cumulativeMean =>
    let yinDenominator := Python.slice cumulativeMean (minPeriod - 1) maxPeriod
    Numpy.broadcast (fun numerator denominator => numerator / (denominator + tiny)) yinNumerator yinDenominator

/-- `cumulative_mean_normalized_difference(y_frames, min_period, max_period)`. -/
def cumulativeMeanNormalizedDifference (yFrames : List (List K)) (minPeriod : Int) (maxPeriod : Nat) :
    Option (List (List K)) :=
  yFrames.mapM fun yFrame => (yinFrame yFrame maxPeriod).bind (normalized · minPeriod maxPeriod)

/-! ## The differences -/

variable {yFrame : List K} {maxPeriod : Nat}

theorem samples_of_le (j : Nat) (hj : yFrame.length ≤ j) : samples yFrame j = 0 := List.getD_eq_default _ _ hj

theorem samples_zero (hW : maxPeriod < yFrame.length) : samples yFrame 0 = 0 ↔ yFrame[0]? = some 0 := by
  rw [samples, List.getD_eq_getElem?_getD, List.getElem?_eq_getElem (Nat.zero_lt_of_lt hW), Option.getD_some,
    Option.some_inj]

/-- The energy of a prefix. -/
theorem sum_take_sq (yFrame : List K) (k : Nat) :
    ((yFrame.map (· ^ 2)).take k).sum = energy (samples yFrame) k := by
  induction yFrame generalizing k with
  | nil => simp [energy, samples]
  | cons y ys ih =>
    cases k with
    | zero => simp [energy]
    | succ k =>
      rw [List.map_cons, List.take_succ_cons, List.sum_cons, ih, energy, energy, Finset.sum_range_succ', add_comm]
      rfl

/-- The energies of the prefixes, after the first one is overwritten. -/
theorem getElem?_overwritten {k : Nat} (hk : k < yFrame.length) :
    ((Numpy.cumsum (yFrame.map (· ^ 2))).set 0 0)[k]? =
      some (if k = 0 then 0 else energy (samples yFrame) (k + 1)) := by
  have hlen : k < (yFrame.map (· ^ 2)).length := by rwa [List.length_map]
  rcases Nat.eq_zero_or_pos k with rfl | hpos
  · rw [List.getElem?_set_self (by rwa [Numpy.length_cumsum]), if_pos rfl]
  · rw [List.getElem?_set_ne hpos.ne, Numpy.getElem?_cumsum hlen, sum_take_sq, if_neg hpos.ne']

/-- The autocorrelation of lag 0, and of the other lags. -/
theorem slice_autocorrelate (hW : maxPeriod < yFrame.length) :
    Python.slice (autocorrelate yFrame (maxPeriod + 1)) 0 1 = [autocorrelation (samples yFrame) yFrame.length 0] ∧
    Python.slice (autocorrelate yFrame (maxPeriod + 1)) 1 (maxPeriod + 1) =
      (List.range maxPeriod).map fun k => autocorrelation (samples yFrame) yFrame.length (k + 1) := by
  have hacf : autocorrelate yFrame (maxPeriod + 1) = autocorrelation (samples yFrame) yFrame.length 0 ::
      (List.range maxPeriod).map fun k => autocorrelation (samples yFrame) yFrame.length (k + 1) := by
    rw [autocorrelate, Nat.min_eq_left hW, List.range_succ_eq_map, List.map_cons, List.map_map]
    rfl
  constructor
  · exact (Python.slice_natCast _ 0 1).trans (by rw [hacf]; rfl)
  · refine (Python.slice_natCast _ 1 (maxPeriod + 1)).trans ?_
    rw [hacf, List.take_of_length_le (by simp)]
    rfl

/-- What is stored for a lag. Lag 1 reads an energy that has been overwritten. -/
structure Stored (yFrame : List K) (maxPeriod : Nat) (yin : List K) : Prop where
  zero : yin[0]? = some 0
  lag : ∀ k, 1 ≤ k → k ≤ maxPeriod → yin[k]? =
    some (squaredDifference (samples yFrame) yFrame.length k + if k = 1 then samples yFrame 0 ^ 2 else 0)
  rest : ∀ k, maxPeriod < k → 1 ≤ k → k < yFrame.length → yin[k]? = some (energy (samples yFrame) (k + 1))
  length : yin.length = yFrame.length

/-- **The column** of a frame. -/
theorem yinFrame_stored (hW : maxPeriod < yFrame.length) :
    ∃ yin, yinFrame yFrame maxPeriod = some yin ∧ Stored yFrame maxPeriod yin := by
  obtain ⟨hzero, hlags⟩ := slice_autocorrelate hW
  generalize hyin : (Numpy.cumsum (yFrame.map (· ^ 2))).set 0 0 = yin
  have hentry : ∀ k < yFrame.length, yin[k]? = some (if k = 0 then 0 else energy (samples yFrame) (k + 1)) :=
    fun k hk => hyin ▸ getElem?_overwritten hk
  have hlen : yin.length = yFrame.length := by
    rw [← hyin, List.length_set, Numpy.length_cumsum, List.length_map]
  have hset : Python.setItem (Numpy.cumsum (yFrame.map (· ^ 2))) 0 0 = some yin := by
    rw [← hyin]
    refine Python.setItem_natCast ?_ 0
    rw [Numpy.length_cumsum, List.length_map]
    exact Nat.zero_lt_of_lt hW
  have hslice : Python.slice yin 0 maxPeriod = yin.take maxPeriod := Python.slice_natCast yin 0 maxPeriod
  generalize hdrops : (List.range maxPeriod).map (fun k => 2 * (autocorrelation (samples yFrame) yFrame.length 0 -
    autocorrelation (samples yFrame) yFrame.length (k + 1))) = drops
  have hdlen : drops.length = (yin.take maxPeriod).length := by
    rw [← hdrops, List.length_map, List.length_range, List.length_take, hlen, Nat.min_eq_left hW.le]
  generalize hvalues : List.zipWith (· - ·) drops (yin.take maxPeriod) = values
  have hvalue : ∀ k < maxPeriod, values[k]? = some (2 * (autocorrelation (samples yFrame) yFrame.length 0 -
      autocorrelation (samples yFrame) yFrame.length (k + 1)) -
      if k = 0 then 0 else energy (samples yFrame) (k + 1)) := by
    intro k hk
    rw [← hvalues, List.getElem?_zipWith_eq_some]
    refine ⟨_, _, ?_, ?_, rfl⟩
    · rw [← hdrops, List.getElem?_map, List.getElem?_range hk, Option.map_some]
    · rw [List.getElem?_take_of_lt hk, hentry k (hk.trans hW)]
  have hvlen : values.length = maxPeriod := by
    rw [← hvalues, List.length_zipWith, hdlen, Nat.min_self, List.length_take, hlen, Nat.min_eq_left hW.le]
  obtain ⟨out, hout, houtlen, hplaces⟩ :=
    Numpy.getElem?_setSlice (Nat.le_add_left 1 maxPeriod) (show maxPeriod + 1 ≤ yin.length by rwa [hlen]) hvlen
  refine ⟨out, ?_, ?_, ?_, ?_, ?_⟩
  · have hbroadcast : Numpy.broadcast (fun a b => 2 * (a - b)) [autocorrelation (samples yFrame) yFrame.length 0]
        ((List.range maxPeriod).map fun k => autocorrelation (samples yFrame) yFrame.length (k + 1)) = some drops := by
      rw [Numpy.broadcast_singleton, List.map_map, ← hdrops]
      rfl
    unfold yinFrame
    dsimp only
    rw [hset, Option.bind_some, hzero, hlags, hbroadcast, Option.bind_some, hslice,
      Numpy.broadcast_of_length _ hdlen, Option.bind_some, hvalues]
    exact hout
  · rw [hplaces, if_neg (by omega), hentry 0 (Nat.zero_lt_of_lt hW), if_pos rfl]
  · intro k h1 hk
    rw [hplaces, if_pos (by omega), hvalue (k - 1) (by omega), Nat.sub_add_cancel h1, squaredDifference_eq samples_of_le]
    rcases Nat.eq_or_lt_of_le h1 with rfl | h1
    · rw [if_pos rfl, if_pos rfl, energy, Finset.sum_range_one, sub_zero, sub_add_cancel]
    · rw [if_neg (by omega), if_neg (by omega), add_zero]
  · intro k hk h1 hlt
    rw [hplaces, if_neg (by omega), hentry k hlt, if_neg (by omega)]
  · rw [houtlen, hlen]

/-! ## The normalised values -/

section Order

variable [LinearOrder K] [IsStrictOrderedRing K]

theorem Stored.nonneg {yin : List K} (h : Stored yFrame maxPeriod yin) : ∀ v ∈ yin, 0 ≤ v := by
  intro v hv
  obtain ⟨k, hk⟩ := List.mem_iff_getElem?.1 hv
  rcases Nat.eq_zero_or_pos k with rfl | hpos
  · obtain rfl := Option.some.inj (h.zero.symm.trans hk)
    exact le_rfl
  · rcases Nat.lt_or_ge maxPeriod k with hlt | hle
    · obtain ⟨hyin, -⟩ := List.getElem?_eq_some_iff.1 hk
      obtain rfl := Option.some.inj ((h.rest k hlt hpos (by rwa [← h.length])).symm.trans hk)
      exact energy_nonneg _ _
    · obtain rfl := Option.some.inj ((h.lag k hpos hle).symm.trans hk)
      refine add_nonneg (squaredDifference_nonneg _ _ _) ?_
      split
      · exact sq_nonneg _
      · exact le_rfl

theorem tiny_pos : (0 : K) < tiny := inv_pos.2 (pow_pos two_pos _)

theorem normalized_nonneg {yin out : List K} {minPeriod : Int} (hyin : ∀ v ∈ yin, 0 ≤ v)
    (h : normalized yin minPeriod maxPeriod = some out) : ∀ v ∈ out, 0 ≤ v := by
  obtain ⟨cumulativeMean, hmean, h⟩ := Option.bind_eq_some_iff.1 h
  intro v hv
  obtain ⟨numerator, hnumerator, denominator, hdenominator, rfl⟩ := Numpy.mem_broadcast h hv
  obtain ⟨total, htotal, k, hk, rfl⟩ := Numpy.mem_broadcast hmean (Python.mem_of_mem_slice hdenominator)
  obtain ⟨i, -, rfl⟩ := List.mem_map.1 hk
  have hsum : 0 ≤ total := Numpy.cumsum_nonneg (fun x hx => hyin x (Python.mem_of_mem_slice hx)) total htotal
  have hcount : (0 : K) ≤ (i : K) + 1 := add_nonneg (Nat.cast_nonneg i) zero_le_one
  exact div_nonneg (hyin _ (Python.mem_of_mem_slice hnumerator)) (add_nonneg (div_nonneg hsum hcount) tiny_pos.le)

/-- The difference function of the paper: each lag holds the squared difference, and no value is negative. -/
structure TrueDifference (yFrames : List (List K)) (minPeriod : Int) (maxPeriod : Nat) : Prop where
  lag : ∀ yFrame ∈ yFrames, ∃ yin, yinFrame yFrame maxPeriod = some yin ∧ ∀ k, 1 ≤ k → k ≤ maxPeriod →
    yin[k]? = some (squaredDifference (samples yFrame) yFrame.length k)
  lag_nonneg : ∀ yFrame ∈ yFrames, ∀ yin, yinFrame yFrame maxPeriod = some yin → ∀ v ∈ yin, 0 ≤ v
  nonneg : ∀ out, cumulativeMeanNormalizedDifference yFrames minPeriod maxPeriod = some out →
    ∀ column ∈ out, ∀ v ∈ column, 0 ≤ v

variable {yFrames : List (List K)}

/-- A value of the result comes from a frame. -/
theorem cumulativeMeanNormalizedDifference_nonneg (hW : ∀ yFrame ∈ yFrames, maxPeriod < yFrame.length)
    {minPeriod : Int} {out : List (List K)}
    (h : cumulativeMeanNormalizedDifference yFrames minPeriod maxPeriod = some out) :
    ∀ column ∈ out, ∀ v ∈ column, 0 ≤ v := by
  intro column hcolumn
  obtain ⟨yFrame, hframe, hcol⟩ := exists_of_mem_mapM h hcolumn
  obtain ⟨yin, hyin, hnormalized⟩ := Option.bind_eq_some_iff.1 hcol
  obtain ⟨yin', hyin', hstored⟩ := yinFrame_stored (hW yFrame hframe)
  obtain rfl := Option.some.inj (hyin'.symm.trans hyin)
  exact normalized_nonneg hstored.nonneg hnormalized

/-- **The difference function** is a true one exactly if the energy that lag 1 reads too late is 0. -/
theorem cumulativeMeanNormalizedDifference_iff (hW : ∀ yFrame ∈ yFrames, maxPeriod < yFrame.length) (minPeriod : Int) :
    TrueDifference yFrames minPeriod maxPeriod ↔ maxPeriod = 0 ∨ ∀ yFrame ∈ yFrames, yFrame[0]? = some 0 := by
  constructor
  · rintro ⟨hlag, -, -⟩
    refine or_iff_not_imp_left.2 fun hpos yFrame hframe => ?_
    obtain ⟨yin, hyin, htrue⟩ := hlag yFrame hframe
    obtain ⟨yin', hyin', hstored⟩ := yinFrame_stored (hW yFrame hframe)
    obtain rfl := Option.some.inj (hyin'.symm.trans hyin)
    have hone : 1 ≤ maxPeriod := Nat.pos_of_ne_zero hpos
    have hvalue := Option.some.inj ((hstored.lag 1 le_rfl hone).symm.trans (htrue 1 le_rfl hone))
    rw [if_pos rfl, add_eq_left] at hvalue
    exact (samples_zero (hW yFrame hframe)).1 (pow_eq_zero_iff two_ne_zero |>.1 hvalue)
  · intro hzero
    refine ⟨fun yFrame hframe => ?_, fun yFrame hframe yin hyin => ?_, fun out hout => ?_⟩
    · obtain ⟨yin, hyin, hstored⟩ := yinFrame_stored (hW yFrame hframe)
      refine ⟨yin, hyin, fun k h1 hk => ?_⟩
      have henergy : (if k = 1 then samples yFrame 0 ^ 2 else 0) = 0 := by
        rcases hzero with rfl | hzero
        · omega
        · rw [(samples_zero (hW yFrame hframe)).2 (hzero yFrame hframe), zero_pow two_ne_zero, ite_self]
      rw [hstored.lag k h1 hk, henergy, add_zero]
    · obtain ⟨yin', hyin', hstored⟩ := yinFrame_stored (hW yFrame hframe)
      obtain rfl := Option.some.inj (hyin'.symm.trans hyin)
      exact hstored.nonneg
    · exact cumulativeMeanNormalizedDifference_nonneg hW hout

end Order

/-- A frame that starts with 0. -/
theorem cumulativeMeanNormalizedDifference_silent :
    TrueDifference [[0, 1, (2 : ℚ)]] 1 2 ↔ 2 = 0 ∨ ∀ yFrame ∈ [[0, 1, (2 : ℚ)]], yFrame[0]? = some 0 :=
  cumulativeMeanNormalizedDifference_iff (by decide) 1

/-- A click at the start: lag 1 has twice its squared difference. -/
theorem yinFrame_click : yinFrame [1, (0 : ℚ)] 1 = some [0, 2] ∧ squaredDifference (samples [1, (0 : ℚ)]) 2 1 = 1 ∧
    ¬TrueDifference [[1, (0 : ℚ)]] 1 1 := by
  have hyin : yinFrame [1, (0 : ℚ)] 1 = some [0, 2] := by decide +kernel
  have htrue : squaredDifference (samples [1, (0 : ℚ)]) 2 1 = 1 := by decide +kernel
  refine ⟨hyin, htrue, fun h => ?_⟩
  obtain ⟨yin, hyin', hlag⟩ := h.lag _ (List.mem_singleton_self _)
  obtain rfl := Option.some.inj (hyin.symm.trans hyin')
  have hvalue := hlag 1 le_rfl le_rfl
  rw [show [1, (0 : ℚ)].length = 2 from rfl, htrue] at hvalue
  exact absurd hvalue (by decide)

end Bajiru.DataAugment
