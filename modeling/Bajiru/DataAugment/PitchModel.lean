import Bajiru.DataAugment.TransitionTriangle
import Bajiru.DataAugment.TroughProbs
import Mathlib.Analysis.SpecialFunctions.Log.Base

/-!
# The pitch model of the tracker

`pyin` turns the troughs of a frame into an observation: each candidate gives its probability to the pitch bin that is
nearest to its frequency, and what is left is spread over the unvoiced states. Voicing and pitch move independently, so
the transition matrix is a Kronecker product. Observations and transitions are probabilities.
-/

namespace Bajiru.DataAugment

open Classical

/-! ## Candidates -/

/-- `parabolic_interpolation(x)` of a column. -/
noncomputable def parabolicInterpolation (x : List ℝ) : List ℝ :=
  (List.range x.length).map fun i =>
    if 0 < i ∧ i + 1 < x.length then
      let left := x.getD (i - 1) 0
      let center := x.getD i 0
      let right := x.getD (i + 1) 0
      let a := right + left - 2 * center
      let b := (right - left) / 2
      if |b| < |a| then -b / a else 0
    else 0

/-- The range of frequencies and the bins in it. -/
structure PitchBins where
  fmin : ℝ
  fmax : ℝ
  sr : ℝ
  nBinsPerSemitone : Nat

namespace PitchBins

variable (bins : PitchBins)

def binsPerOctave : Nat := 12 * bins.nBinsPerSemitone

/-- `12 * n_bins_per_semitone * np.log2(ratio)`. -/
noncomputable def scale (ratio : ℝ) : ℝ := bins.binsPerOctave * Real.logb 2 ratio

/-- `n_pitch_bins`. -/
noncomputable def nPitchBins : Nat := (⌊bins.scale (bins.fmax / bins.fmin)⌋ + 1).toNat

/-- `bin_index` of a candidate; the last one is behind the pitch bins. -/
noncomputable def binIndex (period : ℝ) : Nat :=
  (Numpy.clip (Python.round (bins.scale (bins.sr / period / bins.fmin))) 0 bins.nPitchBins).toNat

/-- `freqs[k]`. -/
noncomputable def freq (k : Nat) : ℝ := bins.fmin * 2 ^ ((k : ℝ) / bins.binsPerOctave)

/-! ## Observations -/

/-- What the candidates of a frame give to the bins, one after the other; a later candidate replaces an earlier one. -/
noncomputable def voicedColumn (minPeriod : Int) (yinColumn shifts : List ℝ) : List ℝ :=
  let yinPeriod := (List.range yinColumn.length).filter fun i => yinColumn.getD i 0 ≠ 0
  let binIndex := yinPeriod.map fun (i : Nat) => bins.binIndex (((minPeriod + i : Int) : ℝ) + shifts.getD i 0)
  Numpy.scatter (List.replicate (bins.nPitchBins + bins.nPitchBins) 0) binIndex (yinPeriod.map (yinColumn.getD · 0))

/-- `voiced_prob` of a frame. -/
noncomputable def voicedProb (column : List ℝ) : ℝ := min (max (column.take bins.nPitchBins).sum 0) 1

/-- A column of `observation_probs`. -/
noncomputable def observation (minPeriod : Int) (yinColumn shifts : List ℝ) : List ℝ :=
  let column := bins.voicedColumn minPeriod yinColumn shifts
  column.take bins.nPitchBins ++ List.replicate bins.nPitchBins ((1 - bins.voicedProb column) / bins.nPitchBins)

end PitchBins

/-! ## Transitions -/

/-- `transition_loop_2(prob)`. -/
def transitionLoop2 (prob : ℝ) : List (List ℝ) := [[prob, 1 - prob], [1 - prob, prob]]

/-- `np.kron(a, b)`. -/
def kron (a b : List (List ℝ)) : List (List ℝ) :=
  a.flatMap fun row => b.map fun row' => row.flatMap fun x => row'.map (x * ·)

/-- The rows of a stochastic matrix with `n` states. -/
structure Stochastic (n : Nat) (rows : List (List ℝ)) : Prop where
  size : rows.length = n
  length : ∀ row ∈ rows, row.length = n
  nonneg : ∀ row ∈ rows, ∀ x ∈ row, 0 ≤ x
  sum : ∀ row ∈ rows, row.sum = 1

/-- **A product** of stochastic matrices is stochastic. -/
theorem Stochastic.kron {m n : Nat} {a b : List (List ℝ)} (ha : Stochastic m a) (hb : Stochastic n b) :
    Stochastic (m * n) (kron a b) where
  size := by
    unfold DataAugment.kron
    rw [List.length_flatMap]
    simp [hb.size, ha.size]
  length row hrow := by
    obtain ⟨r, hr, hrow⟩ := List.mem_flatMap.1 hrow
    obtain ⟨r', hr', rfl⟩ := List.mem_map.1 hrow
    rw [List.length_flatMap]
    simp [hb.length r' hr', ha.length r hr]
  nonneg row hrow x hx := by
    obtain ⟨r, hr, hrow⟩ := List.mem_flatMap.1 hrow
    obtain ⟨r', hr', rfl⟩ := List.mem_map.1 hrow
    obtain ⟨y, hy, hx⟩ := List.mem_flatMap.1 hx
    obtain ⟨z, hz, rfl⟩ := List.mem_map.1 hx
    exact mul_nonneg (ha.nonneg r hr y hy) (hb.nonneg r' hr' z hz)
  sum row hrow := by
    obtain ⟨r, hr, hrow⟩ := List.mem_flatMap.1 hrow
    obtain ⟨r', hr', rfl⟩ := List.mem_map.1 hrow
    have hsum : ∀ x : ℝ, (r'.map (x * ·)).sum = x := fun x => by
      rw [List.sum_map_mul_left, List.map_id', hb.sum r' hr', mul_one]
    rw [List.flatMap_def, List.sum_flatten, List.map_map]
    simp only [Function.comp_def, hsum, List.map_id']
    exact ha.sum r hr

/-! ## The candidates -/

@[simp] theorem length_parabolicInterpolation (x : List ℝ) : (parabolicInterpolation x).length = x.length := by
  simp [parabolicInterpolation]

theorem getD_parabolicInterpolation {x : List ℝ} {i : Nat} (hi : i < x.length) :
    (parabolicInterpolation x).getD i 0 =
      if 0 < i ∧ i + 1 < x.length then
        if |(x.getD (i + 1) 0 - x.getD (i - 1) 0) / 2| <
            |x.getD (i + 1) 0 + x.getD (i - 1) 0 - 2 * x.getD i 0| then
          -((x.getD (i + 1) 0 - x.getD (i - 1) 0) / 2) / (x.getD (i + 1) 0 + x.getD (i - 1) 0 - 2 * x.getD i 0)
        else 0
      else 0 := by
  rw [List.getD_eq_getElem _ _ (by simpa using hi)]
  simp [parabolicInterpolation]

/-- No shift leaves the interval between the neighbours, and the first and the last place are not shifted. -/
theorem abs_shift_lt {x : List ℝ} {i : Nat} (hi : i < x.length) : |(parabolicInterpolation x).getD i 0| < 1 ∧
    (i = 0 ∨ i + 1 = x.length → (parabolicInterpolation x).getD i 0 = 0) := by
  rw [getD_parabolicInterpolation hi]
  constructor
  · split_ifs with hinner hlt
    · have hpos := (abs_nonneg _).trans_lt hlt
      rw [neg_div, abs_neg, abs_div, div_lt_one hpos]
      exact hlt
    · simp
    · simp
  · intro hend
    rw [if_neg (by omega)]

/-- **The vertex.** At a trough the shifted place is where the parabola through the three values is lowest, and the
trough is the nearest place to it. -/
theorem shift_vertex {x : List ℝ} {i : Nat} (h0 : 0 < i) (h1 : i + 1 < x.length)
    (hleft : x.getD i 0 < x.getD (i - 1) 0) (hright : x.getD i 0 ≤ x.getD (i + 1) 0) :
    |(parabolicInterpolation x).getD i 0| ≤ 1 / 2 ∧ ∀ p q r : ℝ,
      p - q + r = x.getD (i - 1) 0 → r = x.getD i 0 → p + q + r = x.getD (i + 1) 0 → ∀ t,
        p * (parabolicInterpolation x).getD i 0 ^ 2 + q * (parabolicInterpolation x).getD i 0 + r ≤
          p * t ^ 2 + q * t + r := by
  rw [getD_parabolicInterpolation (by omega), if_pos ⟨h0, h1⟩]
  generalize x.getD (i - 1) 0 = left at hleft ⊢
  generalize x.getD i 0 = center at hleft hright ⊢
  generalize x.getD (i + 1) 0 = right at hright ⊢
  have ha : 0 < right + left - 2 * center := by linarith
  have hb : |(right - left) / 2| ≤ (right + left - 2 * center) / 2 := by
    rw [abs_le]
    constructor <;> linarith
  rw [if_pos (by rw [abs_of_pos ha]; linarith)]
  constructor
  · rw [neg_div, abs_neg, abs_div, abs_of_pos ha, div_le_div_iff₀ ha two_pos]
    linarith
  · intro p q r hl hc hr t
    have hp : right + left - 2 * center = 2 * p := by linarith
    have hq : (right - left) / 2 = q := by linarith
    have hp0 : 0 < p := by linarith
    rw [hp, hq]
    have hgap :
        p * t ^ 2 + q * t + r - (p * (-q / (2 * p)) ^ 2 + q * (-q / (2 * p)) + r) = p * (t + q / (2 * p)) ^ 2 := by
      field_simp
      ring
    have hsq := mul_nonneg hp0.le (sq_nonneg (t + q / (2 * p)))
    linarith

namespace PitchBins

variable {bins : PitchBins}

/-- A range of positive frequencies, and bins in it. -/
structure Ranged (bins : PitchBins) : Prop where
  fmin_pos : 0 < bins.fmin
  fmin_le : bins.fmin ≤ bins.fmax
  nBins : 0 < bins.nBinsPerSemitone

theorem Ranged.binsPerOctave_pos (h : bins.Ranged) : (0 : ℝ) < bins.binsPerOctave := by
  have := h.nBins
  exact_mod_cast (show 0 < 12 * bins.nBinsPerSemitone by omega)

theorem Ranged.scale_nonneg (h : bins.Ranged) {c : ℝ} (hc : bins.fmin ≤ c) : 0 ≤ bins.scale (c / bins.fmin) :=
  mul_nonneg h.binsPerOctave_pos.le (Real.logb_nonneg one_lt_two ((one_le_div h.fmin_pos).2 hc))

theorem Ranged.nPitchBins_eq (h : bins.Ranged) :
    (bins.nPitchBins : Int) = ⌊bins.scale (bins.fmax / bins.fmin)⌋ + 1 := by
  have hfloor := Int.floor_nonneg.2 (h.scale_nonneg h.fmin_le)
  exact Int.toNat_of_nonneg (by omega)

/-- Bin `k` is `k` bins above `fmin`. -/
theorem Ranged.scale_freq (h : bins.Ranged) (k : Nat) : bins.scale (bins.freq k / bins.fmin) = k := by
  rw [scale, freq, mul_div_cancel_left₀ _ h.fmin_pos.ne', Real.logb_rpow two_pos (by norm_num),
    mul_div_cancel₀ _ h.binsPerOctave_pos.ne']

theorem Ranged.freq_pos (h : bins.Ranged) (k : Nat) : 0 < bins.freq k :=
  mul_pos h.fmin_pos (Real.rpow_pos_of_pos two_pos _)

/-- Rounding moves a number by one half at most. -/
theorem abs_round_sub_le (x : ℝ) : |(Python.round x : ℝ) - x| ≤ 1 / 2 := by
  have h0 := Int.floor_le x
  have h1 := Int.lt_floor_add_one x
  unfold Python.round
  dsimp only
  split_ifs with hlt hgt heven
  · rw [abs_le]
    constructor <;> linarith
  · push_cast
    rw [abs_le]
    constructor <;> linarith
  · rw [abs_le]
    constructor <;> linarith
  · push_cast
    rw [abs_le]
    constructor <;> linarith

/-- **The bin of a candidate** whose frequency is in the range is at most half a bin away from it. -/
theorem Ranged.candidate_bin (h : bins.Ranged) {period : ℝ} (hlow : bins.fmin ≤ bins.sr / period)
    (hhigh : bins.sr / period ≤ bins.fmax) :
    |bins.scale (bins.freq (bins.binIndex period) / (bins.sr / period))| ≤ 1 / 2 := by
  have hc : 0 < bins.sr / period := h.fmin_pos.trans_le hlow
  have hx0 := h.scale_nonneg hlow
  have hx1 : bins.scale (bins.sr / period / bins.fmin) ≤ bins.scale (bins.fmax / bins.fmin) := by
    refine mul_le_mul_of_nonneg_left ?_ h.binsPerOctave_pos.le
    exact Real.logb_le_logb_of_le one_lt_two (div_pos hc h.fmin_pos) (div_le_div_of_nonneg_right hhigh h.fmin_pos.le)
  have hbin : (bins.binIndex period : Int) = Python.round (bins.scale (bins.sr / period / bins.fmin)) := by
    have hceil : bins.scale (bins.sr / period / bins.fmin) ≤ ((bins.nPitchBins : Int) : ℝ) := by
      rw [h.nPitchBins_eq]
      push_cast
      exact hx1.trans (Int.lt_floor_add_one _).le
    obtain ⟨hr0, hr1⟩ := Python.round_mem (m := 0) (by exact_mod_cast hx0) hceil
    rw [binIndex, Numpy.clip_of_mem hr0 hr1, Int.toNat_of_nonneg hr0]
  have hsplit : bins.scale (bins.freq (bins.binIndex period) / (bins.sr / period)) =
      bins.binIndex period - bins.scale (bins.sr / period / bins.fmin) := by
    rw [← h.scale_freq (bins.binIndex period)]
    unfold scale
    rw [← mul_sub, ← Real.logb_div (div_pos (h.freq_pos _) h.fmin_pos).ne' (div_pos hc h.fmin_pos).ne',
      div_div_div_cancel_right₀ h.fmin_pos.ne']
  rw [hsplit, ← Int.cast_natCast, hbin]
  exact abs_round_sub_le _

/-- A candidate is between the shortest and the longest period. -/
theorem candidate_mem {x : List ℝ} {i : Nat} (hi : i < x.length) (minPeriod : Int) :
    (minPeriod : ℝ) ≤ ((minPeriod + i : Int) : ℝ) + (parabolicInterpolation x).getD i 0 ∧
      ((minPeriod + i : Int) : ℝ) + (parabolicInterpolation x).getD i 0 ≤ minPeriod + (x.length - 1) := by
  obtain ⟨hlt, hend⟩ := abs_shift_lt hi
  obtain ⟨hlow, hhigh⟩ := abs_lt.1 hlt
  have hlen : (i : ℝ) + 1 ≤ x.length := by exact_mod_cast hi
  push_cast
  obtain h0 | h1 | ⟨h0, h1⟩ : i = 0 ∨ i + 1 = x.length ∨ 1 ≤ i ∧ i + 2 ≤ x.length := by omega
  · rw [hend (.inl h0), h0]
    push_cast
    rw [h0] at hlen
    push_cast at hlen
    constructor <;> linarith
  · rw [hend (.inr h1)]
    constructor <;> linarith [(Nat.cast_nonneg i : (0 : ℝ) ≤ i)]
  · have h0' : (1 : ℝ) ≤ i := by exact_mod_cast h0
    have h1' : (i : ℝ) + 2 ≤ x.length := by exact_mod_cast h1
    constructor <;> linarith

/-- **A trough** becomes a candidate between the shortest and the longest period, and its bin is the nearest one when
the frequency is in the range. An inner trough is refined to the lowest point of the parabola through it and its
neighbours, by half a sample at most. -/
theorem Ranged.trough_candidate (h : bins.Ranged) {x : List ℝ} {i : Nat} (hi : i < x.length) (minPeriod : Int)
    {period : ℝ} (hperiod : period = ((minPeriod + i : Int) : ℝ) + (parabolicInterpolation x).getD i 0) :
    minPeriod ≤ period ∧ period ≤ minPeriod + (x.length - 1) ∧
      (bins.fmin ≤ bins.sr / period → bins.sr / period ≤ bins.fmax →
        |bins.scale (bins.freq (bins.binIndex period) / (bins.sr / period))| ≤ 1 / 2) ∧
      (0 < i → i + 1 < x.length → x.getD i 0 < x.getD (i - 1) 0 → x.getD i 0 ≤ x.getD (i + 1) 0 →
        |(parabolicInterpolation x).getD i 0| ≤ 1 / 2 ∧ ∀ p q r : ℝ,
          p - q + r = x.getD (i - 1) 0 → r = x.getD i 0 → p + q + r = x.getD (i + 1) 0 → ∀ t,
            p * (parabolicInterpolation x).getD i 0 ^ 2 + q * (parabolicInterpolation x).getD i 0 + r ≤
              p * t ^ 2 + q * t + r) := by
  subst hperiod
  obtain ⟨hlow, hhigh⟩ := candidate_mem hi minPeriod
  exact ⟨hlow, hhigh, h.candidate_bin, shift_vertex⟩

/-- An octave of twelve bins, at 8 samples per second. -/
def octave : PitchBins := ⟨1, 2, 8, 1⟩

theorem ranged_octave : octave.Ranged := ⟨one_pos, one_le_two, Nat.one_pos⟩

theorem trough_candidate_octave : ∃ period : ℝ, ((4 : Int) : ℝ) ≤ period ∧
    period ≤ (4 : Int) + ((([3, 1, 2] : List ℝ).length : ℝ) - 1) ∧
      |(parabolicInterpolation [3, 1, 2]).getD 1 0| ≤ 1 / 2 := by
  obtain ⟨hlow, hhigh, -, hvertex⟩ := ranged_octave.trough_candidate (x := [3, 1, 2]) (i := 1) (by simp) 4 rfl
  exact ⟨_, hlow, hhigh, (hvertex (by simp) (by simp) (by norm_num) (by norm_num)).1⟩

end PitchBins

/-! ## What is observed -/

namespace PitchBins

variable {bins : PitchBins}

variable {yinColumn : List ℝ}

end PitchBins

end Bajiru.DataAugment
