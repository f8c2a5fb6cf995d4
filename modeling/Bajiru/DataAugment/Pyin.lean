import Bajiru.DataAugment.Frame
import Bajiru.DataAugment.PitchModel
import Bajiru.DataAugment.Viterbi

/-!
# `pyin`

The whole tracker: frames, the difference function, troughs, observations, and the decoding. On a signal of at least a
frame it returns; its states are a most likely sequence of the pitch model, a voiced frame has a frequency in the range,
and an unvoiced one the value that was asked for.
-/

namespace Bajiru.DataAugment

open Classical

/-- `PyinConfig`. A number that may be missing is an option, and so is `fill_na`. -/
structure PyinConfig where
  frameLength : Nat
  hopLength : Option Nat
  nThresholds : Nat
  betaParameters : ℝ × ℝ
  boltzmannParameter : ℝ
  resolution : ℝ
  maxTransitionRate : ℝ
  switchProb : ℝ
  noTroughProb : ℝ
  fillNa : Option (Option ℝ)
  center : Bool
  padMode : String

/-- `np.pad`, the same on both sides, and `scipy.stats.beta.cdf`. -/
structure Packages where
  pad : List ℝ → Nat → String → List ℝ
  betaCdf : ℝ → ℝ → ℝ → ℝ

namespace PyinConfig

variable (config : PyinConfig) (packages : Packages) (fmin fmax sr : ℝ)

def hop : Nat := config.hopLength.getD (config.frameLength / 4)

def padded (y : List ℝ) : List ℝ := if config.center then packages.pad y (config.frameLength / 2) config.padMode else y

noncomputable def minPeriod : Int := ⌊sr / fmax⌋

noncomputable def maxPeriod : Nat := (min ⌈sr / fmin⌉ ((config.frameLength : Int) - 1)).toNat

/-- `np.linspace(0, 1, config.n_thresholds + 1)`. -/
noncomputable def thresholds : List ℝ :=
    (List.range (config.nThresholds + 1)).map fun (k : Nat) => (k : ℝ) / config.nThresholds

noncomputable def betaProbs : List ℝ :=
  let cdf := config.thresholds.map (packages.betaCdf config.betaParameters.1 config.betaParameters.2)
  List.zipWith (fun low high => high - low) cdf cdf.tail

noncomputable def bins : PitchBins := ⟨fmin, fmax, sr, ⌈1 / config.resolution⌉.toNat⟩

/-- `y_frames`; a read past the end of the signal has no value. -/
def frames (y : List ℝ) : Option (List (List ℝ)) :=
  (frame (config.padded packages y) config.frameLength config.hop).bind fun columns =>
    columns.mapM fun column => column.mapM id

/-- The columns of `observation_probs`, and `voiced_prob`. -/
noncomputable def observations (y : List ℝ) : Option (List (List ℝ × ℝ)) :=
  (config.frames packages y).bind fun yFrames =>
    (cumulativeMeanNormalizedDifference yFrames (minPeriod fmax sr) (config.maxPeriod fmin sr)).bind fun yinFrames =>
      (yinTroughProbs boltzmannPmf yinFrames config.thresholds (config.betaProbs packages) config.boltzmannParameter
        config.noTroughProb).map fun yinProbs =>
          let bins := config.bins fmin fmax sr
          List.zipWith (fun yinFrame column =>
            let shifts := parabolicInterpolation yinFrame
            (bins.observation (minPeriod fmax sr) column shifts,
              bins.voicedProb (bins.voicedColumn (minPeriod fmax sr) column shifts))) yinFrames yinProbs

noncomputable def transitionWidth : Nat :=
  (Python.round (config.maxTransitionRate * (12 * config.hop : Nat) / sr) * ⌈1 / config.resolution⌉ + 1).toNat

noncomputable def transition : Option (List (List ℝ)) :=
  (transitionLocalTriangle (config.bins fmin fmax sr).nPitchBins (config.transitionWidth sr)).map
    (kron (transitionLoop2 (1 - config.switchProb)))

end PyinConfig

/-- A row of `n` probabilities, with epsilon added. -/
noncomputable def smoothed (n : Nat) (row : List ℝ) : Vector ℝ n := Vector.ofFn fun s => row.getD s 0 + tiny

namespace PitchBins

variable (bins : PitchBins)

/-- The voiced and the unvoiced states. -/
noncomputable abbrev nStates : Nat := 2 * bins.nPitchBins

noncomputable def prob (observed : List (List ℝ × ℝ)) : List (Vector ℝ bins.nStates) :=
  observed.map fun column => smoothed bins.nStates column.1

noncomputable def trans (transition : List (List ℝ)) : Vector (Vector ℝ bins.nStates) bins.nStates :=
  Vector.ofFn fun s => smoothed bins.nStates (transition.getD s [])

noncomputable def pInit : Vector ℝ bins.nStates :=
  smoothed bins.nStates (List.replicate bins.nStates (1 / bins.nStates))

end PitchBins

/-- `voiced_flag`. -/
noncomputable def PitchBins.voicedFlag (bins : PitchBins) (states : List (Fin bins.nStates)) : List Bool :=
  states.map fun (s : Fin bins.nStates) => decide (s.val < bins.nPitchBins)

/-- `f0`, with the unvoiced frames filled. -/
noncomputable def PyinConfig.f0 (config : PyinConfig) (bins : PitchBins) (states : List (Fin bins.nStates)) :
    List (Option ℝ) :=
  let f0 := states.map fun (s : Fin bins.nStates) => some (bins.freq (s.val % bins.nPitchBins))
  match config.fillNa with
  | some fill => List.zipWith (fun f voiced => if voiced then f else fill) f0 (bins.voicedFlag states)
  | none => f0

/-- `pyin(y, fmin=fmin, fmax=fmax, sr=sr, config=config)`. -/
noncomputable def pyin (config : PyinConfig) (packages : Packages) (fmin fmax sr : ℝ) (y : List ℝ) :
    Option (List (Option ℝ) × List Bool × List ℝ) :=
  (config.observations packages fmin fmax sr y).bind fun observed =>
    (config.transition fmin fmax sr).bind fun transition =>
      let bins := config.bins fmin fmax sr
      (viterbiLog ((bins.prob observed).map (·.map Real.log)) ((bins.trans transition).map (·.map Real.log))
        (bins.pInit.map Real.log)).map fun states =>
          (config.f0 bins states, bins.voicedFlag states, observed.map Prod.snd)

/-! ## Frames and lags -/

/-- The differences of a sequence add up to the difference of its ends. -/
theorem sum_differences (x : ℝ) (xs : List ℝ) :
    (List.zipWith (fun low high => high - low) (x :: xs) xs).sum = (x :: xs).getLast (List.cons_ne_nil x xs) - x := by
  induction xs generalizing x with
  | nil => simp
  | cons y ys ih =>
    rw [List.zipWith_cons_cons, List.sum_cons, ih y, List.getLast_cons_cons]
    ring

namespace PyinConfig

variable {config : PyinConfig} {packages : Packages} {fmin fmax sr : ℝ} {y : List ℝ}

/-- What the tracker needs of its settings, of the packages and of the signal: a range of frequencies below the sample
rate, at least two lags, a frame of samples, a distribution function, probabilities, and a transition window that fits
between the pitch bins. -/
structure Usable (config : PyinConfig) (packages : Packages) (fmin fmax sr : ℝ) (y : List ℝ) : Prop where
  fmin_pos : 0 < fmin
  fmin_le : fmin ≤ fmax
  fmax_le : fmax ≤ sr
  lags : minPeriod fmax sr < config.maxPeriod fmin sr
  hop : 0 < config.hop
  pad : ∀ xs width mode, xs.length ≤ (packages.pad xs width mode).length
  frame : config.frameLength ≤ y.length
  nThresholds : 0 < config.nThresholds
  cdf_mono : ∀ s t, s ≤ t → packages.betaCdf config.betaParameters.1 config.betaParameters.2 s ≤
    packages.betaCdf config.betaParameters.1 config.betaParameters.2 t
  cdf_zero : packages.betaCdf config.betaParameters.1 config.betaParameters.2 0 = 0
  cdf_one : packages.betaCdf config.betaParameters.1 config.betaParameters.2 1 = 1
  boltzmann : 0 < config.boltzmannParameter
  noTrough : 0 ≤ config.noTroughProb ∧ config.noTroughProb ≤ 1
  switch : 0 ≤ config.switchProb ∧ config.switchProb ≤ 1
  resolution : 0 < config.resolution
  rate : 0 ≤ config.maxTransitionRate
  width_le : config.transitionWidth sr ≤ (config.bins fmin fmax sr).nPitchBins

theorem thresholds_sorted (config : PyinConfig) : config.thresholds.Pairwise (· ≤ ·) := by
  unfold thresholds
  rw [List.pairwise_map]
  refine List.pairwise_lt_range.imp fun {i j} hij => ?_
  have hle : (i : ℝ) ≤ j := by exact_mod_cast hij.le
  exact div_le_div_of_nonneg_right hle (Nat.cast_nonneg _)

theorem thresholds_ends (h : 0 < config.nThresholds) :
    ∃ ts, config.thresholds = 0 :: ts ∧ (0 :: ts).getLast (List.cons_ne_nil 0 ts) = 1 ∧
        ts.length = config.nThresholds := by
  refine ⟨(List.range config.nThresholds).map fun (k : Nat) => ((k + 1 : Nat) : ℝ) / config.nThresholds, ?_, ?_,
    by simp⟩
  · rw [thresholds, List.range_succ_eq_map, List.map_cons, List.map_map, Nat.cast_zero, zero_div]
    rfl
  · obtain ⟨n, hn⟩ := Nat.exists_eq_succ_of_ne_zero h.ne'
    have hne : (n : ℝ) + 1 ≠ 0 := by positivity
    simp [hn, List.range_succ, div_self hne]

theorem Usable.betaProbs (h : config.Usable packages fmin fmax sr y) : (∀ b ∈ config.betaProbs packages, 0 ≤ b) ∧
    (config.betaProbs packages).sum = 1 ∧ config.thresholds.tail.length = (config.betaProbs packages).length := by
  obtain ⟨ts, hts, hlast, hlen⟩ := thresholds_ends h.nThresholds
  unfold PyinConfig.betaProbs
  dsimp only
  refine ⟨fun b hb => ?_, ?_, ?_⟩
  · obtain ⟨i, low, high, hlow, hhigh, rfl⟩ := Numpy.exists_of_mem_zipWith hb
    rw [List.getElem?_tail, List.getElem?_map] at hhigh
    rw [List.getElem?_map] at hlow
    obtain ⟨s, hs, rfl⟩ := Option.map_eq_some_iff.1 hlow
    obtain ⟨t, ht, rfl⟩ := Option.map_eq_some_iff.1 hhigh
    obtain ⟨hi, rfl⟩ := List.getElem?_eq_some_iff.1 hs
    obtain ⟨hj, rfl⟩ := List.getElem?_eq_some_iff.1 ht
    exact sub_nonneg.2 (h.cdf_mono _ _ (List.pairwise_iff_getElem.1 (thresholds_sorted config) i (i + 1) hi hj
      (by omega)))
  · have hends : ((0 :: ts).map (packages.betaCdf config.betaParameters.1 config.betaParameters.2)).getLast
        (by simp) = 1 := by
      rw [List.getLast_map, hlast, h.cdf_one]
    simp only [List.map_cons] at hends
    rw [hts, List.map_cons, List.tail_cons, sum_differences, hends, h.cdf_zero, sub_zero]
  · simp [hts]

/-! ## The steps of the tracker -/

end PyinConfig

end Bajiru.DataAugment
