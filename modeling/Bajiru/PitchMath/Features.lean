import Bajiru.Python
import Mathlib.Algebra.BigOperators.Group.List.Lemmas
import Mathlib.Algebra.Order.Field.Rat
import Mathlib.Data.List.GetD
import Mathlib.Data.List.Sort

/-!
# Features of a stretch of audio

`filter_speech_frames`, `extract_features` and `compute_diagnostics`: the voice detector gives the speech segments, and
everything else is computed from their concatenation. The other packages are the record `Libraries`. A feature vector
has one length, whichever branch fills its parts, and there is one exactly when the diagnostics see speech.
-/

namespace Bajiru.PitchMath

def sampleRate : Nat := 16000

def windowDurationMs : Nat := 750

def nMfcc : Nat := 20

def vadThreshold : ℚ := 1 / 2

/-- The functions of `silero_vad`, `librosa`, `parselmouth` and `numpy` that the features call. A matrix is the list of
its rows; `pyin` gives each frame with its voiced flag, or no flags; `praat` gives F1, F2 and the harmonicity frame by
frame, where a number may be missing, or it raises. -/
structure Libraries where
  getSpeechTimestamps : List ℚ → Nat → ℚ → List (Nat × Nat)
  harmonic : List ℚ → ℚ → List ℚ
  mfcc : List ℚ → Nat → Nat → Nat → List (List ℚ)
  delta : List (List ℚ) → Nat → List (List ℚ)
  pyin : List ℚ → Nat → Option (List (ℚ × Bool))
  spectralCentroid : List ℚ → Nat → Nat → List ℚ
  spectralRolloff : List ℚ → Nat → Nat → List ℚ
  spectralBandwidth : List ℚ → Nat → Nat → List ℚ
  zeroCrossingRate : List ℚ → List ℚ
  spectralContrast : List ℚ → Nat → Nat → List (List ℚ)
  praat : List ℚ → Nat → Option (List (Option ℚ) × List (Option ℚ) × List (Option ℚ))
  sqrt : ℚ → ℚ

/-- `AudioDiagnostics`. -/
structure AudioDiagnostics where
  pitchHz : ℚ
  f1Hz : ℚ
  f2Hz : ℚ
  hnrDb : ℚ
  speechRatio : ℚ
  rms : ℚ

/-! ## Statistics -/

/-- `np.mean`. -/
def mean (xs : List ℚ) : ℚ := xs.sum / xs.length

/-- `np.percentile`: between the two items of the sorted list next to the place. -/
def percentile (xs : List ℚ) (q : ℚ) : ℚ :=
  let sorted := xs.insertionSort (· ≤ ·)
  let place := q / 100 * (xs.length - 1)
  let low := ⌊place⌋.toNat
  let high := ⌈place⌉.toNat
  sorted.getD low 0 + (place - low) * (sorted.getD high 0 - sorted.getD low 0)

/-- `np.median`. -/
def median (xs : List ℚ) : ℚ := percentile xs 50

namespace Libraries

variable (lib : Libraries)

/-- `np.std`. -/
def std (xs : List ℚ) : ℚ := lib.sqrt (mean (xs.map fun x => (x - mean xs) ^ 2))

/-- `np.sqrt(np.mean(audio**2))`. -/
def rms (audio : List ℚ) : ℚ := lib.sqrt (mean (audio.map fun x => x ^ 2))

/-! ## Speech -/

/-- `filter_speech_frames`: the segments one after the other, at least 150 ms. -/
def filterSpeechFrames (audio : List ℚ) (sampleRate : Nat) (threshold : ℚ) : Option (List ℚ) :=
  let timestamps := lib.getSpeechTimestamps audio sampleRate threshold
  if timestamps = [] then none
  else
    let speech := (timestamps.map fun ts => (audio.take ts.2).drop ts.1).flatten
    if (speech.length : ℚ) < sampleRate * (15 / 100) then none else some speech

/-- The frames of `f0` that are voiced. -/
def voiced (speech : List ℚ) (sampleRate : Nat) : List ℚ :=
  match lib.pyin speech sampleRate with
  | some frames => (frames.filter Prod.snd).map Prod.fst
  | none => []

/-- `compute_pitch`. -/
def computePitch (audio : List ℚ) (sampleRate : Nat) : ℚ :=
  let voiced := lib.voiced audio sampleRate
  if voiced = [] then 0 else mean voiced

/-- `_extract_praat_features`: six numbers, and zeros when Praat fails or sees no formants. -/
def extractPraatFeatures (speech : List ℚ) (sampleRate : Nat) : List ℚ :=
  let fallback := List.replicate 6 0
  match lib.praat speech sampleRate with
  | none => fallback
  | some (f1, f2, harmonicity) =>
    let f1 := f1.reduceOption
    let f2 := f2.reduceOption
    if f1 = [] ∨ f2 = [] then fallback
    else
      -- -200 dB is an undefined frame
      let hnr := harmonicity.reduceOption.filter fun x => -190 < x
      let hnr := if hnr = [] then [0] else hnr
      [mean f1, lib.std f1, mean f2, lib.std f2, mean hnr, lib.std hnr]

/-- `compute_diagnostics`. -/
def computeDiagnostics (audio : List ℚ) (sampleRate : Nat) (vadThreshold : ℚ) : AudioDiagnostics :=
  let rms := lib.rms audio
  match lib.filterSpeechFrames audio sampleRate vadThreshold with
  | none => ⟨0, 0, 0, 0, 0, rms⟩
  | some speech =>
    let praat := lib.extractPraatFeatures speech sampleRate
    ⟨lib.computePitch speech sampleRate, praat.getD 0 0, praat.getD 2 0, praat.getD 4 0,
      speech.length / max audio.length 1, rms⟩

/-! ## The feature vector -/

/-- The width of the delta filter: odd, at most 9 and at most the number of frames. -/
def deltaWidth (nFrames : Nat) : Nat := min 9 (if nFrames % 2 = 1 then nFrames else nFrames - 1)

/-- The deltas of a matrix, or zeros when it has less than three frames. -/
def deltaMfcc (mfccs : List (List ℚ)) : List (List ℚ) :=
  let nFrames := (mfccs.headD []).length
  if 3 ≤ nFrames then lib.delta mfccs (deltaWidth nFrames) else mfccs.map fun row => row.map fun _ => 0

/-- Five statistics of the voiced frames, which are one 0 when there is none. -/
def pitchFeatures (speech : List ℚ) (sampleRate : Nat) : List ℚ :=
  let f0 := lib.voiced speech sampleRate
  let f0 := if f0 = [] then [0] else f0
  [mean f0, lib.std f0, median f0, percentile f0 25, percentile f0 75]

/-- The means and deviations of four curves. -/
def spectralFeatures (speech : List ℚ) (sampleRate nFft : Nat) : List ℚ :=
  [lib.spectralCentroid speech sampleRate nFft, lib.spectralRolloff speech sampleRate nFft,
    lib.spectralBandwidth speech sampleRate nFft, lib.zeroCrossingRate speech].flatMap fun curve =>
      [mean curve, lib.std curve]

/-- The largest power of two that is at most the length, and at most 2048. -/
def fftSize (length : Nat) : Nat := min 2048 (2 ^ Nat.log2 length)

/-- `speech / rms`, unless it is silent. -/
def normalise (speech : List ℚ) : List ℚ :=
  let rms := lib.rms speech
  if 1 / 1000000 < rms then speech.map (· / rms) else speech

/-- The parts of the vector, computed from the normalised speech. -/
def featureVector (speech : List ℚ) (sampleRate nMfcc nFft : Nat) : List ℚ :=
  let mfccs := lib.mfcc speech sampleRate nMfcc nFft
  let contrast := lib.spectralContrast speech sampleRate nFft
  (mfccs.map mean ++ mfccs.map lib.std ++ (lib.deltaMfcc mfccs).map mean) ++
    lib.pitchFeatures speech sampleRate ++
    (lib.spectralFeatures speech sampleRate nFft ++ (contrast.map mean ++ contrast.map lib.std) ++
      lib.extractPraatFeatures speech sampleRate)

/-- `extract_features`. -/
def extractFeatures (audio : List ℚ) (sampleRate : Nat) (vadThreshold : ℚ) (nMfcc : Nat) : Option (List ℚ) :=
  if (audio.length : ℚ) < sampleRate * (1 / 10) then none
  else
    match lib.filterSpeechFrames audio sampleRate vadThreshold with
    | none => none
    | some speech =>
      let speech := lib.normalise (lib.harmonic speech 3)
      some (lib.featureVector speech sampleRate nMfcc (fftSize speech.length))

end Libraries

/-! ## The order of the percentiles -/

theorem getD_insertionSort_mono (xs : List ℚ) {i j : Nat} (hij : i ≤ j) (hj : j < xs.length) :
    (xs.insertionSort (· ≤ ·)).getD i 0 ≤ (xs.insertionSort (· ≤ ·)).getD j 0 := by
  have hlen := List.length_insertionSort (· ≤ ·) xs
  rw [List.getD_eq_getElem _ _ (by omega), List.getD_eq_getElem _ _ (by omega)]
  obtain rfl | hlt := hij.eq_or_lt
  · exact le_refl _
  · exact List.pairwise_iff_getElem.1 (List.pairwise_insertionSort (· ≤ ·) xs) i j _ _ hlt

/-- Between the places next to it, a value is between the values there. -/
theorem between_places (f : Nat → ℚ) {x : ℚ} (hx : 0 ≤ x) (hf : f ⌊x⌋.toNat ≤ f ⌈x⌉.toNat) :
    f ⌊x⌋.toNat ≤ f ⌊x⌋.toNat + (x - (⌊x⌋.toNat : Nat)) * (f ⌈x⌉.toNat - f ⌊x⌋.toNat) ∧
      f ⌊x⌋.toNat + (x - (⌊x⌋.toNat : Nat)) * (f ⌈x⌉.toNat - f ⌊x⌋.toNat) ≤ f ⌈x⌉.toNat := by
  have hcast : ((⌊x⌋.toNat : Nat) : ℚ) = ⌊x⌋ := by
    rw [← Int.cast_natCast, Int.toNat_of_nonneg (Int.floor_nonneg.2 hx)]
  have h0 : 0 ≤ x - ⌊x⌋ := sub_nonneg.2 (Int.floor_le x)
  have h1 : x - ⌊x⌋ ≤ 1 := by linarith [Int.lt_floor_add_one x]
  rw [hcast]
  constructor <;> nlinarith

/-- Interpolating a rising sequence. -/
theorem interpolation_mono {f : Nat → ℚ} {n : Nat} (hf : ∀ i j, i ≤ j → j ≤ n → f i ≤ f j) {x y : ℚ} (hx : 0 ≤ x)
    (hxy : x ≤ y) (hy : y ≤ n) : f ⌊x⌋.toNat + (x - (⌊x⌋.toNat : Nat)) * (f ⌈x⌉.toNat - f ⌊x⌋.toNat) ≤
      f ⌊y⌋.toNat + (y - (⌊y⌋.toNat : Nat)) * (f ⌈y⌉.toNat - f ⌊y⌋.toNat) := by
  have hceil : ∀ z : ℚ, 0 ≤ z → z ≤ n → ⌈z⌉.toNat ≤ n := fun z _ hz => by
    have := Int.ceil_le.2 (show z ≤ ((n : Int) : ℚ) by exact_mod_cast hz)
    omega
  have hrise : ∀ z : ℚ, 0 ≤ z → z ≤ n → f ⌊z⌋.toNat ≤ f ⌈z⌉.toNat := fun z hz hzn =>
    hf _ _ (Int.toNat_le_toNat (Int.floor_le_ceil z)) (hceil z hz hzn)
  have hy0 : 0 ≤ y := hx.trans hxy
  obtain hfloor | hfloor := (Int.floor_mono hxy).eq_or_lt
  · -- in one cell: the slope is that of the cell, or `x` is its left end
    obtain hxi | hxi := (Int.floor_le x).eq_or_lt
    · have hleft : ((⌊x⌋.toNat : Nat) : ℚ) = x := by
        rw [← Int.cast_natCast, Int.toNat_of_nonneg (Int.floor_nonneg.2 hx), hxi]
      rw [hleft, sub_self, zero_mul, add_zero, hfloor]
      exact (between_places f hy0 (hrise y hy0 (hy))).1
    · have hxc : ⌈x⌉ = ⌊x⌋ + 1 := by
        refine Int.ceil_eq_iff.2 ⟨by push_cast; linarith, by push_cast; exact (Int.lt_floor_add_one x).le⟩
      have hyc : ⌈y⌉ = ⌊x⌋ + 1 := by
        have := Int.lt_floor_add_one y
        rw [← hfloor] at this
        exact Int.ceil_eq_iff.2 ⟨by push_cast; linarith, by push_cast; linarith⟩
      rw [hxc, hyc, ← hfloor]
      have hstep : f ⌊x⌋.toNat ≤ f (⌊x⌋ + 1).toNat := by
        rw [← hxc]
        exact hrise x hx (hxy.trans hy)
      nlinarith
  · -- in two cells: a place of the list is between them
    have hmid : ⌈x⌉ ≤ ⌊y⌋ := by
      have := Int.ceil_le_floor_add_one x
      omega
    calc _ ≤ f ⌈x⌉.toNat := (between_places f hx (hrise x hx (hxy.trans hy))).2
      _ ≤ f ⌊y⌋.toNat := hf _ _ (Int.toNat_le_toNat hmid)
          ((Int.toNat_le_toNat (Int.floor_le_ceil y)).trans (hceil y hy0 hy))
      _ ≤ _ := (between_places f hy0 (hrise y hy0 hy)).1

theorem percentile_mono {xs : List ℚ} (hne : xs ≠ []) {q r : ℚ} (hq : 0 ≤ q) (hqr : q ≤ r) (hr : r ≤ 100) :
    percentile xs q ≤ percentile xs r := by
  have hpos : 1 ≤ xs.length := List.length_pos_iff.2 hne
  have hlast : ((xs.length - 1 : Nat) : ℚ) = xs.length - 1 := by push_cast [hpos]; ring
  have hn : (0 : ℚ) ≤ xs.length - 1 := by rw [← hlast]; exact Nat.cast_nonneg _
  refine interpolation_mono (f := fun i => (xs.insertionSort (· ≤ ·)).getD i 0) (n := xs.length - 1)
    (fun i j hij hj => getD_insertionSort_mono xs hij (by omega)) (by positivity) ?_ ?_
  · exact mul_le_mul_of_nonneg_right (by linarith) hn
  · rw [hlast]
    nlinarith

/-! ## The shape of the vector -/

namespace Libraries

variable {lib : Libraries} {audio speech : List ℚ} {rate n : Nat} {threshold : ℚ}

@[simp] theorem length_extractPraatFeatures (speech : List ℚ) (rate : Nat) :
    (lib.extractPraatFeatures speech rate).length = 6 := by
  unfold extractPraatFeatures
  dsimp only
  split
  · rfl
  · split <;> rfl

/-- The delta filter is odd, has three taps at least and is not longer than the matrix. -/
theorem deltaWidth_spec {nFrames : Nat} (h : 3 ≤ nFrames) :
    deltaWidth nFrames % 2 = 1 ∧ 3 ≤ deltaWidth nFrames ∧ deltaWidth nFrames ≤ nFrames := by
  unfold deltaWidth
  split <;> omega

/-- What the packages promise at a rate and a number of coefficients: `mfcc` has a row for each coefficient, `delta`
keeps the rows when its width is odd, at least 3 and at most the number of frames, and the contrast has seven bands. -/
structure Shapes (lib : Libraries) (rate n : Nat) : Prop where
  mfcc : ∀ y nFft, (lib.mfcc y rate n nFft).length = n
  delta : ∀ rows width, width % 2 = 1 → 3 ≤ width → width ≤ (rows.headD []).length →
    (lib.delta rows width).length = rows.length
  contrast : ∀ y nFft, (lib.spectralContrast y rate nFft).length = 7

/-- The promises of the voice detector: its segments are in the audio, one after the other. -/
structure Segmented (lib : Libraries) : Prop where
  bounds : ∀ y rate threshold, ∀ ts ∈ lib.getSpeechTimestamps y rate threshold, ts.1 ≤ ts.2 ∧ ts.2 ≤ y.length
  apart : ∀ y rate threshold, (lib.getSpeechTimestamps y rate threshold).Pairwise fun a b => a.2 ≤ b.1

theorem Shapes.length_deltaMfcc (h : lib.Shapes rate n) (mfccs : List (List ℚ)) :
    (lib.deltaMfcc mfccs).length = mfccs.length := by
  unfold deltaMfcc
  dsimp only
  split
  · next hframes =>
    obtain ⟨hodd, hthree, hle⟩ := deltaWidth_spec hframes
    exact h.delta _ _ hodd hthree hle
  · exact List.length_map _

/-- There is a vector when there is speech. -/
theorem extractFeatures_eq_some {v : List ℚ} (h : lib.extractFeatures audio rate threshold n = some v) :
    ∃ speech y nFft, lib.filterSpeechFrames audio rate threshold = some speech ∧
      v = lib.featureVector y rate n nFft := by
  unfold extractFeatures at h
  split at h
  · cases h
  · split at h
    · cases h
    · next speech hspeech => exact ⟨speech, _, _, hspeech, (Option.some.inj h).symm⟩

theorem length_features (hlib : lib.Shapes rate n) (y : List ℚ) (nFft : Nat) :
    ((lib.mfcc y rate n nFft).map mean ++ (lib.mfcc y rate n nFft).map lib.std ++
      (lib.deltaMfcc (lib.mfcc y rate n nFft)).map mean).length = 3 * n := by
  simp [hlib.mfcc, hlib.length_deltaMfcc]
  omega

theorem length_extractFeatures (hlib : lib.Shapes rate n) {v : List ℚ}
    (h : lib.extractFeatures audio rate threshold n = some v) : v.length = 3 * n + 33 := by
  obtain ⟨-, y, nFft, -, rfl⟩ := extractFeatures_eq_some h
  have hpitch : (lib.pitchFeatures y rate).length = 5 := rfl
  unfold featureVector
  dsimp only
  rw [List.length_append, List.length_append, length_features hlib, hpitch]
  simp [spectralFeatures, hlib.contrast]

/-- **One length.** Every vector has three numbers for each coefficient and 33 more, and the last three of its pitch
statistics are in order: the first quartile, the median and the third quartile. -/
theorem extractFeatures_shape (hlib : lib.Shapes rate n) {v : List ℚ}
    (h : lib.extractFeatures audio rate threshold n = some v) : v.length = 3 * n + 33 ∧
      v.getD (3 * n + 3) 0 ≤ v.getD (3 * n + 2) 0 ∧ v.getD (3 * n + 2) 0 ≤ v.getD (3 * n + 4) 0 := by
  obtain ⟨-, y, nFft, -, rfl⟩ := extractFeatures_eq_some h
  unfold featureVector
  dsimp only
  generalize hfront : (lib.mfcc y rate n nFft).map mean ++ (lib.mfcc y rate n nFft).map lib.std ++
    (lib.deltaMfcc (lib.mfcc y rate n nFft)).map mean = front
  generalize hback : lib.spectralFeatures y rate nFft ++ _ ++ lib.extractPraatFeatures y rate = back
  have hf : front.length = 3 * n := by
    rw [← hfront, length_features hlib]
  have hb : back.length = 28 := by
    simp [← hback, hlib.contrast, spectralFeatures]
  have hlen : (lib.pitchFeatures y rate).length = 5 := rfl
  refine ⟨by rw [List.length_append, List.length_append]; omega, ?_⟩
  have hne : (if lib.voiced y rate = [] then [0] else lib.voiced y rate) ≠ [] := by
    split <;> simp_all
  have hget : ∀ k, k < 5 → (front ++ lib.pitchFeatures y rate ++ back).getD (3 * n + k) 0 =
      (lib.pitchFeatures y rate).getD k 0 := by
    intro k hk
    rw [List.getD_append _ _ _ _ (by rw [List.length_append]; omega), List.getD_append_right _ _ _ _ (by omega), hf]
    congr 1
    omega
  rw [hget 2 (by omega), hget 3 (by omega), hget 4 (by omega)]
  exact ⟨percentile_mono hne (by norm_num) (by norm_num) (by norm_num),
    percentile_mono hne (by norm_num) (by norm_num) (by norm_num)⟩

/-- Packages that hear speech everywhere, one frame for each sample. -/
def speechOnly : Libraries where
  getSpeechTimestamps y _ _ := [(0, y.length)]
  harmonic y _ := y
  mfcc y _ n _ := List.replicate n y
  delta rows _ := rows.map fun row => row.map fun _ => 0
  pyin y _ := some (y.map fun x => (x, true))
  spectralCentroid y _ _ := y
  spectralRolloff y _ _ := y
  spectralBandwidth y _ _ := y
  zeroCrossingRate y := y
  spectralContrast y _ _ := List.replicate 7 y
  praat _ _ := none
  sqrt x := Nat.sqrt x.num.toNat / Nat.sqrt x.den

theorem shapes_speechOnly (rate n : Nat) : speechOnly.Shapes rate n where
  mfcc _ _ := List.length_replicate
  delta _ _ _ _ _ := List.length_map _
  contrast _ _ := List.length_replicate

theorem segmented_speechOnly : speechOnly.Segmented where
  bounds y rate threshold ts hts := by
    obtain rfl := List.mem_singleton.1 hts
    simp
  apart _ _ _ := List.pairwise_singleton _ _

/-- A window of a constant. -/
def steady : List ℚ := List.replicate 12000 1

theorem length_steady : steady.length = 12000 := List.length_replicate

theorem filterSpeechFrames_steady :
    speechOnly.filterSpeechFrames steady sampleRate vadThreshold = some steady := by
  simp [filterSpeechFrames, speechOnly, length_steady, sampleRate]
  norm_num

theorem extractFeatures_steady :
    ∃ v, speechOnly.extractFeatures steady sampleRate vadThreshold nMfcc = some v := by
  unfold extractFeatures
  rw [filterSpeechFrames_steady, length_steady, if_neg (by norm_num [sampleRate])]
  exact ⟨_, rfl⟩

theorem extractFeatures_shape_steady : ∃ v,
    speechOnly.extractFeatures steady sampleRate vadThreshold nMfcc = some v ∧
      v.length = 93 ∧ v.getD 63 0 ≤ v.getD 62 0 ∧ v.getD 62 0 ≤ v.getD 64 0 := by
  obtain ⟨v, hv⟩ := extractFeatures_steady
  exact ⟨v, hv, extractFeatures_shape (shapes_speechOnly _ _) hv⟩

/-! ## Speech -/

/-- Segments one after the other are not longer than what is before the end of the last one. -/
theorem length_segments_le {segments : List (Nat × Nat)} {k : Nat}
    (hb : ∀ ts ∈ segments, k ≤ ts.1 ∧ ts.1 ≤ ts.2 ∧ ts.2 ≤ audio.length) (ha : segments.Pairwise fun a b => a.2 ≤ b.1) :
    ((segments.map fun ts => (audio.take ts.2).drop ts.1).flatten).length + k ≤ max k audio.length := by
  induction segments generalizing k with
  | nil => simp
  | cons ts segments ih =>
    obtain ⟨hk, hle, hend⟩ := hb ts List.mem_cons_self
    obtain ⟨hfirst, ha⟩ := List.pairwise_cons.1 ha
    have hrest := ih (k := ts.2) (fun ts' hmem => ⟨hfirst ts' hmem, (hb ts' (List.mem_cons_of_mem _ hmem)).2⟩) ha
    rw [List.map_cons, List.flatten_cons, List.length_append, List.length_drop, List.length_take]
    omega

/-- The samples in the segments of the voice detector. -/
def detected (lib : Libraries) (audio : List ℚ) (sampleRate : Nat) (threshold : ℚ) : Nat :=
  ((lib.getSpeechTimestamps audio sampleRate threshold).map fun ts => ts.2 - ts.1).sum

theorem length_segments {segments : List (Nat × Nat)} (hb : ∀ ts ∈ segments, ts.2 ≤ audio.length) :
    ((segments.map fun ts => (audio.take ts.2).drop ts.1).flatten).length =
      (segments.map fun ts => ts.2 - ts.1).sum := by
  induction segments with
  | nil => rfl
  | cons ts segments ih =>
    have hend := hb ts List.mem_cons_self
    rw [List.map_cons, List.flatten_cons, List.length_append, List.length_drop, List.length_take,
      ih fun ts' hmem => hb ts' (List.mem_cons_of_mem _ hmem), List.map_cons, List.sum_cons, Nat.min_eq_left hend]

/-- There is no speech exactly if the detector has found less than 150 ms. -/
theorem filterSpeechFrames_eq_none (hlib : lib.Segmented) (hrate : 0 < rate) :
    lib.filterSpeechFrames audio rate threshold = none ↔
      (lib.detected audio rate threshold : ℚ) < rate * (15 / 100) := by
  have hlen := length_segments fun ts hts => (hlib.bounds audio rate threshold ts hts).2
  unfold filterSpeechFrames detected
  dsimp only
  rw [hlen]
  by_cases hnil : lib.getSpeechTimestamps audio rate threshold = []
  · have hpos : (0 : ℚ) < rate * (15 / 100) := by positivity
    simp [hnil, hpos]
  · rw [if_neg hnil]
    split_ifs with hshort
    · exact iff_of_true rfl hshort
    · exact iff_of_false (by simp) hshort

/-- The speech is what the detector has found. -/
theorem length_filterSpeechFrames (hlib : lib.Segmented)
    (h : lib.filterSpeechFrames audio rate threshold = some speech) :
    speech.length = lib.detected audio rate threshold := by
  have hlen := length_segments fun ts hts => (hlib.bounds audio rate threshold ts hts).2
  unfold filterSpeechFrames at h
  dsimp only at h
  split at h
  · cases h
  · split at h
    · cases h
    · obtain rfl := Option.some.inj h
      exact hlen

theorem detected_le (hlib : lib.Segmented) : lib.detected audio rate threshold ≤ audio.length := by
  have hle := length_segments_le (k := 0)
    (fun ts hts => ⟨Nat.zero_le _, hlib.bounds audio rate threshold ts hts⟩) (hlib.apart audio rate threshold)
  rw [length_segments fun ts hts => (hlib.bounds audio rate threshold ts hts).2] at hle
  unfold detected
  omega

/-- Speech is a part of the audio, and there is some. -/
theorem filterSpeechFrames_length (hlib : lib.Segmented) (hrate : 0 < rate)
    (h : lib.filterSpeechFrames audio rate threshold = some speech) :
    0 < speech.length ∧ speech.length ≤ audio.length := by
  have hlen := length_filterSpeechFrames hlib h
  have hlong : ¬(lib.detected audio rate threshold : ℚ) < rate * (15 / 100) := fun hshort => by
    rw [(filterSpeechFrames_eq_none hlib hrate).2 hshort] at h
    cases h
  have hpos : (0 : ℚ) < rate * (15 / 100) := by positivity
  rw [hlen]
  exact ⟨by exact_mod_cast hpos.trans_le (not_lt.1 hlong), detected_le hlib⟩

/-- Diagnostics of speech. -/
theorem speechRatio_mem (hlib : lib.Segmented) (hrate : 0 < rate)
    (h : lib.filterSpeechFrames audio rate threshold = some speech) :
    0 < (lib.computeDiagnostics audio rate threshold).speechRatio ∧
      (lib.computeDiagnostics audio rate threshold).speechRatio ≤ 1 := by
  obtain ⟨hpos, hle⟩ := filterSpeechFrames_length hlib hrate h
  have hmax : max audio.length 1 = audio.length := by omega
  have haudio : (0 : ℚ) < audio.length := by exact_mod_cast hpos.trans_le hle
  have hratio : (lib.computeDiagnostics audio rate threshold).speechRatio = speech.length / (audio.length : ℚ) := by
    simp only [computeDiagnostics, h]
    rw [hmax]
  rw [hratio]
  exact ⟨div_pos (by exact_mod_cast hpos) haudio, (div_le_one haudio).2 (by exact_mod_cast hle)⟩

end Libraries

end Bajiru.PitchMath
