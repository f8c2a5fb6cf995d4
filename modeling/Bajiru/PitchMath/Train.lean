import Bajiru.PitchMath.Listener

/-!
# Training

`pitch-train` cuts the files of two directories into windows of the length of the listener's deque, half a window apart,
and fits a pipeline to their features. The matrix is rectangular and has rows of both classes. Training and listening
agree: a listener that hears a file, in blocks of any length, computes on each of its windows what the training
computed. -/

namespace Bajiru.PitchMath

/-- What the training asks the file system for. `loadFile` decodes and resamples. -/
structure FileSystem (Path : Type*) where
  isDir : Path → Bool
  rglob : Path → String → List Path
  loadFile : Path → Nat → List ℚ

def audioExtensions : List String := ["*.mp3", "*.wav", "*.flac", "*.ogg", "*.m4a"]

variable {Path : Type*} [LinearOrder Path]

/-- The files of a directory, sorted. -/
def FileSystem.audioFiles (fs : FileSystem Path) (directory : Path) : List Path :=
  (audioExtensions.flatMap (fs.rglob directory)).insertionSort (· ≤ ·)

/-- The vectors of one file. -/
def fileFeatures (lib : Libraries) (windowSamples : Nat) (audio : List ℚ) : List (List ℚ) :=
  let hopSamples : Nat := windowSamples / 2
  (Python.range 0 ((audio.length : Int) - windowSamples + 1) hopSamples).filterMap fun start =>
    lib.extractFeatures (Python.slice audio start (start + windowSamples)) sampleRate vadThreshold nMfcc

/-- `_collect_features`. -/
def collectFeatures (fs : FileSystem Path) (lib : Libraries) (rnd : Python.Rounding) (directory : Path) :
    List (List ℚ) :=
  (fs.audioFiles directory).flatMap fun path =>
    fileFeatures lib (windowSamples rnd sampleRate windowDurationMs) (fs.loadFile path sampleRate)

/-- `train`: `fit` is that of the classifier. -/
def train (fit : List (List ℚ) → List Nat → Pipeline) (lowFeatures highFeatures : List (List ℚ)) : Pipeline :=
  let x := lowFeatures ++ highFeatures
  let y := List.replicate lowFeatures.length 0 ++ List.replicate highFeatures.length 1
  fit x y

/-- `main` of `pitch-train`, up to the model that it saves, or its exit code. -/
def pitchTrain (fs : FileSystem Path) (lib : Libraries) (rnd : Python.Rounding)
    (fit : List (List ℚ) → List Nat → Pipeline) (lowDir highDir : Path) : Except Nat Pipeline :=
  if !fs.isDir lowDir then .error 1
  else if !fs.isDir highDir then .error 1
  else
    let lowFeatures := collectFeatures fs lib rnd lowDir
    let highFeatures := collectFeatures fs lib rnd highDir
    if lowFeatures = [] ∨ highFeatures = [] then .error 1 else .ok (train fit lowFeatures highFeatures)

/-! ## The windows of a file -/

/-- The starts of the windows that fit: the first at 0, the next half a window later. -/
theorem range_starts (len : Nat) : Python.range 0 ((len : Int) - (12000 : Nat) + 1) ((12000 / 2 : Nat) : Int) =
    (List.range (len / 6000 - 1)).map fun k => ((k * 6000 : Nat) : Int) := by
  unfold Python.range
  dsimp only
  rw [if_pos (by norm_num)]
  have hcount : (((len : Int) - (12000 : Nat) + 1 - 0 + ((12000 / 2 : Nat) : Int) - 1) /
      ((12000 / 2 : Nat) : Int)).toNat = len / 6000 - 1 := by omega
  rw [hcount]
  refine List.map_congr_left fun k _ => ?_
  push_cast
  ring

/-- The features of a file in the windows that fit, one after the other. -/
def windowRows (lib : Libraries) (audio : List ℚ) : List (List ℚ) :=
  (List.range (audio.length / 6000 - 1)).filterMap fun k =>
    lib.extractFeatures ((audio.drop (k * 6000)).take 12000) sampleRate vadThreshold nMfcc

theorem fileFeatures_eq (lib : Libraries) (audio : List ℚ) : fileFeatures lib 12000 audio = windowRows lib audio := by
  unfold fileFeatures windowRows
  dsimp only
  rw [range_starts, List.filterMap_map]
  refine List.filterMap_congr fun k _ => ?_
  rw [Function.comp_apply, ← Int.natCast_add, Python.slice_natCast, List.drop_take, Nat.add_sub_cancel_left]

/-- A window that fits is the end of what comes before its end. -/
theorem mem_windowRows {lib : Libraries} (audio v : List ℚ) : v ∈ windowRows lib audio ↔
    ∃ k, k * 6000 + 12000 ≤ audio.length ∧
      lib.extractFeatures ((audio.take (k * 6000 + 12000)).rtake 12000) sampleRate vadThreshold nMfcc = some v := by
  unfold windowRows
  rw [List.mem_filterMap]
  refine exists_congr fun k => ?_
  have hfits : k ∈ List.range (audio.length / 6000 - 1) ↔ k * 6000 + 12000 ≤ audio.length := by
    rw [List.mem_range]
    omega
  rw [hfits]
  refine and_congr_right fun hk => ?_
  rw [List.rtake, List.length_take, Nat.min_eq_left hk, Nat.add_sub_cancel, List.drop_take, Nat.add_sub_cancel_left]

/-! ## The matrix -/

variable {fs : FileSystem Path} {lib : Libraries} {rnd : Python.Rounding} {fit : List (List ℚ) → List Nat → Pipeline}
  {lowDir highDir : Path} {clf : Pipeline}

theorem mem_audioFiles (directory path : Path) :
    path ∈ fs.audioFiles directory ↔ ∃ pattern ∈ audioExtensions, path ∈ fs.rglob directory pattern := by
  rw [FileSystem.audioFiles, (List.perm_insertionSort (· ≤ ·) _).mem_iff, List.mem_flatMap]

/-- Every vector of a directory has 93 numbers. -/
theorem length_of_mem_collectFeatures (hlib : lib.Shapes sampleRate nMfcc) {directory : Path} {v : List ℚ}
    (h : v ∈ collectFeatures fs lib rnd directory) : v.length = 93 := by
  obtain ⟨path, -, hv⟩ := List.mem_flatMap.1 h
  obtain ⟨start, -, hv⟩ := List.mem_filterMap.1 hv
  exact Libraries.length_extractFeatures hlib hv

/-- The vectors of a directory, file by file. -/
theorem collectFeatures_eq (hrnd : ExactIntegers rnd) (directory : Path) : collectFeatures fs lib rnd directory =
    (fs.audioFiles directory).flatMap fun path => windowRows lib (fs.loadFile path sampleRate) := by
  unfold collectFeatures
  rw [windowSamples_eq hrnd]
  exact congrArg ((fs.audioFiles directory).flatMap ·) (funext fun path => fileFeatures_eq lib _)

/-- The vectors of a directory, in terms of what a deque of the window's length holds along its files. -/
theorem mem_collectFeatures (hrnd : ExactIntegers rnd) (directory : Path) (v : List ℚ) :
    v ∈ collectFeatures fs lib rnd directory ↔ ∃ path ∈ fs.audioFiles directory, ∃ k,
      k * 6000 + 12000 ≤ (fs.loadFile path sampleRate).length ∧
      lib.extractFeatures (((fs.loadFile path sampleRate).take (k * 6000 + 12000)).rtake 12000) sampleRate vadThreshold
        nMfcc = some v := by
  rw [collectFeatures_eq hrnd, List.mem_flatMap]
  exact exists_congr fun path => and_congr_right fun _ => mem_windowRows _ _

/-- The rows of a class. -/
def rowsOf (x : List (List ℚ)) (y : List Nat) (c : Nat) : List (List ℚ) :=
  ((x.zip y).filter fun row => row.2 = c).map Prod.fst

theorem rowsOf_append {x x' : List (List ℚ)} {y y' : List Nat} (h : x.length = y.length) (c : Nat) :
    rowsOf (x ++ x') (y ++ y') c = rowsOf x y c ++ rowsOf x' y' c := by
  simp only [rowsOf, List.zip_append h, List.filter_append, List.map_append]

theorem rowsOf_replicate (x : List (List ℚ)) (c d : Nat) :
    rowsOf x (List.replicate x.length d) c = if d = c then x else [] := by
  induction x with
  | nil => simp [rowsOf]
  | cons v x ih =>
    rw [List.length_cons, List.replicate_succ]
    show rowsOf ([v] ++ x) ([d] ++ List.replicate x.length d) c = _
    rw [rowsOf_append rfl, ih]
    by_cases h : d = c <;> simp [rowsOf, h]

/-- **The fit.** When `pitch-train` saves a model, it was fitted to a matrix with 93 columns and a class for each row;
there are two classes, both have rows, and the rows of a class are the features of the windows of its directory, file by
file and each window once. -/
theorem pitchTrain_fits (hlib : lib.Shapes sampleRate nMfcc) (hrnd : ExactIntegers rnd)
    (h : pitchTrain fs lib rnd fit lowDir highDir = .ok clf) :
    ∃ x y, clf = fit x y ∧ x.length = y.length ∧ (∀ v ∈ x, v.length = 93) ∧ 0 ∈ y ∧ 1 ∈ y ∧ (∀ c ∈ y, c = 0 ∨ c = 1) ∧
      rowsOf x y 0 =
        (fs.audioFiles lowDir).flatMap (fun path => windowRows lib (fs.loadFile path sampleRate)) ∧
      rowsOf x y 1 =
        (fs.audioFiles highDir).flatMap (fun path => windowRows lib (fs.loadFile path sampleRate)) := by
  unfold pitchTrain at h
  split at h
  · cases h
  split at h
  · cases h
  dsimp only at h
  split at h
  · cases h
  · next hne =>
    obtain ⟨hlow, hhigh⟩ := not_or.1 hne
    cases h
    refine ⟨_, _, rfl, by simp, ?_, ?_, ?_, fun c hc => ?_, ?_, ?_⟩
    · exact List.forall_mem_append.2
        ⟨fun v hv => length_of_mem_collectFeatures hlib hv, fun v hv => length_of_mem_collectFeatures hlib hv⟩
    · simpa using hlow
    · simpa using hhigh
    · obtain hc | hc := List.mem_append.1 hc
      · exact .inl (List.eq_of_mem_replicate hc)
      · exact .inr (List.eq_of_mem_replicate hc)
    · rw [rowsOf_append (by simp), rowsOf_replicate, rowsOf_replicate, if_pos rfl, if_neg (by norm_num),
        List.append_nil, collectFeatures_eq hrnd]
    · rw [rowsOf_append (by simp), rowsOf_replicate, rowsOf_replicate, if_pos rfl, if_neg (by norm_num),
        List.nil_append, collectFeatures_eq hrnd]

/-- Directories with one file of one window. -/
def oneWindow : FileSystem Nat where
  isDir _ := true
  rglob directory pattern := if pattern = "*.wav" then [directory] else []
  loadFile _ _ := Libraries.steady

theorem mem_oneWindow (directory : Nat) : directory ∈ oneWindow.audioFiles directory :=
  (mem_audioFiles _ _).2 ⟨"*.wav", by simp [audioExtensions], by simp [oneWindow]⟩

theorem take_steady : Libraries.steady.take 12000 = Libraries.steady :=
  List.take_of_length_le Libraries.length_steady.le

theorem collectFeatures_oneWindow (directory : Nat) : collectFeatures oneWindow .speechOnly .exact directory ≠ [] := by
  obtain ⟨v, hv⟩ := Libraries.extractFeatures_steady
  refine List.ne_nil_of_mem
    ((mem_collectFeatures exactIntegers_exact directory v).2 ⟨_, mem_oneWindow directory, 0, ?_, ?_⟩)
  · exact Libraries.length_steady.ge
  · rw [zero_mul, zero_add]
    show Libraries.speechOnly.extractFeatures ((Libraries.steady.take 12000).rtake 12000) _ _ _ = _
    rw [take_steady, rtake_of_length_le Libraries.length_steady.le, hv]

theorem pitchTrain_fits_oneWindow : pitchTrain oneWindow .speechOnly .exact (fun _ _ => mostlyLow) 0 1 = .ok mostlyLow ∧
    ∃ x y, (∀ v ∈ x, v.length = 93) ∧ 0 ∈ y ∧ rowsOf x y 1 = windowRows .speechOnly Libraries.steady := by
  have h : pitchTrain oneWindow .speechOnly .exact (fun _ _ => mostlyLow) 0 1 = .ok mostlyLow := by
    have hdir : ∀ directory, ¬(!oneWindow.isDir directory) = true := by simp [oneWindow]
    unfold pitchTrain
    rw [if_neg (hdir 0), if_neg (hdir 1)]
    exact if_neg (not_or.2 ⟨collectFeatures_oneWindow 0, collectFeatures_oneWindow 1⟩)
  obtain ⟨x, y, -, -, hwidth, h0, -, -, -, hrows⟩ :=
    pitchTrain_fits (Libraries.shapes_speechOnly _ _) exactIntegers_exact h
  have hfiles : oneWindow.audioFiles 1 = [1] := by decide
  rw [hfiles, List.flatMap_singleton] at hrows
  exact ⟨h, x, y, hwidth, h0, hrows⟩

/-- **Training and listening agree.** A listener that has heard a file of a directory up to the end of one of its
windows, in blocks of whatever lengths and with whatever interleaving of its threads, classifies a vector that
`_collect_features` has for that directory. -/
theorem listener_classifies_training_vector (hrnd : ExactIntegers rnd) {es : List (Event ℚ)}
    {s : Rolling ℚ ClassificationResult (voiceListener lib clf rnd sampleRate windowDurationMs).windowSamples}
    (hrun : execute (Rolling.next (voiceListener lib clf rnd sampleRate windowDurationMs)) (Rolling.new ..) es = some s)
    {m : Nat} {r : ClassificationResult} (hr : (m, r) ∈ s.published) {directory path : Path}
    (hpath : path ∈ fs.audioFiles directory) {k : Nat} (hk : k * 6000 + 12000 ≤ (fs.loadFile path sampleRate).length)
    (hheard : (s.delivered.take m).flatten = (fs.loadFile path sampleRate).take (k * 6000 + 12000)) :
    ∃ v ∈ collectFeatures fs lib rnd directory,
      r.label = (clf.predict v).1 ∧ r.proba = (clf.predictProba v).toList := by
  obtain ⟨audio, elapsedMs, hw, hclassify⟩ := (Rolling.inv_execute hrun).results _ hr
  obtain ⟨-, v, -, hv, hlabel, hproba, -⟩ := classify_eq_some hclassify
  have haudio : audio = ((fs.loadFile path sampleRate).take (k * 6000 + 12000)).rtake 12000 := by
    rw [hw.eq, hheard, ← windowSamples_eq hrnd]
    rfl
  rw [haudio] at hv
  exact ⟨v, (mem_collectFeatures hrnd directory v).2 ⟨path, hpath, k, hk, hv⟩, hlabel, hproba⟩

theorem listener_classifies_training_vector_oneWindow :
    ∃ es, ∃ s : Rolling ℚ ClassificationResult hearsSteady.windowSamples,
    execute (Rolling.next hearsSteady) (Rolling.new ..) es = some s ∧ ∃ r, (1, r) ∈ s.published ∧
      ∃ v ∈ collectFeatures oneWindow .speechOnly .exact 0, r.proba = (mostlyLow.predictProba v).toList := by
  obtain ⟨es, s, hrun, hdelivered, r, hpublished, -⟩ := exists_heard
  have hmem : (1, r) ∈ s.published := by simp [hpublished]
  have hheard : (s.delivered.take 1).flatten = (oneWindow.loadFile 0 sampleRate).take (0 * 6000 + 12000) := by
    rw [hdelivered, List.take_of_length_le (by simp), List.flatten_singleton, zero_mul, zero_add]
    exact take_steady.symm
  obtain ⟨v, hv, -, hproba⟩ := listener_classifies_training_vector exactIntegers_exact hrun hmem (mem_oneWindow 0)
    Libraries.length_steady.ge hheard
  exact ⟨es, s, hrun, r, hmem, v, hv, hproba⟩

end Bajiru.PitchMath
