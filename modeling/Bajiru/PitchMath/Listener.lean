import Bajiru.Numpy
import Bajiru.PitchMath.Features
import Bajiru.PitchMath.RollingOrder
import Mathlib.Algebra.Order.BigOperators.Group.List

/-!
# The listener and the monitor

`VoiceListener` classifies the rolling window with a fitted pipeline, `_AudioMonitor` measures it. Both are the object
of `Rolling` with their own analysis. `_poll` of the live app shows the newest result: its label, its confidence as a
bar and its measurements; whatever the threads do, there is a label for it, the bar has its width, and the speech that
it reports is a part of the window.
-/

namespace Bajiru.PitchMath

/-- A fitted classifier: the probabilities of its classes. -/
structure Pipeline where
  nClasses : Nat
  pos : 0 < nClasses
  predictProba : List ℚ → Vector ℚ nClasses

/-- `predict`: the first class with the largest probability. -/
def Pipeline.predict (clf : Pipeline) (features : List ℚ) : Fin clf.nClasses × Vector ℚ clf.nClasses :=
  (Numpy.argmaxFin clf.pos (clf.predictProba features), clf.predictProba features)

/-- `ClassificationResult`. -/
structure ClassificationResult where
  label : Nat
  proba : List ℚ
  pitchHz : ℚ
  elapsedMs : ℚ
  diagnostics : Option AudioDiagnostics

/-- The probability of the predicted class. -/
def ClassificationResult.confidence (r : ClassificationResult) : Option ℚ := r.proba[r.label]?

/-- `int(sample_rate * window_duration_ms / 1000)`. -/
def windowSamples (rnd : Python.Rounding) (sampleRate windowDurationMs : Nat) : Nat :=
  (Python.int (rnd.toFun ((sampleRate * windowDurationMs : Nat) / 1000))).toNat

/-- `int(self._sample_rate * 0.3)`. -/
def minSamples (rnd : Python.Rounding) (sampleRate : Nat) : Nat :=
  (Python.int (rnd.toFun (sampleRate * rnd.toFun (3 / 10)))).toNat

/-- The body of `_classify_loop`. -/
def classify (lib : Libraries) (clf : Pipeline) (sampleRate : Nat) (audio : List ℚ) (elapsedMs : ℚ) :
    Option ClassificationResult :=
  match lib.extractFeatures audio sampleRate vadThreshold nMfcc with
  | none => none
  | some features =>
    let (label, proba) := clf.predict features
    let diagnostics := lib.computeDiagnostics audio sampleRate vadThreshold
    some ⟨label, proba.toList, diagnostics.pitchHz, elapsedMs, some diagnostics⟩

/-- `VoiceListener`. -/
def voiceListener (lib : Libraries) (clf : Pipeline) (rnd : Python.Rounding) (sampleRate windowDurationMs : Nat) :
    Params ℚ ClassificationResult :=
  ⟨windowSamples rnd sampleRate windowDurationMs, minSamples rnd sampleRate, classify lib clf sampleRate⟩

/-- `_AudioMonitor`. -/
def audioMonitor (lib : Libraries) (rnd : Python.Rounding) (sampleRate windowDurationMs : Nat) (vadThreshold : ℚ) :
    Params ℚ AudioDiagnostics :=
  ⟨windowSamples rnd sampleRate windowDurationMs, minSamples rnd sampleRate,
    fun audio _ => some (lib.computeDiagnostics audio sampleRate vadThreshold)⟩

/-! ## The display -/

def labels (label : Nat) : Option String :=
  match label with
  | 0 => some "LOW VOICE"
  | 1 => some "HIGH VOICE"
  | _ => none

def barLen : Int := 20

/-- `"█" * filled + "░" * (barLen - filled)`: a text times a negative number is empty. -/
def blocks (filled : Int) : List Char :=
  List.replicate filled.toNat '█' ++ List.replicate (barLen - filled).toNat '░'

/-- `_confidence_bar`. -/
def confidenceBar (confidence : ℚ) : List Char := blocks (Python.round (confidence * barLen))

/-- `_bar`. -/
def bar (value maxValue : ℚ) : List Char := blocks (Python.round (min (value / maxValue) 1 * barLen))

/-- A frequency or a level that is not positive is shown as "N/A". -/
def measured (x : ℚ) : Option ℚ := if 0 < x then some x else none

def lowLevel : String := "[yellow]Low input level — check microphone or boost gain[/yellow]"

def noSpeech : String := "[yellow]No speech detected — try lowering VAD_THRESHOLD[/yellow]"

/-- `_hint`. -/
def hint (diag : AudioDiagnostics) : String :=
  if diag.rms < 2 / 1000 then lowLevel
  else if diag.speechRatio = 0 then noSpeech
  else if diag.speechRatio < 1 / 4 then "[yellow]Low speech coverage — consider lowering VAD_THRESHOLD[/yellow]"
  else if 9 / 10 < diag.speechRatio then "[yellow]High speech coverage — consider raising VAD_THRESHOLD[/yellow]"
  else if 0 < diag.hnrDb ∧ diag.hnrDb < 5 then "[yellow]Low HNR — background noise may be affecting results[/yellow]"
  else "[green]Signal looks clean[/green]"

/-- What the panel of the monitor shows. -/
structure DiagnosticsShown where
  speechBar : List Char
  speechPct : ℚ
  levelBar : List Char
  rms : ℚ
  pitch : Option ℚ
  f1 : Option ℚ
  f2 : Option ℚ
  hnr : Option ℚ
  hint : String

/-- `update_diagnostics`. -/
def updateDiagnostics (diag : AudioDiagnostics) : DiagnosticsShown where
  speechBar := bar diag.speechRatio 1
  speechPct := diag.speechRatio * 100
  levelBar := bar diag.rms (1 / 10)
  rms := diag.rms
  pitch := measured diag.pitchHz
  f1 := measured diag.f1Hz
  f2 := measured diag.f2Hz
  hnr := measured diag.hnrDb
  hint := hint diag

/-- What the two panels show, before the numbers are written out. -/
structure Shown where
  cssClass : String
  label : String
  bar : List Char
  confidencePct : ℚ
  pitch : Option ℚ
  detail : Option (Option ℚ × Option ℚ × Option ℚ × ℚ)
  lowPct : ℚ
  highPct : ℚ
  elapsedMs : ℚ

/-- `update_result` of both panels; a label without a name or a class without a probability raises. -/
def updateResult (r : ClassificationResult) : Option Shown := do
  let label ← labels r.label
  let confidence ← r.confidence
  let low ← r.proba[0]?
  let high ← r.proba[1]?
  return {
    cssClass := if r.label = 0 then "low" else "high"
    label := label
    bar := confidenceBar confidence
    confidencePct := confidence * 100
    pitch := measured r.pitchHz
    detail := r.diagnostics.map fun d => (measured d.f1Hz, measured d.f2Hz, measured d.hnrDb, d.speechRatio * 100)
    lowPct := low * 100
    highPct := high * 100
    elapsedMs := r.elapsedMs }

/-- `_poll`: nothing is shown before the first result. -/
def poll (latest : Option ClassificationResult) : Option (Option Shown) :=
  match latest with
  | none => some none
  | some r => (updateResult r).map some

/-! ## What is shown -/

section Shown

variable {lib : Libraries} {clf : Pipeline} {rnd : Python.Rounding} {rate windowMs : Nat} {audio : List ℚ}
  {elapsedMs : ℚ}
  {r : ClassificationResult}

/-- A result comes from speech in its window. -/
theorem classify_eq_some (h : classify lib clf rate audio elapsedMs = some r) :
    ∃ speech features, lib.filterSpeechFrames audio rate vadThreshold = some speech ∧
      lib.extractFeatures audio rate vadThreshold nMfcc = some features ∧
      r.label = (clf.predict features).1 ∧ r.proba = (clf.predictProba features).toList ∧
      r.diagnostics = some (lib.computeDiagnostics audio rate vadThreshold) := by
  unfold classify at h
  split at h
  · cases h
  · next features hfeatures =>
    obtain ⟨speech, -, -, hspeech, -⟩ := Libraries.extractFeatures_eq_some hfeatures
    obtain rfl := Option.some.inj h
    exact ⟨speech, features, hspeech, hfeatures, rfl, rfl, rfl⟩

/-- A bar of a part of its width keeps the width. -/
theorem length_blocks {filled : Int} (h0 : 0 ≤ filled) (h1 : filled ≤ barLen) : (blocks filled).length = 20 := by
  rw [blocks, List.length_append, List.length_replicate, List.length_replicate]
  unfold barLen at h1 ⊢
  omega

theorem count_blocks (filled : Int) : (blocks filled).count '█' = filled.toNat := by
  simp [blocks, List.count_replicate]

/-- A confidence of at least one half fills half of the bar. -/
theorem confidenceBar_spec {confidence : ℚ} (h0 : 1 / 2 ≤ confidence) (h1 : confidence ≤ 1) :
    (confidenceBar confidence).length = 20 ∧ 10 ≤ (confidenceBar confidence).count '█' := by
  obtain ⟨hlo, hhi⟩ := Python.round_mem (x := confidence * (barLen : ℚ)) (m := 10) (n := barLen)
    (by push_cast [barLen]; linarith) (by push_cast [barLen]; linarith)
  refine ⟨length_blocks (by omega) hhi, ?_⟩
  rw [confidenceBar, count_blocks]
  omega

/-- The probabilities of two classes, which is what a pipeline of two classes gives. -/
structure Binary (clf : Pipeline) : Prop where
  nClasses : clf.nClasses = 2
  nonneg : ∀ features, ∀ q ∈ (clf.predictProba features).toList, 0 ≤ q
  sum : ∀ features, (clf.predictProba features).toList.sum = 1

/-- The label of two classes is the more probable one, and the first of two equal ones. -/
theorem Binary.predict (h : Binary clf) (features : List ℚ) :
    ∃ low high, (clf.predictProba features).toList = [low, high] ∧ 0 ≤ low ∧ 0 ≤ high ∧ low + high = 1 ∧
      (((clf.predict features).1 : Nat) = if high ≤ low then 0 else 1) := by
  obtain ⟨nClasses, pos, predictProba⟩ := clf
  obtain rfl : nClasses = 2 := h.nClasses
  have hlen : (predictProba features).toList.length = 2 := Vector.length_toList
  obtain ⟨low, high, hproba⟩ := List.length_eq_two.1 hlen
  have hsum := h.sum features
  have hnonneg := h.nonneg features
  simp only [hproba, List.sum_cons, List.sum_nil, add_zero, List.forall_mem_cons] at hsum hnonneg
  refine ⟨low, high, hproba, hnonneg.1, hnonneg.2.1, hsum, ?_⟩
  have hlabel : Numpy.argmax (predictProba features).toList = some (Numpy.argmaxFin pos (predictProba features)).1 :=
    (Option.some_get _).symm
  rw [hproba] at hlabel
  show (Numpy.argmaxFin pos (predictProba features)).1 = _
  refine (Option.some.inj ?_).symm
  rw [← hlabel]
  simp only [Numpy.argmax, Numpy.firstMax]
  split <;> rfl

/-- The two panels, of two classes. -/
theorem updateResult_eq {low high : ℚ} (hproba : r.proba = [low, high])
    (hlabel : r.label = if high ≤ low then 0 else 1) :
    updateResult r = some {
      cssClass := if high ≤ low then "low" else "high"
      label := if high ≤ low then "LOW VOICE" else "HIGH VOICE"
      bar := confidenceBar (max low high)
      confidencePct := max low high * 100
      pitch := measured r.pitchHz
      detail := r.diagnostics.map fun d => (measured d.f1Hz, measured d.f2Hz, measured d.hnrDb, d.speechRatio * 100)
      lowPct := low * 100
      highPct := high * 100
      elapsedMs := r.elapsedMs } := by
  unfold updateResult ClassificationResult.confidence
  by_cases hle : high ≤ low
  · rw [if_pos hle] at hlabel
    simp [hlabel, hproba, labels, hle]
  · rw [if_neg hle] at hlabel
    simp [hlabel, hproba, labels, hle, le_of_not_ge hle]

/-- **What is shown.** Whatever the streams and the threads have done when `_poll` looks, it never raises: the label of
the newest result has a name, both of its classes have a probability, the label is the more probable of the two, the bar
keeps its 20 places and at least 10 of them are filled, and the speech is a part of the window and not nothing. -/
theorem poll_shown (lib : Libraries) (clf : Pipeline) (rnd : Python.Rounding) (rate windowMs : Nat)
    (hlib : lib.Segmented)
    (hclf : Binary clf) (hrate : 0 < rate) {es : List (Event ℚ)}
    {s : Rolling ℚ ClassificationResult (voiceListener lib clf rnd rate windowMs).windowSamples}
    (h : execute (Rolling.next (voiceListener lib clf rnd rate windowMs)) (Rolling.new ..) es = some s) :
    ∃ shown, poll s.latest = some shown ∧ (shown = none ↔ s.latest = none) ∧ ∀ d, shown = some d →
      (d.label = if d.highPct ≤ d.lowPct then "LOW VOICE" else "HIGH VOICE") ∧
      (d.cssClass = if d.highPct ≤ d.lowPct then "low" else "high") ∧
      d.lowPct + d.highPct = 100 ∧ d.confidencePct = max d.lowPct d.highPct ∧
      d.bar.length = 20 ∧ 10 ≤ d.bar.count '█' ∧
      ∃ f1 f2 hnr speechPct, d.detail = some (f1, f2, hnr, speechPct) ∧ 0 < speechPct ∧ speechPct ≤ 100 := by
  cases hlatest : s.latest with
  | none => exact ⟨none, rfl, by simp, by simp⟩
  | some r =>
    obtain ⟨m, audio, elapsedMs, -, -, -, hr⟩ := Rolling.exists_window h hlatest
    obtain ⟨speech, features, hspeech, -, hlabel, hproba, hdiag⟩ := classify_eq_some hr
    obtain ⟨low, high, hboth, hlow, hhigh, hsum, hpredict⟩ := hclf.predict features
    obtain ⟨hpos, hle⟩ := Libraries.speechRatio_mem hlib hrate hspeech
    rw [hpredict] at hlabel
    rw [hboth] at hproba
    have hmax : 1 / 2 ≤ max low high := by
      by_contra hlt
      obtain ⟨hl, hh⟩ := max_lt_iff.1 (not_le.1 hlt)
      linarith
    obtain ⟨hlen, hcount⟩ := confidenceBar_spec hmax (max_le (by linarith) (by linarith))
    refine ⟨_, congrArg (Option.map some) (updateResult_eq hproba hlabel), by simp, ?_⟩
    rintro d ⟨rfl⟩
    have hpct : high * 100 ≤ low * 100 ↔ high ≤ low := mul_le_mul_iff_left₀ (by norm_num)
    simp only [hpct, true_and]
    refine ⟨by linarith, max_mul_of_nonneg _ _ (by norm_num), hlen, hcount, _, _, _, _, by rw [hdiag]; rfl, ?_, ?_⟩
    · linarith
    · linarith

/-- A bar of something that is not negative keeps its width. -/
theorem length_bar {value maxValue : ℚ} (h0 : 0 ≤ value) (h1 : 0 < maxValue) : (bar value maxValue).length = 20 := by
  have hmin : 0 ≤ min (value / maxValue) 1 := le_min (div_nonneg h0 h1.le) zero_le_one
  have hle : min (value / maxValue) 1 ≤ 1 := min_le_right _ _
  obtain ⟨hlo, hhi⟩ := Python.round_mem (x := min (value / maxValue) 1 * (barLen : ℚ)) (m := 0) (n := barLen)
    (by push_cast [barLen]; linarith) (by push_cast [barLen]; linarith)
  exact length_blocks hlo hhi

/-- The level is not negative. -/
theorem rms_nonneg (hsqrt : ∀ x, 0 ≤ x → 0 ≤ lib.sqrt x) (audio : List ℚ) : 0 ≤ lib.rms audio := by
  refine hsqrt _ (div_nonneg (List.sum_nonneg fun y hy => ?_) (Nat.cast_nonneg _))
  obtain ⟨x, -, rfl⟩ := List.mem_map.1 hy
  exact sq_nonneg x

/-- The diagnostics, by what the detector has found. -/
theorem computeDiagnostics_short (hlib : lib.Segmented) (hrate : 0 < rate) {threshold : ℚ}
    (h : (lib.detected audio rate threshold : ℚ) < rate * (15 / 100)) :
    lib.computeDiagnostics audio rate threshold = ⟨0, 0, 0, 0, 0, lib.rms audio⟩ := by
  rw [Libraries.computeDiagnostics, (Libraries.filterSpeechFrames_eq_none hlib hrate).2 h]

theorem computeDiagnostics_long (hlib : lib.Segmented) (hrate : 0 < rate) {threshold : ℚ}
    (h : rate * (15 / 100) ≤ (lib.detected audio rate threshold : ℚ)) :
    (lib.computeDiagnostics audio rate threshold).rms = lib.rms audio ∧
      (lib.computeDiagnostics audio rate threshold).speechRatio =
        lib.detected audio rate threshold / (audio.length : ℚ) ∧
      0 < (lib.computeDiagnostics audio rate threshold).speechRatio ∧
      (lib.computeDiagnostics audio rate threshold).speechRatio ≤ 1 := by
  obtain ⟨speech, hspeech⟩ : ∃ speech, lib.filterSpeechFrames audio rate threshold = some speech :=
    Option.ne_none_iff_exists'.1 fun hnone =>
      absurd ((Libraries.filterSpeechFrames_eq_none hlib hrate).1 hnone) (not_lt.2 h)
  obtain ⟨hpos, hle⟩ := Libraries.filterSpeechFrames_length hlib hrate hspeech
  refine ⟨?_, ?_, Libraries.speechRatio_mem hlib hrate hspeech⟩
  · simp only [Libraries.computeDiagnostics, hspeech]
  · simp only [Libraries.computeDiagnostics, hspeech, Libraries.length_filterSpeechFrames hlib hspeech]
    rw [Nat.max_eq_left (by omega)]

/-- The two first hints, by the level and the speech. -/
theorem hint_eq_lowLevel (diag : AudioDiagnostics) : hint diag = lowLevel ↔ diag.rms < 2 / 1000 := by
  unfold hint
  split_ifs <;> simp_all [lowLevel, noSpeech]

theorem hint_eq_noSpeech (diag : AudioDiagnostics) :
    hint diag = noSpeech ↔ 2 / 1000 ≤ diag.rms ∧ diag.speechRatio = 0 := by
  unfold hint
  split_ifs <;> simp_all [lowLevel, noSpeech]

/-- **What the monitor shows.** Both bars keep their 20 places, and there is a window of whole blocks that all of it is
about. Where the voice detector has found less than 150 ms in the window, no speech and no measurement is shown;
otherwise the speech is the share of what it has found. The hint is the one on the level exactly if the level is below
0.002, and the one that there is no speech exactly if it is not and less than 150 ms were found. -/
theorem monitor_shown (lib : Libraries) (rnd : Python.Rounding) (rate windowMs : Nat) (threshold : ℚ)
    (hlib : lib.Segmented) (hsqrt : ∀ x, 0 ≤ x → 0 ≤ lib.sqrt x) (hrate : 0 < rate) {es : List (Event ℚ)}
    {s : Rolling ℚ AudioDiagnostics (audioMonitor lib rnd rate windowMs threshold).windowSamples}
    (h : execute (Rolling.next (audioMonitor lib rnd rate windowMs threshold)) (Rolling.new ..) es = some s)
    {diag : AudioDiagnostics} (hlatest : s.latest = some diag) {d : DiagnosticsShown}
    (hd : updateDiagnostics diag = d) :
    d.speechBar.length = 20 ∧ d.levelBar.length = 20 ∧ 0 ≤ d.speechPct ∧ d.speechPct ≤ 100 ∧
      ∃ m audio, audio = (s.delivered.take m).flatten.rtake
          (audioMonitor lib rnd rate windowMs threshold).windowSamples ∧
        ((lib.detected audio rate threshold : ℚ) < rate * (15 / 100) →
          d.speechPct = 0 ∧ d.pitch = none ∧ d.f1 = none ∧ d.f2 = none ∧ d.hnr = none) ∧
        (rate * (15 / 100) ≤ (lib.detected audio rate threshold : ℚ) →
          d.speechPct = lib.detected audio rate threshold / (audio.length : ℚ) * 100) ∧
        (d.hint = lowLevel ↔ lib.rms audio < 2 / 1000) ∧
        (d.hint = noSpeech ↔
          2 / 1000 ≤ lib.rms audio ∧ (lib.detected audio rate threshold : ℚ) < rate * (15 / 100)) := by
  obtain ⟨m, audio, elapsedMs, -, haudio, -, hdiag⟩ := Rolling.exists_window h hlatest
  obtain rfl : lib.computeDiagnostics audio rate threshold = diag := Option.some.inj hdiag
  subst hd
  have hlevel := rms_nonneg hsqrt audio
  simp only [updateDiagnostics, hint_eq_lowLevel, hint_eq_noSpeech]
  obtain hshort | hlong := lt_or_ge (lib.detected audio rate threshold : ℚ) (rate * (15 / 100))
  · rw [computeDiagnostics_short hlib hrate hshort]
    refine ⟨length_bar le_rfl one_pos, length_bar hlevel (by norm_num), by norm_num, by norm_num, m, audio, haudio,
      fun _ => ⟨zero_mul _, rfl, rfl, rfl, rfl⟩, fun hlong => absurd hshort (not_lt.2 hlong), Iff.rfl, ?_⟩
    simp [hshort]
  · obtain ⟨hrms, hratio, hpos, hle⟩ := computeDiagnostics_long hlib hrate hlong
    rw [hrms]
    refine ⟨length_bar hpos.le one_pos, length_bar hlevel (by norm_num), by linarith, by linarith, m, audio, haudio,
      fun hshort => absurd hshort (not_lt.2 hlong), fun _ => by rw [hratio], Iff.rfl, ?_⟩
    simp [hpos.ne', hlong]

/-! ## A listener -/

/-- The integers up to 2^53 are floats. -/
def ExactIntegers (rnd : Python.Rounding) : Prop := ∀ n : Nat, n ≤ 2 ^ 53 → rnd.toFun n = n

theorem exactIntegers_exact : ExactIntegers .exact := fun _ _ => rfl

/-- The listener has a window of 12000 samples. -/
theorem windowSamples_eq (hrnd : ExactIntegers rnd) : windowSamples rnd sampleRate windowDurationMs = 12000 := by
  have hquot : (((sampleRate * windowDurationMs : Nat) : ℚ) / 1000) = ((12000 : Nat) : ℚ) := by
    norm_num [sampleRate, windowDurationMs]
  rw [windowSamples, hquot, hrnd _ (by norm_num), ← Int.cast_natCast, Python.int_intCast, Int.toNat_natCast]

/-- A classifier that is three to one for the low voice. -/
def mostlyLow : Pipeline := ⟨2, Nat.zero_lt_two, fun _ => #v[3 / 4, 1 / 4]⟩

theorem binary_mostlyLow : Binary mostlyLow where
  nClasses := rfl
  nonneg features := by
    show ∀ q ∈ [(3 / 4 : ℚ), 1 / 4], 0 ≤ q
    norm_num
  sum features := by
    show [(3 / 4 : ℚ), 1 / 4].sum = 1
    norm_num

/-- A listener and a monitor at 16000 Hz. -/
def hearsSteady : Params ℚ ClassificationResult :=
  voiceListener .speechOnly mostlyLow .exact sampleRate windowDurationMs

def measuresSteady : Params ℚ AudioDiagnostics :=
  audioMonitor .speechOnly .exact sampleRate windowDurationMs vadThreshold

theorem rtake_steady : Libraries.steady.rtake (windowSamples .exact sampleRate windowDurationMs) = Libraries.steady :=
  rtake_of_length_le (Libraries.length_steady.le.trans (windowSamples_eq exactIntegers_exact).ge)

theorem minSamples_le_steady : minSamples .exact sampleRate ≤ Libraries.steady.length := by
  rw [Libraries.length_steady]
  decide +kernel

/-- They hear one window. -/
theorem exists_heard : ∃ es, ∃ s : Rolling ℚ ClassificationResult hearsSteady.windowSamples,
    execute (Rolling.next hearsSteady) (Rolling.new ..) es = some s ∧ s.delivered = [Libraries.steady] ∧
      ∃ r, s.published = [(1, r)] ∧ s.latest = some r := by
  obtain ⟨v, hv⟩ := Libraries.extractFeatures_steady
  obtain ⟨result, hresult⟩ : ∃ result, hearsSteady.analyse Libraries.steady 0 = some result := by
    have hanalyse : hearsSteady.analyse = classify .speechOnly mostlyLow sampleRate := rfl
    unfold classify at hanalyse
    simp only [hanalyse, hv]
    exact ⟨_, rfl⟩
  obtain ⟨es, s, hrun, hpublished, hdelivered⟩ := Rolling.exists_session (p := hearsSteady)
    (rtake_steady.symm ▸ minSamples_le_steady) (rtake_steady.symm ▸ hresult)
  refine ⟨es, s, hrun, hdelivered, result, hpublished, ?_⟩
  rw [(Rolling.inv_execute hrun).newest, hpublished]
  rfl

theorem exists_measured : ∃ es, ∃ s : Rolling ℚ AudioDiagnostics measuresSteady.windowSamples,
    execute (Rolling.next measuresSteady) (Rolling.new ..) es = some s ∧ s.delivered = [Libraries.steady] ∧
      s.latest = some (Libraries.speechOnly.computeDiagnostics Libraries.steady sampleRate vadThreshold) := by
  obtain ⟨result, hresult⟩ : ∃ result, measuresSteady.analyse Libraries.steady 0 = some result ∧
      result = Libraries.speechOnly.computeDiagnostics Libraries.steady sampleRate vadThreshold := ⟨_, rfl, rfl⟩
  obtain ⟨es, s, hrun, hpublished, hdelivered⟩ := Rolling.exists_session (p := measuresSteady)
    (rtake_steady.symm ▸ minSamples_le_steady) (rtake_steady.symm ▸ hresult.1)
  refine ⟨es, s, hrun, hdelivered, ?_⟩
  rw [(Rolling.inv_execute hrun).newest, hpublished]
  exact congrArg some hresult.2

theorem poll_shown_steady : ∃ es, ∃ s : Rolling ℚ ClassificationResult hearsSteady.windowSamples,
    execute (Rolling.next hearsSteady) (Rolling.new ..) es = some s ∧
      ∃ d, poll s.latest = some (some d) ∧ d.bar.length = 20 ∧ 10 ≤ d.bar.count '█' := by
  obtain ⟨es, s, hs, -, r, -, hlatest⟩ := exists_heard
  obtain ⟨shown, hshown, hnone, hd⟩ := poll_shown .speechOnly mostlyLow .exact sampleRate windowDurationMs
    Libraries.segmented_speechOnly binary_mostlyLow (by simp [sampleRate]) hs
  have hsome : s.latest ≠ none := by simp [hlatest]
  obtain ⟨d, rfl⟩ := Option.ne_none_iff_exists'.1 (fun h => hsome (hnone.1 h))
  obtain ⟨-, -, -, -, hlen, hcount, -⟩ := hd d rfl
  exact ⟨es, s, hs, d, hshown, hlen, hcount⟩

theorem monitor_shown_steady : ∃ es, ∃ s : Rolling ℚ AudioDiagnostics measuresSteady.windowSamples,
    execute (Rolling.next measuresSteady) (Rolling.new ..) es = some s ∧ ∃ diag, s.latest = some diag ∧
      (updateDiagnostics diag).speechBar.length = 20 ∧ (updateDiagnostics diag).levelBar.length = 20 := by
  obtain ⟨es, s, hs, -, hlatest⟩ := exists_measured
  have hsqrt : ∀ x, 0 ≤ x → 0 ≤ Libraries.speechOnly.sqrt x := fun x _ => by
    simp only [Libraries.speechOnly]
    positivity
  obtain ⟨hspeech, hlevel, -⟩ := monitor_shown .speechOnly .exact sampleRate windowDurationMs vadThreshold
    Libraries.segmented_speechOnly hsqrt (by simp [sampleRate]) hs hlatest rfl
  exact ⟨es, s, hs, _, hlatest, hspeech, hlevel⟩

end Shown

end Bajiru.PitchMath
