import Mathlib.Algebra.Order.Field.Rat
import Mathlib.Tactic.NormNum
import Bajiru.Linkjiru.CapturePath

/-!
# `LinkjiruProcessor`

The processor as its host and its editor drive it: the parameter "Analysis Active" with its deferred reconcile, the
lifecycle of the analysis thread, and the audio callback that feeds the host ring. A call is one step. `float`s and
sample rates are exact; the bundled samples, the interpolator and the outcome of loading the ORT runtime are those of
`Env`.
-/

namespace Bajiru.Linkjiru

/-- `AnalysisThread::Config`. -/
structure AnalysisConfig where
  pollIntervalMs : Nat := 16
  hostSampleRate : ℚ := 48000
  vtsHost : String := "localhost"
  vtsPort : String := "8001"

/-- An `AnalysisThread` as the processor builds it: `hostSampleRate` is the rate that its resampler was prepared for. -/
structure AnalysisThread where
  config : AnalysisConfig
  hostSampleRate : ℚ
  hostCursor : UInt64

/-- The constructor: `resampler.prepare(cfg.hostSampleRate)`, and the cursor starts at "now". -/
def AnalysisThread.new (hostRing : SharedRingBuffer ℚ ringBufferCapacity) (cfg : AnalysisConfig) : AnalysisThread :=
  ⟨cfg, cfg.hostSampleRate, hostRing.getWriteCount⟩

/-- `juce::AudioBuffer<float>`. -/
structure AudioBuffer where
  numChannels : Nat
  numSamples : Nat
  data : Nat → Mem ℚ

/-- What the processor uses of other code: the bundled samples at the model rate, `juce::LagrangeInterpolator` (its state
after `reset`, and `process` with the samples it has consumed, its output and its state), and whether the ORT runtime
loads. -/
structure Env (I : Type*) where
  baji : List ℚ
  ru : List ℚ
  interpReset : I
  interp : I → (speedRatio : ℚ) → (input : List ℚ) → (numOut available : Nat) → Nat × Mem ℚ × I
  prepareOrtRuntime : Bool

structure LinkjiruProcessor (I : Type*) where
  hostRing : SharedRingBuffer ℚ ringBufferCapacity
  analysisRunning : Bool
  analysisThread : Option AnalysisThread
  /-- the value of the parameter; `get()` rounds it -/
  analysisParam : ℚ
  restartPending : Bool
  /-- the update that `triggerAsyncUpdate` has posted -/
  updatePending : Bool
  ortRuntimeInitialized : Bool
  ortRuntimeReady : Bool
  currentSampleRate : ℚ
  samplePlaying : Int
  currentlyPlaying : Int
  samplePos : Nat
  playbackInterp : I

namespace LinkjiruProcessor

variable {I : Type*} (env : Env I)

def new : LinkjiruProcessor I where
  hostRing := SharedRingBuffer.new ℚ ringBufferCapacity
  analysisRunning := false
  analysisThread := none
  analysisParam := 0
  restartPending := false
  updatePending := false
  ortRuntimeInitialized := false
  ortRuntimeReady := false
  currentSampleRate := 44100
  samplePlaying := -1
  currentlyPlaying := -1
  samplePos := 0
  playbackInterp := env.interpReset

/-! ## The parameter and the thread -/

def isAnalysisRunning (s : LinkjiruProcessor I) : Bool := s.analysisRunning

/-- `analysisParam->get()`. -/
def active (s : LinkjiruProcessor I) : Bool := s.analysisParam ≥ 1 / 2

def triggerAsyncUpdate (s : LinkjiruProcessor I) : LinkjiruProcessor I := { s with updatePending := true }

def parameterValueChanged (s : LinkjiruProcessor I) : LinkjiruProcessor I := s.triggerAsyncUpdate

/-- `analysisParam->setValueNotifyingHost(value)`: the listener is called whatever the old value was. -/
def setValueNotifyingHost (s : LinkjiruProcessor I) (value : ℚ) : LinkjiruProcessor I :=
  parameterValueChanged { s with analysisParam := value }

/-- The first start loads the runtime. -/
def loadOrt (s : LinkjiruProcessor I) : LinkjiruProcessor I :=
  if s.ortRuntimeInitialized then s
  else { s with ortRuntimeReady := env.prepareOrtRuntime, ortRuntimeInitialized := true }

/-- `startAnalysis()`. -/
def startAnalysis (s : LinkjiruProcessor I) : LinkjiruProcessor I :=
  if s.analysisRunning then s
  else
    let s := loadOrt env { s with analysisRunning := true }
    if s.ortRuntimeReady then
      { s with analysisThread := some (AnalysisThread.new s.hostRing { hostSampleRate := s.currentSampleRate }) }
    else { s with analysisRunning := false }

def stopAnalysis (s : LinkjiruProcessor I) : LinkjiruProcessor I :=
  { s with analysisThread := none, analysisRunning := false }

def restartAnalysis (s : LinkjiruProcessor I) : LinkjiruProcessor I := s.stopAnalysis.startAnalysis env

def setAnalysisActive (s : LinkjiruProcessor I) (active : Bool) : LinkjiruProcessor I :=
  s.setValueNotifyingHost (if active then 1 else 0)

def requestRestart (s : LinkjiruProcessor I) : LinkjiruProcessor I :=
  triggerAsyncUpdate { s with restartPending := true }

/-- `handleAsyncUpdate()`, once the pending update was taken. -/
def handleAsyncUpdate (s : LinkjiruProcessor I) : LinkjiruProcessor I :=
  if s.restartPending then
    let s := stopAnalysis { s with restartPending := false }
    if s.active then s.startAnalysis env else s
  else if s.active ∧ !s.isAnalysisRunning then s.startAnalysis env
  else if !s.active ∧ s.isAnalysisRunning then s.stopAnalysis
  else s

def prepareToPlay (s : LinkjiruProcessor I) (sampleRate : ℚ) : LinkjiruProcessor I :=
  { s with currentSampleRate := sampleRate }

def releaseResources (s : LinkjiruProcessor I) : LinkjiruProcessor I :=
  { s with analysisThread := none, analysisRunning := false }

/-- `getStateInformation(destData)`. -/
def getStateInformation (s : LinkjiruProcessor I) : List UInt8 := [if s.active then 1 else 0]

/-- `setStateInformation(data, sizeInBytes)`; a null pointer is `none`. -/
def setStateInformation (s : LinkjiruProcessor I) (data : Option (List UInt8)) : LinkjiruProcessor I :=
  match data with
  | some (byte :: _) => s.setValueNotifyingHost (if byte ≠ 0 then 1 else 0)
  | _ => s

/-! ## The audio callback -/

/-- `playSample(which)`. -/
def playSample (s : LinkjiruProcessor I) (which : Int) : LinkjiruProcessor I :=
  { s with samplePlaying := if which = 0 ∨ which = 1 then which else -1 }

/-- A new command resets the read position. -/
def pickUpCommand (s : LinkjiruProcessor I) : LinkjiruProcessor I :=
  if s.samplePlaying ≠ s.currentlyPlaying then
    { s with currentlyPlaying := s.samplePlaying, samplePos := 0, playbackInterp := env.interpReset }
  else s

/-- The read position moves on; past the end the playback stops. -/
def advanceSample (s : LinkjiruProcessor I) (consumed len : Nat) : LinkjiruProcessor I :=
  if s.samplePos + consumed ≥ len then
    { s with samplePlaying := -1, currentlyPlaying := -1, samplePos := 0, playbackInterp := env.interpReset }
  else { s with samplePos := s.samplePos + consumed }

/-- `streamTestSample(buffer, numSamples, numChannels)`. -/
def streamTestSample (s : LinkjiruProcessor I) (buffer : AudioBuffer) : LinkjiruProcessor I × AudioBuffer :=
  let src := if s.currentlyPlaying = 0 then env.baji else env.ru
  let len := src.length
  let outN := min buffer.numSamples maxAudioBlockSamples
  if s.currentSampleRate = modelSampleRate then
    let out : Mem ℚ := fun i => src.getD (s.samplePos + i) 0
    let consumed := buffer.numSamples
    let count := min consumed (len - s.samplePos)
    let s :=
      if s.analysisRunning ∧ count > 0 then { s with hostRing := s.hostRing.write ((src.drop s.samplePos).take count) }
      else s
    (s.advanceSample env consumed len, { buffer with data := fun _ => out })
  else
    let (consumed, out, playbackInterp) := env.interp s.playbackInterp (modelSampleRate / s.currentSampleRate)
      (src.drop s.samplePos) outN (len - s.samplePos)
    let s := { s with playbackInterp := playbackInterp }
    let s :=
      if s.analysisRunning ∧ outN > 0 then { s with hostRing := s.hostRing.write ((List.range outN).map out) } else s
    (s.advanceSample env consumed len, { buffer with data := fun _ i => if i < outN then out i else 0 })

/-- The mono mix of a block. -/
def downmix (buffer : AudioBuffer) (n : Nat) : List ℚ :=
  (List.range n).map fun i => ((List.range buffer.numChannels).map fun ch => buffer.data ch i).sum / buffer.numChannels

/-- `processBlock(buffer)`. -/
def processBlock (s : LinkjiruProcessor I) (buffer : AudioBuffer) : LinkjiruProcessor I × AudioBuffer :=
  if buffer.numChannels = 0 ∨ buffer.numSamples = 0 then (s, buffer)
  else
    let s := s.pickUpCommand env
    if s.currentlyPlaying ≥ 0 then s.streamTestSample env buffer
    else if s.analysisRunning then
      ({ s with hostRing := s.hostRing.write (downmix buffer (min buffer.numSamples maxAudioBlockSamples)) }, buffer)
    else (s, buffer)

end LinkjiruProcessor

/-! ## The calls of the host and the editor -/

/-- A call of the host or the editor, a change of the parameter by automation, or the message thread's run of a pending
update. -/
inductive HostEvent
  | setAnalysisActive (active : Bool)
  | automation (value : ℚ)
  | setStateInformation (data : Option (List UInt8))
  | requestRestart
  | handleAsyncUpdate
  | prepareToPlay (sampleRate : ℚ)
  | releaseResources
  | playSample (which : Int)
  | processBlock (buffer : AudioBuffer)

namespace LinkjiruProcessor

variable {I : Type*} (env : Env I)

/-- One call. -/
def next (s : LinkjiruProcessor I) : HostEvent → Option (LinkjiruProcessor I)
  | .setAnalysisActive active => some (s.setAnalysisActive active)
  | .automation value => some (s.setValueNotifyingHost value)
  | .setStateInformation data => some (s.setStateInformation data)
  | .requestRestart => some s.requestRestart
  | .handleAsyncUpdate =>
    if s.updatePending then some (handleAsyncUpdate env { s with updatePending := false }) else none
  | .prepareToPlay sampleRate => some (s.prepareToPlay sampleRate)
  | .releaseResources => some s.releaseResources
  | .playSample which => some (s.playSample which)
  | .processBlock buffer => some (s.processBlock env buffer).1

variable {env} {s : LinkjiruProcessor I}

/-! ## What the audio callback leaves alone -/

/-- The processor has the same parameter, thread and rate; the host ring and the playback may differ. -/
structure SameLifecycle (s t : LinkjiruProcessor I) : Prop where
  analysisRunning : t.analysisRunning = s.analysisRunning
  analysisThread : t.analysisThread = s.analysisThread
  analysisParam : t.analysisParam = s.analysisParam
  restartPending : t.restartPending = s.restartPending
  updatePending : t.updatePending = s.updatePending
  ortRuntimeInitialized : t.ortRuntimeInitialized = s.ortRuntimeInitialized
  ortRuntimeReady : t.ortRuntimeReady = s.ortRuntimeReady
  currentSampleRate : t.currentSampleRate = s.currentSampleRate

theorem SameLifecycle.refl (s : LinkjiruProcessor I) : SameLifecycle s s := ⟨rfl, rfl, rfl, rfl, rfl, rfl, rfl, rfl⟩

theorem SameLifecycle.trans {s t u : LinkjiruProcessor I} (h : SameLifecycle s t) (h' : SameLifecycle t u) :
    SameLifecycle s u where
  analysisRunning := h'.analysisRunning.trans h.analysisRunning
  analysisThread := h'.analysisThread.trans h.analysisThread
  analysisParam := h'.analysisParam.trans h.analysisParam
  restartPending := h'.restartPending.trans h.restartPending
  updatePending := h'.updatePending.trans h.updatePending
  ortRuntimeInitialized := h'.ortRuntimeInitialized.trans h.ortRuntimeInitialized
  ortRuntimeReady := h'.ortRuntimeReady.trans h.ortRuntimeReady
  currentSampleRate := h'.currentSampleRate.trans h.currentSampleRate

theorem sameLifecycle_hostRing (s : LinkjiruProcessor I) (hostRing : SharedRingBuffer ℚ ringBufferCapacity) :
    SameLifecycle s { s with hostRing := hostRing } := ⟨rfl, rfl, rfl, rfl, rfl, rfl, rfl, rfl⟩

theorem sameLifecycle_pickUpCommand : SameLifecycle s (s.pickUpCommand env) := by
  unfold pickUpCommand
  split
  · exact ⟨rfl, rfl, rfl, rfl, rfl, rfl, rfl, rfl⟩
  · exact SameLifecycle.refl s

theorem sameLifecycle_advanceSample (consumed len : Nat) : SameLifecycle s (s.advanceSample env consumed len) := by
  unfold advanceSample
  split
  · exact ⟨rfl, rfl, rfl, rfl, rfl, rfl, rfl, rfl⟩
  · exact ⟨rfl, rfl, rfl, rfl, rfl, rfl, rfl, rfl⟩

theorem sameLifecycle_streamTestSample (buffer : AudioBuffer) :
    SameLifecycle s (s.streamTestSample env buffer).1 := by
  unfold streamTestSample
  dsimp only
  generalize (if s.currentlyPlaying = 0 then env.baji else env.ru) = src
  split
  · split
    · exact (sameLifecycle_hostRing s _).trans (sameLifecycle_advanceSample _ _)
    · exact sameLifecycle_advanceSample _ _
  · split
    · refine SameLifecycle.trans ?_ (sameLifecycle_advanceSample _ _)
      exact ⟨rfl, rfl, rfl, rfl, rfl, rfl, rfl, rfl⟩
    · refine SameLifecycle.trans ?_ (sameLifecycle_advanceSample _ _)
      exact ⟨rfl, rfl, rfl, rfl, rfl, rfl, rfl, rfl⟩

/-- The audio callback does not touch the parameter, the thread or the rate. -/
theorem sameLifecycle_processBlock (buffer : AudioBuffer) : SameLifecycle s (s.processBlock env buffer).1 := by
  unfold processBlock
  split
  · exact SameLifecycle.refl s
  · dsimp only
    split
    · exact sameLifecycle_pickUpCommand.trans (sameLifecycle_streamTestSample buffer)
    · split
      · exact sameLifecycle_pickUpCommand.trans (sameLifecycle_hostRing _ _)
      · exact sameLifecycle_pickUpCommand

/-! ## What a start does -/

/-- A running processor is not started again. -/
theorem startAnalysis_running (h : s.analysisRunning = true) : s.startAnalysis env = s := if_pos h

/-- A start of a runtime that loads builds the thread at the current rate. -/
theorem startAnalysis_started (hort : env.prepareOrtRuntime = true)
    (hload : s.ortRuntimeInitialized = true → s.ortRuntimeReady = true) (h : s.analysisRunning = false) :
    s.startAnalysis env = { s with
      analysisRunning := true
      analysisThread := some (AnalysisThread.new s.hostRing { hostSampleRate := s.currentSampleRate })
      ortRuntimeReady := true
      ortRuntimeInitialized := true } := by
  unfold startAnalysis loadOrt
  rw [if_neg (by simp [h])]
  by_cases hinit : s.ortRuntimeInitialized = true
  · simp [hinit, hload hinit]
  · simp [hinit, hort]

variable (env s) in
/-- A start leaves the parameter, the pending calls and the rate alone; a thread that it builds has the current rate. -/
theorem startAnalysis_frame : ∃ analysisRunning analysisThread ortRuntimeInitialized ortRuntimeReady,
    s.startAnalysis env = { s with
      analysisRunning := analysisRunning
      analysisThread := analysisThread
      ortRuntimeInitialized := ortRuntimeInitialized
      ortRuntimeReady := ortRuntimeReady } ∧
    (analysisThread = s.analysisThread ∨ analysisThread =
      some (AnalysisThread.new s.hostRing { hostSampleRate := s.currentSampleRate })) := by
  unfold startAnalysis
  split
  · exact ⟨_, _, _, _, rfl, .inl rfl⟩
  · unfold loadOrt
    dsimp only
    split <;> split
    · exact ⟨_, _, _, _, rfl, .inr rfl⟩
    · exact ⟨_, _, _, _, rfl, .inl rfl⟩
    · exact ⟨_, _, _, _, rfl, .inr rfl⟩
    · exact ⟨_, _, _, _, rfl, .inl rfl⟩

/-- The saved state restores the parameter. -/
theorem active_setStateInformation (t : LinkjiruProcessor I) :
    (t.setStateInformation (some s.getStateInformation)).active = s.active := by
  unfold getStateInformation setStateInformation setValueNotifyingHost parameterValueChanged triggerAsyncUpdate
  cases h : s.active with
  | true =>
    show decide ((1 : ℚ) ≥ 1 / 2) = true
    norm_num
  | false =>
    show decide ((0 : ℚ) ≥ 1 / 2) = false
    norm_num

end LinkjiruProcessor

end Bajiru.Linkjiru
