import Bajiru.Linkjiru.CadenceGate
import Bajiru.Linkjiru.ScorePath

/-!
# The loop of `AnalysisThread::run`

A tick of the loop without the VTS client, which it meets in one call: the resampled audio goes to the model ring, the
newest window is read, the silence gate answers, scores are harvested, the cadence gate is polled, a window is kicked or
dropped, and the value for VTube Studio is computed and passes the send gate.

The environment of a tick (`TickInput`) is its clock, the audio, the level of the window, and what the loads of the
runner return.
-/

namespace Bajiru.Linkjiru

/-- What a tick reads: the clock, the blocks that the resampler returns, the level of the window, the harvested scores,
the loads of `isReady` and `inFlight` (twice), and that of `failed`. -/
structure TickInput (α : Type*) where
  now : Int
  blocks : List (List α)
  windowRms : ℚ
  harvest : Option (Nat → ℚ)
  ready : Bool
  inFlight : Bool
  stillInFlight : Bool
  failed : Bool

/-- What a tick does: the poll of the cadence gate, the window that it kicks, and the value that it sets. -/
structure TickOutput (α : Type*) where
  polled : Option (UInt64 × CadenceGate.Decision)
  kicked : Option (List α)
  sent : Option ℚ

/-- The fields of `AnalysisThread` and the locals of `run` that the loop uses. -/
structure AnalysisLoop (α : Type*) where
  modelReadyFlag : Bool
  modelBuffer : SharedRingBuffer α ringBufferCapacity
  windowBuf : Mem α
  cadenceGate : CadenceGate
  silenceGate : GatingLogic
  scorePath : ScorePath
  latchedSpeaker : Int
  detectValue : ℚ
  droppedWindows : UInt64

/-- The default of `maxRetries`. -/
def maxRetries : Nat := 4

namespace AnalysisLoop

variable {α : Type*}

/-- Before the first tick. -/
def start (α : Type*) [Zero α] (modelReadyFlag : Bool) : AnalysisLoop α where
  modelReadyFlag := modelReadyFlag
  modelBuffer := .new α ringBufferCapacity
  windowBuf := fun _ => 0
  cadenceGate := { windowSamples := modelWindowSamples, hopSamples := modelHopSamples, requireFullWindow := true }
  silenceGate := {}
  scorePath := .shipped
  latchedSpeaker := -1
  detectValue := 0
  droppedWindows := 0

/-- The samples that `kick` takes from `windowBuf`. -/
def windowSamples (windowBuf : Mem α) : List α := (List.range modelWindowSamples).map windowBuf

/-- `resampleHostInput()`, which appends to the model ring what the resampler returns. -/
def resampleHostInput (s : AnalysisLoop α) (blocks : List (List α)) : AnalysisLoop α :=
  { s with modelBuffer := blocks.foldl SharedRingBuffer.write s.modelBuffer }

/-- `tryHarvest` and what is done with the scores. -/
def tryHarvest (s : AnalysisLoop α) (harvest : Option (Nat → ℚ)) : AnalysisLoop α :=
  match harvest with
  | some raw => { s with scorePath := s.scorePath.harvest raw }
  | none => s

/-- The snapshot of the newest window, and the silence gate: whether there is a window, and whether there is sound. -/
def listen (s : AnalysisLoop α) [Zero α] (i : TickInput α) : Bool × Bool × AnalysisLoop α :=
  let (haveWindow, windowBuf) := s.modelBuffer.readLastN s.windowBuf modelWindowSamples maxRetries
  let windowRms := if haveWindow then i.windowRms else 0
  let (sound, silenceGate) := s.silenceGate.shouldEvaluate windowRms i.now
  (haveWindow, sound, { s with windowBuf := windowBuf, silenceGate := silenceGate })

/-- The poll of the cadence gate, and `kick` or the dropped window. -/
def pace (s : AnalysisLoop α) (haveWindow : Bool) (i : TickInput α) :
    Option (UInt64 × CadenceGate.Decision) × Option (List α) × AnalysisLoop α :=
  let writeCount := s.modelBuffer.getWriteCount
  let (tick, cadenceGate) := s.cadenceGate.poll writeCount
  let s := { s with cadenceGate := cadenceGate }
  if tick.evaluate then
    if i.ready && !i.inFlight && haveWindow then (some (writeCount, tick), some (windowSamples s.windowBuf), s)
    else if i.stillInFlight then (some (writeCount, tick), none, { s with droppedWindows := s.droppedWindows + 1 })
    else (some (writeCount, tick), none, s)
  else (some (writeCount, tick), none, s)

/-- What the loop does with the model, on sound only. -/
def infer (s : AnalysisLoop α) (haveWindow sound : Bool) (i : TickInput α) :
    Option (UInt64 × CadenceGate.Decision) × Option (List α) × AnalysisLoop α :=
  if sound then (s.tryHarvest i.harvest).pace haveWindow i else (none, none, s)

/-- `vtsValue`, from the latched speaker. -/
def vtsValue (s : AnalysisLoop α) : ℚ := if s.latchedSpeaker = 1 then 1 else 0

/-- `detect`: the state of the trigger, off unless the model is healthy. -/
def detect (s : AnalysisLoop α) (failed : Bool) : ℚ :=
  let healthy := s.modelReadyFlag && !failed
  if healthy && s.scorePath.detectHysteresis.value then 1 else 0

/-- The detection latches the speaker. -/
def latch (s : AnalysisLoop α) (failed : Bool) : AnalysisLoop α :=
  if s.detect failed > 1 / 2 then
    { s with
      latchedSpeaker := if s.scorePath.scoreFilter.get 0 ≥ s.scorePath.scoreFilter.get 1 then 0 else 1 }
  else s

/-- The value is stored, and set if it passes the send gate. -/
def send (s : AnalysisLoop α) (now : Int) : Option ℚ × AnalysisLoop α :=
  let (sends, silenceGate) := s.silenceGate.shouldSend s.vtsValue now
  (if sends then some s.vtsValue else none, { s with detectValue := s.vtsValue, silenceGate := silenceGate })

section Tick

variable [Zero α]

/-- A tick of the loop. -/
def tick (s : AnalysisLoop α) (i : TickInput α) : TickOutput α × AnalysisLoop α :=
  let (haveWindow, sound, s) := (s.resampleHostInput i.blocks).listen i
  let (polled, kicked, s) := s.infer haveWindow sound i
  let (sent, s) := (s.latch i.failed).send i.now
  (⟨polled, kicked, sent⟩, s)

/-- The loop after some ticks. -/
def after (s : AnalysisLoop α) (is : List (TickInput α)) : AnalysisLoop α := is.foldl (fun s i => (s.tick i).2) s

/-- What the ticks do. -/
def outputs (s : AnalysisLoop α) : List (TickInput α) → List (TickOutput α)
  | [] => []
  | i :: is => (s.tick i).1 :: (s.tick i).2.outputs is

end Tick

/-- The samples that the ticks write to the model ring. -/
def written (is : List (TickInput α)) : List α := (is.map fun i => i.blocks.flatten).flatten

variable {s : AnalysisLoop α} {i : TickInput α} {is is' : List (TickInput α)}

theorem written_append : written (is ++ is') = written is ++ written is' := by simp [written]

@[simp] theorem written_singleton : written [i] = i.blocks.flatten := by simp [written]

theorem vtsValue_eq_zero : s.vtsValue = 0 ↔ s.latchedSpeaker ≠ 1 := by
  unfold vtsValue
  split <;> simp_all

/-! ## What the parts of a tick leave alone -/

@[simp] theorem tryHarvest_modelBuffer (h : Option (Nat → ℚ)) : (s.tryHarvest h).modelBuffer = s.modelBuffer := by
  cases h <;> rfl

@[simp] theorem tryHarvest_cadenceGate (h : Option (Nat → ℚ)) : (s.tryHarvest h).cadenceGate = s.cadenceGate := by
  cases h <;> rfl

@[simp] theorem tryHarvest_windowBuf (h : Option (Nat → ℚ)) : (s.tryHarvest h).windowBuf = s.windowBuf := by
  cases h <;> rfl

@[simp] theorem tryHarvest_silenceGate (h : Option (Nat → ℚ)) : (s.tryHarvest h).silenceGate = s.silenceGate := by
  cases h <;> rfl

/-- The pacing is one poll of the gate; it touches the counter of the dropped windows besides. -/
theorem pace_spec (haveWindow : Bool) : ∃ droppedWindows,
    (s.pace haveWindow i).2.2 =
      { s with
        cadenceGate := (s.cadenceGate.poll s.modelBuffer.writeCount).2
        droppedWindows := droppedWindows } ∧
    (s.pace haveWindow i).1 = some (s.modelBuffer.writeCount, (s.cadenceGate.poll s.modelBuffer.writeCount).1) ∧
    ∀ w, (s.pace haveWindow i).2.1 = some w →
      (s.cadenceGate.poll s.modelBuffer.writeCount).1.evaluate = true ∧ w = windowSamples s.windowBuf := by
  unfold pace
  dsimp only [SharedRingBuffer.getWriteCount]
  split
  · rename_i heval
    split
    · refine ⟨_, rfl, rfl, ?_⟩
      intro w hw
      exact ⟨heval, (Option.some.inj hw).symm⟩
    · split
      · exact ⟨_, rfl, rfl, nofun⟩
      · exact ⟨_, rfl, rfl, nofun⟩
  · exact ⟨_, rfl, rfl, nofun⟩

/-- The model part of a tick leaves the ring and the silence gate alone, and on sound it polls. -/
theorem infer_spec (haveWindow sound : Bool) :
    (s.infer haveWindow sound i).2.2.modelBuffer = s.modelBuffer ∧
    (s.infer haveWindow sound i).2.2.silenceGate = s.silenceGate ∧
    (sound = false → s.infer haveWindow sound i = (none, none, s)) ∧
    (sound = true → (s.infer haveWindow sound i).1 =
        some (s.modelBuffer.writeCount, (s.cadenceGate.poll s.modelBuffer.writeCount).1) ∧
      (s.infer haveWindow sound i).2.2.cadenceGate = (s.cadenceGate.poll s.modelBuffer.writeCount).2) ∧
    ∀ w, (s.infer haveWindow sound i).2.1 = some w → sound = true ∧
      (s.cadenceGate.poll s.modelBuffer.writeCount).1.evaluate = true ∧ w = windowSamples s.windowBuf := by
  unfold infer
  cases sound with
  | false => exact ⟨rfl, rfl, fun _ => rfl, nofun, nofun⟩
  | true =>
    obtain ⟨droppedWindows, hstate, hpolled, hkicked⟩ := (s.tryHarvest i.harvest).pace_spec (i := i) haveWindow
    simp only [tryHarvest_modelBuffer, tryHarvest_cadenceGate, tryHarvest_windowBuf] at hpolled hkicked
    rw [if_pos rfl, hstate, hpolled]
    simp only [tryHarvest_modelBuffer, tryHarvest_cadenceGate, tryHarvest_silenceGate]
    exact ⟨trivial, trivial, nofun, fun _ => ⟨trivial, trivial⟩, fun w hw => ⟨trivial, hkicked w hw⟩⟩

/-- The model part of a tick neither latches a speaker nor readies the model. -/
theorem infer_frame (haveWindow sound : Bool) :
    (s.infer haveWindow sound i).2.2.latchedSpeaker = s.latchedSpeaker ∧
      (s.infer haveWindow sound i).2.2.modelReadyFlag = s.modelReadyFlag := by
  unfold infer
  cases sound with
  | false => exact ⟨rfl, rfl⟩
  | true =>
    obtain ⟨droppedWindows, hstate, -, -⟩ := (s.tryHarvest i.harvest).pace_spec (i := i) haveWindow
    rw [if_pos rfl, hstate]
    cases i.harvest <;> exact ⟨rfl, rfl⟩

/-- The detection leaves the ring and the gates alone. -/
theorem latch_frame (failed : Bool) : (s.latch failed).modelBuffer = s.modelBuffer ∧
    (s.latch failed).cadenceGate = s.cadenceGate ∧ (s.latch failed).silenceGate = s.silenceGate := by
  unfold latch
  split
  · exact ⟨rfl, rfl, rfl⟩
  · exact ⟨rfl, rfl, rfl⟩

section Tick

variable [Zero α]

/-- The state of the loop behind its snapshot, and whether the silence gate has heard sound there. -/
def heard (s : AnalysisLoop α) (i : TickInput α) : Bool × AnalysisLoop α :=
  ((s.resampleHostInput i.blocks).listen i).2

/-- What a tick does to the ring and to the cadence gate, and what it sets. -/
structure Ticked (s : AnalysisLoop α) (i : TickInput α) (o : TickOutput α) (t : AnalysisLoop α) : Prop where
  buffer : t.modelBuffer = (s.resampleHostInput i.blocks).modelBuffer
  silent : (s.heard i).1 = false → o.polled = none ∧ o.kicked = none ∧ t.cadenceGate = s.cadenceGate
  polled : (s.heard i).1 = true →
    o.polled = some (t.modelBuffer.writeCount, (s.cadenceGate.poll t.modelBuffer.writeCount).1) ∧
      t.cadenceGate = (s.cadenceGate.poll t.modelBuffer.writeCount).2
  kicked : ∀ w, o.kicked = some w → (s.heard i).1 = true ∧
    (s.cadenceGate.poll t.modelBuffer.writeCount).1.evaluate = true ∧
      w = windowSamples (t.modelBuffer.readLastN s.windowBuf modelWindowSamples maxRetries).2
  silenceGate : t.silenceGate = ((s.heard i).2.silenceGate.shouldSend t.vtsValue i.now).2
  sent : o.sent = if ((s.heard i).2.silenceGate.shouldSend t.vtsValue i.now).1 then some t.vtsValue else none

/-- **A tick**. -/
theorem ticked (s : AnalysisLoop α) (i : TickInput α) : s.Ticked i (s.tick i).1 (s.tick i).2 := by
  obtain ⟨hbuffer, hsilence, hquiet, hpolled, hkicked⟩ :=
    (s.heard i).2.infer_spec (i := i) ((s.resampleHostInput i.blocks).listen i).1 (s.heard i).1
  obtain ⟨hlatchBuffer, hlatchGate, hlatchSilence⟩ :=
    ((s.heard i).2.infer ((s.resampleHostInput i.blocks).listen i).1 (s.heard i).1 i).2.2.latch_frame i.failed
  have hring : (s.tick i).2.modelBuffer = (s.resampleHostInput i.blocks).modelBuffer := hlatchBuffer.trans hbuffer
  refine ⟨hring, ?_, ?_, ?_, ?_, ?_⟩
  · intro h
    have hnone := hquiet h
    refine ⟨congrArg Prod.fst hnone, congrArg (fun r => r.2.1) hnone, hlatchGate.trans ?_⟩
    rw [hnone]
    rfl
  · intro h
    rw [hring]
    exact ⟨(hpolled h).1, hlatchGate.trans (hpolled h).2⟩
  · intro w hw
    rw [hring]
    exact hkicked w hw
  · rw [← hsilence, ← hlatchSilence]
    rfl
  · rw [← hsilence, ← hlatchSilence]
    rfl

theorem after_append : s.after (is ++ is') = (s.after is).after is' := by simp [after, List.foldl_append]

theorem outputs_append : s.outputs (is ++ is') = s.outputs is ++ (s.after is).outputs is' := by
  induction is generalizing s with
  | nil => rfl
  | cons i is ih => simp [outputs, ih, after]

theorem outputs_take (t : Nat) : s.outputs (is.take t) = (s.outputs is).take t := by
  induction is generalizing s t with
  | nil => simp [outputs]
  | cons i is ih =>
    cases t with
    | zero => rfl
    | succ t => simp [outputs, ih]

/-- The output of a tick in a run. -/
theorem outputs_getElem? {t : Nat} {o : TickOutput α} (h : (s.outputs is)[t]? = some o) :
    ∃ i, is[t]? = some i ∧ o = ((s.after (is.take t)).tick i).1 := by
  induction is generalizing s t with
  | nil => cases h
  | cons i is ih =>
    cases t with
    | zero =>
      cases h
      exact ⟨i, rfl, rfl⟩
    | succ t => exact ih h

end Tick

end AnalysisLoop

end Bajiru.Linkjiru
