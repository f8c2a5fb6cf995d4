import Mathlib.Data.Rat.Defs
import Mathlib.Algebra.Order.Field.Rat
import Mathlib.Tactic.Common

/-!
# `GatingLogic`, `ScoreLowPass` and `Hysteresis`

The three decision objects of `GatingLogic.hpp`, with the `float`s exact. The level of a window (`rms`, a square root)
is an argument of the silence gate.
-/

namespace Bajiru.Linkjiru

/-! ## The silence gate and the send gate -/

/-- `GatingLogic::Config` with its defaults. -/
structure GatingConfig where
  wakeRatio : ℚ := 3
  silenceRatio : ℚ := 8 / 5
  floorRise : ℚ := 3 / 2000
  minFloor : ℚ := 1 / 100000
  holdMs : Int := 300
  sendKeepaliveMs : Int := 500

structure GatingLogic where
  config : GatingConfig := {}
  noiseFloor : ℚ := 1 / 10000
  awake : Bool := false
  lastLoudMs : Int := 0
  lastSent : ℚ := -1
  lastSentMs : Int := -1000000

namespace GatingLogic

/-- The noise floor drops at once to a quieter level and rises slowly. -/
def trackFloor (s : GatingLogic) (windowRms : ℚ) : GatingLogic :=
  { s with
    noiseFloor :=
      if windowRms < s.noiseFloor then windowRms
      else s.noiseFloor + (windowRms - s.noiseFloor) * s.config.floorRise }

/-- `shouldEvaluate(windowRms, nowMs)`. -/
def shouldEvaluate (s : GatingLogic) (windowRms : ℚ) (nowMs : Int) : Bool × GatingLogic :=
  let s := s.trackFloor windowRms
  let floor := max s.noiseFloor s.config.minFloor
  let s :=
    if s.awake then
      if windowRms < floor * s.config.silenceRatio then { s with awake := false } else { s with lastLoudMs := nowMs }
    else if windowRms > floor * s.config.wakeRatio then { s with awake := true, lastLoudMs := nowMs }
    else s
  (s.awake || nowMs - s.lastLoudMs < s.config.holdMs, s)

/-- `shouldSend(detectValue, nowMs)`. -/
def shouldSend (s : GatingLogic) (detectValue : ℚ) (nowMs : Int) : Bool × GatingLogic :=
  if detectValue ≠ s.lastSent ∨ nowMs - s.lastSentMs ≥ s.config.sendKeepaliveMs then
    (true, { s with lastSent := detectValue, lastSentMs := nowMs })
  else (false, s)

variable {s : GatingLogic} {windowRms detectValue : ℚ} {nowMs : Int}

/-- The silence gate leaves the send gate alone. -/
@[simp] theorem lastSent_shouldEvaluate : (s.shouldEvaluate windowRms nowMs).2.lastSent = s.lastSent := by
  unfold shouldEvaluate
  dsimp only
  split
  · split <;> rfl
  · split <;> rfl

/-- After the send gate, the value of the tick is the one it has let through last. -/
@[simp] theorem lastSent_shouldSend : (s.shouldSend detectValue nowMs).2.lastSent = detectValue := by
  unfold shouldSend
  split
  · rfl
  · rename_i h
    simp only [ne_eq, not_or, Decidable.not_not] at h
    exact h.1.symm

@[simp] theorem lastLoudMs_shouldSend : (s.shouldSend detectValue nowMs).2.lastLoudMs = s.lastLoudMs := by
  unfold shouldSend
  split <;> rfl

@[simp] theorem config_shouldSend : (s.shouldSend detectValue nowMs).2.config = s.config := by
  unfold shouldSend
  split <;> rfl

/-- The gate stays open for the hold. -/
theorem shouldEvaluate_hold (h : nowMs - s.lastLoudMs < s.config.holdMs) :
    (s.shouldEvaluate windowRms nowMs).1 = true := by
  unfold shouldEvaluate
  dsimp only
  split
  · rename_i hawake
    split
    · exact Bool.or_eq_true_iff.2 (.inr (decide_eq_true h))
    · simp [hawake]
  · split
    · simp
    · exact Bool.or_eq_true_iff.2 (.inr (decide_eq_true h))

/-- A value that is held back is the one that was let through last. -/
theorem shouldSend_held (h : (s.shouldSend detectValue nowMs).1 = false) : s.lastSent = detectValue := by
  unfold shouldSend at h
  split at h
  · cases h
  · rename_i hsame
    simp only [ne_eq, not_or, Decidable.not_not] at hsame
    exact hsame.1.symm

end GatingLogic

/-! ## The low-pass and the trigger -/

/-- `ScoreLowPass::kMax`. -/
def kMax : Nat := 8

/-- The filter of the scores: `alpha` of its configuration and the slots of `smoothed`. -/
structure ScoreLowPass where
  alpha : ℚ := 1 / 5
  smoothed : Nat → ℚ := fun _ => 0

namespace ScoreLowPass

/-- `update(raw, n)`. -/
def update (s : ScoreLowPass) (raw : Nat → ℚ) (n : Nat) : ScoreLowPass :=
  let m := min n kMax
  { s with smoothed := fun i => if i < m then s.smoothed i + s.alpha * (raw i - s.smoothed i) else s.smoothed i }

/-- `operator[]`. -/
def get (s : ScoreLowPass) (i : Int) : ℚ := if 0 ≤ i ∧ i < kMax then s.smoothed i.toNat else 0

end ScoreLowPass

/-- The Schmitt trigger of the confidence. -/
structure Hysteresis where
  high : ℚ := 4 / 5
  low : ℚ := 1 / 5
  state : Bool := false

namespace Hysteresis

/-- `update(confidence)`. -/
def update (s : Hysteresis) (confidence : ℚ) : Hysteresis :=
  if !s.state ∧ confidence ≥ s.high then { s with state := true }
  else if s.state ∧ confidence ≤ s.low then { s with state := false }
  else s

def value (s : Hysteresis) : Bool := s.state

def reset (s : Hysteresis) : Hysteresis := { s with state := false }

variable {s : Hysteresis} {confidence : ℚ}

@[simp] theorem high_update : (s.update confidence).high = s.high := by
  unfold update
  split
  · rfl
  · split <;> rfl

@[simp] theorem low_update : (s.update confidence).low = s.low := by
  unfold update
  split
  · rfl
  · split <;> rfl

/-- The trigger turns on at `high` only. -/
theorem update_on (hs : s.state = false) (h : (s.update confidence).state = true) : s.high ≤ confidence := by
  unfold update at h
  split at h
  · rename_i hon
    exact hon.2
  · simp [hs] at h

/-- The trigger turns off at `low` only. -/
theorem update_off (hs : s.state = true) (h : (s.update confidence).state = false) : confidence ≤ s.low := by
  unfold update at h
  split at h
  · cases h
  · split at h
    · rename_i hoff
      exact hoff.2
    · rw [hs] at h
      cases h

end Hysteresis

end Bajiru.Linkjiru
