import Bajiru.DataAugment.Apf
import Mathlib.Analysis.SpecialFunctions.Pow.Real

/-!
# The handlers of the augmentations

`apply_gain`, `apply_phase_flip`, `apply_pitch`, `apply_speed`, `apply_stretch` and `apply_noise`, and the dispatch by
name. Only `noise` draws from the generator: without it a handler is `Stateless` (`handle_stateless`). The kernels that
turn samples into samples (resampling, PSOLA, the spectral shaping of noise) and the generator are parameters.
-/

namespace Bajiru.DataAugment

open StateExcept (Stateless)

/-- The settings of an `AugmentContext`. Its generator is a state of type `Rng`. -/
structure AugmentContext where
  sampleRate : Int
  oversampleFactor : Int
  sincKernelSize : Int

/-- `"pink"` and `"brown"`. -/
inductive Shaper where
  | pink
  | brown

/-- The kernels behind the handlers. -/
structure Kernels (Rng : Type) where
  sincUpsample : List ℝ → Int → Int → Except PyError (List ℝ)
  sincDownsample : List ℝ → Int → Int → Except PyError (List ℝ)
  detectPitchPeriods : List ℝ → Int → Except PyError (List Int)
  psolaShift : List ℝ → List Int → ℝ → Except PyError (List ℝ)
  psolaStretch : List ℝ → List Int → ℝ → Except PyError (List ℝ)
  /-- `Fraction(x).limit_denominator(n)`. -/
  limitDenominator : ℝ → Nat → ℚ
  resamplePoly : List ℝ → Int → Nat → Except PyError (List ℝ)
  defaultRng : Int → Rng
  standardNormal : Rng → Nat → List ℝ × Rng
  /-- The spectrum of white noise, shaped, as samples again. -/
  shape : Shaper → List ℝ → Except PyError (List ℝ)

/-- A computation that may draw from the generator. -/
abbrev Draws (Rng α : Type) := StateT Rng (Except PyError) α

open Classical

/-- `apply_gain(signal, config, ctx)`. -/
noncomputable def applyGain (py : Builtins) (signal : List ℝ) (config : Config) : Except PyError (List ℝ) := do
  let db ← (config.get "db" (.num 0)).toFloat py
  let factor := (10 : ℝ) ^ (db / 20)
  return signal.map (· * factor)

/-- `apply_phase_flip(signal, config, ctx)`. -/
noncomputable def applyPhaseFlip (signal : List ℝ) (config : Config) : Except PyError (List ℝ) :=
  let flip := (config.get "flip" (.bool false)).toBool
  if flip then return signal.map (-·) else return signal

variable {Rng : Type}

/-- Up, the marks, a transform of both, and down again: the way of `apply_pitch` and `apply_stretch`. -/
def applyPsola (kernels : Kernels Rng) (ctx : AugmentContext)
    (transform : List ℝ → List Int → ℝ → Except PyError (List ℝ))
    (signal : List ℝ) (amount : ℝ) : Except PyError (List ℝ) := do
  let upsampled ← kernels.sincUpsample signal ctx.oversampleFactor ctx.sincKernelSize
  let oversampledRate := ctx.sampleRate * ctx.oversampleFactor
  let marks ← kernels.detectPitchPeriods upsampled oversampledRate
  let transformed ← transform upsampled marks amount
  kernels.sincDownsample transformed ctx.oversampleFactor ctx.sincKernelSize

/-- `_semitones_to_ratio(semitones)`. -/
noncomputable def semitonesToRatio (semitones : ℝ) : ℝ := ((2 : ℝ) ^ ((1 : ℝ) / 12)) ^ semitones

/-- `apply_pitch(signal, config, ctx)`. -/
noncomputable def applyPitch (py : Builtins) (kernels : Kernels Rng) (ctx : AugmentContext) (signal : List ℝ)
    (config : Config) : Except PyError (List ℝ) := do
  let semitones ← (config.get "semitones" (.num 0)).toFloat py
  if semitones = 0 then return signal
  applyPsola kernels ctx kernels.psolaShift signal (semitonesToRatio semitones)

/-- The factor of `apply_speed` and `apply_stretch`. -/
noncomputable def positiveFactor (py : Builtins) (name : String) (config : Config) : Except PyError ℝ := do
  let factor ← (config.get "factor" (.num 1)).toFloat py
  if factor ≤ 0 then throw (.valueError (name ++ " factor must be positive, got " ++ py.reprFloat factor))
  return factor

def maxRationalDenom : Nat := 1000

/-- `apply_speed(signal, config, ctx)`. -/
noncomputable def applySpeed (py : Builtins) (kernels : Kernels Rng) (signal : List ℝ) (config : Config) :
    Except PyError (List ℝ) := do
  let factor ← positiveFactor py "speed" config
  if factor = 1 then return signal
  let ratio := kernels.limitDenominator (1 / factor) maxRationalDenom
  kernels.resamplePoly signal ratio.num ratio.den

/-- `apply_stretch(signal, config, ctx)`. -/
noncomputable def applyStretch (py : Builtins) (kernels : Kernels Rng) (ctx : AugmentContext) (signal : List ℝ)
    (config : Config) : Except PyError (List ℝ) := do
  let factor ← positiveFactor py "stretch" config
  if factor = 1 then return signal
  applyPsola kernels ctx kernels.psolaStretch signal factor

/-! ## Noise -/

/-- `_EPS`. -/
noncomputable def eps : ℝ := 1e-20

/-- `np.sqrt(np.mean(signal ** 2))`; not a number without samples. -/
noncomputable def rms (signal : List ℝ) : Option ℝ :=
  if signal = [] then none else some (Real.sqrt ((signal.map (· ^ 2)).sum / signal.length))

/-- `_SHAPERS[kind]`. -/
def shaperOf : Value → Except PyError Shaper
  | .str "pink" => .ok .pink
  | .str "brown" => .ok .brown
  | .list _ => .error (.typeError "unhashable type: 'list'")
  | .dict _ => .error (.typeError "unhashable type: 'dict'")
  | kind => .error (.keyError kind)

/-- `kind == "white"`. -/
def isWhite : Value → Bool
  | .str s => s == "white"
  | _ => false

/-- `_generate_colored_noise(n, kind, rng)`. -/
def generateColoredNoise (kernels : Kernels Rng) (n : Nat) (kind : Value) : Draws Rng (List ℝ) := do
  let white ← modifyGet fun rng => kernels.standardNormal rng n
  if isWhite kind then return white
  StateT.lift do
    let shaper ← shaperOf kind
    kernels.shape shaper white

/-- `apply_noise(signal, config, ctx)`. -/
noncomputable def applyNoise (py : Builtins) (kernels : Kernels Rng) (signal : List ℝ) (config : Config) :
    Draws Rng (List ℝ) := do
  let snrDb ← StateT.lift ((config.get "snr_db" (.num 20)).toFloat py)
  let kind := config.get "kind" (.str "white")
  let signalRms := rms signal
  if signalRms.any (· < eps) then return signal
  let noise ← generateColoredNoise kernels signal.length kind
  let noiseRms := rms noise
  if noiseRms.any (· < eps) then return signal
  let targetNoiseRms := signalRms.getD 0 / (10 : ℝ) ^ (snrDb / 20)
  let noise := noise.map (· * (targetNoiseRms / noiseRms.getD 0))
  return List.zipWith (· + ·) signal noise

/-! ## The dispatch -/

/-- The names of `_HANDLERS`. -/
inductive Name where
  | pitch
  | gain
  | phaseFlip
  | noise
  | speed
  | stretch
  | apf
  deriving DecidableEq

/-- The keys of `_HANDLERS`. -/
def handlerNames : List (String × Name) :=
  [("pitch", .pitch), ("gain", .gain), ("phase_flip", .phaseFlip), ("noise", .noise), ("speed", .speed),
    ("stretch", .stretch), ("apf", .apf)]

/-- `_HANDLERS[name](signal, config, ctx)`. -/
noncomputable def handle (py : Builtins) (kernels : Kernels Rng) (ctx : AugmentContext) (name : Name) (signal : List ℝ)
    (config : Config) : Draws Rng (List ℝ) :=
  match name with
  | .pitch => StateT.lift (applyPitch py kernels ctx signal config)
  | .gain => StateT.lift (applyGain py signal config)
  | .phaseFlip => StateT.lift (applyPhaseFlip signal config)
  | .noise => applyNoise py kernels signal config
  | .speed => StateT.lift (applySpeed py kernels signal config)
  | .stretch => StateT.lift (applyStretch py kernels ctx signal config)
  | .apf => StateT.lift (applyApf py ctx.sampleRate signal config)

/-- **Only noise draws** from the generator. -/
theorem handle_stateless (py : Builtins) (kernels : Kernels Rng) (ctx : AugmentContext) {name : Name}
    (h : name ≠ .noise)
    (signal : List ℝ) (config : Config) : Stateless (handle py kernels ctx name signal config) := by
  cases name with
  | noise => exact absurd rfl h
  | _ => exact Stateless.lift _

end Bajiru.DataAugment
