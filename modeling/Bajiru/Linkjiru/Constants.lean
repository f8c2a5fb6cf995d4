import Bajiru.Linkjiru.SharedRingBuffer
import Mathlib.Data.Rat.Defs

/-!
# `Constants.h`

The constants of the audio pipeline. Sample counts are at the model rate.
-/

namespace Bajiru.Linkjiru

def modelSampleRate : Nat := 48000

def modelWindowSamples : Nat := 24000

def modelHopSamples : Nat := 800

def modelNumClasses : Nat := 5

def detectHigh : ℚ := 4 / 5

def detectLow : ℚ := 1 / 5

def ringBufferCapacity : Capacity := ⟨131072, 17, by decide, rfl⟩

def maxAudioBlockSamples : Nat := 65536

end Bajiru.Linkjiru
