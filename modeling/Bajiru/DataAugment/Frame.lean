import Bajiru.DataAugment.Yin
import Bajiru.Dft

/-!
# Frames and their autocorrelation

`frame` reads a signal through strides, with no check of a bound. `autocorrelate` goes over the power spectrum of a
padded frame; whatever fast length the padding has, the result is the sum of products of `autocorrelate` in `Yin`, so
the tracker may compute with either.
-/

namespace Bajiru.DataAugment

/-! ## Frames -/

/-- `frame(y, frame_length, hop_length)`, the columns of the matrix: a hop of 0 raises, `as_strided` rejects a negative
number of frames, and it reads `y` at `t * hop_length + j` wherever that is. -/
def frame {α : Type*} (y : List α) (frameLength hopLength : Nat) : Option (List (List (Option α))) :=
  let nFrames : Int := 1 + ((y.length : Int) - frameLength).fdiv hopLength
  if hopLength = 0 ∨ nFrames < 0 then none
  else some ((List.range nFrames.toNat).map fun t => (List.range frameLength).map fun j => y[t * hopLength + j]?)

/-- `autocorrelate(y_frames, max_size)` of a frame; `nextFastLen` is that of `scipy.fft`, which rejects a length that is
not positive. -/
noncomputable def fftAutocorrelate (nextFastLen : Nat → Nat) (yFrame : List ℝ) (maxSize : Nat) : Option (List ℝ) :=
  let n := yFrame.length
  let maxSize := min maxSize n
  let nPad := nextFastLen (n + n - 1)
  if h : n = 0 ∨ nPad = 0 then none
  else
    have : NeZero nPad := ⟨(not_or.1 h).2⟩
    let powspec := (Dft.rfft yFrame nPad).map fun z => (Complex.normSq z : ℂ)
    some ((Dft.irfft powspec nPad).take maxSize)

/-- The inverse of the power spectrum of a padded frame. -/
theorem irfft_powspec {N : Nat} [NeZero N] {yFrame : List ℝ} (hN : yFrame.length + yFrame.length - 1 ≤ N)
    (maxSize : Nat) :
    (Dft.irfft ((Dft.rfft yFrame N).map fun z => (Complex.normSq z : ℂ)) N).take (min maxSize yFrame.length) =
      autocorrelate yFrame maxSize := by
  have hpos := NeZero.pos N
  have hbins : ∀ k, k ≤ N / 2 → ((Dft.rfft yFrame N).map fun z => (Complex.normSq z : ℂ)).getD k 0 =
      (Complex.normSq (ZMod.dft (Dft.padded yFrame N) (k : ZMod N)) : ℂ) := by
    intro k hk
    rw [← Dft.getD_rfft yFrame hk, List.getD_eq_getElem _ _ (by simp; omega), List.getElem_map,
      List.getD_eq_getElem _ _ (by simp; omega)]
  have hsymm : Dft.Symmetric fun k => (Complex.normSq (ZMod.dft (Dft.padded yFrame N) k) : ℂ) := by
    intro k
    simp only [Dft.symmetric_dft_padded yFrame k]
    exact (congrArg _ (Complex.normSq_conj _)).trans (Complex.conj_ofReal _).symm
  rw [Dft.irfft_eq hsymm hbins, autocorrelate]
  refine List.ext_getElem (by simp; omega) fun d h₁ h₂ => ?_
  have hd : d < yFrame.length := by
    simp at h₂
    omega
  rw [List.getElem_take, List.getElem_map, List.getElem_map, List.getElem_range, List.getElem_range,
    Dft.symm_dft_normSq (Dft.star_padded yFrame), Dft.sum_padded_eq hd (by omega), Complex.ofReal_re]
  rfl

/-- **The fast autocorrelation** is the plain one: a fast length is not smaller than the length that it is asked for, so
nothing wraps around. -/
theorem fftAutocorrelate_eq {nextFastLen : Nat → Nat} (hfast : ∀ m, m ≤ nextFastLen m) {yFrame : List ℝ}
    (hne : yFrame ≠ []) (maxSize : Nat) :
    fftAutocorrelate nextFastLen yFrame maxSize = some (autocorrelate yFrame maxSize) := by
  have hn : 0 < yFrame.length := List.length_pos_iff.2 hne
  have hpad := hfast (yFrame.length + yFrame.length - 1)
  unfold fftAutocorrelate
  dsimp only
  rw [dif_neg (by omega)]
  have : NeZero (nextFastLen (yFrame.length + yFrame.length - 1)) := ⟨by omega⟩
  exact congrArg some (irfft_powspec hpad maxSize)

theorem fftAutocorrelate_eq_pair : fftAutocorrelate id [1, 2] 2 = some (autocorrelate [1, 2] 2) :=
  fftAutocorrelate_eq (fun _ => le_rfl) (by simp) 2

end Bajiru.DataAugment
