import Bajiru.Dft
import Bajiru.Numerals
import Mathlib.Data.Matrix.Mul
import Mathlib.Data.Fin.Tuple.Basic
import Mathlib.Analysis.SpecialFunctions.Trigonometric.Basic

/-!
# `MelExtractor`

The short-time Fourier transform as a convolution: the kernels are the cosines and sines of the frequencies under the
window, and the stride is the hop. What it gives is the power spectrum of every windowed frame (`stft_power`), so that
the mels are those of `rfft` (`forward_apply`) and do not depend on the phases (`SamePower.forward_eq`). The mel filter
bank of librosa is a parameter. Numbers are real.
-/

namespace Bajiru.NnModel

/-- How a segment of samples is cut into frames. It has room for one. -/
structure Framing where
  nSamples : Nat
  nFft : Nat
  hopLength : Nat
  fits : nFft ≤ nSamples

namespace Framing

variable (f : Framing) {outCh : Nat}

/-- The frames that a convolution with a stride gives, and `n_history` of the preset. -/
def nFrames : Nat := 1 + (f.nSamples - f.nFft) / f.hopLength

theorem nFrames_pos : 0 < f.nFrames := Nat.add_pos_left Nat.one_pos _

/-- The frame at the start. -/
def first : Fin f.nFrames := ⟨0, f.nFrames_pos⟩

/-- `self.n_freq`. -/
def nFreq : Nat := f.nFft / 2 + 1

/-- The last frame ends within the segment. -/
theorem sample_lt (t : Fin f.nFrames) (n : Fin f.nFft) : f.hopLength * t + n < f.nSamples := by
  have hframe : (t : Nat) ≤ (f.nSamples - f.nFft) / f.hopLength := Nat.lt_one_add_iff.1 t.isLt
  have hstart : f.hopLength * t ≤ f.nSamples - f.nFft := (Nat.mul_le_mul_left _ hframe).trans (Nat.mul_div_le _ _)
  have hfits := f.fits
  omega

/-- Sample `n` of frame `t`. -/
def sample (x : Fin f.nSamples → ℝ) (t : Fin f.nFrames) (n : Fin f.nFft) : ℝ := x ⟨f.hopLength * t + n, f.sample_lt t n⟩

/-- `torch.nn.Conv1d(1, out_ch, kernel_size=n_fft, stride=hop_length, bias=False)`. -/
def conv (weight : Fin outCh → Fin f.nFft → ℝ) (x : Fin f.nSamples → ℝ) : Matrix (Fin outCh) (Fin f.nFrames) ℝ :=
  Matrix.of fun o t => ∑ n, weight o n * f.sample x t n

/-- Three samples, in two frames of two. -/
def small : Framing := ⟨3, 2, 1, Nat.le_succ 2⟩

instance small_nFft : NeZero small.nFft := ⟨two_ne_zero⟩

end Framing

/-- `torch.hann_window(n, periodic=True)`. -/
noncomputable def hannWindow (n i : Nat) : ℝ := (1 - Real.cos (2 * Real.pi * i / n)) / 2

/-- `MelExtractor`, with the filter bank of librosa. -/
structure MelExtractor (f : Framing) (nMels : Nat) where
  melFbT : Matrix (Fin f.nFreq) (Fin nMels) ℝ

namespace MelExtractor

variable {f : Framing} {nMels : Nat}

/-- `a`. -/
noncomputable def phase (f : Framing) (k : Fin f.nFreq) (n : Fin f.nFft) : ℝ :=
  -2 * Real.pi * (k : Nat) * (n : Nat) / f.nFft

/-- `real_basis`. -/
noncomputable def realBasis (f : Framing) (k : Fin f.nFreq) (n : Fin f.nFft) : ℝ :=
  Real.cos (phase f k n) * hannWindow f.nFft n

/-- `imag_basis`. -/
noncomputable def imagBasis (f : Framing) (k : Fin f.nFreq) (n : Fin f.nFft) : ℝ :=
  Real.sin (phase f k n) * hannWindow f.nFft n

/-- `forward_basis`. -/
noncomputable def forwardBasis (f : Framing) : Fin (f.nFreq + f.nFreq) → Fin f.nFft → ℝ :=
  Fin.append (realBasis f) (imagBasis f)

/-- `forward(x)` for one segment of the batch. -/
noncomputable def forward (e : MelExtractor f nMels) (x : Fin f.nSamples → ℝ) : Matrix (Fin nMels) (Fin f.nFrames) ℝ :=
  let x := f.conv (forwardBasis f) x
  let real := x.submatrix (Fin.castAdd f.nFreq) id
  let imag := x.submatrix (Fin.natAdd f.nFreq) id
  let x := Matrix.of fun k t => real k t ^ 2 + imag k t ^ 2
  let x := x.transpose * e.melFbT
  x.transpose

/-! ## Samples -/

/-- A frame is made of its own samples. -/
theorem forward_congr (e : MelExtractor f nMels) {x y : Fin f.nSamples → ℝ} {t : Fin f.nFrames}
    (h : ∀ n, f.sample x t n = f.sample y t n) (m : Fin nMels) : e.forward x m t = e.forward y m t := by
  simp only [forward, Framing.conv, Matrix.transpose_apply, Matrix.mul_apply, Matrix.of_apply, Matrix.submatrix_apply,
    id_eq, h]

/-- Energies, under a filter bank of weights that are not negative. -/
theorem forward_nonneg {e : MelExtractor f nMels} (he : ∀ k m, 0 ≤ e.melFbT k m) (x : Fin f.nSamples → ℝ)
    (m : Fin nMels) (t : Fin f.nFrames) : 0 ≤ e.forward x m t := by
  simp only [forward, Matrix.transpose_apply, Matrix.mul_apply, Matrix.of_apply]
  exact Finset.sum_nonneg fun k _ => mul_nonneg (by positivity) (he k m)

/-! ## The power spectrum -/

/-- A frame under the window. -/
noncomputable def windowed (f : Framing) (x : Fin f.nSamples → ℝ) (t : Fin f.nFrames) : List ℝ :=
  List.ofFn fun n => hannWindow f.nFft n * f.sample x t n

variable {x y : Fin f.nSamples → ℝ} {t : Fin f.nFrames}

theorem getD_windowed (n : Fin f.nFft) : (windowed f x t).getD n 0 = hannWindow f.nFft n * f.sample x t n := by
  simp [windowed]

variable (k : Fin f.nFreq)

/-- The channels of `split`. -/
theorem conv_castAdd : f.conv (forwardBasis f) x (Fin.castAdd f.nFreq k) t = f.conv (realBasis f) x k t := by
  simp only [Framing.conv, forwardBasis, Matrix.of_apply, Fin.append_left]

theorem conv_natAdd : f.conv (forwardBasis f) x (Fin.natAdd f.nFreq k) t = f.conv (imagBasis f) x k t := by
  simp only [Framing.conv, forwardBasis, Matrix.of_apply, Fin.append_right]

variable [NeZero f.nFft]

/-- **The convolution** with the cosines gives the real parts of the bins of a windowed frame. -/
theorem conv_realBasis : f.conv (realBasis f) x k t = ((Dft.rfft (windowed f x t) f.nFft).getD k 0).re := by
  rw [Framing.conv, Matrix.of_apply, Dft.re_getD_rfft _ (Nat.lt_succ_iff.1 k.isLt), Finset.sum_range]
  refine Finset.sum_congr rfl fun (n : Fin f.nFft) _ => ?_
  rw [getD_windowed, realBasis, phase, mul_assoc]

/-- The sines give the imaginary parts. -/
theorem conv_imagBasis : f.conv (imagBasis f) x k t = ((Dft.rfft (windowed f x t) f.nFft).getD k 0).im := by
  rw [Framing.conv, Matrix.of_apply, Dft.im_getD_rfft _ (Nat.lt_succ_iff.1 k.isLt), Finset.sum_range]
  refine Finset.sum_congr rfl fun (n : Fin f.nFft) _ => ?_
  rw [getD_windowed, imagBasis, phase, mul_assoc]

/-- The power of a bin of a windowed frame. -/
theorem stft_power : f.conv (forwardBasis f) x (Fin.castAdd f.nFreq k) t ^ 2 +
      f.conv (forwardBasis f) x (Fin.natAdd f.nFreq k) t ^ 2 =
    Complex.normSq ((Dft.rfft (windowed f x t) f.nFft).getD k 0) := by
  rw [Complex.normSq_apply, ← conv_realBasis, ← conv_imagBasis, conv_castAdd, conv_natAdd, pow_two, pow_two]

/-- **The mels** are those of the power spectrum of the windowed frame. -/
theorem forward_apply (e : MelExtractor f nMels) (m : Fin nMels) : e.forward x m t =
    ∑ k : Fin f.nFreq, Complex.normSq ((Dft.rfft (windowed f x t) f.nFft).getD k 0) * e.melFbT k m := by
  simp only [forward, Matrix.transpose_apply, Matrix.mul_apply, Matrix.of_apply, Matrix.submatrix_apply, id_eq,
    stft_power]

theorem forward_apply_two :
    (⟨Matrix.of fun _ _ => 1⟩ : MelExtractor .small 1).forward (fun _ => 1) 0 Framing.small.first =
      ∑ k : Fin Framing.small.nFreq, Complex.normSq
        ((Dft.rfft (windowed .small (fun _ => 1) Framing.small.first) 2).getD k 0) * 1 :=
  forward_apply _ 0

/-- The windowed frames of two segments have the same power in every bin. -/
def SamePower (f : Framing) [NeZero f.nFft] (x y : Fin f.nSamples → ℝ) : Prop :=
  ∀ (t : Fin f.nFrames) (k : Fin f.nFreq), Complex.normSq ((Dft.rfft (windowed f x t) f.nFft).getD k 0) =
    Complex.normSq ((Dft.rfft (windowed f y t) f.nFft).getD k 0)

/-- **The phases of a segment do not matter.** -/
theorem SamePower.forward_eq (h : SamePower f x y) (e : MelExtractor f nMels) : e.forward x = e.forward y := by
  ext m t
  simp only [forward, Matrix.transpose_apply, Matrix.mul_apply, Matrix.of_apply, Matrix.submatrix_apply, id_eq,
    stft_power, h t]

/-- The polarity of a frame is lost, and what its window takes out. -/
theorem samePower_of_frames (h : ∀ t, ∃ s : ℝ, s ^ 2 = 1 ∧ ∀ n : Fin f.nFft,
    hannWindow f.nFft n * f.sample x t n = s * (hannWindow f.nFft n * f.sample y t n)) : SamePower f x y := by
  intro t k
  obtain ⟨s, hs, hframe⟩ := h t
  have hconv : ∀ a : Fin f.nFreq → Fin f.nFft → ℝ, f.conv (fun k n => a k n * hannWindow f.nFft n) x k t =
      s * f.conv (fun k n => a k n * hannWindow f.nFft n) y k t := by
    intro a
    simp only [Framing.conv, Matrix.of_apply, Finset.mul_sum]
    refine Finset.sum_congr rfl fun n _ => ?_
    rw [mul_assoc, hframe n]
    ring
  have hreal : f.conv (realBasis f) x k t = s * f.conv (realBasis f) y k t := hconv _
  have himag : f.conv (imagBasis f) x k t = s * f.conv (imagBasis f) y k t := hconv _
  rw [← stft_power, ← stft_power, conv_castAdd, conv_castAdd, conv_natAdd, conv_natAdd, hreal, himag, mul_pow, mul_pow,
    hs, one_mul, one_mul]

theorem samePower_neg (x : Fin f.nSamples → ℝ) : SamePower f (-x) x :=
  samePower_of_frames fun t => ⟨-1, by norm_num, fun n => by simp [Framing.sample]⟩

end MelExtractor

end Bajiru.NnModel
