import Mathlib.Analysis.Fourier.ZMod
import Mathlib.Data.List.GetD

/-!
# The Fourier transform of real samples

`rfft` and `irfft` of NumPy and SciPy, over the transform on `ZMod N`: half of a spectrum is enough when the samples are
real, since the other half is conjugate. A spectrum with that symmetry is what its inverse has (`rfft_irfft`), and the
inverse of a power spectrum is the circular autocorrelation (`symm_dft_normSq`), which is the linear one when there is
room for the shift (`sum_padded_eq`).
-/

namespace Bajiru.Dft

open Complex ZMod

variable {N : Nat} [NeZero N]

/-- The first `N` samples on a circle, with zeros past their end. -/
noncomputable def padded (x : List ℝ) (N : Nat) : ZMod N → ℂ := fun j => (x.getD j.val 0 : ℝ)

/-- `rfft(x, n)`. -/
noncomputable def rfft (x : List ℝ) (N : Nat) [NeZero N] : List ℂ :=
  (List.range (N / 2 + 1)).map fun (k : Nat) => dft (padded x N) (k : ZMod N)

/-- The whole spectrum. Bin 0 and the bin in the middle are taken as real. -/
noncomputable def hermitian (bins : List ℂ) (N : Nat) : ZMod N → ℂ := fun k =>
  if k.val = 0 ∨ k.val + k.val = N then ((bins.getD k.val 0).re : ℂ)
  else if k.val + k.val < N then bins.getD k.val 0
  else star (bins.getD (N - k.val) 0)

/-- `irfft(bins, n)`. -/
noncomputable def irfft (bins : List ℂ) (N : Nat) [NeZero N] : List ℝ :=
  (List.range N).map fun (j : Nat) => (dft.symm (hermitian bins N) (j : ZMod N)).re

/-- `bins * gains`. -/
noncomputable def scale (bins : List ℂ) (gains : List ℝ) : List ℂ :=
    List.zipWith (fun (z : ℂ) (g : ℝ) => z * g) bins gains

@[simp] theorem length_rfft (x : List ℝ) : (rfft x N).length = N / 2 + 1 := by simp [rfft]

@[simp] theorem length_irfft (bins : List ℂ) : (irfft bins N).length = N := by simp [irfft]

/-- A sum around the circle. -/
theorem sum_univ_val {M : Type*} [AddCommMonoid M] (f : Nat → M) :
    ∑ j : ZMod N, f j.val = ∑ j ∈ Finset.range N, f j := by
  obtain ⟨n, rfl⟩ := Nat.exists_eq_succ_of_ne_zero (NeZero.ne N)
  exact Fin.sum_univ_eq_sum_range f (n + 1)

/-! ## Symmetry -/

/-- The spectrum of real samples. -/
def Symmetric (H : ZMod N → ℂ) : Prop := ∀ k, H (-k) = star (H k)

theorem star_stdAddChar (j : ZMod N) : star (stdAddChar j) = stdAddChar (-j) := by
  rw [AddChar.map_neg_eq_conj]
  rfl

/-- Conjugating a transform turns it around. -/
theorem star_dft (Φ : ZMod N → ℂ) (k : ZMod N) : star (dft Φ k) = dft (fun j => star (Φ j)) (-k) := by
  simp only [dft_apply, smul_eq_mul, star_sum, star_mul', star_stdAddChar, mul_neg, neg_neg]

theorem symmetric_dft {Φ : ZMod N → ℂ} (h : ∀ j, star (Φ j) = Φ j) : Symmetric (dft Φ) := by
  intro k
  rw [star_dft, funext h]

theorem star_padded {n : Nat} (x : List ℝ) (j : ZMod n) : star (padded x n j) = padded x n j := conj_ofReal _

theorem symmetric_dft_padded (x : List ℝ) : Symmetric (dft (padded x N)) := symmetric_dft (star_padded x)

/-- The inverse of a symmetric spectrum is real. -/
theorem star_symm_dft {H : ZMod N → ℂ} (hH : Symmetric H) (j : ZMod N) : star (dft.symm H j) = dft.symm H j := by
  simp only [invDFT_apply', smul_eq_mul, star_mul', star_inv₀, star_natCast, star_dft, neg_neg]
  have hflip : (fun k => star (H k)) = fun k => H (-k) := funext fun k => (hH k).symm
  rw [hflip, dft_comp_neg]

theorem re_symm_dft {H : ZMod N → ℂ} (hH : Symmetric H) (j : ZMod N) : ((dft.symm H j).re : ℂ) = dft.symm H j :=
  conj_eq_iff_re.1 (star_symm_dft hH j)

/-- Half of a symmetric spectrum is enough. -/
theorem hermitian_eq {H : ZMod N → ℂ} (hH : Symmetric H) {bins : List ℂ}
    (hbins : ∀ k, k ≤ N / 2 → bins.getD k 0 = H k) : hermitian bins N = H := by
  funext k
  have hlt := ZMod.val_lt k
  unfold hermitian
  split_ifs with hself hhalf
  · -- the bin is its own conjugate
    have hk : -k = k := by
      obtain h | h := hself
      · rw [(ZMod.val_eq_zero k).1 h, neg_zero]
      · rw [neg_eq_iff_add_eq_zero, ← ZMod.natCast_zmod_val k, ← Nat.cast_add, h, ZMod.natCast_self]
    have hreal := hH k
    rw [hk] at hreal
    rw [hbins _ (by omega), ZMod.natCast_zmod_val]
    exact conj_eq_iff_re.1 hreal.symm
  · rw [hbins _ (by omega), ZMod.natCast_zmod_val]
  · rw [hbins _ (by omega), Nat.cast_sub hlt.le, ZMod.natCast_self, ZMod.natCast_zmod_val, zero_sub, hH, star_star]

theorem irfft_eq {H : ZMod N → ℂ} (hH : Symmetric H) {bins : List ℂ}
    (hbins : ∀ k, k ≤ N / 2 → bins.getD k 0 = H k) :
    irfft bins N = (List.range N).map fun (j : Nat) => (dft.symm H (j : ZMod N)).re := by
  rw [irfft, hermitian_eq hH hbins]

/-- The samples of a symmetric spectrum, on their circle. -/
theorem padded_irfft {H : ZMod N → ℂ} (hH : Symmetric H) {bins : List ℂ}
    (hbins : ∀ k, k ≤ N / 2 → bins.getD k 0 = H k) : padded (irfft bins N) N = dft.symm H := by
  funext j
  have hlt := ZMod.val_lt j
  rw [padded, irfft_eq hH hbins, List.getD_eq_getElem _ _ (by simpa using hlt), List.getElem_map, List.getElem_range,
    re_symm_dft hH, ZMod.natCast_zmod_val]

/-- **The round trip** of a symmetric spectrum. -/
theorem rfft_irfft {H : ZMod N → ℂ} (hH : Symmetric H) {bins : List ℂ}
    (hbins : ∀ k, k ≤ N / 2 → bins.getD k 0 = H k) :
    rfft (irfft bins N) N = (List.range (N / 2 + 1)).map fun (k : Nat) => H (k : ZMod N) := by
  rw [rfft, padded_irfft hH hbins, LinearEquiv.apply_symm_apply]

theorem getD_rfft (x : List ℝ) {k : Nat} (hk : k ≤ N / 2) : (rfft x N).getD k 0 = dft (padded x N) (k : ZMod N) := by
  rw [List.getD_eq_getElem _ _ (by rw [length_rfft]; omega)]
  simp [rfft]

/-- A coefficient of the transform. -/
theorem stdAddChar_eq_exp (j k : Nat) : (stdAddChar (-((j : ZMod N) * (k : ZMod N))) : ℂ) =
    exp ((-2 * Real.pi * k * j / N : ℝ) * I) := by
  have hcast : -((j : ZMod N) * (k : ZMod N)) = ((-(j * k : Nat) : Int) : ZMod N) := by
    push_cast
    rfl
  rw [hcast, stdAddChar_coe]
  congr 1
  push_cast
  ring

/-- **A bin** as a sum over the samples. -/
theorem getD_rfft_eq_sum (x : List ℝ) {k : Nat} (hk : k ≤ N / 2) : (rfft x N).getD k 0 =
    ∑ j ∈ Finset.range N, exp ((-2 * Real.pi * k * j / N : ℝ) * I) * (x.getD j 0 : ℝ) := by
  rw [getD_rfft x hk, dft_apply, ← sum_univ_val]
  refine Finset.sum_congr rfl fun j _ => ?_
  rw [← stdAddChar_eq_exp, ZMod.natCast_zmod_val]
  rfl

theorem re_getD_rfft (x : List ℝ) {k : Nat} (hk : k ≤ N / 2) : ((rfft x N).getD k 0).re =
    ∑ j ∈ Finset.range N, Real.cos (-2 * Real.pi * k * j / N) * x.getD j 0 := by
  rw [getD_rfft_eq_sum x hk, re_sum]
  refine Finset.sum_congr rfl fun j _ => ?_
  rw [re_mul_ofReal, exp_ofReal_mul_I_re]

theorem im_getD_rfft (x : List ℝ) {k : Nat} (hk : k ≤ N / 2) : ((rfft x N).getD k 0).im =
    ∑ j ∈ Finset.range N, Real.sin (-2 * Real.pi * k * j / N) * x.getD j 0 := by
  rw [getD_rfft_eq_sum x hk, im_sum]
  refine Finset.sum_congr rfl fun j _ => ?_
  rw [im_mul_ofReal, exp_ofReal_mul_I_im]

/-- Bin 0 is the sum of the samples. -/
theorem getD_rfft_zero {x : List ℝ} (hx : x.length = N) : (rfft x N).getD 0 0 = (x.sum : ℝ) := by
  rw [getD_rfft x (Nat.zero_le _), Nat.cast_zero, dft_apply_zero]
  simp only [padded]
  rw [← ofReal_sum, sum_univ_val fun j => x.getD j 0, ← hx, Finset.sum_range]
  simp

/-- A real gain that is the same for a bin and its conjugate. -/
theorem Symmetric.scale {H : ZMod N → ℂ} (hH : Symmetric H) (gain : Nat → ℝ) :
    Symmetric fun k => H k * (gain (min k.val (N - k.val)) : ℝ) := by
  intro k
  have hlt := ZMod.val_lt k
  have hmin : min (-k).val (N - (-k).val) = min k.val (N - k.val) := by
    rw [ZMod.neg_val]
    split_ifs with h
    · rw [h, ZMod.val_zero]
    · omega
  simp only [hH k, hmin, star_mul']
  exact congrArg _ (conj_ofReal _).symm

/-- **A gain for each bin** is what the filtered samples have against the samples. -/
theorem rfft_irfft_scale (x : List ℝ) {gains : List ℝ} (hgains : gains.length = N / 2 + 1) :
    rfft (irfft (scale (rfft x N) gains) N) N =
      scale (rfft x N) gains := by
  have hpos := NeZero.pos N
  have hbin : ∀ k, k ≤ N / 2 → min (k : ZMod N).val (N - (k : ZMod N).val) = k := by
    intro k hk
    rw [ZMod.val_natCast, Nat.mod_eq_of_lt (by omega)]
    omega
  have hlen : (scale (rfft x N) gains).length = N / 2 + 1 := by
    simp [scale, hgains]
  have hget : ∀ k, k ≤ N / 2 → (scale (rfft x N) gains).getD k 0 =
      dft (padded x N) (k : ZMod N) * ((gains.getD (min (k : ZMod N).val (N - (k : ZMod N).val)) 0 : ℝ) : ℂ) := by
    intro k hk
    rw [hbin k hk, ← getD_rfft x hk, List.getD_eq_getElem _ _ (by omega)]
    simp only [scale, List.getElem_zipWith]
    rw [List.getD_eq_getElem _ _ (by rw [length_rfft]; omega), List.getD_eq_getElem _ _ (by omega)]
  rw [rfft_irfft ((symmetric_dft_padded x).scale fun k => gains.getD k 0) hget]
  refine List.ext_getElem (by rw [hlen]; simp) fun k h₁ h₂ => ?_
  have hk : k ≤ N / 2 := by
    rw [hlen] at h₂
    omega
  rw [List.getElem_map, List.getElem_range, ← hget k hk, List.getD_eq_getElem _ _ h₂]

/-! ## Autocorrelation -/

/-- **The power spectrum** is the transform of the circular autocorrelation. -/
theorem symm_dft_normSq {Φ : ZMod N → ℂ} (h : ∀ j, star (Φ j) = Φ j) (d : ZMod N) :
    dft.symm (fun k => (normSq (dft Φ k) : ℂ)) d = ∑ j, Φ j * Φ (j + d) := by
  have hpower : dft (fun d => ∑ j, Φ j * Φ (j + d)) = fun k => (normSq (dft Φ k) : ℂ) := by
    funext k
    have hstar : star (dft Φ k) = ∑ j, stdAddChar (j * k) * Φ j := by
      rw [star_dft, dft_apply]
      simp only [mul_neg, neg_neg, smul_eq_mul, h]
    rw [normSq_eq_conj_mul_self]
    show _ = star (dft Φ k) * dft Φ k
    calc dft (fun d => ∑ j, Φ j * Φ (j + d)) k
        = ∑ j, ∑ d, stdAddChar (-(d * k)) * (Φ j * Φ (j + d)) := by
          simp only [dft_apply, smul_eq_mul, Finset.mul_sum]
          exact Finset.sum_comm
      _ = ∑ j, stdAddChar (j * k) * Φ j * dft Φ k := by
          refine Finset.sum_congr rfl fun j _ => ?_
          rw [dft_apply, Finset.mul_sum,
            ← Equiv.sum_comp (Equiv.addLeft j) fun e => stdAddChar (j * k) * Φ j * (stdAddChar (-(e * k)) • Φ e)]
          refine Finset.sum_congr rfl fun d _ => ?_
          have hexp : -(d * k) = j * k + -((j + d) * k) := by ring
          rw [hexp, AddChar.map_add_eq_mul, Equiv.coe_addLeft, smul_eq_mul]
          ring
      _ = star (dft Φ k) * dft Φ k := by rw [hstar, Finset.sum_mul]
  rw [← hpower, LinearEquiv.symm_apply_apply]

/-- **No aliasing**: with room for the shift the autocorrelation around the circle is the linear one. -/
theorem sum_padded_eq {x : List ℝ} {d : Nat} (hd : d < x.length) (hN : x.length + d ≤ N) :
    ∑ j, padded x N j * padded x N (j + (d : ZMod N)) =
      ((∑ j ∈ Finset.range x.length, x.getD j 0 * x.getD (j + d) 0 : ℝ) : ℂ) := by
  have hterm : ∀ j : ZMod N, padded x N j * padded x N (j + (d : ZMod N)) =
      ((x.getD j.val 0 * x.getD (j.val + d) 0 : ℝ) : ℂ) := by
    intro j
    obtain hj | hj := Nat.lt_or_ge j.val x.length
    · have hval : (j + (d : ZMod N)).val = j.val + d := by
        rw [ZMod.val_add, ZMod.val_natCast, Nat.mod_eq_of_lt (show d < N by omega), Nat.mod_eq_of_lt (by omega)]
      rw [padded, padded, hval, ofReal_mul]
    · rw [padded, List.getD_eq_default _ _ hj, zero_mul, ofReal_zero, zero_mul]
  rw [Finset.sum_congr rfl fun j _ => hterm j, ← ofReal_sum, ofReal_inj,
    sum_univ_val fun j => x.getD j 0 * x.getD (j + d) 0]
  refine (Finset.sum_subset (Finset.range_mono (show x.length ≤ N by omega)) fun j _ hj => ?_).symm
  rw [List.getD_eq_default _ _ (Nat.le_of_not_lt fun h => hj (Finset.mem_range.2 h)), zero_mul]

end Bajiru.Dft
