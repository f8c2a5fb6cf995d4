import Bajiru.DataAugment.Config
import Bajiru.NnModel.Eval
import Bajiru.WindowedSinc
import Mathlib.Algebra.BigOperators.Field
import Mathlib.Algebra.Order.Floor.Div
import Mathlib.Analysis.SpecificLimits.Normed
import Mathlib.Data.List.GetD

/-!
# `resample.py`

Sinc resampling with a Kaiser window. The signal is reflected at its ends, so every output is a sum over all taps
(`filter_eq`). The kernel is symmetric and has the sum 1 (`sum_tapAt`): a constant comes out of `sinc_downsample` as
it is, and a signal turned around comes out turned around. Its zeros are at the multiples of the factor, so
`sinc_upsample` leaves the samples of the signal in place, all with the same gain (`sincUpsample_spec`). Numbers are
real.
-/

namespace Bajiru.DataAugment

open Finset

/-! ## NumPy -/

/-- `np.i0(x)`. -/
noncomputable def i0 (x : ℝ) : ℝ := tsum fun k : Nat => ((x / 2) ^ k / k.factorial) ^ 2

/-- `np.kaiser(M, beta)`. -/
noncomputable def kaiser (m : Nat) (beta : ℝ) : List ℝ :=
  if m = 1 then [1]
  else
    let alpha := ((m : ℝ) - 1) / 2
    (List.range m).map fun (n : Nat) => i0 (beta * √(1 - (((n : ℝ) - alpha) / alpha) ^ 2)) / i0 beta

/-- `np.pad(xs, pad, mode="reflect")`. -/
noncomputable def padReflect (xs : List ℝ) (pad : Nat) : Except PyError (List ℝ) :=
  if xs.length = 0 ∧ pad ≠ 0 then
    .error (.valueError "can't extend empty axis 0 using modes other than 'constant' or 'empty'")
  else
    .ok ((List.range (xs.length + 2 * pad)).map fun (i : Nat) =>
      xs.getD (NnModel.reflectIndex xs.length ((i : Int) - pad).natAbs) 0)

/-- Entry `n` of `np.convolve(a, v, mode="full")`. -/
noncomputable def convolveAt (a v : List ℝ) (n : Nat) : ℝ :=
  ∑ j ∈ range v.length, if j ≤ n then v.getD j 0 * a.getD (n - j) 0 else 0

/-- `np.convolve(a, v, mode="same")`. -/
noncomputable def convolveSame (a v : List ℝ) : Except PyError (List ℝ) :=
  if a.length = 0 then .error (.valueError "a cannot be empty")
  else if v.length = 0 then .error (.valueError "v cannot be empty")
  else
    .ok ((List.range (max a.length v.length)).map fun (n : Nat) =>
      convolveAt a v (n + (min a.length v.length - 1) / 2))

/-! ## The code -/

/-- `_kaiser_sinc_kernel(num_taps, cutoff, beta)`. -/
noncomputable def kaiserSincKernel (numTaps : Nat) (cutoff beta : ℝ) : List ℝ :=
  let n := (List.range numTaps).map fun (i : Nat) => (i : ℝ) - ((numTaps : ℝ) - 1) / 2
  let kernel := n.map fun n => Real.sin (Real.pi * cutoff * n) / (Real.pi * n)
  let kernel := if numTaps % 2 = 1 then kernel.set (numTaps / 2) cutoff else kernel
  let kernel := List.zipWith (· * ·) kernel (kaiser numTaps beta)
  kernel.map (· / kernel.sum)

/-- The default of `beta`. -/
def kaiserBeta : ℝ := (14 : Nat)

/-- Padding, the filter and the slice of both functions. -/
noncomputable def filterSinc (signal : List ℝ) (factor numTaps : Nat) : Except PyError (List ℝ) := do
  let kernel := kaiserSincKernel numTaps (1 / factor) kaiserBeta
  let pad := numTaps / 2
  let padded ← padReflect signal pad
  let filtered ← convolveSame padded kernel
  return (filtered.drop pad).take signal.length

/-- `sinc_upsample(signal, factor, num_taps)`. -/
noncomputable def sincUpsample (signal : List ℝ) (factor numTaps : Nat) : Except PyError (List ℝ) :=
  if factor = 1 then .ok signal
  else if factor = 0 then .error (.valueError "slice step cannot be zero")
  else do
    let upsampled := (List.range (signal.length * factor)).map fun (i : Nat) =>
      if factor ∣ i then signal.getD (i / factor) 0 else 0
    let filtered ← filterSinc upsampled factor numTaps
    return filtered.map (· * (factor : ℝ))

/-- `sinc_downsample(signal, factor, num_taps)`, for a factor that is not 0. -/
noncomputable def sincDownsample (signal : List ℝ) (factor numTaps : Nat) : Except PyError (List ℝ) :=
  if factor = 1 then .ok signal
  else do
    let filtered ← filterSinc signal factor numTaps
    return (List.range (filtered.length ⌈/⌉ factor)).map fun (i : Nat) => filtered.getD (i * factor) 0

/-! ## The kernel -/

theorem summable_i0 (x : ℝ) : Summable fun k : Nat => ((x / 2) ^ k / k.factorial) ^ 2 := by
  refine Summable.of_nonneg_of_le (fun k => sq_nonneg _) (fun k => ?_) (Real.summable_pow_div_factorial ((x / 2) ^ 2))
  have hfact : (1 : ℝ) ≤ k.factorial := by exact_mod_cast k.factorial_pos
  rw [div_pow, ← pow_mul, ← pow_mul, mul_comm k 2]
  exact div_le_div_of_nonneg_left (by rw [pow_mul]; positivity) (by linarith) (le_self_pow₀ hfact two_ne_zero)

theorem i0_pos (x : ℝ) : 0 < i0 x :=
  (summable_i0 x).tsum_pos (fun k => sq_nonneg _) 0 (by simp)

theorem i0_mono {x y : ℝ} (hx : 0 ≤ x) (hxy : x ≤ y) : i0 x ≤ i0 y := by
  refine (summable_i0 x).tsum_le_tsum (fun k => ?_) (summable_i0 y)
  gcongr

/-- The window. A single tap is 1. -/
noncomputable def kaiserAt (numTaps i : Nat) : ℝ :=
  if numTaps = 1 then 1 else WindowedSinc.kaiser i0 kaiserBeta numTaps i

theorem window_kaiserAt (numTaps : Nat) : WindowedSinc.Window numTaps (kaiserAt numTaps) := by
  by_cases hone : numTaps = 1
  · subst hone
    exact ⟨fun _ _ => rfl, fun _ _ => zero_le_one, fun _ => one_pos, fun _ _ _ => le_rfl⟩
  · have hwin : kaiserAt numTaps = WindowedSinc.kaiser i0 kaiserBeta numTaps := funext fun i => if_neg hone
    rw [hwin]
    exact WindowedSinc.window_kaiser (fun x _ => i0_pos x) (fun _ _ => i0_mono) (Nat.cast_nonneg 14) numTaps

/-- A tap before the kernel is scaled. -/
noncomputable def rawTap (numTaps factor i : Nat) : ℝ :=
  WindowedSinc.tap (Real.pi / factor) (kaiserAt numTaps) numTaps i

theorem kaiser_eq (numTaps : Nat) : kaiser numTaps kaiserBeta = (List.range numTaps).map (kaiserAt numTaps) := by
  unfold kaiser
  split
  next hone => subst hone; simp [kaiserAt]
  next hone =>
    refine List.map_congr_left fun i hi => ?_
    have hi := List.mem_range.1 hi
    have hreal : ((numTaps : ℝ) - 1) ≠ 0 := by
      have : (1 : ℝ) < numTaps := by exact_mod_cast (by omega : 1 < numTaps)
      linarith
    have hplace : ((i : ℝ) - ((numTaps : ℝ) - 1) / 2) / (((numTaps : ℝ) - 1) / 2) = WindowedSinc.place numTaps i := by
      unfold WindowedSinc.place
      field_simp
    rw [kaiserAt, if_neg hone, WindowedSinc.kaiser, hplace, sq]

variable {numTaps factor : Nat}

theorem offset_eq_zero_iff (hodd : numTaps % 2 = 1) (i : Nat) :
    WindowedSinc.offset numTaps i = 0 ↔ i = numTaps / 2 := by
  obtain ⟨p, rfl⟩ : ∃ p, numTaps = 2 * p + 1 := ⟨numTaps / 2, by omega⟩
  have hhalf : (2 * p + 1) / 2 = p := by omega
  have hmid : ((((2 * p + 1 : Nat) : ℝ)) - 1) / 2 = p := by
    push_cast
    ring
  rw [hhalf, WindowedSinc.offset, hmid, sub_eq_zero, Nat.cast_inj]

/-- The kernel is the windowed sinc over its sum. -/
theorem kaiserSincKernel_eq (hodd : numTaps % 2 = 1) : kaiserSincKernel numTaps (1 / factor) kaiserBeta =
    (List.range numTaps).map fun (i : Nat) =>
      rawTap numTaps factor i / ∑ k ∈ range numTaps, rawTap numTaps factor k := by
  have htaps : List.zipWith (· * ·)
      ((((List.range numTaps).map fun (i : Nat) => (i : ℝ) - ((numTaps : ℝ) - 1) / 2).map fun n =>
        Real.sin (Real.pi * (1 / factor) * n) / (Real.pi * n)).set (numTaps / 2) (1 / factor))
      (kaiser numTaps kaiserBeta) = (List.range numTaps).map (rawTap numTaps factor) := by
    rw [kaiser_eq]
    refine List.ext_getElem (by simp) fun i hi _ => ?_
    have hpi := Real.pi_ne_zero
    simp only [List.getElem_zipWith, List.getElem_set, List.getElem_map, List.getElem_range, rawTap, WindowedSinc.tap]
    congr 1
    unfold WindowedSinc.sinc
    by_cases hmid : i = numTaps / 2
    · rw [if_pos hmid.symm, if_pos ((offset_eq_zero_iff hodd i).2 hmid)]
      field_simp
    · rw [if_neg (Ne.symm hmid), if_neg (mt (offset_eq_zero_iff hodd i).1 hmid)]
      have harg : Real.pi * (1 / (factor : ℝ)) * WindowedSinc.offset numTaps i =
          Real.pi / factor * WindowedSinc.offset numTaps i := by ring
      rw [← harg]
      rfl
  unfold kaiserSincKernel
  dsimp only
  rw [if_pos hodd, htaps, List.map_map]
  rfl

theorem sum_rawTap_pos (hn : 0 < numTaps) (hf : 0 < factor) : 0 < ∑ i ∈ range numTaps, rawTap numTaps factor i := by
  have hf : (1 : ℝ) ≤ factor := by exact_mod_cast hf
  exact WindowedSinc.sum_tap_pos (window_kaiserAt numTaps) hn (div_pos Real.pi_pos (by linarith))
    (div_le_self Real.pi_pos.le hf)

/-- Tap `i` of the kernel. -/
noncomputable def tapAt (numTaps factor i : Nat) : ℝ := (kaiserSincKernel numTaps (1 / factor) kaiserBeta).getD i 0

theorem length_kernel (hodd : numTaps % 2 = 1) :
    (kaiserSincKernel numTaps (1 / factor) kaiserBeta).length = numTaps := by
  rw [kaiserSincKernel_eq hodd, List.length_map, List.length_range]

theorem tapAt_eq (hodd : numTaps % 2 = 1) {i : Nat} (hi : i < numTaps) :
    tapAt numTaps factor i = rawTap numTaps factor i / ∑ k ∈ range numTaps, rawTap numTaps factor k := by
  rw [tapAt, kaiserSincKernel_eq hodd, List.getD_eq_getElem _ _ (by simpa using hi), List.getElem_map,
    List.getElem_range]

/-- **The kernel** has the sum 1. -/
theorem sum_tapAt (hodd : numTaps % 2 = 1) (hf : 0 < factor) : ∑ i ∈ range numTaps, tapAt numTaps factor i = 1 := by
  rw [sum_congr rfl fun i hi => tapAt_eq hodd (mem_range.1 hi), ← sum_div]
  exact div_self (sum_rawTap_pos (by omega) hf).ne'

/-- It is symmetric. -/
theorem tapAt_reflect (hodd : numTaps % 2 = 1) {i : Nat} (hi : i < numTaps) :
    tapAt numTaps factor (numTaps - 1 - i) = tapAt numTaps factor i := by
  rw [tapAt_eq hodd (by omega), tapAt_eq hodd hi, rawTap, rawTap, WindowedSinc.tap_reflect (window_kaiserAt numTaps) hi]

/-- Its zeros are a multiple of the factor away from the middle. -/
theorem tapAt_eq_zero (hodd : numTaps % 2 = 1) (hf : 0 < factor) {i : Nat} (hi : i < numTaps) (hne : i ≠ numTaps / 2)
    (hdvd : (factor : Int) ∣ (numTaps / 2 : Nat) - i) : tapAt numTaps factor i = 0 := by
  obtain ⟨m, hm⟩ := hdvd
  have hoffset : WindowedSinc.offset numTaps i = factor * ((-m : Int) : ℝ) := by
    have hmid : (numTaps : ℝ) - 1 = 2 * (numTaps / 2 : Nat) := by
      have hdiv := Nat.div_add_mod numTaps 2
      rw [hodd] at hdiv
      have : (numTaps : ℝ) = 2 * (numTaps / 2 : Nat) + 1 := by exact_mod_cast hdiv.symm
      linarith
    have hcast : (((numTaps / 2 : Nat) : ℝ)) - i = factor * (m : ℝ) := by exact_mod_cast hm
    rw [WindowedSinc.offset, hmid, mul_div_cancel_left₀ _ two_ne_zero, Int.cast_neg, mul_neg, ← hcast, neg_sub]
  have hm0 : -m ≠ 0 := by
    intro hzero
    rw [neg_eq_zero.1 hzero, mul_zero] at hm
    omega
  rw [tapAt_eq hodd hi, rawTap, WindowedSinc.tap, hoffset, WindowedSinc.sinc_zero hf hm0, zero_mul, zero_div]

/-- The tap in the middle. -/
theorem tapAt_middle_pos (hodd : numTaps % 2 = 1) (hf : 0 < factor) : 0 < tapAt numTaps factor (numTaps / 2) := by
  have hf' : (0 : ℝ) < factor := Nat.cast_pos.2 hf
  rw [tapAt_eq hodd (by omega), rawTap, WindowedSinc.tap, (offset_eq_zero_iff hodd _).2 rfl, WindowedSinc.sinc,
    if_pos rfl]
  have hwin := (window_kaiserAt numTaps).middle (by omega)
  have hsum := sum_rawTap_pos (show 0 < numTaps by omega) hf
  have hpi := Real.pi_pos
  positivity

/-! ## The filter -/

variable {signal : List ℝ}

/-- Output `k` of the filter: all taps on the reflected signal. -/
noncomputable def filterAt (signal : List ℝ) (factor numTaps k : Nat) : ℝ :=
  ∑ j ∈ range numTaps, tapAt numTaps factor j *
    signal.getD (NnModel.reflectIndex signal.length ((k : Int) + (numTaps / 2 : Nat) - j).natAbs) 0

/-- The signal with its reflections. -/
noncomputable def reflected (signal : List ℝ) (pad : Nat) : List ℝ :=
  (List.range (signal.length + 2 * pad)).map fun (i : Nat) =>
    signal.getD (NnModel.reflectIndex signal.length ((i : Int) - pad).natAbs) 0

@[simp] theorem length_reflected (signal : List ℝ) (pad : Nat) :
    (reflected signal pad).length = signal.length + 2 * pad := by simp [reflected]

theorem getD_reflected {pad i : Nat} (hi : i < signal.length + 2 * pad) : (reflected signal pad).getD i 0 =
    signal.getD (NnModel.reflectIndex signal.length ((i : Int) - pad).natAbs) 0 := by
  rw [List.getD_eq_getElem _ _ (by simpa using hi)]
  simp only [reflected, List.getElem_map, List.getElem_range]

/-- **No output reaches past the padding.** -/
theorem convolveAt_reflected (hodd : numTaps % 2 = 1) {k : Nat} (hk : k < signal.length) :
    convolveAt (reflected signal (numTaps / 2)) (kaiserSincKernel numTaps (1 / factor) kaiserBeta)
      (numTaps / 2 + k + numTaps / 2) = filterAt signal factor numTaps k := by
  unfold convolveAt filterAt
  rw [length_kernel hodd]
  refine sum_congr rfl fun j hj => ?_
  have hj := mem_range.1 hj
  rw [if_pos (by omega), getD_reflected (by omega), tapAt]
  congr 4
  omega

theorem filter_eq (hodd : numTaps % 2 = 1) (hne : signal ≠ []) : filterSinc signal factor numTaps =
    .ok ((List.range signal.length).map (filterAt signal factor numTaps)) := by
  have hpos := List.length_pos_iff.2 hne
  have hlen := @length_kernel numTaps factor hodd
  have hpad : padReflect signal (numTaps / 2) = .ok (reflected signal (numTaps / 2)) :=
    if_neg fun h => hpos.ne' h.1
  have hmax : max (signal.length + 2 * (numTaps / 2)) numTaps = signal.length + 2 * (numTaps / 2) :=
    max_eq_left (by omega)
  have hmin : (min (signal.length + 2 * (numTaps / 2)) numTaps - 1) / 2 = numTaps / 2 := by
    rw [min_eq_right (by omega)]
    omega
  have hconv : convolveSame (reflected signal (numTaps / 2)) (kaiserSincKernel numTaps (1 / factor) kaiserBeta) =
      .ok ((List.range (signal.length + 2 * (numTaps / 2))).map fun (n : Nat) =>
        convolveAt (reflected signal (numTaps / 2)) (kaiserSincKernel numTaps (1 / factor) kaiserBeta)
          (n + numTaps / 2)) := by
    rw [convolveSame, if_neg (by rw [length_reflected]; omega), if_neg (by rw [hlen]; omega), length_reflected, hlen,
      hmax, hmin]
  unfold filterSinc
  dsimp only
  rw [hpad]
  show (convolveSame (reflected signal (numTaps / 2)) (kaiserSincKernel numTaps (1 / factor) kaiserBeta) >>= _) = _
  rw [hconv]
  refine congrArg Except.ok (List.ext_getElem (by simp; omega) fun k hk _ => ?_)
  have hk : k < signal.length := (List.length_take_le _ _).trans_lt' hk
  simp only [List.getElem_take, List.getElem_drop, List.getElem_map, List.getElem_range]
  exact convolveAt_reflected hodd hk

/-! ## Downsampling -/

theorem reflectIndex_lt {n : Nat} (hn : 0 < n) (d : Nat) : NnModel.reflectIndex n d < n := by
  unfold NnModel.reflectIndex
  dsimp only
  split
  · assumption
  · omega

/-- A filter keeps a constant. -/
theorem filterAt_replicate (hodd : numTaps % 2 = 1) (hf : 0 < factor) (c : ℝ) {n k : Nat} (hn : 0 < n) :
    filterAt (List.replicate n c) factor numTaps k = c := by
  have hread : ∀ d, (List.replicate n c).getD (NnModel.reflectIndex n d) 0 = c := fun d => by
    rw [List.getD_eq_getElem _ _ (by simpa using reflectIndex_lt hn d), List.getElem_replicate]
  unfold filterAt
  simp only [List.length_replicate, hread]
  rw [← sum_mul, sum_tapAt hodd hf, one_mul]

/-- Position `q` is read at `e`, up to whole periods and the sign. -/
def ReflectsTo (n : Nat) (e : Nat) (q : Int) : Prop :=
  ∃ m : Int, q = 2 * ((n : Int) - 1) * m + e ∨ q = 2 * ((n : Int) - 1) * m - e

theorem reflectIndex_spec {n : Nat} (hn : 1 < n) (q : Int) :
    NnModel.reflectIndex n q.natAbs < n ∧ ReflectsTo n (NnModel.reflectIndex n q.natAbs) q := by
  have hperiod : ((2 * (n - 1) : Nat) : Int) = 2 * ((n : Int) - 1) := by omega
  have hdiv : (q.natAbs : Int) = 2 * ((n : Int) - 1) * (q.natAbs / (2 * (n - 1)) : Nat) +
      (q.natAbs % (2 * (n - 1)) : Nat) := by
    rw [← hperiod]
    exact_mod_cast (Nat.div_add_mod q.natAbs (2 * (n - 1))).symm
  have hlt : q.natAbs % (2 * (n - 1)) < 2 * (n - 1) := Nat.mod_lt _ (by omega)
  have hsign : q = q.natAbs ∨ q = -q.natAbs := by omega
  unfold NnModel.reflectIndex ReflectsTo
  dsimp only
  generalize q.natAbs % (2 * (n - 1)) = i at *
  generalize q.natAbs / (2 * (n - 1)) = m at *
  split
  · refine ⟨by assumption, ?_⟩
    obtain h | h := hsign
    · exact ⟨m, .inl (by linarith)⟩
    · exact ⟨-m, .inr (by linarith)⟩
  · refine ⟨by omega, ?_⟩
    rw [Nat.cast_sub hlt.le, hperiod]
    obtain h | h := hsign
    · exact ⟨m + 1, .inr (by linarith)⟩
    · exact ⟨-(m + 1), .inl (by linarith)⟩

/-- Less than two periods apart. -/
theorem eq_zero_or_one_of_mul {N k s : Int} (hN : 0 < N) (h : 2 * N * k = s) (hlow : -N ≤ s) (hhigh : s ≤ 2 * N) :
    k = 0 ∨ k = 1 := by
  have hlower : -1 < k := by
    by_contra hneg
    nlinarith
  have hupper : k < 2 := by
    by_contra hbig
    nlinarith
  omega

/-- The place is unique. -/
theorem ReflectsTo.unique {n : Nat} {e e' : Nat} {q : Int} (h : ReflectsTo n e q) (h' : ReflectsTo n e' q)
    (he : e < n) (he' : e' < n) : e = e' := by
  obtain hn | hn := Nat.lt_or_ge 1 n
  · obtain ⟨m, h⟩ := h
    obtain ⟨m', h'⟩ := h'
    have hN : 0 < (n : Int) - 1 := by omega
    obtain h | h := h <;> obtain h' | h' := h'
    · obtain hk | hk := eq_zero_or_one_of_mul (k := m - m') (s := (e' : Int) - e) hN (by linarith) (by omega) (by omega)
      · rw [sub_eq_zero.1 hk] at h
        omega
      · rw [sub_eq_iff_eq_add.1 hk, mul_add, mul_one] at h
        omega
    · obtain hk | hk := eq_zero_or_one_of_mul (k := m' - m) (s := (e : Int) + e') hN (by linarith) (by omega) (by omega)
      · rw [sub_eq_zero.1 hk] at h'
        omega
      · rw [sub_eq_iff_eq_add.1 hk, mul_add, mul_one] at h'
        omega
    · obtain hk | hk := eq_zero_or_one_of_mul (k := m - m') (s := (e : Int) + e') hN (by linarith) (by omega) (by omega)
      · rw [sub_eq_zero.1 hk] at h
        omega
      · rw [sub_eq_iff_eq_add.1 hk, mul_add, mul_one] at h
        omega
    · obtain hk | hk := eq_zero_or_one_of_mul (k := m' - m) (s := (e' : Int) - e) hN (by linarith) (by omega) (by omega)
      · rw [sub_eq_zero.1 hk] at h'
        omega
      · rw [sub_eq_iff_eq_add.1 hk, mul_add, mul_one] at h'
        omega
  · omega

/-- A reflected position, seen from the other end. -/
theorem reflectIndex_reverse {n : Nat} (hn : 0 < n) (q : Int) :
    n - 1 - NnModel.reflectIndex n ((n : Int) - 1 - q).natAbs = NnModel.reflectIndex n q.natAbs := by
  obtain rfl | hn := (show 1 ≤ n from hn).eq_or_lt
  · have hzero : ∀ d, NnModel.reflectIndex 1 d = 0 := by
      intro d
      unfold NnModel.reflectIndex
      dsimp only
      split <;> omega
    rw [hzero, hzero]
  · obtain ⟨hlt, m, hm⟩ := reflectIndex_spec hn ((n : Int) - 1 - q)
    obtain ⟨hlt', hq⟩ := reflectIndex_spec hn q
    generalize NnModel.reflectIndex n ((n : Int) - 1 - q).natAbs = e at *
    have hcast : ((n - 1 - e : Nat) : Int) = (n : Int) - 1 - e := by omega
    refine ReflectsTo.unique ?_ hq (by omega) hlt'
    unfold ReflectsTo
    rw [hcast]
    obtain h | h := hm
    · exact ⟨-m, .inl (by linarith)⟩
    · exact ⟨1 - m, .inr (by linarith)⟩

/-- **A signal turned around** is filtered to what its filtered samples are, turned around. -/
theorem filterAt_reverse (hodd : numTaps % 2 = 1) {k : Nat} (hk : k < signal.length) :
    filterAt signal.reverse factor numTaps (signal.length - 1 - k) = filterAt signal factor numTaps k := by
  have hpos : 0 < signal.length := by omega
  unfold filterAt
  rw [← sum_range_reflect, List.length_reverse]
  refine sum_congr rfl fun j hj => ?_
  have hj := mem_range.1 hj
  rw [tapAt_reflect hodd hj]
  congr 1
  have hindex := reflectIndex_reverse hpos ((k : Int) + (numTaps / 2 : Nat) - j)
  have hmirror : ((signal.length - 1 - k : Nat) : Int) + (numTaps / 2 : Nat) - (numTaps - 1 - j : Nat) =
      (signal.length : Int) - 1 - ((k : Int) + (numTaps / 2 : Nat) - j) := by omega
  rw [hmirror, ← hindex]
  have hlt := reflectIndex_lt hpos ((signal.length : Int) - 1 - ((k : Int) + (numTaps / 2 : Nat) - j)).natAbs
  generalize NnModel.reflectIndex signal.length _ = e at *
  rw [List.getD_eq_getElem _ _ (by simpa using hlt), List.getElem_reverse, List.getD_eq_getElem]

theorem sincDownsample_eq (hodd : numTaps % 2 = 1) (hf : 1 < factor) (hne : signal ≠ []) :
    sincDownsample signal factor numTaps =
      .ok ((List.range (signal.length ⌈/⌉ factor)).map fun (i : Nat) =>
        filterAt signal factor numTaps (i * factor)) := by
  unfold sincDownsample
  rw [if_neg hf.ne', filter_eq hodd hne]
  refine congrArg Except.ok ?_
  rw [List.length_map, List.length_range]
  refine List.map_congr_left fun i hi => ?_
  have hi : i * factor < signal.length := by
    rw [← Nat.not_le, Nat.mul_comm, ← ceilDiv_le_iff_le_mul (by omega)]
    exact Nat.not_le.2 (List.mem_range.1 hi)
  rw [List.getD_eq_getElem _ _ (by simpa using hi), List.getElem_map, List.getElem_range]

/-- **`sinc_downsample`** keeps every `factor`th filtered sample. A constant stays as it is, and if a signal ends on
such a sample, turning it around turns the output around. -/
theorem sincDownsample_spec (hodd : numTaps % 2 = 1) (hf : 1 < factor) (hne : signal ≠ []) :
    ∃ out, sincDownsample signal factor numTaps = .ok out ∧ out.length = signal.length ⌈/⌉ factor ∧
      (∀ c, signal = List.replicate signal.length c → out = List.replicate out.length c) ∧
      (factor ∣ signal.length - 1 → sincDownsample signal.reverse factor numTaps = .ok out.reverse) := by
  have hpos := List.length_pos_iff.2 hne
  refine ⟨_, sincDownsample_eq hodd hf hne, by simp, fun c hc => ?_, fun hdvd => ?_⟩
  · rw [List.eq_replicate_iff]
    refine ⟨rfl, fun v hv => ?_⟩
    obtain ⟨i, -, rfl⟩ := List.mem_map.1 hv
    rw [hc]
    exact filterAt_replicate hodd (by omega) c hpos
  · obtain ⟨m, hm⟩ := hdvd
    have hlen : signal.length = factor * m + 1 := by omega
    have hcount : signal.length ⌈/⌉ factor = m + 1 := by
      refine le_antisymm ((ceilDiv_le_iff_le_mul (by omega)).2 ?_) (Nat.lt_of_not_le fun hle => ?_)
      · rw [Nat.mul_succ]
        omega
      · have := (ceilDiv_le_iff_le_mul (show 0 < factor by omega)).1 hle
        omega
    rw [sincDownsample_eq hodd hf (by simpa using hne), List.length_reverse, hcount]
    refine congrArg Except.ok (List.ext_getElem (by simp) fun i hi _ => ?_)
    have hi : i ≤ m := by
      rw [List.length_map, List.length_range] at hi
      omega
    have hstep : i * factor ≤ factor * m := by
      rw [Nat.mul_comm]
      exact Nat.mul_le_mul_left factor hi
    have hback : signal.length - 1 - (m + 1 - 1 - i) * factor = i * factor := by
      rw [hlen, Nat.add_sub_cancel, Nat.add_sub_cancel, Nat.sub_mul, Nat.mul_comm m]
      omega
    have hk : (m + 1 - 1 - i) * factor < signal.length := by
      rw [Nat.add_sub_cancel, Nat.sub_mul, Nat.mul_comm m]
      omega
    have hreverse := @filterAt_reverse numTaps factor signal hodd _ hk
    rw [hback] at hreverse
    simp only [List.getElem_map, List.getElem_range, List.getElem_reverse, List.length_map, List.length_range]
    exact hreverse

theorem sincDownsample_three : ∃ out, sincDownsample [1, 2, 3] 2 5 = .ok out ∧ out.length = 2 ∧
    sincDownsample [3, 2, 1] 2 5 = .ok out.reverse := by
  obtain ⟨out, hout, hlen, -, hreverse⟩ := @sincDownsample_spec 5 2 [1, 2, 3] (by decide) (by decide)
    (List.cons_ne_nil _ _)
  exact ⟨out, hout, hlen, hreverse (by decide)⟩

/-! ## Upsampling -/

/-- `upsampled`. -/
noncomputable def zeroStuffed (signal : List ℝ) (factor : Nat) : List ℝ :=
  (List.range (signal.length * factor)).map fun (i : Nat) => if factor ∣ i then signal.getD (i / factor) 0 else 0

@[simp] theorem length_zeroStuffed (signal : List ℝ) (factor : Nat) :
    (zeroStuffed signal factor).length = signal.length * factor := by simp [zeroStuffed]

theorem getD_zeroStuffed {i : Nat} (hi : i < signal.length * factor) :
    (zeroStuffed signal factor).getD i 0 = if factor ∣ i then signal.getD (i / factor) 0 else 0 := by
  rw [List.getD_eq_getElem _ _ (by simpa using hi)]
  simp only [zeroStuffed, List.getElem_map, List.getElem_range]

theorem reflectIndex_of_lt {n d : Nat} (hd : d < n) : NnModel.reflectIndex n d = d := by
  have hmod : d % (2 * (n - 1)) = d := by
    obtain rfl | hn := (show 1 ≤ n by omega).eq_or_lt
    · rw [Nat.lt_one_iff.1 hd, Nat.zero_mod]
    · exact Nat.mod_eq_of_lt (by omega)
  unfold NnModel.reflectIndex
  rw [hmod, if_pos hd]

/-- **A sample of the signal** meets the middle of the kernel, and the others meet its zeros. -/
theorem filterAt_zeroStuffed (hodd : numTaps % 2 = 1) (hf : 0 < factor) {k : Nat}
    (hk : k * factor + numTaps / 2 < signal.length * factor) :
    filterAt (zeroStuffed signal factor) factor numTaps (k * factor) =
      tapAt numTaps factor (numTaps / 2) * signal.getD k 0 := by
  have hread : ∀ j, j < numTaps → (zeroStuffed signal factor).getD (NnModel.reflectIndex
      (zeroStuffed signal factor).length (((k * factor : Nat) : Int) + (numTaps / 2 : Nat) - j).natAbs) 0 =
      if factor ∣ (((k * factor : Nat) : Int) + (numTaps / 2 : Nat) - j).natAbs then
        signal.getD ((((k * factor : Nat) : Int) + (numTaps / 2 : Nat) - j).natAbs / factor) 0 else 0 := by
    intro j hj
    have hlt : (((k * factor : Nat) : Int) + (numTaps / 2 : Nat) - j).natAbs < signal.length * factor := by omega
    rw [length_zeroStuffed, reflectIndex_of_lt hlt, getD_zeroStuffed hlt]
  unfold filterAt
  rw [sum_eq_single (numTaps / 2)]
  · rw [hread _ (by omega)]
    have hself : (((k * factor : Nat) : Int) + (numTaps / 2 : Nat) - (numTaps / 2 : Nat)).natAbs = k * factor :=
      by omega
    rw [hself, if_pos (Nat.dvd_mul_left _ _), Nat.mul_div_cancel _ hf]
  · intro j hj hne
    have hj := mem_range.1 hj
    rw [hread j hj]
    split
    next hdvd =>
      have hmultiple : (factor : Int) ∣ (numTaps / 2 : Nat) - j := by
        have habs := Int.natCast_dvd.2 hdvd
        have hshift : (((numTaps / 2 : Nat) : Int)) - j =
            ((k * factor : Nat) : Int) + (numTaps / 2 : Nat) - j - (k : Int) * factor := by
          push_cast
          ring
        rw [hshift]
        exact dvd_sub habs (Dvd.intro_left _ rfl)
      rw [tapAt_eq_zero hodd hf hj hne hmultiple, zero_mul]
    next => rw [mul_zero]
  · intro hmem
    exact absurd (mem_range.2 (by omega)) hmem

/-- **`sinc_upsample`** leaves the samples of the signal in their places, all with the same positive gain, as far as the
kernel does not reach over the end. -/
theorem sincUpsample_spec (hodd : numTaps % 2 = 1) (hf : 1 < factor) (hne : signal ≠ []) :
    ∃ out, sincUpsample signal factor numTaps = .ok out ∧ out.length = signal.length * factor ∧
      0 < tapAt numTaps factor (numTaps / 2) * factor ∧
      ∀ k, k * factor + numTaps / 2 < signal.length * factor →
        out.getD (k * factor) 0 = tapAt numTaps factor (numTaps / 2) * factor * signal.getD k 0 := by
  have hpos := List.length_pos_iff.2 hne
  have hstuffed : zeroStuffed signal factor ≠ [] := by
    rw [← List.length_pos_iff, length_zeroStuffed]
    exact Nat.mul_pos hpos (by omega)
  have hrun : sincUpsample signal factor numTaps = .ok (((List.range (signal.length * factor)).map
      (filterAt (zeroStuffed signal factor) factor numTaps)).map (· * (factor : ℝ))) := by
    have hfilter := @filter_eq numTaps factor _ hodd hstuffed
    unfold sincUpsample
    rw [if_neg hf.ne', if_neg (by omega)]
    show (filterSinc (zeroStuffed signal factor) factor numTaps >>= _) = _
    rw [hfilter, length_zeroStuffed]
    rfl
  refine ⟨_, hrun, by simp, mul_pos (tapAt_middle_pos hodd (by omega)) (Nat.cast_pos.2 (by omega)), fun k hk => ?_⟩
  rw [List.getD_eq_getElem _ _ (by simp; omega)]
  simp only [List.getElem_map, List.getElem_range]
  rw [filterAt_zeroStuffed hodd (by omega) hk]
  ring

theorem sincUpsample_three : ∃ out, sincUpsample [1, 2, 3] 2 3 = .ok out ∧ out.length = 6 ∧
    out.getD 2 0 = tapAt 3 2 1 * (2 : Nat) * 2 := by
  obtain ⟨out, hout, hlen, -, hsamples⟩ := @sincUpsample_spec 3 2 [1, 2, 3] (by decide) (by decide)
    (List.cons_ne_nil _ _)
  exact ⟨out, hout, hlen, hsamples 1 (by decide)⟩

end Bajiru.DataAugment
