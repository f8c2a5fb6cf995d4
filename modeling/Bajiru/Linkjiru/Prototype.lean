import Bajiru.Linkjiru.Resampler
import Bajiru.WindowedSinc

/-!
# The prototype of a stage

`buildPrototype` of `PolyphaseFir.hpp`: a Kaiser-windowed sinc that is scaled by its own sum. The sum is positive for
every ratio and every number of taps (`sum_rawTap_pos`), so the taps have the sum `L` and are symmetric
(`designPrototype_spec`). A level that stays the same therefore comes out of the whole cascade: out of a stage with
`L = 1` as it is, and out of the last stage in the mean over its phases (`constant_level`). Numbers are real.
-/

namespace Bajiru.Linkjiru

namespace PolyphaseFir

open Finset

/-- The loop of `i0(x)`. -/
noncomputable def i0From (x sum term : ℝ) : List Nat → ℝ
  | [] => sum
  | k :: ks =>
    let term := term * (x * x / (4 * k * k))
    let sum := sum + term
    if term < 1e-12 * sum then sum else i0From x sum term ks

/-- `i0(x)`. -/
noncomputable def i0 (x : ℝ) : ℝ := i0From x 1 1 (List.range' 1 63)

/-- `beta`. -/
def beta : ℝ := (9 : Nat)

/-- `h[i]` before it is scaled. -/
noncomputable def rawTap (nTaps : Nat) (cutoff : ℝ) (i : Nat) : ℝ :=
  let center := ((nTaps : ℝ) - 1) / 2
  let i0beta := i0 beta
  let m := (i : ℝ) - center
  let sinc := if m = 0 then 2 * cutoff else Real.sin (2 * Real.pi * cutoff * m) / (Real.pi * m)
  let r := 2 * (i : ℝ) / ((nTaps : ℝ) - 1) - 1
  let win := i0 (beta * √(max 0 (1 - r * r))) / i0beta
  sinc * win

/-- The taps `h` of `buildPrototype(nTaps, cutoff)`, for an up factor `L`. -/
noncomputable def buildPrototype (L nTaps : Nat) (cutoff : ℝ) : Mem ℝ :=
  let sum := ∑ i ∈ range nTaps, rawTap nTaps cutoff i
  let gain := L / sum
  fun i => rawTap nTaps cutoff i * gain

/-- The prototype that `design(upFactor, downFactor, tapsPerPhase, maxInputSamples)` builds. -/
noncomputable def designPrototype (L M tapsPerPhase : Nat) : Mem ℝ :=
  let cutoff := min (0.5 / (L : ℝ)) (0.5 / (M : ℝ))
  buildPrototype L (L * tapsPerPhase) cutoff

/-! ## `i0` -/

/-- A sum only grows. -/
theorem le_i0From {x sum term : ℝ} (hterm : 0 ≤ term) (ks : List Nat) : sum ≤ i0From x sum term ks := by
  induction ks generalizing sum term with
  | nil => exact le_rfl
  | cons k ks ih =>
    have hnext : 0 ≤ term * (x * x / (4 * k * k)) :=
      mul_nonneg hterm (div_nonneg (mul_self_nonneg x) (by positivity))
    rw [i0From]
    split
    · exact le_add_of_nonneg_right hnext
    · exact (le_add_of_nonneg_right hnext).trans (ih hnext)

/-- A greater argument has greater terms, also against the sum. So its loop is not the first to stop. -/
theorem i0From_mono {x y : ℝ} (hx : 0 ≤ x) (hxy : x ≤ y) (ks : List Nat) {sum term sum' term' : ℝ} (hsum : 0 < sum)
    (hterm : 0 ≤ term) (hsums : sum ≤ sum') (hterms : term ≤ term') (hratio : term * sum' ≤ term' * sum) :
    i0From x sum term ks ≤ i0From y sum' term' ks := by
  induction ks generalizing sum term sum' term' with
  | nil => exact hsums
  | cons k ks ih =>
    have hden : (0 : ℝ) ≤ 4 * k * k := by positivity
    have hfactor : 0 ≤ x * x / (4 * k * k) := div_nonneg (mul_self_nonneg x) hden
    have hfactors : x * x / (4 * k * k) ≤ y * y / (4 * k * k) :=
      div_le_div_of_nonneg_right (mul_self_le_mul_self hx hxy) hden
    rw [i0From, i0From]
    generalize x * x / (4 * k * k) = a at *
    generalize y * y / (4 * k * k) = b at *
    have hnext : 0 ≤ term * a := mul_nonneg hterm hfactor
    have hnexts : term * a ≤ term' * b := mul_le_mul hterms hfactors hfactor (hterm.trans hterms)
    have hsum' : 0 < sum' := hsum.trans_le hsums
    have hprod : term * a * sum' ≤ term' * b * sum := by
      calc term * a * sum' = term * sum' * a := by ring
        _ ≤ term' * sum * a := mul_le_mul_of_nonneg_right hratio hfactor
        _ ≤ term' * sum * b := mul_le_mul_of_nonneg_left hfactors (mul_nonneg (hterm.trans hterms) hsum.le)
        _ = term' * b * sum := by ring
    have hratio' : term * a * (sum' + term' * b) ≤ term' * b * (sum + term * a) := by linarith
    have hpos : 0 < sum + term * a := add_pos_of_pos_of_nonneg hsum hnext
    have hpos' : 0 < sum' + term' * b := add_pos_of_pos_of_nonneg hsum' (hnext.trans hnexts)
    have hsums' : sum + term * a ≤ sum' + term' * b := add_le_add hsums hnexts
    split_ifs with hstop hstop' hstop'
    · exact hsums'
    · exact hsums'.trans (le_i0From (hnext.trans hnexts) ks)
    · refine absurd ?_ hstop
      have hlt : term' * b * (sum + term * a) < 1e-12 * (sum' + term' * b) * (sum + term * a) :=
        mul_lt_mul_of_pos_right hstop' hpos
      refine lt_of_mul_lt_mul_right ?_ hpos'.le
      calc term * a * (sum' + term' * b) < 1e-12 * (sum' + term' * b) * (sum + term * a) := hratio'.trans_lt hlt
        _ = 1e-12 * (sum + term * a) * (sum' + term' * b) := by ring
    · exact ih hpos hnext hsums' hnexts hratio'

theorem i0_pos (x : ℝ) : 0 < i0 x := one_pos.trans_le (le_i0From zero_le_one _)

theorem i0_mono {x y : ℝ} (hx : 0 ≤ x) (hxy : x ≤ y) : i0 x ≤ i0 y :=
  i0From_mono hx hxy _ one_pos zero_le_one le_rfl le_rfl le_rfl

/-! ## The taps -/

open WindowedSinc (sinc offset place kaiser Window)

theorem window_i0 (n : Nat) : Window n (kaiser i0 beta n) :=
  WindowedSinc.window_kaiser (fun x _ => i0_pos x) (fun _ _ => i0_mono) (Nat.cast_nonneg 9) n

/-- The taps are a windowed sinc. -/
theorem rawTap_eq (nTaps : Nat) (cutoff : ℝ) (i : Nat) :
    rawTap nTaps cutoff i = WindowedSinc.tap (2 * Real.pi * cutoff) (kaiser i0 beta nTaps) nTaps i := by
  have hsqrt : ∀ v : ℝ, √(max 0 v) = √v := by
    intro v
    obtain hv | hv := le_total 0 v
    · rw [max_eq_right hv]
    · rw [max_eq_left hv, Real.sqrt_zero, Real.sqrt_eq_zero_of_nonpos hv]
  have hpi := Real.pi_ne_zero
  have hlimit : 2 * Real.pi * cutoff / Real.pi = 2 * cutoff := by field_simp
  unfold rawTap WindowedSinc.tap sinc offset kaiser place
  simp only [hsqrt, hlimit]

/-- **The sum that the taps are scaled by is positive.** -/
theorem sum_rawTap_pos {nTaps : Nat} (hn : 0 < nTaps) {cutoff : ℝ} (h0 : 0 < cutoff) (hhalf : cutoff ≤ 1 / 2) :
    0 < ∑ i ∈ range nTaps, rawTap nTaps cutoff i := by
  simp only [rawTap_eq]
  have hpi := Real.pi_pos
  exact WindowedSinc.sum_tap_pos (window_i0 nTaps) hn (by positivity) (by nlinarith)

theorem sum_buildPrototype {L nTaps : Nat} (hn : 0 < nTaps) {cutoff : ℝ} (h0 : 0 < cutoff) (hhalf : cutoff ≤ 1 / 2) :
    ∑ i ∈ range nTaps, buildPrototype L nTaps cutoff i = L := by
  have hsum := sum_rawTap_pos hn h0 hhalf
  unfold buildPrototype
  rw [← sum_mul, mul_div_cancel₀ _ hsum.ne']

variable {L M taps : Nat}

theorem cutoff_mem (hL : 0 < L) (hM : 0 < M) :
    0 < min (0.5 / (L : ℝ)) (0.5 / (M : ℝ)) ∧ min (0.5 / (L : ℝ)) (0.5 / (M : ℝ)) ≤ 1 / 2 := by
  have hL : (1 : ℝ) ≤ L := by exact_mod_cast hL
  have hM : (1 : ℝ) ≤ M := by exact_mod_cast hM
  refine ⟨lt_min (by positivity) (by positivity), (min_le_left _ _).trans ?_⟩
  rw [div_le_iff₀ (by linarith)]
  linarith

theorem sum_designPrototype (hL : 0 < L) (hM : 0 < M) (htaps : 0 < taps) :
    ∑ i ∈ range (L * taps), designPrototype L M taps i = L := by
  obtain ⟨h0, hhalf⟩ := cutoff_mem hL hM
  exact sum_buildPrototype (Nat.mul_pos hL htaps) h0 hhalf

/-- **The prototype** has the sum `L`, so the gains of its phases have the mean 1, and is symmetric. -/
theorem designPrototype_spec (hL : 0 < L) (hM : 0 < M) (htaps : 0 < taps) :
    (∑ p ∈ range L, ∑ k ∈ range taps, designPrototype L M taps (p + k * L)) / L = 1 ∧
      ∀ i, i < L * taps → designPrototype L M taps (L * taps - 1 - i) = designPrototype L M taps i := by
  constructor
  · rw [Upfirdn.sum_phases, sum_designPrototype hL hM htaps]
    exact div_self (Nat.cast_ne_zero.2 hL.ne')
  · intro i hi
    unfold designPrototype buildPrototype
    simp only [rawTap_eq, WindowedSinc.tap_reflect (window_i0 _) hi]

theorem designPrototype_six :
    (∑ p ∈ range 2, ∑ k ∈ range 3, designPrototype 2 1 3 (p + k * 2)) / (2 : Nat) = 1 ∧
      ∀ i, i < 2 * 3 → designPrototype 2 1 3 (2 * 3 - 1 - i) = designPrototype 2 1 3 i :=
  designPrototype_spec (by decide) (by decide) (by decide)

end PolyphaseFir

namespace Resampler

open Finset PolyphaseFir Upfirdn

/-- From sample `w` on the stream has the level `c`. -/
def Level (c : ℝ) (w : Nat) (xs : List ℝ) : Prop := ∀ j, w ≤ j → j < xs.length → xs.getD j 0 = c

/-- From which output on the stages have seen nothing else than the samples from `w` on. -/
def settled : List (Nat × Nat) → Nat → Nat
  | [], w => w
  | (L, M) :: ratios, w => settled ratios ((w + kStageTaps) * L ⌈/⌉ M)

variable {c : ℝ} {w L M t : Nat} {xs : List ℝ}

theorem getD_resample {n : Nat} {h : Nat → ℝ} (ht : t < count L M xs.length) :
    (resample L M n h xs).getD t 0 = upfirdn L M n h (fun i => xs.getD i 0) t := by
  rw [List.getD_eq_getElem _ _ (by rwa [length_resample])]
  simp [resample]

/-- **A stage** gives the level in the mean over its phases. -/
theorem sum_resample_level (hL : 0 < L) (hM : 0 < M) (hLM : L.Coprime M) (hxs : Level c w xs)
    (ht : (w + kStageTaps) * L ⌈/⌉ M ≤ t) (hlen : t + L ≤ count L M xs.length) :
    ∑ i ∈ range L, (resample L M (L * kStageTaps) (designPrototype L M kStageTaps) xs).getD (t + i) 0 = L * c := by
  have hout : ∀ i ∈ range L,
      (resample L M (L * kStageTaps) (designPrototype L M kStageTaps) xs).getD (t + i) 0 =
        upfirdn L M (L * kStageTaps) (designPrototype L M kStageTaps) (fun j => xs.getD j 0) (t + i) := fun i hi =>
    getD_resample ((Nat.add_lt_add_left (mem_range.1 hi) t).trans_le hlen)
  have hfull : (w + kStageTaps) * L ≤ t * M := by
    rw [Nat.mul_comm t]
    exact (ceilDiv_le_iff_le_mul hM).1 ht
  have hlast : (t + (L - 1)) * M / L < xs.length := (lt_count_iff_div hL hM).1 (by omega)
  rw [sum_congr rfl hout, sum_upfirdn_const hL hLM hfull fun j hj hle => hxs j hj (hle.trans_lt hlast),
    sum_designPrototype hL hM (by decide)]

/-- A stage with one phase keeps the level. -/
theorem level_resample (hM : 0 < M) (hxs : Level c w xs) :
    Level c ((w + kStageTaps) * 1 ⌈/⌉ M) (resample 1 M (1 * kStageTaps) (designPrototype 1 M kStageTaps) xs) := by
  intro t ht hlt
  rw [length_resample] at hlt
  have hsum := sum_resample_level Nat.one_pos hM (Nat.coprime_one_left M) hxs ht hlt
  simpa using hsum

/-- The up factor of the last stage. -/
def lastUp (ratios : List (Nat × Nat)) : Nat := (ratios.getLastD (1, 1)).1

theorem lastUp_halve {target rate : Nat} (h : 2 * target < rate) :
    lastUp (stageRatios target rate) = lastUp (stageRatios target (rate / 2)) := by
  rw [stageRatios_halve h, stageRatios]
  split <;> simp [lastUp]

theorem lastUp_pos {target : Nat} (htarget : 0 < target) {rate : Nat} (hrate : 0 < rate) :
    0 < lastUp (stageRatios target rate) := by
  induction rate using Nat.strong_induction_on with
  | _ rate ih =>
    by_cases hhalve : 2 * target < rate
    · rw [lastUp_halve hhalve]
      exact ih (rate / 2) (by omega) (by omega)
    · rw [stageRatios_last hhalve]
      exact (reduced_pos htarget hrate).1

/-- **The cascade** gives the level in the mean over the phases of its last stage. -/
theorem sum_composed_level {target : Nat} (htarget : 0 < target) {rate : Nat} (hrate : 0 < rate) (hxs : Level c w xs)
    (ht : settled (stageRatios target rate) w ≤ t)
    (hlen : t + lastUp (stageRatios target rate) ≤ (composed designPrototype (stageRatios target rate) xs).length) :
    ∑ i ∈ range (lastUp (stageRatios target rate)),
      (composed designPrototype (stageRatios target rate) xs).getD (t + i) 0 =
        lastUp (stageRatios target rate) * c := by
  induction rate using Nat.strong_induction_on generalizing w xs with
  | _ rate ih =>
    by_cases hhalve : 2 * target < rate
    · rw [lastUp_halve hhalve] at hlen ⊢
      rw [stageRatios_halve hhalve] at ht hlen ⊢
      exact ih (rate / 2) (by omega) (by omega) (level_resample two_pos hxs) ht hlen
    · rw [stageRatios_last hhalve] at ht hlen ⊢
      obtain ⟨hL, hM⟩ := reduced_pos htarget hrate
      have hcoprime := Nat.coprime_div_gcd_div_gcd (Nat.gcd_pos_of_pos_left rate htarget)
      refine sum_resample_level hL hM hcoprime hxs ht ?_
      rw [length_composed] at hlen
      exact hlen

/-- The blocks of any calls are the reference, if the host rate is at least half the target rate. -/
theorem blocks_eq_reference {target hostRate maxInput : Nat} (htarget : 0 < target) (hhost : target ≤ 2 * hostRate)
    {rs : Resampler ℝ} (hrs : (Resampler.new ℝ target maxInput).bind (·.prepare designPrototype hostRate) = some rs)
    {blocks : List (List ℝ)} (hlen : ∀ block ∈ blocks, block.length ≤ maxInput) :
    (rs.processAll blocks).flatMap (·.block) = reference designPrototype target hostRate blocks.flatten := by
  have hfit : hostRate ≠ target → ∀ n, n ≤ maxInput → outputCount (stageRatios target hostRate) n ≤ maxInput * 2 :=
    fun _ n hn => (outputCount_le_two_mul htarget hhost n).trans (by omega)
  obtain ⟨hout, -⟩ := processAll_streamed hfit hlen (prepare_streamed htarget (by omega) hrs)
  rw [reference_nil, List.nil_append, List.nil_append] at hout
  exact hout.symm

/-- **A level passes the resampler**: if the input stays at `c` from some sample on, the output has the mean `c` over
the phases of the last stage, from some output on, however the input is cut into blocks. -/
theorem constant_level {target hostRate maxInput : Nat} (htarget : 0 < target) (hhost : target ≤ 2 * hostRate)
    {rs : Resampler ℝ} (hrs : (Resampler.new ℝ target maxInput).bind (·.prepare designPrototype hostRate) = some rs)
    {blocks : List (List ℝ)} (hlen : ∀ block ∈ blocks, block.length ≤ maxInput) (hlevel : Level c w blocks.flatten)
    (ht : settled (stageRatios target hostRate) w ≤ t)
    (hend : t + lastUp (stageRatios target hostRate) ≤ ((rs.processAll blocks).flatMap (·.block)).length) :
    (∑ i ∈ range (lastUp (stageRatios target hostRate)), ((rs.processAll blocks).flatMap (·.block)).getD (t + i) 0) /
      lastUp (stageRatios target hostRate) = c := by
  rw [blocks_eq_reference htarget hhost hrs hlen] at hend ⊢
  by_cases heq : hostRate = target
  · -- the input is the output
    subst heq
    have hratios : stageRatios hostRate hostRate = [(1, 1)] := by
      rw [stageRatios_last (by omega), Nat.gcd_self, Nat.div_self htarget]
    have hsettled : w ≤ settled [(1, 1)] w := by
      simp only [settled, Nat.mul_one, ceilDiv_one]
      omega
    rw [hratios] at ht hend ⊢
    rw [reference, if_pos rfl] at hend ⊢
    have hvalue := hlevel t (hsettled.trans ht) hend
    simpa [lastUp] using hvalue
  · rw [reference, if_neg heq] at hend ⊢
    have hrate : 0 < hostRate := by omega
    rw [sum_composed_level htarget hrate hlevel ht hend]
    exact mul_div_cancel_left₀ c (Nat.cast_ne_zero.2 (lastUp_pos htarget hrate).ne')

/-- A hundred samples from 96 kHz to 48 kHz, in blocks of two. -/
theorem constant_level_hundred : ∃ rs : Resampler ℝ,
    (Resampler.new ℝ 48000 2).bind (·.prepare designPrototype 96000) = some rs ∧
      ((rs.processAll (List.replicate 50 [1, 1])).flatMap (·.block)).getD 24 0 = 1 := by
  obtain ⟨rs, hrs⟩ := Option.isSome_iff_exists.1
    (show ((Resampler.new ℝ 48000 2).bind (·.prepare designPrototype 96000)).isSome from by decide +kernel)
  have hratios : stageRatios 48000 96000 = [(1, 2)] := stageRatios_last (by decide)
  have hlen : ∀ block ∈ List.replicate 50 [(1 : ℝ), 1], block.length ≤ 2 := fun block hblock => by
    rw [List.eq_of_mem_replicate hblock]
    rfl
  have hlevel : Level 1 0 (List.replicate 50 [(1 : ℝ), 1]).flatten := by
    intro j _ hj
    obtain ⟨block, hblock, hmem⟩ := List.mem_flatten.1 (List.getElem_mem hj)
    rw [List.eq_of_mem_replicate hblock] at hmem
    rw [List.getD_eq_getElem _ _ hj]
    simpa using hmem
  have hend : 24 + lastUp (stageRatios 48000 96000) ≤
      ((rs.processAll (List.replicate 50 [(1 : ℝ), 1])).flatMap (·.block)).length := by
    rw [blocks_eq_reference (by decide) (by decide) hrs hlen, reference, if_neg (by decide), length_composed, hratios,
      List.length_flatten, List.map_replicate]
    decide
  have hmean := constant_level (by decide) (by decide) hrs hlen hlevel (t := 24) (by rw [hratios]; decide) hend
  rw [hratios] at hmean
  exact ⟨rs, hrs, by simpa [lastUp] using hmean⟩

end Resampler

end Bajiru.Linkjiru
