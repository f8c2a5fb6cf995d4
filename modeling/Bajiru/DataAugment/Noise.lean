import Bajiru.DataAugment.Augmenter
import Bajiru.Dft

/-!
# Coloured noise

`_generate_colored_noise` gives the spectrum of white noise a gain for each frequency and turns it into samples again;
`apply_noise` adds it at a level that is relative to the signal. The noise has no constant part, its power falls with
the frequency or with the square of it, and what is added has exactly the level that was asked for.
-/

namespace Bajiru.DataAugment

open StateExcept (bind_eq_ok run_bind_eq_ok)

/-- `_SHAPERS`. -/
noncomputable def Shaper.gain : Shaper → ℝ → ℝ
  | .pink, f => 1 / Real.sqrt f
  | .brown, f => 1 / f

/-- `shape`, from `np.fft.rfftfreq(n, d=1.0)`. -/
noncomputable def shapeGains (shaper : Shaper) (n : Nat) : List ℝ :=
  let freqs := (List.range (n / 2 + 1)).map fun (k : Nat) => (k : ℝ) / n
  let freqs := freqs.set 0 eps
  (freqs.map shaper.gain).set 0 0

/-- The shaped spectrum, as samples. -/
noncomputable def shapeNoise (shaper : Shaper) (white : List ℝ) : Except PyError (List ℝ) :=
  if h : white.length = 0 then
    .error (.valueError "Invalid number of FFT data points (0) specified.")
  else
    have : NeZero white.length := ⟨h⟩
    .ok (Dft.irfft (Dft.scale (Dft.rfft white white.length) (shapeGains shaper white.length)) white.length)

/-! ## The spectrum -/

variable {shaper : Shaper} {white noise : List ℝ}

@[simp] theorem length_shapeGains (shaper : Shaper) (n : Nat) : (shapeGains shaper n).length = n / 2 + 1 := by
  simp [shapeGains]

theorem shapeNoise_eq_ok [NeZero white.length] (h : shapeNoise shaper white = .ok noise) :
    noise = Dft.irfft (Dft.scale (Dft.rfft white white.length) (shapeGains shaper white.length)) white.length := by
  unfold shapeNoise at h
  rw [dif_neg (NeZero.ne white.length)] at h
  exact (Except.ok.inj h).symm

theorem length_of_shapeNoise (h : shapeNoise shaper white = .ok noise) : noise.length = white.length := by
  unfold shapeNoise at h
  split at h
  · cases h
  · next hne =>
    have : NeZero white.length := ⟨hne⟩
    cases h
    exact Dft.length_irfft _

theorem exists_shapeNoise (shaper : Shaper) (h : white.length ≠ 0) : ∃ noise, shapeNoise shaper white = .ok noise := by
  unfold shapeNoise
  rw [dif_neg h]
  exact ⟨_, rfl⟩

/-- Bin `k` of the noise is bin `k` of the white noise with the gain of its frequency; bin 0 is empty. -/
theorem getD_rfft_shapeNoise [NeZero white.length] (h : shapeNoise shaper white = .ok noise) {k : Nat}
    (hk : k ≤ white.length / 2) : (Dft.rfft noise white.length).getD k 0 =
      (Dft.rfft white white.length).getD k 0 * ((if k = 0 then 0 else shaper.gain (k / white.length) : ℝ) : ℂ) := by
  rw [shapeNoise_eq_ok h, Dft.rfft_irfft_scale white (length_shapeGains shaper white.length),
    List.getD_eq_getElem _ _ (by simp [Dft.scale]; omega)]
  simp only [Dft.scale, List.getElem_zipWith]
  rw [List.getD_eq_getElem _ _ (by simp; omega)]
  congr 2
  simp only [shapeGains]
  cases k with
  | zero => simp
  | succ k => simp

/-- How the power falls with the frequency. -/
noncomputable def Shaper.power : Shaper → ℝ → ℝ
  | .pink, f => 1 / f
  | .brown, f => (1 / f) ^ 2

theorem sq_gain (shaper : Shaper) {f : ℝ} (hf : 0 < f) : shaper.gain f ^ 2 = shaper.power f := by
  cases shaper with
  | pink => simp [Shaper.gain, Shaper.power, Real.sq_sqrt hf.le]
  | brown => rfl

/-- Shaped noise has no constant part. -/
theorem sum_of_shapeNoise {shaper : Shaper} {white noise : List ℝ} [NeZero white.length]
    (h : shapeNoise shaper white = .ok noise) : noise.sum = 0 := by
  have hzero := getD_rfft_shapeNoise h (Nat.zero_le _)
  rw [Dft.getD_rfft_zero (length_of_shapeNoise h), if_pos rfl, Complex.ofReal_zero, mul_zero] at hzero
  exact_mod_cast hzero

/-- **The colour.** Shaping keeps the number of samples and leaves no constant part; in every other bin the power of
pink noise is that of the white noise over the frequency, and that of brown noise over its square. -/
theorem shapeNoise_spectrum (shaper : Shaper) (white : List ℝ) [NeZero white.length] :
    ∃ noise, shapeNoise shaper white = .ok noise ∧
    noise.length = white.length ∧ noise.sum = 0 ∧ ∀ k : Nat, 0 < k → k ≤ white.length / 2 →
      Complex.normSq ((Dft.rfft noise white.length).getD k 0) =
        Complex.normSq ((Dft.rfft white white.length).getD k 0) * shaper.power (k / white.length) := by
  obtain ⟨noise, h⟩ := exists_shapeNoise shaper (NeZero.ne white.length)
  refine ⟨noise, h, length_of_shapeNoise h, sum_of_shapeNoise h, fun k hpos hk => ?_⟩
  have hf : (0 : ℝ) < k / white.length :=
    div_pos (by exact_mod_cast hpos) (by exact_mod_cast NeZero.pos white.length)
  rw [getD_rfft_shapeNoise h hk, if_neg hpos.ne', map_mul, Complex.normSq_ofReal, ← sq, sq_gain shaper hf]

theorem shapeNoise_spectrum_pair : ∃ noise, shapeNoise .pink [3, 1] = .ok noise ∧ noise.sum = 0 := by
  have : NeZero [(3 : ℝ), 1].length := ⟨by simp⟩
  obtain ⟨noise, h, -, hsum, -⟩ := shapeNoise_spectrum .pink [3, 1]
  exact ⟨noise, h, hsum⟩

/-! ## The level -/

/-- Scaled samples have a scaled level. -/
theorem rms_scale {c : ℝ} (hc : 0 ≤ c) (samples : List ℝ) : rms (samples.map (· * c)) = (rms samples).map (· * c) := by
  unfold rms
  by_cases hne : samples = []
  · simp [hne]
  · rw [if_neg hne, if_neg (by simpa using hne), Option.map_some]
    have hsum : ((samples.map (· * c)).map (· ^ 2)).sum = (samples.map (· ^ 2)).sum * c ^ 2 := by
      rw [List.map_map, ← List.sum_map_mul_right]
      exact congrArg List.sum (List.map_congr_left fun x _ => mul_pow x c 2)
    rw [hsum, List.length_map, mul_div_right_comm, Real.sqrt_mul' _ (sq_nonneg c), Real.sqrt_sq hc]

/-- What `apply_noise` has added to a signal: samples of its length, at the level that `snr_db` asks for. -/
structure Added (py : Builtins) (config : Config) (signal out noise : List ℝ) : Prop where
  sum : out = List.zipWith (· + ·) signal noise
  length : noise.length = signal.length
  level : ∃ signalRms snrDb, rms signal = some signalRms ∧ (config.get "snr_db" (.num 20)).toFloat py = .ok snrDb ∧
    rms noise = some (signalRms / (10 : ℝ) ^ (snrDb / 20))
  noConstant : isWhite (config.get "kind" (.str "white")) = false → noise.sum = 0

variable {Rng : Type} {py : Builtins} {kernels : Kernels Rng} {signal out : List ℝ} {config : Config} {rng rng' : Rng}

theorem run_lift_eq_ok {α : Type} {r : Except PyError α} {result : α × Rng} :
    (StateT.lift r : Draws Rng α).run rng = .ok result ↔ r = .ok result.1 ∧ result.2 = rng := by
  obtain ⟨b, t⟩ := result
  cases r with
  | error e => simp [StateT.lift, StateT.run, bind, Except.bind]
  | ok a => simp [StateT.lift, StateT.run, bind, Except.bind, pure, Except.pure, eq_comm]

theorem run_lift_bind {α β : Type} {x : Except PyError α} {a : α} (hx : x = .ok a) (f : α → Draws Rng β) :
    ((StateT.lift x : Draws Rng α) >>= f).run rng = (f a).run rng := by
  subst hx
  rfl

/-- Noise of one of the colours. -/
theorem generateColoredNoise_spec (hnormal : ∀ rng n, (kernels.standardNormal rng n).1.length = n)
    (hshape : kernels.shape = shapeNoise) {n : Nat} {kind : Value}
    (h : (generateColoredNoise kernels n kind).run rng = .ok (noise, rng')) :
    noise.length = n ∧ (isWhite kind = false → noise.sum = 0) := by
  unfold generateColoredNoise at h
  obtain ⟨white, t, hwhite, h⟩ := run_bind_eq_ok.1 h
  obtain rfl : (kernels.standardNormal rng n).1 = white := congrArg Prod.fst (Except.ok.inj hwhite)
  have hlen := hnormal rng n
  split at h
  · next hkind =>
    cases h
    exact ⟨hlen, fun hc => absurd hkind (by simp [hc])⟩
  · obtain ⟨h, -⟩ := run_lift_eq_ok.1 h
    obtain ⟨shaper, -, h⟩ := bind_eq_ok.1 h
    rw [hshape] at h
    have hne : (kernels.standardNormal rng n).1.length ≠ 0 := by
      intro hzero
      rw [shapeNoise, dif_pos hzero] at h
      cases h
    have : NeZero (kernels.standardNormal rng n).1.length := ⟨hne⟩
    exact ⟨(length_of_shapeNoise h).trans hlen, fun _ => sum_of_shapeNoise h⟩

/-- The three kinds of noise can be made. -/
theorem exists_generateColoredNoise (hnormal : ∀ rng n, (kernels.standardNormal rng n).1.length = n)
    (hshape : kernels.shape = shapeNoise) {n : Nat} (hn : n ≠ 0) {kind : String}
    (hkind : kind ∈ ["white", "pink", "brown"]) (rng : Rng) : ∃ raw rng', (generateColoredNoise kernels n (.str kind)).run rng = .ok (raw, rng') := by
  have hne : (kernels.standardNormal rng n).1.length ≠ 0 := by rwa [hnormal]
  have hcolour : ∀ shaper, ∃ raw rng',
      (StateT.lift (kernels.shape shaper (kernels.standardNormal rng n).1) : Draws Rng (List ℝ)).run
        (kernels.standardNormal rng n).2 = .ok (raw, rng') := fun shaper => by
    obtain ⟨noise, hnoise⟩ := exists_shapeNoise shaper hne
    exact ⟨noise, _, run_lift_eq_ok.2 ⟨hshape ▸ hnoise, rfl⟩⟩
  simp only [List.mem_cons, List.not_mem_nil, or_false] at hkind
  obtain rfl | rfl | rfl := hkind
  · exact ⟨_, _, rfl⟩
  · exact hcolour .pink
  · exact hcolour .brown

/-- Samples that count as silence. -/
def Silent (samples : List ℝ) : Prop := ∃ r, rms samples = some r ∧ r < eps

theorem any_rms_iff (samples : List ℝ) : ((rms samples).any fun r => decide (r < eps)) = true ↔ Silent samples := by
  cases h : rms samples <;> simp [Silent, h]

theorem exists_rms {samples : List ℝ} (hne : samples ≠ []) : ∃ r, rms samples = some r ∧ 0 ≤ r :=
  ⟨_, if_neg hne, Real.sqrt_nonneg _⟩

/-- A level that is not silence is positive. -/
theorem pos_of_not_silent {samples : List ℝ} (h : ¬Silent samples) {r : ℝ} (hr : rms samples = some r) : 0 < r := by
  have heps : (0 : ℝ) < eps := by norm_num [eps]
  by_contra hle
  exact h ⟨r, hr, (not_lt.1 hle).trans_lt heps⟩

/-- Noise at its level. -/
theorem added_scaled {snrDb signalRms noiseRms : ℝ} (hsnr : (config.get "snr_db" (.num 20)).toFloat py = .ok snrDb)
    (hsignal : rms signal = some signalRms) (hnoise : rms noise = some noiseRms) (hlen : noise.length = signal.length)
    (hgain : 0 < signalRms / (10 : ℝ) ^ (snrDb / 20) / noiseRms) (hpos : 0 < noiseRms)
    (hconst : isWhite (config.get "kind" (.str "white")) = false → noise.sum = 0) :
    Added py config signal
      (List.zipWith (· + ·) signal (noise.map (· * (signalRms / (10 : ℝ) ^ (snrDb / 20) / noiseRms))))
      (noise.map (· * (signalRms / (10 : ℝ) ^ (snrDb / 20) / noiseRms))) where
  sum := rfl
  length := by rw [List.length_map, hlen]
  level := by
    refine ⟨signalRms, snrDb, hsignal, hsnr, ?_⟩
    rw [rms_scale hgain.le, hnoise, Option.map_some, mul_div_cancel₀ _ hpos.ne']
  noConstant hc := by rw [List.sum_map_mul_right, List.map_id', hconst hc, zero_mul]

/-- **The level** is exact. `apply_noise` leaves a signal as it is if the signal or the noise is silent, and draws
nothing for a silent one; otherwise it adds the noise, scaled so that its level is below that of the signal by the
decibels of `snr_db`, and without a constant part when it is coloured. -/
theorem applyNoise_level (hnormal : ∀ rng n, (kernels.standardNormal rng n).1.length = n)
    (hshape : kernels.shape = shapeNoise) (hne : signal ≠ []) {snrDb : ℝ}
    (hsnr : (config.get "snr_db" (.num 20)).toFloat py = .ok snrDb) {kind : String}
    (hkind : config.get "kind" (.str "white") = .str kind) (hcolour : kind ∈ ["white", "pink", "brown"]) (rng : Rng) :
    ∃ out rng', (applyNoise py kernels signal config).run rng = .ok (out, rng') ∧
      (Silent signal → out = signal ∧ rng' = rng) ∧
      (¬Silent signal → ∃ raw, (generateColoredNoise kernels signal.length (.str kind)).run rng = .ok (raw, rng') ∧
        (Silent raw → out = signal) ∧
        (¬Silent raw → ∃ noise, Added py config signal out noise ∧ ∃ c, 0 < c ∧ noise = raw.map (· * c))) := by
  rw [applyNoise, run_lift_bind hsnr]
  simp only [hkind]
  by_cases hquiet : Silent signal
  · rw [if_pos ((any_rms_iff signal).2 hquiet)]
    exact ⟨signal, rng, rfl, fun _ => ⟨rfl, rfl⟩, fun h => absurd hquiet h⟩
  rw [if_neg (mt (any_rms_iff signal).1 hquiet)]
  obtain ⟨raw, rng', hraw⟩ :=
    exists_generateColoredNoise hnormal hshape (mt List.length_eq_zero_iff.1 hne) hcolour rng
  obtain ⟨hlen, hconst⟩ := generateColoredNoise_spec hnormal hshape hraw
  simp only [run_bind_eq_ok]
  by_cases hsilent : Silent raw
  · refine ⟨signal, rng', ⟨raw, rng', hraw, ?_⟩, fun h => absurd h hquiet,
      fun _ => ⟨raw, hraw, fun _ => rfl, fun h => absurd hsilent h⟩⟩
    rw [if_pos ((any_rms_iff raw).2 hsilent)]
    rfl
  obtain ⟨signalRms, hsignal, -⟩ := exists_rms hne
  obtain ⟨noiseRms, hnoise, -⟩ : ∃ r, rms raw = some r ∧ 0 ≤ r :=
    exists_rms fun hnil => hne (List.length_eq_zero_iff.1 (by rw [← hlen, hnil]; rfl))
  have hpos := pos_of_not_silent hsilent hnoise
  have hgain : 0 < signalRms / (10 : ℝ) ^ (snrDb / 20) / noiseRms :=
    div_pos (div_pos (pos_of_not_silent hquiet hsignal) (by positivity)) hpos
  refine ⟨_, rng', ⟨raw, rng', hraw, ?_⟩, fun h => absurd h hquiet,
    fun _ => ⟨raw, hraw, fun h => absurd h hsilent, fun _ =>
      ⟨_, added_scaled hsnr hsignal hnoise hlen hgain hpos fun hc => hconst (hkind ▸ hc), _, hgain, rfl⟩⟩⟩
  rw [if_neg (mt (any_rms_iff raw).1 hsilent), hsignal, hnoise]
  rfl

/-- Kernels whose white noise alternates. -/
noncomputable def alternating : Kernels Unit :=
  { idleKernels with standardNormal := fun rng n => ((List.range n).map fun k => (-1) ^ k, rng), shape := shapeNoise }

theorem not_silent {samples : List ℝ} {r : ℝ} (h : rms samples = some r) (hr : 1 ≤ r) : ¬Silent samples := by
  rintro ⟨q, hq, hlt⟩
  obtain rfl := Option.some.inj (h.symm.trans hq)
  have heps : eps < 1 := by norm_num [eps]
  linarith

/-- Neither [1, 3] nor its noise is silent. -/
theorem applyNoise_level_alternating :
    ∃ out, (applyNoise wordsOnly alternating [1, 3] .empty).run () = .ok (out, ()) ∧
      ∃ noise, Added wordsOnly .empty [1, 3] out noise ∧ ∃ c, 0 < c ∧ noise = [c, -c] := by
  have hne : [(1 : ℝ), 3] ≠ [] := by simp
  have hsignal : rms [1, 3] = some (Real.sqrt 5) := by
    rw [rms, if_neg hne]
    norm_num
  have hnoise : rms [1, -1] = some 1 := by
    rw [rms, if_neg (by simp)]
    norm_num
  have hnormal : ∀ rng n, (alternating.standardNormal rng n).1.length = n := fun _ _ => by simp [alternating]
  have hsnr : (Config.empty.get "snr_db" (.num 20)).toFloat wordsOnly = .ok 20 := rfl
  have hkind : Config.empty.get "kind" (.str "white") = .str "white" := rfl
  have hraw : (generateColoredNoise alternating 2 (.str "white")).run () = .ok ([1, -1], ()) := by
    simp [generateColoredNoise, alternating, isWhite, List.range_succ]
    rfl
  obtain ⟨out, ⟨⟩, hrun, -, hloud⟩ := applyNoise_level hnormal rfl hne hsnr hkind (by simp) ()
  obtain ⟨raw, hgenerated, -, hadded⟩ := hloud (not_silent hsignal (by simp))
  obtain rfl : [1, -1] = raw := congrArg Prod.fst (Except.ok.inj (hraw.symm.trans hgenerated))
  obtain ⟨noise, hnoise, c, hc, rfl⟩ := hadded (not_silent hnoise le_rfl)
  exact ⟨out, hrun, _, hnoise, c, hc, by simp⟩

end Bajiru.DataAugment
