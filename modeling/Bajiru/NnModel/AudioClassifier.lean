import Bajiru.FloatFormat
import Bajiru.NnModel.MelExtractor
import Bajiru.NnModel.AudioEncoder
import Bajiru.NnModel.Preprocessing
import Mathlib.Analysis.SpecialFunctions.Sigmoid

/-!
# `AudioClassifier`

The whole model, from the samples of a segment to the scores, for one example of the batch and in inference mode. The
features of a segment are the logarithms of its mels, compressed and, while training, augmented. What torch draws at
random is an argument, and so is the rounding `rnd` of the three operations whose floats run into their bounds: the sum
under the logarithm, the logarithm and the sigmoid. Everything else is real.
-/

namespace Bajiru.NnModel

variable {nMels n : Nat}

/-! ## Augmentation -/

/-- What the modules of `augmentation.py` draw. -/
structure Draws (nMels n : Nat) where
  rand : ℝ
  randn : Matrix (Fin nMels) (Fin n) ℝ
  randint : Int

/-- The modules of `augmentation.py`, with their fields. -/
inductive MelAugment
  | volume (maxLevel eps : ℝ)
  | noise (noiseLevel eps : ℝ)
  | binShift (shiftBins : Nat)

namespace MelAugment

/-- `_linear_to_db(x)`. -/
noncomputable def linearToDb (eps x : ℝ) : ℝ := 10 * Real.logb 10 (max x eps)

/-- `VolumeAugment.forward(x)`. -/
noncomputable def volumeForward (maxLevel eps : ℝ) (draws : Draws nMels n) (x : Matrix (Fin nMels) (Fin n) ℝ) :
    Matrix (Fin nMels) (Fin n) ℝ :=
  let y := draws.rand * maxLevel
  Matrix.of fun m t => MelCompressor.dbToLinear (linearToDb eps (x m t) + y)

/-- `NoiseAugment.forward(x)`. -/
noncomputable def noiseForward (noiseLevel eps : ℝ) (draws : Draws nMels n) (x : Matrix (Fin nMels) (Fin n) ℝ) :
    Matrix (Fin nMels) (Fin n) ℝ :=
  let y := fun m t => draws.randn m t * (draws.rand * noiseLevel)
  Matrix.of fun m t => MelCompressor.dbToLinear (linearToDb eps (x m t) + y m t)

/-- A bin around the circle of the mels. -/
theorem roll_lt (shift : Int) (m : Fin nMels) : (((m : Int) - shift) % nMels).toNat < nMels := by
  have hpos : 0 < (nMels : Int) := Int.natCast_pos.2 m.pos
  have hlow := Int.emod_nonneg ((m : Int) - shift) hpos.ne'
  have hhigh := Int.emod_lt_of_pos ((m : Int) - shift) hpos
  omega

/-- `torch.roll(x, shifts, dims)` over the mels. -/
def roll (shift : Int) (x : Matrix (Fin nMels) (Fin n) ℝ) : Matrix (Fin nMels) (Fin n) ℝ :=
  Matrix.of fun m t => x ⟨(((m : Int) - shift) % nMels).toNat, roll_lt shift m⟩ t

/-- `BinShiftAugment.forward(x)`. The slice `x[:, shift:]` of a negative shift starts so many bins from the end. -/
def binShiftForward (draws : Draws nMels n) (x : Matrix (Fin nMels) (Fin n) ℝ) : Matrix (Fin nMels) (Fin n) ℝ :=
  let shift := draws.randint
  if shift ≠ 0 then
    let x := roll shift x
    if 0 < shift then Matrix.of fun m t => if (m : Int) < shift then 0 else x m t
    else Matrix.of fun m t => if nMels + shift ≤ (m : Int) then 0 else x m t
  else x

/-- `forward(x)`. -/
noncomputable def forward (draws : Draws nMels n) (x : Matrix (Fin nMels) (Fin n) ℝ) :
    MelAugment → Matrix (Fin nMels) (Fin n) ℝ
  | volume maxLevel eps => volumeForward maxLevel eps draws x
  | noise noiseLevel eps => noiseForward noiseLevel eps draws x
  | binShift _ => binShiftForward draws x

end MelAugment

/-! ## The model -/

/-- The frames of a spectrogram, each with its mels. -/
def frames (x : Matrix (Fin nMels) (Fin n) ℝ) : List (List ℝ) := List.ofFn fun t => List.ofFn fun m => x m t

/-- `MelCompressor.forward(x)` on mels and frames. -/
noncomputable def MelCompressor.forwardMels (c : MelCompressor) (x : Matrix (Fin nMels) (Fin n) ℝ) :
    Matrix (Fin nMels) (Fin n) ℝ :=
  Matrix.of fun m t => ((c.forward (frames x)).getD t []).getD m 0

/-- `ClassifierHead`. -/
structure ClassifierHead (nChannels nHistory nClasses nInner : Nat) where
  conv : Conv1d ℝ nChannels nInner nHistory 1
  norm : LayerNorm ℝ nInner
  head : Linear ℝ nInner nClasses

/-- A kernel over the whole history gives one frame. -/
theorem squeeze_lt {nHistory : Nat} (h : 0 < nHistory) : 0 < nHistory - 1 * (nHistory - 1) := by omega

/-- `ClassifierHead.forward(x)`: the scores and the logits. -/
noncomputable def ClassifierHead.forward {nChannels nHistory nClasses nInner : Nat} (rnd silu : ℝ → ℝ)
    (c : ClassifierHead nChannels nHistory nClasses nInner) (hpos : 0 < nHistory)
    (x : Matrix (Fin nChannels) (Fin nHistory) ℝ) : (Fin nClasses → ℝ) × (Fin nClasses → ℝ) :=
  let x := c.conv.forward x
  let x := fun o => x o ⟨0, squeeze_lt hpos⟩
  let x := c.norm x
  let x := fun o => silu (x o)
  let logits := c.head.forward (Matrix.of fun (_ : Fin 1) => x) 0
  let scores := fun o => rnd (Real.sigmoid (logits o))
  (scores, logits)

/-- `AudioClassifier`, with the history that the preset gives it: the frames of a segment. -/
structure AudioClassifier (f : Framing) (nMels convChannels convLayers transDim transLayers
    nHidden nClasses : Nat) where
  eps : ℝ
  melSpec : MelExtractor f nMels
  melPrep : List MelCompressor
  melAugm : List MelAugment
  encoder : AudioEncoder ℝ nMels f.nFrames convChannels convLayers transDim transLayers
  classifier : ClassifierHead transDim f.nFrames nClasses nHidden

namespace AudioClassifier

variable {f : Framing} {convChannels convLayers transDim transLayers nHidden nClasses : Nat}

/-- `self.mel_augm(x)`, with what each module draws. -/
noncomputable def augmentMels (melAugm : List MelAugment) (draws : Nat → Draws nMels n)
    (x : Matrix (Fin nMels) (Fin n) ℝ) : Matrix (Fin nMels) (Fin n) ℝ :=
  melAugm.zipIdx.foldl (fun x (m, i) => m.forward (draws i) x) x

/-- `_prepare_mels(x, augment)`. With `augment` there is what the modules draw. -/
noncomputable def prepareMels (rnd : ℝ → ℝ)
    (c : AudioClassifier f nMels convChannels convLayers transDim transLayers nHidden nClasses)
    (x : Fin f.nSamples → ℝ) (augment : Option (Nat → Draws nMels f.nFrames)) : Matrix (Fin nMels) (Fin f.nFrames) ℝ :=
  let x := c.melSpec.forward x
  let x := c.melPrep.foldl (fun x prep => prep.forwardMels x) x
  let x := match augment with
    | some draws => augmentMels c.melAugm draws x
    | none => x
  x.map fun v => rnd (Real.log (rnd (v + c.eps)))

/-- `forward_train(x, augment)`: the scores and the logits. -/
noncomputable def forwardTrain (rnd silu gelu : ℝ → ℝ)
    (c : AudioClassifier f nMels convChannels convLayers transDim transLayers nHidden nClasses)
    (x : Fin f.nSamples → ℝ) (augment : Option (Nat → Draws nMels f.nFrames)) :
    (Fin nClasses → ℝ) × (Fin nClasses → ℝ) :=
  let x := c.prepareMels rnd x augment
  let x := c.encoder.forward silu gelu x
  c.classifier.forward rnd silu f.nFrames_pos x

/-- `forward(x)`. -/
noncomputable def forward (rnd silu gelu : ℝ → ℝ)
    (c : AudioClassifier f nMels convChannels convLayers transDim transLayers nHidden nClasses)
    (x : Fin f.nSamples → ℝ) : Fin nClasses → ℝ :=
  let x := c.prepareMels rnd x none
  let x := c.encoder.forward silu gelu x
  (c.classifier.forward rnd silu f.nFrames_pos x).1

end AudioClassifier

/-! ## Compression -/

namespace MelCompressor

/-- A compressor that its constructor has made. -/
def Built (c : MelCompressor) : Prop :=
  ∃ threshold ratio knee attackFrames releaseFrames makeup eps,
    c = init threshold ratio knee attackFrames releaseFrames makeup eps

theorem dbToLinear_pos (x : ℝ) : 0 < dbToLinear x := Real.rpow_pos_of_pos (by norm_num) _

theorem smooth_pos {c : MelCompressor} (hc : c.Built) {lvl tgt : ℝ} (hlvl : 0 < lvl) (htgt : 0 < tgt) :
    0 < c.smooth lvl tgt := by
  obtain ⟨threshold, ratio, knee, attackFrames, releaseFrames, makeup, eps, rfl⟩ := hc
  have hlerp : ∀ coef, 0 < coef ∧ coef < 1 → 0 < lerp tgt lvl coef := by
    intro coef hcoef
    have hmean : lerp tgt lvl coef = (1 - coef) * tgt + coef * lvl := by
      unfold lerp
      ring
    rw [hmean]
    exact add_pos (mul_pos (sub_pos.2 hcoef.2) htgt) (mul_pos hcoef.1 hlvl)
  unfold smooth
  dsimp only
  split
  · exact hlerp _ (calcCoef_mem _)
  · exact hlerp _ (calcCoef_mem _)

theorem outLevels_pos {c : MelCompressor} (hc : c.Built) {lvl : ℝ} (hlvl : 0 < lvl) {tgtLvl : List ℝ}
    (htgt : ∀ tgt ∈ tgtLvl, 0 < tgt) : ∀ l ∈ c.outLevels lvl tgtLvl, 0 < l := by
  induction tgtLvl generalizing lvl with
  | nil => simp [outLevels]
  | cons tgt tgtLvl ih =>
    obtain ⟨hhead, hrest⟩ := List.forall_mem_cons.1 htgt
    have hnext := smooth_pos hc hlvl hhead
    exact List.forall_mem_cons.2 ⟨hnext, ih hnext hrest⟩

@[simp] theorem length_outLevels (c : MelCompressor) (lvl : ℝ) (tgtLvl : List ℝ) :
    (c.outLevels lvl tgtLvl).length = tgtLvl.length := by
  induction tgtLvl generalizing lvl with
  | nil => rfl
  | cons tgt tgtLvl ih => simp [outLevels, ih]

/-- The levels of the first frames do not need the others. -/
theorem take_outLevels (c : MelCompressor) (k : Nat) (lvl : ℝ) (tgtLvl : List ℝ) :
    (c.outLevels lvl tgtLvl).take k = c.outLevels lvl (tgtLvl.take k) := by
  induction tgtLvl generalizing lvl k with
  | nil => simp [outLevels]
  | cons tgt tgtLvl ih =>
    cases k with
    | zero => simp [outLevels]
    | succ k => simp [outLevels, ih]

theorem take_forward (c : MelCompressor) (k : Nat) (x : List (List ℝ)) :
    (c.forward x).take k = c.forward (x.take k) := by
  rw [forward, List.take_zipWith, take_outLevels, ← List.map_take]
  rfl

/-- **A compressor turns each frame up or down** as a whole. -/
theorem exists_gain {c : MelCompressor} (hc : c.Built) (x : Matrix (Fin nMels) (Fin n) ℝ) :
    ∃ g : Fin n → ℝ, (∀ t, 0 < g t) ∧ c.forwardMels x = Matrix.of fun m t => x m t * g t := by
  have hmakeup : 0 < c.makeup := by
    obtain ⟨threshold, ratio, knee, attackFrames, releaseFrames, makeup, eps, rfl⟩ := hc
    exact dbToLinear_pos makeup
  have htargets : ∀ tgt ∈ (frames x).map c.targetLevel, 0 < tgt := by
    intro tgt htgt
    obtain ⟨frame, -, rfl⟩ := List.mem_map.1 htgt
    exact dbToLinear_pos _
  have hlevels := outLevels_pos hc one_pos htargets
  refine ⟨fun t => (c.outLevels 1 ((frames x).map c.targetLevel)).get ⟨t, by simp [frames]⟩ * c.makeup,
    fun t => mul_pos (hlevels _ (List.get_mem _ _)) hmakeup, ?_⟩
  ext m t
  simp [forwardMels, forward, frames, applyLevel, mul_assoc]

/-- A frame is compressed by the levels up to it. -/
theorem forwardMels_causal (c : MelCompressor) :
    CausalFrames (c.forwardMels : Matrix (Fin nMels) (Fin n) ℝ → Matrix (Fin nMels) (Fin n) ℝ) := by
  refine causal_iff.2 fun t x y hxy => ?_
  have htake : (frames (Matrix.transpose x)).take (t + 1) = (frames (Matrix.transpose y)).take (t + 1) := by
    refine List.ext_getElem (by simp [frames]) fun s hs _ => ?_
    have hst : s < t + 1 := (List.length_take_le _ _).trans_lt' hs
    have hsn : s < n := hst.trans_le t.isLt
    have hframe : ∀ m, Matrix.transpose x m ⟨s, hsn⟩ = Matrix.transpose y m ⟨s, hsn⟩ :=
      congrFun (hxy ⟨s, hsn⟩ (Fin.mk_le_of_le_val (Nat.lt_succ_iff.1 hst)))
    simp [frames, hframe]
  have hforward : (c.forward (frames (Matrix.transpose x))).take (t + 1) =
      (c.forward (frames (Matrix.transpose y))).take (t + 1) := by
    rw [take_forward, take_forward, htake]
  have hget : (c.forward (frames (Matrix.transpose x)))[(t : Nat)]? =
      (c.forward (frames (Matrix.transpose y)))[(t : Nat)]? := by
    rw [← List.getElem?_take_of_lt (Nat.lt_succ_self t), hforward, List.getElem?_take_of_lt (Nat.lt_succ_self t)]
  funext m
  simp only [forwardMels, Matrix.transpose_apply, Matrix.of_apply, List.getD_eq_getElem?_getD, hget]

end MelCompressor

/-! ## Augmentation -/

namespace MelAugment

/-- **A shift** moves the bins and leaves zeros: none come back around. -/
theorem binShiftForward_apply (draws : Draws nMels n) (x : Matrix (Fin nMels) (Fin n) ℝ) (m : Fin nMels) (t : Fin n) :
    binShiftForward draws x m t =
      if h : 0 ≤ (m : Int) - draws.randint ∧ (m : Int) - draws.randint < nMels then
        x ⟨((m : Int) - draws.randint).toNat, by omega⟩ t
      else 0 := by
  have hm := m.isLt
  have hroll : ∀ (h : 0 ≤ (m : Int) - draws.randint ∧ (m : Int) - draws.randint < nMels),
      roll draws.randint x m t = x ⟨((m : Int) - draws.randint).toNat, by omega⟩ t := by
    intro h
    simp only [roll, Matrix.of_apply, Int.emod_eq_of_lt h.1 h.2]
  unfold binShiftForward
  dsimp only
  split_ifs with hshift hright hin hin hin
  · rw [Matrix.of_apply, if_neg (by omega), hroll hin]
  · rw [Matrix.of_apply, if_pos (by omega)]
  · rw [Matrix.of_apply, if_neg (by omega), hroll hin]
  · rw [Matrix.of_apply, if_pos (by omega)]
  · simp only [not_not.1 hshift, sub_zero, Int.toNat_natCast]
  · omega

theorem causal (draws : Draws nMels n) (a : MelAugment) : CausalFrames fun x => a.forward draws x := by
  refine Causal.of_entry fun t x y hxy => funext fun m => ?_
  have hmel : ∀ m, Matrix.transpose x m t = Matrix.transpose y m t := congrFun hxy
  cases a with
  | volume maxLevel eps => simp [forward, volumeForward, hmel]
  | noise noiseLevel eps => simp [forward, noiseForward, hmel]
  | binShift shiftBins => simp [forward, binShiftForward_apply, hmel]

theorem forward_nonneg (draws : Draws nMels n) (a : MelAugment) {x : Matrix (Fin nMels) (Fin n) ℝ}
    (hx : ∀ m t, 0 ≤ x m t) (m : Fin nMels) (t : Fin n) : 0 ≤ a.forward draws x m t := by
  cases a with
  | volume maxLevel eps => exact (MelCompressor.dbToLinear_pos _).le
  | noise noiseLevel eps => exact (MelCompressor.dbToLinear_pos _).le
  | binShift shiftBins =>
    rw [forward, binShiftForward_apply]
    split
    · exact hx _ _
    · exact le_rfl

end MelAugment

/-! ## The features of a segment -/

namespace AudioClassifier

variable {f : Framing} {convChannels convLayers transDim transLayers nHidden nClasses : Nat}
  {c : AudioClassifier f nMels convChannels convLayers transDim transLayers nHidden nClasses}

theorem augmentMels_causal (melAugm : List MelAugment) (draws : Nat → Draws nMels n) :
    CausalFrames (augmentMels melAugm draws) :=
  list_foldl_closed .id (fun _ _ => .comp) fun (a, i) _ => a.causal (draws i)

theorem augmentMels_nonneg (melAugm : List MelAugment) (draws : Nat → Draws nMels n)
    {x : Matrix (Fin nMels) (Fin n) ℝ} (hx : ∀ m t, 0 ≤ x m t) : ∀ m t, 0 ≤ augmentMels melAugm draws x m t :=
  list_foldl_closed (P := fun g => ∀ x : Matrix (Fin nMels) (Fin n) ℝ, (∀ m t, 0 ≤ x m t) → ∀ m t, 0 ≤ g x m t)
    (fun _ h => h) (fun _ _ hg hf x h => hg _ (hf x h)) (fun (a, i) _ _ h => a.forward_nonneg (draws i) h) x hx

/-- What the features are made of is causal in the mels. -/
theorem prepareMels_congr (rnd : ℝ → ℝ)
    (c : AudioClassifier f nMels convChannels convLayers transDim transLayers nHidden nClasses)
    {x y : Fin f.nSamples → ℝ} (augment : Option (Nat → Draws nMels f.nFrames)) {t : Fin f.nFrames}
    (h : ∀ m, ∀ s ≤ t, c.melSpec.forward x m s = c.melSpec.forward y m s) :
    ∀ m, ∀ s ≤ t, c.prepareMels rnd x augment m s = c.prepareMels rnd y augment m s := by
  have hprep : CausalFrames fun x : Matrix (Fin nMels) (Fin f.nFrames) ℝ =>
      c.melPrep.foldl (fun x prep => prep.forwardMels x) x :=
    list_foldl_closed .id (fun _ _ => .comp) fun prep _ => prep.forwardMels_causal
  have hlog : ∀ g : Matrix (Fin nMels) (Fin f.nFrames) ℝ → Matrix (Fin nMels) (Fin f.nFrames) ℝ, CausalFrames g →
      ∀ m, ∀ s ≤ t, rnd (Real.log (rnd (g (c.melSpec.forward x) m s + c.eps))) =
        rnd (Real.log (rnd (g (c.melSpec.forward y) m s + c.eps))) := by
    intro g hg m s hs
    have hagree : AgreeUpTo t (c.melSpec.forward x).transpose (c.melSpec.forward y).transpose :=
      fun r hr => funext fun m => h m r hr
    exact congrArg (fun v => rnd (Real.log (rnd (v + c.eps)))) (congrFun (hg t _ _ hagree s hs) m)
  cases augment with
  | none => exact hlog _ hprep
  | some draws => exact hlog _ ((augmentMels_causal c.melAugm draws).comp hprep)

/-- **The model looks at samples up to the end of a frame**: an output of the encoder is decided by them. -/
theorem encoder_prepareMels_causal (rnd silu gelu : ℝ → ℝ)
    (c : AudioClassifier f nMels convChannels convLayers transDim transLayers nHidden nClasses)
    (augment : Option (Nat → Draws nMels f.nFrames)) {x y : Fin f.nSamples → ℝ} {t : Fin f.nFrames}
    (h : ∀ s : Fin f.nSamples, s < f.hopLength * t + f.nFft → x s = y s) :
    ∀ o, ∀ s ≤ t, c.encoder.forward silu gelu (c.prepareMels rnd x augment) o s =
      c.encoder.forward silu gelu (c.prepareMels rnd y augment) o s := by
  have hmels : ∀ m, ∀ s ≤ t, c.melSpec.forward x m s = c.melSpec.forward y m s := by
    intro m s hs
    refine c.melSpec.forward_congr (fun i => h _ ?_) m
    have hstart : f.hopLength * s ≤ f.hopLength * t := Nat.mul_le_mul_left _ hs
    have hi := i.isLt
    show f.hopLength * s + i < f.hopLength * t + f.nFft
    omega
  have hagree : AgreeUpTo t (c.prepareMels rnd x augment).transpose (c.prepareMels rnd y augment).transpose :=
    fun r hr => funext fun m => c.prepareMels_congr rnd augment hmels m r hr
  exact fun o s hs => congrFun (c.encoder.causal silu gelu t _ _ hagree s hs) o

/-- The compressors leave a spectrogram as it is up to a gain for each frame. -/
theorem exists_gain {prep : List MelCompressor} (hprep : ∀ p ∈ prep, p.Built) (x : Matrix (Fin nMels) (Fin n) ℝ) :
    ∃ g : Fin n → ℝ, (∀ t, 0 < g t) ∧
      prep.foldl (fun x p => p.forwardMels x) x = Matrix.of fun m t => x m t * g t := by
  induction prep generalizing x with
  | nil => exact ⟨fun _ => 1, fun _ => one_pos, by ext; simp⟩
  | cons p prep ih =>
    obtain ⟨hp, hprep⟩ := List.forall_mem_cons.1 hprep
    obtain ⟨g, hg, hfirst⟩ := p.exists_gain hp x
    obtain ⟨g', hg', hrest⟩ := ih hprep (p.forwardMels x)
    refine ⟨fun t => g t * g' t, fun t => mul_pos (hg t) (hg' t), ?_⟩
    rw [List.foldl_cons, hrest, hfirst]
    ext m t
    simp [mul_assoc]

/-- Without augmentation the energies of a frame have one gain. -/
theorem exists_prepareMels (rnd : ℝ → ℝ) (hprep : ∀ p ∈ c.melPrep, p.Built) (x : Fin f.nSamples → ℝ) :
    ∃ g : Fin f.nFrames → ℝ, (∀ t, 0 < g t) ∧ ∀ m t, c.prepareMels rnd x none m t =
      rnd (Real.log (rnd (c.melSpec.forward x m t * g t + c.eps))) := by
  obtain ⟨g, hg, hgain⟩ := exists_gain hprep (c.melSpec.forward x)
  refine ⟨g, hg, fun m t => ?_⟩
  unfold prepareMels
  dsimp only
  rw [hgain]
  rfl

/-- A feature grows with the energy. -/
theorem log_mono {rnd : ℝ → ℝ} (hrnd : Monotone rnd) {eps : ℝ} (heps : 0 < eps) (hfloat : rnd eps = eps) {v w : ℝ}
    (hv : 0 ≤ v) (hvw : v ≤ w) : rnd (Real.log (rnd (v + eps))) ≤ rnd (Real.log (rnd (w + eps))) := by
  have hpos : eps ≤ rnd (v + eps) := hfloat.symm.trans_le (hrnd (le_add_of_nonneg_left hv))
  exact hrnd (Real.log_le_log (heps.trans_le hpos) (hrnd (add_le_add_left hvw _)))

theorem le_log {rnd : ℝ → ℝ} (hrnd : Monotone rnd) {eps : ℝ} (heps : 0 < eps) (hfloat : rnd eps = eps) {v : ℝ}
    (hv : 0 ≤ v) : rnd (Real.log eps) ≤ rnd (Real.log (rnd (v + eps))) := by
  have hzero := log_mono hrnd heps hfloat le_rfl hv
  rwa [zero_add, hfloat] at hzero

/-- Compressed energies. -/
theorem prep_nonneg (hmel : ∀ k m, 0 ≤ c.melSpec.melFbT k m) (hprep : ∀ p ∈ c.melPrep, p.Built)
    (x : Fin f.nSamples → ℝ) (m : Fin nMels) (t : Fin f.nFrames) :
    0 ≤ c.melPrep.foldl (fun x p => p.forwardMels x) (c.melSpec.forward x) m t := by
  obtain ⟨g, hg, hgain⟩ := exists_gain hprep (c.melSpec.forward x)
  rw [hgain]
  exact mul_nonneg (MelExtractor.forward_nonneg hmel x m t) (hg t).le

/-- **The features have a floor**, whatever is drawn and however the sum and the logarithm are rounded. Without
augmentation the compressors give each frame a gain: a mel without energy is at the floor, one with more energy than
another of its frame has no smaller feature, and where nothing is rounded away only mels without energy are at the
floor. -/
theorem prepareMels_floor {rnd : ℝ → ℝ} (hrnd : Monotone rnd) (heps : 0 < c.eps) (hfloat : rnd c.eps = c.eps)
    (hmel : ∀ k m, 0 ≤ c.melSpec.melFbT k m) (hprep : ∀ p ∈ c.melPrep, p.Built) (x : Fin f.nSamples → ℝ) :
    (∀ augment m t, rnd (Real.log c.eps) ≤ c.prepareMels rnd x augment m t) ∧
      (∃ g : Fin f.nFrames → ℝ, (∀ t, 0 < g t) ∧ ∀ m t, c.prepareMels rnd x none m t =
        rnd (Real.log (rnd (c.melSpec.forward x m t * g t + c.eps)))) ∧
      (∀ m t, c.melSpec.forward x m t = 0 → c.prepareMels rnd x none m t = rnd (Real.log c.eps)) ∧
      (∀ m m' t, c.melSpec.forward x m t ≤ c.melSpec.forward x m' t →
        c.prepareMels rnd x none m t ≤ c.prepareMels rnd x none m' t) ∧
      (rnd = id → ∀ m t, c.prepareMels rnd x none m t = Real.log c.eps → c.melSpec.forward x m t = 0) := by
  obtain ⟨g, hg, hfeature⟩ := exists_prepareMels rnd hprep x
  have henergy : ∀ m t, 0 ≤ c.melSpec.forward x m t * g t := fun m t =>
    mul_nonneg (MelExtractor.forward_nonneg hmel x m t) (hg t).le
  have hpos := prep_nonneg hmel hprep x
  refine ⟨fun augment m t => ?_, ⟨g, hg, hfeature⟩, fun m t h => ?_, fun m m' t h => ?_, fun hid m t h => ?_⟩
  · cases augment with
    | none => exact le_log hrnd heps hfloat (hpos m t)
    | some draws => exact le_log hrnd heps hfloat (augmentMels_nonneg c.melAugm draws hpos m t)
  · rw [hfeature, h, zero_mul, zero_add, hfloat]
  · rw [hfeature, hfeature]
    exact log_mono hrnd heps hfloat (henergy m t) (mul_le_mul_of_nonneg_right h (hg t).le)
  · rw [hfeature, hid, id, id] at h
    have hsum := Real.log_injOn_pos (Set.mem_Ioi.2 (add_pos_of_nonneg_of_pos (henergy m t) heps)) (Set.mem_Ioi.2 heps) h
    exact (mul_eq_zero.1 (add_eq_right.1 hsum)).resolve_right (hg t).ne'

/-- A small model around `smallEncoder`, with a compressor and an augmentation. -/
noncomputable def smallClassifier : AudioClassifier Framing.small 1 1 2 2 1 1 1 where
  eps := 1
  melSpec := ⟨Matrix.of fun _ _ => 1⟩
  melPrep := [MelCompressor.init 0 2 1 1 1 0 1]
  melAugm := [.binShift 1]
  encoder := smallEncoder
  classifier := ⟨⟨1, 0⟩, layerNorm 1 0, ones 1 1⟩

/-- A segment with its last sample given. -/
def segment (last : ℝ) : Fin 3 → ℝ := fun s => if (s : Nat) < 2 then 1 else last

/-- The last sample is not in the first frame. -/
theorem smallClassifier_causal :
    smallClassifier.encoder.forward silu gelu (smallClassifier.prepareMels FloatFormat.single.round (segment 1) none)
        0 Framing.small.first =
      smallClassifier.encoder.forward silu gelu (smallClassifier.prepareMels FloatFormat.single.round (segment 2) none)
        0 Framing.small.first := by
  refine smallClassifier.encoder_prepareMels_causal FloatFormat.single.round silu gelu none (t := Framing.small.first)
    (fun s hs => ?_) 0 _ le_rfl
  have hfirst : (s : Nat) < 2 := hs
  simp only [segment, if_pos hfirst]

theorem smallClassifier_floor :
    (∀ augment m t, FloatFormat.single.round (Real.log smallClassifier.eps) ≤
      smallClassifier.prepareMels FloatFormat.single.round (segment 1) augment m t) ∧
    ∃ g : Fin Framing.small.nFrames → ℝ, (∀ t, 0 < g t) ∧ ∀ m t,
      smallClassifier.prepareMels FloatFormat.single.round (segment 1) none m t =
        FloatFormat.single.round (Real.log (FloatFormat.single.round
          (smallClassifier.melSpec.forward (segment 1) m t * g t + smallClassifier.eps))) := by
  have heps : 0 < smallClassifier.eps := one_pos
  have hfloat : FloatFormat.single.round smallClassifier.eps = smallClassifier.eps := FloatFormat.single.round_one
  have hmel : ∀ k m, 0 ≤ smallClassifier.melSpec.melFbT k m := fun _ _ => zero_le_one
  have hprep : ∀ p ∈ smallClassifier.melPrep, p.Built := fun p hp =>
    ⟨0, 2, 1, 1, 1, 0, 1, List.mem_singleton.1 hp⟩
  obtain ⟨hfloor, hgain, -⟩ := prepareMels_floor FloatFormat.single.round_mono heps hfloat hmel hprep (segment 1)
  exact ⟨hfloor, hgain⟩

/-! ## The scores -/

/-- The features do not depend on the phases. -/
theorem prepareMels_eq [NeZero f.nFft] (rnd : ℝ → ℝ)
    (c : AudioClassifier f nMels convChannels convLayers transDim transLayers nHidden nClasses)
    {x y : Fin f.nSamples → ℝ} (h : MelExtractor.SamePower f x y) (augment : Option (Nat → Draws nMels f.nFrames)) :
    c.prepareMels rnd x augment = c.prepareMels rnd y augment := by
  unfold prepareMels
  rw [h.forward_eq]

/-- **The scores** are those of the training without augmentation, between 0 and 1 and in the order of the logits. They,
and what the training gets for the same draws, depend on the power of the windowed frames only, so that the polarity of
the samples does not matter. -/
theorem forward_scores [NeZero f.nFft] {rnd : ℝ → ℝ} (hrnd : Monotone rnd) (hzero : rnd 0 = 0) (hone : rnd 1 = 1)
    (silu gelu : ℝ → ℝ) (c : AudioClassifier f nMels convChannels convLayers transDim transLayers nHidden nClasses)
    (x : Fin f.nSamples → ℝ) :
    c.forward rnd silu gelu x = (c.forwardTrain rnd silu gelu x none).1 ∧
      (∀ o, 0 ≤ c.forward rnd silu gelu x o ∧ c.forward rnd silu gelu x o ≤ 1) ∧
      (∀ o o', (c.forwardTrain rnd silu gelu x none).2 o ≤ (c.forwardTrain rnd silu gelu x none).2 o' →
        c.forward rnd silu gelu x o ≤ c.forward rnd silu gelu x o') ∧
      (∀ y, MelExtractor.SamePower f y x → c.forward rnd silu gelu y = c.forward rnd silu gelu x ∧
        ∀ augment, c.forwardTrain rnd silu gelu y augment = c.forwardTrain rnd silu gelu x augment) ∧
      c.forward rnd silu gelu (-x) = c.forward rnd silu gelu x ∧
      ∀ augment, c.forwardTrain rnd silu gelu (-x) augment = c.forwardTrain rnd silu gelu x augment := by
  have hpower : ∀ y, MelExtractor.SamePower f y x → c.forward rnd silu gelu y = c.forward rnd silu gelu x ∧
      ∀ augment, c.forwardTrain rnd silu gelu y augment = c.forwardTrain rnd silu gelu x augment := by
    intro y hy
    constructor
    · rw [forward, c.prepareMels_eq rnd hy]
      rfl
    · intro augment
      rw [forwardTrain, c.prepareMels_eq rnd hy]
      rfl
  refine ⟨rfl, fun o => ⟨?_, ?_⟩, fun o o' h => ?_, hpower, hpower _ (MelExtractor.samePower_neg x)⟩
  · exact hzero.symm.trans_le (hrnd (Real.sigmoid_nonneg _))
  · exact (hrnd (Real.sigmoid_le_one _)).trans_eq hone
  · exact hrnd (Real.sigmoid_le_iff.2 h)

/-- A segment that starts otherwise and has the other polarity behind. -/
def inverted : Fin 3 → ℝ := fun s => if (s : Nat) = 0 then 5 else -1

/-- The window of two samples takes the first out. -/
theorem samePower_inverted : MelExtractor.SamePower Framing.small inverted (segment 1) := by
  refine MelExtractor.samePower_of_frames fun t => ⟨-1, by norm_num, fun n => ?_⟩
  rcases Nat.eq_zero_or_pos (n : Nat) with hn | hn
  · have hwindow : hannWindow Framing.small.nFft n = 0 := by simp [hannWindow, hn]
    rw [hwindow, zero_mul, zero_mul, mul_zero]
  · have hpos : Framing.small.hopLength * (t : Nat) + (n : Nat) ≠ 0 := by omega
    have hinverted : Framing.small.sample inverted t n = -1 := if_neg hpos
    have hsegment : Framing.small.sample (segment 1) t n = 1 := ite_self 1
    rw [hinverted, hsegment]
    ring

theorem smallClassifier_inverted :
    smallClassifier.forward FloatFormat.single.round silu gelu inverted =
      smallClassifier.forward FloatFormat.single.round silu gelu (segment 1) ∧
    ∀ augment, smallClassifier.forwardTrain FloatFormat.single.round silu gelu inverted augment =
      smallClassifier.forwardTrain FloatFormat.single.round silu gelu (segment 1) augment := by
  obtain ⟨-, -, -, hpower, -⟩ := forward_scores (f := Framing.small) FloatFormat.single.round_mono
    FloatFormat.single.round_zero FloatFormat.single.round_one silu gelu smallClassifier (segment 1)
  exact hpower inverted samePower_inverted

end AudioClassifier

end Bajiru.NnModel
