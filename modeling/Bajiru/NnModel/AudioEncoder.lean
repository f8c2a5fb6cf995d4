import Bajiru.Attention
import Bajiru.Causal
import Bajiru.Numerals
import Mathlib.LinearAlgebra.Matrix.Defs
import Mathlib.Analysis.SpecialFunctions.Pow.Real
import Mathlib.MeasureTheory.Integral.Bochner.Set
import Mathlib.MeasureTheory.Measure.Lebesgue.Basic
import Mathlib.Order.Fin.Basic

/-!
# The audio encoder

`AudioEncoder.forward` in inference mode, for one example of the batch. A tensor of channels and frames is a matrix, and
`transpose` is the transpose. What torch provides is a parameter: a norm is a function of a frame, an activation one of
an entry, and `MultiheadAttention` gives no weight to what is masked. Every layer reads frames up to its own only, the
convolutions because of their padding on the left and the attention because of its mask, and so does the encoder.
-/

namespace Bajiru.NnModel

variable {K : Type*} {inCh outCh kernel dilation len d n : Nat}

/-! ## Convolutions -/

/-- `nn.Conv1d(in_ch, out_ch, kernel_size=kernel, padding=0, dilation=dilation)`. -/
structure Conv1d (K : Type*) (inCh outCh kernel dilation : Nat) where
  weight : Fin outCh → Fin inCh → Fin kernel → K
  bias : Fin outCh → K

/-- A tap of the kernel is within the input. -/
theorem tap_lt (t : Fin (len - dilation * (kernel - 1))) (k : Fin kernel) : t + dilation * k < len := by
  have hk : dilation * k ≤ dilation * (kernel - 1) := Nat.mul_le_mul_left _ (by omega)
  omega

section Conv

variable [Semiring K]

/-- `Conv1d.forward`. -/
def Conv1d.forward (conv : Conv1d K inCh outCh kernel dilation) (x : Matrix (Fin inCh) (Fin len) K) :
    Matrix (Fin outCh) (Fin (len - dilation * (kernel - 1))) K :=
  Matrix.of fun o t => conv.bias o + ∑ i, ∑ k, conv.weight o i k * x i ⟨t + dilation * k, tap_lt t k⟩

/-- `tf.pad(x, (pad, 0))`. -/
def padLeft (pad : Nat) (x : Matrix (Fin inCh) (Fin len) K) : Matrix (Fin inCh) (Fin (pad + len)) K :=
  Matrix.of fun i t => if h : t < pad then 0 else x i ⟨t - pad, by omega⟩

/-- `nn.LayerNorm(d)`, as a function of a frame. -/
abbrev LayerNorm (K : Type*) (d : Nat) := (Fin d → K) → Fin d → K

/-- `ConvBlock`. -/
structure ConvBlock (K : Type*) (inCh outCh kernel dilation : Nat) where
  conv : Conv1d K inCh outCh kernel dilation
  norm : LayerNorm K outCh

/-- `self.pad`. -/
def ConvBlock.pad (_ : ConvBlock K inCh outCh kernel dilation) : Nat := (kernel - 1) * dilation

omit [Semiring K] in
/-- The padding makes up for what the convolution takes off. -/
theorem ConvBlock.length_out (c : ConvBlock K inCh outCh kernel dilation) (len : Nat) :
    c.pad + len - dilation * (kernel - 1) = len := by
  rw [ConvBlock.pad, Nat.mul_comm, Nat.add_sub_cancel_left]

/-- `ConvBlock.forward`. -/
def ConvBlock.forward (silu : K → K) (c : ConvBlock K inCh outCh kernel dilation) (x : Matrix (Fin inCh) (Fin len) K) :
    Matrix (Fin outCh) (Fin len) K :=
  let x := padLeft c.pad x
  let x := (c.conv.forward x).submatrix id (Fin.cast (c.length_out len).symm)
  let x := x.transpose
  let x := Matrix.of fun t => c.norm (x t)
  let x := x.map silu
  x.transpose

end Conv

/-! ## Attention -/

/-- `nn.Linear(in_features, out_features)`. -/
structure Linear (K : Type*) (inFeatures outFeatures : Nat) where
  weight : Matrix (Fin outFeatures) (Fin inFeatures) K
  bias : Fin outFeatures → K

/-- `torch.full([n, n], value)`. -/
def full (n : Nat) (value : WithBot K) : Matrix (Fin n) (Fin n) (WithBot K) := Matrix.of fun _ _ => value

/-- `torch.triu(m, diagonal)`. -/
def triu [Zero K] (m : Matrix (Fin n) (Fin n) (WithBot K)) (diagonal : Int) : Matrix (Fin n) (Fin n) (WithBot K) :=
  Matrix.of fun i j => if diagonal ≤ (j : Int) - (i : Int) then m i j else 0

/-- `_causal_mask(seq_len)`. -/
def causalMask [Zero K] (seqLen : Nat) : Matrix (Fin seqLen) (Fin seqLen) (WithBot K) := triu (full seqLen ⊥) 1

/-- `nn.MultiheadAttention(d, n_heads)` in inference mode. A position with the mask `-inf` has the weight 0, so the
output for a query depends on the query and on the other positions. The flag `is_causal` says that the mask is the
causal one. -/
structure MultiheadAttention (K : Type*) [Zero K] (d : Nat) where
  forward {n : Nat} (query key value : Matrix (Fin n) (Fin d) K)
    (attnMask : Option (Matrix (Fin n) (Fin n) (WithBot K))) (isCausal : Bool) : Matrix (Fin n) (Fin d) K
  masked {n : Nat} {query query' key key' value value' : Matrix (Fin n) (Fin d) K}
    {attnMask : Matrix (Fin n) (Fin n) (WithBot K)} {isCausal : Bool} (t : Fin n) :
    (isCausal = true → attnMask = causalMask n) → query t = query' t →
    (∀ s, attnMask t s ≠ ⊥ → key s = key' s ∧ value s = value' s) →
    forward query key value (some attnMask) isCausal t = forward query' key' value' (some attnMask) isCausal t

/-- `AttnBlock`, with the two linear layers of `feedforward`. -/
structure AttnBlock (K : Type*) [Zero K] (d : Nat) where
  attn : MultiheadAttention K d
  feedforward0 : Linear K d (d * 4)
  feedforward2 : Linear K (d * 4) d
  norm1 : LayerNorm K d
  norm2 : LayerNorm K d

section Attn

variable [Semiring K]

/-- `Linear.forward`, on every frame. -/
def Linear.forward {a b : Nat} (linear : Linear K a b) (x : Matrix (Fin n) (Fin a) K) : Matrix (Fin n) (Fin b) K :=
  Matrix.of fun t o => ∑ i, x t i * linear.weight o i + linear.bias o

/-- `_attn(q, kv, attn_mask)`. -/
def AttnBlock.attend (a : AttnBlock K d) (q kv : Matrix (Fin n) (Fin d) K)
    (attnMask : Option (Matrix (Fin n) (Fin n) (WithBot K))) : Matrix (Fin n) (Fin d) K :=
  a.attn.forward q kv kv attnMask attnMask.isSome

/-- `feedforward`. -/
def AttnBlock.feedforward (gelu : K → K) (a : AttnBlock K d) (x : Matrix (Fin n) (Fin d) K) : Matrix (Fin n) (Fin d) K :=
  a.feedforward2.forward ((a.feedforward0.forward x).map gelu)

/-- `AttnBlock.forward`. -/
def AttnBlock.forward (gelu : K → K) (a : AttnBlock K d) (x posEnc : Matrix (Fin n) (Fin d) K) :
    Matrix (Fin n) (Fin d) K :=
  let x := x + posEnc
  let attnMask := causalMask n
  let x := Matrix.of fun t => a.norm1 ((x + a.attend x x (some attnMask)) t)
  Matrix.of fun t => a.norm2 ((x + a.feedforward gelu x) t)

end Attn

/-! ## The encoder -/

/-- `AudioEncoder`. -/
structure AudioEncoder (K : Type*) [Zero K] (nMels nHistory convChannels convLayers transDim transLayers : Nat) where
  convProj : Conv1d K nMels convChannels 1 1
  convs (i : Fin convLayers) : ConvBlock K convChannels convChannels 3 (2 ^ (i : Nat))
  transProj (h : convChannels ≠ transDim) : Conv1d K convChannels transDim 1 1
  attns (i : Fin transLayers) : AttnBlock K transDim
  posTable : Matrix (Fin nHistory) (Fin transDim) K

variable [Semiring K] {nMels nHistory convChannels convLayers transDim transLayers : Nat}

/-- `AudioEncoder.forward`. Without `trans_proj` the channels are those of the transformer. -/
def AudioEncoder.forward (silu gelu : K → K)
    (e : AudioEncoder K nMels nHistory convChannels convLayers transDim transLayers)
    (x : Matrix (Fin nMels) (Fin nHistory) K) : Matrix (Fin transDim) (Fin nHistory) K :=
  let x : Matrix (Fin convChannels) (Fin nHistory) K := e.convProj.forward x
  let x := Fin.foldl convLayers (fun x i => (e.convs i).forward silu x + x) x
  let x : Matrix (Fin transDim) (Fin nHistory) K :=
    if h : convChannels ≠ transDim then (e.transProj h).forward x
    else x.submatrix (Fin.cast (not_ne_iff.1 h).symm) id
  let x := x.transpose
  let x := Fin.foldl transLayers (fun x i => (e.attns i).forward gelu x e.posTable + x) x
  x.transpose

/-! ## Causality -/

/-- An operator on channels and frames is causal in the frames. -/
def CausalFrames (f : Matrix (Fin inCh) (Fin len) K → Matrix (Fin outCh) (Fin len) K) : Prop :=
  Causal fun x : Fin len → Fin inCh → K => (f (Matrix.transpose x)).transpose

omit [Semiring K] in
/-- Two operators, one after the other. -/
theorem CausalFrames.comp {midCh : Nat} {g : Matrix (Fin midCh) (Fin len) K → Matrix (Fin outCh) (Fin len) K}
    {f : Matrix (Fin inCh) (Fin len) K → Matrix (Fin midCh) (Fin len) K} (hg : CausalFrames g) (hf : CausalFrames f) :
    CausalFrames fun x => g (f x) :=
  fun t x y h => hg t _ _ (hf t x y h)

omit [Semiring K] in
theorem CausalFrames.id : CausalFrames fun x : Matrix (Fin inCh) (Fin len) K => x := Causal.id

/-- A layer and its residual. -/
theorem CausalFrames.residual {f : Matrix (Fin inCh) (Fin len) K → Matrix (Fin inCh) (Fin len) K} (hf : CausalFrames f) :
    CausalFrames fun x => f x + x := Causal.map₂ hf Causal.id fun _ u v => u + v

/-- An output of a convolution reads its taps. -/
theorem Conv1d.forward_congr (conv : Conv1d K inCh outCh kernel dilation) {x y : Matrix (Fin inCh) (Fin len) K}
    {t : Fin (len - dilation * (kernel - 1))}
    (h : ∀ (i : Fin inCh) (k : Fin kernel), x i ⟨t + dilation * k, tap_lt t k⟩ = y i ⟨t + dilation * k, tap_lt t k⟩)
    (o : Fin outCh) : conv.forward x o t = conv.forward y o t :=
  congrArg _ (Finset.sum_congr rfl fun i _ => Finset.sum_congr rfl fun k _ => congrArg _ (h i k))

/-- A convolution with one tap reads the frame that it gives. -/
theorem Conv1d.causal (conv : Conv1d K inCh outCh 1 1) :
    CausalFrames (conv.forward : Matrix (Fin inCh) (Fin len) K → Matrix (Fin outCh) (Fin len) K) := by
  refine causal_iff.2 fun t x y hxy => funext fun o => conv.forward_congr (fun i k => ?_) o
  exact congrFun (hxy _ (Fin.mk_le_of_le_val (by omega))) i

/-- After the padding the last tap reads the frame itself. -/
theorem ConvBlock.causal (silu : K → K) (c : ConvBlock K inCh outCh kernel dilation) :
    CausalFrames fun x : Matrix (Fin inCh) (Fin len) K => c.forward silu x := by
  have hconv : Causal fun (x : Fin len → Fin inCh → K) t o =>
      c.conv.forward (padLeft c.pad (Matrix.transpose x)) o (Fin.cast (c.length_out len).symm t) := by
    refine causal_iff.2 fun t x y hxy => funext fun o => c.conv.forward_congr (fun i k => ?_) o
    have htap : dilation * k ≤ c.pad := by
      rw [ConvBlock.pad, Nat.mul_comm _ dilation]
      exact Nat.mul_le_mul_left _ (by omega)
    simp only [padLeft, Matrix.of_apply]
    split
    · rfl
    · exact congrFun (hxy _ (Fin.mk_le_of_le_val (by simp only [Fin.val_cast]; omega))) i
  exact hconv.map fun _ v o => silu (c.norm v o)

theorem Linear.forward_congr {a b : Nat} (linear : Linear K a b) {x y : Matrix (Fin n) (Fin a) K} {t : Fin n}
    (h : x t = y t) : linear.forward x t = linear.forward y t := by
  funext o
  simp only [Linear.forward, Matrix.of_apply, h]

theorem AttnBlock.feedforward_congr (gelu : K → K) (a : AttnBlock K d) {x y : Matrix (Fin n) (Fin d) K} {t : Fin n}
    (h : x t = y t) : a.feedforward gelu x t = a.feedforward gelu y t :=
  a.feedforward2.forward_congr (funext fun c => congrArg gelu (congrFun (a.feedforward0.forward_congr h) c))

/-- The mask leaves the positions up to the own one. -/
theorem causalMask_ne_bot (t s : Fin n) : (causalMask n : Matrix _ _ (WithBot K)) t s ≠ ⊥ ↔ s ≤ t := by
  simp only [causalMask, triu, full, Matrix.of_apply, Fin.le_def]
  split
  · simp only [ne_eq, not_true_eq_false, false_iff]
    omega
  · simp only [ne_eq, WithBot.zero_ne_bot, not_false_eq_true, true_iff]
    omega

/-- The attention under the causal mask. -/
theorem AttnBlock.attend_causal (a : AttnBlock K d) :
    Causal fun x : Fin n → Fin d → K => a.attend x x (some (causalMask n)) :=
  Causal.of_reads Set.Iic (fun _ _ hs => hs) fun t _ _ hxy =>
    have hpast := fun s hs => hxy s ((causalMask_ne_bot t s).1 hs)
    a.attn.masked t (fun _ => rfl) (hxy t (Set.mem_Iic.2 le_rfl)) fun s hs => ⟨hpast s hs, hpast s hs⟩

theorem AttnBlock.causal (gelu : K → K) (a : AttnBlock K d) (posEnc : Matrix (Fin n) (Fin d) K) :
    Causal fun x : Fin n → Fin d → K => a.forward gelu x posEnc := by
  have hpos : Causal fun (x : Fin n → Fin d → K) t => x t + posEnc t := Causal.id.map fun t v => v + posEnc t
  have hnorm1 : Causal fun (x : Fin n → Fin d → K) t => a.norm1 (x t + a.attend x x (some (causalMask n)) t) :=
    Causal.id.map₂ a.attend_causal fun _ u v => a.norm1 (u + v)
  have hfeedforward : Causal fun x : Fin n → Fin d → K => a.feedforward gelu x :=
    Causal.of_entry fun _ _ _ => a.feedforward_congr gelu
  have hnorm2 : Causal fun (x : Fin n → Fin d → K) t => a.norm2 (x t + a.feedforward gelu x t) :=
    Causal.id.map₂ hfeedforward fun _ u v => a.norm2 (u + v)
  exact hnorm2.comp (hnorm1.comp hpos)

/-- A stack of causal layers. -/
theorem AudioEncoder.causal (silu gelu : K → K)
    (e : AudioEncoder K nMels nHistory convChannels convLayers transDim transLayers) :
    CausalFrames (e.forward silu gelu) := by
  have hconvs : CausalFrames fun x : Matrix (Fin nMels) (Fin nHistory) K =>
      Fin.foldl convLayers (fun x i => (e.convs i).forward silu x + x) (e.convProj.forward x) :=
    CausalFrames.comp (foldl_closed .id (fun _ _ => .comp) fun i => ((e.convs i).causal silu).residual)
      e.convProj.causal
  have hattns : Causal fun x : Fin nHistory → Fin transDim → K =>
      Fin.foldl transLayers
        (fun (x : Matrix (Fin nHistory) (Fin transDim) K) i => (e.attns i).forward gelu x e.posTable + x) x :=
    Causal.foldl fun i => ((e.attns i).causal gelu e.posTable).map₂ Causal.id fun _ u v => u + v
  intro t x y hxy
  unfold AudioEncoder.forward
  by_cases h : convChannels ≠ transDim
  · simp only [dif_pos h]
    exact hattns.comp ((e.transProj h).causal.comp hconvs) t x y hxy
  · have hcast : CausalFrames fun x : Matrix (Fin convChannels) (Fin nHistory) K =>
        x.submatrix (Fin.cast (not_ne_iff.1 h).symm) id :=
      Causal.of_entry fun _ _ _ hxy => funext fun _ => congrFun hxy _
    simp only [dif_neg h]
    exact hattns.comp (hcast.comp hconvs) t x y hxy

/-- **The encoder is causal**: on frames up to which two inputs agree, so do their outputs. -/
theorem AudioEncoder.forward_causal (silu gelu : K → K)
    (e : AudioEncoder K nMels nHistory convChannels convLayers transDim transLayers)
    {x y : Matrix (Fin nMels) (Fin nHistory) K} {t : Fin nHistory} (h : ∀ mel, ∀ s ≤ t, x mel s = y mel s) :
    ∀ c, ∀ s ≤ t, e.forward silu gelu x c s = e.forward silu gelu y c s :=
  fun c s hs => congrFun (e.causal silu gelu t x.transpose y.transpose (fun r hr => funext fun mel => h mel r hr) s hs) c

/-! ## torch's formulas -/

/-- The heads of `MultiheadAttention`, put together and projected. Under the flag the mask is the causal one. -/
noncomputable def multiheadAttention {nHeads headDim : Nat} (wq wk wv : Fin nHeads → Linear ℝ d headDim)
    (outProj : Linear ℝ (nHeads * headDim) d) : MultiheadAttention ℝ d where
  forward {n} query key value attnMask isCausal :=
    let mask := if isCausal then causalMask n else attnMask.getD (full n 0)
    outProj.forward (Matrix.of fun t i =>
      let (head, c) := finProdFinEquiv.symm i
      Attention.attend ((wq head).forward query t) ((wk head).forward key) ((wv head).forward value) (mask t) c)
  masked {n _ _ _ _ _ _ attnMask isCausal} t hcausal hquery hkv := by
    have hmask : (if isCausal then causalMask n else attnMask) = attnMask := by
      split
      · exact (hcausal ‹_›).symm
      · rfl
    refine outProj.forward_congr (funext fun i => ?_)
    simp only [Matrix.of_apply, Option.getD_some, hmask]
    rw [Linear.forward_congr _ hquery]
    exact congrFun (Attention.attend_congr _ (fun s hs => Linear.forward_congr _ (hkv s hs).1)
      fun s hs => Linear.forward_congr _ (hkv s hs).2) _

/-- `tf.silu`. -/
noncomputable def silu (x : ℝ) : ℝ := x / (1 + Real.exp (-x))

/-- `nn.GELU()`. -/
noncomputable def gelu (x : ℝ) : ℝ := x * ((√(2 * Real.pi))⁻¹ * ∫ u in Set.Iic x, Real.exp (-u ^ 2 / 2))

/-- `nn.LayerNorm(d)`. -/
noncomputable def layerNorm (weight bias : Fin d → ℝ) : LayerNorm ℝ d := fun x c =>
  let mean := (∑ i, x i) / d
  let var := (∑ i, (x i - mean) ^ 2) / d
  (x c - mean) / √(var + 1 / 100000) * weight c + bias c

/-- `_pos_table`. -/
noncomputable def posTable (nHistory transDim : Nat) : Matrix (Fin nHistory) (Fin transDim) ℝ :=
  Matrix.of fun pos c =>
    let dim := 2 * ((c : Nat) / 2)
    let invFreq := 1 / (10000 : ℝ) ^ ((dim : ℝ) / transDim)
    if (c : Nat) % 2 = 0 then Real.sin (pos * invFreq) else Real.cos (pos * invFreq)

def ones (a b : Nat) : Linear ℝ a b := ⟨Matrix.of fun _ _ => 1, 0⟩

/-- A small encoder, with all weights 1 and no biases. -/
noncomputable def smallEncoder : AudioEncoder ℝ 1 2 1 2 2 1 where
  convProj := ⟨1, 0⟩
  convs _ := ⟨⟨1, 0⟩, layerNorm 1 0⟩
  transProj _ := ⟨1, 0⟩
  attns _ := ⟨multiheadAttention (fun _ : Fin 1 => ones 2 2) (fun _ => ones 2 2) (fun _ => ones 2 2) (ones (1 * 2) 2),
    ones 2 (2 * 4), ones (2 * 4) 2, layerNorm 1 0, layerNorm 1 0⟩
  posTable := posTable 2 2

/-- An input of one mel with the second frame given. -/
def twoFrames (last : ℝ) : Matrix (Fin 1) (Fin 2) ℝ := Matrix.of fun _ s => if s = 0 then 1 else last

/-- Two inputs that differ in the second frame only. -/
theorem smallEncoder_causal :
    smallEncoder.forward silu gelu (twoFrames 2) 0 0 = smallEncoder.forward silu gelu (twoFrames 3) 0 0 ∧
    smallEncoder.forward silu gelu (twoFrames 2) 1 0 = smallEncoder.forward silu gelu (twoFrames 3) 1 0 := by
  have hagree : ∀ mel, ∀ s ≤ (0 : Fin 2), twoFrames 2 mel s = twoFrames 3 mel s := by
    intro mel s hs
    rw [Fin.le_zero_iff.1 hs]
    rfl
  have hcausal := smallEncoder.forward_causal silu gelu hagree
  exact ⟨hcausal 0 0 le_rfl, hcausal 1 0 le_rfl⟩

end Bajiru.NnModel
