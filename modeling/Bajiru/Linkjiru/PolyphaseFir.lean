import Bajiru.Upfirdn
import Bajiru.Linkjiru.SharedRingBuffer

/-!
# `PolyphaseFir`

One resampling stage of `PolyphaseFir.hpp`. Samples are elements of a commutative ring: the arithmetic is exact, so the
scalar and the vectorised dot product are the same sum. The prototype's taps are a parameter; the sizes computed as
products of `int`s are checked.

`Streaming` says that a stage has pushed the samples `xs` and emitted its first `t` outputs. Pushing a sample and taking
an output keep it, the dot product is then output `t` of `upfirdn`, and `process` emits exactly the outputs that the new
samples determine (`Fed.process`).
-/

namespace Bajiru.Linkjiru

open Upfirdn

variable {R : Type*}

/-- An `int` that does not overflow. -/
def asInt (n : Nat) : Option Nat := if n < 2 ^ 31 then some n else none

/-- The coefficients, the mirrored history, the size of the output buffer, the ratio, the commutator and the absolute
input indices. -/
structure PolyphaseFir (R : Type*) where
  poly : Mem R
  history : Mem R
  outputSize : Nat
  L : Nat
  M : Nat
  tapsPerPhase : Nat
  histWrite : Nat
  phase : Nat
  inNeeded : Nat
  pushed : Nat

/-- What a `process` leaves: the stage, the returned block, the samples it did not push, and whether it stopped because
the output buffer was full. -/
structure Processed (R : Type*) where
  fir : PolyphaseFir R
  outputs : List R
  unread : List R
  full : Bool

namespace PolyphaseFir

section Code

variable [CommRing R]

/-- The polyphase split of `buildPrototype`: `poly[p * tapsPerPhase + k] = h[p + k * L]`. -/
def splitPrototype (L tapsPerPhase : Nat) (h : Mem R) : Mem R := fun i => h (i / tapsPerPhase + i % tapsPerPhase * L)

/-- `reset()`. -/
def reset (f : PolyphaseFir R) : PolyphaseFir R :=
  { f with history := fun _ => 0, histWrite := 0, phase := 0, inNeeded := 0, pushed := 0 }

/-- `design(upFactor, downFactor, tapsPerPhase, maxInputSamples)`, with the taps `h` of the prototype. -/
def design (h : Mem R) (upFactor downFactor tapsPerPhaseIn maxInputSamples : Nat) : Option (PolyphaseFir R) :=
  (asInt (upFactor * tapsPerPhaseIn)).bind fun _ =>
  (asInt (maxInputSamples * upFactor)).bind fun product =>
  (asInt (product / downFactor + 2)).map fun maxOut => reset
    { poly := splitPrototype upFactor tapsPerPhaseIn h
      history := fun _ => 0
      outputSize := max maxOut 1
      L := upFactor
      M := downFactor
      tapsPerPhase := tapsPerPhaseIn
      histWrite := 0
      phase := 0
      inNeeded := 0
      pushed := 0 }

/-- `pushHistory(x)`: the sample is stored at the new front and in its mirror. -/
def pushHistory (f : PolyphaseFir R) (x : R) : PolyphaseFir R :=
  let histWrite := if f.histWrite = 0 then f.tapsPerPhase - 1 else f.histWrite - 1
  { f with
    histWrite := histWrite
    history := Function.update (Function.update f.history histWrite x) (histWrite + f.tapsPerPhase) x
    pushed := f.pushed + 1 }

/-- `dot()`. -/
def dot (f : PolyphaseFir R) : R :=
  ∑ k ∈ Finset.range f.tapsPerPhase, f.poly (f.phase * f.tapsPerPhase + k) * f.history (f.histWrite + k)

/-- The commutator steps to the next output. -/
def commutate (f : PolyphaseFir R) : PolyphaseFir R :=
  { f with phase := (f.phase + f.M) % f.L, inNeeded := f.inNeeded + (f.phase + f.M) / f.L }

/-- The inner loop of `process`: push until the next output has its newest sample. `none`: the block ran out. -/
def pull (f : PolyphaseFir R) : List R → PolyphaseFir R × Option (List R)
  | [] => (f, if f.pushed ≤ f.inNeeded then none else some [])
  | x :: xs => if f.pushed ≤ f.inNeeded then pull (f.pushHistory x) xs else (f, some (x :: xs))

/-- The outer loop of `process`, with `room` places left in the output buffer. -/
def emit (f : PolyphaseFir R) : Nat → List R → Processed R
  | 0, xs => ⟨f, [], xs, true⟩
  | room + 1, xs =>
    match f.pull xs with
    | (f, none) => ⟨f, [], [], false⟩
    | (f, some xs) =>
      let rest := f.commutate.emit room xs
      { rest with outputs := f.dot :: rest.outputs }

/-- `process(in, n)`. -/
def process (f : PolyphaseFir R) (input : List R) : Processed R := f.emit f.outputSize input

end Code

/-! ## What a stage has done -/

/-- The newest samples first, zero before the start. -/
def recent [CommRing R] (xs : List R) (k : Nat) : R := xs.reverse.getD k 0

/-- The stage with ratio `L / M` and prototype `h` has pushed the samples `xs` and emitted its first `t` outputs. -/
structure Streaming [CommRing R] (L M taps : Nat) (h : Mem R) (f : PolyphaseFir R) (xs : List R) (t : Nat) : Prop where
  L_eq : f.L = L
  M_eq : f.M = M
  taps_eq : f.tapsPerPhase = taps
  poly : ∀ p, p < L → ∀ k, k < taps → f.poly (p * taps + k) = h (p + k * L)
  pushed : f.pushed = xs.length
  histWrite : f.histWrite < taps
  history : ∀ k, k < taps → f.history (f.histWrite + k) = recent xs k
  mirror : ∀ k, k < taps → f.history (k + taps) = f.history k
  phase : f.phase = t * M % L
  inNeeded : f.inNeeded = t * M / L

variable [CommRing R] {L M taps : Nat} {h : Mem R} {f : PolyphaseFir R} {xs : List R} {t : Nat}

@[simp] theorem recent_snoc_zero (x : R) : recent (xs ++ [x]) 0 = x := by simp [recent]

@[simp] theorem recent_snoc_succ (x : R) (k : Nat) : recent (xs ++ [x]) (k + 1) = recent xs k := by simp [recent]

/-- The samples from the newest back to the start. -/
theorem recent_eq {n : Nat} (hn : xs.length = n + 1) (k : Nat) :
    recent xs k = if k ≤ n then xs.getD (n - k) 0 else 0 := by
  unfold recent
  split
  · rw [List.getD_eq_getElem?_getD, List.getD_eq_getElem?_getD, List.getElem?_reverse (by omega), hn]
    congr 2
  · exact List.getD_eq_default _ _ (by rw [List.length_reverse]; omega)

/-- Pushing a sample. -/
theorem Streaming.pushHistory (hs : Streaming L M taps h f xs t) (x : R) :
    Streaming L M taps h (f.pushHistory x) (xs ++ [x]) t := by
  obtain ⟨hL, hM, htaps, hpoly, hpushed, hw, hhist, hmir, hphase, hneeded⟩ := hs
  subst htaps
  have hlast : f.tapsPerPhase - 1 < f.tapsPerPhase := by omega
  refine ⟨hL, hM, rfl, hpoly, ?_, ?_, fun k hk => ?_, fun k hk => ?_, hphase, hneeded⟩
  · simp [PolyphaseFir.pushHistory, hpushed]
  · dsimp only [PolyphaseFir.pushHistory]
    split <;> omega
  · dsimp only [PolyphaseFir.pushHistory]
    cases k with
    | zero =>
      rw [Nat.add_zero, recent_snoc_zero, Function.update_of_ne (by omega), Function.update_self]
    | succ k =>
      rw [Function.update_of_ne (by omega), Function.update_of_ne (by omega), recent_snoc_succ,
        ← hhist k (by omega)]
      split
      · rename_i h0
        -- the front wrapped: the run goes on in the mirror
        rw [h0, Nat.zero_add, ← hmir k (by omega)]
        congr 1
        omega
      · congr 1
        omega
  · dsimp only [PolyphaseFir.pushHistory]
    by_cases he : k = if f.histWrite = 0 then f.tapsPerPhase - 1 else f.histWrite - 1
    · rw [← he, Function.update_self, Function.update_of_ne (by omega), Function.update_self]
    · rw [Function.update_of_ne (by omega), Function.update_of_ne (by split <;> omega),
        Function.update_of_ne (by split <;> omega), Function.update_of_ne he]
      exact hmir k hk

/-- Stepping the commutator. -/
theorem Streaming.commutate (hL : 0 < L) (hs : Streaming L M taps h f xs t) :
    Streaming L M taps h f.commutate xs (t + 1) := by
  refine ⟨hs.L_eq, hs.M_eq, hs.taps_eq, hs.poly, hs.pushed, hs.histWrite, hs.history, hs.mirror, ?_, ?_⟩
  · dsimp only [PolyphaseFir.commutate]
    rw [hs.phase, hs.M_eq, hs.L_eq, Nat.mod_add_mod, Nat.succ_mul]
  · dsimp only [PolyphaseFir.commutate]
    rw [hs.phase, hs.inNeeded, hs.M_eq, hs.L_eq, Nat.succ_mul, ← Nat.mul_add_div hL, ← Nat.add_assoc,
      Nat.div_add_mod]

/-- The dot product, once the newest sample of output `t` is the newest in the history. -/
theorem Streaming.dot_eq (hL : 0 < L) (hs : Streaming L M taps h f xs t) (hlen : xs.length = t * M / L + 1) :
    f.dot = upfirdn L M (L * taps) h (fun i => xs.getD i 0) t := by
  rw [upfirdn_polyphase hL, dot, hs.taps_eq]
  refine Finset.sum_congr rfl fun k hk => ?_
  have hk := Finset.mem_range.1 hk
  rw [hs.phase, hs.poly _ (Nat.mod_lt _ hL) k hk, hs.history k hk, recent_eq hlen, mul_ite, mul_zero]

/-! ## `process` -/

/-- The inner loop either pushes the whole block and still waits, or stops at the newest sample of output `t`. -/
theorem Streaming.pull (hs : Streaming L M taps h f xs t) (hle : xs.length ≤ t * M / L + 1) (input : List R) :
    (∃ f', f.pull input = (f', none) ∧ f'.outputSize = f.outputSize ∧ Streaming L M taps h f' (xs ++ input) t ∧
      (xs ++ input).length ≤ t * M / L) ∨
    ∃ f' pre rest, f.pull input = (f', some rest) ∧ f'.outputSize = f.outputSize ∧ input = pre ++ rest ∧
      Streaming L M taps h f' (xs ++ pre) t ∧ (xs ++ pre).length = t * M / L + 1 := by
  have hcond : f.pushed ≤ f.inNeeded ↔ xs.length ≤ t * M / L := by rw [hs.pushed, hs.inNeeded]
  induction input generalizing f xs with
  | nil =>
    by_cases hw : xs.length ≤ t * M / L
    · exact Or.inl ⟨f, by rw [PolyphaseFir.pull, if_pos (hcond.2 hw)], rfl, by simpa using hs, by simpa using hw⟩
    · refine Or.inr ⟨f, [], [], by rw [PolyphaseFir.pull, if_neg (hcond.not.2 hw)], rfl, rfl, by simpa using hs, ?_⟩
      rw [List.append_nil]
      omega
  | cons x rest ih =>
    by_cases hw : xs.length ≤ t * M / L
    · have hpush := hs.pushHistory x
      have hlen : (xs ++ [x]).length ≤ t * M / L + 1 := by rw [List.length_append, List.length_singleton]; omega
      rw [PolyphaseFir.pull, if_pos (hcond.2 hw)]
      rcases ih hpush hlen (by rw [hpush.pushed, hpush.inNeeded]) with
        ⟨f', hf, hsize, hs', hlen'⟩ | ⟨f', pre, rest', hf, hsize, rfl, hs', hlen'⟩
      · exact Or.inl ⟨f', hf, hsize, by simpa using hs', by simpa using hlen'⟩
      · exact Or.inr ⟨f', x :: pre, rest', hf, hsize, rfl, by simpa using hs', by simpa using hlen'⟩
    · refine Or.inr ⟨f, [], x :: rest, by rw [PolyphaseFir.pull, if_neg (hcond.not.2 hw)], rfl, rfl,
        by simpa using hs, ?_⟩
      rw [List.append_nil]
      omega

/-- The outer loop emits the outputs that the block determines, if the buffer has room for one more. -/
theorem Streaming.emit (hL : 0 < L) (hM : 0 < M) (room : Nat) (input : List R) (hs : Streaming L M taps h f xs t)
    (hle : xs.length ≤ t * M / L + 1) (ht : t ≤ count L M (xs ++ input).length)
    (hroom : count L M (xs ++ input).length - t < room) :
    (f.emit room input).full = false ∧ (f.emit room input).unread = [] ∧
      (f.emit room input).fir.outputSize = f.outputSize ∧
      Streaming L M taps h (f.emit room input).fir (xs ++ input) (count L M (xs ++ input).length) ∧
      (f.emit room input).outputs = (List.range' t (count L M (xs ++ input).length - t)).map
        (upfirdn L M (L * taps) h fun i => (xs ++ input).getD i 0) := by
  induction room generalizing f xs t input with
  | zero => omega
  | succ room ih =>
    rcases hs.pull hle input with ⟨f', hf, hsize, hs', hlen⟩ | ⟨f', pre, rest, hf, hsize, rfl, hs', hlen⟩
    · have hcount : count L M (xs ++ input).length = t :=
        Nat.le_antisymm (Nat.not_lt.1 fun hlt => absurd ((lt_count_iff_div hL hM).1 hlt) (by omega)) ht
      have hemit : f.emit (room + 1) input = ⟨f', [], [], false⟩ := by simp only [PolyphaseFir.emit, hf]
      rw [hcount, Nat.sub_self, hemit]
      exact ⟨rfl, rfl, hsize, hs', rfl⟩
    · rw [← List.append_assoc] at ht hroom ⊢
      have hlt : t < count L M (xs ++ pre ++ rest).length :=
        (lt_count_iff_div hL hM).2 (by rw [List.length_append]; omega)
      have hle' : (xs ++ pre).length ≤ (t + 1) * M / L + 1 := by
        rw [hlen]
        exact Nat.succ_le_succ (Nat.div_le_div_right (Nat.mul_le_mul_right M (Nat.le_succ t)))
      have hdot := hs'.dot_eq hL hlen
      obtain ⟨hfull, hunread, hsize', hs'', hout⟩ :=
        ih rest (hs'.commutate hL) hle' hlt (by omega)
      simp only [PolyphaseFir.emit, hf]
      refine ⟨hfull, hunread, hsize'.trans hsize, hs'', ?_⟩
      rw [hout, hdot, show count L M (xs ++ pre ++ rest).length - t =
        count L M (xs ++ pre ++ rest).length - (t + 1) + 1 by omega, List.range'_succ, List.map_cons]
      congr 1
      apply upfirdn_congr
      intro j hj
      exact (List.getD_append _ _ _ _ (by omega)).symm

/-- A stage between two calls: it has emitted all that the samples `xs` determine, and its buffer is sized for blocks of
`maxIn` samples. -/
structure Fed (L M taps : Nat) (h : Mem R) (maxIn : Nat) (f : PolyphaseFir R) (xs : List R) : Prop where
  posL : 0 < L
  posM : 0 < M
  streaming : Streaming L M taps h f xs (count L M xs.length)
  size : maxIn * L / M + 2 ≤ f.outputSize

/-- A designed stage has been fed nothing. -/
theorem design_fed {maxIn : Nat} (hL : 0 < L) (hM : 0 < M) (htaps : 0 < taps)
    (hd : design h L M taps maxIn = some f) : Fed L M taps h maxIn f [] := by
  simp only [design, asInt, Option.bind_eq_some_iff, Option.map_eq_some_iff, Option.ite_none_right_eq_some] at hd
  obtain ⟨_, -, product, ⟨-, hp⟩, maxOut, ⟨-, hm⟩, hf⟩ := hd
  cases hp
  cases hm
  cases hf
  have h0 : count L M ([] : List R).length = 0 := by simp [count]
  refine ⟨hL, hM, ?_, Nat.le_max_left _ _⟩
  rw [h0]
  refine ⟨rfl, rfl, rfl, fun p hp k hk => ?_, rfl, htaps, fun k _ => ?_, fun _ _ => rfl, ?_, ?_⟩
  · dsimp only [reset, splitPrototype]
    rw [Nat.mul_add_mod_of_lt hk, Nat.mul_comm p, Nat.mul_add_div htaps, Nat.div_eq_of_lt hk, Nat.add_zero]
  · simp [reset, recent]
  · simp [reset]
  · simp [reset]

/-- The commutator waits for a sample that was not pushed yet. -/
theorem Fed.length_le {maxIn : Nat} (hf : Fed L M taps h maxIn f xs) : xs.length ≤ count L M xs.length * M / L :=
  Nat.not_lt.1 fun hlt => absurd ((lt_count_iff_div hf.posL hf.posM).2 hlt) (Nat.lt_irrefl _)

/-- **`process`**: the block of a call is what the new samples add to the resampled stream; the stage pushes them all
and never stops at a full buffer. -/
theorem Fed.process {maxIn : Nat} (hf : Fed L M taps h maxIn f xs) {input : List R} (hlen : input.length ≤ maxIn) :
    (f.process input).full = false ∧ (f.process input).unread = [] ∧
      Fed L M taps h maxIn (f.process input).fir (xs ++ input) ∧
      resample L M (L * taps) h (xs ++ input) = resample L M (L * taps) h xs ++ (f.process input).outputs := by
  have hrest := hf.length_le
  obtain ⟨hL, hM, hs, hsize⟩ := hf
  have hadd : count L M (xs ++ input).length ≤ count L M xs.length + count L M input.length := by
    rw [List.length_append]
    exact count_add_le hM
  have hroom : count L M input.length ≤ maxIn * L / M + 1 := (count_mono hM hlen).trans (count_le_div_add_one hM)
  obtain ⟨hfull, hunread, hsize', hs', hout⟩ := hs.emit hL hM f.outputSize input (by omega)
    (count_mono hM (by simp)) (by omega)
  refine ⟨hfull, hunread, ⟨hL, hM, hs', ?_⟩, ?_⟩
  · rw [PolyphaseFir.process, hsize']
    exact hsize
  · rw [resample_append hL hM, PolyphaseFir.process, hout]

/-! ## A sequence of calls -/

/-- The calls of `process` with these blocks. -/
def processAll (f : PolyphaseFir R) : List (List R) → List (Processed R)
  | [] => []
  | block :: blocks => f.process block :: (f.process block).fir.processAll blocks

/-- No `phase += M` of the outer loop overflows. -/
def EmitFits (f : PolyphaseFir R) : Nat → List R → Prop
  | 0, _ => True
  | room + 1, xs =>
    match f.pull xs with
    | (_, none) => True
    | (f, some xs) => f.phase + f.M < 2 ^ 31 ∧ f.commutate.EmitFits room xs

/-- No `phase += M` of the calls overflows. -/
def ProcessAllFits (f : PolyphaseFir R) : List (List R) → Prop
  | [] => True
  | block :: blocks => f.EmitFits f.outputSize block ∧ (f.process block).fir.ProcessAllFits blocks

theorem Streaming.emitFits (hL : 0 < L) (hphase : L - 1 + M < 2 ^ 31) (room : Nat) (input : List R)
    (hs : Streaming L M taps h f xs t) (hle : xs.length ≤ t * M / L + 1) : f.EmitFits room input := by
  induction room generalizing f xs t input with
  | zero => trivial
  | succ room ih =>
    unfold EmitFits
    rcases hs.pull hle input with ⟨f', hf, -⟩ | ⟨f', pre, rest, hf, -, -, hs', hlen⟩
    · rw [hf]
      trivial
    · rw [hf]
      have hmod : t * M % L < L := Nat.mod_lt _ hL
      refine ⟨?_, ih rest (hs'.commutate hL) ?_⟩
      · rw [hs'.phase, hs'.M_eq]
        omega
      · rw [hlen]
        exact Nat.succ_le_succ (Nat.div_le_div_right (Nat.mul_le_mul_right M (Nat.le_succ t)))

/-- The calls add to the resampled stream what their blocks determine. -/
theorem Fed.processAll {maxIn : Nat} (hphase : L - 1 + M < 2 ^ 31) {blocks : List (List R)}
    (hblocks : ∀ block ∈ blocks, block.length ≤ maxIn) (hf : Fed L M taps h maxIn f xs) :
    resample L M (L * taps) h (xs ++ blocks.flatten) =
        resample L M (L * taps) h xs ++ (f.processAll blocks).flatMap (·.outputs) ∧
      (∀ r ∈ f.processAll blocks, r.full = false ∧ r.unread = []) ∧ f.ProcessAllFits blocks := by
  induction blocks generalizing f xs with
  | nil => exact ⟨by simp [PolyphaseFir.processAll], nofun, trivial⟩
  | cons block blocks ih =>
    obtain ⟨hfull, hunread, hf', hout⟩ := hf.process (hblocks block List.mem_cons_self)
    obtain ⟨hrest, hall, hfits⟩ := ih (fun b hb => hblocks b (List.mem_cons_of_mem _ hb)) hf'
    refine ⟨?_, fun r hr => ?_, hf.streaming.emitFits hf.posL hphase _ _ (Nat.le_succ_of_le hf.length_le), hfits⟩
    · rw [List.flatten_cons, ← List.append_assoc, hrest, hout, PolyphaseFir.processAll, List.flatMap_cons,
        List.append_assoc]
    · rcases List.mem_cons.1 hr with rfl | hr
      · exact ⟨hfull, hunread⟩
      · exact hall r hr

/-- A design whose sizes are `int`s. -/
theorem design_some {maxIn : Nat} (h : Mem R) (hproto : L * taps < 2 ^ 31) (hproduct : maxIn * L < 2 ^ 31)
    (hout : maxIn * L / M + 2 < 2 ^ 31) : ∃ f, design h L M taps maxIn = some f := by
  simp only [design, asInt, if_pos hproto, if_pos hproduct, if_pos hout, Option.bind_some, Option.map_some]
  exact ⟨_, rfl⟩

/-- **`PolyphaseFir` is the textbook resampler**: whatever the blocks are, the calls emit the outputs that the whole input
determines, and no other. Each call pushes its whole block and stops before its output buffer is full. -/
theorem textbook {maxIn : Nat} (hL : 0 < L) (hM : 0 < M) (htaps : 0 < taps) (hproto : L * taps < 2 ^ 31)
    (hproduct : maxIn * L < 2 ^ 31) (hout : maxIn * L / M + 2 < 2 ^ 31) (hphase : L - 1 + M < 2 ^ 31) (h : Mem R)
    {blocks : List (List R)} (hblocks : ∀ block ∈ blocks, block.length ≤ maxIn) :
    ∃ f, design h L M taps maxIn = some f ∧
      (f.processAll blocks).flatMap (·.outputs) = (List.range (blocks.flatten.length * L ⌈/⌉ M)).map (fun t =>
        ∑ i ∈ Finset.range (L * taps),
          if i ≤ t * M then h i * zeroStuff L (fun j => blocks.flatten.getD j 0) (t * M - i) else 0) ∧
      (∀ r ∈ f.processAll blocks, r.full = false ∧ r.unread = []) ∧ f.ProcessAllFits blocks := by
  obtain ⟨f, hf⟩ := design_some h hproto hproduct hout
  obtain ⟨houtputs, hall, hfits⟩ := (design_fed hL hM htaps hf).processAll hphase hblocks
  have hnil : resample L M (L * taps) h [] = [] := List.eq_nil_of_length_eq_zero (by simp [count])
  rw [hnil, List.nil_append, List.nil_append] at houtputs
  exact ⟨f, hf, houtputs.symm, hall, hfits⟩

theorem textbook_two : ∃ f, design (fun i => (i : ℤ) + 1) 3 2 2 2 = some f ∧
    (f.processAll [[1, 2], [3]]).flatMap (·.outputs) = [1, 3, 9, 11, 21] ∧
    ∀ r ∈ f.processAll [[1, 2], [3]], r.full = false ∧ r.unread = [] := by
  obtain ⟨f, hf, hout, hall, -⟩ := @textbook ℤ _ 3 2 2 2 (by decide) (by decide) (by decide) (by decide) (by decide)
    (by decide) (by decide) (fun i => (i : ℤ) + 1) [[1, 2], [3]] (by decide)
  refine ⟨f, hf, hout.trans ?_, hall⟩
  decide

/-- An output buffer whose size overflows, though `maxInputSamples * L` is an `int`. -/
theorem textbook_overflow : ¬ ∀ (L M taps maxIn : Nat) (h : Mem ℤ) (blocks : List (List ℤ)), 0 < L → 0 < M → 0 < taps →
    maxIn * L < 2 ^ 31 → (∀ block ∈ blocks, block.length ≤ maxIn) → ∃ f, design h L M taps maxIn = some f ∧
      (f.processAll blocks).flatMap (·.outputs) = (List.range (blocks.flatten.length * L ⌈/⌉ M)).map (fun t =>
        ∑ i ∈ Finset.range (L * taps),
          if i ≤ t * M then h i * zeroStuff L (fun j => blocks.flatten.getD j 0) (t * M - i) else 0) ∧
      ∀ r ∈ f.processAll blocks, r.full = false ∧ r.unread = [] := by
  intro hall
  obtain ⟨f, hf, -⟩ := hall 1 1 1 (2 ^ 31 - 1) (fun _ => 1) [] (by decide) (by decide) (by decide) (by decide) nofun
  simp [design, asInt] at hf

/-- A prototype whose length overflows, though the products with the block are small. -/
theorem prototype_overflow : design (fun _ => (1 : ℤ)) 65536 1 32768 1 = none := by simp [design, asInt]

/-- A phase that overflows: the sizes are `int`s, but `L - 1 + M` is not. -/
theorem phase_overflow : ∃ f, design (fun _ => (1 : ℤ)) (2 ^ 30 + 1) (2 ^ 30) 1 1 = some f ∧
    ¬ f.ProcessAllFits [[1]] := by
  refine ⟨_, by simp [design, asInt]; rfl, ?_⟩
  simp [ProcessAllFits, EmitFits, PolyphaseFir.pull, reset, PolyphaseFir.pushHistory, PolyphaseFir.commutate]

end PolyphaseFir

end Bajiru.Linkjiru
