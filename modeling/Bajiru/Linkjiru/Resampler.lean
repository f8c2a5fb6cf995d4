import Bajiru.Linkjiru.PolyphaseFir
import Mathlib.Algebra.Order.Field.Rat
import Mathlib.Tactic.Linarith
import Mathlib.Tactic.Ring

/-!
# `Resampler`

The cascade of `Resampler.hpp`, for integral host rates: 2:1 stages while the rate would drop by more than half, then
one rational stage. The prototype of a stage is a parameter, a function of its ratio and its taps.

`Fed` stages in a row stay fed by what the previous one emits (`Cascade`), so a call adds to the resampled stream what
its block adds (`process_streamed`); only the final clamp can lose samples. From half the target rate on it loses none,
and after exact halvings the number of outputs is off by less than two (`resampler_lossless`).
-/

namespace Bajiru.Linkjiru

open Upfirdn PolyphaseFir

variable {R : Type*}

/-- The stages, the size of the output buffer, the constructor's arguments and the passthrough flag. -/
structure Resampler (R : Type*) where
  stages : List (PolyphaseFir R)
  finalOutSize : Nat
  target : Nat
  maxInput : Nat
  bypass : Bool

/-- What a `process` leaves: the resampler, the returned block, whether a stage stopped at a full buffer and whether the
final clamp removed samples. -/
structure Resampled (R : Type*) where
  resampler : Resampler R
  block : List R
  full : Bool
  clamped : Bool

namespace Resampler

/-- `kStageTaps`. -/
def kStageTaps : Nat := 48

/-- `Resampler(targetSampleRate, maxInputSamples)`; `process` takes the size of its buffer as an `int`. -/
def new (R : Type*) (targetSampleRate maxInputSamples : Nat) : Option (Resampler R) :=
  (asInt (maxInputSamples * 2)).map fun size => ⟨[], size, targetSampleRate, maxInputSamples, true⟩

section Code

variable [CommRing R] (prototype : Nat → Nat → Nat → Mem R)

/-- A stage with ratio `L / M`. -/
def stage (L M stageMax : Nat) : Option (PolyphaseFir R) := design (prototype L M kStageTaps) L M kStageTaps stageMax

/-- The stages of `prepare`, from the loop on. -/
def cascade (target inRate stageMax : Nat) : Option (List (PolyphaseFir R)) :=
  if 2 * target < inRate then
    (stage prototype 1 2 stageMax).bind fun f => (cascade target (inRate / 2) (stageMax / 2 + 2)).map (f :: ·)
  else (stage prototype (target / target.gcd inRate) (inRate / target.gcd inRate) stageMax).map ([·])
termination_by inRate
decreasing_by omega

/-- `prepare(hostSampleRate)`. -/
def prepare (rs : Resampler R) (hostSampleRate : Nat) : Option (Resampler R) :=
  if hostSampleRate = rs.target then some { rs with stages := [], bypass := true }
  else
    (asInt hostSampleRate).bind fun inRate => (asInt (2 * rs.target)).bind fun _ =>
      (cascade prototype rs.target inRate rs.maxInput).map fun stages => { rs with stages := stages, bypass := false }

/-- The loop of `process`: every stage takes the block of the previous one. -/
def runStages : List (PolyphaseFir R) → List R → List (PolyphaseFir R) × List R × Bool
  | [], cur => ([], cur, false)
  | f :: stages, cur =>
    let out := f.process cur
    let (stages, last, full) := runStages stages out.outputs
    (out.fir :: stages, last, out.full || full)

/-- `process(input, n)`. -/
def process (rs : Resampler R) (input : List R) : Resampled R :=
  if rs.bypass then ⟨rs, input, false, false⟩
  else
    let (stages, cur, full) := runStages rs.stages input
    ⟨{ rs with stages := stages }, cur.take rs.finalOutSize, full, rs.finalOutSize < cur.length⟩

/-- The calls for the blocks of a stream. -/
def processAll (rs : Resampler R) : List (List R) → List (Resampled R)
  | [] => []
  | block :: blocks => rs.process block :: (rs.process block).resampler.processAll blocks

end Code

/-! ## The reference -/

/-- The ratios of the stages from a host rate to the target rate. -/
def stageRatios (target inRate : Nat) : List (Nat × Nat) :=
  if 2 * target < inRate then (1, 2) :: stageRatios target (inRate / 2)
  else [(target / target.gcd inRate, inRate / target.gcd inRate)]
termination_by inRate
decreasing_by omega

section Reference

variable [CommRing R] (prototype : Nat → Nat → Nat → Mem R)

/-- The stage filters one after another, each over its whole stream. -/
def composed : List (Nat × Nat) → List R → List R
  | [], xs => xs
  | (L, M) :: ratios, xs => composed ratios (resample L M (L * kStageTaps) (prototype L M kStageTaps) xs)

/-- The reference resampling of a whole stream. -/
def reference (target hostRate : Nat) (xs : List R) : List R :=
  if hostRate = target then xs else composed prototype (stageRatios target hostRate) xs

end Reference

/-- The number of outputs of the stages for `n` samples. -/
def outputCount : List (Nat × Nat) → Nat → Nat
  | [], n => n
  | (L, M) :: ratios, n => outputCount ratios (count L M n)

theorem stageRatios_halve {target inRate : Nat} (h : 2 * target < inRate) :
    stageRatios target inRate = (1, 2) :: stageRatios target (inRate / 2) := by
  rw [stageRatios, if_pos h]

theorem stageRatios_last {target inRate : Nat} (h : ¬ 2 * target < inRate) :
    stageRatios target inRate = [(target / target.gcd inRate, inRate / target.gcd inRate)] := by
  rw [stageRatios, if_neg h]

/-- Both sides of a reduced ratio are positive. -/
theorem reduced_pos {target inRate : Nat} (ht : 0 < target) (hr : 0 < inRate) :
    0 < target / target.gcd inRate ∧ 0 < inRate / target.gcd inRate :=
  ⟨Nat.div_pos (Nat.gcd_le_left _ ht) (Nat.gcd_pos_of_pos_left _ ht),
    Nat.div_pos (Nat.gcd_le_right _ hr) (Nat.gcd_pos_of_pos_left _ ht)⟩

theorem length_composed [CommRing R] (prototype : Nat → Nat → Nat → Mem R) :
    ∀ (ratios : List (Nat × Nat)) (xs : List R), (composed prototype ratios xs).length = outputCount ratios xs.length
  | [], _ => rfl
  | (L, M) :: ratios, xs => by rw [composed, length_composed, length_resample, outputCount]

/-! ## Stages in a row -/

section Cascade

variable [CommRing R] {prototype : Nat → Nat → Nat → Mem R}

/-- Every stage has been fed what the previous one emitted, and is sized for it. -/
inductive Cascade (prototype : Nat → Nat → Nat → Mem R) :
    List (Nat × Nat) → Nat → List (PolyphaseFir R) → List R → Prop
  | nil (maxIn : Nat) (xs : List R) : Cascade prototype [] maxIn [] xs
  | cons {L M maxIn maxIn' : Nat} {f : PolyphaseFir R} {ratios : List (Nat × Nat)} {stages : List (PolyphaseFir R)}
      {xs : List R} (hf : Fed L M kStageTaps (prototype L M kStageTaps) maxIn f xs)
      (hsize : maxIn * L / M + 1 ≤ maxIn')
      (hrest : Cascade prototype ratios maxIn' stages
        (resample L M (L * kStageTaps) (prototype L M kStageTaps) xs)) :
      Cascade prototype ((L, M) :: ratios) maxIn (f :: stages) xs

/-- The stages of `prepare` have been fed nothing. -/
theorem cascade_spec {target : Nat} (ht : 0 < target) {inRate stageMax : Nat} (hr : 0 < inRate)
    {stages : List (PolyphaseFir R)} (h : cascade prototype target inRate stageMax = some stages) :
    Cascade prototype (stageRatios target inRate) stageMax stages [] := by
  induction inRate using Nat.strong_induction_on generalizing stageMax stages with
  | _ inRate ih =>
    rw [cascade] at h
    split at h
    · rename_i hlt
      obtain ⟨f, hf, h⟩ := Option.bind_eq_some_iff.1 h
      obtain ⟨rest, hrest, rfl⟩ := Option.map_eq_some_iff.1 h
      rw [stageRatios_halve hlt]
      have hfed := design_fed (by omega) (by omega) (by decide) hf
      have hnext : Cascade prototype (stageRatios target (inRate / 2)) (stageMax / 2 + 2) rest
          (resample 1 2 (1 * kStageTaps) (prototype 1 2 kStageTaps) []) := by
        simpa [resample, count] using ih _ (by omega) (by omega) hrest
      exact .cons hfed (by omega) hnext
    · rename_i hlt
      obtain ⟨f, hf, rfl⟩ := Option.map_eq_some_iff.1 h
      obtain ⟨hL, hM⟩ := reduced_pos ht hr
      rw [stageRatios_last hlt]
      exact .cons (design_fed hL hM (by decide) hf) (Nat.le_refl _) (.nil _ _)

theorem Cascade.outputCount_mono {ratios : List (Nat × Nat)} {maxIn : Nat} {stages : List (PolyphaseFir R)}
    {xs : List R} (hc : Cascade prototype ratios maxIn stages xs) {m n : Nat} (hmn : m ≤ n) :
    outputCount ratios m ≤ outputCount ratios n := by
  induction hc generalizing m n with
  | nil => exact hmn
  | cons hf _ _ ih => exact ih (count_mono hf.posM hmn)

/-- **Stages in a row**: no stage stops at a full buffer, and the last block is what the new samples add to the composed
stream. -/
theorem runStages_spec {ratios : List (Nat × Nat)} {maxIn : Nat} {stages : List (PolyphaseFir R)} {xs : List R}
    (hc : Cascade prototype ratios maxIn stages xs) {input : List R} (hlen : input.length ≤ maxIn) :
    Cascade prototype ratios maxIn (runStages stages input).1 (xs ++ input) ∧
      composed prototype ratios (xs ++ input) = composed prototype ratios xs ++ (runStages stages input).2.1 ∧
      (runStages stages input).2.2 = false ∧ (runStages stages input).2.1.length ≤ outputCount ratios input.length := by
  induction hc generalizing input with
  | nil maxIn xs => exact ⟨.nil _ _, rfl, rfl, Nat.le_refl _⟩
  | @cons L M maxIn maxIn' f ratios stages xs hf hsize hrest ih =>
    obtain ⟨hfull, -, hfed, hout⟩ := hf.process hlen
    have hcount : (f.process input).outputs.length ≤ count L M input.length := by
      have hl := congrArg List.length hout
      rw [List.length_append, length_resample, length_resample, List.length_append] at hl
      have := count_add_le (L := L) (N := xs.length) (n := input.length) hf.posM
      omega
    have hle : count L M input.length ≤ maxIn * L / M + 1 :=
      (count_mono hf.posM hlen).trans (count_le_div_add_one hf.posM)
    obtain ⟨hc', hcomp, hfull', hlen'⟩ := ih (show (f.process input).outputs.length ≤ maxIn' by omega)
    rw [← hout] at hc' hcomp
    refine ⟨.cons hfed hsize hc', hcomp, ?_, hlen'.trans ?_⟩
    · simp only [runStages, hfull, hfull', Bool.or_self]
    · exact hc'.outputCount_mono hcount

end Cascade

/-! ## A resampler in a stream -/

section Streamed

variable [CommRing R] {prototype : Nat → Nat → Nat → Mem R} {target hostRate maxInput : Nat} {rs : Resampler R}

/-- A resampler prepared for a host rate, between two calls, after the samples `xs`. -/
structure Streamed (prototype : Nat → Nat → Nat → Mem R) (target hostRate maxInput : Nat) (rs : Resampler R)
    (xs : List R) : Prop where
  size : rs.finalOutSize = maxInput * 2
  bypass : rs.bypass = decide (hostRate = target)
  stages : hostRate ≠ target → Cascade prototype (stageRatios target hostRate) maxInput rs.stages xs

/-- A prepared resampler has been fed nothing. -/
theorem prepare_streamed (ht : 0 < target) (hr : 0 < hostRate)
    (h : (Resampler.new R target maxInput).bind (·.prepare prototype hostRate) = some rs) :
    Streamed prototype target hostRate maxInput rs [] := by
  obtain ⟨rs₀, hnew, hprep⟩ := Option.bind_eq_some_iff.1 h
  obtain ⟨size, hsize, rfl⟩ := Option.map_eq_some_iff.1 hnew
  obtain ⟨-, hsize⟩ := Option.ite_none_right_eq_some.1 hsize
  cases hsize
  rw [prepare] at hprep
  dsimp only at hprep
  split at hprep
  · rename_i heq
    cases hprep
    exact ⟨rfl, by simp [heq], fun hne => absurd heq hne⟩
  · rename_i hne
    obtain ⟨inRate, hrate, hprep⟩ := Option.bind_eq_some_iff.1 hprep
    obtain ⟨-, hrate⟩ := Option.ite_none_right_eq_some.1 hrate
    cases hrate
    obtain ⟨_, -, hprep⟩ := Option.bind_eq_some_iff.1 hprep
    obtain ⟨stages, hcas, rfl⟩ := Option.map_eq_some_iff.1 hprep
    exact ⟨rfl, by simp [hne], fun _ => cascade_spec ht hr hcas⟩

/-- **`process`**: no stage stops at a full buffer, and the block is what the new samples add to the reference, up to
the final clamp. -/
theorem process_streamed {xs : List R} (hs : Streamed prototype target hostRate maxInput rs xs) {input : List R}
    (hlen : input.length ≤ maxInput) :
    Streamed prototype target hostRate maxInput (rs.process input).resampler (xs ++ input) ∧
      (rs.process input).full = false ∧
      ∃ out, reference prototype target hostRate (xs ++ input) = reference prototype target hostRate xs ++ out ∧
        (rs.process input).block = out.take (maxInput * 2) ∧
        (rs.process input).clamped = decide (maxInput * 2 < out.length) ∧
        (hostRate ≠ target → out.length ≤ outputCount (stageRatios target hostRate) input.length) ∧
        (hostRate = target → out = input) := by
  obtain ⟨hsize, hby, hstages⟩ := hs
  by_cases heq : hostRate = target
  · have hproc : rs.process input = ⟨rs, input, false, false⟩ := by rw [process, hby, if_pos (by simpa using heq)]
    rw [hproc]
    have hle : input.length ≤ maxInput * 2 := by omega
    refine ⟨⟨hsize, hby, fun hne => absurd heq hne⟩, rfl, input, ?_, ?_, ?_, fun hne => absurd heq hne, fun _ => rfl⟩
    · simp [reference, heq]
    · exact (List.take_of_length_le hle).symm
    · exact (decide_eq_false (by omega)).symm
  · obtain ⟨hc, hcomp, hfull, hle⟩ := runStages_spec (hstages heq) hlen
    have hproc : rs.process input = ⟨{ rs with stages := (runStages rs.stages input).1 },
        (runStages rs.stages input).2.1.take rs.finalOutSize, (runStages rs.stages input).2.2,
        rs.finalOutSize < (runStages rs.stages input).2.1.length⟩ := by
      rw [process, hby, if_neg (by simpa using heq)]
    rw [hproc]
    refine ⟨⟨hsize, hby, fun _ => hc⟩, hfull, _, ?_, by rw [hsize], by rw [hsize], fun _ => hle, fun h => absurd h heq⟩
    rw [reference, reference, if_neg heq, if_neg heq, hcomp]

/-- No call loses a sample when every block of the stages fits the output buffer. -/
theorem processAll_streamed (hfit : hostRate ≠ target →
    ∀ n, n ≤ maxInput → outputCount (stageRatios target hostRate) n ≤ maxInput * 2) {blocks : List (List R)}
    (hlen : ∀ block ∈ blocks, block.length ≤ maxInput) {xs : List R}
    (hs : Streamed prototype target hostRate maxInput rs xs) :
    reference prototype target hostRate (xs ++ blocks.flatten) =
        reference prototype target hostRate xs ++ (rs.processAll blocks).flatMap (·.block) ∧
      ∀ r ∈ rs.processAll blocks, r.full = false ∧ r.clamped = false := by
  induction blocks generalizing rs xs with
  | nil => simp [processAll]
  | cons block blocks ih =>
    have hb := hlen block List.mem_cons_self
    obtain ⟨hs', hfull, out, href, hblock, hclamp, hcount, hbypass⟩ := process_streamed hs hb
    have hout : out.length ≤ maxInput * 2 := by
      by_cases heq : hostRate = target
      · rw [hbypass heq]
        omega
      · exact (hcount heq).trans (hfit heq _ hb)
    rw [List.take_of_length_le hout] at hblock
    obtain ⟨hrest, hall⟩ := ih (fun b h => hlen b (List.mem_cons_of_mem _ h)) hs'
    refine ⟨?_, fun r hr => ?_⟩
    · rw [List.flatten_cons, ← List.append_assoc, hrest, href, processAll, List.flatMap_cons, hblock,
        List.append_assoc]
    · rcases List.mem_cons.1 hr with rfl | hr
      · exact ⟨hfull, by rw [hclamp, decide_eq_false (Nat.not_lt.2 hout)]⟩
      · exact hall r hr

end Streamed

/-! ## How many outputs the cascade has -/

section Counts

variable {target : Nat}

/-- A stage that does not raise the rate by more than `c`. -/
theorem count_le_mul {L M c : Nat} (hM : 0 < M) (h : L ≤ c * M) (n : Nat) : count L M n ≤ c * n := by
  rw [count_le_iff hM]
  calc n * L ≤ n * (c * M) := Nat.mul_le_mul_left n h
    _ = M * (c * n) := by ring

/-- The reduced ratio of the last stage. -/
theorem reduced_le {inRate c : Nat} (h : target ≤ c * inRate) :
    target / target.gcd inRate ≤ c * (inRate / target.gcd inRate) := by
  rw [← Nat.mul_div_assoc _ (Nat.gcd_dvd_right _ _)]
  exact Nat.div_le_div_right h

/-- From the target rate on, the stages do not raise the number of samples. -/
theorem outputCount_le (ht : 0 < target) {inRate : Nat} (h : target ≤ inRate) (n : Nat) :
    outputCount (stageRatios target inRate) n ≤ n := by
  induction inRate using Nat.strong_induction_on generalizing n with
  | _ inRate ih =>
    by_cases hlt : 2 * target < inRate
    · rw [stageRatios_halve hlt, outputCount]
      have hhalf := count_le_mul (L := 1) (M := 2) (c := 1) (by omega) (by omega) n
      exact (ih _ (by omega) (by omega) _).trans (by omega)
    · have hle : target ≤ 1 * inRate := by omega
      have hlast := count_le_mul (reduced_pos ht (by omega)).2 (reduced_le hle) n
      rw [stageRatios_last hlt, outputCount, outputCount]
      omega

/-- From half the target rate on, they at most double it. -/
theorem outputCount_le_two_mul (ht : 0 < target) {hostRate : Nat} (h : target ≤ 2 * hostRate) (n : Nat) :
    outputCount (stageRatios target hostRate) n ≤ 2 * n := by
  by_cases hlt : target ≤ hostRate
  · exact (outputCount_le ht hlt n).trans (by omega)
  · rw [stageRatios_last (by omega)]
    exact count_le_mul (reduced_pos ht (by omega)).2 (reduced_le h) n

/-- Every halving of `prepare` is exact. -/
inductive ExactHalvings (target : Nat) : Nat → Prop
  | last {rate : Nat} (h : rate ≤ 2 * target) : ExactHalvings target rate
  | halve {rate : Nat} (h : 2 * target < 2 * rate) (hrest : ExactHalvings target rate) : ExactHalvings target (2 * rate)

/-- The last stage's number of outputs. -/
theorem count_reduced (ht : 0 < target) {rate : Nat} (hr : 0 < rate) (n : Nat) :
    n * target ≤ count (target / target.gcd rate) (rate / target.gcd rate) n * rate ∧
      count (target / target.gcd rate) (rate / target.gcd rate) n * rate < n * target + rate := by
  obtain ⟨hL, hM⟩ := reduced_pos ht hr
  have hg := Nat.gcd_pos_of_pos_left rate ht
  have hLeq := Nat.div_mul_cancel (Nat.gcd_dvd_left target rate)
  have hMeq := Nat.div_mul_cancel (Nat.gcd_dvd_right target rate)
  generalize target / target.gcd rate = L at *
  generalize rate / target.gcd rate = M at *
  generalize target.gcd rate = g at *
  subst hLeq hMeq
  have hup := (count_le_iff (L := L) (N := n) hM).1 (Nat.le_refl _)
  constructor
  · calc n * (L * g) = n * L * g := by ring
      _ ≤ M * count L M n * g := Nat.mul_le_mul_right g hup
      _ = count L M n * (M * g) := by ring
  · rcases Nat.eq_zero_or_pos (count L M n) with h0 | hpos
    · rw [h0]
      have := Nat.mul_pos hM hg
      omega
    · obtain ⟨c, hc⟩ := Nat.exists_eq_succ_of_ne_zero hpos.ne'
      have hlow := (lt_count_iff (L := L) (N := n) hM).1 (show c < count L M n by omega)
      rw [hc]
      calc (c + 1) * (M * g) = M * c * g + M * g := by ring
        _ < n * L * g + M * g := Nat.add_lt_add_right (Nat.mul_lt_mul_of_pos_right hlow hg) _
        _ = n * (L * g) + M * g := by ring

/-- The number of outputs after exact halvings: each stage rounds up once, and what the rounding adds shrinks with the
rate. -/
theorem outputCount_bounds (ht : 0 < target) {rate : Nat} (hr : 0 < rate) (he : ExactHalvings target rate) (n : Nat) :
    n * target ≤ outputCount (stageRatios target rate) n * rate ∧
      outputCount (stageRatios target rate) n * rate < n * target + rate + (rate - target) := by
  induction he generalizing n with
  | last h =>
    rw [stageRatios_last (Nat.not_lt.2 h)]
    obtain ⟨hlow, hup⟩ := count_reduced ht hr n
    exact ⟨hlow, by simp only [outputCount]; omega⟩
  | @halve rate h hrest ih =>
    rw [stageRatios_halve h, Nat.mul_div_cancel_left rate (by omega), outputCount]
    have hhalf : n ≤ 2 * count 1 2 n ∧ 2 * count 1 2 n ≤ n + 1 := by
      have := (count_le_iff (L := 1) (M := 2) (N := n) (by omega)).1 (Nat.le_refl _)
      have := (count_le_iff (L := 1) (M := 2) (N := n) (t := (n + 1) / 2) (by omega)).2 (by omega)
      omega
    obtain ⟨hlow, hup⟩ := ih (by omega) (count 1 2 n)
    generalize outputCount (stageRatios target rate) (count 1 2 n) = c at *
    generalize count 1 2 n = m at *
    have h₁ : n * target ≤ 2 * m * target := Nat.mul_le_mul_right target hhalf.1
    have h₂ : 2 * m * target ≤ (n + 1) * target := Nat.mul_le_mul_right target hhalf.2
    rw [Nat.mul_assoc] at h₁ h₂
    rw [Nat.add_mul n 1, Nat.one_mul] at h₂
    rw [Nat.mul_left_comm]
    omega

theorem reference_nil [CommRing R] (prototype : Nat → Nat → Nat → Mem R) (target hostRate : Nat) :
    reference prototype target hostRate [] = ([] : List R) := by
  have hnil : ∀ ratios, composed prototype ratios [] = ([] : List R) := by
    intro ratios
    induction ratios with
    | nil => rfl
    | cons ratio ratios ih => simpa [composed, resample, count] using ih
  rw [reference]
  split
  · rfl
  · exact hnil _

/-- The length of the reference after exact halvings. -/
theorem reference_count [CommRing R] (prototype : Nat → Nat → Nat → Mem R) (ht : 0 < target) {hostRate : Nat}
    (hr : 0 < hostRate) (he : ExactHalvings target hostRate) (xs : List R) :
    xs.length * target ≤ (reference prototype target hostRate xs).length * hostRate ∧
      (reference prototype target hostRate xs).length * hostRate < xs.length * target + 2 * hostRate := by
  by_cases heq : hostRate = target
  · rw [reference, if_pos heq, heq]
    omega
  · rw [reference, if_neg heq, length_composed]
    have := outputCount_bounds ht hr he xs.length
    omega

end Counts

/-- **The cascade is lossless and does not depend on the block sizes.** From half the target rate on, the blocks of any
calls are together the composed stage filters of the whole stream, no stage stops at a full buffer and the final clamp
removes nothing; after exact halvings the number of outputs is within two of `N * target / hostRate`. -/
theorem resampler_lossless [CommRing R] {prototype : Nat → Nat → Nat → Mem R} {target hostRate maxInput : Nat}
    (ht : 0 < target) (hr : target ≤ 2 * hostRate) (hexact : ExactHalvings target hostRate) {rs : Resampler R}
    (hrs : (Resampler.new R target maxInput).bind (·.prepare prototype hostRate) = some rs) {blocks : List (List R)}
    (hlen : ∀ block ∈ blocks, block.length ≤ maxInput) :
    (rs.processAll blocks).flatMap (·.block) = reference prototype target hostRate blocks.flatten ∧
      (∀ r ∈ rs.processAll blocks, r.full = false ∧ r.clamped = false) ∧
      (0 : ℚ) ≤ ((rs.processAll blocks).flatMap (·.block)).length - blocks.flatten.length * target / hostRate ∧
      ((rs.processAll blocks).flatMap (·.block)).length - blocks.flatten.length * target / hostRate < (2 : ℚ) := by
  have hpos : 0 < hostRate := by omega
  obtain ⟨hout, hall⟩ := processAll_streamed
    (fun _ n hn => (outputCount_le_two_mul ht hr n).trans (by omega)) hlen (prepare_streamed ht hpos hrs)
  rw [reference_nil, List.nil_append, List.nil_append] at hout
  refine ⟨hout.symm, hall, ?_⟩
  have hcount := reference_count prototype ht hpos hexact blocks.flatten
  rw [← hout]
  generalize (reference prototype target hostRate blocks.flatten).length = c at *
  generalize blocks.flatten.length = n at *
  have hrate : (0 : ℚ) < hostRate := by exact_mod_cast hpos
  have hlow : (n * target : ℚ) ≤ c * hostRate := by exact_mod_cast hcount.1
  have hup : (c * hostRate : ℚ) < n * target + 2 * hostRate := by exact_mod_cast hcount.2
  constructor
  · rw [sub_nonneg, div_le_iff₀ hrate]
    exact hlow
  · rw [sub_lt_iff_lt_add, ← sub_lt_iff_lt_add', lt_div_iff₀ hrate, sub_mul]
    linarith

/-- Five samples from 192 kHz to 48 kHz through two stages, in blocks of at most two. -/
theorem resampler_lossless_five : ∃ rs : Resampler ℤ,
    (Resampler.new ℤ 48000 2).bind (·.prepare (fun _ _ _ _ => 1) 192000) = some rs ∧
      (rs.processAll [[1, 2], [3], [4, 5]]).flatMap (·.block) =
        reference (fun _ _ _ _ => 1) 48000 192000 [1, 2, 3, 4, 5] := by
  obtain ⟨rs, hrs⟩ := Option.isSome_iff_exists.1
    (show ((Resampler.new ℤ 48000 2).bind (·.prepare (fun _ _ _ _ => 1) 192000)).isSome from by decide +kernel)
  have hexact : ExactHalvings 48000 (2 * 96000) := .halve (by decide) (.last (by decide))
  exact ⟨rs, hrs, (resampler_lossless (by decide) (by decide) hexact hrs (by decide)).1⟩

end Resampler

end Bajiru.Linkjiru
