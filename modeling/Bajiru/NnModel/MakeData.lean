import Mathlib.Algebra.BigOperators.Ring.List
import Mathlib.Algebra.Order.BigOperators.Group.List
import Mathlib.Algebra.Order.Field.Basic
import Mathlib.Algebra.Order.Field.Rat
import Mathlib.Data.List.GetD
import Mathlib.Tactic.FieldSimp
import Mathlib.Tactic.Linarith
import Mathlib.Tactic.NormNum
import Mathlib.Tactic.Ring
import Bajiru.Python
import Bajiru.Scaled
import Bajiru.Unimodal

/-!
# Scores from labels

The kernel of `makedata.py` and the convolution of the labels with it, chunk by chunk. The chunks together are the causal
convolution of each channel (`labelsToScores_eq`). The kernel rises to its apex, but its rear part is the wrong way round:
it is a triangle, and the scores of a labelled interval rise and then fall, exactly if the rear part has at most two
samples (`triangularKernel_iff`). Samples are exact.
-/

namespace Bajiru.NnModel

/-! ## The kernel -/

/-- `np.linspace(start, stop, num, endpoint=True)`. -/
def linspace (start stop : ℚ) (num : Nat) : List ℚ :=
  (List.range num).map fun (i : Nat) => start + i * ((stop - start) / (num - 1))

def frontPart (frontSamples : Nat) : List ℚ := linspace (1 / frontSamples) 1 frontSamples

/-- `rear_part`, reversed as the code has it. -/
def rearPart (frontSamples rearSamples : Nat) : List ℚ :=
  (linspace ((frontPart frontSamples).getLastD 0 * (rearSamples - 1) / rearSamples) (1 / rearSamples) rearSamples).reverse

/-- `triangular_kernel(front_samples, rear_samples)`. -/
def triangularKernel (frontSamples rearSamples : Nat) : List ℚ :=
  let kern := frontPart frontSamples ++ rearPart frontSamples rearSamples
  kern.map (· / kern.sum)

/-! ## The scores -/

/-- `np.convolve(a, v, mode="full")`. -/
def convolve (a v : List ℚ) : List ℚ :=
  (List.range (a.length + v.length - 1)).map fun n => ∑ i ∈ Finset.range (n + 1), a.getD i 0 * v.getD (n - i) 0

/-- `block[:, ch_idx]`. -/
def channel (block : List (List ℚ)) (ch : Nat) : List ℚ := block.map (·.getD ch 0)

/-- `process_chunk(chunk_start, chunk_end)`, the rows of the chunk. -/
def processChunk (inp : List (List ℚ)) (nScores : Nat) (kern : List ℚ) (chunkStart chunkEnd : Nat) : List (List ℚ) :=
  let overlap := kern.length - 1
  let fetchStart := chunkStart - overlap
  let fetchEnd := min inp.length (chunkEnd + overlap)
  let block := (inp.drop fetchStart).take (fetchEnd - fetchStart)
  let blockLen := chunkEnd - chunkStart
  let convChannel := fun ch =>
    let startIdx := chunkStart - fetchStart
    ((convolve (channel block ch) kern).drop startIdx).take blockLen
  (List.range blockLen).map fun i => (List.range nScores).map fun ch => (convChannel ch).getD i 0

/-- `labels_to_scores`, from the rows of the input file to those of the output file; the chunks follow each other. -/
def labelsToScores (inp : List (List ℚ)) (nScores frontSamples rearSamples chunkSize : Nat) : List (List ℚ) :=
  let kern := triangularKernel frontSamples rearSamples
  let starts := (Python.range 0 inp.length chunkSize).map Int.toNat
  starts.flatMap fun s => processChunk inp nScores kern s (min inp.length (s + chunkSize))

/-! ## The chunks -/

theorem getD_map_range {β : Type*} {n i : Nat} (h : i < n) (f : Nat → β) (d : β) :
    ((List.range n).map f).getD i d = f i := by
  rw [List.getD_eq_getElem _ _ (by simpa using h), List.getElem_map, List.getElem_range]

/-- The causal convolution at `t`. -/
def score (kern col : List ℚ) (t : Nat) : ℚ := ∑ i ∈ Finset.range (t + 1), col.getD i 0 * kern.getD (t - i) 0

theorem getD_convolve {a v : List ℚ} {n : Nat} (h : n < a.length + v.length - 1) :
    (convolve a v).getD n 0 = score v a n :=
  getD_map_range h _ 0

/-- The convolution of a block that has all the samples that the kernel reaches. -/
theorem score_window {kern col : List ℚ} {f m t : Nat} (hft : f ≤ t) (ht : t < f + m)
    (hkern : ∀ j, j < f → kern.length ≤ t - j) : score kern ((col.drop f).take m) (t - f) = score kern col t := by
  unfold score
  rw [show t + 1 = f + (t - f + 1) by omega, Finset.sum_range_add _ f]
  have hbefore : ∑ j ∈ Finset.range f, col.getD j 0 * kern.getD (t - j) 0 = 0 := by
    refine Finset.sum_eq_zero fun j hj => ?_
    rw [List.getD_eq_default _ _ (hkern j (Finset.mem_range.1 hj)), mul_zero]
  rw [hbefore, zero_add]
  refine Finset.sum_congr rfl fun j hj => ?_
  have hj' := Finset.mem_range.1 hj
  have hcol : ((col.drop f).take m).getD j 0 = col.getD (f + j) 0 := by
    rw [List.getD_eq_getElem?_getD, List.getElem?_take_of_lt (by omega), List.getElem?_drop, ← List.getD_eq_getElem?_getD]
  rw [hcol, show t - (f + j) = t - f - j by omega]

/-- The rows of a chunk. -/
theorem processChunk_eq {inp : List (List ℚ)} {kern : List ℚ} (hkern : kern ≠ []) {s e : Nat}
    (he : e ≤ inp.length) (nScores : Nat) :
    processChunk inp nScores kern s e =
      (List.range (e - s)).map fun i => (List.range nScores).map fun ch => score kern (channel inp ch) (s + i) := by
  have hlen := List.length_pos_iff.2 hkern
  unfold processChunk
  refine List.map_congr_left fun i hi => List.map_congr_left fun ch _ => ?_
  have hi' := List.mem_range.1 hi
  generalize hf : s - (kern.length - 1) = f
  generalize hm : min inp.length (e + (kern.length - 1)) - f = m
  dsimp only
  have hchannel : channel ((inp.drop f).take m) ch = ((channel inp ch).drop f).take m := by
    rw [channel, List.map_take, List.map_drop, channel]
  have hbound : s - f + i < (channel ((inp.drop f).take m) ch).length + kern.length - 1 := by
    rw [channel, List.length_map, List.length_take, List.length_drop]
    omega
  rw [List.getD_eq_getElem?_getD, List.getElem?_take_of_lt hi', List.getElem?_drop, ← List.getD_eq_getElem?_getD,
    getD_convolve hbound, hchannel, show s - f + i = s + i - f by omega]
  exact score_window (by omega) (by omega) fun j hj => by omega

/-- Chunks of a range that follow each other. -/
theorem flatMap_chunks {β : Type*} (g : Nat → β) (n c k : Nat) :
    ((List.range k).flatMap fun j => (List.range (min n (j * c + c) - j * c)).map fun i => g (j * c + i)) =
      (List.range (min n (k * c))).map g := by
  induction k with
  | zero => simp
  | succ k ih =>
    rw [List.range_succ, List.flatMap_append, ih, List.flatMap_singleton, Nat.succ_mul]
    rcases Nat.le_total (k * c) n with h | h
    · have hend : min n (k * c + c) = k * c + (min n (k * c + c) - k * c) := by omega
      rw [Nat.min_eq_right h]
      nth_rewrite 2 [hend]
      rw [List.range_add, List.map_append, List.map_map]
      rfl
    · rw [Nat.min_eq_left h, Nat.min_eq_left (h.trans (Nat.le_add_right _ c)), Nat.sub_eq_zero_of_le h]
      exact List.append_nil _

/-- The chunks of any kernel, put together. -/
theorem flatMap_processChunk {kern : List ℚ} (hkern : kern ≠ []) (inp : List (List ℚ)) (nScores : Nat) {chunkSize : Nat}
    (hchunk : 0 < chunkSize) :
    ((Python.range 0 inp.length chunkSize).map Int.toNat).flatMap
        (fun s => processChunk inp nScores kern s (min inp.length (s + chunkSize))) =
      (List.range inp.length).map fun t => (List.range nScores).map fun ch => score kern (channel inp ch) t := by
  rw [Python.range_up _ hchunk, List.flatMap_map]
  have hchunks : (fun j => processChunk inp nScores kern (j * chunkSize)
      (min inp.length (j * chunkSize + chunkSize))) = fun j =>
        (List.range (min inp.length (j * chunkSize + chunkSize) - j * chunkSize)).map fun i =>
          (List.range nScores).map fun ch => score kern (channel inp ch) (j * chunkSize + i) :=
    funext fun j => processChunk_eq hkern (Nat.min_le_left _ _) nScores
  have hall : inp.length ≤ (inp.length + chunkSize - 1) / chunkSize * chunkSize := by
    have hdiv := Nat.div_add_mod (inp.length + chunkSize - 1) chunkSize
    have hmod := Nat.mod_lt (inp.length + chunkSize - 1) hchunk
    rw [Nat.mul_comm]
    omega
  rw [hchunks, flatMap_chunks (fun t => (List.range nScores).map fun ch => score kern (channel inp ch) t),
    Nat.min_eq_left hall]

theorem labelsToScores_eq (inp : List (List ℚ)) (nScores frontSamples rearSamples : Nat) {chunkSize : Nat}
    (hchunk : 0 < chunkSize) (hkern : triangularKernel frontSamples rearSamples ≠ []) :
    labelsToScores inp nScores frontSamples rearSamples chunkSize = (List.range inp.length).map fun t =>
      (List.range nScores).map fun ch => score (triangularKernel frontSamples rearSamples) (channel inp ch) t :=
  flatMap_processChunk hkern inp nScores hchunk

/-! ## The parts of the kernel -/

variable {frontSamples rearSamples : Nat}

theorem getD_linspace {start stop : ℚ} {num i : Nat} (h : i < num) :
    (linspace start stop num).getD i 0 = start + i * ((stop - start) / (num - 1)) :=
  getD_map_range h _ 0

theorem length_linspace (start stop : ℚ) (num : Nat) : (linspace start stop num).length = num := by
  simp [linspace]

/-- The front part rises to 1. -/
theorem getD_frontPart {i : Nat} (h : i < frontSamples) : (frontPart frontSamples).getD i 0 = (i + 1) / frontSamples := by
  unfold frontPart
  rw [getD_linspace h]
  obtain ⟨n, rfl⟩ := Nat.exists_eq_add_of_lt h
  rcases Nat.eq_zero_or_pos (i + n) with hzero | hpos
  · obtain ⟨rfl, rfl⟩ := Nat.add_eq_zero_iff.1 hzero
    norm_num
  · have hne : ((i + n : Nat) : ℚ) ≠ 0 := Nat.cast_ne_zero.2 hpos.ne'
    have hne' : ((i + n : Nat) : ℚ) + 1 ≠ 0 := by positivity
    rw [Nat.cast_succ, add_sub_cancel_right]
    field_simp
    ring

theorem getLastD_frontPart (h : 0 < frontSamples) : (frontPart frontSamples).getLastD 0 = 1 := by
  have hlen : (frontPart frontSamples).length = frontSamples := length_linspace _ _ _
  rw [List.getLastD_eq_getLast?, List.getLast?_eq_getElem?, hlen, ← List.getD_eq_getElem?_getD,
    getD_frontPart (by omega), Nat.cast_sub h]
  have hne : (frontSamples : ℚ) ≠ 0 := Nat.cast_ne_zero.2 h.ne'
  push_cast
  field_simp
  ring

theorem rearPart_eq (h : 0 < frontSamples) : rearPart frontSamples rearSamples =
    (linspace ((rearSamples - 1) / rearSamples) (1 / rearSamples) rearSamples).reverse := by
  rw [rearPart, getLastD_frontPart h, one_mul]

theorem rearPart_one (h : 0 < frontSamples) : rearPart frontSamples 1 = [0] := by
  rw [rearPart_eq h]
  norm_num [linspace]

theorem rearPart_two (h : 0 < frontSamples) : rearPart frontSamples 2 = [1 / 2, 1 / 2] := by
  rw [rearPart_eq h]
  norm_num [linspace, List.range_succ]

/-- A longer rear part rises again. -/
theorem rearPart_rises (h : 0 < frontSamples) (hrear : 2 < rearSamples) :
    (rearPart frontSamples rearSamples).getD 0 0 < (rearPart frontSamples rearSamples).getD 1 0 := by
  have hget : ∀ j, j < rearSamples → (rearPart frontSamples rearSamples).getD j 0 =
      (rearSamples - 1) / rearSamples +
        (rearSamples - 1 - j : Nat) * ((1 / rearSamples - (rearSamples - 1) / rearSamples) / (rearSamples - 1)) := by
    intro j hj
    rw [rearPart_eq h, List.getD_eq_getElem?_getD, List.getElem?_reverse (by rw [length_linspace]; exact hj),
      length_linspace, ← List.getD_eq_getElem?_getD, getD_linspace (by omega)]
  rw [hget 0 (by omega), hget 1 (by omega)]
  have hfall : (1 / (rearSamples : ℚ) - (rearSamples - 1) / rearSamples) / (rearSamples - 1) < 0 := by
    have hr : (2 : ℚ) < rearSamples := by exact_mod_cast hrear
    refine div_neg_of_neg_of_pos ?_ (by linarith)
    rw [← sub_div]
    exact div_neg_of_neg_of_pos (by linarith) (by linarith)
  have hindex : ((rearSamples - 1 - 1 : Nat) : ℚ) < (rearSamples - 1 - 0 : Nat) := by
    exact_mod_cast (by omega : rearSamples - 1 - 1 < rearSamples - 1 - 0)
  have := mul_lt_mul_of_neg_right hindex hfall
  linarith

/-! ## The triangle -/

/-- The kernel rises to its apex at `front - 1`, falls from there on, and sums to 1. -/
structure IsTriangle (front rear : Nat) (kern : List ℚ) : Prop where
  length : kern.length = front + rear
  nonneg : ∀ x ∈ kern, 0 ≤ x
  sum : kern.sum = 1
  rises : ∀ i, i + 1 < front → kern.getD i 0 ≤ kern.getD (i + 1) 0
  falls : ∀ i, front ≤ i + 1 → i + 1 < front + rear → kern.getD (i + 1) 0 ≤ kern.getD i 0

/-- From the apex on the kernel is 1 and its rear part. -/
theorem getD_apex (rear : List ℚ) {i : Nat} (hi : frontSamples ≤ i + 1) :
    (frontPart frontSamples ++ rear).getD i 0 = ((1 : ℚ) :: rear).getD (i + 1 - frontSamples) 0 := by
  have hlen : (frontPart frontSamples).length = frontSamples := length_linspace _ _ _
  rcases Nat.lt_or_ge i frontSamples with h | h
  · rw [List.getD_append _ _ _ _ (by omega), getD_frontPart h, show i + 1 - frontSamples = 0 by omega]
    have hi' : ((i + 1 : Nat) : ℚ) = frontSamples := congrArg _ (by omega)
    rw [← hi', Nat.cast_succ]
    exact div_self (by positivity)
  · rw [List.getD_append_right _ _ _ _ (by omega), hlen, show i + 1 - frontSamples = i - frontSamples + 1 by omega,
      List.getD_cons_succ]

/-- The parts of a kernel whose rear part is not negative. -/
theorem parts_nonneg {rear : List ℚ} (hnonneg : ∀ x ∈ rear, 0 ≤ x) : ∀ x ∈ frontPart frontSamples ++ rear, 0 ≤ x := by
  have hlen : (frontPart frontSamples).length = frontSamples := length_linspace _ _ _
  intro x hx
  rcases List.mem_append.1 hx with hx | hx
  · obtain ⟨i, hi, rfl⟩ := List.mem_iff_getElem.1 hx
    rw [← List.getD_eq_getElem _ 0 hi, getD_frontPart (by omega)]
    positivity
  · exact hnonneg x hx

theorem sum_parts_pos {rear : List ℚ} (hfront : 0 < frontSamples) (hnonneg : ∀ x ∈ rear, 0 ≤ x) :
    0 < (frontPart frontSamples ++ rear).sum := by
  have hlen : (frontPart frontSamples).length = frontSamples := length_linspace _ _ _
  have hapex : (1 : ℚ) ∈ frontPart frontSamples ++ rear := by
    have hone := getD_apex rear (show frontSamples ≤ frontSamples - 1 + 1 by omega)
    rw [show frontSamples - 1 + 1 - frontSamples = 0 by omega, List.getD_cons_zero,
      List.getD_eq_getElem _ _ (by rw [List.length_append]; omega)] at hone
    exact hone ▸ List.getElem_mem _
  exact zero_lt_one.trans_le (List.single_le_sum (parts_nonneg hnonneg) 1 hapex)

/-- A rear part that falls from the apex makes a triangle. -/
theorem isTriangle_of_falls (rear : List ℚ) (hfront : 0 < frontSamples) (hnonneg : ∀ x ∈ rear, 0 ≤ x)
    (hfalls : ∀ i, i < rear.length → ((1 : ℚ) :: rear).getD (i + 1) 0 ≤ ((1 : ℚ) :: rear).getD i 0) :
    IsTriangle frontSamples rear.length
      ((frontPart frontSamples ++ rear).map (· / (frontPart frontSamples ++ rear).sum)) := by
  have hlen : (frontPart frontSamples).length = frontSamples := length_linspace _ _ _
  have hsum := sum_parts_pos hfront hnonneg
  refine ⟨?_, ?_, ?_, fun i hi => ?_, fun i hi hi' => ?_⟩
  · rw [List.length_map, List.length_append, hlen]
  · exact scaled_nonneg (parts_nonneg hnonneg)
  · exact sum_scaled hsum.ne'
  · rw [getD_map_div, getD_map_div, List.getD_append _ _ _ _ (by omega), List.getD_append _ _ _ _ (by omega),
      getD_frontPart (by omega), getD_frontPart hi]
    gcongr
    linarith
  · rw [getD_map_div, getD_map_div, getD_apex _ hi, getD_apex _ (by omega)]
    gcongr
    rw [show i + 1 + 1 - frontSamples = i + 1 - frontSamples + 1 by omega]
    exact hfalls _ (by omega)

/-- **The kernel is a triangle** exactly if its rear part has at most two samples. -/
theorem isTriangle_iff (hfront : 0 < frontSamples) (hrear : 0 < rearSamples) :
    IsTriangle frontSamples rearSamples (triangularKernel frontSamples rearSamples) ↔ rearSamples ≤ 2 := by
  constructor
  · intro h
    by_contra hlt
    have hlen : (frontPart frontSamples).length = frontSamples := length_linspace _ _ _
    have hsum : 0 < (frontPart frontSamples ++ rearPart frontSamples rearSamples).sum := by
      have hone := h.sum
      have hapex : 0 ≤ (triangularKernel frontSamples rearSamples).getD (frontSamples - 1) 0 := by
        rw [List.getD_eq_getElem _ _ (by rw [h.length]; omega)]
        exact h.nonneg _ (List.getElem_mem _)
      unfold triangularKernel at hone hapex
      rw [sum_map_div] at hone
      rw [getD_map_div, getD_apex _ (by omega), show frontSamples - 1 + 1 - frontSamples = 0 by omega, List.getD_cons_zero,
        one_div_nonneg] at hapex
      refine lt_of_le_of_ne hapex fun heq => ?_
      rw [← heq, div_zero] at hone
      exact zero_ne_one hone
    have hkern : (triangularKernel frontSamples rearSamples).getD frontSamples 0 <
        (triangularKernel frontSamples rearSamples).getD (frontSamples + 1) 0 := by
      unfold triangularKernel
      rw [getD_map_div, getD_map_div, List.getD_append_right _ _ _ _ (by omega),
        List.getD_append_right _ _ _ _ (by omega), hlen, Nat.sub_self, Nat.add_sub_cancel_left]
      exact div_lt_div_of_pos_right (rearPart_rises hfront (not_le.1 hlt)) hsum
    exact absurd (h.falls frontSamples (by omega) (by omega)) (not_le.2 hkern)
  · intro hle
    obtain rfl | rfl : rearSamples = 1 ∨ rearSamples = 2 := by omega
    · unfold triangularKernel
      rw [rearPart_one hfront]
      refine isTriangle_of_falls [0] hfront (by simp) fun i hi => ?_
      obtain rfl : i = 0 := by simpa using hi
      norm_num
    · unfold triangularKernel
      rw [rearPart_two hfront]
      refine isTriangle_of_falls [1 / 2, 1 / 2] hfront (by simp) fun i hi => ?_
      obtain rfl | rfl : i = 0 ∨ i = 1 := by
        rw [List.length_cons, List.length_singleton] at hi
        omega
      · norm_num
      · norm_num

/-! ## The scores of an interval -/

/-- The kernel with zeros around it. -/
def kernelAt (kern : List ℚ) (j : Int) : ℚ := if 0 ≤ j then kern.getD j.toNat 0 else 0

variable {kern : List ℚ}

theorem kernelAt_natCast (i : Nat) : kernelAt kern i = kern.getD i 0 := by
  simp [kernelAt]

theorem IsTriangle.getD_nonneg (h : IsTriangle frontSamples rearSamples kern) (i : Nat) : 0 ≤ kern.getD i 0 := by
  rcases Nat.lt_or_ge i kern.length with hi | hi
  · rw [List.getD_eq_getElem _ _ hi]
    exact h.nonneg _ (List.getElem_mem hi)
  · rw [List.getD_eq_default _ _ hi]

theorem IsTriangle.kernelAt_nonneg (h : IsTriangle frontSamples rearSamples kern) (j : Int) : 0 ≤ kernelAt kern j := by
  unfold kernelAt
  split
  · exact h.getD_nonneg _
  · exact le_rfl

/-- A triangle has one peak. -/
theorem IsTriangle.peak (h : IsTriangle frontSamples rearSamples kern) (hfront : 0 < frontSamples) :
    Peak (kernelAt kern) (frontSamples - 1) := by
  have hrises : ∀ i j : Nat, i ≤ j → j + 1 ≤ frontSamples → kern.getD i 0 ≤ kern.getD j 0 := by
    intro i j hij
    induction j, hij using Nat.le_induction with
    | base => exact fun _ => le_rfl
    | succ j _ ih => exact fun hj => (ih (by omega)).trans (h.rises j hj)
  have hfalls : ∀ i j : Nat, frontSamples ≤ i + 1 → i ≤ j → kern.getD j 0 ≤ kern.getD i 0 := by
    intro i j hi hij
    induction j, hij using Nat.le_induction with
    | base => exact le_rfl
    | succ j hij ih =>
      refine le_trans ?_ ih
      rcases Nat.lt_or_ge (j + 1) (frontSamples + rearSamples) with hj | hj
      · exact h.falls j (by omega) hj
      · rw [List.getD_eq_default _ _ (by rw [h.length]; exact hj)]
        exact h.getD_nonneg j
  constructor
  · intro i _ j hj hij
    rw [Set.mem_Iic] at hj
    rcases lt_or_ge i 0 with hi | hi
    · exact (if_neg (not_le.2 hi)).trans_le (h.kernelAt_nonneg j)
    · obtain ⟨i, rfl⟩ := Int.eq_ofNat_of_zero_le hi
      obtain ⟨j, rfl⟩ := Int.eq_ofNat_of_zero_le (hi.trans hij)
      rw [kernelAt_natCast, kernelAt_natCast]
      exact hrises i j (by omega) (by omega)
  · intro i hi j _ hij
    rw [Set.mem_Ici] at hi
    obtain ⟨i, rfl⟩ := Int.eq_ofNat_of_zero_le (show 0 ≤ i by omega)
    obtain ⟨j, rfl⟩ := Int.eq_ofNat_of_zero_le (show 0 ≤ j by omega)
    rw [kernelAt_natCast, kernelAt_natCast]
    exact hfalls i j (by omega) (by omega)

/-- The scores of a labelled interval are the sums over a window of the kernel. -/
theorem score_interval {col : List ℚ} {a b t : Nat}
    (hcol : ∀ i, i ≤ t → col.getD i 0 = if a ≤ i ∧ i < b then 1 else 0) :
    score kern col t = windowSum (kernelAt kern) a b t := by
  have hterm : ∀ i ∈ Finset.range (t + 1), col.getD i 0 * kern.getD (t - i) 0 =
      if i ∈ Finset.Ico a b then kernelAt kern (t - i) else 0 := by
    intro i hi
    have hit := Finset.mem_range_succ_iff.1 hi
    rw [hcol i hit, ite_mul, one_mul, zero_mul, ← Nat.cast_sub hit, kernelAt_natCast]
    simp only [Finset.mem_Ico]
  unfold score windowSum
  rw [Finset.sum_congr rfl hterm, Finset.sum_ite_mem]
  refine Finset.sum_subset Finset.inter_subset_right fun i hi hnot => if_neg ?_
  have hit : ¬ i ≤ t := fun hit => hnot (Finset.mem_inter.2 ⟨Finset.mem_range_succ_iff.2 hit, hi⟩)
  omega

/-- **The kernel is a triangle, and the scores of a labelled interval rise and then fall**, exactly if the rear part has
at most two samples. -/
theorem triangularKernel_iff (hfront : 0 < frontSamples) (hrear : 0 < rearSamples) :
    IsTriangle frontSamples rearSamples (triangularKernel frontSamples rearSamples) ∧
      (∀ (inp : List (List ℚ)) (nScores chunkSize ch a b : Nat), 0 < chunkSize → ch < nScores → a ≤ b →
        (∀ i, i < inp.length → (inp.getD i []).getD ch 0 = if a ≤ i ∧ i < b then 1 else 0) →
        RisesThenFalls inp.length fun t =>
          ((labelsToScores inp nScores frontSamples rearSamples chunkSize).getD t []).getD ch 0) ↔
      rearSamples ≤ 2 := by
  refine ⟨fun h => (isTriangle_iff hfront hrear).1 h.1, fun hle => ?_⟩
  have htriangle := (isTriangle_iff hfront hrear).2 hle
  refine ⟨htriangle, fun inp nScores chunkSize ch a b hchunk hch hab hinp => ?_⟩
  have hkern : triangularKernel frontSamples rearSamples ≠ [] := by
    rw [← List.length_pos_iff, htriangle.length]
    omega
  refine (risesThenFalls_sum (htriangle.peak hfront) hab inp.length).congr fun t ht => ?_
  rw [labelsToScores_eq inp nScores frontSamples rearSamples hchunk hkern, getD_map_range ht, getD_map_range hch]
  refine (score_interval fun i hi => ?_).symm
  rw [← hinp i (by omega), channel]
  exact List.getD_map (l := inp) (d := []) (n := i) (·.getD ch 0)

theorem triangularKernel_two : IsTriangle 256 2 (triangularKernel 256 2) :=
  ((triangularKernel_iff (by decide) (by decide)).2 le_rfl).1

/-- The kernel of `convert_dataset`, and one labelled sample under a rear part of three samples. -/
theorem triangularKernel_three : ¬ IsTriangle 256 2048 (triangularKernel 256 2048) ∧
    ¬ RisesThenFalls 3 fun t => ((labelsToScores [[1], [0], [0]] 1 1 3 3).getD t []).getD 0 0 := by
  constructor
  · intro h
    exact absurd ((isTriangle_iff (by decide) (by decide)).1 h) (by decide)
  · rintro ⟨p, hrises, hfalls⟩
    rcases Nat.eq_zero_or_pos p with rfl | hp
    · exact absurd (hfalls 1 (by decide) (by decide)) (by decide +kernel)
    · exact absurd (hrises 0 hp (by decide)) (by decide +kernel)

end Bajiru.NnModel
