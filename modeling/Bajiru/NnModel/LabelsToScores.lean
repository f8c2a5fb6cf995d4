import Bajiru.NnModel.MakeData
import Mathlib.Algebra.Order.BigOperators.Group.Finset

/-!
# `labels_to_scores` and its chunks

The scores with what the function raises: a kernel without front or rear part divides by 0, and a matrix without
columns asks for a pool without workers. Everywhere else the chunks do not matter: the output is the causal convolution
of each channel, the first rows of its full convolution (`labelsToScores_unchunked`), and for weights that sum to 1 its
scores of labels stay between 0 and 1 (`causalScores_mem`).
-/

namespace Bajiru.NnModel

/-! ## The function -/

inductive ScoresError where
  | zeroDivisionError
  | valueError (msg : String)

/-- `triangular_kernel(front_samples, rear_samples)`; both lengths are divisors. -/
def makeKernel (frontSamples rearSamples : Nat) : Except ScoresError (List ℚ) :=
  if frontSamples = 0 ∨ rearSamples = 0 then .error .zeroDivisionError
  else .ok (triangularKernel frontSamples rearSamples)

/-- `os.cpu_count() or 1`. -/
def cpuCountOr1 : Option Nat → Nat
  | none => 1
  | some count => if count = 0 then 1 else count

/-- `ThreadPoolExecutor(max_workers)`. -/
def threadPool (maxWorkers : Nat) : Except ScoresError Unit :=
  if maxWorkers = 0 then .error (.valueError "max_workers must be greater than 0") else .ok ()

/-- A pass of the loop over the chunks. -/
def addChunk (cpuCount : Option Nat) (inp : List (List ℚ)) (nScores : Nat) (kern : List ℚ) (out : List (List ℚ))
    (chunk : Nat × Nat) : Except ScoresError (List (List ℚ)) :=
  (threadPool (min (cpuCountOr1 cpuCount) nScores)).map fun _ => out ++ processChunk inp nScores kern chunk.1 chunk.2

/-- The loop over the chunks, for any kernel. -/
def assembleScores (cpuCount : Option Nat) (inp : List (List ℚ)) (nScores : Nat) (kern : List ℚ) (chunkSize : Nat) :
    Except ScoresError (List (List ℚ)) :=
  let starts := (Python.range 0 inp.length chunkSize).map Int.toNat
  let chunks := starts.map fun s => (s, min inp.length (s + chunkSize))
  chunks.foldlM (addChunk cpuCount inp nScores kern) []

/-- `labels_to_scores`, where it may raise. -/
def tryLabelsToScores (cpuCount : Option Nat) (inp : List (List ℚ)) (nScores frontSamples rearSamples chunkSize : Nat) :
    Except ScoresError (List (List ℚ)) :=
  (makeKernel frontSamples rearSamples).bind fun kern => assembleScores cpuCount inp nScores kern chunkSize

/-! ## The chunks -/

variable {cpuCount : Option Nat} {inp : List (List ℚ)} {nScores chunkSize : Nat} {kern : List ℚ}

theorem threadPool_ok (hcolumns : 0 < nScores) : threadPool (min (cpuCountOr1 cpuCount) nScores) = .ok () := by
  have hcpu : 0 < cpuCountOr1 cpuCount := by
    unfold cpuCountOr1
    split
    · exact Nat.one_pos
    · split <;> omega
  exact if_neg (by omega)

theorem foldlM_addChunk (hcolumns : 0 < nScores) (chunks : List (Nat × Nat)) (out : List (List ℚ)) :
    chunks.foldlM (addChunk cpuCount inp nScores kern) out =
      .ok (out ++ chunks.flatMap fun chunk => processChunk inp nScores kern chunk.1 chunk.2) := by
  induction chunks generalizing out with
  | nil => simp [pure, Except.pure]
  | cons chunk chunks ih =>
    rw [List.foldlM_cons, addChunk, threadPool_ok hcolumns, List.flatMap_cons, ← List.append_assoc]
    exact ih _

/-- The loop over the chunks, at one go. -/
theorem assembleScores_eq (hcolumns : inp ≠ [] → 0 < nScores) (hkern : kern ≠ []) (hchunk : 0 < chunkSize) :
    assembleScores cpuCount inp nScores kern chunkSize =
      .ok ((List.range inp.length).map fun t => (List.range nScores).map fun ch => score kern (channel inp ch) t) := by
  rcases eq_or_ne inp [] with rfl | hinp
  · have hstarts : (Python.range 0 ([] : List (List ℚ)).length chunkSize).map Int.toNat = [] := by
      rw [Python.range_up _ hchunk]
      simp [Nat.div_eq_of_lt (Nat.sub_one_lt hchunk.ne')]
    unfold assembleScores
    rw [hstarts]
    rfl
  · unfold assembleScores
    rw [foldlM_addChunk (hcolumns hinp), List.flatMap_map, List.nil_append,
      ← flatMap_processChunk hkern inp nScores hchunk]

/-! ## The convolution -/

/-- The sum over the kernel instead of the samples. -/
theorem score_eq_sum (kern col : List ℚ) (t : Nat) :
    score kern col t = ∑ m ∈ Finset.range kern.length with m ≤ t, kern.getD m 0 * col.getD (t - m) 0 := by
  have hreflect : score kern col t = ∑ m ∈ Finset.range (t + 1), kern.getD m 0 * col.getD (t - m) 0 := by
    rw [score, ← Finset.sum_range_reflect]
    refine Finset.sum_congr rfl fun m hm => ?_
    have hm' := Finset.mem_range.1 hm
    rw [show t + 1 - 1 - m = t - m by omega, show t - (t - m) = m by omega, mul_comm]
  rw [hreflect]
  refine (Finset.sum_subset (fun m hm => ?_) fun m hm hout => ?_).symm
  · have := (Finset.mem_filter.1 hm).2
    exact Finset.mem_range.2 (by omega)
  · have hlong : kern.length ≤ m := by
      by_contra hlt
      refine hout (Finset.mem_filter.2 ⟨Finset.mem_range.2 (by omega), ?_⟩)
      have := Finset.mem_range.1 hm
      omega
    rw [List.getD_eq_default _ _ hlong, zero_mul]

theorem take_convolve (hkern : kern ≠ []) (col : List ℚ) :
    (convolve col kern).take col.length = (List.range col.length).map (score kern col) := by
  have hlen := List.length_pos_iff.2 hkern
  have hle : col.length ≤ col.length + kern.length - 1 := by omega
  rw [convolve, ← List.map_take, List.take_range, Nat.min_eq_left hle]
  rfl

theorem sum_getD (kern : List ℚ) : ∑ m ∈ Finset.range kern.length, kern.getD m 0 = kern.sum := by
  induction kern with
  | nil => rfl
  | cons x kern ih =>
    rw [List.length_cons, Finset.sum_range_succ', List.sum_cons, ← ih, add_comm]
    rfl

/-- Weights that sum to 1 keep a channel between 0 and 1. -/
theorem score_mem {col : List ℚ} (hnonneg : ∀ x ∈ kern, 0 ≤ x) (hsum : kern.sum = 1)
    (hcol : ∀ j, 0 ≤ col.getD j 0 ∧ col.getD j 0 ≤ 1) (t : Nat) : 0 ≤ score kern col t ∧ score kern col t ≤ 1 := by
  have hkern : ∀ m ∈ Finset.range kern.length, 0 ≤ kern.getD m 0 := by
    intro m hm
    rw [List.getD_eq_getElem _ _ (Finset.mem_range.1 hm)]
    exact hnonneg _ (List.getElem_mem _)
  rw [score_eq_sum]
  constructor
  · exact Finset.sum_nonneg fun m hm => mul_nonneg (hkern m (Finset.mem_filter.1 hm).1) (hcol _).1
  · calc ∑ m ∈ Finset.range kern.length with m ≤ t, kern.getD m 0 * col.getD (t - m) 0
        ≤ ∑ m ∈ Finset.range kern.length with m ≤ t, kern.getD m 0 :=
          Finset.sum_le_sum fun m hm => mul_le_of_le_one_right (hkern m (Finset.mem_filter.1 hm).1) (hcol _).2
      _ ≤ ∑ m ∈ Finset.range kern.length, kern.getD m 0 :=
          Finset.sum_le_sum_of_subset_of_nonneg (Finset.filter_subset _ _) fun m hm _ => hkern m hm
      _ = 1 := (sum_getD kern).trans hsum

/-! ## The weights of `triangular_kernel` -/

theorem rearPart_nonneg {front rear : Nat} (hfront : 0 < front) : ∀ x ∈ rearPart front rear, 0 ≤ x := by
  intro x hx
  rw [rearPart_eq hfront, List.mem_reverse] at hx
  obtain ⟨i, hi, rfl⟩ := List.mem_iff_getElem.1 hx
  have hlt : i < rear := by rwa [length_linspace] at hi
  rw [← List.getD_eq_getElem _ 0 hi, getD_linspace hlt]
  have hrear : (0 : ℚ) < rear := by exact_mod_cast (Nat.zero_le i).trans_lt hlt
  have hi' : (i : ℚ) ≤ rear - 1 := by
    rw [le_sub_iff_add_le]
    exact_mod_cast hlt
  rcases eq_or_lt_of_le (hi'.trans' (Nat.cast_nonneg i)) with hone | hlong
  · rw [← hone, div_zero, mul_zero, zero_div, add_zero]
  · have hconvex : ((rear : ℚ) - 1) / rear + i * ((1 / rear - (rear - 1) / rear) / (rear - 1)) =
        ((rear - 1 - i) * (rear - 1) + i) / (rear * (rear - 1)) := by
      field_simp
      ring
    rw [hconvex]
    have hrest : 0 ≤ (rear - 1 - (i : ℚ)) * (rear - 1) := mul_nonneg (sub_nonneg.2 hi') hlong.le
    positivity

theorem triangularKernel_nonneg {front rear : Nat} (hfront : 0 < front) : ∀ x ∈ triangularKernel front rear, 0 ≤ x :=
  scaled_nonneg (parts_nonneg (rearPart_nonneg hfront))

theorem sum_triangularKernel {front : Nat} (hfront : 0 < front) (rear : Nat) :
    (triangularKernel front rear).sum = 1 :=
  sum_scaled (sum_parts_pos hfront (rearPart_nonneg hfront)).ne'

theorem triangularKernel_ne_nil {front rear : Nat} (hfront : 0 < front) : triangularKernel front rear ≠ [] := by
  intro hnil
  have hsum := sum_triangularKernel hfront rear
  rw [hnil] at hsum
  exact zero_ne_one hsum

/-! ## The scores -/

/-- The causal convolution of every channel. -/
def causalScores (kern : List ℚ) (inp : List (List ℚ)) (nScores : Nat) : List (List ℚ) :=
  (List.range inp.length).map fun i => (List.range nScores).map fun ch =>
    ∑ m ∈ Finset.range kern.length with m ≤ i, kern.getD m 0 * (channel inp ch).getD (i - m) 0

theorem causalScores_eq : causalScores kern inp nScores =
    (List.range inp.length).map fun t => (List.range nScores).map fun ch => score kern (channel inp ch) t := by
  simp only [causalScores, score_eq_sum]

theorem getD_channel_mem {inp : List (List ℚ)} (hlabels : ∀ row ∈ inp, ∀ x ∈ row, x = 0 ∨ x = 1) (ch j : Nat) :
    0 ≤ (channel inp ch).getD j 0 ∧ (channel inp ch).getD j 0 ≤ 1 := by
  have hcases : (channel inp ch).getD j 0 = 0 ∨ (channel inp ch).getD j 0 = 1 := by
    have hmap : (channel inp ch).getD j 0 = (inp.getD j []).getD ch 0 :=
      List.getD_map (l := inp) (d := []) (n := j) (·.getD ch 0)
    rw [hmap]
    rcases Nat.lt_or_ge j inp.length with hj | hj
    · rw [List.getD_eq_getElem _ _ hj]
      rcases Nat.lt_or_ge ch inp[j].length with hch | hch
      · rw [List.getD_eq_getElem _ _ hch]
        exact hlabels _ (List.getElem_mem hj) _ (List.getElem_mem hch)
      · exact .inl (List.getD_eq_default _ _ hch)
    · rw [List.getD_eq_default _ _ hj]
      exact .inl rfl
  rcases hcases with h | h <;> rw [h] <;> norm_num

/-- **Scores of labels** are between 0 and 1. -/
theorem causalScores_mem (hnonneg : ∀ x ∈ kern, 0 ≤ x) (hsum : kern.sum = 1)
    (hlabels : ∀ row ∈ inp, ∀ x ∈ row, x = 0 ∨ x = 1) :
    ∀ row ∈ causalScores kern inp nScores, ∀ x ∈ row, 0 ≤ x ∧ x ≤ 1 := by
  intro row hrow x hx
  rw [causalScores_eq] at hrow
  obtain ⟨t, -, rfl⟩ := List.mem_map.1 hrow
  obtain ⟨ch, -, rfl⟩ := List.mem_map.1 hx
  exact score_mem hnonneg hsum (getD_channel_mem hlabels ch) t

/-- With the kernel of the code. -/
theorem tryLabelsToScores_eq {front rear : Nat} (cpuCount : Option Nat) (hcolumns : inp ≠ [] → 0 < nScores)
    (hchunk : 0 < chunkSize) (hfront : 0 < front) (hrear : 0 < rear) :
    tryLabelsToScores cpuCount inp nScores front rear chunkSize =
      .ok (causalScores (triangularKernel front rear) inp nScores) := by
  rw [tryLabelsToScores, makeKernel, if_neg (by omega), causalScores_eq]
  exact assembleScores_eq hcolumns (triangularKernel_ne_nil hfront) hchunk

/-- **`labels_to_scores` does not depend on the chunks.** -/
theorem labelsToScores_unchunked (cpuCount : Option Nat) (inp : List (List ℚ)) (nScores chunkSize : Nat)
    (hcolumns : inp ≠ [] → 0 < nScores) (hchunk : 0 < chunkSize) :
    (∀ kern, kern ≠ [] →
      assembleScores cpuCount inp nScores kern chunkSize = .ok (causalScores kern inp nScores) ∧
      (∀ ch, (convolve (channel inp ch) kern).take inp.length = (List.range inp.length).map fun i =>
        ∑ m ∈ Finset.range kern.length with m ≤ i, kern.getD m 0 * (channel inp ch).getD (i - m) 0) ∧
      ((∀ x ∈ kern, 0 ≤ x) → kern.sum = 1 → (∀ row ∈ inp, ∀ x ∈ row, x = 0 ∨ x = 1) →
        ∀ row ∈ causalScores kern inp nScores, ∀ x ∈ row, 0 ≤ x ∧ x ≤ 1)) ∧
    ∀ front rear, 0 < front → 0 < rear →
      tryLabelsToScores cpuCount inp nScores front rear chunkSize =
        .ok (causalScores (triangularKernel front rear) inp nScores) := by
  constructor
  · intro kern hkern
    refine ⟨?_, fun ch => ?_, causalScores_mem⟩
    · rw [assembleScores_eq hcolumns hkern hchunk, causalScores_eq]
    · have htake := take_convolve hkern (channel inp ch)
      rw [show (channel inp ch).length = inp.length from List.length_map _] at htake
      exact htake.trans (List.map_congr_left fun i _ => score_eq_sum kern (channel inp ch) i)
  · intro front rear hfront hrear
    exact tryLabelsToScores_eq cpuCount hcolumns hchunk hfront hrear

theorem labelsToScores_twoChunks :
    (∀ kern, kern ≠ [] →
      assembleScores none [[1], [0], [1]] 1 kern 2 = .ok (causalScores kern [[1], [0], [1]] 1) ∧
      (∀ ch, (convolve (channel [[1], [0], [1]] ch) kern).take 3 = (List.range 3).map fun i =>
        ∑ m ∈ Finset.range kern.length with m ≤ i, kern.getD m 0 * (channel [[1], [0], [1]] ch).getD (i - m) 0) ∧
      ((∀ x ∈ kern, 0 ≤ x) → kern.sum = 1 → (∀ row ∈ ([[1], [0], [1]] : List (List ℚ)), ∀ x ∈ row, x = 0 ∨ x = 1) →
        ∀ row ∈ causalScores kern [[1], [0], [1]] 1, ∀ x ∈ row, 0 ≤ x ∧ x ≤ 1)) ∧
    ∀ front rear, 0 < front → 0 < rear →
      tryLabelsToScores none [[1], [0], [1]] 1 front rear 2 =
        .ok (causalScores (triangularKernel front rear) [[1], [0], [1]] 1) :=
  labelsToScores_unchunked none [[1], [0], [1]] 1 2 (fun _ => Nat.one_pos) Nat.two_pos

/-- A matrix without columns, and a kernel without front part. -/
theorem labelsToScores_raises : ¬(∃ out, tryLabelsToScores (some 4) [[]] 0 1 1 1 = .ok out) ∧
    ¬∃ out, tryLabelsToScores (some 4) [[1]] 1 0 1 1 = .ok out := by
  constructor
  · rintro ⟨out, hout⟩
    cases hout
  · rintro ⟨out, hout⟩
    cases hout

end Bajiru.NnModel
