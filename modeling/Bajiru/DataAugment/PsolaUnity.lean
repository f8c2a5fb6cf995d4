import Bajiru.DataAugment.PitchDetect
import Bajiru.DataAugment.Psola
import Bajiru.OptionMapM
import Mathlib.Algebra.BigOperators.Ring.Finset

/-!
# The windows of PSOLA as a partition of unity

Where no half-width is clamped, the windows of `_place_peaks` are the tents over its peaks, and sum to 1 between the
first peak and the last, but for the peaks that are skipped: a first peak at 0 and a last one at the end of the output
have no outer half, and the code drops their inner half as well. So the sum is 1 exactly if the edges are clear
(`sum_windowAt_iff`), and exactly then does a shift by the ratio 1 return the signal between the marks
(`psolaShift_iff`).
-/

namespace Bajiru.DataAugment

variable {newPeaks : List Int} {outLen sigLen j : Nat} {srcs : Nat → Int}

/-! ## The windows -/

/-- The window that `_place_peaks` lays down at peak `j`, at the output index `i`. -/
def windowAt (newPeaks : List Int) (outLen sigLen j : Nat) (src i : Int) : ℚ :=
  let newPos := newPeaks.getD j 0
  let left := min (leftDist newPeaks j) src
  let right := min (rightDist newPeaks outLen j) (sigLen - 1 - src)
  if left < 1 ∨ right < 1 then 0
  else
    let outStart := newPos - left
    if outStart ≤ i then (window left right).getD (i - outStart).toNat 0 else 0

/-- The weights of a grain are the values of its window. -/
theorem windowAt_eq (src i : Int) :
    windowAt newPeaks outLen sigLen j src i = weight newPeaks outLen sigLen j src i := by
  unfold windowAt weight
  dsimp only
  generalize newPeaks.getD j 0 = newPos
  generalize min (leftDist newPeaks j) src = left
  generalize min (rightDist newPeaks outLen j) (sigLen - 1 - src) = right
  split
  · rfl
  next hskip =>
    obtain ⟨l, rfl⟩ := Int.eq_ofNat_of_zero_le (show 0 ≤ left by omega)
    obtain ⟨r, rfl⟩ := Int.eq_ofNat_of_zero_le (show 0 ≤ right by omega)
    split
    next hstart =>
      rcases Nat.lt_or_ge (i - (newPos - l)).toNat (l + r) with hin | hout
      · rw [getD_window hin, show ((i - (newPos - l)).toNat : Int) - l = i - newPos by omega]
      · rw [List.getD_eq_default _ _ (by rwa [length_window]), Tents.tent_of_not_mem (by omega) (by omega) (by omega)]
    next hbefore => rw [Tents.tent_of_not_mem (by omega) (by omega) (by omega)]

/-- No half-width is clamped by the ends of the signal. -/
def Unclamped (newPeaks : List Int) (outLen sigLen : Nat) (srcs : Nat → Int) : Prop :=
  ∀ j, j < newPeaks.length → leftDist newPeaks j ≤ srcs j ∧ rightDist newPeaks outLen j ≤ sigLen - 1 - srcs j

/-! ## The sum of the windows -/

/-- The widths of the inner and outer sides of the peaks. -/
theorem weight_of_inner {n : Nat} (h : Peaks newPeaks outLen) (hn : newPeaks.length = n + 1)
    (hsrcs : Unclamped newPeaks outLen sigLen srcs) (hj : j < n + 1) (i : Int) :
    weight newPeaks outLen sigLen j (srcs j) i =
      if (j = 0 ∧ newPeaks.getD 0 0 = 0) ∨ (j = n ∧ outLen - 1 - newPeaks.getD n 0 = 0) then 0
      else Tents.tentAt (newPeaks.getD 0 0) (outLen - 1 - newPeaks.getD n 0) (newPeaks.getD · 0) n j i := by
  obtain ⟨hleft, hright⟩ := hsrcs j (by omega)
  have hpos := h.nonneg _ (Peaks.getD_mem (show j < newPeaks.length by omega))
  have hlt := h.lt _ (Peaks.getD_mem (show j < newPeaks.length by omega))
  have hskip : leftDist newPeaks j < 1 ∨ rightDist newPeaks outLen j < 1 ↔
      (j = 0 ∧ newPeaks.getD 0 0 = 0) ∨ (j = n ∧ outLen - 1 - newPeaks.getD n 0 = 0) := by
    have hl : leftDist newPeaks j < 1 ↔ j = 0 ∧ newPeaks.getD 0 0 = 0 := by
      unfold leftDist
      split
      next hzero =>
        subst hzero
        omega
      next hzero =>
        have := h.getD_lt (show j - 1 < j by omega) (by omega)
        omega
    have hr : rightDist newPeaks outLen j < 1 ↔ j = n ∧ outLen - 1 - newPeaks.getD n 0 = 0 := by
      unfold rightDist
      split
      next hlast =>
        obtain rfl : j = n := by omega
        omega
      next hlast =>
        have := h.getD_lt (show j < j + 1 by omega) (by omega)
        omega
    rw [hl, hr]
  unfold weight
  dsimp only
  rw [min_eq_left hleft, min_eq_left hright]
  refine if_congr hskip rfl ?_
  unfold Tents.tentAt leftDist rightDist
  congr 1
  refine ite_congr (by rw [hn]; exact propext (by omega)) (fun hj => ?_) fun _ => rfl
  subst hj
  rfl

/-- The inner half of a first peak that is skipped. -/
def lostFirst (newPeaks : List Int) (i : Int) : ℚ :=
  if newPeaks.getD 0 0 = 0 then Tents.fall (newPeaks.getD 1 0 - newPeaks.getD 0 0) (i - newPeaks.getD 0 0) else 0

/-- The inner half of a last peak, `n`, that is skipped. -/
def lostLast (newPeaks : List Int) (outLen n : Nat) (i : Int) : ℚ :=
  if outLen - 1 - newPeaks.getD n 0 = 0 then
    Tents.rise (newPeaks.getD n 0 - newPeaks.getD (n - 1) 0) (i - newPeaks.getD (n - 1) 0)
  else 0

/-- **The sum of the windows** lacks the inner halves of the peaks that are skipped. -/
theorem sum_windowAt {n : Nat} (h : Peaks newPeaks outLen) (hn : newPeaks.length = n + 1) (hpos : 0 < n)
    (hsrcs : Unclamped newPeaks outLen sigLen srcs) {i : Int} (hfirst : newPeaks.getD 0 0 ≤ i)
    (hlast : i < newPeaks.getD n 0) :
    ∑ j ∈ Finset.range (n + 1), windowAt newPeaks outLen sigLen j (srcs j) i =
      1 - lostFirst newPeaks i - lostLast newPeaks outLen n i := by
  have hgaps : ∀ j, j < n → newPeaks.getD j 0 < newPeaks.getD (j + 1) 0 :=
    fun j hj => h.getD_lt (Nat.lt_succ_self j) (by omega)
  have htents := Tents.sum_tentAt (K := ℚ) hgaps (newPeaks.getD 0 0) (outLen - 1 - newPeaks.getD n 0) i
  rw [Tents.rise_of_le (by omega), if_pos ⟨hfirst, hlast⟩, Tents.fall_of_neg (by omega), zero_add, add_zero] at htents
  have hzero : Tents.tentAt (newPeaks.getD 0 0) (outLen - 1 - newPeaks.getD n 0) (newPeaks.getD · 0) n 0 i =
      (Tents.fall (newPeaks.getD 1 0 - newPeaks.getD 0 0) (i - newPeaks.getD 0 0) : ℚ) := by
    rw [Tents.tentAt, Tents.tent, if_pos rfl, if_neg hpos.ne, Tents.rise_of_le (by omega), zero_add]
  have hend : Tents.tentAt (newPeaks.getD 0 0) (outLen - 1 - newPeaks.getD n 0) (newPeaks.getD · 0) n n i =
      (Tents.rise (newPeaks.getD n 0 - newPeaks.getD (n - 1) 0) (i - newPeaks.getD (n - 1) 0) : ℚ) := by
    rw [Tents.tentAt, Tents.tent, if_neg hpos.ne', if_pos rfl, Tents.fall_of_neg (by omega), add_zero]
    congr 1
    omega
  have hwindow : ∀ j ∈ Finset.range (n + 1), windowAt newPeaks outLen sigLen j (srcs j) i =
      Tents.tentAt (newPeaks.getD 0 0) (outLen - 1 - newPeaks.getD n 0) (newPeaks.getD · 0) n j i -
        (if j = 0 then lostFirst newPeaks i else 0) - if j = n then lostLast newPeaks outLen n i else 0 := by
    intro j hj
    rw [windowAt_eq, weight_of_inner h hn hsrcs (Finset.mem_range.1 hj)]
    unfold lostFirst lostLast
    rcases eq_or_ne j 0 with rfl | hj0
    · rw [if_pos rfl, if_neg hpos.ne, sub_zero, hzero]
      by_cases hskip : newPeaks.getD 0 0 = 0
      · rw [if_pos (.inl ⟨rfl, hskip⟩), if_pos hskip, sub_self]
      · rw [if_neg (by omega), if_neg hskip, sub_zero]
    · rcases eq_or_ne j n with rfl | hjn
      · rw [if_neg hj0, if_pos rfl, sub_zero, hend]
        by_cases hskip : outLen - 1 - newPeaks.getD j 0 = 0
        · rw [if_pos (.inr ⟨rfl, hskip⟩), if_pos hskip, sub_self]
        · rw [if_neg (by omega), if_neg hskip, sub_zero]
      · rw [if_neg hj0, if_neg hjn, sub_zero, sub_zero, if_neg (by omega)]
  rw [Finset.sum_congr rfl hwindow, Finset.sum_sub_distrib, Finset.sum_sub_distrib, htents, Finset.sum_ite_eq',
    Finset.sum_ite_eq', if_pos (by simp), if_pos (by simp)]

theorem lostFirst_nonneg (newPeaks : List Int) (i : Int) : 0 ≤ lostFirst newPeaks i := by
  unfold lostFirst
  split
  · exact Tents.fall_nonneg _ _
  · exact le_rfl

theorem lostLast_nonneg (newPeaks : List Int) (outLen n : Nat) (i : Int) :
    0 ≤ lostLast newPeaks outLen n i := by
  unfold lostLast
  split
  · exact Tents.rise_nonneg _ _
  · exact le_rfl

/-- A first peak without a gap behind it loses nothing. -/
theorem lostFirst_eq_zero (hnarrow : newPeaks.getD 0 0 = 0 → newPeaks.getD 1 0 = 1) (i : Int) :
    lostFirst newPeaks i = 0 := by
  unfold lostFirst
  split
  next hzero => rw [hnarrow hzero, hzero, sub_zero, Tents.fall_one]
  next => rfl

theorem lostFirst_start_eq_zero_iff (hgap : newPeaks.getD 0 0 < newPeaks.getD 1 0) :
    lostFirst newPeaks (newPeaks.getD 0 0) = 0 ↔ (newPeaks.getD 0 0 = 0 → newPeaks.getD 1 0 = 1) := by
  refine ⟨fun hlost hzero => ?_, fun hnarrow => lostFirst_eq_zero hnarrow _⟩
  by_contra hwide
  rw [lostFirst, if_pos hzero, sub_self] at hlost
  exact absurd hlost (Tents.fall_zero_pos (by omega)).ne'

/-- A last peak loses something exactly if it is skipped. -/
theorem lostLast_eq_zero_iff {n : Nat} (hgap : newPeaks.getD (n - 1) 0 < newPeaks.getD n 0)
    (hend : newPeaks.getD n 0 < outLen) :
    lostLast newPeaks outLen n (newPeaks.getD (n - 1) 0) = 0 ↔ newPeaks.getD n 0 + 1 < outLen := by
  unfold lostLast
  split
  next hskip =>
    rw [sub_self]
    exact iff_of_false (Tents.rise_zero_pos (by omega)).ne' (by omega)
  next hskip => exact iff_of_true rfl (by omega)

/-- Neither a first peak at 0 with a gap behind it, nor a last peak at the end of the output. -/
def EdgesClear (newPeaks : List Int) (outLen : Nat) : Prop :=
  2 ≤ newPeaks.length →
    (newPeaks.getD 0 0 = 0 → newPeaks.getD 1 0 = 1) ∧ newPeaks.getD (newPeaks.length - 1) 0 + 1 < outLen

/-- **The windows are a partition of unity** between the first peak and the last, exactly if the edges are clear. -/
theorem sum_windowAt_iff (h : Peaks newPeaks outLen) (hsrcs : Unclamped newPeaks outLen sigLen srcs) :
    (∀ i, newPeaks.getD 0 0 ≤ i → i < newPeaks.getD (newPeaks.length - 1) 0 →
      ∑ j ∈ Finset.range newPeaks.length, windowAt newPeaks outLen sigLen j (srcs j) i = 1) ↔
    EdgesClear newPeaks outLen := by
  unfold EdgesClear
  rcases Nat.lt_or_ge newPeaks.length 2 with hfew | hmany
  · refine iff_of_true (fun i hfirst hlast => ?_) fun hmany => absurd hmany (by omega)
    rw [show newPeaks.length - 1 = 0 by omega] at hlast
    omega
  · obtain ⟨n, hn⟩ : ∃ n, newPeaks.length = n + 1 := ⟨newPeaks.length - 1, by omega⟩
    have hpos : 0 < n := by omega
    have hgap := h.getD_lt (show 0 < 1 by decide) (by omega)
    have hinner := h.getD_lt (show n - 1 < n by omega) (by omega)
    have hend := h.lt _ (Peaks.getD_mem (show n < newPeaks.length by omega))
    have hbefore : newPeaks.getD 0 0 ≤ newPeaks.getD (n - 1) 0 := by
      rcases Nat.eq_zero_or_pos (n - 1) with hzero | hlater
      · rw [hzero]
      · exact (h.getD_lt hlater (by omega)).le
    have hunity : ∀ i, newPeaks.getD 0 0 ≤ i → i < newPeaks.getD n 0 →
        (∑ j ∈ Finset.range (n + 1), windowAt newPeaks outLen sigLen j (srcs j) i = 1 ↔
          lostFirst newPeaks i = 0 ∧ lostLast newPeaks outLen n i = 0) := by
      intro i hfirst hlast
      have hfirst0 := lostFirst_nonneg newPeaks i
      have hlast0 := lostLast_nonneg newPeaks outLen n i
      rw [sum_windowAt h hn hpos hsrcs hfirst hlast]
      exact ⟨fun hone => ⟨by linarith, by linarith⟩, fun hlost => by rw [hlost.1, hlost.2, sub_zero, sub_zero]⟩
    rw [hn, Nat.add_sub_cancel]
    constructor
    · intro hone _
      have hstart := hbefore.trans_lt hinner
      exact ⟨(lostFirst_start_eq_zero_iff hgap).1 ((hunity _ le_rfl hstart).1 (hone _ le_rfl hstart)).1,
        (lostLast_eq_zero_iff hinner hend).1 ((hunity _ hbefore hinner).1 (hone _ hbefore hinner)).2⟩
    · intro hclear i hfirst hlast
      obtain ⟨hstart, hroom⟩ := hclear (by omega)
      exact (hunity i hfirst hlast).2 ⟨lostFirst_eq_zero hstart i, if_neg (by omega)⟩

/-! ## A shift by the ratio 1 -/

variable {marks : List Int} {signal : List ℚ}

/-- The references of the ratio 1 are the indices of the marks. -/
theorem linspace_index {n : Nat} (hn : 2 ≤ n) :
    NnModel.linspace 0 ((n : ℚ) - 1) n = (List.range n).map fun (i : Nat) => (i : ℚ) := by
  have hne : (n : ℚ) - 1 ≠ 0 := by
    have : (2 : ℚ) ≤ n := by exact_mod_cast hn
    linarith
  refine List.map_congr_left fun i _ => ?_
  rw [sub_zero, div_self hne, mul_one, zero_add]

theorem interpolate_index {i : Nat} (hi : i < marks.length) : interpolate marks i = some (marks.getD i 0 : ℚ) := by
  unfold interpolate
  rw [Int.floor_natCast, Int.ceil_natCast, Python.getItem_natCast, List.getElem?_eq_getElem hi,
    List.getD_eq_getElem _ _ hi]
  simp

/-- A mark is its own source. -/
theorem source_self {p : Int} (hp : p ∈ marks) : source marks p = some p := by
  obtain ⟨i, hi⟩ := Numpy.exists_argmin (marks.map fun (m : Int) => |(m : ℚ) - p|)
    (by simpa using List.ne_nil_of_mem hp)
  obtain ⟨v, hv, hle⟩ := Numpy.argmin_spec hi
  rw [List.getElem?_map] at hv
  obtain ⟨m, hm, rfl⟩ := Option.map_eq_some_iff.1 hv
  have hzero := hle |(p : ℚ) - p| (List.mem_map_of_mem hp)
  rw [sub_self, abs_zero, abs_nonpos_iff, sub_eq_zero, Int.cast_inj] at hzero
  rw [source, hi, Option.bind_some, hm, hzero]

theorem Peaks.unclamped (h : Peaks marks outLen) : Unclamped marks outLen outLen (marks.getD · 0) :=
  fun _ hj => ⟨h.leftDist_le hj, h.rightDist_le hj⟩

/-- **A shift by the ratio 1** multiplies the signal with the sum of the windows. -/
theorem psolaShift_one (h : Peaks marks signal.length) (hmarks : 2 ≤ marks.length) :
    psolaShift signal marks 1 = some ((List.range signal.length).map fun (k : Nat) =>
      (∑ j ∈ Finset.range marks.length, windowAt marks signal.length signal.length j (marks.getD j 0) k) *
        signal.getD k 0) := by
  have hrefs : max 1 (Python.int ((marks.length : ℚ) * 1)) = marks.length := by
    rw [mul_one, ← Int.cast_natCast (R := ℚ), Python.int_intCast]
    omega
  have hpositions : ((List.range marks.length).map fun (i : Nat) => (i : ℚ)).mapM (interpolate marks) =
      some (marks.map fun (m : Int) => (m : ℚ)) := by
    have hmap : (List.range marks.length).mapM (fun (i : Nat) => interpolate marks i) =
        some ((List.range marks.length).map fun i => (marks.getD i 0 : ℚ)) :=
      mapM_some fun i hi => interpolate_index (List.mem_range.1 hi)
    rw [List.mapM_map]
    refine hmap.trans (congrArg some (List.ext_getElem (by simp) fun i hi _ => ?_))
    rw [List.getElem_map, List.getElem_range, List.getElem_map, List.getD_eq_getElem]
  have hpeaks : ((marks.map fun (m : Int) => (m : ℚ)).map
      fun p => Numpy.clip (Python.round p) 0 ((signal.length : Int) - 1)) = marks := by
    rw [List.map_map]
    exact (List.map_congr_left fun m hm => clip_round (h.nonneg m hm) (h.lt m hm)).trans (List.map_id marks)
  have hnil : marks ≠ [] := by
    rintro rfl
    exact absurd hmarks (by decide)
  have hdedupe : dedupeSorted marks = some marks := by
    rw [dedupeSorted, if_neg (by omega)]
    exact compress_peaks hnil h.increasing rfl
  have hsrcs : Sources marks (marks.map fun (m : Int) => (m : ℚ)) (marks.getD · 0) marks.length := by
    intro j hj
    refine ⟨marks.getD j 0, ?_, source_self (Peaks.getD_mem hj)⟩
    rw [List.getElem?_map, List.getElem?_eq_getElem hj, List.getD_eq_getElem _ _ hj]
    rfl
  have hplace := placePeaks_eq signal h hsrcs
  unfold psolaShift
  rw [if_neg fun h => h.elim zero_lt_one.not_ge (Nat.not_lt.2 hmarks)]
  dsimp only
  rw [hrefs, Int.toNat_natCast, linspace_index hmarks, hpositions, Option.bind_eq_bind, Option.bind_some, hpeaks,
    hdedupe,
    Option.bind_eq_bind, Option.bind_some, if_neg (by omega), hplace]
  refine congrArg some (List.map_congr_left fun k _ => ?_)
  rw [Finset.sum_mul]
  refine Finset.sum_congr rfl fun j _ => ?_
  rw [windowAt_eq, show marks.getD j 0 + (k : Int) - marks.getD j 0 = k by omega, Int.toNat_natCast]

/-- The output between the first mark and the last. -/
theorem getElem?_psolaShift {out : List ℚ} (h : Peaks marks signal.length) (hmarks : 2 ≤ marks.length)
    (hout : psolaShift signal marks 1 = some out) {k : Nat} (hk : (k : Int) < marks.getD (marks.length - 1) 0) :
    out[k]? = some ((∑ j ∈ Finset.range marks.length,
      windowAt marks signal.length signal.length j (marks.getD j 0) k) * signal.getD k 0) := by
  have hlast := h.lt _ (Peaks.getD_mem (show marks.length - 1 < marks.length by omega))
  rw [psolaShift_one h hmarks, Option.some_inj] at hout
  rw [← hout, List.getElem?_map, List.getElem?_range (by omega), Option.map_some]

/-- **A shift by the ratio 1** returns every signal between its marks, exactly if the edges are clear. -/
theorem psolaShift_iff (h : Peaks marks outLen) (hmarks : 2 ≤ marks.length) :
    (∀ signal : List ℚ, signal.length = outLen → ∃ out, psolaShift signal marks 1 = some out ∧
      ∀ k : Nat, marks.getD 0 0 ≤ k → (k : Int) < marks.getD (marks.length - 1) 0 → out[k]? = signal[k]?) ↔
    EdgesClear marks outLen := by
  have hlast := h.lt _ (Peaks.getD_mem (show marks.length - 1 < marks.length by omega))
  rw [← sum_windowAt_iff h h.unclamped]
  constructor
  · intro hshift i hfirst hend
    obtain ⟨k, rfl⟩ := Int.eq_ofNat_of_zero_le ((h.nonneg _ (Peaks.getD_mem (by omega))).trans hfirst)
    obtain ⟨out, hout, hsame⟩ := hshift (List.replicate outLen 1) List.length_replicate
    have hone := hsame k hfirst hend
    have hlen : (List.replicate outLen (1 : ℚ)).length = outLen := List.length_replicate
    rw [getElem?_psolaShift (by rwa [hlen]) hmarks hout hend, hlen, List.getElem?_replicate, if_pos (by omega),
      Option.some_inj, List.getD_eq_getElem _ _ (by rw [hlen]; omega), List.getElem_replicate, mul_one] at hone
    exact hone
  · rintro hunity signal rfl
    refine ⟨_, psolaShift_one h hmarks, fun k hfirst hend => ?_⟩
    rw [getElem?_psolaShift h hmarks (psolaShift_one h hmarks) hend, hunity k hfirst hend, one_mul,
      List.getD_eq_getElem _ _ (by omega), List.getElem?_eq_getElem]

/-- **PSOLA's windows and its shift by the ratio 1**, for the peaks of an output. -/
theorem psola_unity (h : Peaks newPeaks outLen) :
    (∀ sigLen srcs, Unclamped newPeaks outLen sigLen srcs →
      ((∀ i, newPeaks.getD 0 0 ≤ i → i < newPeaks.getD (newPeaks.length - 1) 0 →
        ∑ j ∈ Finset.range newPeaks.length, windowAt newPeaks outLen sigLen j (srcs j) i = 1) ↔
      EdgesClear newPeaks outLen)) ∧
    (2 ≤ newPeaks.length →
      ((∀ signal : List ℚ, signal.length = outLen → ∃ out, psolaShift signal newPeaks 1 = some out ∧
        ∀ k : Nat, newPeaks.getD 0 0 ≤ k → (k : Int) < newPeaks.getD (newPeaks.length - 1) 0 → out[k]? = signal[k]?) ↔
      EdgesClear newPeaks outLen)) :=
  ⟨fun _ _ => sum_windowAt_iff h, psolaShift_iff h⟩

theorem psola_unity_inside :
    (∀ sigLen srcs, Unclamped [1, 3] 6 sigLen srcs →
      ((∀ i, [1, 3].getD 0 0 ≤ i → i < [1, 3].getD ([1, 3].length - 1) (0 : Int) →
        ∑ j ∈ Finset.range [1, 3].length, windowAt [1, 3] 6 sigLen j (srcs j) i = 1) ↔ EdgesClear [1, 3] 6)) ∧
    (2 ≤ [1, 3].length →
      ((∀ signal : List ℚ, signal.length = 6 → ∃ out, psolaShift signal [1, 3] 1 = some out ∧
        ∀ k : Nat, [1, 3].getD 0 0 ≤ (k : Int) → (k : Int) < [1, 3].getD ([1, 3].length - 1) 0 → out[k]? = signal[k]?) ↔
      EdgesClear [1, 3] 6)) :=
  psola_unity ⟨by decide, by decide, by decide⟩

/-- The fallback marks of three samples are the first and the last; between them nothing is left of the signal. -/
theorem psola_unity_fallback : fallbackMarks 3 2 = [0, 2] ∧ Unclamped (fallbackMarks 3 2) 3 3 ([0, 2].getD · 0) ∧
    ∑ j ∈ Finset.range 2, windowAt (fallbackMarks 3 2) 3 3 j ([0, 2].getD j 0) 0 ≠ 1 ∧
    ¬∃ out, psolaShift [1, 1, 1] (fallbackMarks 3 2) 1 = some out ∧ out[0]? = some 1 := by
  have hmarks : fallbackMarks 3 2 = [0, 2] := by decide +kernel
  have hshift : psolaShift [1, 1, 1] [0, 2] 1 = some [0, 0, 0] := by decide +kernel
  rw [hmarks]
  refine ⟨rfl, ?_, by decide +kernel, ?_⟩
  · intro j hj
    have hj' : j < 2 := hj
    interval_cases j <;> decide
  · rintro ⟨out, hout, hone⟩
    rw [hshift] at hout
    cases hout
    exact absurd hone (by decide)

end Bajiru.DataAugment
