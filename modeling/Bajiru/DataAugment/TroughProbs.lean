import Bajiru.Cumsum
import Bajiru.Numpy
import Bajiru.OptionMapM
import Mathlib.Algebra.BigOperators.Ring.List
import Mathlib.Algebra.Order.BigOperators.Group.List
import Mathlib.Algebra.Order.Field.Basic
import Mathlib.Algebra.Ring.GeomSum
import Mathlib.Analysis.SpecialFunctions.Exp
import Mathlib.Data.List.GetD
import Mathlib.Tactic.Linarith

/-!
# `yin_trough_probs` of the pitch tracker

Each threshold spreads its probability over the troughs below it, numbered without gaps; what no trough takes goes, in
part, to the lowest one. The pmf of scipy is a parameter: over the positions of a positive number of troughs it sums
to 1. A matrix of frames is the list of its columns.
-/

namespace Bajiru.DataAugment

variable {K : Type*} [Field K] [LinearOrder K]

/-! ## The function -/

/-- `localmin_1d(x)`; without two entries an index is out of range. -/
def localmin1d (x : List K) : Option (List Bool) :=
  if x.length < 2 then none
  else some ((List.range x.length).map fun i =>
    if i = 0 then false
    else if i + 1 = x.length then decide (x.getD i 0 < x.getD (i - 1) 0)
    else decide (x.getD i 0 < x.getD (i - 1) 0) && decide (x.getD i 0 ≤ x.getD (i + 1) 0))

/-- `trough_index` of a frame. -/
def troughIndex (yinFrame : List K) : Option (List Nat) :=
  (localmin1d yinFrame).map fun isTrough =>
    let isTrough := isTrough.set 0 (yinFrame.getD 0 0 < yinFrame.getD 1 0)
    (List.range yinFrame.length).filter (isTrough.getD · false)

/-- The column of `trough_prior` for a threshold, with `boltzmann.pmf` at the Boltzmann parameter. Without troughs below
the threshold the pmf is undefined; its value is then overwritten everywhere. -/
def troughPrior (pmf : Int → Nat → K) (troughHeights : List K) (threshold : K) : List K :=
  let troughThresholds := troughHeights.map fun height => decide (height < threshold)
  let troughPositions := (Numpy.cumsum (troughThresholds.map fun b => if b then 1 else 0)).map (· - 1)
  let nTroughs := troughThresholds.count true
  let prior := troughPositions.map fun position => pmf position nTroughs
  List.zipWith (fun below p => if below then p else 0) troughThresholds prior

/-- `trough_prior.dot(beta_probs)`; arrays of different lengths raise. -/
def dot (prior : List (List K)) (betaProbs : List K) (nTroughs : Nat) : Option (List K) :=
  if prior.length = betaProbs.length then
    some ((List.range nTroughs).map fun i => (List.zipWith (fun column b => column.getD i 0 * b) prior betaProbs).sum)
  else none

/-- `probs` of the troughs of a frame. -/
def troughProbs (pmf : Int → Nat → K) (troughHeights thresholds betaProbs : List K) (noTroughProb : K) :
    Option (List K) :=
  let prior := thresholds.tail.map (troughPrior pmf troughHeights)
  (dot prior betaProbs troughHeights.length).bind fun probs =>
    (Numpy.argmin troughHeights).map fun globalMin =>
      let nBelow := (thresholds.tail.map fun t => decide (troughHeights.getD globalMin 0 < t)).count false
      probs.set globalMin (probs.getD globalMin 0 + noTroughProb * (betaProbs.take nBelow).sum)

/-- A pass of the loop over the frames: the column of `yin_probs`. -/
def frameProbs (pmf : Int → Nat → K) (thresholds betaProbs : List K) (noTroughProb : K) (yinFrame : List K) :
    Option (List K) :=
  (troughIndex yinFrame).bind fun index =>
    let yinProbs := List.replicate yinFrame.length 0
    if index.length = 0 then some yinProbs
    else
      (troughProbs pmf (index.map (yinFrame.getD · 0)) thresholds betaProbs noTroughProb).map
        (Numpy.scatter yinProbs index)

/-- `yin_trough_probs(yin_frames, thresholds, beta_probs, boltzmann_parameter, no_trough_prob)`. -/
def yinTroughProbs (boltzmannPmf : Int → K → Nat → K) (yinFrames : List (List K)) (thresholds betaProbs : List K)
    (boltzmannParameter noTroughProb : K) : Option (List (List K)) :=
  yinFrames.mapM (frameProbs (boltzmannPmf · boltzmannParameter) thresholds betaProbs noTroughProb)

/-! ## The prior -/

/-- A pmf on the positions of `n` troughs, for every positive `n`. -/
structure TruncatedPmf (pmf : Int → Nat → K) : Prop where
  nonneg : ∀ (n k : Nat), k < n → 0 ≤ pmf k n
  sum : ∀ n : Nat, 0 < n → ∑ k ∈ Finset.range n, pmf k n = 1

variable {pmf : Int → Nat → K} {heights thresholds betaProbs : List K} {noTroughProb : K}

theorem troughPrior_eq (pmf : Int → Nat → K) (heights : List K) (t : K) :
    troughPrior pmf heights t =
      List.zipWith (fun below k => if below then pmf k ((heights.map fun h => decide (h < t)).count true) else 0)
        (heights.map fun h => decide (h < t)) (Numpy.numbers (heights.map fun h => decide (h < t))) := by
  unfold troughPrior
  dsimp only
  rw [List.zipWith_map_right]
  rfl

theorem length_troughPrior (pmf : Int → Nat → K) (heights : List K) (t : K) :
    (troughPrior pmf heights t).length = heights.length := by
  rw [troughPrior_eq, List.length_zipWith, Numpy.length_numbers, List.length_map, Nat.min_self]

/-- **A threshold** spreads all of its probability, if a trough is below it. -/
theorem sum_troughPrior (hpmf : TruncatedPmf pmf) (heights : List K) (t : K) :
    (troughPrior pmf heights t).sum = if ∃ h ∈ heights, h < t then 1 else 0 := by
  rw [troughPrior_eq, Numpy.sum_numbered]
  have hcount : 0 < (heights.map fun h => decide (h < t)).count true ↔ ∃ h ∈ heights, h < t := by
    rw [List.count_pos_iff, List.mem_map]
    simp only [decide_eq_true_eq]
  split
  · exact hpmf.sum _ (hcount.2 ‹_›)
  · rw [Nat.eq_zero_of_not_pos fun hpos => ‹¬_› (hcount.1 hpos)]
    rfl

theorem troughPrior_nonneg (hpmf : TruncatedPmf pmf) {heights : List K} {t : K} :
    ∀ x ∈ troughPrior pmf heights t, 0 ≤ x := by
  intro x hx
  rw [troughPrior_eq] at hx
  obtain ⟨i, below, k, hbelow, hk, rfl⟩ := Numpy.exists_of_mem_zipWith hx
  cases below with
  | false => exact le_rfl
  | true =>
    obtain ⟨n, hn, hnumber⟩ := Numpy.number_lt hbelow
    obtain rfl := Option.some.inj (hnumber.symm.trans hk)
    exact hpmf.nonneg _ _ hn

/-! ## The sum over the troughs -/

omit [LinearOrder K] in
/-- The sum over rows and columns. -/
theorem sum_dot {prior : List (List K)} {n : Nat} (hlen : ∀ column ∈ prior, column.length = n) (betaProbs : List K) :
    ((List.range n).map fun i => (List.zipWith (fun column b => column.getD i 0 * b) prior betaProbs).sum).sum =
      (List.zipWith (fun column b => column.sum * b) prior betaProbs).sum := by
  induction prior generalizing betaProbs with
  | nil => simp
  | cons column prior ih =>
    cases betaProbs with
    | nil => simp
    | cons b betaProbs =>
      obtain ⟨rfl, hrest⟩ := List.forall_mem_cons.1 hlen
      have hcolumn : (List.range column.length).map (column.getD · 0) = column := by
        refine List.ext_getElem (by simp) fun i hi hi' => ?_
        rw [List.getElem_map, List.getElem_range, List.getD_eq_getElem _ _ hi']
      simp only [List.zipWith_cons_cons, List.sum_cons, List.sum_map_add, ih hrest, List.sum_map_mul_right, hcolumn]

/-- The probability of the thresholds above the lowest trough. -/
def massAbove (low : K) (thresholds betaProbs : List K) : K :=
  (List.zipWith (fun t b => if low < t then b else 0) thresholds betaProbs).sum

/-- The thresholds that are not above the lowest trough come first. -/
theorem massAbove_add_take (low : K) {ts : List K} (hsorted : ts.Pairwise (· ≤ ·)) {bs : List K}
    (hlen : ts.length = bs.length) :
    massAbove low ts bs + (bs.take ((ts.map fun t => decide (low < t)).count false)).sum = bs.sum := by
  induction ts generalizing bs with
  | nil =>
    rw [List.length_eq_zero_iff.1 hlen.symm]
    simp [massAbove]
  | cons t ts ih =>
    cases bs with
    | nil => cases hlen
    | cons b bs =>
      obtain ⟨ht, hts⟩ := List.pairwise_cons.1 hsorted
      have hrest := ih hts (Nat.succ.inj hlen)
      unfold massAbove at hrest ⊢
      rw [List.zipWith_cons_cons, List.sum_cons, List.sum_cons, List.map_cons]
      by_cases hlow : low < t
      · have hnone : (ts.map fun t => decide (low < t)).count false = 0 := by
          rw [List.count_eq_zero, List.mem_map]
          rintro ⟨t', ht', hfalse⟩
          exact of_decide_eq_false hfalse (hlow.trans_le (ht t' ht'))
        rw [hnone] at hrest
        rw [if_pos hlow, decide_eq_true hlow, List.count_cons_of_ne (by decide), hnone, List.take_zero, List.sum_nil,
          add_zero, ← hrest, List.take_zero, List.sum_nil, add_zero]
      · rw [if_neg hlow, decide_eq_false hlow, List.count_cons_self, List.take_succ_cons, List.sum_cons, zero_add,
          ← hrest, add_left_comm]

/-! ## The troughs of a frame -/

theorem sum_zipWith_prior (hpmf : TruncatedPmf pmf) {low : K} (hlow : low ∈ heights) (hmin : ∀ h ∈ heights, low ≤ h)
    (ts bs : List K) :
    (List.zipWith (fun column b => column.sum * b) (ts.map (troughPrior pmf heights)) bs).sum = massAbove low ts bs := by
  rw [List.zipWith_map_left, massAbove]
  congr 2
  funext t b
  have hbelow : (∃ h ∈ heights, h < t) ↔ low < t :=
    ⟨fun ⟨h, hh, ht⟩ => (hmin h hh).trans_lt ht, fun ht => ⟨low, hlow, ht⟩⟩
  rw [sum_troughPrior hpmf, if_congr hbelow rfl rfl, ite_mul, one_mul, zero_mul]

/-- `probs` exists if there is a trough and every threshold has a probability. -/
theorem exists_troughProbs (hheights : heights ≠ []) (hlen : thresholds.tail.length = betaProbs.length) :
    ∃ probs, troughProbs pmf heights thresholds betaProbs noTroughProb = some probs := by
  obtain ⟨globalMin, hmin⟩ := Numpy.exists_argmin heights hheights
  unfold troughProbs dot
  dsimp only
  rw [if_pos (by rw [List.length_map, hlen]), Option.bind_some, hmin, Option.map_some]
  exact ⟨_, rfl⟩

theorem troughIndex_spec {yinFrame : List K} {index : List Nat} (h : troughIndex yinFrame = some index) :
    index.Nodup ∧ ∀ i ∈ index, i < yinFrame.length := by
  obtain ⟨isTrough, -, rfl⟩ := Option.map_eq_some_iff.1 h
  exact ⟨List.nodup_range.filter _, fun i hi => List.mem_range.1 (List.mem_of_mem_filter hi)⟩

theorem exists_frameProbs (hlen : thresholds.tail.length = betaProbs.length) {yinFrame : List K}
    (hframe : 2 ≤ yinFrame.length) : ∃ probs, frameProbs pmf thresholds betaProbs noTroughProb yinFrame = some probs := by
  obtain ⟨index, hindex⟩ : ∃ index, troughIndex yinFrame = some index := by
    unfold troughIndex localmin1d
    rw [if_neg (Nat.not_lt.2 hframe)]
    exact ⟨_, rfl⟩
  rw [frameProbs, hindex, Option.bind_some]
  dsimp only
  split
  · exact ⟨_, rfl⟩
  · rename_i hsome
    have hheights : index.map (yinFrame.getD · 0) ≠ [] := by
      rw [ne_eq, List.map_eq_nil_iff]
      exact fun hnil => hsome (congrArg List.length hnil)
    obtain ⟨probs, hprobs⟩ := exists_troughProbs hheights hlen
    rw [hprobs, Option.map_some]
    exact ⟨_, rfl⟩

/-- What `probs` gives to the troughs of a frame. -/
structure TroughMass (heights thresholds betaProbs : List K) (noTroughProb : K) (probs : List K) : Prop where
  length : probs.length = heights.length
  nonneg : ∀ x ∈ probs, 0 ≤ x
  sum : ∀ low ∈ heights, (∀ h ∈ heights, low ≤ h) → probs.sum =
    massAbove low thresholds.tail betaProbs + noTroughProb * (betaProbs.sum - massAbove low thresholds.tail betaProbs)

theorem getD_nonneg {xs : List K} (h : ∀ x ∈ xs, 0 ≤ x) (i : Nat) : 0 ≤ xs.getD i 0 := by
  rcases Nat.lt_or_ge i xs.length with hi | hi
  · rw [List.getD_eq_getElem _ _ hi]
    exact h _ (List.getElem_mem hi)
  · rw [List.getD_eq_default _ _ hi]

variable [IsStrictOrderedRing K]

theorem massAbove_le (low : K) (ts : List K) {bs : List K} (hbs : ∀ b ∈ bs, 0 ≤ b) : massAbove low ts bs ≤ bs.sum := by
  induction ts generalizing bs with
  | nil => exact List.sum_nonneg hbs
  | cons t ts ih =>
    cases bs with
    | nil => exact le_rfl
    | cons b bs =>
      obtain ⟨hb, hrest⟩ := List.forall_mem_cons.1 hbs
      have hhead : (if low < t then b else 0) ≤ b := by
        split
        · exact le_rfl
        · exact hb
      exact add_le_add hhead (ih hrest)

/-- A product of a prior and probabilities. -/
theorem zipWith_prior_nonneg (hpmf : TruncatedPmf pmf) (hbeta : ∀ b ∈ betaProbs, 0 ≤ b) (ts : List K) (i : Nat) :
    0 ≤ (List.zipWith (fun column b => column.getD i 0 * b) (ts.map (troughPrior pmf heights)) betaProbs).sum := by
  refine List.sum_nonneg fun x hx => ?_
  rw [List.zipWith_map_left] at hx
  obtain ⟨j, t, b, -, hb, rfl⟩ := Numpy.exists_of_mem_zipWith hx
  exact mul_nonneg (getD_nonneg (troughPrior_nonneg hpmf) i) (hbeta b (List.mem_of_getElem? hb))

/-- **`probs`** gives the thresholds above the lowest trough to the troughs, and a part of the rest to the lowest. -/
theorem troughProbs_mass (hpmf : TruncatedPmf pmf) (hthr : thresholds.Pairwise (· ≤ ·)) (hbeta : ∀ b ∈ betaProbs, 0 ≤ b)
    (hno : 0 ≤ noTroughProb) {probs : List K}
    (h : troughProbs pmf heights thresholds betaProbs noTroughProb = some probs) :
    TroughMass heights thresholds betaProbs noTroughProb probs := by
  unfold troughProbs dot at h
  dsimp only at h
  split at h
  case isFalse => cases h
  case isTrue hlen =>
    rw [Option.bind_some] at h
    obtain ⟨globalMin, hargmin, rfl⟩ := Option.map_eq_some_iff.1 h
    obtain ⟨v, hv, hmin⟩ := Numpy.argmin_spec hargmin
    have hlt := Numpy.argmin_lt hargmin
    have hget : heights.getD globalMin 0 = v := by rw [List.getD_eq_getElem?_getD, hv, Option.getD_some]
    rw [List.length_map] at hlen
    rw [hget]
    generalize hprobs : ((List.range heights.length).map fun i => (List.zipWith (fun column b => column.getD i 0 * b)
      (thresholds.tail.map (troughPrior pmf heights)) betaProbs).sum) = probs
    have hplen : probs.length = heights.length := by rw [← hprobs, List.length_map, List.length_range]
    have hpnonneg : ∀ x ∈ probs, 0 ≤ x := by
      intro x hx
      rw [← hprobs] at hx
      obtain ⟨i, -, rfl⟩ := List.mem_map.1 hx
      exact zipWith_prior_nonneg hpmf hbeta _ i
    refine ⟨by rw [List.length_set, hplen], fun x hx => ?_, fun low hlow hleast => ?_⟩
    · rcases List.mem_or_eq_of_mem_set hx with hx | rfl
      · exact hpnonneg x hx
      · exact add_nonneg (getD_nonneg hpnonneg _)
          (mul_nonneg hno (List.sum_nonneg fun b hb => hbeta b (List.mem_of_mem_take hb)))
    · obtain rfl : low = v := le_antisymm (hleast v (List.mem_of_getElem? hv)) (hmin low hlow)
      have hsum : probs.sum = massAbove low thresholds.tail betaProbs := by
        rw [← hprobs, sum_dot (fun column hcolumn => ?_), sum_zipWith_prior hpmf hlow hleast]
        obtain ⟨t, -, rfl⟩ := List.mem_map.1 hcolumn
        exact length_troughPrior pmf heights t
      have hprefix := massAbove_add_take low hthr.tail hlen
      rw [List.sum_set', dif_pos (by rwa [hplen]), List.getD_eq_getElem _ _ (by rwa [hplen]), neg_add_cancel_left, hsum,
        ← hprefix, add_sub_cancel_left]

/-! ## The frames -/

/-- The probabilities of a frame: what the thresholds above the lowest trough have, and a part of the rest. -/
structure FrameMass (thresholds betaProbs : List K) (noTroughProb : K) (yinFrame probs : List K) : Prop where
  nonneg : ∀ x ∈ probs, 0 ≤ x
  sum : ∀ index, troughIndex yinFrame = some index → ∀ low ∈ index.map (yinFrame.getD · 0),
    (∀ h ∈ index.map (yinFrame.getD · 0), low ≤ h) → probs.sum =
      massAbove low thresholds.tail betaProbs + noTroughProb * (1 - massAbove low thresholds.tail betaProbs)
  noTrough : troughIndex yinFrame = some [] → ∀ x ∈ probs, x = 0
  le_one : probs.sum ≤ 1

theorem frameProbs_mass (hpmf : TruncatedPmf pmf) (hthr : thresholds.Pairwise (· ≤ ·)) (hbeta : ∀ b ∈ betaProbs, 0 ≤ b)
    (hsum : betaProbs.sum = 1) (hno : 0 ≤ noTroughProb) (hno' : noTroughProb ≤ 1) {yinFrame probs : List K}
    (h : frameProbs pmf thresholds betaProbs noTroughProb yinFrame = some probs) :
    FrameMass thresholds betaProbs noTroughProb yinFrame probs := by
  obtain ⟨index, hindex, h⟩ := Option.bind_eq_some_iff.1 h
  obtain ⟨hnodup, hlt⟩ := troughIndex_spec hindex
  dsimp only at h
  split at h
  case isTrue hnone =>
    obtain rfl := List.length_eq_zero_iff.1 hnone
    cases h
    refine ⟨fun x hx => ?_, fun index' hindex' low hlow => ?_, fun _ x hx => List.eq_of_mem_replicate hx, ?_⟩
    · rw [List.eq_of_mem_replicate hx]
    · obtain rfl := Option.some.inj (hindex.symm.trans hindex')
      cases hlow
    · rw [List.sum_replicate, nsmul_zero]
      exact zero_le_one
  case isFalse hsome =>
    obtain ⟨troughs, htroughs, rfl⟩ := Option.map_eq_some_iff.1 h
    obtain ⟨hlen, hnonneg, hmass⟩ := troughProbs_mass hpmf hthr hbeta hno htroughs
    rw [List.length_map] at hlen
    have hzero : ∀ i ∈ index, (List.replicate yinFrame.length (0 : K))[i]? = some 0 := by
      intro i hi
      rw [List.getElem?_replicate, if_pos (hlt i hi)]
    have htotal : (Numpy.scatter (List.replicate yinFrame.length 0) index troughs).sum = troughs.sum := by
      rw [Numpy.sum_scatter hlen.symm hnodup hzero, List.sum_replicate, nsmul_zero, zero_add]
    rw [hsum] at hmass
    refine ⟨fun x hx => ?_, fun index' hindex' low hlow hleast => ?_, fun hindex' => ?_, ?_⟩
    · rcases Numpy.mem_scatter hx with hx | hx
      · rw [List.eq_of_mem_replicate hx]
      · exact hnonneg x hx
    · obtain rfl := Option.some.inj (hindex.symm.trans hindex')
      rw [htotal, hmass low hlow hleast]
    · obtain rfl := Option.some.inj (hindex.symm.trans hindex')
      exact absurd rfl hsome
    · -- the lowest trough exists, and the thresholds above it have at most the probability 1
      have hheights : index.map (yinFrame.getD · 0) ≠ [] := by
        rw [ne_eq, List.map_eq_nil_iff]
        exact fun hnil => hsome (congrArg List.length hnil)
      obtain ⟨globalMin, hmin⟩ := Numpy.exists_argmin _ hheights
      obtain ⟨low, hlow, hleast⟩ := Numpy.argmin_spec hmin
      have hle := massAbove_le low thresholds.tail hbeta
      rw [hsum] at hle
      rw [htotal, hmass low (List.mem_of_getElem? hlow) hleast]
      have hpart := mul_le_mul_of_nonneg_right hno' (sub_nonneg.2 hle)
      linarith

/-! ## The matrix -/

/-- **`yin_trough_probs` conserves probability**: in every frame the thresholds above the lowest trough give what they
have, and those below it the part `no_trough_prob`. -/
theorem yinTroughProbs_mass {boltzmannPmf : Int → K → Nat → K} {boltzmannParameter : K} (yinFrames : List (List K))
    (hpmf : TruncatedPmf (boltzmannPmf · boltzmannParameter)) (hthr : thresholds.Pairwise (· ≤ ·))
    (hbeta : ∀ b ∈ betaProbs, 0 ≤ b) (hsum : betaProbs.sum = 1) (hno : 0 ≤ noTroughProb) (hno' : noTroughProb ≤ 1) :
    ((∀ frame ∈ yinFrames, 2 ≤ frame.length) → thresholds.tail.length = betaProbs.length →
      ∃ out, yinTroughProbs boltzmannPmf yinFrames thresholds betaProbs boltzmannParameter noTroughProb = some out) ∧
    ∀ out, yinTroughProbs boltzmannPmf yinFrames thresholds betaProbs boltzmannParameter noTroughProb = some out →
      List.Forall₂ (FrameMass thresholds betaProbs noTroughProb) yinFrames out := by
  constructor
  · intro hframes hlen
    exact exists_mapM fun frame hframe => exists_frameProbs hlen (hframes frame hframe)
  · intro out hout
    refine (forall₂_of_mapM hout).imp fun frame probs hprobs => ?_
    exact frameProbs_mass hpmf hthr hbeta hsum hno hno' hprobs

/-! ## scipy's pmf -/

/-- `scipy.stats.boltzmann.pmf(k, lambda_, N)`. -/
noncomputable def boltzmannPmf (k : Int) (lam : ℝ) (n : Nat) : ℝ :=
  if 0 ≤ k ∧ k < n then (1 - Real.exp (-lam)) / (1 - Real.exp (-lam * n)) * Real.exp (-lam * k) else 0

theorem truncatedPmf_boltzmann {lam : ℝ} (hlam : 0 < lam) : TruncatedPmf (boltzmannPmf · lam) := by
  have hlt : Real.exp (-lam) < 1 := Real.exp_lt_one_iff.2 (neg_lt_zero.2 hlam)
  have hpow : ∀ n : Nat, Real.exp (-lam * n) = Real.exp (-lam) ^ n := fun n => by rw [mul_comm, Real.exp_nat_mul]
  have hterm : ∀ n k : Nat, k < n → boltzmannPmf k lam n =
      (1 - Real.exp (-lam)) / (1 - Real.exp (-lam) ^ n) * Real.exp (-lam) ^ k := by
    intro n k hk
    rw [boltzmannPmf, if_pos (by omega), hpow, Int.cast_natCast, hpow]
  have hone : ∀ n : Nat, 0 < n → 0 < 1 - Real.exp (-lam) ^ n := fun n hn =>
    sub_pos.2 (pow_lt_one₀ (Real.exp_pos _).le hlt hn.ne')
  constructor
  · intro n k hk
    rw [hterm n k hk]
    have hn := hone n (Nat.zero_lt_of_lt hk)
    exact mul_nonneg (div_nonneg (sub_pos.2 hlt).le hn.le) (pow_nonneg (Real.exp_pos _).le k)
  · intro n hn
    rw [Finset.sum_congr rfl fun k hk => hterm n k (Finset.mem_range.1 hk), ← Finset.mul_sum, div_mul_eq_mul_div,
      mul_neg_geom_sum, div_self (hone n hn).ne']

/-- Two frames under two thresholds; the second one has no trough. -/
theorem yinTroughProbs_mass_two :
    ((∀ frame ∈ [[3, 1, 2], [1, 1, (1 : ℝ)]], 2 ≤ frame.length) →
      [0, 2, (4 : ℝ)].tail.length = [1 / 4, (3 / 4 : ℝ)].length →
      ∃ out, yinTroughProbs boltzmannPmf [[3, 1, 2], [1, 1, 1]] [0, 2, 4] [1 / 4, 3 / 4] 2 (1 / 100) = some out) ∧
    ∀ out, yinTroughProbs boltzmannPmf [[3, 1, 2], [1, 1, 1]] [0, 2, 4] [1 / 4, 3 / 4] 2 (1 / 100) = some out →
      List.Forall₂ (FrameMass [0, 2, 4] [1 / 4, 3 / 4] (1 / 100)) [[3, 1, 2], [1, 1, 1]] out :=
  yinTroughProbs_mass _ (truncatedPmf_boltzmann two_pos) (by norm_num) (by norm_num) (by norm_num) (by norm_num)
    (by norm_num)

end Bajiru.DataAugment
