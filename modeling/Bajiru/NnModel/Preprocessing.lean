import Bajiru.SoftKnee
import Mathlib.Analysis.SpecialFunctions.Log.Base
import Mathlib.Analysis.SpecialFunctions.Pow.Continuity

/-!
# `preprocessing.py`

`MelCompressor`: a gain for the level of each mel frame, smoothed over the frames. The level is meant to be the sum of
the energies, but `_target_level` adds up their distances to 1, so a frame of `n` bins counts as `n - 1` less than its
energy (`targetLevel_eq`). Its gain is that of the soft knee exactly if that makes no difference: one bin, no
compression, or levels below the knee (`targetLevel_iff`). The smoothed gains stay in (0, 1] all the same
(`outLevels_mem`). Numbers are real.
-/

namespace Bajiru.NnModel

/-- The fields of a `MelCompressor`. -/
structure MelCompressor where
  threshold : ℝ
  ratio : ℝ
  halfKnee : ℝ
  eps : ℝ
  attackCoef : ℝ
  releaseCoef : ℝ
  makeup : ℝ

namespace MelCompressor

open Real

/-- `_calc_coef(tau)`. -/
noncomputable def calcCoef (tau : ℝ) : ℝ := exp (-1 / max 1e-6 tau)

/-- `_db_to_linear(x)`. -/
noncomputable def dbToLinear (x : ℝ) : ℝ := (10 : ℝ) ^ (x / 10)

/-- `MelCompressor(threshold, ratio, knee, attack_frames, release_frames, makeup, eps)`. -/
noncomputable def init (threshold ratio knee attackFrames releaseFrames makeup eps : ℝ) : MelCompressor :=
  { threshold := threshold
    ratio := ratio
    halfKnee := knee / 2
    eps := eps
    attackCoef := calcCoef attackFrames
    releaseCoef := calcCoef releaseFrames
    makeup := dbToLinear makeup }

/-- `_linear_to_db(x)`. -/
noncomputable def linearToDb (c : MelCompressor) (x : ℝ) : ℝ := 10 * logb 10 (max x c.eps)

/-- `_target_level(level)` of one frame. -/
noncomputable def targetLevel (c : MelCompressor) (level : List ℝ) : ℝ :=
  let level := 1 + (level.map (· - 1)).sum
  let level := c.linearToDb level
  let overThr := level - c.threshold
  let coef := 1 / c.ratio - 1
  let out := 0
  let out := if c.halfKnee ≤ overThr then overThr * coef else out
  let oMid := overThr + c.halfKnee
  let out := if ¬(overThr ≤ -c.halfKnee ∨ c.halfKnee ≤ overThr) then coef * (oMid * oMid) / (4 * c.halfKnee) else out
  dbToLinear out

/-- `torch.lerp(start, end, weight)`. -/
def lerp (start stop weight : ℝ) : ℝ := start + weight * (stop - start)

/-- A pass of the loop of `forward`, for one batch. -/
noncomputable def smooth (c : MelCompressor) (lvl tgt : ℝ) : ℝ :=
  let coef := if tgt < lvl then c.attackCoef else c.releaseCoef
  lerp tgt lvl coef

/-- `out_lvls`, from the level `lvl` on. -/
noncomputable def outLevels (c : MelCompressor) (lvl : ℝ) : List ℝ → List ℝ
  | [] => []
  | tgt :: tgtLvl => c.smooth lvl tgt :: outLevels c (c.smooth lvl tgt) tgtLvl

/-- `_apply_level(inp, lvl)` of one frame. -/
def applyLevel (c : MelCompressor) (inp : List ℝ) (lvl : ℝ) : List ℝ := inp.map (· * lvl * c.makeup)

/-- `forward(x)` for the frames of one batch. -/
noncomputable def forward (c : MelCompressor) (x : List (List ℝ)) : List (List ℝ) :=
  List.zipWith c.applyLevel x (c.outLevels 1 (x.map c.targetLevel))

/-! ## The static curve -/

/-- The gain in dB of a soft knee, `x` dB over the threshold. -/
noncomputable def gain (ratio knee x : ℝ) : ℝ :=
  if x ≤ -knee / 2 then 0
  else if x < knee / 2 then (1 / ratio - 1) * (x + knee / 2) ^ 2 / (2 * knee)
  else (1 / ratio - 1) * x

/-- The target gain for the energy of a frame. -/
noncomputable def staticCurve (threshold ratio knee eps energy : ℝ) : ℝ :=
  (10 : ℝ) ^ (gain ratio knee (10 * logb 10 (max eps energy) - threshold) / 10)

variable {threshold ratio knee attackFrames releaseFrames makeup eps : ℝ}

theorem gain_eq (hknee : 0 < knee) (x : ℝ) : gain ratio knee x = (1 / ratio - 1) * SoftKnee.knee (knee / 2) x := by
  have hhalf : 0 < knee / 2 := by linarith
  unfold gain
  split
  next hlow => rw [SoftKnee.knee_below hhalf (by linarith), mul_zero]
  next hlow =>
    split
    next hmid =>
      rw [SoftKnee.knee_mid (by linarith) hmid.le]
      ring
    next hhigh => rw [SoftKnee.knee_above hhalf (not_lt.1 hhigh)]

/-- What the code adds up. -/
theorem sum_sub_one (frame : List ℝ) : 1 + (frame.map (· - 1)).sum = frame.sum + 1 - frame.length := by
  induction frame with
  | nil => simp
  | cons e frame ih =>
    simp only [List.map_cons, List.sum_cons, List.length_cons, Nat.cast_add, Nat.cast_one]
    linarith

/-- The three regions, in the order of the code. -/
theorem out_eq (hknee : 0 < knee) (x : ℝ) :
    (if ¬(x ≤ -(knee / 2) ∨ knee / 2 ≤ x) then (1 / ratio - 1) * ((x + knee / 2) * (x + knee / 2)) / (4 * (knee / 2))
      else if knee / 2 ≤ x then x * (1 / ratio - 1) else 0) = gain ratio knee x := by
  unfold gain
  by_cases hlow : x ≤ -knee / 2
  · have hhigh : ¬knee / 2 ≤ x := by linarith
    rw [if_pos hlow, if_neg (not_not.2 (Or.inl (by linarith))), if_neg hhigh]
  · by_cases hhigh : knee / 2 ≤ x
    · rw [if_neg hlow, if_neg (not_not.2 (Or.inr hhigh)), if_pos hhigh, if_neg hhigh.not_gt]
      ring
    · rw [if_neg hlow, if_pos (not_or.2 ⟨by rwa [← neg_div], hhigh⟩), if_pos (not_le.1 hhigh)]
      ring

/-- **`_target_level`** is the static curve at the energy less one for each further bin. -/
theorem targetLevel_eq (hknee : 0 < knee) (frame : List ℝ) :
    (init threshold ratio knee attackFrames releaseFrames makeup eps).targetLevel frame =
      staticCurve threshold ratio knee eps (frame.sum + 1 - frame.length) := by
  rw [staticCurve, ← sum_sub_one, max_comm eps, ← out_eq hknee]
  rfl

/-! ## Where the aggregation matters -/

theorem rpow_inj {x y : ℝ} : (10 : ℝ) ^ (x / 10) = 10 ^ (y / 10) ↔ x = y := by
  rw [Real.rpow_right_inj (by norm_num) (by norm_num)]
  exact div_left_inj' (by norm_num)

/-- The level below which there is no compression. -/
noncomputable def kneeStart (threshold knee : ℝ) : ℝ := (10 : ℝ) ^ ((threshold - knee / 2) / 10)

theorem level_le_iff {energy : ℝ} (heps : 0 < eps) :
    10 * logb 10 (max eps energy) - threshold ≤ -(knee / 2) ↔ max eps energy ≤ kneeStart threshold knee := by
  rw [kneeStart, ← Real.logb_le_iff_le_rpow (by norm_num) (heps.trans_le (le_max_left _ _)), le_div_iff₀ (by norm_num)]
  constructor <;> intro h <;> linarith

/-- Equal after the clamp, or both below `k`. -/
theorem clamp_iff {e k x y : ℝ} :
    (max e x = max e y ∨ (max e x ≤ k ∧ max e y ≤ k)) ↔ x = y ∨ max x y ≤ max e k := by
  constructor
  · rintro (heq | ⟨hx, hy⟩)
    · rcases le_or_gt (max x y) e with hle | hlt
      · exact .inr (hle.trans (le_max_left _ _))
      · rcases le_total x y with hxy | hxy
        · rw [max_eq_right hxy] at hlt
          rw [max_eq_right hlt.le] at heq
          exact .inl ((max_choice e x).elim (fun h => by linarith) fun h => h ▸ heq)
        · rw [max_eq_left hxy] at hlt
          rw [max_eq_right hlt.le] at heq
          exact .inl ((max_choice e y).elim (fun h => by linarith) fun h => heq.trans h)
    · refine .inr (max_le ?_ ?_)
      · exact ((le_max_right _ _).trans hx).trans (le_max_right _ _)
      · exact ((le_max_right _ _).trans hy).trans (le_max_right _ _)
  · rintro (rfl | hle)
    · exact .inl rfl
    · obtain ⟨hx, hy⟩ := max_le_iff.1 hle
      rcases le_total e k with h | h
      · rw [max_eq_right h] at hx hy
        exact .inr ⟨max_le h hx, max_le h hy⟩
      · rw [max_eq_left h] at hx hy
        exact .inl (by rw [max_eq_left hx, max_eq_left hy])

/-- **Two energies have the same gain** if nothing is compressed, or both lie below the clamp or the knee. -/
theorem staticCurve_eq_iff (hknee : 0 < knee) (heps : 0 < eps) {x y : ℝ} :
    staticCurve threshold ratio knee eps x = staticCurve threshold ratio knee eps y ↔
      x = y ∨ ratio = 1 ∨ max x y ≤ max eps (kneeStart threshold knee) := by
  have hpos : ∀ z, 0 < max eps z := fun z => heps.trans_le (le_max_left _ _)
  have hcoef : 1 / ratio - 1 = 0 ↔ ratio = 1 := by
    rw [sub_eq_zero, one_div, inv_eq_one]
  have hlevel : 10 * logb 10 (max eps x) - threshold = 10 * logb 10 (max eps y) - threshold ↔
      max eps x = max eps y := by
    rw [sub_left_inj, mul_right_inj' (by norm_num)]
    exact (Real.logb_injOn_pos (by norm_num)).eq_iff (hpos x) (hpos y)
  unfold staticCurve
  rw [rpow_inj, gain_eq hknee, gain_eq hknee, mul_eq_mul_left_iff, hcoef, SoftKnee.knee_inj (by linarith), hlevel,
    level_le_iff heps, level_le_iff heps, clamp_iff]
  tauto

/-! ## The curve and the smoothed gains -/

theorem coef_nonpos (hratio : 1 ≤ ratio) : 1 / ratio - 1 ≤ 0 :=
  sub_nonpos.2 ((div_le_one (by linarith)).2 hratio)

theorem continuous_staticCurve (hknee : 0 < knee) (heps : 0 < eps) :
    Continuous (staticCurve threshold ratio knee eps) := by
  have hlog : Continuous fun energy : ℝ => logb 10 (max eps energy) :=
    (Continuous.log (by fun_prop) fun energy => (heps.trans_le (le_max_left _ _)).ne').div_const _
  have hgain : Continuous (gain ratio knee) := by
    rw [funext (gain_eq hknee)]
    exact (SoftKnee.continuous_knee _).const_mul _
  exact (Real.continuous_const_rpow (by norm_num)).comp
    ((hgain.comp ((hlog.const_mul 10).sub continuous_const)).div_const 10)

theorem antitone_staticCurve (hratio : 1 ≤ ratio) (hknee : 0 < knee) (heps : 0 < eps) :
    Antitone (staticCurve threshold ratio knee eps) := by
  intro x y hxy
  have hlog : logb 10 (max eps x) ≤ logb 10 (max eps y) :=
    Real.logb_le_logb_of_le (by norm_num) (heps.trans_le (le_max_left _ _)) (max_le_max_left _ hxy)
  have hgain : gain ratio knee (10 * logb 10 (max eps y) - threshold) ≤
      gain ratio knee (10 * logb 10 (max eps x) - threshold) := by
    rw [gain_eq hknee, gain_eq hknee]
    exact mul_le_mul_of_nonpos_left (SoftKnee.monotone_knee (by linarith) (by linarith)) (coef_nonpos hratio)
  exact Real.rpow_le_rpow_of_exponent_le (by norm_num) (by linarith)

theorem staticCurve_pos (energy : ℝ) : 0 < staticCurve threshold ratio knee eps energy :=
  Real.rpow_pos_of_pos (by norm_num) _

theorem staticCurve_le_one (hratio : 1 ≤ ratio) (hknee : 0 < knee) (energy : ℝ) :
    staticCurve threshold ratio knee eps energy ≤ 1 := by
  refine Real.rpow_le_one_of_one_le_of_nonpos (by norm_num) ?_
  rw [gain_eq hknee]
  have := mul_nonneg_of_nonpos_of_nonpos (coef_nonpos hratio)
    (neg_nonpos.2 (SoftKnee.knee_nonneg (show 0 < knee / 2 by linarith) (10 * logb 10 (max eps energy) - threshold)))
  linarith

theorem calcCoef_mem (tau : ℝ) : 0 < calcCoef tau ∧ calcCoef tau < 1 := by
  have hpos : 0 < max 1e-6 tau := lt_of_lt_of_le (by norm_num) (le_max_left _ _)
  exact ⟨Real.exp_pos _, Real.exp_lt_one_iff.2 (div_neg_of_neg_of_pos (by norm_num) hpos)⟩

/-- A mean of two gains. -/
theorem lerp_mem {tgt lvl coef : ℝ} (hcoef : 0 < coef ∧ coef < 1) (htgt : 0 < tgt ∧ tgt ≤ 1)
    (hlvl : 0 < lvl ∧ lvl ≤ 1) :
    0 < lerp tgt lvl coef ∧ lerp tgt lvl coef ≤ 1 := by
  have hmean : lerp tgt lvl coef = (1 - coef) * tgt + coef * lvl := by
    unfold lerp
    ring
  have hrest : 0 < 1 - coef := by linarith
  rw [hmean]
  constructor
  · exact add_pos (mul_pos hrest htgt.1) (mul_pos hcoef.1 hlvl.1)
  · have htgt' := mul_le_mul_of_nonneg_left htgt.2 hrest.le
    have hlvl' := mul_le_mul_of_nonneg_left hlvl.2 hcoef.1.le
    linarith

/-- A compressor whose coefficients are means. -/
theorem smooth_mem {c : MelCompressor} (hattack : 0 < c.attackCoef ∧ c.attackCoef < 1)
    (hrelease : 0 < c.releaseCoef ∧ c.releaseCoef < 1) {lvl tgt : ℝ} (hlvl : 0 < lvl ∧ lvl ≤ 1)
    (htgt : 0 < tgt ∧ tgt ≤ 1) : 0 < c.smooth lvl tgt ∧ c.smooth lvl tgt ≤ 1 := by
  unfold smooth
  dsimp only
  split
  · exact lerp_mem hattack htgt hlvl
  · exact lerp_mem hrelease htgt hlvl

/-- **The smoothed gains** of any targets in (0, 1]. -/
theorem outLevels_mem {c : MelCompressor} (hattack : 0 < c.attackCoef ∧ c.attackCoef < 1)
    (hrelease : 0 < c.releaseCoef ∧ c.releaseCoef < 1) {tgtLvl : List ℝ} (htgt : ∀ tgt ∈ tgtLvl, 0 < tgt ∧ tgt ≤ 1)
    {lvl : ℝ} (hlvl : 0 < lvl ∧ lvl ≤ 1) : ∀ l ∈ c.outLevels lvl tgtLvl, 0 < l ∧ l ≤ 1 := by
  induction tgtLvl generalizing lvl with
  | nil => simp [outLevels]
  | cons tgt tgtLvl ih =>
    obtain ⟨hhead, hrest⟩ := List.forall_mem_cons.1 htgt
    have hnext := smooth_mem hattack hrelease hlvl hhead
    exact List.forall_mem_cons.2 ⟨hnext, ih hrest hnext⟩

/-! ## The gain of a frame -/

theorem targetLevel_mem (hratio : 1 ≤ ratio) (hknee : 0 < knee) (frame : List ℝ) :
    0 < (init threshold ratio knee attackFrames releaseFrames makeup eps).targetLevel frame ∧
      (init threshold ratio knee attackFrames releaseFrames makeup eps).targetLevel frame ≤ 1 := by
  rw [targetLevel_eq hknee]
  exact ⟨staticCurve_pos _, staticCurve_le_one hratio hknee _⟩

/-- The gains of a sequence of frames, from the gain 1 on. -/
theorem outLevels_targetLevel_mem (hratio : 1 ≤ ratio) (hknee : 0 < knee) (frames : List (List ℝ)) :
    ∀ lvl ∈ (init threshold ratio knee attackFrames releaseFrames makeup eps).outLevels 1
      (frames.map (init threshold ratio knee attackFrames releaseFrames makeup eps).targetLevel),
        0 < lvl ∧ lvl ≤ 1 := by
  refine outLevels_mem (calcCoef_mem _) (calcCoef_mem _) (fun tgt htgt => ?_) ⟨one_pos, le_rfl⟩
  obtain ⟨frame, -, rfl⟩ := List.mem_map.1 htgt
  exact targetLevel_mem hratio hknee frame

/-- `forward` only turns frames down, before the makeup gain. -/
theorem getElem?_forward (hratio : 1 ≤ ratio) (hknee : 0 < knee) {x : List (List ℝ)} {k : Nat} {out : List ℝ}
    (hout : ((init threshold ratio knee attackFrames releaseFrames makeup eps).forward x)[k]? = some out) :
    ∃ frame lvl, x[k]? = some frame ∧ 0 < lvl ∧ lvl ≤ 1 ∧
      out = (init threshold ratio knee attackFrames releaseFrames makeup eps).applyLevel frame lvl := by
  unfold forward at hout
  obtain ⟨frame, lvl, hframe, hlvl, rfl⟩ := List.getElem?_zipWith_eq_some.1 hout
  obtain ⟨hpos, hle⟩ := outLevels_targetLevel_mem hratio hknee x lvl (List.mem_of_getElem? hlvl)
  exact ⟨frame, lvl, hframe, hpos, hle, rfl⟩

/-- When the gain of a frame is that of its energy. -/
theorem targetLevel_eq_staticCurve (hknee : 0 < knee) (heps : 0 < eps) (frame : List ℝ) :
    (init threshold ratio knee attackFrames releaseFrames makeup eps).targetLevel frame =
        staticCurve threshold ratio knee eps frame.sum ↔
      frame.length = 1 ∨ ratio = 1 ∨
        max (frame.sum + 1 - frame.length) frame.sum ≤ max eps (kneeStart threshold knee) := by
  have hbins : frame.sum + 1 - frame.length = frame.sum ↔ frame.length = 1 := by
    rw [add_sub_assoc, add_eq_left, sub_eq_zero, eq_comm, Nat.cast_eq_one]
  rw [targetLevel_eq hknee, staticCurve_eq_iff hknee heps, hbins]

/-- **The target gain** is the soft knee of the frame's energy exactly for one bin, without compression, or below the
clamp and the knee. The knee is continuous and falls, and all gains stay in (0, 1]. -/
theorem targetLevel_iff (hratio : 1 ≤ ratio) (hknee : 0 < knee) (heps : 0 < eps) (frame : List ℝ) :
    ((init threshold ratio knee attackFrames releaseFrames makeup eps).targetLevel frame =
        staticCurve threshold ratio knee eps frame.sum ↔
      frame.length = 1 ∨ ratio = 1 ∨
        max (frame.sum + 1 - frame.length) frame.sum ≤ max eps (kneeStart threshold knee)) ∧
    (Continuous (staticCurve threshold ratio knee eps) ∧ Antitone (staticCurve threshold ratio knee eps) ∧
      ∀ energy, staticCurve threshold ratio knee eps energy ≤ 1) ∧
    (init threshold ratio knee attackFrames releaseFrames makeup eps).targetLevel frame ≤ 1 ∧
    ∀ frames : List (List ℝ), ∀ lvl ∈ (init threshold ratio knee attackFrames releaseFrames makeup eps).outLevels 1
      (frames.map (init threshold ratio knee attackFrames releaseFrames makeup eps).targetLevel),
        0 < lvl ∧ lvl ≤ 1 := by
  exact ⟨targetLevel_eq_staticCurve hknee heps frame,
    ⟨continuous_staticCurve hknee heps, antitone_staticCurve hratio hknee heps, staticCurve_le_one hratio hknee⟩,
    (targetLevel_mem hratio hknee frame).2, outLevels_targetLevel_mem hratio hknee⟩

theorem targetLevel_oneBin :
    ((init (-30) 4 6 1 10 0 1e-6).targetLevel [1] = staticCurve (-30) 4 6 1e-6 ([1] : List ℝ).sum ↔
      ([1] : List ℝ).length = 1 ∨ (4 : ℝ) = 1 ∨
        max (([1] : List ℝ).sum + 1 - ([1] : List ℝ).length) ([1] : List ℝ).sum ≤ max 1e-6 (kneeStart (-30) 6)) ∧
    (Continuous (staticCurve (-30) 4 6 1e-6) ∧ Antitone (staticCurve (-30) 4 6 1e-6) ∧
      ∀ energy, staticCurve (-30) 4 6 1e-6 energy ≤ 1) ∧
    (init (-30) 4 6 1 10 0 1e-6).targetLevel [1] ≤ 1 ∧
    ∀ frames : List (List ℝ), ∀ lvl ∈ (init (-30) 4 6 1 10 0 1e-6).outLevels 1
      (frames.map (init (-30) 4 6 1 10 0 1e-6).targetLevel), 0 < lvl ∧ lvl ≤ 1 :=
  targetLevel_iff (by norm_num) (by norm_num) (by norm_num) [1]

/-- The default compressor on two bins with the energy 1 together: the code finds the energy 0. -/
theorem targetLevel_twoBins :
    (init (-30) 4 6 1 10 0 1e-6).targetLevel [1 / 2, 1 / 2] ≠
      staticCurve (-30) 4 6 1e-6 ([1 / 2, 1 / 2] : List ℝ).sum := by
  intro heq
  rw [targetLevel_eq_staticCurve (by norm_num) (by norm_num)] at heq
  have hknee : kneeStart (-30) 6 < 1 := Real.rpow_lt_one_of_one_lt_of_neg (by norm_num) (by norm_num)
  have hbelow : max (1e-6 : ℝ) (kneeStart (-30) 6) < 1 := max_lt (by norm_num) hknee
  rcases heq with hone | hone | hle
  · exact absurd hone (by decide)
  · exact absurd hone (by norm_num)
  · have hsum : ([1 / 2, 1 / 2] : List ℝ).sum = 1 := by norm_num
    rw [hsum] at hle
    exact absurd ((le_max_right _ _).trans hle) (not_le.2 hbelow)

end MelCompressor

end Bajiru.NnModel
