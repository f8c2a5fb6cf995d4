import Bajiru.LowPass
import Bajiru.Linkjiru.Constants
import Bajiru.Linkjiru.GatingLogic

/-!
# The score path

What `AnalysisThread::run` does with harvested scores: `ScoreLowPass`, the confidence `max(baji, ru)` of the smoothed
scores, and `Hysteresis` on it. A smoothed score is a run of a one-pole low-pass, so its distances to `0`, to `1` and to
another score decay at most geometrically; each of the switches of the trigger needs such a decay (`anti_flicker`).
-/

namespace Bajiru.Linkjiru

/-- The filter, the trigger, and what is stored for the UI. -/
structure ScorePath where
  scoreFilter : ScoreLowPass
  detectHysteresis : Hysteresis
  smoothedScores : Nat → ℚ
  lastScore : ℚ

namespace ScorePath

def new (alpha high low : ℚ) : ScorePath :=
  ⟨{ alpha := alpha }, { high := high, low := low }, fun _ => 0, 0⟩

/-- The harvested scores are taken. -/
def harvest (s : ScorePath) (raw : Nat → ℚ) : ScorePath :=
  let scoreFilter := s.scoreFilter.update raw modelNumClasses
  let confidence := max (scoreFilter.get 0) (scoreFilter.get 1)
  { scoreFilter := scoreFilter
    detectHysteresis := s.detectHysteresis.update confidence
    smoothedScores := fun i => if i < modelNumClasses then scoreFilter.get i else s.smoothedScores i
    lastScore := confidence }

/-- The score path of a thread as it is shipped. -/
def shipped : ScorePath := new ({} : ScoreLowPass).alpha detectHigh detectLow

/-- The path after the first `n` harvests. -/
def after (s : ScorePath) (raws : List (Nat → ℚ)) (n : Nat) : ScorePath := (raws.take n).foldl harvest s

/-- The trigger switches to `state` with update `t`. -/
def Switches (s : ScorePath) (raws : List (Nat → ℚ)) (state : Bool) (t : Nat) : Prop :=
  (s.after raws t).detectHysteresis.value = !state ∧ (s.after raws (t + 1)).detectHysteresis.value = state

/-- The trigger flips with update `t`. -/
def Flips (s : ScorePath) (raws : List (Nat → ℚ)) (t : Nat) : Prop :=
  (s.after raws (t + 1)).detectHysteresis.value ≠ (s.after raws t).detectHysteresis.value

/-- The scores of the classes lie in `[0, 1]`. -/
def Scored (raw : Nat → ℚ) : Prop := ∀ i, i < modelNumClasses → 0 ≤ raw i ∧ raw i ≤ 1

variable {s : ScorePath} {raws : List (Nat → ℚ)}

/-! ## One harvest -/

@[simp] theorem alpha_harvest (raw : Nat → ℚ) : (s.harvest raw).scoreFilter.alpha = s.scoreFilter.alpha := rfl

@[simp] theorem high_harvest (raw : Nat → ℚ) : (s.harvest raw).detectHysteresis.high = s.detectHysteresis.high :=
  Hysteresis.high_update

@[simp] theorem low_harvest (raw : Nat → ℚ) : (s.harvest raw).detectHysteresis.low = s.detectHysteresis.low :=
  Hysteresis.low_update

/-- A class below the number of classes is a slot of the filter. -/
theorem get_class (f : ScoreLowPass) {i : Nat} (hi : i < modelNumClasses) : f.get i = f.smoothed i := by
  have : i < kMax := hi.trans (by decide)
  simp [ScoreLowPass.get, this]

/-- The smoothed score of a class makes a step of the low-pass. -/
theorem smoothed_harvest (raw : Nat → ℚ) {i : Nat} (hi : i < modelNumClasses) :
    (s.harvest raw).scoreFilter.smoothed i = LowPass.step s.scoreFilter.alpha (s.scoreFilter.smoothed i) (raw i) := by
  have hm : i < min modelNumClasses kMax := hi
  exact if_pos hm

/-- The confidence of the smoothed scores. -/
def confidence (s : ScorePath) : ℚ := max (s.scoreFilter.smoothed 0) (s.scoreFilter.smoothed 1)

theorem harvest_trigger (raw : Nat → ℚ) :
    (s.harvest raw).detectHysteresis = s.detectHysteresis.update (s.harvest raw).confidence := rfl

/-! ## Runs -/

/-- The filter runs over the harvests, and the parameters stay. -/
theorem foldl_harvest (raws : List (Nat → ℚ)) (s : ScorePath) :
    (raws.foldl harvest s).scoreFilter.alpha = s.scoreFilter.alpha ∧
      (raws.foldl harvest s).detectHysteresis.high = s.detectHysteresis.high ∧
      (raws.foldl harvest s).detectHysteresis.low = s.detectHysteresis.low ∧
      ∀ i, i < modelNumClasses → (raws.foldl harvest s).scoreFilter.smoothed i =
        LowPass.run s.scoreFilter.alpha (s.scoreFilter.smoothed i) (fun raw => raw i) raws := by
  induction raws generalizing s with
  | nil => exact ⟨rfl, rfl, rfl, fun i _ => rfl⟩
  | cons raw raws ih =>
    obtain ⟨halpha, hhigh, hlow, hrun⟩ := ih (s.harvest raw)
    rw [high_harvest] at hhigh
    rw [low_harvest] at hlow
    refine ⟨halpha, hhigh, hlow, fun i hi => ?_⟩
    rw [LowPass.run_cons, List.foldl_cons, hrun i hi, smoothed_harvest raw hi, alpha_harvest]

theorem after_succ {t : Nat} (ht : t < raws.length) : s.after raws (t + 1) = (s.after raws t).harvest raws[t] := by
  rw [after, List.take_succ_eq_append_getElem ht, List.foldl_append]
  rfl

theorem after_add (t k : Nat) : s.after raws (t + k) = ((raws.drop t).take k).foldl harvest (s.after raws t) := by
  rw [after, List.take_add, List.foldl_append]
  rfl

/-- Past the last harvest nothing changes. -/
theorem after_end {t : Nat} (ht : raws.length ≤ t) : s.after raws (t + 1) = s.after raws t := by
  rw [after, after, List.take_of_length_le ht, List.take_of_length_le (Nat.le_succ_of_le ht)]

/-- The trigger is on after a switch at a confidence from `high` on, and off after one down to `low`. -/
theorem Switches.confidence {state : Bool} {t : Nat} (h : s.Switches raws state t) : t < raws.length ∧
    if state then s.detectHysteresis.high ≤ (s.after raws (t + 1)).confidence
    else (s.after raws (t + 1)).confidence ≤ s.detectHysteresis.low := by
  obtain ⟨hbefore, hafter⟩ := h
  obtain ⟨-, hhigh, hlow, -⟩ := foldl_harvest (raws.take t) s
  have ht : t < raws.length := by
    by_contra hge
    rw [after_end (Nat.not_lt.1 hge), hbefore] at hafter
    cases state <;> cases hafter
  refine ⟨ht, ?_⟩
  rw [after_succ ht] at hafter ⊢
  rw [harvest_trigger] at hafter
  cases state with
  | true =>
    rw [if_pos rfl, ← hhigh]
    exact Hysteresis.update_on hbefore hafter
  | false =>
    rw [if_neg nofun, ← hlow]
    exact Hysteresis.update_off hbefore hafter

section Bounds

variable {alpha high low : ℚ} (h0 : 0 < alpha) (h1 : alpha < 1) (hraws : ∀ raw ∈ raws, Scored raw)
include h0 h1 hraws

/-- A smoothed score stays in `[0, 1]`. -/
theorem smoothed_mem (t : Nat) {i : Nat} (hi : i < modelNumClasses) :
    0 ≤ ((new alpha high low).after raws t).scoreFilter.smoothed i ∧
      ((new alpha high low).after raws t).scoreFilter.smoothed i ≤ 1 := by
  obtain ⟨-, -, -, hrun⟩ := foldl_harvest (raws.take t) (new alpha high low)
  have hscored : ∀ raw ∈ raws.take t, Scored raw := fun raw hraw => hraws raw (List.mem_of_mem_take hraw)
  rw [after, hrun i hi]
  exact ⟨LowPass.run_nonneg h0.le h1.le (le_refl 0) fun raw hraw => (hscored raw hraw i hi).1,
    LowPass.run_le h0.le h1.le zero_le_one fun raw hraw => (hscored raw hraw i hi).2⟩

omit h0 h1 in
/-- Each smoothed score runs on from any of its values. -/
theorem smoothed_add {t k : Nat} (hk : t + k ≤ raws.length) : ∃ vs : List (Nat → ℚ), vs.length = k ∧
    (∀ raw ∈ vs, Scored raw) ∧ ∀ i, i < modelNumClasses →
      ((new alpha high low).after raws (t + k)).scoreFilter.smoothed i =
        LowPass.run alpha (((new alpha high low).after raws t).scoreFilter.smoothed i) (fun raw => raw i) vs := by
  obtain ⟨halpha, -⟩ := foldl_harvest (raws.take t) (new alpha high low)
  obtain ⟨-, -, -, hrun⟩ := foldl_harvest ((raws.drop t).take k) ((new alpha high low).after raws t)
  refine ⟨(raws.drop t).take k, ?_, ?_, fun i hi => ?_⟩
  · rw [List.length_take, List.length_drop]
    omega
  · exact fun raw hraw => hraws raw (List.mem_of_mem_drop (List.mem_of_mem_take hraw))
  · rw [after_add, hrun i hi]
    congr 1

/-- From a confidence down to `c`, the confidence is at most `1 - (1 - alpha) ^ k * (1 - c)` after `k` harvests. -/
theorem confidence_rise {c : ℚ} {t k : Nat} (hk : t + k ≤ raws.length)
    (hc : ((new alpha high low).after raws t).confidence ≤ c) :
    (1 - alpha) ^ k * (1 - c) ≤ 1 - ((new alpha high low).after raws (t + k)).confidence := by
  obtain ⟨vs, rfl, hscored, hrun⟩ := smoothed_add hraws hk
  have hclass : ∀ i, i < modelNumClasses → ((new alpha high low).after raws t).scoreFilter.smoothed i ≤ c →
      (1 - alpha) ^ vs.length * (1 - c) ≤
        1 - ((new alpha high low).after raws (t + vs.length)).scoreFilter.smoothed i := by
    intro i hi hic
    rw [hrun i hi]
    calc (1 - alpha) ^ vs.length * (1 - c)
        ≤ (1 - alpha) ^ vs.length * (1 - ((new alpha high low).after raws t).scoreFilter.smoothed i) :=
          mul_le_mul_of_nonneg_left (by linarith) (pow_nonneg (by linarith) _)
      _ ≤ _ := LowPass.decay_below h0.le h1.le fun raw hraw => (hscored raw hraw i hi).2
  have hbaji := hclass 0 (by decide) ((le_max_left _ _).trans hc)
  have hru := hclass 1 (by decide) ((le_max_right _ _).trans hc)
  rw [le_sub_comm]
  exact max_le (le_sub_comm.1 hbaji) (le_sub_comm.1 hru)

/-- From a confidence of at least `c`, the confidence is at least `(1 - alpha) ^ k * c` after `k` harvests. -/
theorem confidence_fall {c : ℚ} {t k : Nat} (hk : t + k ≤ raws.length)
    (hc : c ≤ ((new alpha high low).after raws t).confidence) :
    (1 - alpha) ^ k * c ≤ ((new alpha high low).after raws (t + k)).confidence := by
  obtain ⟨vs, rfl, hscored, hrun⟩ := smoothed_add hraws hk
  have hclass : ∀ i, i < modelNumClasses → c ≤ ((new alpha high low).after raws t).scoreFilter.smoothed i →
      (1 - alpha) ^ vs.length * c ≤ ((new alpha high low).after raws (t + vs.length)).scoreFilter.smoothed i := by
    intro i hi hci
    rw [hrun i hi]
    calc (1 - alpha) ^ vs.length * c
        ≤ (1 - alpha) ^ vs.length * ((new alpha high low).after raws t).scoreFilter.smoothed i :=
          mul_le_mul_of_nonneg_left hci (pow_nonneg (by linarith) _)
      _ ≤ _ := LowPass.decay h0.le h1.le fun raw hraw => (hscored raw hraw i hi).1
  -- the leader of now bounds the leader of then
  obtain hbaji | hru := le_max_iff.1 hc
  · exact (hclass 0 (by decide) hbaji).trans (le_max_left _ _)
  · exact (hclass 1 (by decide) hru).trans (le_max_right _ _)

/-- A lead of `d` is kept through `k` harvests with `1 < (1 - alpha) ^ k * (1 + d)`. -/
theorem lead_kept {a b t k : Nat} (ha : a < modelNumClasses) (hb : b < modelNumClasses) (hk : t + k ≤ raws.length)
    (hd : 1 < (1 - alpha) ^ k * (1 + (((new alpha high low).after raws t).scoreFilter.smoothed a -
      ((new alpha high low).after raws t).scoreFilter.smoothed b))) :
    ((new alpha high low).after raws (t + k)).scoreFilter.smoothed b <
      ((new alpha high low).after raws (t + k)).scoreFilter.smoothed a := by
  obtain ⟨vs, rfl, hscored, hrun⟩ := smoothed_add hraws hk
  rw [hrun a ha, hrun b hb]
  have hlead := LowPass.decay_lead (c := 1) (x := ((new alpha high low).after raws t).scoreFilter.smoothed a)
    (y := ((new alpha high low).after raws t).scoreFilter.smoothed b) (f := fun raw : Nat → ℚ => raw a)
    (g := fun raw : Nat → ℚ => raw b) h0.le h1.le fun raw hraw => by
      linarith [(hscored raw hraw a ha).1, (hscored raw hraw b hb).2]
  linarith

/-- A switch on needs a rise from `low` to `high` since a switch off. -/
theorem switch_on {t k : Nat} (hoff : (new alpha high low).Switches raws false t)
    (hon : (new alpha high low).Switches raws true (t + k)) : (1 - alpha) ^ k * (1 - low) ≤ 1 - high := by
  obtain ⟨hlt, hhigh⟩ := hon.confidence
  have hrise := confidence_rise (k := k) h0 h1 hraws (by omega) hoff.confidence.2
  rw [show t + 1 + k = t + k + 1 by omega] at hrise
  exact hrise.trans (sub_le_sub_left hhigh 1)

/-- A switch off needs a fall from `high` to `low` since a switch on. -/
theorem switch_off {t k : Nat} (hon : (new alpha high low).Switches raws true t)
    (hoff : (new alpha high low).Switches raws false (t + k)) : (1 - alpha) ^ k * high ≤ low := by
  obtain ⟨hlt, hlow⟩ := hoff.confidence
  have hfall := confidence_fall (k := k) h0 h1 hraws (by omega) hon.confidence.2
  rw [show t + 1 + k = t + k + 1 by omega] at hfall
  exact hfall.trans hlow

end Bounds

/-! ## Consecutive flips -/

/-- Until the next flip the trigger holds. -/
theorem holds_between {t u : Nat} (hquiet : ∀ v, t < v → v < u → ¬ s.Flips raws v) (k : Nat) (hk : t + 1 + k ≤ u) :
    (s.after raws (t + 1 + k)).detectHysteresis.value = (s.after raws (t + 1)).detectHysteresis.value := by
  induction k with
  | zero => rfl
  | succ k ih =>
    have hsame := not_not.1 (hquiet (t + 1 + k) (by omega) (by omega))
    rw [← ih (by omega)]
    exact hsame

/-- Two consecutive flips are switches in opposite directions. -/
theorem opposite_flips {t u : Nat} (htu : t < u) (ht : s.Flips raws t) (hu : s.Flips raws u)
    (hquiet : ∀ v, t < v → v < u → ¬ s.Flips raws v) :
    ∃ state, s.Switches raws state t ∧ s.Switches raws (!state) u := by
  have hheld := holds_between hquiet (u - (t + 1)) (by omega)
  rw [show t + 1 + (u - (t + 1)) = u by omega] at hheld
  unfold Flips at ht hu
  rw [hheld] at hu
  refine ⟨(s.after raws (t + 1)).detectHysteresis.value, ⟨?_, rfl⟩, ?_, ?_⟩
  · exact Bool.eq_not_of_ne ht.symm
  · rw [hheld, Bool.not_not]
  · exact Bool.eq_not_of_ne hu

end ScorePath

open ScorePath in
/-- **The score path does not flicker**, whatever the thresholds. The smoothed scores stay in `[0, 1]`; a switch of the
trigger back after `k` harvests needs a geometric decay across the band, which with the shipped parameters takes seven
harvests; and a lead of one score over another outlasts every `k` harvests with `1 < (1 - alpha) ^ k * (1 + d)`. -/
theorem anti_flicker {alpha low high : ℚ} (h0 : 0 < alpha) (h1 : alpha < 1) {raws : List (Nat → ℚ)}
    (hraws : ∀ raw ∈ raws, Scored raw) :
    (∀ t i, i < modelNumClasses → 0 ≤ ((new alpha high low).after raws t).scoreFilter.get i ∧
      ((new alpha high low).after raws t).scoreFilter.get i ≤ 1) ∧
    (∀ t k, (new alpha high low).Switches raws false t → (new alpha high low).Switches raws true (t + k) →
      (1 - alpha) ^ k * (1 - low) ≤ 1 - high) ∧
    (∀ t k, (new alpha high low).Switches raws true t → (new alpha high low).Switches raws false (t + k) →
      (1 - alpha) ^ k * high ≤ low) ∧
    (∀ t u, t < u → shipped.Flips raws t → shipped.Flips raws u →
      (∀ v, t < v → v < u → ¬ shipped.Flips raws v) → t + 7 ≤ u) ∧
    (∀ t k a b d, t + k ≤ raws.length → a < modelNumClasses → b < modelNumClasses → 0 < d →
      ((new alpha high low).after raws t).scoreFilter.get a - ((new alpha high low).after raws t).scoreFilter.get b = d →
      1 < (1 - alpha) ^ k * (1 + d) →
      ¬ ((new alpha high low).after raws (t + k)).scoreFilter.get a ≤
        ((new alpha high low).after raws (t + k)).scoreFilter.get b) := by
  refine ⟨fun t i hi => ?_, fun t k => switch_on h0 h1 hraws, fun t k => switch_off h0 h1 hraws, ?_, ?_⟩
  · rw [get_class _ hi]
    exact smoothed_mem h0 h1 hraws t hi
  · intro t u htu ht hu hquiet
    obtain ⟨k, rfl⟩ := Nat.exists_eq_add_of_le htu.le
    by_contra hfew
    -- `(4 / 5) ^ 6` is still above `1 / 4`
    have hpow : (4 / 5 : ℚ) ^ 6 ≤ (4 / 5) ^ k := pow_le_pow_of_le_one (by norm_num) (by norm_num) (by omega)
    obtain ⟨state, ht, hu⟩ := opposite_flips htu ht hu hquiet
    cases state with
    | false =>
      have hrise : (1 - 1 / 5 : ℚ) ^ k * (1 - 1 / 5) ≤ 1 - 4 / 5 :=
        switch_on (by norm_num) (by norm_num) hraws ht hu
      norm_num at hrise hpow
      linarith
    | true =>
      have hfall : (1 - 1 / 5 : ℚ) ^ k * (4 / 5) ≤ 1 / 5 := switch_off (by norm_num) (by norm_num) hraws ht hu
      norm_num at hfall hpow
      linarith
  · intro t k a b d hk ha hb _ hlead hd
    rw [get_class _ ha, get_class _ hb] at hlead ⊢
    subst hlead
    exact not_le.2 (lead_kept h0 h1 hraws ha hb hk hd)

/-- Scores that detect baji. -/
def baji : Nat → ℚ := fun i => if i = 0 then 1 else 0

open ScorePath in
theorem anti_flicker_baji : (new (1 / 5) (4 / 5) (1 / 5)).Switches (List.replicate 8 baji) true 7 ∧
    ∀ k, (new (1 / 5) (4 / 5) (1 / 5)).Switches (List.replicate 8 baji) false (7 + k) →
      (1 - 1 / 5 : ℚ) ^ k * (4 / 5) ≤ 1 / 5 := by
  have hscored : ∀ raw ∈ List.replicate 8 baji, Scored raw := by
    intro raw hraw i _
    rw [List.eq_of_mem_replicate hraw, baji]
    split <;> norm_num
  have hon : (new (1 / 5) (4 / 5) (1 / 5)).Switches (List.replicate 8 baji) true 7 := by
    constructor <;> decide +kernel
  exact ⟨hon, fun k => (anti_flicker (by norm_num) (by norm_num) hscored).2.2.1 7 k hon⟩

end Bajiru.Linkjiru
