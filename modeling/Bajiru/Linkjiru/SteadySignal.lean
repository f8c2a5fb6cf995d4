import Bajiru.Linkjiru.GatingLogic
import Mathlib.Algebra.Order.Archimedean.Basic
import Mathlib.Algebra.Order.Field.Basic
import Mathlib.Data.Int.ConditionallyCompleteOrder
import Mathlib.Tactic.Linarith
import Mathlib.Tactic.NormNum
import Mathlib.Tactic.Ring

/-!
# A steady signal at the silence gate

The level `r` at every tick, from one that wakes the gate on. The noise floor rises towards every louder level, so its
distance to `r` decays geometrically (`trackFloor_steady`), and the gate falls asleep at the first tick behind which the
floor is above `5 / 8 * r` (`Loud`, `Steady.next`). From then on `shouldEvaluate` only answers out of its hold
(`evaluates_iff`): a loud steady signal is taken for silence after some ten seconds (`exists_not_evaluates`).
-/

namespace Bajiru.Linkjiru

namespace GatingLogic

/-- The gate before the tick `n`, with the clock `t`. -/
def ticks (s : GatingLogic) (r : ℚ) (t : Nat → Int) : Nat → GatingLogic
  | 0 => s
  | n + 1 => ((ticks s r t n).shouldEvaluate r (t n)).2

/-- The answer at the tick `n`. -/
def evaluates (s : GatingLogic) (r : ℚ) (t : Nat → Int) (n : Nat) : Bool :=
  ((s.ticks r t n).shouldEvaluate r (t n)).1

/-- Behind the tick `k`, the floor that was `floor` before the first one is not above `5 / 8 * r`. -/
def Loud (r floor : ℚ) (k : Nat) : Prop := 3 / 8 * r ≤ (r - floor) * (1997 / 2000) ^ (k + 1)

section Tick

variable {s : GatingLogic} {r : ℚ} {nowMs : Int}

/-- The answer is that of the state behind the tick. -/
theorem fst_shouldEvaluate : (s.shouldEvaluate r nowMs).1 =
    ((s.shouldEvaluate r nowMs).2.awake ||
      decide (nowMs - (s.shouldEvaluate r nowMs).2.lastLoudMs < (s.shouldEvaluate r nowMs).2.config.holdMs)) := rfl

/-- The floor comes nearer to a level above it. -/
theorem trackFloor_steady (hconfig : s.config = {}) (h : s.noiseFloor ≤ r) :
    r - (s.trackFloor r).noiseFloor = (r - s.noiseFloor) * (1997 / 2000) := by
  unfold trackFloor
  simp only [hconfig, if_neg (not_lt.2 h)]
  ring

/-- A tick of a gate that is awake. -/
theorem shouldEvaluate_awake (hawake : s.awake = true) : (s.shouldEvaluate r nowMs).2 =
    if r < max (s.trackFloor r).noiseFloor s.config.minFloor * s.config.silenceRatio then
      { s.trackFloor r with awake := false }
    else { s.trackFloor r with lastLoudMs := nowMs } := if_pos hawake

/-- A tick of a gate that is asleep. -/
theorem shouldEvaluate_asleep (hawake : s.awake = false) : (s.shouldEvaluate r nowMs).2 =
    if r > max (s.trackFloor r).noiseFloor s.config.minFloor * s.config.wakeRatio then
      { s.trackFloor r with awake := true, lastLoudMs := nowMs }
    else s.trackFloor r := if_neg (by simp [trackFloor, hawake])

end Tick

/-! ## The invariant -/

variable {s g : GatingLogic} {r floor : ℚ} {t : Nat → Int} {n : Nat}

/-- The gate behind the tick `n`: it is awake while the signal is loud, and remembers the last such tick. -/
structure Steady (r floor : ℚ) (t : Nat → Int) (n : Nat) (g : GatingLogic) : Prop where
  config : g.config = {}
  noiseFloor : r - g.noiseFloor = (r - floor) * (1997 / 2000) ^ (n + 1)
  awake : g.awake = true ↔ Loud r floor n
  lastLoudMs : ∃ k ≤ n, Loud r floor k ∧ g.lastLoudMs = t k ∧ ∀ j ≤ n, Loud r floor j → j ≤ k

theorem Loud.of_le (hle : floor ≤ r) {j k : Nat} (hjk : j ≤ k) (h : Loud r floor k) : Loud r floor j := by
  refine le_trans h (mul_le_mul_of_nonneg_left ?_ (sub_nonneg.2 hle))
  exact pow_le_pow_of_le_one (by norm_num) (by norm_num) (Nat.add_le_add_right hjk 1)

/-- The tick that wakes the gate. -/
theorem steady_wake (hconfig : s.config = {}) (hasleep : s.awake = false)
    (hwake : (s.shouldEvaluate r (t 0)).2.awake = true) :
    s.noiseFloor ≤ r ∧ 1 / 100000 * 3 < r ∧ Steady r s.noiseFloor t 0 (s.shouldEvaluate r (t 0)).2 := by
  rw [shouldEvaluate_asleep hasleep, hconfig] at hwake ⊢
  split at hwake
  next hloud =>
    rw [if_pos hloud]
    rw [gt_iff_lt, max_mul_of_nonneg _ _ (by norm_num), max_lt_iff] at hloud
    obtain ⟨hfloor, hmin⟩ := hloud
    have hle : s.noiseFloor ≤ r := by
      by_contra hlt
      have hdrop : (s.trackFloor r).noiseFloor = r := if_pos (not_le.1 hlt)
      rw [hdrop] at hfloor
      linarith
    have hdist := trackFloor_steady hconfig hle
    have hzero : Loud r s.noiseFloor 0 := by
      unfold Loud
      rw [zero_add, pow_one, ← hdist]
      linarith
    refine ⟨hle, hmin, hconfig, ?_, iff_of_true rfl hzero, 0, le_rfl, hzero, rfl, fun j hj _ => hj⟩
    rw [zero_add, pow_one]
    exact hdist
  next =>
    rw [show (s.trackFloor r).awake = s.awake from rfl, hasleep] at hwake
    cases hwake

/-- A tick at the level `r`. -/
theorem Steady.next (hle : floor ≤ r) (hmin : 1 / 100000 * 3 < r) (h : Steady r floor t n g) :
    Steady r floor t (n + 1) (g.shouldEvaluate r (t (n + 1))).2 := by
  have hbelow : g.noiseFloor ≤ r := by
    have hpow : 0 ≤ (r - floor) * (1997 / 2000 : ℚ) ^ (n + 1) := mul_nonneg (sub_nonneg.2 hle) (by positivity)
    rw [← h.noiseFloor] at hpow
    exact sub_nonneg.1 hpow
  have hdist : r - (g.trackFloor r).noiseFloor = (r - floor) * (1997 / 2000) ^ (n + 1 + 1) := by
    rw [trackFloor_steady h.config hbelow, h.noiseFloor, mul_assoc, ← pow_succ]
  have hquiet : r < max (g.trackFloor r).noiseFloor (1 / 100000) * (8 / 5) ↔ ¬ Loud r floor (n + 1) := by
    unfold Loud
    rw [← hdist, max_mul_of_nonneg _ _ (by norm_num), lt_max_iff, or_iff_left (by linarith), not_le]
    constructor
    · intro hlt
      linarith
    · intro hlt
      linarith
  obtain ⟨k, hk, hloud, hlast, hmax⟩ := h.lastLoudMs
  have hquiet_max : ¬ Loud r floor (n + 1) → ∀ j ≤ n + 1, Loud r floor j → j ≤ k := by
    intro hnot j hj hj'
    rcases Nat.le_succ_iff.1 hj with hj | rfl
    · exact hmax j hj hj'
    · exact absurd hj' hnot
  cases hawake : g.awake with
  | true =>
    rw [shouldEvaluate_awake hawake, h.config]
    split
    next hlt =>
      have hnot := hquiet.1 hlt
      exact ⟨h.config, hdist, iff_of_false nofun hnot, k, Nat.le_succ_of_le hk, hloud, hlast, hquiet_max hnot⟩
    next hlt =>
      have hloud' := not_not.1 (mt hquiet.2 hlt)
      exact ⟨h.config, hdist, iff_of_true hawake hloud', n + 1, le_rfl, hloud', rfl, fun j hj _ => hj⟩
  | false =>
    have hnot : ¬ Loud r floor (n + 1) := fun hloud' => by
      rw [h.awake.2 (hloud'.of_le hle (Nat.le_succ n))] at hawake
      cases hawake
    have hfloor := hquiet.2 hnot
    rw [shouldEvaluate_asleep hawake, h.config, if_neg (by linarith)]
    exact ⟨h.config, hdist, iff_of_false (by simp [trackFloor, hawake]) hnot, k, Nat.le_succ_of_le hk, hloud, hlast,
      hquiet_max hnot⟩

/-! ## The answers -/

section Run

variable (hconfig : s.config = {}) (hasleep : s.awake = false) (hwake : (s.shouldEvaluate r (t 0)).2.awake = true)
include hconfig hasleep hwake

theorem steady_ticks (n : Nat) : Steady r s.noiseFloor t n (s.ticks r t (n + 1)) := by
  obtain ⟨hle, hmin, hstart⟩ := steady_wake hconfig hasleep hwake
  induction n with
  | zero => exact hstart
  | succ n ih => exact ih.next hle hmin

/-- The answer at a tick: the signal was loud in the last 300 ms. -/
theorem evaluates_iff (ht : Monotone t) (n : Nat) :
    s.evaluates r t n = true ↔ ∃ k ≤ n, t n - t k < 300 ∧ Loud r s.noiseFloor k := by
  have h := steady_ticks hconfig hasleep hwake n
  obtain ⟨k, hk, hloud, hlast, hmax⟩ := h.lastLoudMs
  have hanswer : s.evaluates r t n =
      ((s.ticks r t (n + 1)).awake || decide (t n - (s.ticks r t (n + 1)).lastLoudMs < 300)) := by
    rw [show (300 : Int) = (s.ticks r t (n + 1)).config.holdMs by rw [h.config]]
    exact fst_shouldEvaluate
  rw [hanswer, hlast, Bool.or_eq_true, decide_eq_true_iff, h.awake]
  constructor
  · rintro (hloud' | hhold)
    · exact ⟨n, le_rfl, by omega, hloud'⟩
    · exact ⟨k, hk, hhold, hloud⟩
  · rintro ⟨j, hj, hhold, hloud'⟩
    have hle := ht (hmax j hj hloud')
    exact .inr (by omega)

/-- **A steady signal evaluates** in the ticks up to `n` exactly if at each of them it was loud in the last 300 ms: the
floor had not caught up by then. -/
theorem steady_iff (ht : Monotone t) (n : Nat) :
    (∀ i ≤ n, s.evaluates r t i = true) ↔
      ∀ i ≤ n, ∃ k ≤ i, t i - t k < 300 ∧ 3 / 8 * r ≤ (r - s.noiseFloor) * (1997 / 2000) ^ (k + 1) :=
  forall₂_congr fun i _ => evaluates_iff hconfig hasleep hwake ht i

/-- Whatever the level is, the gate falls asleep if the clock goes on. -/
theorem exists_not_evaluates (ht : Monotone t) (hgoes : ∀ ms, ∃ n, ms ≤ t n) : ∃ n, s.evaluates r t n = false := by
  obtain ⟨hle, hmin, -⟩ := steady_wake hconfig hasleep hwake
  have hlevel : 0 < 3 / 8 * r := by linarith
  obtain ⟨m, hm⟩ := exists_pow_lt_of_lt_one (div_pos hlevel (by linarith : 0 < r - s.noiseFloor + 1))
    (by norm_num : (1997 / 2000 : ℚ) < 1)
  obtain ⟨n, hn⟩ := hgoes (t m + 300)
  refine ⟨n, Bool.eq_false_iff.2 fun heval => ?_⟩
  obtain ⟨k, -, hhold, hloud⟩ := (evaluates_iff hconfig hasleep hwake ht n).1 heval
  rcases Nat.lt_or_ge k m with hk | hk
  · have hle' := ht hk.le
    omega
  · have hpow : (r - s.noiseFloor + 1) * (1997 / 2000) ^ m < 3 / 8 * r := by
      rwa [lt_div_iff₀' (by linarith)] at hm
    have hstep : (r - s.noiseFloor) * (1997 / 2000 : ℚ) ^ (k + 1) ≤ (r - s.noiseFloor + 1) * (1997 / 2000) ^ m :=
      mul_le_mul (by linarith) (pow_le_pow_of_le_one (by norm_num) (by norm_num) (Nat.le_succ_of_le hk))
        (by positivity) (by linarith)
    exact absurd hloud (not_le.2 (hstep.trans_lt hpow))

end Run

/-- The clock of the tests, which tick every 16 ms. -/
def testClock (n : Nat) : Int := 1000000 + 16 * n

theorem testClock_mono : Monotone testClock := fun m n h => by
  unfold testClock
  omega

theorem test_wake : (({} : GatingLogic).shouldEvaluate (1 / 5) (testClock 0)).2.awake = true := by decide +kernel

/-- The last of the 500 ticks of the test. -/
theorem steady_test : ({} : GatingLogic).evaluates (1 / 5) testClock 499 = true := by
  refine (steady_iff rfl rfl test_wake testClock_mono 499).2 (fun i hi => ⟨i, le_rfl, by omega, ?_⟩) 499 le_rfl
  have hpow : (1997 / 2000 : ℚ) ^ 500 = ((1997 / 2000) ^ 250) ^ 2 := pow_mul _ 250 2
  have hloud : Loud (1 / 5) (1 / 10000) 499 := by
    rw [Loud, hpow]
    norm_num
  exact hloud.of_le (by norm_num) hi

/-- Three seconds later, the signal is silence. -/
theorem steady_mistaken : ¬ ∀ (s : GatingLogic) (r : ℚ) (t : Nat → Int), s.config = {} → s.awake = false →
    (s.shouldEvaluate r (t 0)).2.awake = true → Monotone t → ∀ n, s.evaluates r t n = true := by
  intro hall
  have heval := hall {} (1 / 5) testClock rfl rfl test_wake testClock_mono 680
  obtain ⟨k, -, hhold, hloud⟩ := (evaluates_iff rfl rfl test_wake testClock_mono 680).1 heval
  have hk : 659 ≤ k := by
    unfold testClock at hhold
    omega
  have hpow : (1997 / 2000 : ℚ) ^ 660 = ((1997 / 2000) ^ 165) ^ 4 := pow_mul _ 165 4
  have hquiet : ¬ Loud (1 / 5) (1 / 10000) 659 := by
    rw [Loud, hpow]
    norm_num
  exact hquiet (hloud.of_le (by norm_num) hk)

end GatingLogic

end Bajiru.Linkjiru
