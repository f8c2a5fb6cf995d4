import Bajiru.Linkjiru.AnalysisLoop
import Bajiru.Linkjiru.OnnxRunner

/-!
# The value after a failure

A tick latches no speaker while the model is not healthy, but the value for VTube Studio is that of the latch, which
nothing resets. From the first tick that observes the failure of the runner on, the value of every tick is the one that
was latched before (`value_dead`); it is 0 unless that is ru (`dead_model_iff`).
-/

namespace Bajiru.Linkjiru

open OnnxRunner

variable {α : Type*}

/-- The loads of `failed()` in successive ticks of the loop, between which the runner goes on. -/
inductive Observes [Zero α] : OnnxRunner α → List (TickInput α) → Prop
  | nil (r : OnnxRunner α) : Observes r []
  | cons {r r' : OnnxRunner α} {es : List (RunnerEvent α)} {i : TickInput α} {is : List (TickInput α)}
      (run : execute OnnxRunner.next r es = some r') (load : i.failed = r'.failed) (rest : Observes r' is) :
      Observes r (i :: is)

/-- A runner that has failed is observed so for good. -/
theorem Observes.failed [Zero α] {r : OnnxRunner α} {is : List (TickInput α)} (h : Observes r is)
    (hf : r.hardFailed = true) :
    ∀ i ∈ is, i.failed = true := by
  induction h with
  | nil r => nofun
  | cons run load rest ih =>
    have hf' := hardFailed_execute hf run
    intro i hi
    rcases List.mem_cons.1 hi with rfl | hi
    · exact load.trans hf'
    · exact ih hf' i hi

/-- A failure that a tick has observed is observed by every later tick. -/
theorem Observes.stays [Zero α] {r : OnnxRunner α} {is : List (TickInput α)} (h : Observes r is) {t u : Nat}
    {i j : TickInput α} (htu : t ≤ u) (hi : is[t]? = some i) (hj : is[u]? = some j) (hf : i.failed = true) :
    j.failed = true := by
  induction h generalizing t u with
  | nil r => cases hi
  | cons run load rest ih =>
    cases t with
    | zero =>
      obtain rfl := Option.some.inj hi
      have hdead := load.symm.trans hf
      cases u with
      | zero =>
        obtain rfl := Option.some.inj hj
        exact hf
      | succ u => exact rest.failed hdead j (List.mem_of_getElem? hj)
    | succ t =>
      cases u with
      | zero => omega
      | succ u => exact ih (Nat.le_of_succ_le_succ htu) hi hj

namespace AnalysisLoop

variable {s : AnalysisLoop α} {i : TickInput α} {is : List (TickInput α)}

/-- The model is not healthy in the tick. -/
def Dead (s : AnalysisLoop α) (i : TickInput α) : Prop := s.modelReadyFlag = false ∨ i.failed = true

/-! ## A tick -/

theorem modelReadyFlag_latch (failed : Bool) : (s.latch failed).modelReadyFlag = s.modelReadyFlag := by
  unfold latch
  split <;> rfl

theorem detect_dead (h : s.Dead i) : s.detect i.failed = 0 := by
  unfold detect
  rcases h with h | h <;> simp [h]

section Tick

variable [Zero α]

/-- The loop behind its use of the model. -/
def inferred (s : AnalysisLoop α) (i : TickInput α) : AnalysisLoop α :=
  ((s.heard i).2.infer ((s.resampleHostInput i.blocks).listen i).1 (s.heard i).1 i).2.2

theorem inferred_frame :
    (s.inferred i).latchedSpeaker = s.latchedSpeaker ∧ (s.inferred i).modelReadyFlag = s.modelReadyFlag :=
  (s.heard i).2.infer_frame ((s.resampleHostInput i.blocks).listen i).1 (s.heard i).1

/-- Behind the latch the tick only sends. -/
theorem tick_latch : (s.tick i).2.latchedSpeaker = ((s.inferred i).latch i.failed).latchedSpeaker ∧
    (s.tick i).2.modelReadyFlag = ((s.inferred i).latch i.failed).modelReadyFlag :=
  ⟨rfl, rfl⟩

/-- The stored value is that of the latch. -/
theorem detectValue_tick : (s.tick i).2.detectValue = (s.tick i).2.vtsValue := rfl

theorem modelReadyFlag_tick : (s.tick i).2.modelReadyFlag = s.modelReadyFlag := by
  rw [tick_latch.2, modelReadyFlag_latch, inferred_frame.2]

/-- Without a healthy model no speaker is latched. -/
theorem latchedSpeaker_dead (h : s.Dead i) : (s.tick i).2.latchedSpeaker = s.latchedSpeaker := by
  have hdead : (s.inferred i).Dead i := h.imp_left inferred_frame.2.trans
  have hlatch : (s.inferred i).latch i.failed = s.inferred i := by
    apply if_neg
    rw [detect_dead hdead]
    norm_num
  rw [tick_latch.1, hlatch, inferred_frame.1]

/-! ## Runs -/

theorem modelReadyFlag_after : (s.after is).modelReadyFlag = s.modelReadyFlag := by
  induction is generalizing s with
  | nil => rfl
  | cons i is ih => exact (ih (s := (s.tick i).2)).trans modelReadyFlag_tick

theorem after_take_succ {t : Nat} (hi : is[t]? = some i) :
    s.after (is.take (t + 1)) = ((s.after (is.take t)).tick i).2 := by
  rw [List.take_add_one, hi, after_append]
  rfl

/-- **The latch is frozen** while the model is dead. -/
theorem latchedSpeaker_after {k n : Nat} (hdead : ∀ t i, k ≤ t → t < k + n → is[t]? = some i → s.Dead i) :
    (s.after (is.take (k + n))).latchedSpeaker = (s.after (is.take k)).latchedSpeaker := by
  induction n with
  | zero => rfl
  | succ n ih =>
    have hfrozen := ih fun t i hk ht => hdead t i hk (by omega)
    rw [← Nat.add_assoc]
    cases hi : is[k + n]? with
    | none =>
      rw [List.take_add_one, hi, Option.toList_none, List.append_nil]
      exact hfrozen
    | some i =>
      have hdie : (s.after (is.take (k + n))).Dead i := by
        unfold Dead
        rw [modelReadyFlag_after]
        exact hdead (k + n) i (by omega) (by omega) hi
      rw [after_take_succ hi, latchedSpeaker_dead hdie]
      exact hfrozen

/-- **The value of the dead model** is that of the speaker that was latched before. -/
theorem value_dead {k u : Nat} (hk : k ≤ u) (hu : u < is.length)
    (hdead : ∀ t i, k ≤ t → is[t]? = some i → s.Dead i) :
    (s.after (is.take (u + 1))).detectValue = (s.after (is.take (u + 1))).vtsValue ∧
      ((s.after (is.take (u + 1))).vtsValue = 0 ↔ (s.after (is.take k)).latchedSpeaker ≠ 1) := by
  obtain ⟨n, hn⟩ := Nat.exists_eq_add_of_le hk
  constructor
  · rw [after_take_succ (List.getElem?_eq_getElem hu)]
    exact detectValue_tick
  · rw [vtsValue_eq_zero, show u + 1 = k + (n + 1) by omega,
      latchedSpeaker_after fun t i ht _ => hdead t i ht]

end Tick

end AnalysisLoop

open AnalysisLoop

/-- **After a failure** every tick computes and stores the value 0, exactly if ru is not latched when the first tick
observes it. -/
theorem dead_model_iff [Zero α] {built : Bool} {is : List (TickInput α)} (h : Observes (prepared built) is) :
    (∀ t u i, is[t]? = some i → built = false ∨ i.failed = true → t ≤ u → u < is.length →
      ((start α built).after (is.take (u + 1))).vtsValue = 0 ∧
        ((start α built).after (is.take (u + 1))).detectValue = 0) ↔
    ∀ k i, is[k]? = some i → i.failed = true → (∀ j i, j < k → is[j]? = some i → i.failed = false) →
      ((start α built).after (is.take k)).latchedSpeaker ≠ 1 := by
  constructor
  · intro hall k i hi hf _
    have hdead : ∀ t j, k ≤ t → is[t]? = some j → (start α built).Dead j := fun t j ht hj =>
      .inr (h.stays ht hi hj hf)
    obtain ⟨hlt, -⟩ := List.getElem?_eq_some_iff.1 hi
    exact (value_dead le_rfl hlt hdead).2.1 (hall k k i hi (.inr hf) le_rfl hlt).1
  · intro hlatch t u i hi hunhealthy htu hu
    -- from some tick on the model is dead, and ru is not latched there
    obtain ⟨k, hk, hdead, hnot⟩ : ∃ k, k ≤ u ∧ (∀ t j, k ≤ t → is[t]? = some j → (start α built).Dead j) ∧
        ((start α built).after (is.take k)).latchedSpeaker ≠ 1 := by
      rcases hunhealthy with hbuilt | hf
      · exact ⟨0, Nat.zero_le u, fun _ _ _ _ => .inl hbuilt, show (-1 : Int) ≠ 1 by decide⟩
      · have hex : ∃ (k : Nat) (i : TickInput α), is[k]? = some i ∧ i.failed = true := ⟨t, i, hi, hf⟩
        classical
        obtain ⟨j, hj, hfj⟩ := Nat.find_spec hex
        refine ⟨Nat.find hex, (Nat.find_min' hex ⟨i, hi, hf⟩).trans htu, fun t j' ht hj' => ?_, ?_⟩
        · exact .inr (h.stays ht hj hj' hfj)
        · refine hlatch _ j hj hfj fun l i' hl hi' => ?_
          have hmin := Nat.find_min hex hl
          simp only [not_exists, not_and, Bool.not_eq_true] at hmin
          exact hmin i' hi'
    obtain ⟨hstored, hvalue⟩ := value_dead hk hu hdead
    have hzero := hvalue.2 hnot
    exact ⟨hzero, hstored.trans hzero⟩

/-! ## A failure after a detection -/

/-- A tick that harvests the scores of one class. -/
def scored (label : Nat) (failed : Bool) : TickInput ℚ where
  now := 0
  blocks := []
  windowRms := 0
  harvest := some fun i => if i = label then 1 else 0
  ready := true
  inFlight := false
  stillInFlight := false
  failed := failed

/-- Eight harvests detect the class, then the inference fails. -/
def failingTicks (label : Nat) : List (TickInput ℚ) := List.replicate 8 (scored label false) ++ [scored label true]

/-- An inference that fails. -/
def failedInference : List (RunnerEvent ℚ) := acceptedKick [] ++ [.complete 0 false, .worker 0 0]

/-- While the runner does nothing, its failure is not observed. -/
theorem Observes.replicate [Zero α] {r : OnnxRunner α} {is : List (TickInput α)} (h : Observes r is)
    {i : TickInput α} (hi : i.failed = r.failed) (n : Nat) : Observes r (List.replicate n i ++ is) := by
  induction n with
  | zero => exact h
  | succ n ih => exact .cons (execute_nil r) hi ih

theorem observes_failing (label : Nat) : Observes (prepared true) (failingTicks label) := by
  obtain ⟨r, hr, hf⟩ := Option.map_eq_some_iff.1 (show
    (execute OnnxRunner.next (prepared true) failedInference).map (·.failed) = some true by decide +kernel)
  exact Observes.replicate (.cons hr hf.symm (.nil r)) rfl 8

theorem dead_model_baji : ((start ℚ true).after ((failingTicks 0).take 9)).detectValue = 0 := by
  refine ((dead_model_iff (observes_failing 0)).2 ?_ 8 8 (scored 0 true) rfl (.inr rfl) le_rfl (by decide)).2
  intro k i hi hf _
  have hk : k = 8 := by
    obtain ⟨hlt, -⟩ := List.getElem?_eq_some_iff.1 hi
    have hlen : (failingTicks 0).length = 9 := rfl
    by_contra hne
    have hsmall : k < 8 := by omega
    have hloud : (failingTicks 0)[k]? = some (scored 0 false) := by
      unfold failingTicks
      rw [List.getElem?_append_left (by simpa using hsmall), List.getElem?_replicate, if_pos hsmall]
    obtain rfl := Option.some.inj (hi.symm.trans hloud)
    cases hf
  subst hk
  decide +kernel

theorem dead_model_ru : ¬ ∀ is : List (TickInput ℚ), Observes (prepared true) is → ∀ t u i, is[t]? = some i →
    i.failed = true → t ≤ u → u < is.length → ((start ℚ true).after (is.take (u + 1))).detectValue = 0 := by
  intro hall
  have hzero := hall _ (observes_failing 1) 8 8 (scored 1 true) rfl rfl le_rfl (by decide)
  have hone : ((start ℚ true).after ((failingTicks 1).take 9)).detectValue = 1 := by decide +kernel
  rw [hone] at hzero
  exact absurd hzero (by norm_num)

end Bajiru.Linkjiru
