import Bajiru.Linkjiru.AnalysisLoop
import Mathlib.Data.List.Induction

/-!
# The windows of the loop and their pace

- A window that is kicked holds the newest samples of the model ring, however many were written (`kicked_tick`);
- the evaluations of a run are a hop apart and none is late, while the write count does not wrap (`Paced`).

The counter of the ring is a `uint64_t` that wraps by design, and `CadenceGate` compares it as it is: at the wrap the
schedule of the gate wraps before the counter does.
-/

namespace Bajiru.Linkjiru

variable {α : Type*}

/-! ## What a tick reports of its poll -/

namespace TickOutput

/-- The write count at which a tick reaches the cadence gate. -/
def polledAt (o : TickOutput α) : Option Nat := o.polled.map fun p => p.1.toNat

/-- The write count of the evaluation of a tick. -/
def evaluatedAt (o : TickOutput α) : Option Nat :=
  o.polled.bind fun p => if p.2.evaluate then some p.1.toNat else none

/-- The gate reports that it has skipped. -/
def skipped (o : TickOutput α) : Bool := o.polled.any fun p => p.2.skipped

variable {o : TickOutput α} {writeCount : UInt64} {tick : CadenceGate.Decision} {c : Nat}

theorem polledAt_some (h : o.polled = some (writeCount, tick)) : o.polledAt = some writeCount.toNat := by
  simp [polledAt, h]

theorem evaluatedAt_some (h : o.polled = some (writeCount, tick)) (heval : tick.evaluate = true) :
    o.evaluatedAt = some writeCount.toNat := by
  simp [evaluatedAt, h, heval]

theorem evaluatedAt_none (h : o.polled = some (writeCount, tick)) (heval : tick.evaluate = false) :
    o.evaluatedAt = none := by
  simp [evaluatedAt, h, heval]

theorem skipped_some (h : o.polled = some (writeCount, tick)) : o.skipped = tick.skipped := by
  simp [skipped, h]

/-- An evaluation is a poll. -/
theorem polledAt_of_evaluatedAt (h : o.evaluatedAt = some c) : o.polledAt = some c := by
  unfold evaluatedAt at h
  obtain ⟨p, hp, hc⟩ := Option.bind_eq_some_iff.1 h
  split at hc
  · rw [polledAt, hp]
    exact hc
  · cases hc

end TickOutput

namespace AnalysisLoop

/-! ## The last evaluation -/

/-- The count of the last evaluation. -/
def lastEvaluation (os : List (TickOutput α)) : Option Nat := (os.filterMap TickOutput.evaluatedAt).getLast?

/-- The last evaluation before the tick `t` was at the count `w`. -/
def LastBefore (os : List (TickOutput α)) (t w : Nat) : Prop :=
  ∃ t₁ o₁, t₁ < t ∧ os[t₁]? = some o₁ ∧ o₁.evaluatedAt = some w ∧
    ∀ t' o', t₁ < t' → t' < t → os[t']? = some o' → o'.evaluatedAt = none

variable {os : List (TickOutput α)} {o : TickOutput α} {t w c : Nat}

theorem lastEvaluation_snoc : lastEvaluation (os ++ [o]) = o.evaluatedAt.or (lastEvaluation os) := by
  unfold lastEvaluation
  rw [List.filterMap_append, List.getLast?_append]
  cases h : o.evaluatedAt with
  | none => simp [h]
  | some c => simp [h]

/-- The tick of an evaluation, the last one for the ticks behind it up to the next. -/
theorem lastBefore_succ (ho : os[t]? = some o) :
    LastBefore os (t + 1) w ↔ o.evaluatedAt = some w ∨ o.evaluatedAt = none ∧ LastBefore os t w := by
  constructor
  · rintro ⟨t₁, o₁, ht₁, ho₁, hw, hbetween⟩
    obtain ht | rfl := Nat.lt_succ_iff_lt_or_eq.1 ht₁
    · right
      exact ⟨hbetween t o ht (Nat.lt_succ_self t) ho, t₁, o₁, ht, ho₁, hw,
        fun t' o' h h' => hbetween t' o' h (Nat.lt_succ_of_lt h')⟩
    · left
      rw [ho] at ho₁
      cases ho₁
      exact hw
  · rintro (hw | ⟨hnone, t₁, o₁, ht₁, ho₁, hw, hbetween⟩)
    · exact ⟨t, o, Nat.lt_succ_self t, ho, hw, fun t' o' h h' => by omega⟩
    · refine ⟨t₁, o₁, Nat.lt_succ_of_lt ht₁, ho₁, hw, ?_⟩
      intro t' o' h h' ho'
      obtain ht' | rfl := Nat.lt_succ_iff_lt_or_eq.1 h'
      · exact hbetween t' o' h ht' ho'
      · rw [ho] at ho'
        cases ho'
        exact hnone

theorem lastEvaluation_take (ht : t ≤ os.length) : lastEvaluation (os.take t) = some w ↔ LastBefore os t w := by
  induction t with
  | zero =>
    constructor
    · intro h
      cases h
    · rintro ⟨t₁, o₁, h, -⟩
      cases h
  | succ t ih =>
    have hlt : t < os.length := ht
    rw [List.take_succ_eq_append_getElem hlt, lastEvaluation_snoc,
      lastBefore_succ (List.getElem?_eq_getElem hlt), ← ih (by omega)]
    cases os[t].evaluatedAt with
    | none => simp
    | some c => simp

/-! ## A tick -/

/-- The model ring has taken the samples `h`, and the cadence gate has the parameters of the loop. -/
structure Feeds (s : AnalysisLoop α) (h : List α) : Prop where
  ring : s.modelBuffer.Represents h
  window : s.cadenceGate.windowSamples = modelWindowSamples
  hop : s.cadenceGate.hopSamples = modelHopSamples
  full : s.cadenceGate.requireFullWindow = true

theorem Feeds.paces {s : AnalysisLoop α} {h : List α} (hs : s.Feeds h) : s.cadenceGate.Paces where
  window := by
    rw [hs.window]
    decide
  hop := by
    rw [hs.hop]
    decide

section Tick

variable [Zero α] {s : AnalysisLoop α} {h : List α} {i : TickInput α} {last : Option Nat}

theorem feeds_start (modelReadyFlag : Bool) : (start α modelReadyFlag).Feeds [] where
  ring := SharedRingBuffer.represents_new
  window := rfl
  hop := rfl
  full := rfl

theorem represents_tick (hs : s.Feeds h) : (s.tick i).2.modelBuffer.Represents (h ++ i.blocks.flatten) := by
  rw [(s.ticked i).buffer]
  exact SharedRingBuffer.represents_foldl i.blocks hs.ring

theorem feeds_tick (hs : s.Feeds h) : (s.tick i).2.Feeds (h ++ i.blocks.flatten) := by
  have hgate : (s.tick i).2.cadenceGate.windowSamples = s.cadenceGate.windowSamples ∧
      (s.tick i).2.cadenceGate.hopSamples = s.cadenceGate.hopSamples ∧
        (s.tick i).2.cadenceGate.requireFullWindow = s.cadenceGate.requireFullWindow := by
    cases hheard : (s.heard i).1 with
    | false =>
      rw [((s.ticked i).silent hheard).2.2]
      exact ⟨rfl, rfl, rfl⟩
    | true =>
      rw [((s.ticked i).polled hheard).2]
      exact CadenceGate.poll_frame
  constructor
  · exact represents_tick hs
  · exact hgate.1.trans hs.window
  · exact hgate.2.1.trans hs.hop
  · exact hgate.2.2.trans hs.full

/-- **A window that is kicked** holds the newest samples, and all of them were written. -/
theorem kicked_tick (hs : s.Feeds h) {w : List α} (hw : (s.tick i).1.kicked = some w) :
    modelWindowSamples ≤ (h ++ i.blocks.flatten).length ∧
      w = (h ++ i.blocks.flatten).drop ((h ++ i.blocks.flatten).length - modelWindowSamples) := by
  obtain ⟨-, heval, hsamples⟩ := (s.ticked i).kicked w hw
  have hwarm := CadenceGate.poll_warm hs.full heval
  rw [hs.window, UInt64.le_iff_toNat_le] at hwarm
  obtain ⟨hle, -, hwindow⟩ := SharedRingBuffer.readLastN_newest (represents_tick (i := i) hs) (n := modelWindowSamples)
    (by decide) (by decide) hwarm 3 s.windowBuf
  exact ⟨hle, hsamples.trans hwindow⟩

/-- **The poll of a tick**: it evaluates exactly if a window and a hop were written, it reports that it has skipped
exactly if a second hop was, and the evaluation is the last one of the gate then. -/
theorem tick_paced (hs : s.Feeds h) (hlast : s.cadenceGate.Scheduled last)
    (hwrap : (h ++ i.blocks.flatten).length + modelHopSamples < 2 ^ 64) :
    (∀ c, (s.tick i).1.evaluatedAt = some c ↔ (s.tick i).1.polledAt = some c ∧ modelWindowSamples ≤ c ∧
      ∀ w, last = some w → w + modelHopSamples ≤ c) ∧
    ((s.tick i).1.skipped = true ↔ ∃ w c, last = some w ∧ (s.tick i).1.evaluatedAt = some c ∧
      w + 2 * modelHopSamples ≤ c) ∧
    (s.tick i).2.cadenceGate.Scheduled ((s.tick i).1.evaluatedAt.or last) := by
  cases hheard : (s.heard i).1 with
  | false =>
    obtain ⟨hpolled, -, hgate⟩ := (s.ticked i).silent hheard
    simpa [TickOutput.polledAt, TickOutput.evaluatedAt, TickOutput.skipped, hpolled, hgate] using hlast
  | true =>
    obtain ⟨hpolled, hgate⟩ := (s.ticked i).polled hheard
    have hcount : (s.tick i).2.modelBuffer.writeCount.toNat = (h ++ i.blocks.flatten).length := by
      rw [(represents_tick hs).count]
      exact Nat.mod_eq_of_lt (by omega)
    have hroom : (s.tick i).2.modelBuffer.writeCount.toNat + s.cadenceGate.hopSamples.toNat < 2 ^ 64 := by
      rw [hs.hop, hcount]
      exact hwrap
    obtain ⟨hdue, hnext⟩ := CadenceGate.poll_spec hs.paces hlast hroom
    simp only [CadenceGate.Due, hs.hop, hs.window, hs.full, Int.toNat_natCast, forall_const] at hdue hnext
    rw [TickOutput.polledAt_some hpolled, TickOutput.skipped_some hpolled, hgate]
    cases heval : (s.cadenceGate.poll (s.tick i).2.modelBuffer.writeCount).1.evaluate with
    | false =>
      rw [TickOutput.evaluatedAt_none hpolled heval]
      have hidle := CadenceGate.poll_idle heval
      rw [heval] at hdue
      refine ⟨fun c => ⟨nofun, ?_⟩, ?_, ?_⟩
      · rintro ⟨hc, hlate⟩
        cases hc
        exact absurd (hdue.2 hlate) nofun
      · rw [hidle]
        simp
      · rw [hidle]
        exact hlast
    | true =>
      rw [TickOutput.evaluatedAt_some hpolled heval]
      obtain ⟨hskipped, hscheduled⟩ := hnext heval
      refine ⟨fun c => ⟨?_, fun hc => hc.1⟩, ?_, hscheduled⟩
      · intro hc
        cases hc
        exact ⟨rfl, hdue.1 heval⟩
      · rw [hskipped]
        simp

end Tick

/-! ## Runs -/

/-- The evaluations of a run: a hop lies between two successive ones, after an evaluation the first tick that reaches
the gate with a further hop evaluates, and the gate reports that it has skipped exactly if a second hop was written. -/
structure Paced (os : List (TickOutput α)) : Prop where
  hop : ∀ t o w c, os[t]? = some o → LastBefore os t w → o.evaluatedAt = some c → w + modelHopSamples ≤ c
  due : ∀ (t₁ t₂ : Nat) (o₁ o₂ : TickOutput α) (w c : Nat), t₁ < t₂ → os[t₁]? = some o₁ → os[t₂]? = some o₂ →
    o₁.evaluatedAt = some w → o₂.polledAt = some c → w + modelHopSamples ≤ c →
    (∀ (t : Nat) (o : TickOutput α) (d : Nat), t₁ < t → t < t₂ → os[t]? = some o → o.polledAt = some d →
      d < w + modelHopSamples) →
    o₂.evaluatedAt = some c
  skipped : ∀ t o, os[t]? = some o → (o.skipped = true ↔
    ∃ w c, LastBefore os t w ∧ o.evaluatedAt = some c ∧ w + 2 * modelHopSamples ≤ c)

section Runs

variable [Zero α] {s : AnalysisLoop α} {h : List α} {i : TickInput α} {is : List (TickInput α)}

theorem feeds_after (hs : s.Feeds h) : (s.after is).Feeds (h ++ written is) := by
  induction is generalizing s h with
  | nil => simpa [after, written] using hs
  | cons i is ih => simpa [after, written] using ih (feeds_tick (i := i) hs)

theorem scheduled_after {modelReadyFlag : Bool} (hwrap : (written is).length + modelHopSamples < 2 ^ 64) :
    ((start α modelReadyFlag).after is).cadenceGate.Scheduled
      (lastEvaluation ((start α modelReadyFlag).outputs is)) := by
  induction is using List.reverseRecOn with
  | nil => exact ⟨rfl, rfl⟩
  | append_singleton is i ih =>
    have hfeeds : ((start α modelReadyFlag).after is).Feeds (written is) := feeds_after (feeds_start modelReadyFlag)
    rw [written_append, written_singleton] at hwrap
    have hlast := ih (by rw [List.length_append] at hwrap; omega)
    rw [after_append, outputs_append]
    have htick := (tick_paced (i := i) hfeeds hlast hwrap).2.2
    simpa only [after, outputs, List.foldl_cons, List.foldl_nil, lastEvaluation_snoc] using htick

/-- A tick of a run, with the samples that were written up to it. -/
theorem run_tick {modelReadyFlag : Bool} {t : Nat} {o : TickOutput α}
    (ho : ((start α modelReadyFlag).outputs is)[t]? = some o) :
    ∃ i, is.take (t + 1) = is.take t ++ [i] ∧ o = (((start α modelReadyFlag).after (is.take t)).tick i).1 ∧
      ((start α modelReadyFlag).after (is.take t)).Feeds (written (is.take t)) := by
  obtain ⟨i, hi, rfl⟩ := outputs_getElem? ho
  refine ⟨i, ?_, rfl, feeds_after (feeds_start modelReadyFlag)⟩
  rw [List.take_add_one, hi]
  rfl

/-- **The polls of a run**, by the last evaluation before each. -/
theorem run_paced {modelReadyFlag : Bool} (hwrap : (written is).length + modelHopSamples < 2 ^ 64) {t : Nat}
    {o : TickOutput α} (ho : ((start α modelReadyFlag).outputs is)[t]? = some o) :
    (∀ c, o.evaluatedAt = some c ↔ o.polledAt = some c ∧ modelWindowSamples ≤ c ∧
      ∀ w, LastBefore ((start α modelReadyFlag).outputs is) t w → w + modelHopSamples ≤ c) ∧
    (o.skipped = true ↔ ∃ w c, LastBefore ((start α modelReadyFlag).outputs is) t w ∧ o.evaluatedAt = some c ∧
      w + 2 * modelHopSamples ≤ c) := by
  obtain ⟨hlen, -⟩ := List.getElem?_eq_some_iff.1 ho
  obtain ⟨i, htake, rfl, hfeeds⟩ := run_tick ho
  have hle : (written (is.take (t + 1))).length ≤ (written is).length := by
    conv_rhs => rw [← List.take_append_drop (t + 1) is, written_append, List.length_append]
    omega
  rw [htake, written_append, written_singleton] at hle
  have hsched : ((start α modelReadyFlag).after (is.take t)).cadenceGate.Scheduled
      (lastEvaluation ((start α modelReadyFlag).outputs (is.take t))) := by
    apply scheduled_after
    rw [List.length_append] at hle
    omega
  obtain ⟨heval, hskipped, -⟩ := tick_paced (i := i) hfeeds hsched (by omega)
  rw [outputs_take] at heval hskipped
  simp only [lastEvaluation_take hlen.le] at heval hskipped
  exact ⟨heval, hskipped⟩

/-- Nothing evaluates behind an evaluation as long as no hop was written. -/
theorem lastBefore_until {modelReadyFlag : Bool} (hwrap : (written is).length + modelHopSamples < 2 ^ 64)
    {t₁ t₂ w : Nat} {o₁ : TickOutput α} (h₂ : t₂ ≤ ((start α modelReadyFlag).outputs is).length)
    (ho₁ : ((start α modelReadyFlag).outputs is)[t₁]? = some o₁) (hw : o₁.evaluatedAt = some w)
    (hbetween : ∀ (t : Nat) (o : TickOutput α) (d : Nat), t₁ < t → t < t₂ →
      ((start α modelReadyFlag).outputs is)[t]? = some o → o.polledAt = some d → d < w + modelHopSamples) {t : Nat}
    (ht₁ : t₁ < t) (ht₂ : t ≤ t₂) : LastBefore ((start α modelReadyFlag).outputs is) t w := by
  induction t with
  | zero => cases ht₁
  | succ t ih =>
    have ho := List.getElem?_eq_getElem (show t < ((start α modelReadyFlag).outputs is).length by omega)
    rw [lastBefore_succ ho]
    obtain h | rfl := Nat.lt_succ_iff_lt_or_eq.1 ht₁
    · right
      have hlast := ih h (by omega)
      refine ⟨?_, hlast⟩
      cases hd : ((start α modelReadyFlag).outputs is)[t].evaluatedAt with
      | none => rfl
      | some d =>
        have hlate := (((run_paced hwrap ho).1 d).1 hd).2.2 w hlast
        have hearly := hbetween t _ d h (by omega) ho (TickOutput.polledAt_of_evaluatedAt hd)
        omega
    · left
      rw [ho] at ho₁
      cases ho₁
      exact hw

theorem paced_outputs {modelReadyFlag : Bool} (hwrap : (written is).length + modelHopSamples < 2 ^ 64) :
    Paced ((start α modelReadyFlag).outputs is) where
  hop t o w c ho hlast hc := (((run_paced hwrap ho).1 c).1 hc).2.2 w hlast
  due t₁ t₂ o₁ o₂ w c ht ho₁ ho₂ hw hc hhop hbetween := by
    obtain ⟨hlen, -⟩ := List.getElem?_eq_some_iff.1 ho₂
    obtain ⟨-, hwarm, -⟩ := ((run_paced hwrap ho₁).1 w).1 hw
    refine ((run_paced hwrap ho₂).1 c).2 ⟨hc, by omega, ?_⟩
    intro v hv
    have hlast := lastBefore_until hwrap hlen.le ho₁ hw hbetween ht le_rfl
    rw [← lastEvaluation_take hlen.le] at hlast hv
    obtain rfl := Option.some.inj (hlast.symm.trans hv)
    exact hhop
  skipped t o ho := (run_paced hwrap ho).2

end Runs

/-! ## Two loud ticks -/

section Loud

/-- A tick with a loud window and an idle runner. -/
def loud (blocks : List (List ℚ)) : TickInput ℚ where
  now := 1000
  blocks := blocks
  windowRms := 1
  harvest := none
  ready := true
  inFlight := false
  stillInFlight := false
  failed := false

variable {b : List (List ℚ)} {n : UInt64}

theorem written_count {s : AnalysisLoop ℚ} {h : List ℚ} (hs : s.Feeds h)
    (hn : (h ++ b.flatten).length % 2 ^ 64 = n.toNat) : (s.tick (loud b)).2.modelBuffer.writeCount = n := by
  apply UInt64.toNat_inj.1
  rw [← hn]
  exact (represents_tick hs).count

/-- A first loud tick opens the silence gate, if it fills the window. -/
theorem heard_first (hn : b.flatten.length % 2 ^ 64 = n.toNat) (hfull : modelWindowSamples ≤ n.toNat) :
    ((start ℚ true).heard (loud b)).1 = true ∧
      ((start ℚ true).heard (loud b)).2.silenceGate.lastLoudMs = 1000 ∧
        ((start ℚ true).heard (loud b)).2.silenceGate.config.holdMs = 300 := by
  have hring := SharedRingBuffer.represents_foldl b (feeds_start (α := ℚ) true).ring
  have hwindow := (SharedRingBuffer.readLastN_newest hring (n := modelWindowSamples) (by decide) (by decide)
    (by rw [hring.count, List.nil_append, hn]; exact hfull) 3 (start ℚ true).windowBuf).2.1
  have hheard : ((start ℚ true).heard (loud b)).1 = (({} : GatingLogic).shouldEvaluate 1 1000).1 ∧
      ((start ℚ true).heard (loud b)).2.silenceGate = (({} : GatingLogic).shouldEvaluate 1 1000).2 := by
    unfold heard listen resampleHostInput
    dsimp only [loud]
    rw [show maxRetries = 3 + 1 from rfl, hwindow]
    exact ⟨rfl, rfl⟩
  rw [hheard.1, hheard.2]
  decide +kernel

/-- Two loud ticks poll at their counts, if the first one fills the window. -/
theorem polled_twice (b b' : List (List ℚ)) (n n' : UInt64) (hn : b.flatten.length % 2 ^ 64 = n.toNat)
    (hfull : modelWindowSamples ≤ n.toNat) (hn' : (b.flatten ++ b'.flatten).length % 2 ^ 64 = n'.toNat) :
    ∃ o o', (start ℚ true).outputs [loud b, loud b'] = [o, o'] ∧
      o.polled = some (n, ((start ℚ true).cadenceGate.poll n).1) ∧
      o'.polled = some (n', (((start ℚ true).cadenceGate.poll n).2.poll n').1) := by
  have hfeeds := feeds_start (α := ℚ) true
  have hcount := written_count (b := b) hfeeds hn
  have hcount' := written_count (b := b') (feeds_tick (i := loud b) hfeeds) hn'
  obtain ⟨hheard, hloud, hhold⟩ := heard_first hn hfull
  have htick := ticked (start ℚ true) (loud b)
  have htick' := ticked ((start ℚ true).tick (loud b)).2 (loud b')
  have hheard' : (((start ℚ true).tick (loud b)).2.heard (loud b')).1 = true := by
    apply GatingLogic.shouldEvaluate_hold
    show 1000 - ((start ℚ true).tick (loud b)).2.silenceGate.lastLoudMs <
      ((start ℚ true).tick (loud b)).2.silenceGate.config.holdMs
    rw [htick.silenceGate, GatingLogic.lastLoudMs_shouldSend, GatingLogic.config_shouldSend, hloud, hhold]
    decide
  refine ⟨_, _, rfl, ?_, ?_⟩
  · rw [(htick.polled hheard).1, hcount]
  · rw [(htick'.polled hheard').1, hcount', (htick.polled hheard).2, hcount]

/-- Audio in blocks of 32 samples. -/
def blocks (k : Nat) : List (List ℚ) := List.replicate k (List.replicate 32 0)

theorem length_blocks (k : Nat) : (blocks k).flatten.length = k * 32 := by
  simp [blocks, List.length_flatten]

end Loud

/-! ## The windows and their pace -/

/-- **Every window is real and newest, and the evaluations are paced** while the write count does not wrap. -/
theorem windows_paced [Zero α] (modelReadyFlag : Bool) (is : List (TickInput α)) :
    (∀ (t : Nat) (o : TickOutput α) (w : List α), ((start α modelReadyFlag).outputs is)[t]? = some o →
      o.kicked = some w → modelWindowSamples ≤ (written (is.take (t + 1))).length ∧
        w = (written (is.take (t + 1))).drop ((written (is.take (t + 1))).length - modelWindowSamples)) ∧
    ((written is).length + modelHopSamples < 2 ^ 64 → Paced ((start α modelReadyFlag).outputs is)) := by
  constructor
  · intro t o w ho hw
    obtain ⟨i, htake, rfl, hfeeds⟩ := run_tick ho
    rw [htake, written_append, written_singleton]
    exact kicked_tick hfeeds hw
  · exact paced_outputs

/-- A window, then a hop: both are evaluated. -/
theorem windows_paced_loud : ∃ os, os = (start ℚ true).outputs [loud (blocks 750), loud (blocks 25)] ∧ Paced os ∧
    os.map TickOutput.evaluatedAt = [some 24000, some 24800] := by
  have hlen : (blocks 750 ++ blocks 25).flatten.length = 24800 := by
    rw [List.flatten_append, List.length_append, length_blocks, length_blocks]
  have hpaced := (windows_paced (α := ℚ) true [loud (blocks 750), loud (blocks 25)]).2 (by
    rw [show written [loud (blocks 750), loud (blocks 25)] = (blocks 750 ++ blocks 25).flatten by simp [written, loud],
      hlen]
    decide)
  obtain ⟨o, o', hos, ho, ho'⟩ := polled_twice (blocks 750) (blocks 25) 24000 24800
    (by rw [length_blocks]; decide) (by decide) (by rw [← List.flatten_append, hlen]; decide)
  refine ⟨_, rfl, hpaced, ?_⟩
  rw [hos]
  simp only [List.map_cons, List.map_nil, TickOutput.evaluatedAt, ho, ho']
  decide +kernel

/-- The schedule of the gate wraps before the write count does: the second of two ticks evaluates without a new
sample. -/
theorem windows_paced_wrap : ¬ Paced ((start ℚ true).outputs [loud (blocks (2 ^ 59 - 25)), loud []]) := by
  have hlen : (blocks (2 ^ 59 - 25)).flatten.length % 2 ^ 64 = (18446744073709550816 : UInt64).toNat := by
    rw [length_blocks]
    decide
  obtain ⟨o, o', hos, ho, ho'⟩ := polled_twice (blocks (2 ^ 59 - 25)) [] _ _ hlen (by decide)
    (by rw [List.flatten_nil, List.append_nil]; exact hlen)
  have heval : o.evaluatedAt = some 18446744073709550816 := by
    rw [TickOutput.evaluatedAt, ho]
    decide +kernel
  have heval' : o'.evaluatedAt = some 18446744073709550816 := by
    rw [TickOutput.evaluatedAt, ho']
    decide +kernel
  intro hpaced
  rw [hos] at hpaced
  have hhop := hpaced.hop 1 o' _ _ rfl ⟨0, o, by decide, rfl, heval, fun t' o' h h' => by omega⟩ heval'
  exact absurd hhop (by decide)

end AnalysisLoop

end Bajiru.Linkjiru
