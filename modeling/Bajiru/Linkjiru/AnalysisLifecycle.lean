import Bajiru.Linkjiru.PluginProcessor

/-!
# The lifecycle of the analysis

The message thread reconciles the analysis to the parameter whenever an update was posted, so they agree when none is
pending, but `releaseResources` stops the analysis and posts nothing (`analysis_agrees_iff`).

The thread's resampler has the rate of the moment in which the thread was built, and `prepareToPlay` only records a rate.
It is the rate of the samples in the host ring as long as no new rate is recorded under a live thread
(`resampler_rate_iff`).
-/

namespace Bajiru.Linkjiru

namespace LinkjiruProcessor

variable {I : Type*} {env : Env I} {s t : LinkjiruProcessor I}

/-! ## The parameter and the analysis -/

/-- The analysis runs exactly if the parameter is active, unless an update is pending. -/
def Agrees (s : LinkjiruProcessor I) : Prop := s.updatePending = false → s.isAnalysisRunning = s.active

/-- A release comes while an update is pending or the parameter is off. -/
def ReleasedInTime (s : LinkjiruProcessor I) : HostEvent → Prop
  | .releaseResources => s.updatePending = true ∨ s.active = false
  | _ => True

instance (s : LinkjiruProcessor I) (e : HostEvent) : Decidable (s.ReleasedInTime e) :=
  match e with
  | .releaseResources => inferInstanceAs (Decidable (s.updatePending = true ∨ s.active = false))
  | .setAnalysisActive _ | .automation _ | .setStateInformation _ | .requestRestart | .handleAsyncUpdate
  | .prepareToPlay _ | .playSample _ | .processBlock _ => inferInstanceAs (Decidable True)

/-- A runtime that was loaded is ready. -/
def Loaded (s : LinkjiruProcessor I) : Prop := s.ortRuntimeInitialized = true → s.ortRuntimeReady = true

/-- A start succeeds. -/
theorem startAnalysis_spec (hort : env.prepareOrtRuntime = true) (hl : s.Loaded) :
    (s.startAnalysis env).analysisRunning = true ∧ (s.startAnalysis env).active = s.active ∧
      (s.startAnalysis env).Loaded := by
  cases hrun : s.analysisRunning with
  | true =>
    rw [startAnalysis_running hrun]
    exact ⟨hrun, rfl, hl⟩
  | false =>
    rw [startAnalysis_started hort hl hrun]
    exact ⟨rfl, rfl, fun _ => rfl⟩

/-- The reconcile brings the analysis to the parameter. -/
theorem handleAsyncUpdate_spec (hort : env.prepareOrtRuntime = true) (hl : s.Loaded) :
    (s.handleAsyncUpdate env).analysisRunning = (s.handleAsyncUpdate env).active ∧
      (s.handleAsyncUpdate env).Loaded := by
  unfold handleAsyncUpdate
  split
  · dsimp only
    split
    · rename_i hactive
      obtain ⟨hrun, hsame, hl'⟩ := startAnalysis_spec (s := stopAnalysis { s with restartPending := false }) hort hl
      exact ⟨by rw [hrun, hsame, hactive], hl'⟩
    · rename_i hoff
      exact ⟨(Bool.not_eq_true _ ▸ hoff).symm, hl⟩
  · split
    · rename_i hstart
      obtain ⟨hrun, hsame, hl'⟩ := startAnalysis_spec hort hl
      exact ⟨by rw [hrun, hsame, hstart.1], hl'⟩
    · rename_i hnostart
      split
      · rename_i hstop
        have hoff : s.active = false := by simpa using hstop.1
        exact ⟨hoff.symm, hl⟩
      · rename_i hnostop
        refine ⟨?_, hl⟩
        unfold isAnalysisRunning at hnostart hnostop
        cases hrun : s.analysisRunning <;> cases hactive : s.active <;> simp_all

theorem agrees_pending (h : s.updatePending = true) : s.Agrees := by
  intro hno
  rw [h] at hno
  cases hno

/-- What the agreement reads is in the lifecycle. -/
theorem SameLifecycle.agrees (h : SameLifecycle s t) (hs : s.Agrees) : t.Agrees := by
  unfold Agrees isAnalysisRunning active at hs ⊢
  rw [h.updatePending, h.analysisRunning, h.analysisParam]
  exact hs

theorem loaded_next {e : HostEvent} (hort : env.prepareOrtRuntime = true) (hl : s.Loaded)
    (hnext : s.next env e = some t) : t.Loaded := by
  cases e with
  | handleAsyncUpdate =>
    simp only [next] at hnext
    split at hnext <;> cases hnext
    exact (handleAsyncUpdate_spec (s := { s with updatePending := false }) hort hl).2
  | processBlock buffer =>
    cases hnext
    have hsame : SameLifecycle s (s.processBlock env buffer).1 := sameLifecycle_processBlock buffer
    unfold Loaded
    rw [hsame.ortRuntimeInitialized, hsame.ortRuntimeReady]
    exact hl
  | setStateInformation data =>
    cases hnext
    unfold setStateInformation
    split <;> exact hl
  | _ =>
    cases hnext
    exact hl

/-- A step keeps the agreement exactly if it is no release that comes too late. -/
theorem agrees_next_iff {e : HostEvent} (hort : env.prepareOrtRuntime = true) (hs : s.Agrees) (hl : s.Loaded)
    (hnext : s.next env e = some t) : t.Agrees ↔ s.ReleasedInTime e := by
  cases e with
  | releaseResources =>
    cases hnext
    show (s.updatePending = false → false = s.active) ↔ s.updatePending = true ∨ s.active = false
    cases s.updatePending <;> cases s.active <;> simp
  | handleAsyncUpdate =>
    simp only [next] at hnext
    split at hnext <;> cases hnext
    exact iff_of_true (fun _ => (handleAsyncUpdate_spec (s := { s with updatePending := false }) hort hl).1) trivial
  | processBlock buffer =>
    cases hnext
    exact iff_of_true ((sameLifecycle_processBlock buffer).agrees hs) trivial
  | setStateInformation data =>
    cases hnext
    refine iff_of_true ?_ trivial
    unfold setStateInformation
    split
    · exact agrees_pending rfl
    · exact hs
  | prepareToPlay sampleRate =>
    cases hnext
    exact iff_of_true hs trivial
  | playSample which =>
    cases hnext
    exact iff_of_true hs trivial
  | _ =>
    cases hnext
    exact iff_of_true (agrees_pending rfl) trivial

theorem agrees_loaded_next {e : HostEvent} (hort : env.prepareOrtRuntime = true) (h : s.Agrees ∧ s.Loaded)
    (hG : s.ReleasedInTime e) (hnext : s.next env e = some t) : t.Agrees ∧ t.Loaded :=
  ⟨(agrees_next_iff hort h.1 h.2 hnext).2 hG, loaded_next hort h.2 hnext⟩

/-! ## The rate of the resampler -/

/-- The resampler of a live thread has the rate at which the host ring is written. -/
def RateMatches (s : LinkjiruProcessor I) : Prop :=
  ∀ thread, s.analysisThread = some thread → thread.hostSampleRate = s.currentSampleRate

/-- A rate that is recorded under a live thread is the recorded one. -/
def PreparedInTime (s : LinkjiruProcessor I) : HostEvent → Prop
  | .prepareToPlay sampleRate => s.analysisThread.isSome = true → sampleRate = s.currentSampleRate
  | _ => True

instance (s : LinkjiruProcessor I) (e : HostEvent) : Decidable (s.PreparedInTime e) :=
  match e with
  | .prepareToPlay sampleRate =>
    inferInstanceAs (Decidable (s.analysisThread.isSome = true → sampleRate = s.currentSampleRate))
  | .setAnalysisActive _ | .automation _ | .setStateInformation _ | .requestRestart | .handleAsyncUpdate
  | .releaseResources | .playSample _ | .processBlock _ => inferInstanceAs (Decidable True)

/-- A stopped thread has no rate. -/
theorem rateMatches_stopped (h : s.analysisThread = none) : s.RateMatches := by
  intro thread hthread
  rw [h] at hthread
  cases hthread

/-- A thread is built with the current rate. -/
theorem rateMatches_startAnalysis (h : s.RateMatches) : (s.startAnalysis env).RateMatches := by
  obtain ⟨running, analysisThread, initialized, ready, heq, hthread⟩ := startAnalysis_frame env s
  rw [heq]
  intro thread hsome
  rcases hthread with rfl | rfl
  · exact h thread hsome
  · cases hsome
    rfl

theorem rateMatches_handleAsyncUpdate (h : s.RateMatches) : (s.handleAsyncUpdate env).RateMatches := by
  unfold handleAsyncUpdate
  split
  · dsimp only
    split
    · exact rateMatches_startAnalysis (rateMatches_stopped rfl)
    · exact rateMatches_stopped rfl
  · split
    · exact rateMatches_startAnalysis h
    · split
      · exact rateMatches_stopped rfl
      · exact h

theorem SameLifecycle.rateMatches (h : SameLifecycle s t) (hs : s.RateMatches) : t.RateMatches := by
  intro thread hthread
  rw [h.currentSampleRate]
  rw [h.analysisThread] at hthread
  exact hs thread hthread

/-- A step keeps the rate exactly if it records no new rate under a live thread. -/
theorem rateMatches_next_iff {e : HostEvent} (hs : s.RateMatches) (hnext : s.next env e = some t) :
    t.RateMatches ↔ s.PreparedInTime e := by
  cases e with
  | prepareToPlay sampleRate =>
    cases hnext
    show (∀ thread, s.analysisThread = some thread → thread.hostSampleRate = sampleRate) ↔
      (s.analysisThread.isSome = true → sampleRate = s.currentSampleRate)
    cases hthread : s.analysisThread with
    | none => simp
    | some thread =>
      have hrate : thread.hostSampleRate = s.currentSampleRate := hs thread hthread
      constructor
      · intro hall _
        rw [← hall thread rfl, hrate]
      · rintro hsame _ ⟨⟩
        rw [hrate, hsame rfl]
  | handleAsyncUpdate =>
    simp only [next] at hnext
    split at hnext <;> cases hnext
    exact iff_of_true (rateMatches_handleAsyncUpdate (s := { s with updatePending := false }) hs) trivial
  | processBlock buffer =>
    cases hnext
    exact iff_of_true ((sameLifecycle_processBlock buffer).rateMatches hs) trivial
  | releaseResources =>
    cases hnext
    exact iff_of_true (rateMatches_stopped rfl) trivial
  | setStateInformation data =>
    cases hnext
    refine iff_of_true ?_ trivial
    unfold setStateInformation
    split <;> exact hs
  | _ =>
    cases hnext
    exact iff_of_true hs trivial

end LinkjiruProcessor

open LinkjiruProcessor in
/-- **At quiescence the analysis runs exactly if its parameter is active**, in every state that a run reaches, exactly if
the run releases the resources only while an update is pending or the parameter is off. -/
theorem analysis_agrees_iff {I : Type*} {env : Env I} (hort : env.prepareOrtRuntime = true) {es : List HostEvent}
    {t : LinkjiruProcessor I} (h : execute (next env) (new env) es = some t) :
    (∀ es₁ es₂ u, es = es₁ ++ es₂ → execute (next env) (new env) es₁ = some u → u.Agrees) ↔
      Along (next env) ReleasedInTime (new env) es := by
  have hnew : (new env).Agrees ∧ (new env).Loaded := by
    constructor
    · intro _
      show false = decide ((0 : ℚ) ≥ 1 / 2)
      norm_num
    · nofun
  rw [reached_iff h, and_iff_right hnew.1]
  refine along_iff (fun s e t => agrees_loaded_next hort) (fun s e t hs hnext => ?_) hnew h
  constructor
  · intro hall
    exact (agrees_next_iff hort hs.1 hs.2 hnext).1 (hall t hnext)
  · intro hG u hu
    exact (agrees_next_iff hort hs.1 hs.2 hu).2 hG

/-- An environment without samples whose runtime loads. -/
def plainEnv : Env Unit where
  baji := []
  ru := []
  interpReset := ()
  interp _ _ _ numOut _ := (numOut, fun _ => 0, ())
  prepareOrtRuntime := true

/-- The host switches the analysis on, prepares again with the same rate, and switches it off. -/
def hostRun : List HostEvent :=
  [.prepareToPlay 48000, .setAnalysisActive true, .handleAsyncUpdate, .prepareToPlay 48000, .setAnalysisActive false,
    .releaseResources, .handleAsyncUpdate]

open LinkjiruProcessor in
theorem analysis_agrees_released : ∃ t, execute (next plainEnv) (new plainEnv) hostRun = some t ∧
    ∀ es₁ es₂ u, hostRun = es₁ ++ es₂ → execute (next plainEnv) (new plainEnv) es₁ = some u → u.Agrees := by
  obtain ⟨t, ht⟩ := Option.isSome_iff_exists.1 (show
    (execute (next plainEnv) (new plainEnv) hostRun).isSome = true by decide +kernel)
  exact ⟨t, ht, (analysis_agrees_iff rfl ht).2 (by decide +kernel)⟩

open LinkjiruProcessor in
theorem analysis_silently_off : ¬ ∀ es s, execute (next plainEnv) (new plainEnv) es = some s → s.Agrees := by
  intro hall
  obtain ⟨s, hs, heq⟩ := Option.map_eq_some_iff.1 (show
    (execute (next plainEnv) (new plainEnv) [.setAnalysisActive true, .handleAsyncUpdate, .releaseResources]).map
      (fun s => (s.updatePending, s.isAnalysisRunning, s.active)) = some (false, false, true) by decide +kernel)
  simp only [Prod.mk.injEq] at heq
  obtain ⟨hquiet, hoff, hactive⟩ := heq
  have hagrees := hall _ s hs hquiet
  rw [hoff, hactive] at hagrees
  cases hagrees

open LinkjiruProcessor in
/-- **The resampler of a live thread has the rate of the host ring** in every state that a run reaches, exactly if the run
records no new rate under a live thread. -/
theorem resampler_rate_iff {I : Type*} {env : Env I} {es : List HostEvent} {t : LinkjiruProcessor I}
    (h : execute (next env) (new env) es = some t) :
    (∀ es₁ es₂ u, es = es₁ ++ es₂ → execute (next env) (new env) es₁ = some u → u.RateMatches) ↔
      Along (next env) PreparedInTime (new env) es := by
  have hnew : (new env).RateMatches := rateMatches_stopped rfl
  rw [reached_iff h, and_iff_right hnew]
  refine along_iff (fun s e t hs hG hnext => (rateMatches_next_iff hs hnext).2 hG) (fun s e t hs hnext => ?_) hnew h
  constructor
  · intro hall
    exact (rateMatches_next_iff hs hnext).1 (hall t hnext)
  · intro hG u hu
    exact (rateMatches_next_iff hs hu).2 hG

open LinkjiruProcessor in
theorem resampler_rate_kept : ∃ t, execute (next plainEnv) (new plainEnv) hostRun = some t ∧
    ∀ es₁ es₂ u, hostRun = es₁ ++ es₂ → execute (next plainEnv) (new plainEnv) es₁ = some u → u.RateMatches := by
  obtain ⟨t, ht⟩ := Option.isSome_iff_exists.1 (show
    (execute (next plainEnv) (new plainEnv) hostRun).isSome = true by decide +kernel)
  exact ⟨t, ht, (resampler_rate_iff ht).2 (by decide +kernel)⟩

open LinkjiruProcessor in
theorem resampler_rate_stale : ¬ ∀ es s, execute (next plainEnv) (new plainEnv) es = some s → s.RateMatches := by
  intro hall
  obtain ⟨s, hs, heq⟩ := Option.map_eq_some_iff.1 (show
    (execute (next plainEnv) (new plainEnv)
      [.prepareToPlay 48000, .setAnalysisActive true, .handleAsyncUpdate, .prepareToPlay 96000]).map
      (fun s => (s.analysisThread.map (·.hostSampleRate), s.currentSampleRate)) = some (some 48000, 96000)
      by decide +kernel)
  rw [Prod.mk.injEq] at heq
  obtain ⟨thread, hthread, hrate⟩ := Option.map_eq_some_iff.1 heq.1
  have hsame := hall _ s hs thread hthread
  rw [hrate, heq.2] at hsame
  exact absurd hsame (by norm_num)

end Bajiru.Linkjiru
