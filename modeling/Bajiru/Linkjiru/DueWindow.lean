import Bajiru.Linkjiru.AnalysisTick

/-!
# Due windows

A window is due when the cadence gate says evaluate, the runner is ready and the window was read. The rest of the tick
runs it or counts it as dropped, unless a completion comes at the wrong place: between the two loads of `inFlight`, or,
if it is a failure, between `isReady` and the load of `hardFailed` in `kick` (`dueWindow_iff`).
-/

namespace Bajiru.Linkjiru

variable {α : Type*}

namespace OnnxRunner

/-- The analysis thread is about to load `hardFailed` in `kick`. -/
def loadsFailed (s : OnnxRunner α) : Bool :=
  match s.main with
  | .loadFailed _ => true
  | _ => false

/-- The input buffer holds a window. -/
def Holds [Zero α] (s : OnnxRunner α) (window : List α) : Prop := ∀ i < modelWindowSamples, s.inputBuf i = window.getD i 0

end OnnxRunner

open OnnxRunner

namespace Tick

/-- The cadence gate said evaluate, and there is a window for a runner that is ready. -/
structure Due (u : Tick α) : Prop where
  pc : u.pc = .loadReady
  haveWindow : u.haveWindow = true
  ready : u.runner.ready = true
  healthy : u.runner.hardFailed = false

/-- The events end the tick. -/
structure Finishes [Zero α] (u : Tick α) (es : List (TickEvent α)) (v : Tick α) : Prop where
  run : execute next u es = some v
  within : Along next (fun s _ => s.pc ≠ .start) u es
  pc : v.pc = .start

/-- `kick` called `RunAsync` on the window of the tick. -/
structure Runs [Zero α] (u v : Tick α) : Prop where
  launched : v.runner.launched = u.runner.launched + 1
  holds : v.runner.Holds u.window

/-- `droppedWindows` went up by one. -/
def Drops (u v : Tick α) : Prop := v.droppedWindows = u.droppedWindows + 1

/-- The window was run, and nothing was dropped. -/
structure Started [Zero α] (u v : Tick α) : Prop where
  runs : Runs u v
  dropped : v.droppedWindows = u.droppedWindows

/-- The window was counted, and nothing was run. -/
structure Counted (u v : Tick α) : Prop where
  launched : v.runner.launched = u.runner.launched
  drops : Drops u v

/-- The window was neither run nor counted. -/
structure Neither (u v : Tick α) : Prop where
  launched : v.runner.launched = u.runner.launched
  dropped : v.droppedWindows = u.droppedWindows

/-- An inference that was in flight at the first load of `inFlight` still is at the second one, and no failure comes
before `kick` loads `hardFailed`. -/
def InStep (s : Tick α) : TickEvent α → Prop
  | .main _ _ =>
    (s.pc = .drop → s.runner.running = true) ∧
      (s.pc = .kicking → s.runner.loadsFailed = true → s.runner.hardFailed = false)
  | _ => True

instance (s : Tick α) (e : TickEvent α) : Decidable (InStep s e) :=
  match e with
  | .main _ _ => inferInstanceAs (Decidable (_ ∧ _))
  | .begin _ _ _ | .poll _ | .write _ _ | .complete _ _ | .worker _ _ => inferInstanceAs (Decidable True)

variable [Zero α] {s t u v : Tick α} {e : TickEvent α}

/-! ## The calls of the analysis thread -/

/-- The runner's calls at the positions of the tick, whatever is flagged. -/
structure Calls (s : Tick α) : Prop where
  runner : s.runner.Inv
  call : match s.pc with
    | .harvesting => s.runner.reading = true
    | .kicking => s.runner.reading = false ∧ s.runner.jobs = []
    | _ => s.runner.idle = true

omit [Zero α] in
theorem Calls.with (hc : Calls s) : CallsWith (fun _ => True) s := by
  obtain ⟨-, hcall⟩ := hc
  unfold CallsWith
  cases hpc : s.pc <;> rw [hpc] at hcall
  case kicking => exact ⟨hcall.1, hcall.2, trivial⟩
  all_goals exact hcall

/-- The window is on its way to `RunAsync` or to the second load of `inFlight`. -/
structure Pending (u s : Tick α) : Prop where
  runner : s.runner.Inv
  ready : s.runner.ready = true
  haveWindow : s.haveWindow = true
  window : s.window = u.window
  neither : Neither u s
  call : match s.pc with
    | .loadReady | .loadInFlight | .drop => s.runner.idle = true
    | .kicking =>
      match s.runner.main with
      | .loadFailed window | .loadRunning window => s.runner.jobs = [] ∧ window = u.window
      | .copy window => window = u.window
      | .clearReady | .setRunning | .stamp | .runAsync => s.runner.Holds u.window
      | _ => False
    | _ => False

theorem Due.pending (hu : u.Due) (hc : Calls u) : Pending u u := by
  obtain ⟨hi, hcall⟩ := hc
  rw [hu.pc] at hcall
  refine ⟨hi, hu.ready, hu.haveWindow, rfl, ⟨rfl, rfl⟩, ?_⟩
  rw [hu.pc]
  exact hcall

theorem copyWindow_holds {inputBuf : Mem α} {window : List α} {i : Nat} (hi : i < modelWindowSamples) :
    copyWindow inputBuf window i = window.getD i 0 := if_pos hi

/-- `RunAsync` was called; if it threw, `kick` is not over. -/
structure Launched (u s : Tick α) : Prop where
  runner : s.runner.Inv
  started : Started u s
  call : match s.pc with
    | .start => True
    | .kicking =>
      match s.runner.main with
      | .catchRunning | .catchFailed => True
      | _ => False
    | _ => False

/-- Where a step takes a pending window: on, or out of the tick. -/
inductive Outcome (u s : Tick α) (e : TickEvent α) (t : Tick α) : Prop
  | pending (hin : InStep s e) (h : Pending u t)
  | launched (hin : InStep s e) (h : Launched u t)
  | counted (hin : InStep s e) (hpc : t.pc = .start) (h : Counted u t)
  | lost (hout : ¬InStep s e) (hpc : t.pc = .start) (h : Neither u t)

omit [Zero α] in
/-- The condition on the accesses in `kick`. -/
theorem inStep_kicking {now : Int} {accepted : Bool} (hpc : s.pc = .kicking)
    (hload : s.runner.loadsFailed = true → s.runner.hardFailed = false) : InStep s (.main now accepted) := by
  refine ⟨fun hdrop => ?_, fun _ => hload⟩
  rw [hpc] at hdrop
  cases hdrop

/-- An access in `kick` on a pending window. -/
theorem Pending.kicking {now : Int} {accepted : Bool} (hp : Pending u s) (hpc : s.pc = .kicking)
    (h : s.mainNext now accepted = some t) : Outcome u s (.main now accepted) t := by
  obtain ⟨hi, hready, hwin, hwindow, ⟨hlaunched, hdropped⟩, hcall⟩ := hp
  rw [hpc] at hcall
  simp only [mainNext, hpc] at h
  obtain ⟨r, hr, rfl⟩ := Option.map_eq_some_iff.1 h
  have hr' := mainStep_inv hi hr
  have hmain := hi.main
  have hlater : s.runner.loadsFailed = false → InStep s (.main now accepted) := by
    intro hload
    refine inStep_kicking hpc fun hload' => ?_
    rw [hload] at hload'
    cases hload'
  unfold loadsFailed at hlater
  unfold mainInv at hmain
  unfold mainStep at hr
  cases hm : s.runner.main <;> rw [hm] at hcall hmain hr hlater
  case idle | catchRunning | catchFailed | loadScore => exact hcall.elim
  case loadFailed window =>
    cases hr
    by_cases hf : s.runner.hardFailed = true
    · rw [if_pos hf]
      refine .lost (fun hin => ?_) rfl ⟨hlaunched, hdropped⟩
      have hload := hin.2 hpc (by rw [loadsFailed, hm])
      rw [hf] at hload
      cases hload
    · rw [if_neg hf] at hr' ⊢
      exact .pending (inStep_kicking hpc fun _ => by simpa using hf)
        ⟨hr', hready, hwin, hwindow, ⟨hlaunched, hdropped⟩, hcall⟩
  case loadRunning window =>
    cases hr
    -- no job is left since the first load of `inFlight`
    have hrun : ¬s.runner.running = true := by rw [hmain, hcall.1]; simp
    rw [if_neg hrun] at hr' ⊢
    exact .pending (hlater rfl) ⟨hr', hready, hwin, hwindow, ⟨hlaunched, hdropped⟩, hcall.2⟩
  case copy window =>
    cases hr
    refine .pending (hlater rfl) ⟨hr', hready, hwin, hwindow, ⟨hlaunched, hdropped⟩, fun i hi => ?_⟩
    rw [← hcall]
    exact copyWindow_holds hi
  case clearReady =>
    cases hr
    exact .pending (hlater rfl) ⟨hr', hready, hwin, hwindow, ⟨hlaunched, hdropped⟩, hcall⟩
  case setRunning =>
    cases hr
    exact .pending (hlater rfl) ⟨hr', hready, hwin, hwindow, ⟨hlaunched, hdropped⟩, hcall⟩
  case stamp =>
    cases hr
    exact .pending (hlater rfl) ⟨hr', hready, hwin, hwindow, ⟨hlaunched, hdropped⟩, hcall⟩
  case runAsync =>
    dsimp only at hr
    split at hr <;> cases hr
    · exact .launched (hlater rfl) ⟨hr', ⟨⟨congrArg (· + 1) hlaunched, hcall⟩, hdropped⟩, trivial⟩
    · exact .launched (hlater rfl) ⟨hr', ⟨⟨congrArg (· + 1) hlaunched, hcall⟩, hdropped⟩, trivial⟩

/-- An access of the analysis thread on a pending window. -/
theorem Pending.mainNext {now : Int} {accepted : Bool} (hp : Pending u s) (h : s.mainNext now accepted = some t) :
    Outcome u s (.main now accepted) t := by
  by_cases hpc : s.pc = .kicking
  · exact hp.kicking hpc h
  obtain ⟨hi, hready, hwin, hwindow, ⟨hlaunched, hdropped⟩, hcall⟩ := hp
  have hother : s.pc ≠ .drop → InStep s (.main now accepted) :=
    fun hne => ⟨fun hd => absurd hd hne, fun hk => absurd hk hpc⟩
  simp only [Tick.mainNext] at h
  split at h <;> rename_i hpc' <;> rw [hpc'] at hcall hother
  · cases h
  · cases h
  · exact hcall.elim
  · exact hcall.elim
  · cases h
    refine .pending (hother (by decide)) ⟨hi, hready, hwin, hwindow, ⟨hlaunched, hdropped⟩, ?_⟩
    cases s.runner.ready && !s.runner.hardFailed <;> exact hcall
  · split at h
    · rename_i hcond
      rw [Bool.and_eq_true, Bool.not_eq_true'] at hcond
      obtain ⟨r, hr, rfl⟩ := Option.map_eq_some_iff.1 h
      have hr' := OnnxRunner.next_inv hi hr
      obtain ⟨-, rfl⟩ := next_kick hr
      have hjobs : s.runner.jobs = [] := jobs_of_idle hi hcall hcond.1
      rw [if_pos hready] at hr' ⊢
      exact .pending (hother (by decide))
        ⟨hr', hready, hwin, hwindow, ⟨hlaunched, hdropped⟩, ⟨hjobs, hwindow⟩⟩
    · cases h
      exact .pending (hother (by decide)) ⟨hi, hready, hwin, hwindow, ⟨hlaunched, hdropped⟩, hcall⟩
  · exact absurd hpc' hpc
  · cases h
    by_cases hrun : s.runner.running = true
    · refine .counted ⟨fun _ => hrun, fun hk => absurd hk hpc⟩ rfl ⟨hlaunched, ?_⟩
      rw [Drops, if_pos hrun, hdropped]
    · refine .lost (fun hin => hrun (hin.1 hpc')) rfl ⟨hlaunched, ?_⟩
      rw [if_neg hrun, hdropped]

/-- What the runtime and its worker leave alone. -/
theorem ort_frame {r r' : OnnxRunner α} {e : RunnerEvent α}
    (he : ∃ j, (∃ buf, e = .write j buf) ∨ (∃ ok, e = .complete j ok) ∨ ∃ now, e = .worker j now)
    (h : r.next e = some r') : r'.ready = r.ready ∧ r'.launched = r.launched := by
  obtain ⟨j, ⟨buf, rfl⟩ | ⟨ok, rfl⟩ | ⟨now, rfl⟩⟩ := he
  · obtain ⟨_, -, rfl⟩ := next_write h
    exact ⟨rfl, rfl⟩
  · obtain ⟨_, -, rfl⟩ := next_complete h
    split <;> exact ⟨rfl, rfl⟩
  · obtain ⟨job, -, h⟩ := next_worker h
    unfold workerStep at h
    split at h <;> cases h <;> exact ⟨rfl, rfl⟩

/-- Under `kick` there is no job for the runtime and its worker. -/
theorem Pending.pc_of_job (hp : Pending u s) (hne : s.runner.jobs ≠ []) :
    s.pc ≠ .kicking ∧ s.runner.idle = true := by
  have hcall := hp.call
  have hmain := hp.runner.main
  unfold mainInv at hmain
  cases hpc : s.pc <;> rw [hpc] at hcall
  case loadReady | loadInFlight | drop => exact ⟨nofun, hcall⟩
  case kicking =>
    cases hm : s.runner.main <;> rw [hm] at hcall hmain
    case loadFailed | loadRunning => exact absurd hcall.1 hne
    case copy | clearReady | setRunning | stamp | runAsync => exact absurd hmain.1 hne
    all_goals exact hcall.elim
  all_goals exact hcall.elim

/-- The runtime and its worker leave the window pending. -/
theorem Pending.ort {e : RunnerEvent α}
    (he : ∃ j, (∃ buf, e = .write j buf) ∨ (∃ ok, e = .complete j ok) ∨ ∃ now, e = .worker j now)
    (hp : Pending u s) (h : s.ort e = some t) : Pending u t := by
  obtain ⟨r, hr, rfl⟩ := Option.map_eq_some_iff.1 h
  obtain ⟨hmain, hne⟩ := ort_main he hr
  obtain ⟨hready, hlaunched⟩ := ort_frame he hr
  obtain ⟨hpc, hidle⟩ := hp.pc_of_job hne
  have hidle' : r.idle = true := by rwa [OnnxRunner.idle, hmain]
  have hcall := hp.call
  refine ⟨OnnxRunner.next_inv hp.runner hr, hready.trans hp.ready, hp.haveWindow, hp.window,
    ⟨hlaunched.trans hp.neither.launched, hp.neither.dropped⟩, ?_⟩
  dsimp only
  cases hpc' : s.pc <;> rw [hpc'] at hcall hpc
  case loadReady | loadInFlight | drop => exact hidle'
  case kicking => exact absurd rfl hpc
  all_goals exact hcall.elim

/-- **A step of the tick** on a pending window. -/
theorem Pending.next (hp : Pending u s) (h : s.next e = some t) : Outcome u s e t := by
  cases e with
  | begin haveWindow sound window =>
    have hcall := hp.call
    simp only [Tick.next] at h
    split at h <;> cases h
    rename_i hpc
    rw [hpc] at hcall
    exact hcall.elim
  | poll evaluate =>
    have hcall := hp.call
    simp only [Tick.next] at h
    split at h <;> cases h
    rename_i hpc
    rw [hpc] at hcall
    exact hcall.elim
  | main now accepted => exact hp.mainNext h
  | write j outputBuf => exact .pending trivial (hp.ort ⟨j, Or.inl ⟨_, rfl⟩⟩ h)
  | complete j ok => exact .pending trivial (hp.ort ⟨j, Or.inr (Or.inl ⟨_, rfl⟩)⟩ h)
  | worker j now => exact .pending trivial (hp.ort ⟨j, Or.inr (Or.inr ⟨_, rfl⟩)⟩ h)

/-- There is no job for the runtime and its worker. -/
theorem ort_eq_none {e : RunnerEvent α}
    (he : ∃ j, (∃ buf, e = .write j buf) ∨ (∃ ok, e = .complete j ok) ∨ ∃ now, e = .worker j now)
    (hjobs : s.runner.jobs = []) : s.ort e = none := by
  rw [Tick.ort, Option.map_eq_none_iff]
  by_contra hne
  obtain ⟨r, hr⟩ := Option.ne_none_iff_exists'.1 hne
  exact (ort_main he hr).2 hjobs

/-- What is left of `kick` after `RunAsync` threw. -/
theorem Launched.next (hl : Launched u s) (hpc : s.pc ≠ .start) (h : s.next e = some t) :
    InStep s e ∧ Launched u t := by
  obtain ⟨hi, ⟨⟨hlaunched, hholds⟩, hdropped⟩, hcall⟩ := hl
  have hkicking : s.pc = .kicking := by
    cases hpc' : s.pc <;> rw [hpc'] at hcall
    case start => exact absurd hpc' hpc
    all_goals exact hcall.elim
  rw [hkicking] at hcall
  have hmain := hi.main
  unfold mainInv at hmain
  have hjobs : s.runner.jobs = [] := by
    cases hm : s.runner.main <;> rw [hm] at hcall hmain
    case catchRunning | catchFailed => exact hmain.1
    all_goals exact hcall.elim
  cases e with
  | begin haveWindow sound window => simp [Tick.next, hkicking] at h
  | poll evaluate => simp [Tick.next, hkicking] at h
  | main now accepted =>
    simp only [Tick.next, Tick.mainNext, hkicking] at h
    obtain ⟨r, hr, rfl⟩ := Option.map_eq_some_iff.1 h
    have hr' := mainStep_inv hi hr
    unfold mainStep at hr
    refine ⟨inStep_kicking hkicking fun hload => ?_, ?_⟩
    · unfold loadsFailed at hload
      cases hm : s.runner.main <;> rw [hm] at hcall hload
      case catchRunning | catchFailed => cases hload
      all_goals exact hcall.elim
    · cases hm : s.runner.main <;> rw [hm] at hcall hr
      case catchRunning | catchFailed =>
        cases hr
        exact ⟨hr', ⟨⟨hlaunched, hholds⟩, hdropped⟩, trivial⟩
      all_goals exact hcall.elim
  | write j outputBuf => exact absurd h (by simp [Tick.next, ort_eq_none ⟨j, Or.inl ⟨_, rfl⟩⟩ hjobs])
  | complete j ok => exact absurd h (by simp [Tick.next, ort_eq_none ⟨j, Or.inr (Or.inl ⟨_, rfl⟩)⟩ hjobs])
  | worker j now => exact absurd h (by simp [Tick.next, ort_eq_none ⟨j, Or.inr (Or.inr ⟨_, rfl⟩)⟩ hjobs])

/-! ## Whole ticks -/

theorem Launched.finish {es : List (TickEvent α)} (hl : Launched u s) (h : Finishes s es v) :
    Along Tick.next InStep s es ∧ Started u v := by
  obtain ⟨hrun, hwithin, hpc⟩ := h
  induction es generalizing s with
  | nil =>
    cases hrun
    exact ⟨trivial, hl.started⟩
  | cons e es ih =>
    obtain ⟨t, ht, hrun⟩ := execute_cons_some hrun
    obtain ⟨hin, hlt⟩ := hl.next hwithin.1 ht
    rw [along_cons ht, and_assoc]
    exact ⟨hin, ih hlt hrun (hwithin.2 t ht)⟩

/-- A due window is run or counted exactly if every access of its tick is in step. -/
theorem Pending.finish {es : List (TickEvent α)} (hp : Pending u s) (h : Finishes s es v) :
    Along Tick.next InStep s es ∧ (Started u v ∨ Counted u v) ∨ ¬Along Tick.next InStep s es ∧ Neither u v := by
  obtain ⟨hrun, hwithin, hpc⟩ := h
  induction es generalizing s with
  | nil =>
    cases hrun
    have hcall := hp.call
    rw [hpc] at hcall
    exact hcall.elim
  | cons e es ih =>
    obtain ⟨t, ht, hrun⟩ := execute_cons_some hrun
    have hrest := hwithin.2 t ht
    -- a tick that ended has no further step
    have hend : t.pc = .start → es = [] ∧ v = t := by
      intro hstart
      cases es with
      | nil => exact ⟨rfl, (Option.some.inj hrun).symm⟩
      | cons e' es => exact absurd hstart hrest.1
    rw [along_cons ht]
    cases hp.next ht with
    | pending hin hp =>
      exact (ih hp hrun hrest).imp (fun hd => ⟨⟨hin, hd.1⟩, hd.2⟩) fun hl => ⟨fun ha => hl.1 ha.2, hl.2⟩
    | launched hin hl =>
      obtain ⟨halong, hstarted⟩ := hl.finish ⟨hrun, hrest, hpc⟩
      exact .inl ⟨⟨hin, halong⟩, .inl hstarted⟩
    | counted hin hstart hc =>
      obtain ⟨rfl, rfl⟩ := hend hstart
      exact .inl ⟨⟨hin, trivial⟩, .inr hc⟩
    | lost hout hstart hn =>
      obtain ⟨rfl, rfl⟩ := hend hstart
      exact .inr ⟨fun ha => hout ha.1, hn⟩

end Tick

open Tick

variable [Zero α]

end Bajiru.Linkjiru
