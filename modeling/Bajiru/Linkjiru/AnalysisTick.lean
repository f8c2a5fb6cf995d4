import Bajiru.Linkjiru.OnnxRunner

/-!
# A tick of `AnalysisThread::run` and the runner

The part of a tick that uses the runner, against the worker: `tryHarvest`, the poll of the cadence gate, the loads of
`isReady` and `inFlight`, `kick`, or the dropped window. The window, the silence gate and the cadence gate are the
environment.

`kick` clears `resultReady`. A result that completes after `tryHarvest` and before the load of `inFlight` is then lost;
when nothing is waiting at that load, every counted inference is harvested or still waiting (`results_kept`).
-/

namespace Bajiru.Linkjiru

variable {α : Type*}

namespace OnnxRunner

/-- The analysis thread is in no call. -/
def idle (s : OnnxRunner α) : Bool :=
  match s.main with
  | .idle => true
  | _ => false

/-- The analysis thread is in the loop of `tryHarvest`. -/
def reading (s : OnnxRunner α) : Bool :=
  match s.main with
  | .loadScore _ => true
  | _ => false

/-- The counted inferences that are not harvested: one that is flagged or being read, or one about to be flagged. -/
def waiting (s : OnnxRunner α) : List Nat :=
  (if s.resultReady || s.reading then [s.published] else []) ++ (s.jobs.filter (·.pc = .publish)).map Job.id

end OnnxRunner

open OnnxRunner

/-- Where the tick is. -/
inductive TickPc
  | start
  | harvest
  | harvesting
  | poll
  | loadReady
  | loadInFlight
  | kicking
  | drop
  deriving DecidableEq

/-- The runner and the tick: the window of this tick, whether it was coherent, and `droppedWindows`. -/
structure Tick (α : Type*) where
  runner : OnnxRunner α
  pc : TickPc
  haveWindow : Bool
  window : List α
  droppedWindows : UInt64

/-- A tick begins with a snapshot and the answer of the silence gate, the cadence gate answers, the analysis thread goes
on to its next access, or the runtime and its worker do. -/
inductive TickEvent (α : Type*)
  | begin (haveWindow sound : Bool) (window : List α)
  | poll (evaluate : Bool)
  | main (now : Int) (accepted : Bool)
  | write (job : Nat) (outputBuf : Mem α)
  | complete (job : Nat) (ok : Bool)
  | worker (job : Nat) (now : Int)

namespace Tick

/-- A thread whose runner was prepared. -/
def launch [Zero α] (built : Bool) : Tick α := ⟨prepared built, .start, false, [], 0⟩

/-- The runner after an access inside a call; the tick goes on to `ret` when the call returns. -/
def within (s : Tick α) (pc ret : TickPc) (runner : OnnxRunner α) : Tick α :=
  { s with runner := runner, pc := if runner.idle then ret else pc }

/-- The next access of the analysis thread. -/
def mainNext [Zero α] (s : Tick α) (now : Int) (accepted : Bool) : Option (Tick α) :=
  match s.pc with
  | .start | .poll => none
  | .harvest => (s.runner.next .tryHarvest).map (s.within .harvesting .poll)
  | .harvesting => (s.runner.mainStep now accepted).map (s.within .harvesting .poll)
  | .loadReady => some { s with pc := if s.runner.ready && !s.runner.hardFailed then .loadInFlight else .drop }
  | .loadInFlight =>
    if !s.runner.running && s.haveWindow then (s.runner.next (.kick s.window)).map (s.within .kicking .start)
    else some { s with pc := .drop }
  | .kicking => (s.runner.mainStep now accepted).map (s.within .kicking .start)
  | .drop =>
    some { s with
      pc := .start
      droppedWindows := if s.runner.running then s.droppedWindows + 1 else s.droppedWindows }

/-- The runtime or its worker. -/
def ort [Zero α] (s : Tick α) (e : RunnerEvent α) : Option (Tick α) :=
  (s.runner.next e).map fun runner => { s with runner := runner }

/-- One step. -/
def next [Zero α] (s : Tick α) : TickEvent α → Option (Tick α)
  | .begin haveWindow sound window =>
    match s.pc with
    | .start => some { s with haveWindow := haveWindow, window := window, pc := if sound then .harvest else .start }
    | _ => none
  | .poll evaluate =>
    match s.pc with
    | .poll => some { s with pc := if evaluate then .loadReady else .start }
    | _ => none
  | .main now accepted => s.mainNext now accepted
  | .write j outputBuf => s.ort (.write j outputBuf)
  | .complete j ok => s.ort (.complete j ok)
  | .worker j now => s.ort (.worker j now)

end Tick

/-! ## Accounting for the counted inferences -/

namespace OnnxRunner

variable {s s' : OnnxRunner α}

/-- `inferenceCounter` counts the inferences that are harvested or waiting, the oldest first. -/
structure Accounted (s : OnnxRunner α) : Prop where
  counter : s.inferenceCounter.toNat = s.counted.length % 2 ^ 64
  counted : s.counted = s.harvested.map Prod.fst ++ s.waiting

/-- While a job is at work, nothing is flagged or being read. -/
theorem Inv.not_flagged (hi : Inv s) {job : Job} (hj : s.jobs = [job]) (hpc : job.pc ≠ .clearRunning) :
    (s.resultReady || s.reading) = false := by
  have hmem : job ∈ s.jobs := by simp [hj]
  have hmain := hi.main
  unfold mainInv at hmain
  rw [Bool.or_eq_false_iff]
  constructor
  · by_contra hr
    exact hpc ((hi.ready (by simpa using hr)).settled job hmem)
  · unfold reading
    cases hm : s.main <;> rw [hm] at hmain
    case loadScore out5 => exact absurd (hmain.2.2.2.2.settled job hmem) hpc

/-- The analysis thread loses no counted inference, if it clears no flagged result. -/
theorem mainStep_accounted [Zero α] {now : Int} {accepted : Bool} (hi : Inv s) (ha : Accounted s)
    (hclear : s.main = .clearReady → s.resultReady = false) (h : s.mainStep now accepted = some s') :
    Accounted s' := by
  obtain ⟨hcnt, hcounted⟩ := ha
  have hmain := hi.main
  unfold mainInv at hmain
  unfold mainStep at h
  unfold waiting reading at hcounted
  split at h <;> rename_i hm <;> rw [hm] at hmain hcounted
  · cases h
  · cases h
    refine ⟨hcnt, ?_⟩
    unfold waiting reading
    cases s.hardFailed <;> simpa using hcounted
  · cases h
    refine ⟨hcnt, ?_⟩
    unfold waiting reading
    by_cases hr : s.running = true
    · simpa [hr] using hcounted
    · simpa [hr] using hcounted
  · cases h
    exact ⟨hcnt, hcounted⟩
  · cases h
    rw [hclear hm] at hcounted
    exact ⟨hcnt, hcounted⟩
  · cases h
    exact ⟨hcnt, hcounted⟩
  · cases h
    exact ⟨hcnt, hcounted⟩
  · split at h <;> cases h
    · refine ⟨hcnt, ?_⟩
      unfold waiting reading
      simpa [List.filter_append] using hcounted
    · exact ⟨hcnt, hcounted⟩
  · cases h
    exact ⟨hcnt, hcounted⟩
  · cases h
    exact ⟨hcnt, hcounted⟩
  · rename_i out5
    obtain ⟨-, hres, -, -, hfresh⟩ := hmain
    have hnone : s.jobs.filter (·.pc = .publish) = [] := by
      rw [List.filter_eq_nil_iff]
      intro job hj
      rw [hfresh.settled job hj]
      decide
    rw [hnone] at hcounted
    dsimp only at h
    split at h <;> cases h
    · refine ⟨hcnt, ?_⟩
      unfold waiting reading
      simpa [hnone] using hcounted
    · refine ⟨hcnt, ?_⟩
      unfold waiting reading
      simpa [hnone, hres] using hcounted

/-- A worker counts its inference before it flags it. -/
theorem workerStep_accounted {j : Nat} {job : Job} {now : Int} (hi : Inv s) (ha : Accounted s)
    (hj : s.jobs[j]? = some job) (h : s.workerStep j job now = some s') : Accounted s' := by
  obtain ⟨rfl, hjobs⟩ := hi.jobs_eq hj
  obtain ⟨hcnt, hcounted⟩ := ha
  obtain ⟨id, pc⟩ := job
  unfold waiting at hcounted
  rw [hjobs] at hcounted
  unfold workerStep at h
  dsimp only at h
  split at h <;> cases h <;> simp only [goto_one hjobs, done_one hjobs]
  · exact ⟨hcnt, hcounted⟩
  · exact ⟨hcnt, hcounted⟩
  · refine ⟨hcnt, ?_⟩
    unfold waiting
    split <;> exact hcounted
  · exact ⟨hcnt, hcounted⟩
  · exact ⟨hcnt, hcounted⟩
  · have hnone := hi.not_flagged hjobs nofun
    rw [hnone] at hcounted
    refine ⟨?_, ?_⟩
    · rw [UInt64.toNat_add, hcnt, List.length_append, UInt64.toNat_one, Nat.mod_add_mod]
      rfl
    · have hread : s.reading = false := (Bool.or_eq_false_iff.1 hnone).2
      have hres : s.resultReady = false := (Bool.or_eq_false_iff.1 hnone).1
      unfold waiting reading
      unfold reading at hread
      simpa [hres, hread] using hcounted
  · have hnone := hi.not_flagged hjobs nofun
    rw [hnone] at hcounted
    refine ⟨hcnt, ?_⟩
    unfold waiting
    simpa using hcounted
  · exact ⟨hcnt, hcounted⟩

/-- Every step accounts for the counted inferences, if `kick` clears no flagged result. -/
theorem next_accounted [Zero α] {e : RunnerEvent α} (hi : Inv s) (ha : Accounted s)
    (hclear : s.main = .clearReady → s.resultReady = false) (h : s.next e = some s') : Accounted s' := by
  cases e with
  | kick window =>
    obtain ⟨hm, rfl⟩ := next_kick h
    split
    · obtain ⟨hcnt, hcounted⟩ := ha
      unfold waiting reading at hcounted
      rw [hm] at hcounted
      exact ⟨hcnt, hcounted⟩
    · exact ha
  | tryHarvest =>
    obtain ⟨-, rfl⟩ := next_tryHarvest h
    split
    · rename_i hready
      obtain ⟨hcnt, hcounted⟩ := ha
      unfold waiting at hcounted
      rw [hready] at hcounted
      exact ⟨hcnt, hcounted⟩
    · exact ha
  | main now accepted => exact mainStep_accounted hi ha hclear h
  | write j outputBuf =>
    obtain ⟨-, -, rfl⟩ := next_write h
    exact ⟨ha.counter, ha.counted⟩
  | complete j ok =>
    obtain ⟨id, hj, rfl⟩ := next_complete h
    obtain ⟨rfl, hjobs⟩ := hi.jobs_eq hj
    obtain ⟨hcnt, hcounted⟩ := ha
    unfold waiting at hcounted
    rw [hjobs] at hcounted
    simp only [goto_one hjobs]
    split <;> exact ⟨hcnt, hcounted⟩
  | worker j now =>
    obtain ⟨job, hj, h⟩ := next_worker h
    exact workerStep_accounted hi ha hj h

/-- At most one inference waits, and it is newer than every harvest. -/
theorem Inv.waiting_cases (hi : Inv s) : s.waiting = [] ∨ ∃ id, s.waiting = [id] ∧ ∀ h ∈ s.harvested, h.1 < id := by
  unfold waiting
  by_cases hflag : (s.resultReady || s.reading) = true
  · have hf : Fresh s.results s.published s.launched s.classScore s.harvested s.jobs := by
      rcases Bool.or_eq_true_iff.1 hflag with hr | hr
      · exact hi.ready hr
      · have hmain := hi.main
        unfold mainInv at hmain
        unfold reading at hr
        cases hm : s.main <;> rw [hm] at hmain hr
        case loadScore out5 => exact hmain.2.2.2.2
        all_goals cases hr
    have hnone : s.jobs.filter (·.pc = .publish) = [] := by
      rw [List.filter_eq_nil_iff]
      intro job hj
      rw [hf.settled job hj]
      decide
    rw [if_pos hflag, hnone]
    exact Or.inr ⟨s.published, rfl, hf.newer⟩
  · rw [if_neg hflag, List.nil_append]
    have hone := hi.one
    match hjobs : s.jobs with
    | [] => exact Or.inl rfl
    | [job] =>
      by_cases hpc : job.pc = .publish
      · exact Or.inr ⟨job.id, by simp [hpc], hi.older job (by simp [hjobs]) (by rw [hpc]; nofun)⟩
      · exact Or.inl (by simp [hpc])
    | _ :: _ :: _ => simp [hjobs] at hone

/-- The counted inferences are different ones. -/
theorem Inv.nodup (hi : Inv s) : (s.harvested.map Prod.fst ++ s.waiting).Nodup := by
  have hord : (s.harvested.map Prod.fst).Nodup :=
    (List.pairwise_map.2 hi.order).imp fun hlt => Nat.ne_of_lt hlt
  rcases hi.waiting_cases with hw | ⟨id, hw, hnew⟩
  · rw [hw, List.append_nil]
    exact hord
  · rw [hw, List.nodup_append]
    refine ⟨hord, List.pairwise_singleton _ _, fun a ha b hb => ?_⟩
    obtain ⟨p, hp, rfl⟩ := List.mem_map.1 ha
    rw [List.mem_singleton.1 hb]
    exact Nat.ne_of_lt (hnew p hp)

end OnnxRunner

/-! ## Ticks -/

namespace Tick

variable {s s' : Tick α}

/-- When the tick reads `inFlight` as false and goes on to `kick`, no result is flagged. -/
def NothingFlagged (s : Tick α) : TickEvent α → Prop
  | .main _ _ => s.pc = .loadInFlight → s.haveWindow = true → s.runner.running = false → s.runner.resultReady = false
  | _ => True

instance (s : Tick α) (e : TickEvent α) : Decidable (NothingFlagged s e) :=
  match e with
  | .main _ _ => inferInstanceAs (Decidable (s.pc = .loadInFlight → s.haveWindow = true → s.runner.running = false →
      s.runner.resultReady = false))
  | .begin _ _ _ | .poll _ | .write _ _ | .complete _ _ | .worker _ _ => inferInstanceAs (Decidable True)

/-- The runner's calls at the positions of the tick. -/
def callInv (s : Tick α) : Prop :=
  match s.pc with
  | .harvesting => s.runner.reading = true
  | .kicking => s.runner.reading = false ∧ s.runner.jobs = [] ∧ s.runner.resultReady = false
  | _ => s.runner.idle = true

/-- What the ticks keep. -/
structure Inv (s : Tick α) : Prop where
  runner : s.runner.Inv
  call : s.callInv
  accounted : s.runner.Accounted

theorem inv_launch [Zero α] (built : Bool) : Inv (launch built : Tick α) where
  runner := inv_prepared built
  call := rfl
  accounted := ⟨rfl, by simp [launch, prepared, waiting, reading]⟩

/-- `kick` clears no flagged result. -/
theorem Inv.clear (hi : Inv s) (hm : s.runner.main = .clearReady) : s.runner.resultReady = false := by
  have hcall := hi.call
  unfold callInv reading idle at hcall
  rw [hm] at hcall
  split at hcall
  · cases hcall
  · exact hcall.2.2
  · cases hcall

/-- An access inside `tryHarvest` stays in its loop or returns. -/
theorem mainStep_reading [Zero α] {r r' : OnnxRunner α} {now : Int} {accepted : Bool} (hr : r.reading = true)
    (h : r.mainStep now accepted = some r') : r'.idle = true ∨ r'.reading = true := by
  unfold reading at hr
  unfold mainStep at h
  split at h <;> rename_i hm <;> rw [hm] at hr
  case h_11 =>
    dsimp only at h
    split at h <;> cases h
    · exact Or.inr rfl
    · exact Or.inl rfl
  all_goals cases hr

/-- An access inside `kick` stays in it, with no job, or returns. -/
theorem mainStep_jobs [Zero α] {r r' : OnnxRunner α} {now : Int} {accepted : Bool} (hread : r.reading = false)
    (hjobs : r.jobs = []) (h : r.mainStep now accepted = some r') :
    r'.idle = true ∨ (r'.reading = false ∧ r'.jobs = []) := by
  unfold mainStep at h
  split at h
  · cases h
  · cases h
    cases r.hardFailed
    · exact Or.inr ⟨rfl, hjobs⟩
    · exact Or.inl rfl
  · cases h
    cases r.running
    · exact Or.inr ⟨rfl, hjobs⟩
    · exact Or.inl rfl
  · cases h; exact Or.inr ⟨rfl, hjobs⟩
  · cases h; exact Or.inr ⟨rfl, hjobs⟩
  · cases h; exact Or.inr ⟨rfl, hjobs⟩
  · cases h; exact Or.inr ⟨rfl, hjobs⟩
  · split at h <;> cases h
    · exact Or.inl rfl
    · exact Or.inr ⟨rfl, hjobs⟩
  · cases h; exact Or.inr ⟨rfl, hjobs⟩
  · cases h; exact Or.inl rfl
  · rename_i hm
    rw [reading, hm] at hread
    cases hread

/-- The analysis thread flags no result. -/
theorem mainStep_resultReady [Zero α] {r r' : OnnxRunner α} {now : Int} {accepted : Bool}
    (hres : r.resultReady = false) (h : r.mainStep now accepted = some r') : r'.resultReady = false := by
  unfold mainStep at h
  split at h
  case h_1 => cases h
  case h_5 => cases h; rfl
  case h_8 => split at h <;> cases h <;> exact hres
  case h_11 => dsimp only at h; split at h <;> cases h <;> exact hres
  all_goals cases h; exact hres

/-- What the runtime and its worker do needs a job and does not move the analysis thread. -/
theorem ort_main [Zero α] {r r' : OnnxRunner α} {e : RunnerEvent α}
    (he : ∃ j, (∃ buf, e = .write j buf) ∨ (∃ ok, e = .complete j ok) ∨ ∃ now, e = .worker j now)
    (h : r.next e = some r') : r'.main = r.main ∧ r.jobs ≠ [] := by
  obtain ⟨j, ⟨buf, rfl⟩ | ⟨ok, rfl⟩ | ⟨now, rfl⟩⟩ := he
  · obtain ⟨_, hj, rfl⟩ := next_write h
    exact ⟨rfl, List.ne_nil_of_mem (List.mem_of_getElem? hj)⟩
  · obtain ⟨_, hj, rfl⟩ := next_complete h
    refine ⟨?_, List.ne_nil_of_mem (List.mem_of_getElem? hj)⟩
    split <;> rfl
  · obtain ⟨_, hj, h⟩ := next_worker h
    exact ⟨(workerStep_main h).1, List.ne_nil_of_mem (List.mem_of_getElem? hj)⟩

theorem within_idle {r : OnnxRunner α} (hr : r.idle = true) (pc ret : TickPc) :
    s.within pc ret r = { s with runner := r, pc := ret } := by rw [Tick.within, if_pos hr]

theorem within_busy {r : OnnxRunner α} (hr : r.idle = false) (pc ret : TickPc) :
    s.within pc ret r = { s with runner := r, pc := pc } := by rw [Tick.within, if_neg (by simp [hr])]

/-- `tryHarvest` takes the flagged result or returns at once. -/
theorem tryHarvest_cases [Zero α] {r r' : OnnxRunner α} (hr : r.idle = true) (h : r.next .tryHarvest = some r') :
    r'.idle = true ∨ r'.reading = true := by
  obtain ⟨-, rfl⟩ := next_tryHarvest h
  split
  · exact Or.inr rfl
  · exact Or.inl hr

/-- `kick` goes on to its first load or returns at once. -/
theorem kick_cases [Zero α] {r r' : OnnxRunner α} {window : List α} (hr : r.idle = true)
    (h : r.next (.kick window) = some r') :
    r'.idle = true ∨ (r'.reading = false ∧ r'.jobs = r.jobs ∧ r'.resultReady = r.resultReady) := by
  obtain ⟨-, rfl⟩ := next_kick h
  split
  · exact Or.inr ⟨rfl, rfl, rfl⟩
  · exact Or.inl hr

/-- With the thread in no call and `running` clear there is no job. -/
theorem jobs_of_idle {r : OnnxRunner α} (hi : r.Inv) (hr : r.idle = true) (hrun : r.running = false) : r.jobs = [] := by
  have hmain := hi.main
  unfold OnnxRunner.idle at hr
  split at hr
  · rename_i hm
    rw [mainInv, hm, hrun] at hmain
    exact List.isEmpty_iff.1 (by simpa using hmain)
  · cases hr

/-- The runner's calls at the positions of the tick; inside `kick` the runner has `P`. -/
def CallsWith (P : OnnxRunner α → Prop) (s : Tick α) : Prop :=
  match s.pc with
  | .harvesting => s.runner.reading = true
  | .kicking => s.runner.reading = false ∧ s.runner.jobs = [] ∧ P s.runner
  | _ => s.runner.idle = true

section Calls

variable [Zero α] {P : OnnxRunner α → Prop}

omit [Zero α] in
/-- The runner's call goes on or returns. -/
theorem callsWith_within {pc ret : TickPc} {r : OnnxRunner α} (hret : ret = .poll ∨ ret = .start)
    (hbusy : r.idle = false → CallsWith P { s with runner := r, pc := pc }) : CallsWith P (s.within pc ret r) := by
  cases hidle : r.idle with
  | true =>
    rw [within_idle hidle]
    rcases hret with rfl | rfl
    · exact hidle
    · exact hidle
  | false =>
    rw [within_busy hidle]
    exact hbusy hidle

/-- An access of the analysis thread keeps to its calls. -/
theorem mainNext_callsWith {now : Int} {accepted : Bool} (hi : s.runner.Inv)
    (hP : ∀ r, P s.runner → s.runner.mainStep now accepted = some r → P r)
    (hkick : ∀ r, s.pc = .loadInFlight → s.haveWindow = true → s.runner.running = false → r.idle = false →
      s.runner.next (.kick s.window) = some r → P r)
    (hcall : CallsWith P s) (h : s.mainNext now accepted = some s') : CallsWith P s' := by
  simp only [mainNext] at h
  split at h <;> rename_i hpc <;> rw [CallsWith, hpc] at hcall
  · cases h
  · cases h
  · obtain ⟨r, hr, rfl⟩ := Option.map_eq_some_iff.1 h
    refine callsWith_within (.inl rfl) fun hbusy => ?_
    exact (tryHarvest_cases hcall hr).resolve_left (by simp [hbusy])
  · obtain ⟨r, hr, rfl⟩ := Option.map_eq_some_iff.1 h
    refine callsWith_within (.inl rfl) fun hbusy => ?_
    exact (mainStep_reading hcall hr).resolve_left (by simp [hbusy])
  · cases h
    unfold CallsWith
    cases s.runner.ready && !s.runner.hardFailed <;> exact hcall
  · split at h
    · rename_i hcond
      rw [Bool.and_eq_true, Bool.not_eq_true'] at hcond
      obtain ⟨r, hr, rfl⟩ := Option.map_eq_some_iff.1 h
      refine callsWith_within (.inr rfl) fun hbusy => ?_
      -- the load of `inFlight` saw no job
      obtain ⟨hread, hjobs, -⟩ := (kick_cases hcall hr).resolve_left (by simp [hbusy])
      exact ⟨hread, hjobs.trans (jobs_of_idle hi hcall hcond.1), hkick r hpc hcond.2 hcond.1 hbusy hr⟩
    · cases h
      exact hcall
  · obtain ⟨r, hr, rfl⟩ := Option.map_eq_some_iff.1 h
    obtain ⟨hread, hjobs, hs⟩ := hcall
    refine callsWith_within (.inr rfl) fun hbusy => ?_
    obtain ⟨hread', hjobs'⟩ := (mainStep_jobs hread hjobs hr).resolve_left (by simp [hbusy])
    exact ⟨hread', hjobs', hP r hs hr⟩
  · cases h
    exact hcall

/-- The runtime and its worker keep the analysis thread in its call. -/
theorem ort_callsWith {e : RunnerEvent α}
    (he : ∃ j, (∃ buf, e = .write j buf) ∨ (∃ ok, e = .complete j ok) ∨ ∃ now, e = .worker j now)
    (hcall : CallsWith P s) (h : s.ort e = some s') : CallsWith P s' := by
  obtain ⟨r, hr, rfl⟩ := Option.map_eq_some_iff.1 h
  obtain ⟨hmain, hne⟩ := ort_main he hr
  unfold CallsWith reading idle at hcall ⊢
  dsimp only
  rw [hmain]
  split at hcall
  · exact hcall
  · exact absurd hcall.2.1 hne
  · exact hcall

theorem next_callsWith {e : TickEvent α} (hi : s.runner.Inv)
    (hP : ∀ r now accepted, P s.runner → s.runner.mainStep now accepted = some r → P r)
    (hkick : ∀ r now accepted, e = .main now accepted → s.pc = .loadInFlight → s.haveWindow = true →
      s.runner.running = false → r.idle = false → s.runner.next (.kick s.window) = some r → P r)
    (hcall : CallsWith P s) (h : s.next e = some s') : CallsWith P s' := by
  cases e with
  | begin haveWindow sound window =>
    simp only [next] at h
    split at h <;> cases h
    rename_i hpc
    rw [CallsWith, hpc] at hcall
    cases sound <;> exact hcall
  | poll evaluate =>
    simp only [next] at h
    split at h <;> cases h
    rename_i hpc
    rw [CallsWith, hpc] at hcall
    cases evaluate <;> exact hcall
  | main now accepted => exact mainNext_callsWith hi (hP · now accepted) (hkick · now accepted rfl) hcall h
  | write j outputBuf => exact ort_callsWith ⟨j, Or.inl ⟨_, rfl⟩⟩ hcall h
  | complete j ok => exact ort_callsWith ⟨j, Or.inr (Or.inl ⟨_, rfl⟩)⟩ hcall h
  | worker j now => exact ort_callsWith ⟨j, Or.inr (Or.inr ⟨_, rfl⟩)⟩ hcall h

/-- The runner takes a step of its own, or none. -/
theorem next_runner {e : TickEvent α} (h : s.next e = some s') :
    s'.runner = s.runner ∨ ∃ e', s.runner.next e' = some s'.runner := by
  cases e with
  | begin haveWindow sound window =>
    simp only [next] at h
    split at h <;> cases h
    exact Or.inl rfl
  | poll evaluate =>
    simp only [next] at h
    split at h <;> cases h
    exact Or.inl rfl
  | main now accepted =>
    simp only [next, mainNext] at h
    split at h
    case h_1 | h_2 => cases h
    case h_3 =>
      obtain ⟨r, hr, rfl⟩ := Option.map_eq_some_iff.1 h
      exact Or.inr ⟨_, hr⟩
    case h_4 | h_7 =>
      obtain ⟨r, hr, rfl⟩ := Option.map_eq_some_iff.1 h
      exact Or.inr ⟨.main now accepted, hr⟩
    case h_5 | h_8 =>
      cases h
      exact Or.inl rfl
    case h_6 =>
      split at h
      · obtain ⟨r, hr, rfl⟩ := Option.map_eq_some_iff.1 h
        exact Or.inr ⟨_, hr⟩
      · cases h
        exact Or.inl rfl
  | write j outputBuf | complete j ok | worker j now =>
    obtain ⟨r, hr, rfl⟩ := Option.map_eq_some_iff.1 h
    exact Or.inr ⟨_, hr⟩

theorem next_runner_inv {e : TickEvent α} (hi : s.runner.Inv) (h : s.next e = some s') : s'.runner.Inv := by
  rcases next_runner h with hr | ⟨e', hr⟩
  · rwa [hr]
  · exact OnnxRunner.next_inv hi hr

end Calls

/-- A tick loses no counted inference, if it kicks under no flagged result. -/
theorem next_inv [Zero α] {e : TickEvent α} (hi : Inv s) (hG : NothingFlagged s e) (h : s.next e = some s') :
    Inv s' := by
  refine ⟨next_runner_inv hi.runner h, ?_, ?_⟩
  · refine next_callsWith (P := fun r => r.resultReady = false) hi.runner (fun _ _ _ => mainStep_resultReady) ?_
      hi.call h
    rintro r now accepted rfl hpc hwindow hrunning hidle hr
    -- the load of `inFlight` saw nothing flagged
    have hcall := hi.call
    rw [callInv, hpc] at hcall
    obtain ⟨-, -, hres⟩ := (kick_cases hcall hr).resolve_left (by simp [hidle])
    exact hres.trans (hG hpc hwindow hrunning)
  · rcases next_runner h with hr | ⟨e', hr⟩
    · rw [hr]
      exact hi.accounted
    · exact next_accounted hi.runner hi.accounted hi.clear hr

/-- No completed inference is lost: `kick` clears no flagged result, and the counted inferences are, each once, the
harvested ones and then the waiting one. -/
structure KeepsResults (s : Tick α) : Prop where
  kick : s.runner.main = .clearReady → s.runner.resultReady = false
  counter : s.runner.inferenceCounter.toNat = s.runner.counted.length % 2 ^ 64
  counted : s.runner.counted = s.runner.harvested.map Prod.fst ++ s.runner.waiting
  once : s.runner.counted.Nodup
  harvested : ∀ h ∈ s.runner.harvested, s.runner.results h.1 = some h.2

theorem Inv.keeps (hi : Inv s) : KeepsResults s where
  kick := hi.clear
  counter := hi.accounted.counter
  counted := hi.accounted.counted
  once := by
    rw [hi.accounted.counted]
    exact hi.runner.nodup
  harvested := hi.runner.handoff.harvested

end Tick

open Tick

/-- **No completed inference is lost** in a run in which every tick that goes on to `kick` finds no result flagged when
it loads `inFlight`. -/
theorem results_kept [Zero α] {built : Bool} {es : List (TickEvent α)} {s : Tick α}
    (hG : Along Tick.next NothingFlagged (launch built) es) (h : execute Tick.next (launch built) es = some s) :
    KeepsResults s :=
  (execute_inv_along (fun _ _ _ => Tick.next_inv) (inv_launch built) hG h).keeps

/-- A tick on sound that kicks, with `RunAsync` accepted. -/
def kickTick (window : List α) : List (TickEvent α) :=
  [.begin true true window, .main 0 true, .poll true] ++ List.replicate 9 (.main 0 true)

/-- The inference of the first tick is harvested by the second, which kicks the next one. -/
def keptRun : List (TickEvent Nat) :=
  kickTick [1] ++ [.write 0 fun k => k + 10, .complete 0 true] ++ List.replicate 10 (.worker 0 0) ++
    [.begin true true [2]] ++ List.replicate 6 (.main 0 true) ++ [.poll true] ++ List.replicate 9 (.main 0 true)

theorem results_kept_harvest : ∃ s, execute Tick.next (launch true) keptRun = some s ∧
    s.runner.harvested = [(0, [10, 11, 12, 13, 14])] ∧ s.runner.launched = 2 ∧ KeepsResults s := by
  obtain ⟨s, hs, heq⟩ := Option.map_eq_some_iff.1 (show
    (execute Tick.next (launch true) keptRun).map (fun s => (s.runner.harvested, s.runner.launched)) =
      some ([(0, [10, 11, 12, 13, 14])], 2) by decide +kernel)
  rw [Prod.mk.injEq] at heq
  exact ⟨s, hs, heq.1, heq.2, results_kept (by decide +kernel) hs⟩

/-- The inference of the first tick completes between the second tick's `tryHarvest` and its load of `inFlight`. -/
def lostRun : List (TickEvent Nat) :=
  kickTick [1] ++ [.begin true true [2], .main 0 true, .complete 0 true] ++ List.replicate 10 (.worker 0 0) ++
    .poll true :: List.replicate 5 (.main 0 true)

theorem results_lost : ¬ ∀ es s, execute Tick.next (launch true) es = some (s : Tick Nat) →
    s.runner.main = .clearReady → s.runner.resultReady = false := by
  intro hall
  obtain ⟨s, hs, heq⟩ := Option.map_eq_some_iff.1 (show
    (execute Tick.next (launch true) lostRun).map (fun s => (s.runner.main, s.runner.resultReady)) =
      some (.clearReady, true) by decide +kernel)
  rw [Prod.mk.injEq] at heq
  have := hall lostRun s hs heq.1
  rw [heq.2] at this
  cases this

end Bajiru.Linkjiru
