import Bajiru.Runs
import Bajiru.Linkjiru.Constants

/-!
# `OnnxRunner`

The hand-off of `OnnxRunner.hpp` between the analysis thread (`kick`, `tryHarvest`) and the worker of the ONNX runtime
(`onComplete`), one atomic access at a time. The runtime is the environment: it accepts `RunAsync` or throws, writes the
output buffer while an inference runs, and calls `onComplete` once with a status.

`Inv` ties the flags to the positions of the two threads. On every run it gives a safe hand-off (`Handoff`): one
inference at a time, an input buffer that is not written under a running one, and harvests that are whole results in
kick order. That nothing starts after a failure holds only while `kick` does not load a stale `hardFailed`
(`handoff_safe`).
-/

namespace Bajiru.Linkjiru

variable {α : Type*}

/-- The next access of the analysis thread: outside a call, in `kick`, or in the loop of `tryHarvest`. -/
inductive MainPc (α : Type*)
  | idle
  | loadFailed (window : List α)
  | loadRunning (window : List α)
  | copy (window : List α)
  | clearReady
  | setRunning
  | stamp
  | runAsync
  | catchRunning
  | catchFailed
  | loadScore (out5 : List α)
  deriving DecidableEq

/-- The next access of the worker: the inference runs, or `onComplete` on its failing or its successful path. -/
inductive WorkerPc
  | ort
  | storeFailed
  | clearFailed
  | storeScore (i : Nat)
  | loadStamp
  | storeLatency (kickTime : Int)
  | count
  | publish
  | clearRunning
  deriving DecidableEq

/-- An accepted inference; `id` numbers the calls of `RunAsync`. -/
structure Job where
  id : Nat
  pc : WorkerPc
  deriving DecidableEq

/-- The fields of `OnnxRunner` and both threads. From `launched` on it is not program state: the calls of `RunAsync`,
the scores of the successful inferences, the one that was published last, those that were counted, and what
`tryHarvest` returned. -/
structure OnnxRunner (α : Type*) where
  ready : Bool
  running : Bool
  resultReady : Bool
  hardFailed : Bool
  inputBuf : Mem α
  outputBuf : Mem α
  classScore : Mem α
  kickTimeNs : Int
  lastLatencyMs : ℚ
  inferenceCounter : UInt64
  main : MainPc α
  jobs : List Job
  launched : Nat
  results : Nat → Option (List α)
  published : Nat
  counted : List Nat
  harvested : List (Nat × List α)

/-- A call of the analysis thread, its next access (with the outcome of `RunAsync`), or what the runtime and its worker
do with the job at an index. -/
inductive RunnerEvent (α : Type*)
  | kick (window : List α)
  | tryHarvest
  | main (now : Int) (accepted : Bool)
  | write (job : Nat) (outputBuf : Mem α)
  | complete (job : Nat) (ok : Bool)
  | worker (job : Nat) (now : Int)

namespace OnnxRunner

/-- The per-class scores in a buffer. -/
def scores (m : Mem α) : List α := (List.range modelNumClasses).map m

/-- The runner after `prepare`, which built the session or not. -/
def prepared [Zero α] (built : Bool) : OnnxRunner α where
  ready := built
  running := false
  resultReady := false
  hardFailed := !built
  inputBuf := fun _ => 0
  outputBuf := fun _ => 0
  classScore := fun _ => 0
  kickTimeNs := 0
  lastLatencyMs := 0
  inferenceCounter := 0
  main := .idle
  jobs := []
  launched := 0
  results := fun _ => none
  published := 0
  counted := []
  harvested := []

/-- `inputBuf` after `kick` has copied the window: extra samples are ignored, a short window is zero-padded. -/
def copyWindow [Zero α] (inputBuf : Mem α) (window : List α) : Mem α :=
  fun i => if i < modelWindowSamples then window.getD i 0 else inputBuf i

/-- The next access of the analysis thread inside a call. -/
def mainStep [Zero α] (s : OnnxRunner α) (now : Int) (accepted : Bool) : Option (OnnxRunner α) :=
  match s.main with
  | .idle => none
  | .loadFailed window => some { s with main := if s.hardFailed then .idle else .loadRunning window }
  | .loadRunning window => some { s with main := if s.running then .idle else .copy window }
  | .copy window => some { s with inputBuf := copyWindow s.inputBuf window, main := .clearReady }
  | .clearReady => some { s with resultReady := false, main := .setRunning }
  | .setRunning => some { s with running := true, main := .stamp }
  | .stamp => some { s with kickTimeNs := now, main := .runAsync }
  | .runAsync =>
    if accepted then
      some { s with jobs := s.jobs ++ [⟨s.launched, .ort⟩], launched := s.launched + 1, main := .idle }
    else some { s with launched := s.launched + 1, main := .catchRunning }
  | .catchRunning => some { s with running := false, main := .catchFailed }
  | .catchFailed => some { s with hardFailed := true, main := .idle }
  | .loadScore out5 =>
    let out5 := out5 ++ [s.classScore out5.length]
    if out5.length < modelNumClasses then some { s with main := .loadScore out5 }
    else some { s with harvested := s.harvested ++ [(s.published, out5)], main := .idle }

/-- The worker of job `j` goes on to `pc`. -/
def goto (s : OnnxRunner α) (j : Nat) (job : Job) (pc : WorkerPc) : OnnxRunner α :=
  { s with jobs := s.jobs.set j { job with pc := pc } }

/-- The worker of job `j` returns from `onComplete`. -/
def done (s : OnnxRunner α) (j : Nat) : OnnxRunner α := { s with jobs := s.jobs.eraseIdx j }

/-- The next access of `onComplete` for the job at index `j`. -/
def workerStep (s : OnnxRunner α) (j : Nat) (job : Job) (now : Int) : Option (OnnxRunner α) :=
  match job.pc with
  | .ort => none
  | .storeFailed => some { s.goto j job .clearFailed with hardFailed := true }
  | .clearFailed => some { s.done j with running := false }
  | .storeScore i =>
    some { s.goto j job (if i + 1 < modelNumClasses then .storeScore (i + 1) else .loadStamp) with
      classScore := Function.update s.classScore i (s.outputBuf i) }
  | .loadStamp => some (s.goto j job (.storeLatency s.kickTimeNs))
  | .storeLatency kickTime => some { s.goto j job .count with lastLatencyMs := (now - kickTime : ℤ) / 10 ^ 6 }
  | .count =>
    some { s.goto j job .publish with
      inferenceCounter := s.inferenceCounter + 1
      counted := s.counted ++ [job.id] }
  | .publish => some { s.goto j job .clearRunning with resultReady := true, published := job.id }
  | .clearRunning => some { s.done j with running := false }

/-- `failed()`. -/
def failed (s : OnnxRunner α) : Bool := s.hardFailed

/-- One step of the runner. -/
def next [Zero α] (s : OnnxRunner α) : RunnerEvent α → Option (OnnxRunner α)
  | .kick window =>
    match s.main with
    | .idle => some (if s.ready then { s with main := .loadFailed window } else s)
    | _ => none
  | .tryHarvest =>
    match s.main with
    | .idle => some (if s.resultReady then { s with resultReady := false, main := .loadScore [] } else s)
    | _ => none
  | .main now accepted => s.mainStep now accepted
  | .write j outputBuf =>
    match s.jobs[j]? with
    | some ⟨_, .ort⟩ => some { s with outputBuf := outputBuf }
    | _ => none
  | .complete j ok =>
    match s.jobs[j]? with
    | some ⟨id, .ort⟩ =>
      if ok then
        some { s.goto j ⟨id, .ort⟩ (.storeScore 0) with
          results := Function.update s.results id (some (scores s.outputBuf)) }
      else some (s.goto j ⟨id, .ort⟩ .storeFailed)
    | _ => none
  | .worker j now => s.jobs[j]?.bind fun job => s.workerStep j job now

section Steps

variable [Zero α] {s s' : OnnxRunner α}

theorem next_kick {window : List α} (h : s.next (.kick window) = some s') :
    s.main = .idle ∧ s' = if s.ready then { s with main := .loadFailed window } else s := by
  simp only [next] at h
  split at h <;> cases h
  rename_i hm
  exact ⟨hm, rfl⟩

theorem next_tryHarvest (h : s.next .tryHarvest = some s') :
    s.main = .idle ∧ s' = if s.resultReady then { s with resultReady := false, main := .loadScore [] } else s := by
  simp only [next] at h
  split at h <;> cases h
  rename_i hm
  exact ⟨hm, rfl⟩

/-- The runtime writes the output of a job that it runs. -/
theorem next_write {j : Nat} {outputBuf : Mem α} (h : s.next (.write j outputBuf) = some s') :
    ∃ id, s.jobs[j]? = some ⟨id, .ort⟩ ∧ s' = { s with outputBuf := outputBuf } := by
  simp only [next] at h
  split at h <;> cases h
  rename_i id hj
  exact ⟨id, hj, rfl⟩

/-- The runtime ends a job, and its `onComplete` begins. -/
theorem next_complete {j : Nat} {ok : Bool} (h : s.next (.complete j ok) = some s') :
    ∃ id, s.jobs[j]? = some ⟨id, .ort⟩ ∧
      s' = if ok then
        { s.goto j ⟨id, .ort⟩ (.storeScore 0) with
          results := Function.update s.results id (some (scores s.outputBuf)) }
      else s.goto j ⟨id, .ort⟩ .storeFailed := by
  simp only [next] at h
  split at h
  · rename_i id hj
    refine ⟨id, hj, ?_⟩
    split at h <;> cases h
    · exact (if_pos ‹_›).symm
    · exact (if_neg ‹_›).symm
  · cases h

theorem next_worker {j : Nat} {now : Int} (h : s.next (.worker j now) = some s') :
    ∃ job, s.jobs[j]? = some job ∧ s.workerStep j job now = some s' :=
  Option.bind_eq_some_iff.1 h

end Steps

/-! ## The invariant -/

/-- The published scores are whole and newer than every harvest, and no worker will touch them. -/
structure Fresh (results : Nat → Option (List α)) (published launched : Nat) (classScore : Mem α)
    (harvested : List (Nat × List α)) (jobs : List Job) : Prop where
  result : results published = some (scores classScore)
  newer : ∀ h ∈ harvested, h.1 < published
  launched : published < launched
  settled : ∀ job ∈ jobs, job.pc = .clearRunning

/-- The flags and jobs at the position of the analysis thread. -/
def mainInv (s : OnnxRunner α) : Prop :=
  match s.main with
  | .copy _ | .clearReady => s.jobs = [] ∧ s.running = false
  | .setRunning | .catchFailed => s.jobs = [] ∧ s.running = false ∧ s.resultReady = false
  | .stamp | .runAsync | .catchRunning => s.jobs = [] ∧ s.running = true ∧ s.resultReady = false
  | .loadScore out5 => s.running = !s.jobs.isEmpty ∧ s.resultReady = false ∧ out5.length < modelNumClasses ∧
      out5 = (List.range out5.length).map s.classScore ∧
      Fresh s.results s.published s.launched s.classScore s.harvested s.jobs
  | _ => s.running = !s.jobs.isEmpty

/-- What a job's worker has done so far. -/
def jobInv (results : Nat → Option (List α)) (outputBuf classScore : Mem α) (job : Job) : Prop :=
  match job.pc with
  | .storeScore i => i < modelNumClasses ∧ results job.id = some (scores outputBuf) ∧
      ∀ k, k < i → classScore k = outputBuf k
  | .loadStamp | .storeLatency _ | .count | .publish => results job.id = some (scores classScore)
  | _ => True

/-- What every step keeps. -/
structure Inv (s : OnnxRunner α) : Prop where
  one : s.jobs.length ≤ 1
  main : s.mainInv
  ready : s.resultReady = true → Fresh s.results s.published s.launched s.classScore s.harvested s.jobs
  job : ∀ job ∈ s.jobs, job.id < s.launched ∧ jobInv s.results s.outputBuf s.classScore job
  older : ∀ job ∈ s.jobs, job.pc ≠ .clearRunning → ∀ h ∈ s.harvested, h.1 < job.id
  harvested : ∀ h ∈ s.harvested, s.results h.1 = some h.2 ∧ h.1 < s.launched
  order : s.harvested.Pairwise fun a b => a.1 < b.1

variable {s s' : OnnxRunner α}

theorem inv_prepared [Zero α] (built : Bool) : Inv (prepared built : OnnxRunner α) := by
  constructor <;> simp [prepared, mainInv]

/-- A step of the analysis thread that only moves it and sets flags. -/
theorem Inv.of_main (hi : Inv s) {main : MainPc α} {running resultReady hardFailed : Bool} {inputBuf : Mem α}
    {kickTimeNs : Int} (hmain : mainInv { s with
      main := main, running := running, resultReady := resultReady, hardFailed := hardFailed, inputBuf := inputBuf,
      kickTimeNs := kickTimeNs }) (hready : resultReady = true → s.resultReady = true) :
    Inv { s with
      main := main, running := running, resultReady := resultReady, hardFailed := hardFailed, inputBuf := inputBuf,
      kickTimeNs := kickTimeNs } :=
  ⟨hi.one, hmain, fun hr => hi.ready (hready hr), hi.job, hi.older, hi.harvested, hi.order⟩

/-- `RunAsync` accepts the inference. -/
theorem Inv.accepted (hi : Inv s) (hrun : s.running = true) (hres : s.resultReady = false) :
    Inv { s with jobs := [⟨s.launched, .ort⟩], launched := s.launched + 1, main := .idle } := by
  refine ⟨Nat.le_refl _, hrun, fun hr => ?_, ?_, ?_, fun p hp => ?_, hi.order⟩
  · rw [show s.resultReady = true from hr] at hres
    cases hres
  · rintro _ (_ | ⟨_, ⟨⟩⟩)
    exact ⟨Nat.lt_succ_self _, trivial⟩
  · rintro _ (_ | ⟨_, ⟨⟩⟩) - p hp
    exact (hi.harvested p hp).2
  · exact ⟨(hi.harvested p hp).1, Nat.lt_succ_of_lt (hi.harvested p hp).2⟩

/-- `RunAsync` refuses the inference. -/
theorem Inv.refused (hi : Inv s) (hjobs : s.jobs = []) (hrun : s.running = true) (hres : s.resultReady = false) :
    Inv { s with launched := s.launched + 1, main := .catchRunning } := by
  refine ⟨hi.one, ⟨hjobs, hrun, hres⟩, fun hr => ?_, fun job hj => ?_, hi.older, fun p hp => ?_, hi.order⟩
  · rw [show s.resultReady = true from hr] at hres
    cases hres
  · rw [show s.jobs = [] from hjobs] at hj
    cases hj
  · exact ⟨(hi.harvested p hp).1, Nat.lt_succ_of_lt (hi.harvested p hp).2⟩

/-- The last score is loaded: the vector is the published result. -/
theorem Inv.lastScore (hi : Inv s) (hrun : s.running = !s.jobs.isEmpty) (hres : s.resultReady = false)
    (hfresh : Fresh s.results s.published s.launched s.classScore s.harvested s.jobs) :
    Inv { s with harvested := s.harvested ++ [(s.published, scores s.classScore)], main := .idle } := by
  refine ⟨hi.one, hrun, fun hr => ?_, hi.job, fun job hj hne => ?_, fun p hp => ?_, ?_⟩
  · rw [show s.resultReady = true from hr] at hres
    cases hres
  · exact absurd (hfresh.settled job hj) hne
  · rcases List.mem_append.1 hp with hp | hp
    · exact hi.harvested p hp
    · rw [List.mem_singleton.1 hp]
      exact ⟨hfresh.result, hfresh.launched⟩
  · rw [List.pairwise_append]
    refine ⟨hi.order, List.pairwise_singleton _ _, fun p hp q hq => ?_⟩
    rw [List.mem_singleton.1 hq]
    exact hfresh.newer p hp

/-- An access of the analysis thread keeps the invariant. -/
theorem mainStep_inv [Zero α] {now : Int} {accepted : Bool} (hi : Inv s) (h : s.mainStep now accepted = some s') :
    Inv s' := by
  have hmain := hi.main
  unfold mainStep at h
  unfold mainInv at hmain
  split at h <;> rename_i hpc <;> rw [hpc] at hmain
  · cases h
  · cases h
    refine hi.of_main ?_ id
    cases hf : s.hardFailed <;> exact hmain
  · cases h
    by_cases hr : s.running = true
    · rw [if_pos hr]
      exact hi.of_main hmain id
    · rw [if_neg hr]
      have hempty : s.jobs.isEmpty = true := by simpa [hmain] using hr
      exact hi.of_main ⟨List.isEmpty_iff.1 hempty, by simpa using hr⟩ id
  · cases h
    exact hi.of_main hmain id
  · cases h
    exact hi.of_main ⟨hmain.1, hmain.2, rfl⟩ nofun
  · cases h
    exact hi.of_main ⟨hmain.1, rfl, hmain.2.2⟩ id
  · cases h
    exact hi.of_main hmain id
  · obtain ⟨hjobs, hrun, hres⟩ := hmain
    split at h <;> cases h
    · rw [hjobs, List.nil_append]
      exact hi.accepted hrun hres
    · exact hi.refused hjobs hrun hres
  · cases h
    exact hi.of_main ⟨hmain.1, rfl, hmain.2.2⟩ id
  · cases h
    exact hi.of_main (by rw [mainInv]; simp [hmain.1, hmain.2.1]) id
  · rename_i out5
    obtain ⟨hrun, hres, hlen, hout, hfresh⟩ := hmain
    have hout' : out5 ++ [s.classScore out5.length] = (List.range (out5.length + 1)).map s.classScore := by
      rw [List.range_succ, List.map_append, ← hout]
      rfl
    have hlen' : (out5 ++ [s.classScore out5.length]).length = out5.length + 1 := List.length_append
    dsimp only at h
    split at h <;> cases h
    · rename_i hlt
      exact hi.of_main ⟨hrun, hres, hlt, by rw [hlen', hout'], hfresh⟩ id
    · rename_i hge
      have hall : out5 ++ [s.classScore out5.length] = scores s.classScore := by
        rw [hout', scores]
        congr 2
        omega
      rw [hall]
      exact hi.lastScore hrun hres hfresh

/-- The only job there is. -/
theorem Inv.jobs_eq (hi : Inv s) {j : Nat} {job : Job} (hj : s.jobs[j]? = some job) : j = 0 ∧ s.jobs = [job] := by
  have hone := hi.one
  match hjobs : s.jobs with
  | [] => simp [hjobs] at hj
  | [job'] =>
    cases j with
    | zero => simpa [hjobs] using hj
    | succ j => simp [hjobs] at hj
  | _ :: _ :: _ => simp [hjobs] at hone

/-- While a worker is at work, `running` is set and the analysis thread is neither starting an inference nor reading
scores. -/
theorem Inv.main_of_job (hi : Inv s) {job : Job} (hj : s.jobs = [job]) (hpc : job.pc ≠ .clearRunning) :
    s.running = true ∧ ∀ t : OnnxRunner α, t.main = s.main → t.running = !t.jobs.isEmpty → t.mainInv := by
  have hmain := hi.main
  have hne : s.jobs ≠ [] := by simp [hj]
  unfold mainInv at hmain
  cases hm : s.main <;> rw [hm] at hmain
  case loadScore out5 => exact absurd (hmain.2.2.2.2.settled job (by simp [hj])) hpc
  case idle | loadFailed window | loadRunning window =>
    refine ⟨by rw [hmain, hj]; rfl, fun t ht hr => ?_⟩
    unfold mainInv
    rw [ht]
    exact hr
  all_goals exact absurd hmain.1 hne

/-- A step of a worker that has not published. -/
theorem Inv.of_worker (hi : Inv s) {job : Job} (hj : s.jobs = [job]) (hpc : job.pc ≠ .clearRunning) (pc : WorkerPc)
    {hardFailed : Bool} {outputBuf classScore : Mem α} {lastLatencyMs : ℚ} {inferenceCounter : UInt64}
    {counted : List Nat} {results : Nat → Option (List α)} (hres : ∀ i, i < job.id → results i = s.results i)
    (hjob : jobInv results outputBuf classScore { job with pc := pc }) :
    Inv { s with
      jobs := [{ job with pc := pc }], hardFailed := hardFailed, outputBuf := outputBuf, classScore := classScore,
      lastLatencyMs := lastLatencyMs, inferenceCounter := inferenceCounter, counted := counted,
      results := results } := by
  obtain ⟨hrun, hmain⟩ := hi.main_of_job hj hpc
  have hmem : job ∈ s.jobs := by simp [hj]
  refine ⟨Nat.le_refl _, hmain _ rfl hrun, fun hr => absurd ((hi.ready hr).settled job hmem) hpc, ?_, ?_, ?_, hi.order⟩
  · rintro _ (_ | ⟨_, ⟨⟩⟩)
    exact ⟨(hi.job job hmem).1, hjob⟩
  · rintro _ (_ | ⟨_, ⟨⟩⟩) -
    exact hi.older job hmem hpc
  · intro p hp
    exact ⟨(hres p.1 (hi.older job hmem hpc p hp)).trans (hi.harvested p hp).1, (hi.harvested p hp).2⟩

/-- The worker returns, and clears `running`. -/
theorem Inv.of_done (hi : Inv s) {job : Job} (hj : s.jobs = [job]) : Inv { s with jobs := [], running := false } := by
  refine ⟨Nat.zero_le _, ?_, fun hr => ?_, nofun, nofun, hi.harvested, hi.order⟩
  · by_cases hpc : job.pc = .clearRunning
    · have hmain := hi.main
      have hne : s.jobs ≠ [] := by simp [hj]
      unfold mainInv at hmain ⊢
      dsimp only
      cases hm : s.main <;> rw [hm] at hmain
      case loadScore out5 =>
        obtain ⟨-, hres, hlen, hout, hf⟩ := hmain
        exact ⟨rfl, hres, hlen, hout, hf.result, hf.newer, hf.launched, nofun⟩
      case idle | loadFailed window | loadRunning window => rfl
      all_goals exact absurd hmain.1 hne
    · exact (hi.main_of_job hj hpc).2 _ rfl rfl
  · have hf := hi.ready hr
    exact ⟨hf.result, hf.newer, hf.launched, nofun⟩

theorem goto_one {job : Job} (hjobs : s.jobs = [job]) (pc : WorkerPc) :
    s.goto 0 job pc = { s with jobs := [{ job with pc := pc }] } := by
  simp [goto, hjobs]

theorem done_one {job : Job} (hjobs : s.jobs = [job]) : s.done 0 = { s with jobs := [] } := by
  simp [done, hjobs]

/-- An access of `onComplete` keeps the invariant. -/
theorem workerStep_inv {j : Nat} {job : Job} {now : Int} (hi : Inv s) (hj : s.jobs[j]? = some job)
    (h : s.workerStep j job now = some s') : Inv s' := by
  obtain ⟨rfl, hjobs⟩ := hi.jobs_eq hj
  have hmem : job ∈ s.jobs := by simp [hjobs]
  obtain ⟨id, pc⟩ := job
  have hjob := (hi.job _ hmem).2
  unfold workerStep at h
  dsimp only at h
  split at h <;> cases h <;> simp only [goto_one hjobs, done_one hjobs]
  · exact hi.of_worker hjobs nofun .clearFailed (fun _ _ => rfl) trivial
  · exact hi.of_done hjobs
  · rename_i i
    obtain ⟨hlt, hres, hdone'⟩ := hjob
    have hstored : ∀ k, k < i + 1 → Function.update s.classScore i (s.outputBuf i) k = s.outputBuf k := by
      intro k hk
      rcases Nat.lt_succ_iff_lt_or_eq.1 hk with hk | rfl
      · rw [Function.update_of_ne (by omega)]
        exact hdone' k hk
      · exact Function.update_self ..
    by_cases hlast : i + 1 < modelNumClasses
    · rw [if_pos hlast]
      exact hi.of_worker hjobs nofun (.storeScore (i + 1)) (fun _ _ => rfl) ⟨hlast, hres, hstored⟩
    · rw [if_neg hlast]
      refine hi.of_worker hjobs nofun .loadStamp (fun _ _ => rfl) (hres.trans (congrArg some ?_))
      refine List.map_congr_left fun k hk => (hstored k ?_).symm
      have := List.mem_range.1 hk
      omega
  · exact hi.of_worker hjobs nofun (.storeLatency s.kickTimeNs) (fun _ _ => rfl) hjob
  · exact hi.of_worker hjobs nofun .count (fun _ _ => rfl) hjob
  · exact hi.of_worker hjobs nofun .publish (fun _ _ => rfl) hjob
  · obtain ⟨hrun, hmain⟩ := hi.main_of_job hjobs nofun
    refine ⟨Nat.le_refl _, hmain _ rfl hrun, fun _ => ⟨hjob, hi.older _ hmem nofun, (hi.job _ hmem).1, ?_⟩, ?_, ?_,
      hi.harvested, hi.order⟩
    · rintro _ (_ | ⟨_, ⟨⟩⟩)
      rfl
    · rintro _ (_ | ⟨_, ⟨⟩⟩)
      exact ⟨(hi.job _ hmem).1, trivial⟩
    · rintro _ (_ | ⟨_, ⟨⟩⟩) hne
      exact absurd rfl hne
  · exact hi.of_done hjobs

/-- Every step keeps the invariant. -/
theorem next_inv [Zero α] {e : RunnerEvent α} (hi : Inv s) (h : s.next e = some s') : Inv s' := by
  cases e with
  | kick window =>
    obtain ⟨hm, rfl⟩ := next_kick h
    have hmain := hi.main
    rw [mainInv, hm] at hmain
    split
    · exact hi.of_main hmain id
    · exact hi
  | tryHarvest =>
    obtain ⟨hm, rfl⟩ := next_tryHarvest h
    have hmain := hi.main
    rw [mainInv, hm] at hmain
    split
    · rename_i hready
      exact hi.of_main ⟨hmain, rfl, show 0 < modelNumClasses by decide, rfl, hi.ready hready⟩ nofun
    · exact hi
  | main now accepted => exact mainStep_inv hi h
  | write j outputBuf =>
    obtain ⟨id, hj, rfl⟩ := next_write h
    obtain ⟨rfl, hjobs⟩ := hi.jobs_eq hj
    have hw : Inv { s with jobs := [⟨id, .ort⟩], outputBuf := outputBuf } :=
      hi.of_worker hjobs nofun .ort (fun _ _ => rfl) trivial
    rw [← hjobs] at hw
    exact hw
  | complete j ok =>
    obtain ⟨id, hj, rfl⟩ := next_complete h
    obtain ⟨rfl, hjobs⟩ := hi.jobs_eq hj
    simp only [goto_one hjobs]
    split
    · exact hi.of_worker hjobs nofun (.storeScore 0) (fun i hlt => Function.update_of_ne (Nat.ne_of_lt hlt) ..)
        ⟨by decide, Function.update_self .., nofun⟩
    · exact hi.of_worker hjobs nofun .storeFailed (fun _ _ => rfl) trivial
  | worker j now =>
    obtain ⟨job, hj, h⟩ := next_worker h
    exact workerStep_inv hi hj h

/-- A failure is never taken back. -/
theorem hardFailed_next [Zero α] {e : RunnerEvent α} (hf : s.hardFailed = true) (h : s.next e = some s') :
    s'.hardFailed = true := by
  cases e with
  | kick window =>
    obtain ⟨-, rfl⟩ := next_kick h
    split <;> exact hf
  | tryHarvest =>
    obtain ⟨-, rfl⟩ := next_tryHarvest h
    split <;> exact hf
  | main now accepted =>
    simp only [next, mainStep] at h
    split at h
    case h_1 => cases h
    case h_8 => split at h <;> cases h <;> exact hf
    case h_10 => cases h; rfl
    case h_11 => split at h <;> cases h <;> exact hf
    all_goals cases h; exact hf
  | write j outputBuf =>
    obtain ⟨-, -, rfl⟩ := next_write h
    exact hf
  | complete j ok =>
    obtain ⟨-, -, rfl⟩ := next_complete h
    split <;> exact hf
  | worker j now =>
    obtain ⟨job, -, h⟩ := next_worker h
    unfold workerStep at h
    split at h <;> cases h
    case h_2 => rfl
    all_goals exact hf

theorem hardFailed_execute [Zero α] {es : List (RunnerEvent α)} (hf : s.hardFailed = true)
    (h : execute next s es = some s') : s'.hardFailed = true :=
  execute_inv (fun _ _ _ => hardFailed_next) hf h

/-! ## The hand-off -/

/-- A safe hand-off: one inference at a time, none while `kick` writes the input buffer, and every harvest is the result
of one successful inference, newer than the harvests before it. -/
structure Handoff (s : OnnxRunner α) : Prop where
  one : s.jobs.length ≤ 1
  input : ∀ window, s.main = .copy window → s.jobs = []
  harvested : ∀ h ∈ s.harvested, s.results h.1 = some h.2
  order : s.harvested.Pairwise fun a b => a.1 < b.1

theorem Inv.handoff (hi : Inv s) : Handoff s := by
  refine ⟨hi.one, fun window hm => ?_, fun p hp => (hi.harvested p hp).1, hi.order⟩
  have hmain := hi.main
  rw [mainInv, hm] at hmain
  exact hmain.1

/-- The analysis thread is about to load `running` in `kick`. -/
def loadsRunning (s : OnnxRunner α) : Bool :=
  match s.main with
  | .loadRunning _ => true
  | _ => false

/-- When `kick` reads `running` as false, its load of `hardFailed` is not stale. -/
def UpToDate (s : OnnxRunner α) : RunnerEvent α → Prop
  | .main _ _ => s.loadsRunning = true → s.running = false → s.hardFailed = false
  | _ => True

instance (s : OnnxRunner α) (e : RunnerEvent α) : Decidable (UpToDate s e) :=
  match e with
  | .main _ _ => inferInstanceAs (Decidable (s.loadsRunning = true → s.running = false → s.hardFailed = false))
  | .kick _ | .tryHarvest | .write _ _ | .complete _ _ | .worker _ _ => inferInstanceAs (Decidable True)

/-- From the check of `running` to `RunAsync` nothing has failed. -/
def Healthy (s : OnnxRunner α) : Prop :=
  match s.main with
  | .copy _ | .clearReady | .setRunning | .stamp | .runAsync => s.hardFailed = false
  | _ => True

/-- A job keeps the analysis thread from starting another one. -/
theorem Inv.healthy_of_job (hi : Inv s) (hne : s.jobs ≠ []) {t : OnnxRunner α} (ht : t.main = s.main) : t.Healthy := by
  have hmain := hi.main
  unfold mainInv at hmain
  unfold Healthy
  rw [ht]
  cases hm : s.main <;> rw [hm] at hmain
  case idle | loadFailed | loadRunning | loadScore | catchRunning | catchFailed => trivial
  all_goals exact absurd hmain.1 hne

theorem workerStep_main {j : Nat} {job : Job} {now : Int} (h : s.workerStep j job now = some s') :
    s'.main = s.main ∧ s'.launched = s.launched ∧ (s.hardFailed = true → s'.hardFailed = true) := by
  unfold workerStep at h
  split at h <;> cases h
  case h_2 => exact ⟨rfl, rfl, fun _ => rfl⟩
  all_goals exact ⟨rfl, rfl, id⟩

/-- A step keeps the thread healthy, unless `kick` goes on from a stale load. -/
theorem healthy_next [Zero α] {e : RunnerEvent α} (hi : Inv s) (hs : s.Healthy) (hG : UpToDate s e)
    (h : s.next e = some s') : s'.Healthy := by
  cases e with
  | kick window =>
    obtain ⟨-, rfl⟩ := next_kick h
    split
    · trivial
    · exact hs
  | tryHarvest =>
    obtain ⟨-, rfl⟩ := next_tryHarvest h
    split
    · trivial
    · exact hs
  | main now accepted =>
    simp only [next, mainStep] at h
    unfold Healthy at hs
    split at h <;> rename_i hm <;> rw [hm] at hs
    · cases h
    · cases h
      cases s.hardFailed <;> trivial
    · cases h
      by_cases hr : s.running = true
      · rw [if_pos hr]
        trivial
      · rw [if_neg hr]
        exact hG (by rw [loadsRunning, hm]) (by simpa using hr)
    · cases h; exact hs
    · cases h; exact hs
    · cases h; exact hs
    · cases h; exact hs
    · split at h <;> cases h <;> trivial
    · cases h; trivial
    · cases h; trivial
    · split at h <;> cases h <;> trivial
  | write j outputBuf =>
    obtain ⟨-, -, rfl⟩ := next_write h
    exact hs
  | complete j ok =>
    obtain ⟨-, -, rfl⟩ := next_complete h
    split <;> exact hs
  | worker j now =>
    obtain ⟨job, hj, h⟩ := next_worker h
    exact hi.healthy_of_job (List.ne_nil_of_mem (List.mem_of_getElem? hj)) (workerStep_main h).1

/-- After a failure a healthy thread starts nothing. -/
theorem launched_next [Zero α] {e : RunnerEvent α} (hs : s.Healthy) (hf : s.hardFailed = true)
    (h : s.next e = some s') : s'.hardFailed = true ∧ s'.launched = s.launched := by
  cases e with
  | kick window =>
    obtain ⟨-, rfl⟩ := next_kick h
    split <;> exact ⟨hf, rfl⟩
  | tryHarvest =>
    obtain ⟨-, rfl⟩ := next_tryHarvest h
    split <;> exact ⟨hf, rfl⟩
  | main now accepted =>
    simp only [next, mainStep] at h
    unfold Healthy at hs
    split at h <;> rename_i hm <;> rw [hm] at hs
    case h_8 => rw [hf] at hs; cases hs
    case h_1 => cases h
    case h_10 => cases h; exact ⟨rfl, rfl⟩
    case h_11 => split at h <;> cases h <;> exact ⟨hf, rfl⟩
    all_goals cases h; exact ⟨hf, rfl⟩
  | write j outputBuf =>
    obtain ⟨-, -, rfl⟩ := next_write h
    exact ⟨hf, rfl⟩
  | complete j ok =>
    obtain ⟨-, -, rfl⟩ := next_complete h
    split <;> exact ⟨hf, rfl⟩
  | worker j now =>
    obtain ⟨job, hj, h⟩ := next_worker h
    obtain ⟨-, hl, hf'⟩ := workerStep_main h
    exact ⟨hf' hf, hl⟩

end OnnxRunner

open OnnxRunner

/-- **The hand-off.** Every run is a safe hand-off; and in a run in which `kick` never goes on from a stale load of
`hardFailed`, no inference is started once it is set. -/
theorem handoff_safe [Zero α] {built : Bool} {es : List (RunnerEvent α)} {s : OnnxRunner α}
    (h : execute next (prepared built) es = some s) :
    Handoff s ∧ (Along next UpToDate (prepared built) es → ∀ es₁ es₂ t, es = es₁ ++ es₂ →
      execute next (prepared built) es₁ = some t → t.hardFailed = true → s.launched = t.launched) := by
  refine ⟨(execute_inv (fun _ _ _ => next_inv) (inv_prepared built) h).handoff, ?_⟩
  rintro hG es₁ es₂ t rfl ht hf
  have hstep : ∀ (u : OnnxRunner α) e v, (Inv u ∧ u.Healthy) → UpToDate u e → u.next e = some v → Inv v ∧ v.Healthy :=
    fun u e v hu hGu huv => ⟨next_inv hu.1 huv, healthy_next hu.1 hu.2 hGu huv⟩
  have hit := execute_inv_along hstep ⟨inv_prepared built, trivial⟩ (along_append_left hG) ht
  have hrest := execute_of_append h ht
  exact (execute_inv_along (P := fun u => (Inv u ∧ u.Healthy) ∧ u.hardFailed = true ∧ u.launched = t.launched)
    (fun u e v hu hGu huv => by
      obtain ⟨hf', hl⟩ := launched_next hu.1.2 hu.2.1 huv
      exact ⟨hstep u e v hu.1 hGu huv, hf', hl.trans hu.2.2⟩)
    ⟨hit, hf, rfl⟩ (along_of_append hG ht) hrest).2.2

/-- `kick`, with `RunAsync` accepted. -/
def acceptedKick (window : List α) : List (RunnerEvent α) := .kick window :: List.replicate 7 (.main 0 true)

/-- A successful inference, harvested, and a failing one. -/
def harvestRun : List (RunnerEvent Nat) :=
  acceptedKick [1] ++ [.write 0 fun k => k + 10, .complete 0 true] ++ List.replicate 10 (.worker 0 0) ++
    .tryHarvest :: List.replicate 5 (.main 0 true) ++ acceptedKick [2] ++ [.complete 0 false, .worker 0 0]

theorem handoff_safe_harvest : ∃ s t,
    execute next (prepared true) (harvestRun ++ [.worker 0 0, .kick [3], .main 0 true]) = some s ∧ Handoff s ∧
      s.harvested = [(0, [10, 11, 12, 13, 14])] ∧
      execute next (prepared true) harvestRun = some t ∧ t.hardFailed = true ∧ s.launched = t.launched := by
  obtain ⟨s, hs, hh⟩ := Option.map_eq_some_iff.1 (show
    (execute next (prepared true) (harvestRun ++ [.worker 0 0, .kick [3], .main 0 true])).map (·.harvested) =
      some [(0, [10, 11, 12, 13, 14])] by decide +kernel)
  obtain ⟨t, ht, hf⟩ := Option.map_eq_some_iff.1 (show
    (execute next (prepared true) harvestRun).map (·.hardFailed) = some true by decide +kernel)
  exact ⟨s, t, hs, (handoff_safe hs).1, hh, ht, hf, (handoff_safe hs).2 (by decide +kernel) _ _ t rfl ht hf⟩

/-- The inference fails between the two loads of the next `kick`. -/
def staleRun : List (RunnerEvent Nat) :=
  acceptedKick [1] ++ [.kick [2], .main 0 true, .complete 0 false, .worker 0 0, .worker 0 0]

theorem handoff_stale : ¬ ∀ es₁ es₂ t s, execute next (prepared true) es₁ = some t → t.hardFailed = true →
    execute next t es₂ = some (s : OnnxRunner Nat) → s.launched = t.launched := by
  intro hall
  obtain ⟨t, ht, heq⟩ := Option.map_eq_some_iff.1 (show
    (execute next (prepared true) staleRun).map (fun t => (t.hardFailed, t.launched)) = some (true, 1)
      by decide +kernel)
  obtain ⟨s, hs, heq'⟩ := Option.map_eq_some_iff.1 (show
    (execute next (prepared true) (staleRun ++ List.replicate 6 (.main 0 true))).map (·.launched) = some 2
      by decide +kernel)
  rw [Prod.mk.injEq] at heq
  have := hall _ _ t s ht heq.1 (execute_of_append hs ht)
  omega

end Bajiru.Linkjiru
