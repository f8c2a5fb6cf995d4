import Bajiru.Linkjiru.DeadModel

/-!
# The detection box

What `PluginEditor` shows of a running session. The loop publishes five bools as one word and latches the speaker, and
a poll of `getStatus` loads the word and then the latch, while the loop and the runner go on. `detectStateFor` never
steps back: from LOADING to IDLE, to a speaker and to INFERENCE ERROR, and the bools of a poll were published together
(`detectState_session`).
-/

namespace Bajiru.Linkjiru

open OnnxRunner

/-- `StatusBit`. -/
def statusModelReady : UInt32 := (1 : UInt32) <<< 0

def statusInferenceFailed : UInt32 := (1 : UInt32) <<< 1

def statusVtsConnected : UInt32 := (1 : UInt32) <<< 2

def statusVtsRegistered : UInt32 := (1 : UInt32) <<< 3

def statusVtsRegisterFailed : UInt32 := (1 : UInt32) <<< 4

/-- The bools of the status word. -/
structure StatusFlags where
  modelReady : Bool
  inferenceFailed : Bool
  vtsConnected : Bool
  vtsRegistered : Bool
  vtsRegisterFailed : Bool
  deriving DecidableEq

namespace StatusFlags

/-- All bools are false before the first publication. -/
def none : StatusFlags := ⟨false, false, false, false, false⟩

/-- The word that `run` publishes. -/
def pack (f : StatusFlags) : UInt32 :=
  let bits : UInt32 := 0
  let bits := if f.modelReady then bits ||| statusModelReady else bits
  let bits := if f.inferenceFailed then bits ||| statusInferenceFailed else bits
  let bits := if f.vtsConnected then bits ||| statusVtsConnected else bits
  let bits := if f.vtsRegistered then bits ||| statusVtsRegistered else bits
  if f.vtsRegisterFailed then bits ||| statusVtsRegisterFailed else bits

/-- What `getStatus` reads out of the word. -/
def unpack (bits : UInt32) : StatusFlags where
  modelReady := bits &&& statusModelReady != 0
  inferenceFailed := bits &&& statusInferenceFailed != 0
  vtsConnected := bits &&& statusVtsConnected != 0
  vtsRegistered := bits &&& statusVtsRegistered != 0
  vtsRegisterFailed := bits &&& statusVtsRegisterFailed != 0

@[simp] theorem unpack_pack (f : StatusFlags) : unpack f.pack = f := by
  obtain ⟨modelReady, inferenceFailed, vtsConnected, vtsRegistered, vtsRegisterFailed⟩ := f
  cases modelReady <;> cases inferenceFailed <;> cases vtsConnected <;> cases vtsRegistered <;>
    cases vtsRegisterFailed <;> decide

@[simp] theorem unpack_zero : unpack 0 = none := by decide

end StatusFlags

/-- What the box reads of a snapshot. -/
structure PipelineStatus where
  running : Bool
  flags : StatusFlags
  speaker : Int

inductive DetectState
  | stopped
  | loading
  | error
  | idle
  | baji
  | ru
  deriving DecidableEq

/-- `detectStateFor(s)`. -/
def detectStateFor (s : PipelineStatus) : DetectState :=
  if !s.running then .stopped
  else if s.flags.inferenceFailed then .error
  else if !s.flags.modelReady then .loading
  else if s.speaker = 0 then .baji
  else if s.speaker = 1 then .ru
  else .idle

/-- The order in which a session shows them. -/
def DetectState.rank : DetectState → Nat
  | .stopped => 0
  | .loading => 1
  | .idle => 2
  | .baji | .ru => 3
  | .error => 4

/-- `getStatus()` of a running analysis, from its loads. -/
def getStatus (bits : UInt32) (speaker : Int) : PipelineStatus := ⟨true, .unpack bits, speaker⟩

variable {α : Type*}

/-- The analysis thread behind `prepare`: its runner, its loop, and whether the status of this tick is published. -/
structure SessionThread (α : Type*) where
  runner : OnnxRunner α
  loop : AnalysisLoop α
  published : Bool

/-- A session with the polls of the editor: the thread when `prepare` has returned, the status word, and the word that
a poll has loaded. From `shown` on it is not program state: the snapshots so far, and what was published. -/
structure DetectSession (α : Type*) where
  thread : Option (SessionThread α)
  statusBits : UInt32
  loaded : Option UInt32
  shown : List PipelineStatus
  publications : List StatusFlags

/-- `prepare` returns, the runner goes on, the loop publishes or does the rest of a tick, or a poll loads the word or the
latch. -/
inductive DetectEvent (α : Type*)
  | prepare (built : Bool)
  | runner (e : RunnerEvent α)
  | publish (vtsConnected vtsRegistered vtsRegisterFailed : Bool)
  | tick (i : TickInput α)
  | loadBits
  | loadSpeaker

namespace DetectSession

/-- A thread that has started. -/
def new (α : Type*) : DetectSession α := ⟨none, 0, none, [], []⟩

/-- `latchedSpeaker`. -/
def speaker (s : DetectSession α) : Int :=
  match s.thread with
  | some t => t.loop.latchedSpeaker
  | none => -1

/-- One step. -/
def next [Zero α] (s : DetectSession α) : DetectEvent α → Option (DetectSession α)
  | .prepare built =>
    match s.thread with
    | none => some { s with thread := some ⟨prepared built, .start α built, false⟩ }
    | some _ => none
  | .runner e => s.thread.bind fun t =>
    (t.runner.next e).map fun runner => { s with thread := some { t with runner := runner } }
  | .publish vtsConnected vtsRegistered vtsRegisterFailed => s.thread.bind fun t =>
    if t.published then none
    else
      let flags : StatusFlags :=
        ⟨t.loop.modelReadyFlag, t.runner.failed, vtsConnected, vtsRegistered, vtsRegisterFailed⟩
      some { s with
        thread := some { t with published := true }
        statusBits := flags.pack
        publications := s.publications ++ [flags] }
  | .tick i => s.thread.bind fun t =>
    if t.published ∧ i.failed = t.runner.failed then
      some { s with thread := some { t with loop := (t.loop.tick i).2, published := false } }
    else none
  | .loadBits =>
    match s.loaded with
    | none => some { s with loaded := some s.statusBits }
    | some _ => none
  | .loadSpeaker => s.loaded.map fun bits =>
    { s with loaded := none, shown := s.shown ++ [getStatus bits s.speaker] }

end DetectSession

/-! ## What a later poll shows -/

/-- What stays true of the flags in a session. -/
structure StatusFlags.Le (f g : StatusFlags) : Prop where
  modelReady : f.modelReady = true → g.modelReady = true
  inferenceFailed : f.inferenceFailed = true → g.inferenceFailed = true

theorem StatusFlags.Le.refl (f : StatusFlags) : f.Le f := ⟨id, id⟩

/-- A latched speaker stays latched. -/
def Latches (speaker speaker' : Int) : Prop := speaker = 0 ∨ speaker = 1 → speaker' = 0 ∨ speaker' = 1

theorem rank_getStatus (bits : UInt32) (speaker : Int) : (detectStateFor (getStatus bits speaker)).rank =
    if (StatusFlags.unpack bits).inferenceFailed then 4
    else if (StatusFlags.unpack bits).modelReady then if speaker = 0 ∨ speaker = 1 then 3 else 2
    else 1 := by
  unfold detectStateFor getStatus
  cases (StatusFlags.unpack bits).inferenceFailed
  · cases (StatusFlags.unpack bits).modelReady
    · rfl
    · by_cases h0 : speaker = 0
      · simp [h0, DetectState.rank]
      · by_cases h1 : speaker = 1
        · simp [h1, DetectState.rank]
        · simp [h0, h1, DetectState.rank]
  · rfl

theorem rank_getStatus_le {bits bits' : UInt32} {speaker speaker' : Int}
    (hbits : (StatusFlags.unpack bits).Le (.unpack bits')) (hspeaker : Latches speaker speaker') :
    (detectStateFor (getStatus bits speaker)).rank ≤ (detectStateFor (getStatus bits' speaker')).rank := by
  obtain ⟨hready, hfailed⟩ := hbits
  rw [rank_getStatus, rank_getStatus]
  by_cases hf : (StatusFlags.unpack bits).inferenceFailed = true
  · rw [if_pos hf, if_pos (hfailed hf)]
  rw [if_neg hf]
  by_cases hr : (StatusFlags.unpack bits).modelReady = true
  · rw [if_pos hr, if_pos (hready hr)]
    by_cases hs : speaker = 0 ∨ speaker = 1
    · rw [if_pos hs, if_pos (hspeaker hs)]
      split_ifs <;> omega
    · rw [if_neg hs]
      split_ifs <;> omega
  · rw [if_neg hr]
    split_ifs <;> omega

/-! ## The latch -/

namespace AnalysisLoop

variable {s : AnalysisLoop α}

theorem latches_latch (failed : Bool) : Latches s.latchedSpeaker (s.latch failed).latchedSpeaker := by
  unfold latch Latches
  split
  · dsimp only
    split_ifs <;> simp
  · exact id

theorem latches_tick [Zero α] (i : TickInput α) : Latches s.latchedSpeaker (s.tick i).2.latchedSpeaker := by
  rw [tick_latch.1, ← inferred_frame.1]
  exact latches_latch i.failed

end AnalysisLoop

/-! ## Sessions -/

namespace DetectSession

variable {s t : DetectSession α}

/-- What every step keeps. -/
structure Inv (s : DetectSession α) : Prop where
  modelReady : (StatusFlags.unpack s.statusBits).modelReady = true →
    ∃ t, s.thread = some t ∧ t.loop.modelReadyFlag = true
  inferenceFailed : (StatusFlags.unpack s.statusBits).inferenceFailed = true →
    ∃ t, s.thread = some t ∧ t.runner.hardFailed = true
  published : StatusFlags.unpack s.statusBits ∈ .none :: s.publications
  loaded : ∀ bits, s.loaded = some bits →
    (StatusFlags.unpack bits).Le (.unpack s.statusBits) ∧ StatusFlags.unpack bits ∈ .none :: s.publications
  shown : ∀ p ∈ s.shown, p.running = true ∧ p.flags ∈ .none :: s.publications ∧
    (p.flags.modelReady = true → ∃ t, s.thread = some t ∧ t.loop.modelReadyFlag = true) ∧
    (detectStateFor p).rank ≤ (detectStateFor (getStatus (s.loaded.getD s.statusBits) s.speaker)).rank
  order : s.shown.Pairwise fun p q => (detectStateFor p).rank ≤ (detectStateFor q).rank

theorem inv_new : Inv (new α) where
  modelReady := by simp [new, StatusFlags.none]
  inferenceFailed := by simp [new, StatusFlags.none]
  published := by simp [new]
  loaded := by simp [new]
  shown := by simp [new]
  order := List.Pairwise.nil

/-- A step of the thread, between the loads of the polls. -/
theorem Inv.later (hs : s.Inv) {thread : Option (SessionThread α)} {statusBits : UInt32}
    {publications : List StatusFlags} (ht : t = { s with
      thread := thread, statusBits := statusBits, publications := publications })
    (hle : (StatusFlags.unpack s.statusBits).Le (.unpack statusBits))
    (hpublications : ∀ f ∈ s.publications, f ∈ publications)
    (hpublished : StatusFlags.unpack statusBits ∈ .none :: publications)
    (hready : (StatusFlags.unpack statusBits).modelReady = true →
      ∃ t, thread = some t ∧ t.loop.modelReadyFlag = true)
    (hfailed : (StatusFlags.unpack statusBits).inferenceFailed = true →
      ∃ t, thread = some t ∧ t.runner.hardFailed = true)
    (hthread : ∀ t, s.thread = some t → t.loop.modelReadyFlag = true →
      ∃ t, thread = some t ∧ t.loop.modelReadyFlag = true)
    (hspeaker : Latches s.speaker t.speaker) : t.Inv := by
  have hmem : ∀ f ∈ StatusFlags.none :: s.publications, f ∈ StatusFlags.none :: publications := by
    intro f hf
    obtain rfl | hf := List.mem_cons.1 hf
    · exact List.mem_cons_self
    · exact List.mem_cons_of_mem _ (hpublications f hf)
  subst ht
  refine ⟨hready, hfailed, hpublished, fun bits hbits => ?_, fun p hp => ?_, hs.order⟩
  · obtain ⟨⟨hr, hf⟩, hsource⟩ := hs.loaded bits hbits
    exact ⟨⟨fun h => hle.modelReady (hr h), fun h => hle.inferenceFailed (hf h)⟩, hmem _ hsource⟩
  · obtain ⟨hrunning, hsource, hflag, hrank⟩ := hs.shown p hp
    refine ⟨hrunning, hmem _ hsource, fun h => ?_, hrank.trans (rank_getStatus_le ?_ hspeaker)⟩
    · obtain ⟨t, ht, hflag⟩ := hflag h
      exact hthread t ht hflag
    · show (StatusFlags.unpack (s.loaded.getD s.statusBits)).Le (.unpack (s.loaded.getD statusBits))
      cases s.loaded with
      | none => exact hle
      | some bits => exact .refl _

/-- The published flags are those of the thread, or older ones. -/
theorem Inv.flags (hs : s.Inv) {thread : SessionThread α} (hthread : s.thread = some thread)
    (vtsConnected vtsRegistered vtsRegisterFailed : Bool) :
    (StatusFlags.unpack s.statusBits).Le
      ⟨thread.loop.modelReadyFlag, thread.runner.failed, vtsConnected, vtsRegistered, vtsRegisterFailed⟩ where
  modelReady h := by
    obtain ⟨t, ht, hflag⟩ := hs.modelReady h
    obtain rfl := Option.some.inj (hthread.symm.trans ht)
    exact hflag
  inferenceFailed h := by
    obtain ⟨t, ht, hfailed⟩ := hs.inferenceFailed h
    obtain rfl := Option.some.inj (hthread.symm.trans ht)
    exact hfailed

/-- The runner or the loop goes on between two publications. -/
theorem Inv.goesOn (hs : s.Inv) {thread thread' : SessionThread α} (hthread : s.thread = some thread)
    (hflag : thread'.loop.modelReadyFlag = thread.loop.modelReadyFlag)
    (hfailed : thread.runner.failed = true → thread'.runner.failed = true)
    (hspeaker : Latches thread.loop.latchedSpeaker thread'.loop.latchedSpeaker) :
    ({ s with thread := some thread' } : DetectSession α).Inv := by
  have hflags := hs.flags hthread false false false
  refine hs.later rfl (.refl _) (fun f hf => hf) hs.published
    (fun h => ⟨_, rfl, hflag.trans (hflags.modelReady h)⟩)
    (fun h => ⟨_, rfl, hfailed (hflags.inferenceFailed h)⟩) (fun t ht h => ?_) ?_
  · obtain rfl := Option.some.inj (hthread.symm.trans ht)
    exact ⟨_, rfl, hflag.trans h⟩
  · simpa [speaker, hthread] using hspeaker

theorem inv_next [Zero α] {e : DetectEvent α} (hs : s.Inv) (h : s.next e = some t) : t.Inv := by
  cases e with
  | prepare built =>
    simp only [next] at h
    split at h
    next hthread =>
      cases h
      have hnone : ∀ t, s.thread ≠ some t := by simp [hthread]
      refine hs.later rfl (.refl _) (fun f hf => hf) hs.published (fun h => ?_) (fun h => ?_)
        (fun t ht => absurd ht (hnone t)) ?_
      · obtain ⟨t, ht, -⟩ := hs.modelReady h
        exact absurd ht (hnone t)
      · obtain ⟨t, ht, -⟩ := hs.inferenceFailed h
        exact absurd ht (hnone t)
      · simp [speaker, hthread, Latches, AnalysisLoop.start]
    next => cases h
  | runner e =>
    obtain ⟨thread, hthread, h⟩ := Option.bind_eq_some_iff.1 h
    obtain ⟨runner, hrunner, rfl⟩ := Option.map_eq_some_iff.1 h
    exact hs.goesOn hthread rfl (fun hfailed => hardFailed_next hfailed hrunner) id
  | publish vtsConnected vtsRegistered vtsRegisterFailed =>
    obtain ⟨thread, hthread, h⟩ := Option.bind_eq_some_iff.1 h
    split at h
    · cases h
    cases h
    refine hs.later rfl ?_ (fun f hf => List.mem_append_left _ hf) ?_ (fun h => ⟨_, rfl, ?_⟩)
      (fun h => ⟨_, rfl, ?_⟩) (fun t ht hflag => ?_) ?_
    · rw [StatusFlags.unpack_pack]
      exact hs.flags hthread _ _ _
    · simp
    · simpa using h
    · simpa [failed] using h
    · obtain rfl := Option.some.inj (hthread.symm.trans ht)
      exact ⟨_, rfl, hflag⟩
    · simp [speaker, hthread, Latches]
  | tick i =>
    obtain ⟨thread, hthread, h⟩ := Option.bind_eq_some_iff.1 h
    obtain ⟨-, h⟩ := Option.ite_none_right_eq_some.1 h
    cases h
    exact hs.goesOn hthread AnalysisLoop.modelReadyFlag_tick id (AnalysisLoop.latches_tick i)
  | loadBits =>
    simp only [next] at h
    split at h
    next hloaded =>
      cases h
      refine ⟨hs.modelReady, hs.inferenceFailed, hs.published, fun bits hbits => ?_, fun p hp => ?_, hs.order⟩
      · obtain rfl := Option.some.inj hbits
        exact ⟨.refl _, hs.published⟩
      · have hp := hs.shown p hp
        rwa [hloaded] at hp
    next => cases h
  | loadSpeaker =>
    obtain ⟨bits, hbits, rfl⟩ := Option.map_eq_some_iff.1 h
    obtain ⟨hle, hsource⟩ := hs.loaded bits hbits
    have hlater : (detectStateFor (getStatus bits s.speaker)).rank ≤
        (detectStateFor (getStatus s.statusBits s.speaker)).rank := rank_getStatus_le hle id
    refine ⟨hs.modelReady, hs.inferenceFailed, hs.published, nofun, fun p hp => ?_, ?_⟩
    · obtain hp | hp := List.mem_append.1 hp
      · obtain ⟨hrunning, hmem, hflag, hrank⟩ := hs.shown p hp
        rw [hbits] at hrank
        exact ⟨hrunning, hmem, hflag, hrank.trans hlater⟩
      · obtain rfl := List.mem_singleton.1 hp
        exact ⟨rfl, hsource, fun h => hs.modelReady (hle.modelReady h), hlater⟩
    · refine List.pairwise_append.2 ⟨hs.order, List.pairwise_singleton _ _, fun p hp q hq => ?_⟩
      obtain rfl := List.mem_singleton.1 hq
      have hrank := (hs.shown p hp).2.2.2
      rwa [hbits] at hrank

/-- **The box never steps back.** In every run of a session, whatever the polls, the ticks and the runner do in between:
the shown states are in the order LOADING, IDLE, a speaker, INFERENCE ERROR, so that IDLE comes before the first speaker
only and an error stays. The bools of a snapshot were published together, if any were, and a speaker or IDLE is shown
only if the model could be built. -/
theorem detectState_session [Zero α] {es : List (DetectEvent α)} (h : execute next (new α) es = some s) :
    (s.shown.Pairwise fun p q => (detectStateFor p).rank ≤ (detectStateFor q).rank) ∧
    ∀ p ∈ s.shown, (p.flags = .none ∨ p.flags ∈ s.publications) ∧
      (detectStateFor p = .loading ∨ detectStateFor p = .error ∨
        ∃ t, s.thread = some t ∧ t.loop.modelReadyFlag = true) := by
  have hinv := execute_inv (fun _ _ _ hs hnext => inv_next hs hnext) inv_new h
  refine ⟨hinv.order, fun p hp => ?_⟩
  obtain ⟨hrunning, hsource, hflag, -⟩ := hinv.shown p hp
  refine ⟨List.mem_cons.1 hsource, ?_⟩
  unfold detectStateFor
  cases hready : p.flags.modelReady with
  | true => exact .inr (.inr (hflag hready))
  | false =>
    cases hfailed : p.flags.inferenceFailed with
    | true => exact .inr (.inl (by simp [hrunning]))
    | false => exact .inl (by simp [hrunning])

/-- A poll. -/
def poll : List (DetectEvent ℚ) := [.loadBits, .loadSpeaker]

/-- A session that hears baji until the inference fails. -/
def heardRun : List (DetectEvent ℚ) :=
  poll ++ [.prepare true, .publish true false false] ++ poll ++ [.tick (scored 0 false)] ++
    (List.replicate 7 [.publish true true false, .tick (scored 0 false)]).flatten ++ poll ++
    failedInference.map .runner ++ [.publish true true false] ++ poll

theorem detectState_session_heard : ∃ s, execute next (new ℚ) heardRun = some s ∧
    s.shown.map detectStateFor = [.loading, .idle, .baji, .error] ∧
      s.shown.Pairwise fun p q => (detectStateFor p).rank ≤ (detectStateFor q).rank := by
  obtain ⟨s, hs, hshown⟩ := Option.map_eq_some_iff.1 (show
    (execute next (new ℚ) heardRun).map (·.shown.map detectStateFor) = some [.loading, .idle, .baji, .error] by
      decide +kernel)
  exact ⟨s, hs, hshown, (detectState_session hs).1⟩

end DetectSession

end Bajiru.Linkjiru
