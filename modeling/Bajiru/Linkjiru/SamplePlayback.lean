import Bajiru.Linkjiru.PluginProcessor
import Bajiru.Runs

/-!
# Playing a test sample

`playSample` stores a command in `samplePlaying`; the audio callback loads it when it starts, and stores -1 in it when the
sample has ended. Here these two accesses are two steps, between which any other call may come (`Playback`). Without a
call between them they are `processBlock` (`processBlock_eq`).

A command is picked up by the next callback and plays from its first sample exactly if it does not come between the two
accesses and is not the sample that is being played (`playSample_starts_iff`).
-/

namespace Bajiru.Linkjiru

variable {I : Type*} (env : Env I)

namespace LinkjiruProcessor

/-- The sample that is being played. -/
def currentSample (s : LinkjiruProcessor I) : List ℚ := if s.currentlyPlaying = 0 then env.baji else env.ru

/-- `streamTestSample` up to the read position: the frames that the block consumes, and its output. -/
def streamSlice (s : LinkjiruProcessor I) (buffer : AudioBuffer) : LinkjiruProcessor I × Nat × AudioBuffer :=
  let src := s.currentSample env
  let len := src.length
  let outN := min buffer.numSamples maxAudioBlockSamples
  if s.currentSampleRate = modelSampleRate then
    let out : Mem ℚ := fun i => src.getD (s.samplePos + i) 0
    let consumed := buffer.numSamples
    let count := min consumed (len - s.samplePos)
    let s :=
      if s.analysisRunning ∧ count > 0 then { s with hostRing := s.hostRing.write ((src.drop s.samplePos).take count) }
      else s
    (s, consumed, { buffer with data := fun _ => out })
  else
    let (consumed, out, playbackInterp) := env.interp s.playbackInterp (modelSampleRate / s.currentSampleRate)
      (src.drop s.samplePos) outN (len - s.samplePos)
    let s := { s with playbackInterp := playbackInterp }
    let s :=
      if s.analysisRunning ∧ outN > 0 then { s with hostRing := s.hostRing.write ((List.range outN).map out) } else s
    (s, consumed, { buffer with data := fun _ i => if i < outN then out i else 0 })

/-- The end of the sample: the command is overwritten. -/
def endSample (s : LinkjiruProcessor I) : LinkjiruProcessor I :=
  { s with samplePlaying := -1, currentlyPlaying := -1, samplePos := 0, playbackInterp := env.interpReset }

variable {env} {s : LinkjiruProcessor I}

theorem streamTestSample_eq (buffer : AudioBuffer) : s.streamTestSample env buffer =
    ((s.streamSlice env buffer).1.advanceSample env (s.streamSlice env buffer).2.1 (s.currentSample env).length,
      (s.streamSlice env buffer).2.2) := by
  unfold streamTestSample streamSlice currentSample
  dsimp only
  split
  · rfl
  · rfl

/-- The playback goes on where it was, or is over. -/
theorem advanceSample_eq (consumed len : Nat) : s.advanceSample env consumed len =
    if s.samplePos + consumed ≥ len then endSample env { s with samplePos := s.samplePos + consumed }
    else { s with samplePos := s.samplePos + consumed } := rfl

end LinkjiruProcessor

/-! ## The steps -/

/-- The processor, and whether its audio callback has come to the end of the sample but not stored that yet. -/
structure Playback (I : Type*) where
  processor : LinkjiruProcessor I
  ending : Bool

/-- A call other than the audio callback, or an access of the callback to the command: its load, with which it starts, and
its store of -1. -/
inductive PlaybackEvent
  | call (e : HostEvent)
  | load (buffer : AudioBuffer)
  | store

namespace Playback

def new : Playback I := ⟨.new env, false⟩

/-- The callback up to its store. -/
def load (p : LinkjiruProcessor I) (buffer : AudioBuffer) : Playback I × AudioBuffer :=
  if buffer.numChannels = 0 ∨ buffer.numSamples = 0 then (⟨p, false⟩, buffer)
  else
    let p := p.pickUpCommand env
    if p.currentlyPlaying ≥ 0 then
      let (q, consumed, out) := p.streamSlice env buffer
      (⟨{ q with samplePos := q.samplePos + consumed }, q.samplePos + consumed ≥ (p.currentSample env).length⟩, out)
    else if p.analysisRunning then
      (⟨{ p with
        hostRing := p.hostRing.write (LinkjiruProcessor.downmix buffer (min buffer.numSamples maxAudioBlockSamples)) },
        false⟩, buffer)
    else (⟨p, false⟩, buffer)

/-- The callback from its store on. -/
def store (s : Playback I) : Playback I := ⟨s.processor.endSample env, false⟩

/-- One step. The callback is not started again before it has returned. -/
def next (s : Playback I) : PlaybackEvent → Option (Playback I)
  | .call (.processBlock _) => none
  | .call e => (s.processor.next env e).map (⟨·, s.ending⟩)
  | .load buffer => if s.ending then none else some (load env s.processor buffer).1
  | .store => if s.ending then some (s.store env) else none

variable {env} {s t u : Playback I} {e : PlaybackEvent} {es : List PlaybackEvent}

/-- **The steps are the callback.** -/
theorem processBlock_eq (p : LinkjiruProcessor I) (buffer : AudioBuffer) : p.processBlock env buffer =
    ((if (load env p buffer).1.ending then ((load env p buffer).1.store env).processor
      else (load env p buffer).1.processor), (load env p buffer).2) := by
  unfold LinkjiruProcessor.processBlock load
  dsimp only
  split
  · rfl
  · split
    · rw [LinkjiruProcessor.streamTestSample_eq, LinkjiruProcessor.advanceSample_eq]
      simp only [decide_eq_true_eq]
      rfl
    · split
      · rfl
      · rfl

/-! ## What does not touch the playback -/

/-- The command and the playback are the same. -/
structure SamePlayback (p q : LinkjiruProcessor I) : Prop where
  samplePlaying : q.samplePlaying = p.samplePlaying
  currentlyPlaying : q.currentlyPlaying = p.currentlyPlaying
  samplePos : q.samplePos = p.samplePos

theorem samePlayback_startAnalysis (p : LinkjiruProcessor I) : SamePlayback p (p.startAnalysis env) := by
  obtain ⟨_, _, _, _, hstart, -⟩ := LinkjiruProcessor.startAnalysis_frame env p
  rw [hstart]
  exact ⟨rfl, rfl, rfl⟩

theorem samePlayback_handleAsyncUpdate (p : LinkjiruProcessor I) : SamePlayback p (p.handleAsyncUpdate env) := by
  unfold LinkjiruProcessor.handleAsyncUpdate
  dsimp only
  split
  · split
    · obtain ⟨hplaying, hcurrent, hpos⟩ :=
        samePlayback_startAnalysis (LinkjiruProcessor.stopAnalysis { p with restartPending := false })
      exact ⟨hplaying, hcurrent, hpos⟩
    · exact ⟨rfl, rfl, rfl⟩
  · split
    · exact samePlayback_startAnalysis p
    · split
      · exact ⟨rfl, rfl, rfl⟩
      · exact ⟨rfl, rfl, rfl⟩

/-- An event that posts no command and starts no callback with samples. -/
def Quiet : PlaybackEvent → Prop
  | .call (.playSample _) => False
  | .load buffer => buffer.numChannels = 0 ∨ buffer.numSamples = 0
  | _ => True

/-- The calls that do not play leave the playback alone. -/
theorem quiet_call {e : HostEvent} (he : Quiet (.call e)) (h : s.next env (.call e) = some t) :
    SamePlayback s.processor t.processor ∧ t.ending = s.ending := by
  cases e with
  | playSample which => exact he.elim
  | processBlock buffer => cases h
  | handleAsyncUpdate =>
    obtain ⟨p, hp, rfl⟩ := Option.map_eq_some_iff.1 h
    obtain ⟨-, hp⟩ := Option.ite_none_right_eq_some.1 hp
    obtain rfl := Option.some.inj hp
    obtain ⟨hplaying, hcurrent, hpos⟩ :=
      samePlayback_handleAsyncUpdate { s.processor with updatePending := false }
    exact ⟨⟨hplaying, hcurrent, hpos⟩, rfl⟩
  | setStateInformation data =>
    obtain rfl := Option.some.inj h
    refine ⟨?_, rfl⟩
    show SamePlayback s.processor (s.processor.setStateInformation data)
    unfold LinkjiruProcessor.setStateInformation
    split
    · exact ⟨rfl, rfl, rfl⟩
    · exact ⟨rfl, rfl, rfl⟩
  | setAnalysisActive active =>
    obtain rfl := Option.some.inj h
    exact ⟨⟨rfl, rfl, rfl⟩, rfl⟩
  | automation value =>
    obtain rfl := Option.some.inj h
    exact ⟨⟨rfl, rfl, rfl⟩, rfl⟩
  | requestRestart =>
    obtain rfl := Option.some.inj h
    exact ⟨⟨rfl, rfl, rfl⟩, rfl⟩
  | prepareToPlay sampleRate =>
    obtain rfl := Option.some.inj h
    exact ⟨⟨rfl, rfl, rfl⟩, rfl⟩
  | releaseResources =>
    obtain rfl := Option.some.inj h
    exact ⟨⟨rfl, rfl, rfl⟩, rfl⟩

/-- A quiet step leaves the playback alone, or is the store. -/
theorem quiet_next (he : Quiet e) (h : s.next env e = some t) :
    (SamePlayback s.processor t.processor ∧ t.ending = s.ending) ∨ s.ending = true ∧ t = s.store env := by
  cases e with
  | load buffer =>
    obtain ⟨hend, h⟩ := Option.ite_none_left_eq_some.1 h
    obtain rfl := Option.some.inj h
    unfold load
    rw [if_pos (show buffer.numChannels = 0 ∨ buffer.numSamples = 0 from he)]
    exact .inl ⟨⟨rfl, rfl, rfl⟩, (Bool.eq_false_of_not_eq_true hend).symm⟩
  | store =>
    obtain ⟨hend, h⟩ := Option.ite_none_right_eq_some.1 h
    exact .inr ⟨hend, (Option.some.inj h).symm⟩
  | call e => exact .inl (quiet_call he h)

/-- A quiet run leaves the playback alone, or stores. -/
theorem quiet_execute (hquiet : ∀ e ∈ es, Quiet e) (h : execute (next env) s es = some t) :
    (SamePlayback s.processor t.processor ∧ t.ending = s.ending) ∨
      s.ending = true ∧ t.ending = false ∧ t.processor.samplePlaying = -1 ∧ t.processor.currentlyPlaying = -1 := by
  induction es generalizing s with
  | nil =>
    cases h
    exact .inl ⟨⟨rfl, rfl, rfl⟩, rfl⟩
  | cons e es ih =>
    obtain ⟨v, hv, h⟩ := execute_cons_some h
    have hrest := ih (fun e' he' => hquiet e' (List.mem_cons_of_mem e he')) h
    rcases quiet_next (hquiet e List.mem_cons_self) hv with ⟨hsame, hend⟩ | ⟨hend, rfl⟩
    · rw [hend] at hrest
      refine hrest.imp_left fun ⟨hsame', hend'⟩ => ⟨⟨?_, ?_, ?_⟩, hend'⟩
      · exact hsame'.samplePlaying.trans hsame.samplePlaying
      · exact hsame'.currentlyPlaying.trans hsame.currentlyPlaying
      · exact hsame'.samplePos.trans hsame.samplePos
    · rcases hrest with ⟨hsame', hend'⟩ | ⟨hend', -⟩
      · exact .inr ⟨hend, hend', hsame'.samplePlaying, hsame'.currentlyPlaying⟩
      · cases hend'

/-! ## A command -/

variable (env) in
/-- The callback that starts now streams the sample `w` from its first frame. -/
def Starts (p : LinkjiruProcessor I) (w : Int) : Prop :=
  (p.pickUpCommand env).currentlyPlaying = w ∧ (p.pickUpCommand env).samplePos = 0

/-- A command that is not the current one is picked up. -/
theorem starts_iff {p : LinkjiruProcessor I} {w : Int} :
    Starts env p w ↔ p.samplePlaying = w ∧ (p.currentlyPlaying ≠ w ∨ p.samplePos = 0) := by
  unfold Starts LinkjiruProcessor.pickUpCommand
  split
  next hne => exact ⟨fun ⟨hw, _⟩ => ⟨hw, .inl (hw ▸ Ne.symm hne)⟩, fun ⟨hw, _⟩ => ⟨hw, rfl⟩⟩
  next heq =>
    rw [ne_eq, not_not] at heq
    rw [heq]
    exact and_congr_right fun hw => by simp [hw]

/-- A callback at the model rate that finds a sample: it puts out the frames from the read position on, which moves by
the block. -/
theorem load_unity {p q : LinkjiruProcessor I} {buffer : AudioBuffer} (hq : p.pickUpCommand env = q)
    (hplaying : 0 ≤ q.currentlyPlaying) (hbuffer : ¬ (buffer.numChannels = 0 ∨ buffer.numSamples = 0))
    (hrate : p.currentSampleRate = modelSampleRate) :
    (∀ ch i, (load env p buffer).2.data ch i = (q.currentSample env).getD (q.samplePos + i) 0) ∧
      (load env p buffer).1.processor.currentlyPlaying = q.currentlyPlaying ∧
      (load env p buffer).1.processor.samplePos = q.samplePos + buffer.numSamples ∧
      ((load env p buffer).1.ending = true ↔ (q.currentSample env).length ≤ q.samplePos + buffer.numSamples) := by
  subst hq
  have hrate' : (p.pickUpCommand env).currentSampleRate = modelSampleRate :=
    LinkjiruProcessor.sameLifecycle_pickUpCommand.currentSampleRate.trans hrate
  unfold load
  rw [if_neg hbuffer]
  dsimp only
  rw [if_pos hplaying, LinkjiruProcessor.streamSlice]
  dsimp only
  rw [if_pos hrate']
  dsimp only
  split
  · exact ⟨fun _ _ => rfl, rfl, rfl, decide_eq_true_iff⟩
  · exact ⟨fun _ _ => rfl, rfl, rfl, decide_eq_true_iff⟩

/-- The output of a callback that starts a sample, at the model rate. -/
theorem load_starts {p : LinkjiruProcessor I} {w : Int} {buffer : AudioBuffer} (hw : 0 ≤ w) (h : Starts env p w)
    (hbuffer : ¬ (buffer.numChannels = 0 ∨ buffer.numSamples = 0)) (hrate : p.currentSampleRate = modelSampleRate)
    (ch i : Nat) : (load env p buffer).2.data ch i = (if w = 0 then env.baji else env.ru).getD i 0 := by
  obtain ⟨hplaying, hpos⟩ := h
  rw [(load_unity rfl (hplaying ▸ hw) hbuffer hrate).1, hpos, Nat.zero_add, LinkjiruProcessor.currentSample, hplaying]

/-- The state behind the command `w`. -/
def posted (s : Playback I) (w : Int) : Playback I := ⟨s.processor.playSample w, s.ending⟩

theorem posted_next (s : Playback I) (w : Int) : s.next env (.call (.playSample w)) = some (s.posted w) := rfl

theorem posted_ending (s : Playback I) (w : Int) : (s.posted w).ending = s.ending := rfl

theorem posted_processor (s : Playback I) (w : Int) :
    (s.posted w).processor.currentlyPlaying = s.processor.currentlyPlaying ∧
      (s.posted w).processor.samplePos = s.processor.samplePos :=
  ⟨rfl, rfl⟩

/-- **A command takes effect**, in the first callback that starts behind it, exactly if it is not posted between the load
and the store of a callback that ends the sample, and is not the command for the sample that is being played. -/
theorem playSample_starts_iff {w : Int} (hw : w = 0 ∨ w = 1) (hpost : s.next env (.call (.playSample w)) = some t)
    (hquiet : ∀ e ∈ es, Quiet e) (hrun : execute (next env) t es = some u) (hload : u.ending = false) :
    Starts env u.processor w ↔
      s.ending = false ∧ (s.processor.currentlyPlaying ≠ w ∨ s.processor.samplePos = 0) := by
  obtain rfl := Option.some.inj hpost
  rw [starts_iff]
  rcases quiet_execute hquiet hrun with ⟨hsame, hend⟩ | ⟨hend, -, hplaying, -⟩
  · have hcommand : u.processor.samplePlaying = w := hsame.samplePlaying.trans (if_pos hw)
    rw [hsame.currentlyPlaying, hsame.samplePos]
    exact ⟨fun h => ⟨hend.symm.trans hload, h.2⟩, fun h => ⟨hcommand, h.2⟩⟩
  · constructor
    · intro h
      rw [hplaying] at h
      omega
    · intro h
      cases hend.symm.trans h.1

/-! ## Commands while baji is playing -/

/-- Samples as long as the bundled ones. -/
def silentEnv : Env Unit where
  baji := List.replicate 207862 0
  ru := List.replicate 309285 0
  interpReset := ()
  interp := fun _ _ _ _ _ => (0, fun _ => 0, ())
  prepareOrtRuntime := true

def stereoBlock : AudioBuffer := ⟨2, 480, fun _ _ => 0⟩

/-- The host runs at the model rate, and baji is told to play. -/
def bajiPosted : LinkjiruProcessor Unit := ((LinkjiruProcessor.new silentEnv).prepareToPlay 48000).playSample 0

/-- The first block of baji is out. -/
def bajiPlaying : Playback Unit := (load silentEnv bajiPosted stereoBlock).1

theorem bajiPlaying_run : execute (next silentEnv) (new silentEnv)
    [.call (.prepareToPlay 48000), .call (.playSample 0), .load stereoBlock] = some bajiPlaying := rfl

theorem bajiPlaying_state : bajiPlaying.processor.currentlyPlaying = 0 ∧ bajiPlaying.processor.samplePos = 480 ∧
    bajiPlaying.ending = false := by
  obtain ⟨-, hplaying, hpos, hend⟩ := @load_unity _ silentEnv bajiPosted _ stereoBlock rfl
    le_rfl (by decide) rfl
  refine ⟨hplaying, hpos, Bool.eq_false_iff.2 fun h => ?_⟩
  have hlen : (List.replicate 207862 (0 : ℚ)).length ≤ 480 := hend.1 h
  rw [List.length_replicate] at hlen
  omega

theorem playSample_starts_ru : Starts silentEnv (bajiPlaying.posted 1).processor 1 := by
  obtain ⟨hplaying, -, hend⟩ := bajiPlaying_state
  refine (playSample_starts_iff (.inr rfl) (posted_next bajiPlaying 1) (List.forall_mem_nil _) (execute_nil _)
    ((posted_ending bajiPlaying 1).trans hend)).2 ⟨hend, .inl ?_⟩
  rw [hplaying]
  decide

theorem playSample_starts_again : ¬ ∀ (es es' : List PlaybackEvent) (s t u : Playback Unit) (w : Int), w = 0 ∨ w = 1 →
    execute (next silentEnv) (new silentEnv) es = some s → s.next silentEnv (.call (.playSample w)) = some t →
    (∀ e ∈ es', Quiet e) → execute (next silentEnv) t es' = some u → u.ending = false →
    Starts silentEnv u.processor w := by
  intro hall
  obtain ⟨hplaying, hpos, hend⟩ := bajiPlaying_state
  have hstart := hall _ [] bajiPlaying _ _ 0 (.inl rfl) bajiPlaying_run (posted_next bajiPlaying 0) nofun
    (execute_nil _) ((posted_ending bajiPlaying 0).trans hend)
  rw [starts_iff, (posted_processor bajiPlaying 0).1, (posted_processor bajiPlaying 0).2, hplaying, hpos] at hstart
  omega

end Playback

end Bajiru.Linkjiru
