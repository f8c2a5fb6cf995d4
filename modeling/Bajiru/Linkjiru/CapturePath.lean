import Bajiru.Runs
import Bajiru.Linkjiru.Constants
import Bajiru.Linkjiru.Resampler

/-!
# The capture path

`hostRing` → `Resampler` → `modelBuffer`, as `AnalysisThread::resampleHostInput` drives it: the audio thread writes
blocks of host samples, a tick drains them in chunks, and every chunk goes through the resampler into the model ring.
A ring operation is one step; blocks may arrive between the reads of one drain.

While the drain keeps up, the model ring takes the reference resampling of the host samples read (`drain_spec`), up to
the final clamp of the resampler. A full chunk fits the clamp from half the model rate on and not below
(`capture_lossless_iff`).
-/

namespace Bajiru.Linkjiru

open Upfirdn SharedRingBuffer Resampler

/-- `kDrainChunk`. -/
def kDrainChunk : Nat := 4096

variable {R : Type*}

/-- The two rings and what the thread keeps for the drain. The host samples `heard` since the cursor was initialised,
the number `drained` of them and the samples `resampled` into the model ring are not program state. -/
structure Capture (R : Type*) where
  hostRing : SharedRingBuffer R ringBufferCapacity
  modelBuffer : SharedRingBuffer R ringBufferCapacity
  resampler : Resampler R
  drainScratch : Mem R
  hostCursor : UInt64
  draining : Bool
  heard : List R
  drained : Nat
  resampled : List R

/-- The audio thread writes a block, a tick enters `resampleHostInput`, or its loop runs once. -/
inductive CaptureEvent (R : Type*)
  | audio (block : List R)
  | tick
  | drain
  deriving DecidableEq

namespace Capture

variable [CommRing R] (prototype : Nat → Nat → Nat → Mem R)

/-- The constructor of `AnalysisThread`: the cursor starts at the host ring's counter. -/
def create (hostRing : SharedRingBuffer R ringBufferCapacity) (hostSampleRate : Nat) : Option (Capture R) :=
  ((Resampler.new R modelSampleRate kDrainChunk).bind (·.prepare prototype hostSampleRate)).map fun resampler =>
    { hostRing := hostRing
      modelBuffer := SharedRingBuffer.new R ringBufferCapacity
      resampler := resampler
      drainScratch := fun _ => 0
      hostCursor := hostRing.getWriteCount
      draining := false
      heard := []
      drained := 0
      resampled := [] }

/-- A chunk goes through the resampler into the model ring. -/
def feed (s : Capture R) (chunk : List R) : Capture R :=
  let out := s.resampler.process chunk
  if out.block.length > 0 then
    { s with
      resampler := out.resampler
      modelBuffer := s.modelBuffer.write out.block
      resampled := s.resampled ++ out.block }
  else { s with resampler := out.resampler }

/-- The loop of `resampleHostInput` runs once. -/
def drain (s : Capture R) : Capture R :=
  let (rr, drainScratch, hostCursor) := s.hostRing.read s.drainScratch kDrainChunk s.hostCursor
  let s := { s with drainScratch := drainScratch, hostCursor := hostCursor, drained := s.drained + rr.samplesRead }
  let s := if rr.samplesRead > 0 then s.feed ((List.range rr.samplesRead).map drainScratch) else s
  { s with draining := !decide (rr.samplesRead < kDrainChunk) }

/-- One step of the audio thread or of the drain. -/
def next (s : Capture R) : CaptureEvent R → Option (Capture R)
  | .audio block => some { s with hostRing := s.hostRing.write block, heard := s.heard ++ block }
  | .tick => if s.draining then none else some { s with draining := true }
  | .drain => if s.draining then some s.drain else none

/-- The drain is at most the ring capacity behind, and its read reports no overrun. -/
def KeepsUp (s : Capture R) (e : CaptureEvent R) : Prop :=
  e = .drain → s.heard.length ≤ s.drained + ringBufferCapacity.val ∧
    (s.hostRing.read s.drainScratch kDrainChunk s.hostCursor).1.overrun = false

/-- The capture path loses nothing at a host rate: a thread started on any host ring writes the reference resampling of
the samples it has drained, as long as it keeps up, and a drain that ends has drained everything. -/
def Lossless (hostRate : Nat) : Prop :=
  ∀ earlier : List (List R), ∃ s₀,
    create prototype (earlier.foldl write (SharedRingBuffer.new R ringBufferCapacity)) hostRate = some s₀ ∧
    ∀ es s, execute next s₀ es = some s → Along next KeepsUp s₀ es →
      s.modelBuffer.Represents s.resampled ∧
      s.resampled = reference prototype modelSampleRate hostRate (s.heard.take s.drained) ∧
      (es.getLast? = some .drain → s.draining = false → s.drained = s.heard.length)

end Capture

namespace Capture

variable [CommRing R] {prototype : Nat → Nat → Nat → Mem R} {hostRate : Nat} {s s' : Capture R}

/-- What the steps keep, up to the samples a clamp removes: the host ring holds what was heard behind the cursor, the
resampler has been fed what was drained, the model ring has taken what was resampled. -/
structure Inv (prototype : Nat → Nat → Nat → Mem R) (hostRate : Nat) (s : Capture R) : Prop where
  host : ∃ h₀ : List R, s.hostRing.Represents (h₀ ++ s.heard) ∧
    s.hostCursor.toNat = (h₀.length + s.drained) % 2 ^ 64
  drained : s.drained ≤ s.heard.length
  streamed : Streamed prototype modelSampleRate hostRate kDrainChunk s.resampler (s.heard.take s.drained)
  model : s.modelBuffer.Represents s.resampled

/-- What a chunk behind the samples `xs` adds to the resampled ones: the outputs it determines, up to the clamp. -/
def Adds (prototype : Nat → Nat → Nat → Mem R) (hostRate : Nat) (xs chunk resampled resampled' : List R) : Prop :=
  ∃ out, reference prototype modelSampleRate hostRate (xs ++ chunk) =
      reference prototype modelSampleRate hostRate xs ++ out ∧
    resampled' = resampled ++ out.take (kDrainChunk * 2) ∧
    (hostRate ≠ modelSampleRate → out.length ≤ outputCount (stageRatios modelSampleRate hostRate) chunk.length) ∧
    (hostRate = modelSampleRate → out = chunk)

theorem create_inv (hr : 0 < hostRate) {hostRing : SharedRingBuffer R ringBufferCapacity} {h₀ : List R}
    (hh : hostRing.Represents h₀) (hc : create prototype hostRing hostRate = some s) :
    Inv prototype hostRate s ∧ s.heard = [] ∧ s.drained = 0 ∧ s.resampled = [] ∧ s.draining = false := by
  obtain ⟨resampler, hrs, rfl⟩ := Option.map_eq_some_iff.1 hc
  refine ⟨⟨⟨h₀, by simpa using hh, hh.count⟩, Nat.le_refl _, ?_, represents_new⟩, rfl, rfl, rfl, rfl⟩
  simpa using prepare_streamed (by decide) hr hrs

/-- A chunk fed to the resampler; the host side is not touched. -/
theorem feed_spec {xs chunk : List R}
    (hs : Streamed prototype modelSampleRate hostRate kDrainChunk s.resampler xs)
    (hm : s.modelBuffer.Represents s.resampled) (hlen : chunk.length ≤ kDrainChunk) :
    ∃ resampler modelBuffer resampled,
      s.feed chunk = { s with resampler := resampler, modelBuffer := modelBuffer, resampled := resampled } ∧
      Streamed prototype modelSampleRate hostRate kDrainChunk resampler (xs ++ chunk) ∧
      modelBuffer.Represents resampled ∧ Adds prototype hostRate xs chunk s.resampled resampled := by
  obtain ⟨hs', -, out, href, hblock, -, hcount, hby⟩ := process_streamed hs hlen
  by_cases hpos : (s.resampler.process chunk).block.length > 0
  · exact ⟨_, _, _, by rw [feed, if_pos hpos], hs', represents_write hm _, out, href, by rw [hblock], hcount, hby⟩
  · have hnil : (s.resampler.process chunk).block = [] := List.length_eq_zero_iff.1 (Nat.eq_zero_of_not_pos hpos)
    refine ⟨_, s.modelBuffer, s.resampled, by rw [feed, if_neg hpos], hs', hm, out, href, ?_, hcount, hby⟩
    rw [← hblock, hnil, List.append_nil]

/-- **One round of the drain loop** of a thread that keeps up: it takes the next samples behind the cursor and adds what
they determine. -/
theorem drain_spec (hi : Inv prototype hostRate s) (hlag : s.heard.length ≤ s.drained + ringBufferCapacity.val)
    (hover : (s.hostRing.read s.drainScratch kDrainChunk s.hostCursor).1.overrun = false) {k : Nat}
    (hk : k = min kDrainChunk (s.heard.length - s.drained)) :
    Inv prototype hostRate s.drain ∧ s.drain.heard = s.heard ∧ s.drain.drained = s.drained + k ∧
      s.drain.draining = !decide (k < kDrainChunk) ∧
      Adds prototype hostRate (s.heard.take s.drained) ((s.heard.drop s.drained).take k) s.resampled
        s.drain.resampled := by
  obtain ⟨⟨h₀, hh, hcur⟩, hle, hst, hmod⟩ := hi
  have hd := read_keeps_up hh (m := kDrainChunk) hcur (by rw [List.length_append]; omega)
    (by rw [List.length_append]; omega) (by decide) s.drainScratch hover
  obtain ⟨hread, hsamples, -, hcursor⟩ := hd
  have hlen : (h₀ ++ s.heard).length - (h₀.length + s.drained) = s.heard.length - s.drained := by
    rw [List.length_append]; omega
  have hdrop : (h₀ ++ s.heard).drop (h₀.length + s.drained) = s.heard.drop s.drained := by
    rw [List.drop_append, List.drop_of_length_le (by omega), List.nil_append, Nat.add_sub_cancel_left]
  rw [hlen, ← hk] at hread hsamples hcursor
  rw [hread, hdrop] at hsamples
  have htake : s.heard.take (s.drained + k) = s.heard.take s.drained ++ (s.heard.drop s.drained).take k :=
    List.take_add
  have hchunk : ((s.heard.drop s.drained).take k).length ≤ kDrainChunk := by rw [List.length_take]; omega
  have hcur' : (s.hostRing.read s.drainScratch kDrainChunk s.hostCursor).2.2.toNat =
      (h₀.length + (s.drained + k)) % 2 ^ 64 := by rw [hcursor, Nat.add_assoc]
  rcases Nat.eq_zero_or_pos k with h0 | hpos
  · have hdrain : s.drain = { s with
        drainScratch := (s.hostRing.read s.drainScratch kDrainChunk s.hostCursor).2.1
        hostCursor := (s.hostRing.read s.drainScratch kDrainChunk s.hostCursor).2.2
        drained := s.drained + k
        draining := !decide (k < kDrainChunk) } := by
      simp only [drain, hread, if_neg (Nat.not_lt.2 h0.le)]
    rw [hdrain]
    subst h0
    refine ⟨⟨⟨h₀, hh, hcur'⟩, hle, hst, hmod⟩, rfl, rfl, rfl, [], by simp, by simp, by simp, by simp⟩
  · obtain ⟨resampler, modelBuffer, resampled, hfeed, hst', hmod', hadds⟩ := feed_spec
      (s := { s with
        drainScratch := (s.hostRing.read s.drainScratch kDrainChunk s.hostCursor).2.1
        hostCursor := (s.hostRing.read s.drainScratch kDrainChunk s.hostCursor).2.2
        drained := s.drained + k }) hst hmod hchunk
    have hdrain : s.drain = { s with
        drainScratch := (s.hostRing.read s.drainScratch kDrainChunk s.hostCursor).2.1
        hostCursor := (s.hostRing.read s.drainScratch kDrainChunk s.hostCursor).2.2
        drained := s.drained + k
        draining := !decide (k < kDrainChunk)
        resampler := resampler
        modelBuffer := modelBuffer
        resampled := resampled } := by
      simp only [drain, hread, if_pos hpos, hsamples, hfeed]
    rw [hdrain]
    exact ⟨⟨⟨h₀, hh, hcur'⟩, by dsimp only; omega, by dsimp only; rw [htake]; exact hst', hmod'⟩, rfl, rfl, rfl, hadds⟩

/-! ## Runs that keep up -/

/-- The thread has resampled all that it has drained. -/
structure Synced (prototype : Nat → Nat → Nat → Mem R) (hostRate : Nat) (s : Capture R) : Prop where
  inv : Inv prototype hostRate s
  resampled : s.resampled = reference prototype modelSampleRate hostRate (s.heard.take s.drained)

/-- Writing to the host ring. -/
theorem Inv.audio (hi : Inv prototype hostRate s) (block : List R) :
    Inv prototype hostRate { s with hostRing := s.hostRing.write block, heard := s.heard ++ block } := by
  obtain ⟨⟨h₀, hh, hcur⟩, hle, hst, hmod⟩ := hi
  refine ⟨⟨h₀, ?_, hcur⟩, ?_, ?_, hmod⟩
  · rw [← List.append_assoc]
    exact represents_write hh block
  · dsimp only
    rw [List.length_append]
    omega
  · dsimp only
    rw [List.take_append_of_le_length hle]
    exact hst

/-- From half the model rate on, the resampled block of a chunk fits the output buffer. -/
theorem Adds.all (hr : 24000 ≤ hostRate) {xs chunk resampled resampled' : List R} (hlen : chunk.length ≤ kDrainChunk)
    (ha : Adds prototype hostRate xs chunk resampled resampled')
    (hxs : resampled = reference prototype modelSampleRate hostRate xs) :
    resampled' = reference prototype modelSampleRate hostRate (xs ++ chunk) := by
  obtain ⟨out, href, hout, hcount, hby⟩ := ha
  have hfit : out.length ≤ kDrainChunk * 2 := by
    by_cases heq : hostRate = modelSampleRate
    · rw [hby heq]
      omega
    · have := (hcount heq).trans (outputCount_le_two_mul (by decide) (by rw [modelSampleRate]; omega) _)
      omega
  rw [href, hout, hxs, List.take_of_length_le hfit]

/-- A step of a thread that keeps up. -/
theorem synced_next (hr : 24000 ≤ hostRate) {e : CaptureEvent R} (hs : Synced prototype hostRate s)
    (hk : KeepsUp s e) (h : next s e = some s') : Synced prototype hostRate s' := by
  obtain ⟨hi, hres⟩ := hs
  cases e with
  | audio block =>
    cases h
    exact ⟨hi.audio block, by rw [hres, List.take_append_of_le_length hi.drained]⟩
  | tick =>
    rw [next] at h
    split at h <;> cases h
    exact ⟨⟨hi.host, hi.drained, hi.streamed, hi.model⟩, hres⟩
  | drain =>
    rw [next] at h
    split at h <;> cases h
    obtain ⟨hlag, hover⟩ := hk rfl
    obtain ⟨hi', hheard, hdrained, -, hadds⟩ := drain_spec hi hlag hover rfl
    refine ⟨hi', ?_⟩
    rw [hadds.all hr (by rw [List.length_take]; omega) hres, hheard, hdrained, List.take_add]

/-! ## Which host rates the constructor takes -/

variable (prototype) in
/-- A stage whose products fit. -/
theorem stage_isSome {L stageMax : Nat} (M : Nat) (hL : L ≤ modelSampleRate) (hmax : stageMax ≤ kDrainChunk) :
    ∃ f, stage prototype L M stageMax = some f := by
  have hprod : stageMax * L ≤ kDrainChunk * modelSampleRate := Nat.mul_le_mul hmax hL
  have hdiv := Nat.div_le_self (stageMax * L) M
  have htaps : asInt (L * kStageTaps) = some (L * kStageTaps) :=
    if_pos (by rw [modelSampleRate] at hL; rw [kStageTaps]; omega)
  rw [kDrainChunk, modelSampleRate] at hprod
  have hmul : asInt (stageMax * L) = some (stageMax * L) := if_pos (by omega)
  have hout : asInt (stageMax * L / M + 2) = some (stageMax * L / M + 2) := if_pos (by omega)
  exact ⟨_, by rw [stage, PolyphaseFir.design, htaps, Option.bind_some, hmul, Option.bind_some, hout, Option.map_some]⟩

variable (prototype) in
theorem cascade_isSome (inRate : Nat) {stageMax : Nat} (hmax : stageMax ≤ kDrainChunk) :
    ∃ stages, cascade prototype modelSampleRate inRate stageMax = some stages := by
  induction inRate using Nat.strong_induction_on generalizing stageMax with
  | _ inRate ih =>
    rw [cascade]
    split
    · rename_i hlt
      obtain ⟨f, hf⟩ := stage_isSome prototype 2 (show 1 ≤ modelSampleRate by decide) hmax
      obtain ⟨rest, hrest⟩ := ih (inRate / 2) (by omega) (show stageMax / 2 + 2 ≤ kDrainChunk by
        rw [kDrainChunk] at hmax ⊢; omega)
      exact ⟨f :: rest, by rw [hf, Option.bind_some, hrest, Option.map_some]⟩
    · obtain ⟨f, hf⟩ := stage_isSome prototype (inRate / modelSampleRate.gcd inRate)
        (Nat.div_le_self modelSampleRate (modelSampleRate.gcd inRate)) hmax
      exact ⟨[f], by rw [hf, Option.map_some]⟩

variable (prototype) in
/-- The thread starts at every host rate that fits an `int`. -/
theorem create_isSome (hostRing : SharedRingBuffer R ringBufferCapacity) (hr : hostRate < 2 ^ 31) :
    ∃ s, create prototype hostRing hostRate = some s := by
  obtain ⟨stages, hstages⟩ := cascade_isSome prototype hostRate (Nat.le_refl kDrainChunk)
  have hnew : Resampler.new R modelSampleRate kDrainChunk =
      some ⟨[], kDrainChunk * 2, modelSampleRate, kDrainChunk, true⟩ := by
    rw [Resampler.new, asInt, if_pos (by decide), Option.map_some]
  have hprep : ∃ rs,
      prepare prototype ⟨[], kDrainChunk * 2, modelSampleRate, kDrainChunk, true⟩ hostRate = some rs := by
    rw [prepare]
    split
    · exact ⟨_, rfl⟩
    · rw [asInt, if_pos hr, Option.bind_some, asInt,
        if_pos (show 2 * modelSampleRate < 2 ^ 31 by decide), Option.bind_some, hstages]
      exact ⟨_, rfl⟩
  obtain ⟨rs, hrs⟩ := hprep
  exact ⟨_, by rw [create, hnew, Option.bind_some, hrs, Option.map_some]⟩

/-- A started thread's host rate fits an `int`. -/
theorem create_lt {hostRing : SharedRingBuffer R ringBufferCapacity} (hc : create prototype hostRing hostRate = some s) :
    hostRate < 2 ^ 31 := by
  obtain ⟨rs, hrs, -⟩ := Option.map_eq_some_iff.1 hc
  obtain ⟨rs₀, hnew, hprep⟩ := Option.bind_eq_some_iff.1 hrs
  obtain ⟨size, -, rfl⟩ := Option.map_eq_some_iff.1 hnew
  rw [prepare] at hprep
  split at hprep
  · rename_i heq
    rw [heq]
    exact show modelSampleRate < 2 ^ 31 by decide
  · obtain ⟨inRate, hrate, -⟩ := Option.bind_eq_some_iff.1 hprep
    exact (Option.ite_none_right_eq_some.1 hrate).1

/-- A full chunk below half the model rate has more outputs than the output buffer holds. -/
theorem overflow_count (hr : 0 < hostRate) (hlt : hostRate < 24000) :
    kDrainChunk * 2 < outputCount (stageRatios modelSampleRate hostRate) kDrainChunk := by
  obtain ⟨hL, hM⟩ := reduced_pos (show 0 < modelSampleRate by decide) hr
  have hg := Nat.gcd_pos_of_pos_right modelSampleRate hr
  have hLeq := Nat.div_mul_cancel (Nat.gcd_dvd_left modelSampleRate hostRate)
  have hMeq := Nat.div_mul_cancel (Nat.gcd_dvd_right modelSampleRate hostRate)
  rw [stageRatios_last (by rw [modelSampleRate]; omega), outputCount, outputCount, lt_count_iff hM]
  generalize modelSampleRate / modelSampleRate.gcd hostRate = L at *
  generalize hostRate / modelSampleRate.gcd hostRate = M at *
  generalize modelSampleRate.gcd hostRate = g at *
  have hratio : 2 * M < L := by
    by_contra hle
    have hmul : L * g ≤ 2 * M * g := Nat.mul_le_mul_right g (Nat.not_lt.1 hle)
    rw [hLeq, Nat.mul_assoc, hMeq, modelSampleRate] at hmul
    omega
  rw [kDrainChunk]
  omega

/-- One full chunk through a thread that has just started. -/
theorem lossy_run {hostRing : SharedRingBuffer R ringBufferCapacity} (hh : hostRing.Represents []) (hr : 0 < hostRate)
    (hlt : hostRate < 24000) (hc : create prototype hostRing hostRate = some s) :
    ∃ es s', execute next s es = some s' ∧ Along next KeepsUp s es ∧
      s'.resampled ≠ reference prototype modelSampleRate hostRate (s'.heard.take s'.drained) := by
  obtain ⟨hi, hheard, hdrained, hres, hdr⟩ := create_inv hr hh hc
  have hcur : s.hostCursor.toNat = 0 := by
    obtain ⟨_, -, rfl⟩ := Option.map_eq_some_iff.1 hc
    exact hh.count
  have hring : s.hostRing = hostRing := by
    obtain ⟨_, -, rfl⟩ := Option.map_eq_some_iff.1 hc
    rfl
  obtain ⟨block, hblock⟩ : ∃ block : List R, block.length = kDrainChunk :=
    ⟨List.replicate kDrainChunk 0, List.length_replicate⟩
  have hchunk : kDrainChunk = 4096 := rfl
  have hcap : ringBufferCapacity.val = 131072 := rfl
  let s₂ : Capture R :=
    { s with hostRing := s.hostRing.write block, heard := s.heard ++ block, draining := true }
  have haudio := hi.audio block
  have hi₂ : Inv prototype hostRate s₂ := ⟨haudio.host, haudio.drained, haudio.streamed, haudio.model⟩
  have hheard₂ : s₂.heard = block := by simp [s₂, hheard]
  have hlen : s₂.heard.length = kDrainChunk := by rw [hheard₂, hblock]
  have hover : (s₂.hostRing.read s₂.drainScratch kDrainChunk s₂.hostCursor).1.overrun = false := by
    have hrep : s₂.hostRing.Represents block := by
      simp only [s₂, hring]
      exact represents_write hh block
    rw [(read_spec hrep hcur (Nat.zero_le _) (by omega) (by decide) _).2, decide_eq_false]
    omega
  have hlag : s₂.heard.length ≤ s₂.drained + ringBufferCapacity.val := by
    rw [hlen]
    omega
  obtain ⟨-, hheard₃, hdrained₃, -, out, href, hout, -⟩ :=
    drain_spec hi₂ hlag hover (show kDrainChunk = min kDrainChunk (s₂.heard.length - s₂.drained) by
      rw [hlen, show s₂.drained = 0 from hdrained, Nat.sub_zero, Nat.min_self])
  have htick : next { s with hostRing := s.hostRing.write block, heard := s.heard ++ block } .tick = some s₂ := by
    simp [next, hdr, s₂]
  have hdrain : next s₂ .drain = some s₂.drain := by rw [next, if_pos rfl]
  refine ⟨[.audio block, .tick, .drain], s₂.drain, ?_, ⟨nofun, fun t ht => ⟨nofun, fun u hu => ⟨fun _ => ?_, ?_⟩⟩⟩, ?_⟩
  · rw [execute_cons, next, Option.bind_some, execute_cons, htick, Option.bind_some, execute_cons, hdrain,
      Option.bind_some, execute_nil]
  · cases ht
    rw [htick] at hu
    cases hu
    exact ⟨hlag, hover⟩
  · exact fun _ _ => trivial
  · intro heq
    have hl := congrArg List.length heq
    rw [hout, hheard₃, hdrained₃, show s₂.resampled = [] from hres, show s₂.drained = 0 from hdrained, Nat.zero_add,
      List.take_of_length_le hlen.le, List.nil_append, List.length_take, reference,
      if_neg (by rw [modelSampleRate]; omega), length_composed, hlen] at hl
    have := overflow_count hr hlt
    omega

end Capture

open Capture in
/-- **The capture path loses nothing exactly from half the model rate on**, at the host rates that fit an `int`. -/
theorem capture_lossless_iff [CommRing R] (prototype : Nat → Nat → Nat → Mem R) {hostRate : Nat} (hr : 0 < hostRate) :
    Lossless prototype hostRate ↔ 24000 ≤ hostRate ∧ hostRate < 2 ^ 31 := by
  constructor
  · intro hall
    obtain ⟨s, hc, hrun⟩ := hall []
    constructor
    · by_contra hlt
      obtain ⟨es, s', hes, hk, hne⟩ := lossy_run represents_new hr (Nat.not_le.1 hlt) hc
      exact hne (hrun es s' hes hk).2.1
    · exact create_lt hc
  · rintro ⟨hlow, hup⟩ earlier
    have hh : (earlier.foldl write (SharedRingBuffer.new R ringBufferCapacity)).Represents ([] ++ earlier.flatten) :=
      represents_foldl earlier represents_new
    obtain ⟨s₀, hc⟩ := create_isSome prototype _ hup
    obtain ⟨hi, hheard, hdrained, hres, -⟩ := create_inv hr hh hc
    have hsync : Synced prototype hostRate s₀ := ⟨hi, by rw [hheard, hres, List.take_nil, reference_nil]⟩
    refine ⟨s₀, hc, fun es s hes hk => ?_⟩
    obtain ⟨hi', hres'⟩ := execute_inv_along (fun _ _ _ => synced_next hlow) hsync hk hes
    refine ⟨hi'.model, hres', fun hlast hdr => ?_⟩
    obtain ⟨es', rfl⟩ := List.getLast?_eq_some_iff.1 hlast
    obtain ⟨u, hu, hstep⟩ := execute_append_some hes
    have hsu := execute_inv_along (fun _ _ _ => synced_next hlow) hsync (along_append_left hk) hu
    obtain ⟨hlag, hover⟩ := (along_of_append hk hu).1 rfl
    obtain ⟨-, hheard', hdrained', hdraining, -⟩ := drain_spec hsu.inv hlag hover rfl
    rw [execute_cons, next] at hstep
    split at hstep <;> cases hstep
    rw [hdraining, Bool.not_eq_false', decide_eq_true_iff] at hdr
    have hle := hsu.inv.drained
    rw [hdrained', hheard']
    omega

open Capture in
theorem capture_lossless_44100 : Lossless (R := ℤ) (fun _ _ _ _ => 1) 44100 :=
  (capture_lossless_iff _ (by decide)).2 (by decide)

open Capture in
/-- At 22050 Hz a full chunk has 8917 outputs, of which the clamp keeps 8192. -/
theorem capture_lossy_22050 : ¬ Lossless (R := ℤ) (fun _ _ _ _ => 1) 22050 := by
  intro hall
  obtain ⟨s, hc, hrun⟩ := hall []
  obtain ⟨es, s', hes, hk, hne⟩ := lossy_run represents_new (by decide) (by decide) hc
  exact hne (hrun es s' hes hk).2.1

end Bajiru.Linkjiru
