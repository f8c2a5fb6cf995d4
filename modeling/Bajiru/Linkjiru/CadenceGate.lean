import Mathlib.Tactic.Common
import Mathlib.Data.UInt

/-!
# `CadenceGate`

The gate that paces the evaluations against the write count of a ring: `poll`, with the one policy that ships. Counts
are `uint64_t`; `Scheduled` says at which count the gate has evaluated last, while its schedule has not wrapped, and
`poll_spec` what a poll then answers.
-/

namespace Bajiru.Linkjiru

/-- `SkipToLatest::reschedule(writeCount, prevNextAt, hop)`. -/
def SkipToLatest.reschedule (writeCount _prevNextAt : UInt64) (hop : Int) : UInt64 := writeCount + UInt64.ofInt hop

/-- `CadenceGate<SkipToLatest>`. -/
structure CadenceGate where
  windowSamples : Int
  hopSamples : Int
  requireFullWindow : Bool
  nextAt : UInt64 := 0
  started : Bool := false

namespace CadenceGate

/-- `CadenceGate::Decision`. -/
structure Decision where
  evaluate : Bool := false
  skipped : Bool := false
  deriving DecidableEq

/-- `poll(writeCount)`. -/
def poll (s : CadenceGate) (writeCount : UInt64) : Decision × CadenceGate :=
  if s.requireFullWindow ∧ writeCount < UInt64.ofInt s.windowSamples then ({}, s)
  else if s.hopSamples ≤ 0 then ({ evaluate := true, skipped := false }, s)
  else if writeCount < s.nextAt then ({}, s)
  else
    let skipped := s.started && writeCount ≥ s.nextAt + UInt64.ofInt s.hopSamples
    ({ evaluate := true, skipped := skipped },
      { s with nextAt := SkipToLatest.reschedule writeCount s.nextAt s.hopSamples, started := true })

variable {s : CadenceGate} {writeCount : UInt64}

/-- A poll that does not evaluate changes nothing. -/
theorem poll_idle (h : (s.poll writeCount).1.evaluate = false) : s.poll writeCount = ({}, s) := by
  unfold poll at h ⊢
  split
  · rfl
  · rename_i hwarm
    rw [if_neg hwarm] at h
    split
    · rename_i hhop
      rw [if_pos hhop] at h
      cases h
    · rename_i hhop
      rw [if_neg hhop] at h
      split
      · rfl
      · rename_i hdue
        rw [if_neg hdue] at h
        cases h

/-- No evaluation before the warm-up. -/
theorem poll_warm (hreq : s.requireFullWindow = true) (h : (s.poll writeCount).1.evaluate = true) :
    UInt64.ofInt s.windowSamples ≤ writeCount := by
  unfold poll at h
  split at h
  · cases h
  · rename_i hwarm
    exact UInt64.not_lt.1 fun hlt => hwarm ⟨hreq, hlt⟩

/-- An `int` that is not negative, as `uint64_t`. -/
theorem toNat_ofInt {x : Int} (h0 : 0 ≤ x) (h1 : x < 2 ^ 31) : (UInt64.ofInt x).toNat = x.toNat := by
  unfold UInt64.ofInt
  rw [UInt64.toNat_ofNat']
  omega

/-- The windows and the hop are `int`s, and the hop is positive. -/
structure Paces (s : CadenceGate) : Prop where
  window : 0 ≤ s.windowSamples ∧ s.windowSamples < 2 ^ 31
  hop : 0 < s.hopSamples ∧ s.hopSamples < 2 ^ 31

/-- The gate has evaluated last at the count `last`, if at all, and the next count has not wrapped. -/
def Scheduled (s : CadenceGate) : Option Nat → Prop
  | none => s.nextAt = 0 ∧ s.started = false
  | some w => s.nextAt.toNat = w + s.hopSamples.toNat ∧ s.started = true

/-- The gate is warm, and a hop was written since the last evaluation. -/
def Due (s : CadenceGate) (last : Option Nat) (count : Nat) : Prop :=
  (s.requireFullWindow = true → s.windowSamples.toNat ≤ count) ∧ ∀ w, last = some w → w + s.hopSamples.toNat ≤ count

theorem toNat_window (hp : s.Paces) : (UInt64.ofInt s.windowSamples).toNat = s.windowSamples.toNat :=
  toNat_ofInt hp.window.1 hp.window.2

theorem toNat_hop (hp : s.Paces) : (UInt64.ofInt s.hopSamples).toNat = s.hopSamples.toNat :=
  toNat_ofInt hp.hop.1.le hp.hop.2

/-- The next evaluation is a hop behind this one. -/
theorem toNat_reschedule (hp : s.Paces) (hwrap : writeCount.toNat + s.hopSamples.toNat < 2 ^ 64) :
    (SkipToLatest.reschedule writeCount s.nextAt s.hopSamples).toNat = writeCount.toNat + s.hopSamples.toNat := by
  rw [SkipToLatest.reschedule, UInt64.toNat_add, toNat_hop hp]
  exact Nat.mod_eq_of_lt hwrap

/-- A poll before the warm-up. -/
theorem poll_cold (hp : s.Paces) (h : ¬(s.requireFullWindow = true → s.windowSamples.toNat ≤ writeCount.toNat)) :
    s.poll writeCount = ({}, s) := by
  simp only [Classical.not_imp, Nat.not_le] at h
  apply if_pos
  rwa [UInt64.lt_iff_toNat_lt, toNat_window hp]

/-- A poll after the warm-up. -/
theorem poll_full (hp : s.Paces) (h : s.requireFullWindow = true → s.windowSamples.toNat ≤ writeCount.toNat) :
    s.poll writeCount = if writeCount < s.nextAt then ({}, s) else
      ({ evaluate := true, skipped := s.started && writeCount ≥ s.nextAt + UInt64.ofInt s.hopSamples },
        { s with nextAt := SkipToLatest.reschedule writeCount s.nextAt s.hopSamples, started := true }) := by
  have hwarm : ¬(s.requireFullWindow = true ∧ writeCount < UInt64.ofInt s.windowSamples) := by
    rintro ⟨hreq, hlt⟩
    rw [UInt64.lt_iff_toNat_lt, toNat_window hp] at hlt
    have hle := h hreq
    omega
  have hhop : ¬ s.hopSamples ≤ 0 := Int.not_le.2 hp.hop.1
  rw [poll, if_neg hwarm, if_neg hhop]

/-- The schedule is the last evaluation and a hop. -/
theorem Scheduled.late_iff {last : Option Nat} (hs : s.Scheduled last) :
    writeCount < s.nextAt ↔ ∃ w, last = some w ∧ writeCount.toNat < w + s.hopSamples.toNat := by
  cases last with
  | none =>
    rw [hs.1]
    simp
  | some w =>
    rw [UInt64.lt_iff_toNat_lt, hs.1]
    simp

/-- A second hop was written. -/
theorem Scheduled.behind_iff {last : Option Nat} (hp : s.Paces) (hs : s.Scheduled last)
    (hwrap : writeCount.toNat + s.hopSamples.toNat < 2 ^ 64) (hdue : ¬ writeCount < s.nextAt) :
    (s.started && writeCount ≥ s.nextAt + UInt64.ofInt s.hopSamples) = true ↔
      ∃ w, last = some w ∧ w + 2 * s.hopSamples.toNat ≤ writeCount.toNat := by
  rw [UInt64.lt_iff_toNat_lt] at hdue
  cases last with
  | none =>
    rw [hs.2]
    simp
  | some w =>
    have hsum : (s.nextAt + UInt64.ofInt s.hopSamples).toNat = w + 2 * s.hopSamples.toNat := by
      rw [UInt64.toNat_add, toNat_hop hp]
      have hnext := hs.1
      omega
    rw [hs.2, Bool.true_and, decide_eq_true_eq, ge_iff_le, UInt64.le_iff_toNat_le, hsum]
    simp

/-- **`poll`**: it evaluates exactly if the gate is due, it says that it has skipped exactly if a second hop was written,
and the next evaluation is due a hop later. -/
theorem poll_spec {last : Option Nat} (hp : s.Paces) (hs : s.Scheduled last)
    (hwrap : writeCount.toNat + s.hopSamples.toNat < 2 ^ 64) :
    ((s.poll writeCount).1.evaluate = true ↔ s.Due last writeCount.toNat) ∧
    ((s.poll writeCount).1.evaluate = true → ((s.poll writeCount).1.skipped = true ↔
      ∃ w, last = some w ∧ w + 2 * s.hopSamples.toNat ≤ writeCount.toNat) ∧
      (s.poll writeCount).2.Scheduled (some writeCount.toNat)) := by
  by_cases hfull : s.requireFullWindow = true → s.windowSamples.toNat ≤ writeCount.toNat
  · rw [poll_full hp hfull]
    by_cases hlate : writeCount < s.nextAt
    · rw [if_pos hlate]
      obtain ⟨w, hw, hlt⟩ := hs.late_iff.1 hlate
      refine ⟨⟨nofun, fun hdue => ?_⟩, nofun⟩
      exact absurd (hdue.2 w hw) (Nat.not_le.2 hlt)
    · rw [if_neg hlate]
      refine ⟨⟨fun _ => ⟨hfull, fun w hw => ?_⟩, fun _ => rfl⟩, fun _ => ⟨?_, ?_, rfl⟩⟩
      · by_contra hlt
        exact hlate (hs.late_iff.2 ⟨w, hw, Nat.not_le.1 hlt⟩)
      · exact hs.behind_iff hp hwrap hlate
      · exact toNat_reschedule hp hwrap
  · rw [poll_cold hp hfull]
    exact ⟨⟨nofun, fun hdue => absurd hdue.1 hfull⟩, nofun⟩

/-- The parameters of the gate stay. -/
theorem poll_frame : (s.poll writeCount).2.windowSamples = s.windowSamples ∧
    (s.poll writeCount).2.hopSamples = s.hopSamples ∧
      (s.poll writeCount).2.requireFullWindow = s.requireFullWindow := by
  unfold poll
  split
  · exact ⟨rfl, rfl, rfl⟩
  · split
    · exact ⟨rfl, rfl, rfl⟩
    · split
      · exact ⟨rfl, rfl, rfl⟩
      · exact ⟨rfl, rfl, rfl⟩

end CadenceGate

end Bajiru.Linkjiru
