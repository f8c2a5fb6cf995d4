import Bajiru.Linkjiru.CadenceGate
import Bajiru.Linkjiru.Constants
import Bajiru.Pacing

/-!
# The pace of the cadence gate

A reader that polls the gate at least once a hop. `SkipToLatest` puts the next evaluation a hop behind the count that was
polled, and not behind the count that was due: the gate takes the polls as `Pacing.taken` does (`evaluations_eq`), with
the counts near the end of `uint64_t` free, as behind them the schedule wraps. So the pace of the hop is kept exactly if
the polls that first reach its multiples are a hop apart (`hopPace_iff`). The polls of the analysis thread, 16 ms apart,
are not: it evaluates at every second one.
-/

namespace Bajiru.Linkjiru

open Pacing

namespace CadenceGate

/-- The number of evaluations in a run of polls. -/
def evaluations (s : CadenceGate) : List UInt64 → Nat
  | [] => 0
  | w :: ws => if (s.poll w).1.evaluate then evaluations (s.poll w).2 ws + 1 else evaluations (s.poll w).2 ws

/-- The gate has evaluated last at the count `x`. -/
structure Evaluated (s : CadenceGate) (x : UInt64) : Prop where
  hop : 0 < s.hopSamples ∧ s.hopSamples < 2 ^ 31
  warm : s.requireFullWindow = true → UInt64.ofInt s.windowSamples ≤ x
  nextAt : s.nextAt = x + UInt64.ofInt s.hopSamples

/-- From this count on, the next one wraps. -/
def Wraps (hop x : Nat) : Prop := 2 ^ 64 ≤ x + hop

instance (hop : Nat) : DecidablePred (Wraps hop) := fun x => inferInstanceAs (Decidable (2 ^ 64 ≤ x + hop))

variable {s : CadenceGate} {x w : UInt64}

/-- An evaluating poll. -/
theorem poll_evaluate (hhop : 0 < s.hopSamples ∧ s.hopSamples < 2 ^ 31) (h : (s.poll w).1.evaluate = true) :
    (s.poll w).2.Evaluated w := by
  have hwarm : s.requireFullWindow = true → UInt64.ofInt s.windowSamples ≤ w := fun hreq => poll_warm hreq h
  have hfull : ¬(s.requireFullWindow = true ∧ w < UInt64.ofInt s.windowSamples) := fun hcold =>
    UInt64.not_lt.2 (hwarm hcold.1) hcold.2
  unfold poll at h ⊢
  rw [if_neg hfull, if_neg (Int.not_le.2 hhop.1)] at h ⊢
  split at h
  · cases h
  · rename_i hdue
    rw [if_neg hdue]
    exact ⟨hhop, hwarm, rfl⟩

/-- The due count of an `int` hop. -/
theorem Evaluated.late_iff (hs : s.Evaluated x) (hle : x ≤ w) :
    w < s.nextAt ↔ ¬(x.toNat + s.hopSamples.toNat ≤ w.toNat ∨ Wraps s.hopSamples.toNat x.toNat) := by
  rw [UInt64.le_iff_toNat_le] at hle
  rw [hs.nextAt, UInt64.lt_iff_toNat_lt, UInt64.toNat_add, toNat_ofInt hs.hop.1.le hs.hop.2]
  have hx := x.toNat_lt
  have hhop := hs.hop
  unfold Wraps
  omega

/-- **A poll behind an evaluation.** -/
theorem Evaluated.poll (hs : s.Evaluated x) (hle : x ≤ w) :
    ((s.poll w).1.evaluate = true ↔ x.toNat + s.hopSamples.toNat ≤ w.toNat ∨ Wraps s.hopSamples.toNat x.toNat) := by
  have hwarm : ¬(s.requireFullWindow = true ∧ w < UInt64.ofInt s.windowSamples) := fun h =>
    absurd h.2 (UInt64.not_lt.2 (UInt64.le_trans (hs.warm h.1) hle))
  rw [CadenceGate.poll, if_neg hwarm, if_neg (Int.not_le.2 hs.hop.1)]
  by_cases hlate : w < s.nextAt
  · rw [if_pos hlate]
    exact iff_of_false Bool.false_ne_true ((hs.late_iff hle).1 hlate)
  · rw [if_neg hlate]
    exact iff_of_true rfl (not_not.1 fun hnot => hlate ((hs.late_iff hle).2 hnot))

/-- The gate evaluates at the polls that are taken. -/
theorem evaluations_eq {ws : List UInt64} (hs : s.Evaluated x) (hle : x ≤ w) (hws : (w :: ws).IsChain (· ≤ ·)) :
    s.evaluations ws = taken s.hopSamples.toNat (Wraps s.hopSamples.toNat) x.toNat (ws.map UInt64.toNat) := by
  induction ws generalizing s x w with
  | nil => rfl
  | cons v ws ih =>
    obtain ⟨hstep, hws⟩ := List.isChain_cons_cons.1 hws
    have hle' := UInt64.le_trans hle hstep
    have hpoll := hs.poll hle'
    rw [evaluations, List.map_cons, taken]
    by_cases hdue : x.toNat + s.hopSamples.toNat ≤ v.toNat ∨ Wraps s.hopSamples.toNat x.toNat
    · rw [if_pos hdue, if_pos (hpoll.2 hdue), ih (poll_evaluate hs.hop (hpoll.2 hdue)) (UInt64.le_refl v) hws,
        poll_frame.2.1]
    · have hidle : (s.poll v).1.evaluate = false := Bool.eq_false_iff.2 fun h => hdue (hpoll.1 h)
      rw [if_neg hdue, hidle, if_neg Bool.false_ne_true, poll_idle hidle]
      exact ih hs hle' hws

/-- **The hop pace** of a reader that polls at least once a hop: behind the first evaluation, at the count `w`, the gate
has evaluated as often at every poll as hops were written, exactly if the polls that first reach the multiples of the hop
are a hop apart. -/
theorem hopPace_iff {ws : List UInt64} (hhop : 0 < s.hopSamples ∧ s.hopSamples < 2 ^ 31)
    (hfirst : (s.poll w).1.evaluate = true)
    (hpolls : (w :: ws).IsChain fun a b => a ≤ b ∧ b.toNat ≤ a.toNat + s.hopSamples.toNat) :
    (∀ us c vs, ws = us ++ c :: vs →
      (c.toNat - w.toNat) / s.hopSamples.toNat ≤ (s.poll w).2.evaluations (us ++ [c])) ↔
    (w.toNat :: crossings s.hopSamples.toNat (w.toNat + s.hopSamples.toNat) (ws.map UInt64.toNat)).IsChain fun a b =>
      a + s.hopSamples.toNat ≤ b ∨ 2 ^ 64 ≤ a + s.hopSamples.toNat := by
  have hcounts : ((w :: ws).map UInt64.toNat).IsChain fun a b => a ≤ b ∧ b ≤ a + s.hopSamples.toNat :=
    List.isChain_map_of_isChain _ (fun _ _ h => ⟨UInt64.le_iff_toNat_le.1 h.1, h.2⟩) hpolls
  have hmono : ∀ x y, x ≤ y → Wraps s.hopSamples.toNat x → Wraps s.hopSamples.toNat y := fun x y hle h =>
    Nat.le_trans h (Nat.add_le_add_right hle _)
  have hkeeps := keeps_iff (k := 0) (w := w.toNat) hmono (by omega) le_rfl (by omega) hcounts
  rw [Nat.zero_add, Nat.one_mul] at hkeeps
  have hprefix : ∀ us c vs, ws = us ++ c :: vs → (s.poll w).2.evaluations (us ++ [c]) =
      taken s.hopSamples.toNat (Wraps s.hopSamples.toNat) w.toNat (us.map UInt64.toNat ++ [c.toNat]) := by
    rintro us c vs rfl
    have hmono : (w :: (us ++ [c]) ++ vs).IsChain (· ≤ ·) := by
      rw [List.cons_append, List.append_assoc]
      exact hpolls.imp fun _ _ h => h.1
    rw [evaluations_eq (poll_evaluate hhop hfirst) (UInt64.le_refl w) hmono.left_of_append, poll_frame.2.1,
      List.map_append, List.map_singleton]
  refine Iff.trans ⟨fun h => ?_, fun h => ?_⟩ hkeeps
  · intro us c vs heq
    obtain ⟨us, cs, hws, rfl, hcs⟩ := List.map_eq_append_iff.1 heq
    obtain ⟨c, vs, rfl, rfl, rfl⟩ := List.map_eq_cons_iff.1 hcs
    rw [Nat.zero_add, ← hprefix us c vs hws]
    exact h us c vs hws
  · intro us c vs heq
    have hc := h (us.map UInt64.toNat) c.toNat (vs.map UInt64.toNat) (by rw [heq, List.map_append, List.map_cons])
    rwa [Nat.zero_add, ← hprefix us c vs heq] at hc

/-- Polls at the multiples of the hop, as in the tests. -/
theorem hopPace_exact : ((25600 : UInt64).toNat - (24000 : UInt64).toNat) / 800 ≤
    ((CadenceGate.mk modelWindowSamples modelHopSamples true 0 false).poll 24000).2.evaluations ([24800] ++ [25600]) :=
  (hopPace_iff (s := ⟨modelWindowSamples, modelHopSamples, true, 0, false⟩) (w := 24000)
    (by decide) (by decide) (by decide)).2 (by decide) [24800] 25600 [26400] rfl

/-- Polls 16 ms apart, as the analysis thread makes them. -/
theorem hopPace_pollInterval : ¬ ∀ (s : CadenceGate) (w : UInt64) (ws : List UInt64),
    0 < s.hopSamples ∧ s.hopSamples < 2 ^ 31 → (s.poll w).1.evaluate = true →
    (w :: ws).IsChain (fun a b => a ≤ b ∧ b.toNat ≤ a.toNat + s.hopSamples.toNat) →
    ∀ us c vs, ws = us ++ c :: vs →
      (c.toNat - w.toNat) / s.hopSamples.toNat ≤ (s.poll w).2.evaluations (us ++ [c]) := by
  intro hall
  have hpace := hall ⟨modelWindowSamples, modelHopSamples, true, 0, false⟩ 24000 [24768, 25536, 26304]
    (by decide) (by decide) (by decide) [24768, 25536] 26304 [] rfl
  exact absurd hpace (by decide)

end CadenceGate

end Bajiru.Linkjiru
