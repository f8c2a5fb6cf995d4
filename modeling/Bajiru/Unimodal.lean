import Mathlib.Algebra.BigOperators.Intervals
import Mathlib.Algebra.Order.Group.Unbundled.Basic
import Mathlib.Data.Int.ConditionallyCompleteOrder
import Mathlib.Order.Monotone.Defs
import Mathlib.Order.Interval.Set.Defs
import Mathlib.Tactic.Abel

/-!
# Sequences with one peak

A sequence that rises up to `m` and falls from there on (`Peak`). Where a window of such a sequence loses in a step, it
gains in no later one (`Peak.fall`), so the sums over a window that slides along it rise and then fall
(`risesThenFalls_sum`).
-/

namespace Bajiru

variable {α : Type*}

/-- The first `n` values rise, then fall. -/
def RisesThenFalls [LE α] (n : Nat) (f : Nat → α) : Prop :=
  ∃ p, (∀ t, t < p → t + 1 < n → f t ≤ f (t + 1)) ∧ ∀ t, p ≤ t → t + 1 < n → f (t + 1) ≤ f t

theorem RisesThenFalls.congr [LE α] {n : Nat} {f g : Nat → α} (h : RisesThenFalls n f) (hfg : ∀ t, t < n → f t = g t) :
    RisesThenFalls n g := by
  obtain ⟨p, hrises, hfalls⟩ := h
  refine ⟨p, fun t ht hn => ?_, fun t ht hn => ?_⟩
  · rw [← hfg t (by omega), ← hfg (t + 1) hn]
    exact hrises t ht hn
  · rw [← hfg t (by omega), ← hfg (t + 1) hn]
    exact hfalls t ht hn

/-- After a fall there is no rise. -/
theorem risesThenFalls_of_fall [LinearOrder α] {n : Nat} {f : Nat → α}
    (h : ∀ t t', t ≤ t' → f (t + 1) < f t → f (t' + 1) ≤ f t') : RisesThenFalls n f := by
  by_cases hfall : ∃ t, f (t + 1) < f t
  · classical
    refine ⟨Nat.find hfall, fun t ht _ => not_lt.1 (Nat.find_min hfall ht), fun t ht _ => ?_⟩
    exact h _ t ht (Nat.find_spec hfall)
  · simp only [not_exists, not_lt] at hfall
    exact ⟨n, fun t _ _ => hfall t, fun t ht hn => absurd hn (by omega)⟩

/-- The values rise up to `m`, and fall from there on. -/
structure Peak [Preorder α] (f : Int → α) (m : Int) : Prop where
  rises : MonotoneOn f (Set.Iic m)
  falls : AntitoneOn f (Set.Ici m)

/-- A window whose front is below its end stays so. -/
theorem Peak.fall [LinearOrder α] {f : Int → α} {m u v d : Int} (h : Peak f m) (huv : v ≤ u) (hfall : f u < f v)
    (hd : 0 ≤ d) : f (u + d) ≤ f (v + d) := by
  have hu : m < u := by
    by_contra hle
    exact absurd (h.rises (huv.trans (not_lt.1 hle)) (not_lt.1 hle) huv) (not_le.2 hfall)
  have hud : f (u + d) ≤ f u := h.falls hu.le (hu.le.trans (by omega)) (by omega)
  rcases le_total m (v + d) with hm | hm
  · exact h.falls hm (hm.trans (by omega)) (by omega)
  · exact hud.trans (hfall.le.trans (h.rises (show v ≤ m by omega) hm (by omega)))

/-- The sum over a window of a sequence. -/
def windowSum [AddCommMonoid α] (f : Int → α) (a b t : Nat) : α := ∑ i ∈ Finset.Ico a b, f (t - i)

/-- In a step the window gains its new value and loses its last one. -/
theorem windowSum_succ [AddCommGroup α] (f : Int → α) {a b : Nat} (hab : a ≤ b) (t : Nat) :
    windowSum f a b (t + 1) - windowSum f a b t = f (t + 1 - a) - f (t + 1 - b) := by
  unfold windowSum
  rw [← Finset.sum_sub_distrib]
  induction b, hab using Nat.le_induction with
  | base => simp
  | succ b hab ih =>
    rw [Finset.sum_Ico_succ_top hab, ih]
    push_cast
    rw [show (t : Int) + 1 - (b + 1) = t - b by omega]
    abel

/-- **The sums over a window** that slides along a sequence with one peak. -/
theorem risesThenFalls_sum [AddCommGroup α] [LinearOrder α] [IsOrderedAddMonoid α] {f : Int → α} {m : Int}
    (h : Peak f m) {a b : Nat} (hab : a ≤ b) (n : Nat) : RisesThenFalls n (windowSum f a b) := by
  refine risesThenFalls_of_fall fun t t' htt' hfall => ?_
  have hstep := windowSum_succ f hab t
  have hstep' := windowSum_succ f hab t'
  rw [← sub_neg, hstep, sub_neg] at hfall
  rw [← sub_nonpos, hstep', sub_nonpos]
  have := h.fall (by omega) hfall (show (0 : Int) ≤ t' - t by omega)
  rw [show (t' : Int) + 1 - a = t + 1 - a + (t' - t) by omega, show (t' : Int) + 1 - b = t + 1 - b + (t' - t) by omega]
  exact this

end Bajiru
