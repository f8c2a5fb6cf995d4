import Mathlib.Algebra.Order.Monoid.Defs
import Mathlib.Tactic.Common

/-!
# Best paths through a trellis

A path goes through a state of each column, and each step adds what its two states give (`total`). A table with the
best value of each state, and pointers to the state before, is found column by column (`Bellman`); a path that follows
the pointers back from a best last state is a best path, and its value is the one of the table (`Best.cons`,
`Best.nil`).
-/

namespace Bajiru.Trellis

variable {σ R : Type*} [AddCommMonoid R]

/-- What the steps of the path `s :: ss` add. -/
def total : σ → List (σ → σ → R) → List σ → R
  | s, gain :: gains, s' :: ss => gain s s' + total s' gains ss
  | _, _, _ => 0

@[simp] theorem total_nil (s : σ) (ss : List σ) : total s ([] : List (σ → σ → R)) ss = 0 := by
  cases ss <;> rfl

@[simp] theorem total_cons (s s' : σ) (ss : List σ) (gain : σ → σ → R) (gains : List (σ → σ → R)) :
    total s (gain :: gains) (s' :: ss) = gain s s' + total s' gains ss := rfl

variable [LinearOrder R]

/-- From the values `v` of a column, the values `v'` of the next one, with pointers back. -/
structure Bellman (gain : σ → σ → R) (v v' : σ → R) (ptr : σ → σ) : Prop where
  attained : ∀ j, v' j = v (ptr j) + gain (ptr j) j
  le : ∀ i j, v i + gain i j ≤ v' j

/-- `s :: ss` is a best path from the values `v` on, and ends with the value `last`. -/
structure Best (gains : List (σ → σ → R)) (v : σ → R) (last : R) (s : σ) (ss : List σ) : Prop where
  length_eq : ss.length = gains.length
  value : v s + total s gains ss = last
  le : ∀ t ts, ts.length = gains.length → v t + total t gains ts ≤ last

/-- In the last column, a best path is a best state. -/
theorem Best.nil {v : σ → R} {s : σ} (h : ∀ t, v t ≤ v s) : Best [] v (v s) s [] :=
  ⟨rfl, by simp, fun t ts _ => by simpa using h t⟩

variable [IsOrderedAddMonoid R]

/-- **The pointer of a best path** extends it to the column before. -/
theorem Best.cons {gain : σ → σ → R} {gains : List (σ → σ → R)} {v v' : σ → R} {ptr : σ → σ} {last : R} {s : σ}
    {ss : List σ} (hstep : Bellman gain v v' ptr) (h : Best gains v' last s ss) :
    Best (gain :: gains) v last (ptr s) (s :: ss) := by
  refine ⟨congrArg Nat.succ h.length_eq, ?_, fun t ts hts => ?_⟩
  · rw [total_cons, ← add_assoc, ← hstep.attained]
    exact h.value
  · cases ts with
    | nil => cases hts
    | cons t' ts =>
      calc v t + total t (gain :: gains) (t' :: ts)
          = v t + gain t t' + total t' gains ts := (add_assoc ..).symm
        _ ≤ v' t' + total t' gains ts := add_le_add_left (hstep.le t t') _
        _ ≤ last := h.le t' ts (Nat.succ_inj.1 hts)

end Bajiru.Trellis
