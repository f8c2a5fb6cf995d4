import Mathlib.Data.List.Basic
import Mathlib.Data.List.Chain
import Mathlib.Tactic.Common

/-!
# Holding the last known value

`held unknown default xs` is the last entry of `xs` that is known. A function that puts `default` for every unknown entry
agrees with it exactly as long as no other known entry is directly followed by an unknown one (`forget_iff`).
-/

namespace Bajiru

variable {α : Type*} [DecidableEq α] {unknown default : α}

/-- The last entry that is not `unknown`, or `default` if there is none. -/
def held (unknown default : α) (xs : List α) : α := (xs.filter (· ≠ unknown)).getLast?.getD default

@[simp] theorem held_nil : held unknown default [] = default := rfl

theorem held_concat_unknown (xs : List α) : held unknown default (xs ++ [unknown]) = held unknown default xs := by
  simp [held]

theorem held_concat_known (xs : List α) {x : α} (hx : x ≠ unknown) : held unknown default (xs ++ [x]) = x := by
  simp [held, hx]

/-- Every known entry that is directly followed by an unknown one is `default`. -/
def Steady (unknown default : α) (xs : List α) : Prop :=
  xs.IsChain fun a b => b = unknown → a = unknown ∨ a = default

instance (unknown default : α) (xs : List α) : Decidable (Steady unknown default xs) :=
  inferInstanceAs (Decidable (xs.IsChain _))

/-- In front of an unknown entry of a steady list `default` is held. -/
theorem Steady.held_take {xs : List α} (h : Steady unknown default xs) {i : Nat} (hi : xs[i]? = some unknown) :
    held unknown default (xs.take i) = default := by
  induction i with
  | zero => rfl
  | succ i ih =>
    obtain ⟨hlt, hget⟩ := List.getElem?_eq_some_iff.1 hi
    have hstep := List.isChain_iff_getElem.1 h i hlt hget
    rw [List.take_succ_eq_append_getElem (by omega)]
    by_cases hx : xs[i] = unknown
    · rw [hx, held_concat_unknown]
      exact ih (List.getElem?_eq_some_iff.2 ⟨by omega, hx⟩)
    · rw [held_concat_known _ hx]
      exact hstep.resolve_left hx

/-- **Forgetting the last known value** is seen exactly in lists that are not steady. -/
theorem forget_iff {xs : List α} :
    (∀ i x, xs[i]? = some x → (if x ≠ unknown then x else default) = held unknown default (xs.take (i + 1))) ↔
      Steady unknown default xs := by
  constructor
  · intro hall
    refine List.isChain_iff_getElem.2 fun i hi hunknown => ?_
    have hnext := hall (i + 1) xs[i + 1] (List.getElem?_eq_getElem hi)
    rw [if_neg (not_not.2 hunknown), List.take_succ_eq_append_getElem hi, hunknown, held_concat_unknown] at hnext
    by_cases hx : xs[i] = unknown
    · exact .inl hx
    · rw [List.take_succ_eq_append_getElem (by omega), held_concat_known _ hx] at hnext
      exact .inr hnext.symm
  · intro h i x hx
    obtain ⟨hlt, rfl⟩ := List.getElem?_eq_some_iff.1 hx
    rw [List.take_succ_eq_append_getElem hlt]
    by_cases hunknown : xs[i] = unknown
    · rw [if_neg (not_not.2 hunknown), hunknown, held_concat_unknown]
      exact (h.held_take (hx.trans (congrArg some hunknown))).symm
    · rw [if_pos hunknown, held_concat_known _ hunknown]

end Bajiru
