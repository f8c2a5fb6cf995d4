import Mathlib.Algebra.Order.BigOperators.Group.List
import Mathlib.Algebra.Order.Group.Int
import Mathlib.Data.List.GetD
import Mathlib.Tactic.Common
import Mathlib.Tactic.Linarith

/-!
# Bisection, and blocks of an index range

`bisectRight xs x` is the place behind the entries of a sorted list that are at most `x` (`bisectRight_spec`). Blocks of
given sizes that follow each other start at the sums of the sizes before (`start`); if no size is negative, every index
is in exactly one block (`block_unique`), and bisection of the starts finds it (`bisectRight_starts`).
-/

namespace Bajiru.Bisect

/-! ## The search -/

section Search

variable {α : Type*} [LinearOrder α]

/-- The loop of `bisect_right`. -/
def bisectLoop (xs : List α) (x : α) (lo hi : Nat) : Nat :=
  if lo < hi then
    let mid := (lo + hi) / 2
    if (xs[mid]?).any (x < ·) then bisectLoop xs x lo mid else bisectLoop xs x (mid + 1) hi
  else lo
termination_by hi - lo

/-- `bisect.bisect_right(xs, x)`. -/
def bisectRight (xs : List α) (x : α) : Nat := bisectLoop xs x 0 xs.length

variable {xs : List α} {x : α}

/-- The loop keeps the entries before `lo` at most `x`, and those from `hi` on greater. -/
theorem bisectLoop_spec (hsorted : xs.Pairwise (· ≤ ·)) {lo hi : Nat} (hle : lo ≤ hi) (hhi : hi ≤ xs.length)
    (hlow : ∀ i y, i < lo → xs[i]? = some y → y ≤ x) (hhigh : ∀ i y, hi ≤ i → xs[i]? = some y → x < y) :
    bisectLoop xs x lo hi ≤ xs.length ∧ (∀ i y, i < bisectLoop xs x lo hi → xs[i]? = some y → y ≤ x) ∧
      ∀ i y, bisectLoop xs x lo hi ≤ i → xs[i]? = some y → x < y := by
  obtain ⟨n, hn⟩ : ∃ n, hi - lo ≤ n := ⟨_, le_rfl⟩
  have hmono : ∀ (i j : Nat) (y z : α), i ≤ j → xs[i]? = some y → xs[j]? = some z → y ≤ z := by
    intro i j y z hij hy hz
    obtain ⟨hi', rfl⟩ := List.getElem?_eq_some_iff.1 hy
    obtain ⟨hj', rfl⟩ := List.getElem?_eq_some_iff.1 hz
    rcases hij.eq_or_lt with rfl | hlt
    · exact le_rfl
    · exact List.pairwise_iff_getElem.1 hsorted i j hi' hj' hlt
  induction n generalizing lo hi with
  | zero =>
    rw [bisectLoop, if_neg (by omega)]
    exact ⟨by omega, hlow, fun i y hi => hhigh i y (by omega)⟩
  | succ n ih =>
    rw [bisectLoop]
    split
    next hlt =>
      have hin : (lo + hi) / 2 < xs.length := by omega
      have hmid : xs[(lo + hi) / 2]? = some xs[(lo + hi) / 2] := List.getElem?_eq_getElem hin
      dsimp only
      rw [hmid, Option.any_some]
      split
      next hless =>
        refine ih (by omega) (by omega) hlow (fun i y hi hy => ?_) (by omega)
        exact (of_decide_eq_true hless).trans_le (hmono _ _ _ _ hi hmid hy)
      next hnot =>
        refine ih (by omega) hhi (fun i y hi hy => ?_) hhigh (by omega)
        exact (hmono _ _ _ _ (by omega) hy hmid).trans (not_lt.1 fun hless => hnot (decide_eq_true hless))
    next hge => exact ⟨by omega, hlow, fun i y hi => hhigh i y (by omega)⟩

theorem bisectRight_spec (hsorted : xs.Pairwise (· ≤ ·)) (x : α) : bisectRight xs x ≤ xs.length ∧
    (∀ i y, i < bisectRight xs x → xs[i]? = some y → y ≤ x) ∧
      ∀ i y, bisectRight xs x ≤ i → xs[i]? = some y → x < y := by
  refine bisectLoop_spec hsorted (Nat.zero_le _) le_rfl (fun i _ hi => absurd hi (Nat.not_lt_zero i))
    fun i y hi hy => ?_
  exact absurd (List.getElem?_eq_some_iff.1 hy).1 (Nat.not_lt.2 hi)

end Search

/-! ## Blocks -/

/-- Where block `f` starts. -/
def start (sizes : List Int) (f : Nat) : Int := (sizes.take f).sum

variable {sizes : List Int}

@[simp] theorem start_zero : start sizes 0 = 0 := by
  simp [start]

theorem start_length : start sizes sizes.length = sizes.sum := by
  simp [start]

theorem start_succ {f : Nat} {n : Int} (hf : sizes[f]? = some n) : start sizes (f + 1) = start sizes f + n := by
  obtain ⟨hlt, rfl⟩ := List.getElem?_eq_some_iff.1 hf
  exact List.sum_take_succ sizes f hlt

theorem start_le {f g : Nat} (hsizes : ∀ n ∈ sizes, 0 ≤ n) (hfg : f ≤ g) : start sizes f ≤ start sizes g := by
  induction g, hfg using Nat.le_induction with
  | base => exact le_rfl
  | succ g _ ih =>
    refine ih.trans ?_
    rcases Nat.lt_or_ge g sizes.length with hlt | hge
    · have hget : sizes[g]? = some sizes[g] := List.getElem?_eq_getElem hlt
      rw [start_succ hget]
      have := hsizes _ (List.getElem_mem hlt)
      omega
    · rw [start, start, List.take_of_length_le hge, List.take_of_length_le (by omega)]

/-- **Blocks do not overlap.** -/
theorem block_unique {f g : Nat} {index : Int} (hsizes : ∀ n ∈ sizes, 0 ≤ n) (hf : start sizes f ≤ index)
    (hf' : index < start sizes (f + 1)) (hg : start sizes g ≤ index) (hg' : index < start sizes (g + 1)) : f = g := by
  rcases Nat.lt_trichotomy f g with h | h | h
  · have := start_le hsizes (show f + 1 ≤ g by omega)
    omega
  · exact h
  · have := start_le hsizes (show g + 1 ≤ f by omega)
    omega

/-- The starts of the blocks. -/
def starts (sizes : List Int) : List Int := (List.range sizes.length).map (start sizes)

/-- **Bisection of the starts** finds the block of an index. -/
theorem bisectRight_starts (hsizes : ∀ n ∈ sizes, 0 ≤ n) {index : Int} (h0 : 0 ≤ index) (h1 : index < sizes.sum) :
    ∃ f, bisectRight (starts sizes) index = f + 1 ∧ f < sizes.length ∧ start sizes f ≤ index ∧
      index < start sizes (f + 1) := by
  have hlen : (starts sizes).length = sizes.length := by simp [starts]
  have hget : ∀ f, f < sizes.length → (starts sizes)[f]? = some (start sizes f) := by
    intro f hf
    rw [starts, List.getElem?_map, List.getElem?_range hf, Option.map_some]
  have hsorted : (starts sizes).Pairwise (· ≤ ·) :=
    List.pairwise_map.2 (List.pairwise_lt_range.imp fun h => start_le hsizes h.le)
  obtain ⟨hle, hlow, hhigh⟩ := bisectRight_spec hsorted index
  rw [hlen] at hle
  have hnil : 0 < sizes.length := by
    rw [List.length_pos_iff]
    rintro rfl
    exact absurd (h0.trans_lt h1) (lt_irrefl 0)
  have hpos : 0 < bisectRight (starts sizes) index := by
    by_contra hzero
    have := hhigh 0 _ (by omega) (hget 0 hnil)
    rw [start_zero] at this
    omega
  obtain ⟨f, hf⟩ : ∃ f, bisectRight (starts sizes) index = f + 1 := ⟨_, (Nat.succ_pred_eq_of_pos hpos).symm⟩
  rw [hf] at hle hlow hhigh
  refine ⟨f, hf, by omega, hlow f _ (by omega) (hget f (by omega)), ?_⟩
  rcases Nat.lt_or_ge (f + 1) sizes.length with hlt | hge
  · exact hhigh (f + 1) _ le_rfl (hget _ hlt)
  · rwa [show f + 1 = sizes.length by omega, start_length]

end Bajiru.Bisect
