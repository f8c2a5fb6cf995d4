import Mathlib.Data.Multiset.Sort

/-!
# The smallest values of a multiset

`smallest k m` are the `k` smallest values of `m`, all of them if there are fewer. A selection is kept up to date value by
value (`Keeps`): a new one is added while there is room, then it replaces a largest one of the selection or is left out.
-/

namespace Bajiru

variable {α : Type*} [LinearOrder α]

/-- The `k` smallest values of a multiset. -/
def smallest (k : Nat) (m : Multiset α) : Multiset α := (m.sort (· ≤ ·)).take k

/-- `kept` is a selection of `k` smallest values, and `left` are the others. -/
structure Keeps (k : Nat) (kept left : Multiset α) : Prop where
  room : kept.card ≤ k
  full : kept.card < k → left = 0
  le : ∀ y ∈ kept, ∀ z ∈ left, y ≤ z

namespace Keeps

variable {k : Nat} {kept left : Multiset α} {x w : α}

theorem empty (k : Nat) : Keeps k (0 : Multiset α) 0 := ⟨Nat.zero_le k, fun _ => rfl, nofun⟩

/-- A new value is added while there is room. -/
theorem push (h : Keeps k kept left) (hroom : kept.card < k) : Keeps k (x ::ₘ kept) left := by
  obtain rfl := h.full hroom
  exact ⟨by rw [Multiset.card_cons]; omega, fun _ => rfl, fun y _ z hz => absurd hz (Multiset.notMem_zero z)⟩

/-- A new value takes the place of a largest one. -/
theorem replace (h : Keeps k (w ::ₘ kept) left) (hfull : kept.card + 1 = k) (hmax : ∀ y ∈ kept, y ≤ w) (hx : x < w) :
    Keeps k (x ::ₘ kept) (w ::ₘ left) := by
  have hcard : (x ::ₘ kept).card = k := (Multiset.card_cons x kept).trans hfull
  refine ⟨hcard.le, fun hlt => absurd hcard hlt.ne, fun y hy z hz => ?_⟩
  have hyw : y ≤ w := (Multiset.mem_cons.1 hy).elim (fun heq => heq ▸ hx.le) (hmax y)
  rcases Multiset.mem_cons.1 hz with rfl | hz
  · exact hyw
  · exact hyw.trans (h.le w (Multiset.mem_cons_self w kept) z hz)

/-- A new value is left out. -/
theorem reject (h : Keeps k kept left) (hfull : kept.card = k) (hx : ∀ y ∈ kept, y ≤ x) : Keeps k kept (x ::ₘ left) := by
  refine ⟨h.room, fun hlt => absurd hfull hlt.ne, fun y hy z hz => ?_⟩
  rcases Multiset.mem_cons.1 hz with rfl | hz
  · exact hx y hy
  · exact h.le y hy z hz

/-- **The selection** is that of the smallest values. -/
theorem smallest_eq (h : Keeps k kept left) : smallest k (kept + left) = kept := by
  have hperm : ((kept + left).sort (· ≤ ·)).Perm (kept.sort (· ≤ ·) ++ left.sort (· ≤ ·)) := by
    rw [← Multiset.coe_eq_coe, Multiset.sort_eq, ← Multiset.coe_add, Multiset.sort_eq, Multiset.sort_eq]
  have hordered : (kept.sort (· ≤ ·) ++ left.sort (· ≤ ·)).Pairwise (· ≤ ·) := by
    refine List.pairwise_append.2 ⟨Multiset.pairwise_sort _ _, Multiset.pairwise_sort _ _, fun y hy z hz => ?_⟩
    exact h.le y ((Multiset.mem_sort _).1 hy) z ((Multiset.mem_sort _).1 hz)
  unfold smallest
  rw [hperm.eq_of_pairwise' (Multiset.pairwise_sort _ _) hordered]
  rcases h.room.lt_or_eq with hlt | heq
  · rw [h.full hlt, Multiset.sort_zero, List.append_nil,
      List.take_of_length_le (by rw [Multiset.length_sort]; exact h.room), Multiset.sort_eq]
  · rw [List.take_left' (by rw [Multiset.length_sort, heq]), Multiset.sort_eq]

end Keeps

end Bajiru
