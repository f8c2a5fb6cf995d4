import Mathlib.Data.List.Perm.Basic
import Mathlib.Logic.Equiv.Basic
import Mathlib.Tactic.Common

/-!
# A binary heap in an array

The heap of Python's `heapq`, for an order that is given by its `<`. A value that may be smaller than its ancestors moves
toward the root (`siftdown`); a hole at the root moves to a leaf, along the smaller children, before the value in it does
(`siftup`). Both only swap, so that no value is lost (`siftdown_perm`, `siftup_perm`); the heap is in order except around
the value that moves (`OrderedBut`), and in order where it stops.
-/

namespace Bajiru.BinaryHeap

variable {β : Type*}

/-- The strict part of a total preorder. -/
structure Strict (lt : β → β → Bool) : Prop where
  asymm : ∀ {a b}, lt a b = true → lt b a = false
  trans : ∀ {a b c}, lt b a = false → lt c b = false → lt c a = false

variable {lt : β → β → Bool}

theorem Strict.irrefl (h : Strict lt) (a : β) : lt a a = false := by
  cases haa : lt a a with
  | false => rfl
  | true => exact haa.symm.trans (h.asymm haa)

variable (lt)

/-- `_siftdown(heap, 0, pos)`. -/
def siftdown (heap : Array β) (pos : Nat) (hpos : pos < heap.size) : Array β :=
  if 0 < pos then
    if lt heap[pos] heap[(pos - 1) / 2] then
      siftdown (heap.swap ((pos - 1) / 2) pos) ((pos - 1) / 2) (by rw [Array.size_swap]; omega)
    else heap
  else heap
termination_by pos

/-- The smaller child of `pos`. -/
def smallerChild (heap : Array β) (pos : Nat) (hchild : 2 * pos + 1 < heap.size) : Nat :=
  if h : 2 * pos + 2 < heap.size then
    if lt heap[2 * pos + 1] heap[2 * pos + 2] then 2 * pos + 1 else 2 * pos + 2
  else 2 * pos + 1

theorem smallerChild_eq {heap : Array β} {pos : Nat} (hchild : 2 * pos + 1 < heap.size) :
    smallerChild lt heap pos hchild = 2 * pos + 1 ∨
      smallerChild lt heap pos hchild = 2 * pos + 2 ∧ 2 * pos + 2 < heap.size := by
  unfold smallerChild
  split
  next h =>
    split
    · exact .inl rfl
    · exact .inr ⟨rfl, h⟩
  next => exact .inl rfl

variable {lt}

theorem smallerChild_lt {heap : Array β} {pos : Nat} {hchild : 2 * pos + 1 < heap.size} :
    smallerChild lt heap pos hchild < heap.size := by
  obtain h | ⟨h, hlt⟩ := smallerChild_eq lt hchild
  · omega
  · omega

variable (lt) in
/-- `_siftup(heap, pos)`. -/
def siftup (heap : Array β) (pos : Nat) (hpos : pos < heap.size) : Array β :=
  if hchild : 2 * pos + 1 < heap.size then
    siftup (heap.swap (smallerChild lt heap pos hchild) pos smallerChild_lt hpos) (smallerChild lt heap pos hchild)
      (by rw [Array.size_swap]; exact smallerChild_lt)
  else siftdown lt heap pos hpos
termination_by heap.size - pos
decreasing_by
  rw [Array.size_swap]
  obtain h | ⟨h, -⟩ := smallerChild_eq lt hchild
  · omega
  · omega

variable (lt) in
def heappush (heap : Array β) (item : β) : Array β := siftdown lt (heap.push item) heap.size (by simp)

variable (lt) in
/-- `heapreplace(heap, item)` without its result, which is `heap[0]`. -/
def heapreplace (heap : Array β) (item : β) (h : 0 < heap.size) : Array β :=
  siftup lt (heap.set 0 item) 0 (by simpa using h)

/-! ## The values -/

variable (lt) in
theorem siftdown_perm (heap : Array β) (pos : Nat) (hpos : pos < heap.size) : (siftdown lt heap pos hpos).Perm heap := by
  induction pos using Nat.strongRecOn generalizing heap with
  | ind pos ih =>
    unfold siftdown
    split
    · split
      · exact (ih ((pos - 1) / 2) (by omega) _ _).trans (Array.swap_perm _ _)
      · exact .refl heap
    · exact .refl heap

variable (lt) in
theorem siftup_perm (heap : Array β) (pos : Nat) (hpos : pos < heap.size) : (siftup lt heap pos hpos).Perm heap := by
  fun_induction siftup lt heap pos hpos with
  | case1 heap pos hpos hchild ih => exact ih.trans (Array.swap_perm _ _)
  | case2 heap pos hpos hchild => exact siftdown_perm lt heap pos hpos

theorem heappush_perm (heap : Array β) (item : β) : (heappush lt heap item).toList.Perm (item :: heap.toList) := by
  have hperm := (siftdown_perm lt (heap.push item) heap.size (by simp)).toList
  rw [Array.toList_push] at hperm
  exact hperm.trans (List.perm_append_singleton item heap.toList)

theorem toList_eq_cons {heap : Array β} (h : 0 < heap.size) : heap.toList = heap[0] :: heap.toList.tail := by
  obtain ⟨root, rest, hheap⟩ := List.exists_cons_of_length_pos (l := heap.toList) (by simpa using h)
  have hroot : heap[0] = root := by simp [← Array.getElem_toList, hheap]
  rw [hheap, hroot, List.tail_cons]

/-- The item takes the place of the root. -/
theorem heapreplace_perm (heap : Array β) (item : β) (h : 0 < heap.size) :
    (heapreplace lt heap item h).toList.Perm (item :: heap.toList.tail) := by
  have hperm := (siftup_perm lt (heap.set 0 item) 0 (by simpa using h)).toList
  rwa [Array.toList_set, toList_eq_cons h, List.set_cons_zero] at hperm

/-! ## The order -/

variable (lt) in
/-- The value at `j` is not smaller than that at `i`. -/
def Above (heap : Array β) (i j : Nat) : Prop :=
  ∀ (hi : i < heap.size) (hj : j < heap.size), lt heap[j] heap[i] = false

variable (lt) in
/-- No value is smaller than its parent. -/
def IsHeap (heap : Array β) : Prop := ∀ i, 0 < i → Above lt heap ((i - 1) / 2) i

variable (lt) in
/-- The heap is in order but between `pos` and its neighbours, and in order across `pos`. -/
structure OrderedBut (heap : Array β) (pos : Nat) : Prop where
  apart : ∀ i, 0 < i → i ≠ pos → (i - 1) / 2 ≠ pos → Above lt heap ((i - 1) / 2) i
  across : ∀ i, 0 < i → 0 < pos → (i - 1) / 2 = pos → Above lt heap ((pos - 1) / 2) i

variable {heap : Array β} {pos : Nat} {hpos : pos < heap.size}

theorem above_swap {p q i j : Nat} {hp : p < heap.size} {hq : q < heap.size} :
    Above lt (heap.swap p q) i j ↔ Above lt heap (Equiv.swap p q i) (Equiv.swap p q j) := by
  have hget : ∀ k (hk : k < (heap.swap p q).size) (hk' : Equiv.swap p q k < heap.size),
      (heap.swap p q)[k] = heap[Equiv.swap p q k] := by
    intro k hk hk'
    rw [Array.getElem_swap]
    split
    next h => simp only [h, Equiv.swap_apply_left]
    next hp =>
      split
      next h => simp only [h, Equiv.swap_apply_right]
      next hq => simp only [Equiv.swap_apply_of_ne_of_ne hp hq]
  have hsize : ∀ k, k < (heap.swap p q).size ↔ Equiv.swap p q k < heap.size := by
    intro k
    rw [Array.size_swap, Equiv.swap_apply_def]
    split
    · omega
    · split
      · omega
      · rfl
  constructor
  · intro h hi hj
    rw [← hget i ((hsize i).2 hi), ← hget j ((hsize j).2 hj)]
    exact h _ _
  · intro h hi hj
    rw [hget i hi ((hsize i).1 hi), hget j hj ((hsize j).1 hj)]
    exact h _ _

section Order

variable (hlt : Strict lt)

include hlt

theorem Above.trans {i j k : Nat} (hj : j < heap.size) (h : Above lt heap i j) (h' : Above lt heap j k) :
    Above lt heap i k :=
  fun hi hk => hlt.trans (h hi hj) (h' hj hk)

/-- A value that is smaller than its parent takes its place. -/
theorem OrderedBut.up (h : OrderedBut lt heap pos) (hpos' : 0 < pos)
    (hsmaller : lt heap[pos] heap[(pos - 1) / 2] = true) :
    OrderedBut lt (heap.swap ((pos - 1) / 2) pos) ((pos - 1) / 2) ∧ ∀ i, 0 < i → (i - 1) / 2 = (pos - 1) / 2 →
      Above lt (heap.swap ((pos - 1) / 2) pos) ((pos - 1) / 2) i := by
  have hup : Above lt heap pos ((pos - 1) / 2) := fun _ _ => hlt.asymm hsmaller
  -- the values around the parent, before the swap
  have hsibling : ∀ i, 0 < i → i ≠ pos → (i - 1) / 2 = (pos - 1) / 2 → Above lt heap ((pos - 1) / 2) i :=
    fun i hi hne heq => heq ▸ h.apart i hi hne (by omega)
  refine ⟨⟨?_, ?_⟩, ?_⟩
  · intro i hi hne hnot
    rw [above_swap]
    by_cases hchild : (i - 1) / 2 = pos
    · rw [hchild, Equiv.swap_apply_right, Equiv.swap_apply_of_ne_of_ne hne (by omega)]
      exact h.across i hi hpos' hchild
    · have hne' : i ≠ pos := fun heq => hnot (by rw [heq])
      rw [Equiv.swap_apply_of_ne_of_ne hnot hchild, Equiv.swap_apply_of_ne_of_ne hne hne']
      exact h.apart i hi hne' hchild
  · intro i hi hgrand heq
    rw [above_swap, Equiv.swap_apply_of_ne_of_ne (by omega) (by omega)]
    have hgrandparent := h.apart ((pos - 1) / 2) hgrand (by omega) (by omega)
    by_cases hipos : i = pos
    · rw [hipos, Equiv.swap_apply_right]
      exact hgrandparent
    · rw [Equiv.swap_apply_of_ne_of_ne (by omega) hipos]
      exact hgrandparent.trans hlt (by omega) (hsibling i hi hipos heq)
  · intro i hi heq
    rw [above_swap, Equiv.swap_apply_left]
    by_cases hipos : i = pos
    · rw [hipos, Equiv.swap_apply_right]
      exact hup
    · rw [Equiv.swap_apply_of_ne_of_ne (by omega) hipos]
      exact hup.trans hlt (by omega) (hsibling i hi hipos heq)

omit hlt in
/-- A value that is in order with its parent stays. -/
theorem OrderedBut.isHeap (h : OrderedBut lt heap pos) (hparent : 0 < pos → Above lt heap ((pos - 1) / 2) pos)
    (hbelow : ∀ i, 0 < i → (i - 1) / 2 = pos → Above lt heap pos i) : IsHeap lt heap := by
  intro i hi
  by_cases hipos : i = pos
  · subst hipos
    exact hparent hi
  · by_cases hchild : (i - 1) / 2 = pos
    · rw [hchild]
      exact hbelow i hi hchild
    · exact h.apart i hi hipos hchild

/-- A value that is not in order with its parent only moves to its place. -/
theorem siftdown_isHeap (h : OrderedBut lt heap pos)
    (hbelow : ∀ i, 0 < i → (i - 1) / 2 = pos → Above lt heap pos i) :
    IsHeap lt (siftdown lt heap pos hpos) := by
  induction pos using Nat.strongRecOn generalizing heap with
  | ind pos ih =>
    unfold siftdown
    split
    next hpos' =>
      split
      next hsmaller =>
        obtain ⟨hup, hbelow'⟩ := h.up hlt hpos' hsmaller
        exact ih ((pos - 1) / 2) (by omega) hup hbelow'
      next hge => exact h.isHeap (fun _ _ _ => Bool.eq_false_iff.2 hge) hbelow
    next hzero => exact h.isHeap (fun hpos' => absurd hpos' hzero) hbelow

theorem smallerChild_above (hchild : 2 * pos + 1 < heap.size) {i : Nat} (hi : 0 < i) (hparent : (i - 1) / 2 = pos) :
    Above lt heap (smallerChild lt heap pos hchild) i := by
  have hrefl : ∀ j, Above lt heap j j := fun _ _ _ => hlt.irrefl _
  unfold smallerChild
  obtain rfl | rfl : i = 2 * pos + 1 ∨ i = 2 * pos + 2 := by omega
  · split
    · split
      · exact hrefl _
      next hge => exact fun _ _ => Bool.eq_false_iff.2 hge
    · exact hrefl _
  · split
    · split
      next hsmaller => exact fun _ _ => hlt.asymm hsmaller
      next => exact hrefl _
    next hend => exact fun _ hi' => absurd hi' hend

omit hlt in
/-- The smaller child takes the place of the value. -/
theorem OrderedBut.down (h : OrderedBut lt heap pos) {child : Nat} (hsize : child < heap.size) (hpos' : pos < child)
    (hchild : (child - 1) / 2 = pos) (hsmaller : ∀ i, 0 < i → (i - 1) / 2 = pos → Above lt heap child i) :
    OrderedBut lt (heap.swap child pos) child := by
  refine ⟨?_, ?_⟩
  · intro i hi hne hnot
    rw [above_swap]
    by_cases hipos : i = pos
    · rw [hipos, Equiv.swap_apply_right, Equiv.swap_apply_of_ne_of_ne (by omega) (by omega)]
      exact h.across child (by omega) (by omega) hchild
    · rw [Equiv.swap_apply_of_ne_of_ne hne hipos]
      by_cases hparent : (i - 1) / 2 = pos
      · rw [hparent, Equiv.swap_apply_right]
        exact hsmaller i hi hparent
      · rw [Equiv.swap_apply_of_ne_of_ne hnot hparent]
        exact h.apart i hi hipos hparent
  · intro i hi _ heq
    rw [above_swap, hchild, Equiv.swap_apply_right, Equiv.swap_apply_of_ne_of_ne (by omega) (by omega)]
    exact heq ▸ h.apart i hi (by omega) (by omega)

/-- A value that is not in order with its neighbours goes down to a leaf, and from there to its place. -/
theorem siftup_isHeap (h : OrderedBut lt heap pos) : IsHeap lt (siftup lt heap pos hpos) := by
  fun_induction siftup lt heap pos hpos with
  | case1 heap pos hpos hchild ih =>
    obtain heq | ⟨heq, -⟩ := smallerChild_eq lt hchild
    · exact ih (h.down smallerChild_lt (by omega) (by omega) fun i => smallerChild_above hlt hchild)
    · exact ih (h.down smallerChild_lt (by omega) (by omega) fun i => smallerChild_above hlt hchild)
  | case2 heap pos hpos hchild => exact siftdown_isHeap hlt h fun i hi heq _ hi' => by omega

theorem heappush_isHeap (h : IsHeap lt heap) (item : β) : IsHeap lt (heappush lt heap item) := by
  refine siftdown_isHeap hlt ⟨?_, ?_⟩ ?_
  · intro i hi hne _ _ hi'
    rw [Array.size_push] at hi'
    rw [Array.getElem_push_lt (by omega), Array.getElem_push_lt (by omega)]
    exact h i hi _ _
  · intro i hi _ heq _ hi'
    rw [Array.size_push] at hi'
    omega
  · intro i hi heq _ hi'
    rw [Array.size_push] at hi'
    omega

theorem heapreplace_isHeap (h : IsHeap lt heap) (item : β) (hsize : 0 < heap.size) :
    IsHeap lt (heapreplace lt heap item hsize) := by
  refine siftup_isHeap hlt ⟨?_, ?_⟩
  · intro i hi hne hnot _ _
    simp only [Array.getElem_set, Ne.symm hne, Ne.symm hnot, if_false]
    exact h i hi _ _
  · intro i hi hzero
    omega

/-- The root is a smallest value. -/
theorem IsHeap.root (h : IsHeap lt heap) (i : Nat) : Above lt heap 0 i := by
  induction i using Nat.strongRecOn with
  | ind i ih =>
    rcases Nat.eq_zero_or_pos i with rfl | hi
    · exact fun _ _ => hlt.irrefl _
    · intro hsize hi'
      exact (ih ((i - 1) / 2) (by omega)).trans hlt (by omega) (h i hi) hsize hi'

end Order

end Bajiru.BinaryHeap
