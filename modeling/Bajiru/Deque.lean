import Mathlib.Data.List.DropRight
import Mathlib.Tactic.Common

/-!
# A deque with a maximal length

Python's `collections.deque(maxlen=n)`: `append` drops the oldest item when the deque is full, `extend` appends one item
after the other, so that the deque then holds the last items of what was there and what came (`items_extend`).
-/

namespace Bajiru

/-- A deque of at most `maxlen` items, the oldest first. -/
structure Deque (α : Type*) (maxlen : Nat) where
  items : List α
  length_le : items.length ≤ maxlen

variable {α : Type*} {n : Nat} {xs ys : List α}

theorem rtake_of_length_le (h : xs.length ≤ n) : xs.rtake n = xs := by
  rw [List.rtake, Nat.sub_eq_zero_of_le h, List.drop_zero]

@[simp] theorem length_rtake (n : Nat) (xs : List α) : (xs.rtake n).length = min n xs.length := by
  rw [List.rtake, List.length_drop]
  omega

/-- What is dropped from a part is dropped from the whole. -/
theorem rtake_append_rtake (n : Nat) (xs ys : List α) : (xs.rtake n ++ ys).rtake n = (xs ++ ys).rtake n := by
  simp only [List.rtake, List.length_append, List.length_drop, List.drop_append, List.drop_drop]
  congr 2 <;> omega

namespace Deque

def empty (α : Type*) (maxlen : Nat) : Deque α maxlen := ⟨[], Nat.zero_le maxlen⟩

/-- `deque.append`. -/
def append (d : Deque α n) (x : α) : Deque α n :=
  ⟨(d.items ++ [x]).rtake n, by rw [length_rtake]; exact Nat.min_le_left _ _⟩

/-- `deque.extend`. -/
def extend (d : Deque α n) (xs : List α) : Deque α n := xs.foldl append d

@[simp] theorem items_empty : (empty α n).items = [] := rfl

@[simp] theorem items_append (d : Deque α n) (x : α) : (d.append x).items = (d.items ++ [x]).rtake n := rfl

@[ext] theorem ext {d e : Deque α n} (h : d.items = e.items) : d = e := by
  cases d
  cases e
  cases h
  rfl

/-- **Extending.** The last items of what was there and what came. -/
theorem items_extend (d : Deque α n) (xs : List α) : (d.extend xs).items = (d.items ++ xs).rtake n := by
  induction xs generalizing d with
  | nil => rw [List.append_nil, rtake_of_length_le d.length_le, extend, List.foldl_nil]
  | cons x xs ih =>
    calc ((d.append x).extend xs).items = ((d.items ++ [x]).rtake n ++ xs).rtake n := ih _
      _ = (d.items ++ x :: xs).rtake n := by rw [rtake_append_rtake, List.append_assoc, List.singleton_append]

end Deque

end Bajiru
