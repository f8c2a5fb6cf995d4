import Mathlib.Data.List.Basic
import Mathlib.Tactic.Common

/-!
# Chunks of a list

A list cut into chunks of `c` entries, the last one with what is left. The chunks put together are the list
(`flatten_chunks`), all but the last have `c` entries, and none is empty.
-/

namespace Bajiru

variable {α : Type*}

/-- The chunks of `c` entries. -/
def chunks (c : Nat) (xs : List α) : List (List α) :=
  (List.range ((xs.length + c - 1) / c)).map fun k => (xs.drop (k * c)).take c

/-- Chunks that follow each other. -/
theorem flatten_chunksUpTo (c : Nat) (xs : List α) (k : Nat) :
    ((List.range k).map fun j => (xs.drop (j * c)).take c).flatten = xs.take (k * c) := by
  induction k with
  | zero => simp
  | succ k ih =>
    rw [List.range_succ, List.map_append, List.flatten_append, ih, Nat.succ_mul, List.take_add]
    simp

/-- The chunks reach the end of the list. -/
theorem le_count_mul {c : Nat} (hc : 0 < c) (n : Nat) : n ≤ (n + c - 1) / c * c := by
  have hdiv := Nat.div_add_mod (n + c - 1) c
  have hmod := Nat.mod_lt (n + c - 1) hc
  rw [Nat.mul_comm]
  omega

/-- A chunk starts inside the list. -/
theorem mul_lt_of_lt_count {c n k : Nat} (hk : k < (n + c - 1) / c) : k * c < n := by
  have hle := Nat.div_mul_le_self (n + c - 1) c
  have hstep : (k + 1) * c ≤ (n + c - 1) / c * c := Nat.mul_le_mul_right c hk
  rw [Nat.succ_mul] at hstep
  rcases Nat.eq_zero_or_pos c with rfl | hc
  · simp at hk
  · omega

/-- **The chunks put together** are the list. -/
theorem flatten_chunks {c : Nat} (hc : 0 < c) (xs : List α) : (chunks c xs).flatten = xs := by
  rw [chunks, flatten_chunksUpTo]
  exact List.take_of_length_le (le_count_mul hc _)

theorem length_chunks (c : Nat) (xs : List α) : (chunks c xs).length = (xs.length + c - 1) / c := by
  rw [chunks, List.length_map, List.length_range]

theorem chunks_ne_nil {c : Nat} (hc : 0 < c) {xs : List α} (hxs : xs ≠ []) : chunks c xs ≠ [] := by
  intro hnil
  have hflat := flatten_chunks hc xs
  rw [hnil] at hflat
  exact hxs hflat.symm

theorem getElem?_chunks {c : Nat} {xs : List α} {k : Nat} {chunk : List α} (h : (chunks c xs)[k]? = some chunk) :
    k * c < xs.length ∧ chunk = (xs.drop (k * c)).take c := by
  rw [chunks, List.getElem?_map, Option.map_eq_some_iff] at h
  obtain ⟨j, hj, rfl⟩ := h
  obtain ⟨hlt, rfl⟩ := List.getElem?_eq_some_iff.1 hj
  rw [List.getElem_range]
  rw [List.length_range] at hlt
  exact ⟨mul_lt_of_lt_count hlt, rfl⟩

/-- No chunk is empty. -/
theorem length_pos_of_mem_chunks {c : Nat} (hc : 0 < c) {xs chunk : List α} (h : chunk ∈ chunks c xs) :
    0 < chunk.length := by
  obtain ⟨k, hk⟩ := List.mem_iff_getElem?.1 h
  obtain ⟨hlt, rfl⟩ := getElem?_chunks hk
  rw [List.length_take, List.length_drop]
  omega

/-- A chunk that is followed by another one is full. -/
theorem length_of_lt {c : Nat} {xs : List α} {k : Nat} {chunk : List α} (h : (chunks c xs)[k]? = some chunk)
    (hk : k + 1 < (chunks c xs).length) : chunk.length = c := by
  obtain ⟨-, rfl⟩ := getElem?_chunks h
  rw [length_chunks] at hk
  have hnext := mul_lt_of_lt_count hk
  rw [Nat.succ_mul] at hnext
  rw [List.length_take, List.length_drop]
  omega

/-- **All chunks but the last** are full. -/
theorem length_of_mem_dropLast {c : Nat} {xs chunk : List α} (h : chunk ∈ (chunks c xs).dropLast) :
    chunk.length = c := by
  obtain ⟨k, hk⟩ := List.mem_iff_getElem?.1 h
  obtain ⟨hlt, -⟩ := List.getElem?_eq_some_iff.1 hk
  rw [List.length_dropLast] at hlt
  rw [List.getElem?_dropLast, if_pos hlt] at hk
  exact length_of_lt hk (by omega)

end Bajiru
