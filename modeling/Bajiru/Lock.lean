import Mathlib.Data.List.Basic
import Mathlib.Tactic.Common

/-!
# A lock and its threads

Threads are a list of program points, some of them inside a critical section. The lock is exclusive when exactly the
thread that holds it is inside: this is kept when a thread takes the free lock, gives its own back, moves on without
entering or leaving, or is started outside.
-/

namespace Bajiru

variable {σ : Type*} {critical : σ → Bool} {lock : Option Nat} {threads : List σ} {i j : Nat} {pc pc' : σ}

/-- Exactly the holder of the lock is in its critical section. -/
def Exclusive (critical : σ → Bool) (lock : Option Nat) (threads : List σ) : Prop :=
  ∀ i, lock = some i ↔ ∃ pc, threads[i]? = some pc ∧ critical pc = true

namespace Exclusive

theorem nil : Exclusive critical none [] := fun i => by simp

/-- A critical thread has the lock. -/
theorem holder (h : Exclusive critical lock threads) (hi : threads[i]? = some pc) (hc : critical pc = true) :
    lock = some i := (h i).2 ⟨pc, hi, hc⟩

/-- Two critical threads are one. -/
theorem unique (h : Exclusive critical lock threads) (hi : threads[i]? = some pc) (hc : critical pc = true)
    (hj : threads[j]? = some pc') (hc' : critical pc' = true) : i = j :=
  Option.some.inj ((h.holder hi hc).symm.trans (h.holder hj hc'))

theorem getElem?_set_of_some (hi : threads[i]? = some pc) (pc' : σ) : (threads.set i pc')[i]? = some pc' := by
  obtain ⟨hlt, -⟩ := List.getElem?_eq_some_iff.1 hi
  simp [hlt]

/-- A thread takes the free lock. -/
theorem acquire (h : Exclusive critical none threads) (hi : threads[i]? = some pc) (hc : critical pc' = true) :
    Exclusive critical (some i) (threads.set i pc') := by
  intro j
  by_cases hij : i = j
  · subst hij
    simp [getElem?_set_of_some hi, hc]
  · rw [List.getElem?_set_ne hij, ← h j]
    simp [hij]

/-- The holder gives the lock back. -/
theorem release (h : Exclusive critical lock threads) (hi : threads[i]? = some pc) (hc : critical pc = true)
    (hc' : critical pc' = false) : Exclusive critical none (threads.set i pc') := by
  intro j
  have hlock := h.holder hi hc
  by_cases hij : i = j
  · subst hij
    simp [getElem?_set_of_some hi, hc']
  · rw [List.getElem?_set_ne hij, ← h j, hlock]
    simp [hij]

/-- A thread moves on, inside or outside. -/
theorem move (h : Exclusive critical lock threads) (hi : threads[i]? = some pc) (hc : critical pc' = critical pc) :
    Exclusive critical lock (threads.set i pc') := by
  intro j
  rw [h j]
  by_cases hij : i = j
  · subst hij
    simp [getElem?_set_of_some hi, hi, hc]
  · rw [List.getElem?_set_ne hij]

/-- A thread is started outside. -/
theorem spawn (h : Exclusive critical lock threads) (hc : critical pc = false) :
    Exclusive critical lock (threads ++ [pc]) := by
  intro j
  rw [h j]
  obtain hj | hj := Nat.lt_or_ge j threads.length
  · rw [List.getElem?_append_left hj]
  · have hnone : threads[j]? = none := List.getElem?_eq_none hj
    rw [hnone, List.getElem?_append_right hj]
    constructor
    · rintro ⟨pc', h, -⟩
      cases h
    · rintro ⟨pc', hpc', hc'⟩
      obtain rfl := List.mem_singleton.1 (List.mem_of_getElem? hpc')
      rw [hc] at hc'
      cases hc'

end Exclusive

end Bajiru
