import Mathlib.Data.Nat.ModEq
import Mathlib.Data.List.Basic
import Mathlib.Logic.Function.Basic
import Mathlib.Tactic.Common

/-!
# A log kept in the slots of a ring

Item `i` of an append-only log goes to slot `i % C` of a ring of `C` slots. `Holds C h slot` says that the slots hold
the newest `C` items of the log `h`. Appending an item and storing it in its slot keeps this (`Holds.store`): two
items less than `C` apart have different slots (`mod_ne_of_lt`).
-/

namespace Bajiru.RingSlots

variable {α : Type*} {C : Nat} {h : List α} {slot : Nat → α}

/-- Two indices less than `C` apart have different slots. -/
theorem mod_ne_of_lt {i j : Nat} (hij : i < j) (hj : j < i + C) : i % C ≠ j % C := by
  intro he
  have hC : 0 < C := by omega
  have hdvd : C ∣ j - i := (Nat.modEq_iff_dvd' hij.le).1 he
  exact absurd (Nat.le_of_dvd (by omega) hdvd) (by omega)

/-- The slots hold the newest `C` items of the log. -/
def Holds (C : Nat) (h : List α) (slot : Nat → α) : Prop :=
  ∀ i, i < h.length → h.length ≤ i + C → h[i]? = some (slot (i % C))

theorem Holds.nil : Holds C ([] : List α) slot := fun i hi => absurd hi (by simp)

/-- Storing the next item in its slot. -/
theorem Holds.store (hh : Holds C h slot) (x : α) :
    Holds C (h ++ [x]) (Function.update slot (h.length % C) x) := by
  intro i hi hC
  simp only [List.length_append, List.length_singleton] at hi hC
  rcases Nat.lt_or_ge i h.length with hlt | hge
  · have hne : i % C ≠ h.length % C := mod_ne_of_lt hlt (by omega)
    rw [List.getElem?_append_left hlt, Function.update_of_ne hne]
    exact hh i hlt (by omega)
  · obtain rfl : i = h.length := by omega
    simp

/-- The slots of a run of items. -/
theorem Holds.map_range (hh : Holds C h slot) {start count : Nat} (hle : start + count ≤ h.length)
    (hC : h.length ≤ start + C) :
    (List.range count).map (fun i => slot ((start + i) % C)) = (h.drop start).take count := by
  apply List.ext_getElem?
  intro i
  simp only [List.getElem?_map, List.getElem?_take, List.getElem?_drop]
  split
  · rename_i hi
    rw [List.getElem?_range hi, hh (start + i) (by omega) (by omega)]
    rfl
  · rename_i hi
    rw [List.getElem?_eq_none (by simpa using hi)]
    rfl

end Bajiru.RingSlots
