import Mathlib.Data.List.Basic
import Mathlib.Tactic.Common

/-!
# A cell that keeps the newest value

Values are put into a cell one after the other, and now and then the cell is emptied: what it holds is taken, and it is
clean until the next value. The history of the cell is the list of the values, and for each one that was taken the
number of the values before. In a faithful history what is taken is the newest value, the takes are in the order of the
values, and nothing is lost: a clean cell has handed out its last value.
-/

namespace Bajiru

variable {α : Type*}

/-- The history of a cell: `values` were put into it, `taken` out of it, it holds `value`, and it is dirty if that was
not taken yet. -/
structure Faithful (values : List α) (taken : List (Nat × α)) (value : α) (dirty : Bool) : Prop where
  holds : values.getLast? = some value ∨ values = [] ∧ dirty = false
  newest : ∀ n x, (n, x) ∈ taken → n ≤ values.length ∧ (values.take n).getLast? = some x
  ordered : taken.Pairwise fun p q => p.1 ≤ q.1
  clean : values ≠ [] → dirty = false → (taken.map Prod.snd).getLast? = some value

namespace Faithful

variable {values : List α} {taken : List (Nat × α)} {value v : α} {dirty : Bool}

theorem nil (value : α) : Faithful [] [] value false where
  holds := .inr ⟨rfl, rfl⟩
  newest := nofun
  ordered := List.Pairwise.nil
  clean h := absurd rfl h

/-- The takes before a further value. -/
theorem newest_append (h : Faithful values taken value dirty) {n : Nat} {x : α} (hx : (n, x) ∈ taken) :
    n ≤ (values ++ [v]).length ∧ ((values ++ [v]).take n).getLast? = some x := by
  obtain ⟨hle, hlast⟩ := h.newest n x hx
  rw [List.length_append, List.take_append_of_le_length hle]
  exact ⟨Nat.le_add_right_of_le hle, hlast⟩

/-- A value is put into the cell. -/
theorem put (h : Faithful values taken value dirty) (v : α) : Faithful (values ++ [v]) taken v true where
  holds := .inl List.getLast?_concat
  newest _ _ := h.newest_append
  ordered := h.ordered
  clean := nofun

/-- A value that the cell holds already need not be put into it. -/
theorem keep (h : Faithful values taken value dirty) (hv : values.getLast? = some v) :
    Faithful (values ++ [v]) taken value dirty := by
  have hne : values ≠ [] := by
    rintro rfl
    cases hv
  constructor
  · left
    obtain hvalue | ⟨hnil, -⟩ := h.holds
    · rw [List.getLast?_concat, ← hv, hvalue]
    · exact absurd hnil hne
  · intro n x
    exact h.newest_append
  · exact h.ordered
  · intro _
    exact h.clean hne

/-- The value is taken out of a dirty cell. -/
theorem take (h : Faithful values taken value true) :
    Faithful values (taken ++ [(values.length, value)]) value false := by
  have hlast : values.getLast? = some value := by
    obtain hvalue | ⟨-, hdirty⟩ := h.holds
    · exact hvalue
    · cases hdirty
  constructor
  · exact .inl hlast
  · intro n x hx
    obtain hx | hx := List.mem_append.1 hx
    · exact h.newest n x hx
    · cases List.mem_singleton.1 hx
      rw [List.take_length]
      exact ⟨Nat.le_refl _, hlast⟩
  · rw [List.pairwise_append]
    refine ⟨h.ordered, List.pairwise_singleton _ _, ?_⟩
    rintro ⟨n, x⟩ hx q hq
    cases List.mem_singleton.1 hq
    exact (h.newest n x hx).1
  · intro _ _
    simp

end Faithful

end Bajiru
