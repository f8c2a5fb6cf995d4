import Mathlib.Data.Nat.Init

/-!
# Numerals

That a numeral of a field is at least 2, under one name for each numeral that several definitions use. They share it,
where each of them would otherwise carry a proof of its own.
-/

namespace Bajiru

instance atLeastTwo_two : Nat.AtLeastTwo 2 := ⟨Nat.le_refl 2⟩

instance atLeastTwo_four : Nat.AtLeastTwo 4 := ⟨by decide⟩

instance atLeastTwo_ten : Nat.AtLeastTwo 10 := ⟨by decide⟩

instance atLeastTwo_twenty : Nat.AtLeastTwo 20 := ⟨by decide⟩

end Bajiru
