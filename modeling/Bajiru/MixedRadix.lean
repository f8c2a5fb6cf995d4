import Mathlib.Algebra.BigOperators.Group.List.Basic
import Mathlib.Algebra.Order.Ring.Nat
import Mathlib.Data.List.Forall2
import Mathlib.Tactic.Common

/-!
# Cartesian products and mixed radix digits

`product pools` lists the choices of one item from each pool, the last pool varying fastest. Choice number `c` takes
from each pool the item that the digit of `c` says, where the radices are the sizes of the pools (`getElem?_product`).
The digits of the numbers below the product of the radices are all digits, each once (`existsUnique_digits`).
-/

namespace Bajiru.MixedRadix

variable {α β : Type*} {radices ds : List Nat} {c : Nat}

/-! ## Digits -/

/-- The digits of `c`, the last one for the units. -/
def digits : List Nat → Nat → List Nat
  | [], _ => []
  | r :: radices, c => c / radices.prod % r :: digits radices c

/-- The number with the given digits. -/
def ofDigits : List Nat → List Nat → Nat
  | _ :: radices, d :: ds => d * radices.prod + ofDigits radices ds
  | _, _ => 0

@[simp] theorem length_digits (radices : List Nat) (c : Nat) : (digits radices c).length = radices.length := by
  induction radices with
  | nil => rfl
  | cons r radices ih => exact congrArg Nat.succ ih

/-- The digits of two groups of radices. -/
theorem digits_append (radices radices' : List Nat) (c : Nat) :
    digits (radices ++ radices') c = digits radices (c / radices'.prod) ++ digits radices' c := by
  induction radices with
  | nil => rfl
  | cons r radices ih =>
    simp only [List.cons_append, digits, ih, List.prod_append]
    rw [Nat.div_div_eq_div_mul, Nat.mul_comm]

theorem digits_mod (radices : List Nat) (c : Nat) : digits radices (c % radices.prod) = digits radices c := by
  induction radices generalizing c with
  | nil => rfl
  | cons r radices ih =>
    have htail : digits radices (c % (r * radices.prod)) = digits radices c := by
      rw [← ih (c % (r * radices.prod)), Nat.mod_mul_left_mod, ih]
    rw [digits, digits, List.prod_cons, htail, Nat.mul_comm, Nat.mod_mul_right_div_self, Nat.mod_mod]

theorem digits_lt (hc : c < radices.prod) : List.Forall₂ (· < ·) (digits radices c) radices := by
  induction radices generalizing c with
  | nil => exact .nil
  | cons r radices ih =>
    rw [List.prod_cons] at hc
    have hpos : 0 < r * radices.prod := by omega
    refine .cons (Nat.mod_lt _ (Nat.pos_of_mul_pos_right hpos)) ?_
    rw [← digits_mod]
    exact ih (Nat.mod_lt _ (Nat.pos_of_mul_pos_left hpos))

theorem ofDigits_digits (hc : c < radices.prod) : ofDigits radices (digits radices c) = c := by
  induction radices generalizing c with
  | nil =>
    obtain rfl : c = 0 := by simpa using hc
    rfl
  | cons r radices ih =>
    rw [List.prod_cons] at hc
    have hpos : 0 < radices.prod := Nat.pos_of_mul_pos_left (show 0 < r * radices.prod by omega)
    have hdigit : c / radices.prod % r = c / radices.prod :=
      Nat.mod_eq_of_lt (Nat.div_lt_of_lt_mul (by rwa [Nat.mul_comm]))
    rw [digits, ofDigits, hdigit, ← digits_mod, ih (Nat.mod_lt _ hpos)]
    exact Nat.div_add_mod' c radices.prod

theorem ofDigits_lt (h : List.Forall₂ (· < ·) ds radices) : ofDigits radices ds < radices.prod := by
  induction h with
  | nil => exact Nat.one_pos
  | @cons d r ds radices hd _ ih =>
    calc d * radices.prod + ofDigits radices ds
        < d * radices.prod + radices.prod := Nat.add_lt_add_left ih _
      _ = (d + 1) * radices.prod := (Nat.succ_mul d _).symm
      _ ≤ r * radices.prod := Nat.mul_le_mul_right _ hd
      _ = (r :: radices).prod := List.prod_cons.symm

theorem digits_ofDigits (h : List.Forall₂ (· < ·) ds radices) : digits radices (ofDigits radices ds) = ds := by
  induction h with
  | nil => rfl
  | @cons d r ds radices hd hds ih =>
    have hlt := ofDigits_lt hds
    have hpos : 0 < radices.prod := by omega
    have hdigit : (d * radices.prod + ofDigits radices ds) / radices.prod = d := by
      rw [Nat.mul_comm, Nat.mul_add_div hpos, Nat.div_eq_of_lt hlt, Nat.add_zero]
    have htail : (d * radices.prod + ofDigits radices ds) % radices.prod = ofDigits radices ds := by
      rw [Nat.mul_comm, Nat.mul_add_mod, Nat.mod_eq_of_lt hlt]
    rw [ofDigits, digits, hdigit, Nat.mod_eq_of_lt hd, ← digits_mod, htail, ih]

/-- **All digits**, each once. -/
theorem existsUnique_digits (h : List.Forall₂ (· < ·) ds radices) : ∃! c, c < radices.prod ∧ digits radices c = ds := by
  refine ⟨ofDigits radices ds, ⟨ofDigits_lt h, digits_ofDigits h⟩, fun c hc => ?_⟩
  rw [← hc.2, ofDigits_digits hc.1]

/-! ## Products -/

/-- The choices of one item from each pool. -/
def product : List (List α) → List (List α)
  | [] => [[]]
  | pool :: pools => pool.flatMap fun x => (product pools).map (x :: ·)

/-- The items at the given places of the pools. -/
def pick : List (List α) → List Nat → Option (List α)
  | pool :: pools, d :: ds => do
    let x ← pool[d]?
    let xs ← pick pools ds
    return x :: xs
  | [], [] => some []
  | _, _ => none

/-- The items of lists of one length, one list behind the other. -/
theorem getElem?_flatMap {f : α → List β} {xs : List α} {m : Nat} (hm : 0 < m) (hf : ∀ x ∈ xs, (f x).length = m)
    (c : Nat) :
    (xs.flatMap f)[c]? = (xs[c / m]?).bind fun x => (f x)[c % m]? := by
  induction xs generalizing c with
  | nil => rfl
  | cons x xs ih =>
    obtain ⟨hx, hxs⟩ := List.forall_mem_cons.1 hf
    rw [List.flatMap_cons]
    rcases Nat.lt_or_ge c m with hlt | hge
    · rw [List.getElem?_append_left (by omega), Nat.div_eq_of_lt hlt, Nat.mod_eq_of_lt hlt]
      rfl
    · rw [List.getElem?_append_right (by omega), ih hxs, hx, Nat.div_eq_sub_div hm hge, List.getElem?_cons_succ,
        ← Nat.mod_eq_sub_mod hge]

theorem length_product (pools : List (List α)) : (product pools).length = (pools.map List.length).prod := by
  induction pools with
  | nil => rfl
  | cons pool pools ih => simp [product, ih]

/-- **A choice of the product** is given by its digits. -/
theorem getElem?_product {pools : List (List α)} (hc : c < (pools.map List.length).prod) :
    (product pools)[c]? = pick pools (digits (pools.map List.length) c) := by
  induction pools generalizing c with
  | nil =>
    obtain rfl : c = 0 := by simpa using hc
    rfl
  | cons pool pools ih =>
    rw [List.map_cons, List.prod_cons] at hc
    have hpos : 0 < (pools.map List.length).prod :=
      Nat.pos_of_mul_pos_left (show 0 < pool.length * (pools.map List.length).prod by omega)
    have hdigit : c / (pools.map List.length).prod % pool.length = c / (pools.map List.length).prod :=
      Nat.mod_eq_of_lt (Nat.div_lt_of_lt_mul (by rwa [Nat.mul_comm]))
    rw [product, getElem?_flatMap hpos (fun x _ => (List.length_map _).trans (length_product pools)), List.map_cons,
      digits, hdigit, pick]
    cases pool[c / (pools.map List.length).prod]? with
    | none => rfl
    | some x =>
      simp only [Option.bind_some, List.getElem?_map, ih (Nat.mod_lt _ hpos), digits_mod]
      cases pick pools (digits (pools.map List.length) c) <;> rfl

end Bajiru.MixedRadix
