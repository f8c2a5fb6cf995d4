import Bajiru.Numerals
import Mathlib.Algebra.Order.Group.Int
import Mathlib.Data.List.DropRight
import Mathlib.Data.Rat.Floor
import Mathlib.Tactic.Common
import Mathlib.Tactic.Linarith

/-!
# Python's sequences, texts and numbers

`range` and indices as Python has them: a step may be negative, and a negative index counts from the end. `int`
truncates and `round` takes a half to the even integer. A text is the list of its characters.
-/

namespace Bajiru.Python

/-- `range(start, stop, step)`, for a step that is not 0. -/
def range (start stop step : Int) : List Int :=
  let count := if 0 < step then (stop - start + step - 1) / step else (start - stop - step - 1) / (-step)
  (List.range count.toNat).map fun (i : Nat) => start + (i : Int) * step

/-- `seq[i]`; an index that is out of range raises. -/
def getItem {α : Type*} (seq : List α) (i : Int) : Option α :=
  if 0 ≤ i then seq[i.toNat]?
  else if 0 ≤ seq.length + i then seq[(seq.length + i).toNat]?
  else none

/-- `seq[i] = value`; an index that is out of range raises. -/
def setItem {α : Type*} (seq : List α) (i : Int) (value : α) : Option (List α) :=
  let index := if 0 ≤ i then i else seq.length + i
  if 0 ≤ index ∧ index < seq.length then some (seq.set index.toNat value) else none

/-- `seq[start:stop]`. -/
def slice {α : Type*} (seq : List α) (start stop : Int) : List α :=
  let bound := fun i : Int => if i < 0 then (i + seq.length).toNat else min i.toNat seq.length
  (seq.take (bound stop)).drop (bound start)

/-- `seq[start:stop] = value`, one value for all places. -/
def setSlice {α : Type*} (seq : List α) (start stop : Int) (value : α) : List α :=
  let bound := fun i : Int => if i < 0 then (i + seq.length).toNat else min i.toNat seq.length
  seq.mapIdx fun k x => if bound start ≤ k ∧ k < bound stop then value else x

/-- A range that goes down from 0 to a length is empty. -/
theorem range_down (n : Nat) : range 0 n (-1) = [] := by
  unfold range
  dsimp only
  rw [if_neg (by decide), neg_neg, Int.ediv_one, Int.toNat_eq_zero.2 (by omega)]
  rfl

/-- A range that goes up from 0 to a length. -/
theorem range_natCast (n : Nat) {c : Nat} (hc : 0 < c) :
    range 0 n c = (List.range ((n + c - 1) / c)).map fun i => ((i * c : Nat) : Int) := by
  have hcount : (((n : Int) - 0 + c - 1) / c).toNat = (n + c - 1) / c := by
    rw [show (n : Int) - 0 + c - 1 = ((n + c - 1 : Nat) : Int) by omega, ← Int.natCast_ediv, Int.toNat_natCast]
  unfold range
  dsimp only
  rw [if_pos (by omega), hcount]
  refine List.map_congr_left fun i _ => ?_
  rw [zero_add, Int.natCast_mul]

theorem range_up (n : Nat) {c : Nat} (hc : 0 < c) :
    (range 0 n c).map Int.toNat = (List.range ((n + c - 1) / c)).map (· * c) := by
  rw [range_natCast n hc, List.map_map]
  exact List.map_congr_left fun i _ => Int.toNat_natCast _

theorem getItem_natCast {α : Type*} (seq : List α) (i : Nat) : getItem seq i = seq[i]? := by
  simp [getItem]

/-- `seq[-1]`. -/
theorem getItem_last {α : Type*} (seq : List α) : getItem seq (-1) = seq.getLast? := by
  rw [getItem, if_neg (by decide), List.getLast?_eq_getElem?]
  split
  · congr 1
    omega
  · rw [List.length_eq_zero_iff.1 (show seq.length = 0 by omega)]
    rfl

theorem setItem_natCast {α : Type*} {seq : List α} {i : Nat} (h : i < seq.length) (value : α) :
    setItem seq i value = some (seq.set i value) := by
  simp only [setItem, if_pos (Int.natCast_nonneg i), Int.toNat_natCast]
  rw [if_pos (by omega)]

/-- `seq[-1] = value`. -/
theorem setItem_last {α : Type*} {seq : List α} (h : seq ≠ []) (value : α) :
    setItem seq (-1) value = some (seq.dropLast ++ [value]) := by
  have hlen := List.length_pos_iff.2 h
  have hset : (seq.dropLast ++ [seq.getLast h]).set seq.dropLast.length value = seq.dropLast ++ [value] := by
    rw [List.set_append_right _ _ le_rfl, Nat.sub_self]
    rfl
  rw [List.dropLast_concat_getLast, List.length_dropLast] at hset
  simp only [setItem, if_neg (show ¬(0 : Int) ≤ -1 by decide)]
  rw [if_pos (by omega), show ((seq.length : Int) + -1).toNat = seq.length - 1 by omega, hset]

theorem slice_natCast {α : Type*} (seq : List α) (start stop : Nat) :
    slice seq start stop = (seq.take stop).drop start := by
  simp only [slice, if_neg (Int.not_lt.2 (Int.natCast_nonneg _)), Int.toNat_natCast]
  rw [← List.take_eq_take_min]
  rcases Nat.le_total start seq.length with h | h
  · rw [Nat.min_eq_left h]
  · rw [Nat.min_eq_right h, List.drop_eq_nil_of_le (List.length_take_le' _ _),
      List.drop_eq_nil_of_le ((List.length_take_le' _ _).trans h)]

theorem mem_of_mem_slice {α : Type*} {seq : List α} {start stop : Int} {x : α} (h : x ∈ slice seq start stop) :
    x ∈ seq :=
  List.mem_of_mem_take (List.mem_of_mem_drop h)

theorem length_setSlice {α : Type*} (seq : List α) (start stop : Int) (value : α) :
    (setSlice seq start stop value).length = seq.length := by
  simp [setSlice]

theorem getElem?_setSlice {α : Type*} {seq : List α} {start stop : Int} {value : α} {k : Nat} (h0 : 0 ≤ start)
    (h1 : 0 ≤ stop) (hk : k < seq.length) :
    (setSlice seq start stop value)[k]? = if start ≤ k ∧ k < stop then some value else seq[k]? := by
  have hmem : min start.toNat seq.length ≤ k ∧ k < min stop.toNat seq.length ↔ start ≤ k ∧ (k : Int) < stop := by omega
  simp only [setSlice, if_neg (Int.not_lt.2 h0), if_neg (Int.not_lt.2 h1), List.getElem?_mapIdx, hmem,
    List.getElem?_eq_getElem hk, Option.map_some]
  split
  · rfl
  · rfl

/-! ## Text -/

/-- `c.isspace()`. -/
def isSpace (c : Char) : Bool :=
  let n := c.toNat
  (0x09 ≤ n && n ≤ 0x0d) || (0x1c ≤ n && n ≤ 0x20) || n == 0x85 || n == 0xa0 || n == 0x1680 ||
    (0x2000 ≤ n && n ≤ 0x200a) || n == 0x2028 || n == 0x2029 || n == 0x202f || n == 0x205f || n == 0x3000

/-- `text.strip()`. -/
def strip (text : List Char) : List Char := (text.dropWhile isSpace).rdropWhile isSpace

/-! ## Numbers -/

section Numbers

variable {K : Type*} [Field K] [LinearOrder K] [FloorRing K]

/-- `int(x)`. -/
def int (x : K) : Int := if 0 ≤ x then ⌊x⌋ else ⌈x⌉

/-- `round(x)`. -/
def round (x : K) : Int :=
  let n := ⌊x⌋
  if x - n < 1 / 2 then n
  else if 1 / 2 < x - n then n + 1
  else if n % 2 = 0 then n else n + 1

theorem int_nonneg [IsStrictOrderedRing K] {x : K} (hx : 0 ≤ x) : 0 ≤ int x := by
  rw [int, if_pos hx]
  exact Int.floor_nonneg.2 hx

@[simp] theorem int_intCast [IsStrictOrderedRing K] (n : Int) : int (n : K) = n := by
  simp [int]

@[simp] theorem round_intCast [IsStrictOrderedRing K] (n : Int) : round (n : K) = n := by
  simp [round]

/-- Rounding stays between two integers. -/
theorem round_mem [IsStrictOrderedRing K] {x : K} {m n : Int} (hm : (m : K) ≤ x) (hn : x ≤ n) :
    m ≤ round x ∧ round x ≤ n := by
  have hfloor : m ≤ ⌊x⌋ := Int.le_floor.2 hm
  obtain rfl | hlt := hn.eq_or_lt
  · simpa using hfloor
  · have hceil : ⌊x⌋ + 1 ≤ n := Int.floor_lt.2 hlt
    unfold round
    dsimp only
    split_ifs <;> omega

/-- Rounding keeps the order. -/
theorem round_mono [IsStrictOrderedRing K] {x y : K} (h : x ≤ y) : round x ≤ round y := by
  have hfloor : ⌊x⌋ ≤ ⌊y⌋ := Int.floor_mono h
  rcases hfloor.eq_or_lt with heq | hlt
  · have hrest : x - ⌊x⌋ ≤ y - ⌊y⌋ := by
      rw [heq]
      linarith
    unfold round
    dsimp only
    rw [heq] at hrest ⊢
    split_ifs <;> first | omega | linarith
  · unfold round
    dsimp only
    split_ifs <;> omega

/-- Rounding is the same on both sides of 0. -/
theorem round_neg [IsStrictOrderedRing K] (x : K) : round (-x) = -round x := by
  have hlow := Int.floor_le x
  have hhigh := Int.lt_floor_add_one x
  rcases hlow.eq_or_lt with hint | hlt
  · rw [← hint, round_intCast, ← Int.cast_neg, round_intCast]
  · have hfloor : ⌊-x⌋ = -⌊x⌋ - 1 := by
      rw [Int.floor_eq_iff]
      push_cast
      constructor <;> linarith
    have hrest : -x - ⌊-x⌋ = 1 - (x - ⌊x⌋) := by
      rw [hfloor]
      push_cast
      ring
    unfold round
    dsimp only
    rw [hrest, hfloor]
    split_ifs <;> first | omega | linarith

end Numbers

/-- How floats round the exact result of an operation: the sign stays. -/
structure Rounding where
  toFun : ℚ → ℚ
  nonneg : ∀ {x : ℚ}, 0 ≤ x → 0 ≤ toFun x

/-- No rounding. -/
def Rounding.exact : Rounding := ⟨id, id⟩

/-- Floats keep the order, and the integers up to 2^53 are floats. -/
structure Rounding.Regular (rnd : Rounding) : Prop where
  mono : Monotone rnd.toFun
  intCast : ∀ {n : Int}, |n| ≤ 2 ^ 53 → rnd.toFun n = n

namespace Rounding.Regular

variable {rnd : Rounding} {x : ℚ} {n : Int}

/-- Rounding does not cross an integer. -/
theorem intCast_le (h : rnd.Regular) (hn : |n| ≤ 2 ^ 53) (hx : n ≤ x) : n ≤ rnd.toFun x :=
  (h.intCast hn).symm.trans_le (h.mono hx)

end Rounding.Regular

end Bajiru.Python
