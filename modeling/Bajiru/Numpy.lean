import Bajiru.Python
import Mathlib.Algebra.BigOperators.Group.List.Basic
import Mathlib.Data.Int.ModEq
import Mathlib.Data.List.GetD
import Mathlib.Data.List.Rotate
import Mathlib.Order.Lattice

/-!
# Operations of NumPy on lists

`argmax` and `argmin` are the first place of the greatest and of the least entry (`argmax_spec`, `argmin_spec`); on
nothing they raise. A boolean mask selects entries of an array of its own length, and an array is added to a slice of
its own length; other lengths raise, here `none`. A rolled array goes around its end (`getElem?_roll`).
-/

namespace Bajiru.Numpy

/-! ## The greatest and the least entry -/

section Order

variable {α : Type*} [LinearOrder α]

/-- The first greatest entry, with its index. -/
def firstMax : List α → Option (Nat × α)
  | [] => none
  | x :: xs =>
    match firstMax xs with
    | none => some (0, x)
    | some (i, v) => if v ≤ x then some (0, x) else some (i + 1, v)

/-- `np.argmax(xs)`. -/
def argmax (xs : List α) : Option Nat := (firstMax xs).map Prod.fst

/-- `np.argmin(xs)`. -/
def argmin (xs : List α) : Option Nat := argmax (xs.map OrderDual.toDual)

/-- `i` is the first place of the greatest entry `v`. -/
structure FirstMax (xs : List α) (i : Nat) (v : α) : Prop where
  at_index : xs[i]? = some v
  le : ∀ x ∈ xs, x ≤ v
  before : ∀ j x, j < i → xs[j]? = some x → x < v

theorem FirstMax.lt {xs : List α} {i : Nat} {v : α} (h : FirstMax xs i v) : i < xs.length :=
  (List.getElem?_eq_some_iff.1 h.at_index).1

/-- A new head that is at least the greatest entry takes its place. -/
theorem FirstMax.head {xs : List α} {i : Nat} {v x : α} (h : FirstMax xs i v) (hle : v ≤ x) : FirstMax (x :: xs) 0 x :=
  ⟨rfl, List.forall_mem_cons.2 ⟨le_rfl, fun y hy => (h.le y hy).trans hle⟩, fun _ _ hj => absurd hj (Nat.not_lt_zero _)⟩

theorem FirstMax.tail {xs : List α} {i : Nat} {v x : α} (h : FirstMax xs i v) (hlt : x < v) :
    FirstMax (x :: xs) (i + 1) v := by
  refine ⟨h.at_index, List.forall_mem_cons.2 ⟨hlt.le, h.le⟩, fun j y hj hy => ?_⟩
  cases j with
  | zero =>
    cases hy
    exact hlt
  | succ j => exact h.before j y (by omega) hy

theorem firstMax_eq_none {xs : List α} (h : firstMax xs = none) : xs = [] := by
  cases xs with
  | nil => rfl
  | cons x xs =>
    rw [firstMax] at h
    split at h
    · cases h
    · split at h <;> cases h

theorem firstMax_spec {xs : List α} {i : Nat} {v : α} (h : firstMax xs = some (i, v)) : FirstMax xs i v := by
  induction xs generalizing i v with
  | nil => cases h
  | cons x xs ih =>
    rw [firstMax] at h
    cases hrest : firstMax xs with
    | none =>
      obtain rfl := firstMax_eq_none hrest
      cases h
      exact ⟨rfl, by simp, fun _ _ hj => absurd hj (Nat.not_lt_zero _)⟩
    | some p =>
      have hp := ih hrest
      rw [hrest] at h
      dsimp only at h
      split at h
      next hle =>
        cases h
        exact hp.head hle
      next hlt =>
        cases h
        exact hp.tail (not_le.1 hlt)

/-- **`np.argmax`** is the first place of the greatest entry. -/
theorem argmax_spec {xs : List α} {i : Nat} (h : argmax xs = some i) : ∃ v, FirstMax xs i v := by
  obtain ⟨⟨i', v⟩, hmax, rfl⟩ := Option.map_eq_some_iff.1 h
  exact ⟨v, firstMax_spec hmax⟩

theorem exists_argmax {xs : List α} (h : xs ≠ []) : ∃ i, argmax xs = some i := by
  cases hmax : firstMax xs with
  | none => exact absurd (firstMax_eq_none hmax) h
  | some p => exact ⟨p.1, congrArg (Option.map Prod.fst) hmax⟩

theorem argmax_lt {xs : List α} {i : Nat} (h : argmax xs = some i) : i < xs.length := by
  obtain ⟨v, hv⟩ := argmax_spec h
  exact hv.lt

theorem isSome_argmax {n : Nat} (hn : 0 < n) (xs : Vector α n) : (argmax xs.toList).isSome := by
  rw [Option.isSome_iff_exists]
  refine exists_argmax (List.ne_nil_of_length_pos ?_)
  rwa [Vector.length_toList]

/-- `np.argmax(xs)` of an array with entries. -/
def argmaxFin {n : Nat} (hn : 0 < n) (xs : Vector α n) : Fin n :=
  ⟨(argmax xs.toList).get (isSome_argmax hn xs), by
    have := argmax_lt (Option.some_get (isSome_argmax hn xs)).symm
    rwa [Vector.length_toList] at this⟩

theorem le_argmaxFin {n : Nat} {hn : 0 < n} {xs : Vector α n} {i : Fin n} (h : argmaxFin hn xs = i) (k : Fin n) :
    xs[k] ≤ xs[i] := by
  obtain ⟨v, hv⟩ := argmax_spec (Option.some_get (isSome_argmax hn xs)).symm
  have hindex : xs[i] = v := by
    obtain ⟨hlt, hget⟩ := List.getElem?_eq_some_iff.1 hv.at_index
    rw [← hget, Vector.getElem_toList]
    subst h
    rfl
  rw [hindex]
  refine hv.le _ ?_
  rw [Vector.mem_toList_iff]
  exact Vector.getElem_mem k.isLt

theorem exists_argmin (xs : List α) (h : xs ≠ []) : ∃ i, argmin xs = some i :=
  exists_argmax fun hnil => h (List.map_eq_nil_iff.1 hnil)

/-- **`np.argmin`** is the first place of the least entry. -/
theorem argmin_spec {xs : List α} {i : Nat} (h : argmin xs = some i) : ∃ v, xs[i]? = some v ∧ ∀ x ∈ xs, v ≤ x := by
  obtain ⟨v, hmax⟩ := argmax_spec h
  refine ⟨OrderDual.ofDual v, ?_, fun x hx => ?_⟩
  · have hindex := hmax.at_index
    rw [List.getElem?_map] at hindex
    obtain ⟨w, hw, rfl⟩ := Option.map_eq_some_iff.1 hindex
    exact hw
  · exact OrderDual.toDual_le_toDual.1 (hmax.le _ (List.mem_map_of_mem hx))

theorem argmin_lt {xs : List α} {i : Nat} (h : argmin xs = some i) : i < xs.length := by
  obtain ⟨v, hv, -⟩ := argmin_spec h
  exact (List.getElem?_eq_some_iff.1 hv).1

end Order

/-! ## Arrays -/

/-- `np.diff(xs)`. -/
def diff (xs : List Int) : List Int := List.zipWith (fun x y => y - x) xs xs.tail

/-- `xs[mask]`. -/
def compress {α : Type*} (mask : List Bool) (xs : List α) : Option (List α) :=
  if mask.length = xs.length then some ((mask.zip xs).filterMap fun p => if p.1 then some p.2 else none) else none

/-- `np.roll(xs, shift)`. -/
def roll {α : Type*} (xs : List α) (shift : Int) : List α := xs.rotate (-shift % xs.length).toNat

/-- `xs[index] = values`. -/
def scatter {α : Type*} (xs : List α) (index : List Nat) (values : List α) : List α :=
  (index.zip values).foldl (fun xs p => xs.set p.1 p.2) xs

/-- `np.clip(x, low, high)`. -/
def clip (x low high : Int) : Int := min (max x low) high

/-- `xs[start:stop] += values`; one value is broadcast. -/
def addSlice (xs : List ℚ) (start stop : Int) (values : List ℚ) : Option (List ℚ) :=
  let bound := fun i : Int => if i < 0 then (i + xs.length).toNat else min i.toNat xs.length
  if values.length = bound stop - bound start then
    some (xs.mapIdx fun k x => if bound start ≤ k ∧ k < bound stop then x + values.getD (k - bound start) 0 else x)
  else match values with
    | [value] => some (xs.mapIdx fun k x => if bound start ≤ k ∧ k < bound stop then x + value else x)
    | _ => none

/-- `xs[start:stop] = values`; one value is broadcast. -/
def setSlice {α : Type*} (xs : List α) (start stop : Int) (values : List α) : Option (List α) :=
  let bound := fun i : Int => if i < 0 then (i + xs.length).toNat else min i.toNat xs.length
  if values.length = bound stop - bound start then
    some (xs.mapIdx fun k x => if bound start ≤ k ∧ k < bound stop then values.getD (k - bound start) x else x)
  else match values with
    | [value] => some (Python.setSlice xs start stop value)
    | _ => none

/-- An operation on the entries of two arrays; one value is broadcast. -/
def broadcast {α β γ : Type*} (f : α → β → γ) (xs : List α) (ys : List β) : Option (List γ) :=
  if xs.length = ys.length then some (List.zipWith f xs ys)
  else match xs, ys with
    | [x], ys => some (ys.map (f x))
    | xs, [y] => some (xs.map (f · y))
    | _, _ => none

theorem compress_all {α : Type*} {mask : List Bool} {xs : List α} (hlen : mask.length = xs.length)
    (hmask : ∀ b ∈ mask, b = true) : compress mask xs = some xs := by
  rw [compress, if_pos hlen, Option.some_inj]
  induction xs generalizing mask with
  | nil => simp
  | cons x xs ih =>
    cases mask with
    | nil => cases hlen
    | cons b mask =>
      obtain ⟨rfl, hrest⟩ := List.forall_mem_cons.1 hmask
      simpa using ih (Nat.succ.inj hlen) hrest

theorem broadcast_of_length {α β γ : Type*} (f : α → β → γ) {xs : List α} {ys : List β} (h : xs.length = ys.length) :
    broadcast f xs ys = some (List.zipWith f xs ys) := if_pos h

theorem broadcast_singleton {α β γ : Type*} (f : α → β → γ) (x : α) (ys : List β) :
    broadcast f [x] ys = some (ys.map (f x)) := by
  unfold broadcast
  split
  · obtain ⟨y, rfl⟩ := List.length_eq_one_iff.1 ‹[x].length = ys.length›.symm
    rfl
  · rfl

theorem exists_of_mem_zipWith {α β γ : Type*} {f : α → β → γ} {xs : List α} {ys : List β} {z : γ}
    (h : z ∈ List.zipWith f xs ys) : ∃ (i : Nat) (x : α) (y : β), xs[i]? = some x ∧ ys[i]? = some y ∧ f x y = z := by
  obtain ⟨i, hi⟩ := List.mem_iff_getElem?.1 h
  exact ⟨i, List.getElem?_zipWith_eq_some.1 hi⟩

/-- An entry of the result comes from an entry of each array. -/
theorem mem_broadcast {α β γ : Type*} {f : α → β → γ} {xs : List α} {ys : List β} {zs : List γ}
    (h : broadcast f xs ys = some zs) {z : γ} (hz : z ∈ zs) : ∃ x ∈ xs, ∃ y ∈ ys, z = f x y := by
  unfold broadcast at h
  split at h
  · cases h
    obtain ⟨i, x, y, hx, hy, rfl⟩ := exists_of_mem_zipWith hz
    exact ⟨x, List.mem_of_getElem? hx, y, List.mem_of_getElem? hy, rfl⟩
  · split at h
    · cases h
      obtain ⟨y, hy, rfl⟩ := List.mem_map.1 hz
      exact ⟨_, List.mem_singleton_self _, y, hy, rfl⟩
    · cases h
      obtain ⟨x, hx, rfl⟩ := List.mem_map.1 hz
      exact ⟨x, hx, _, List.mem_singleton_self _, rfl⟩
    · cases h

/-- The values are at the places of the slice. -/
theorem getElem?_setSlice {α : Type*} {xs values : List α} {start stop : Nat} (h0 : start ≤ stop) (h1 : stop ≤ xs.length)
    (hlen : values.length = stop - start) : ∃ ys, setSlice xs start stop values = some ys ∧
      ys.length = xs.length ∧ ∀ k, ys[k]? = if start ≤ k ∧ k < stop then values[k - start]? else xs[k]? := by
  refine ⟨_, if_pos ?_, List.length_mapIdx, fun k => ?_⟩
  · simp only [if_neg (Int.not_lt.2 (Int.natCast_nonneg _)), Int.toNat_natCast]
    omega
  · simp only [if_neg (Int.not_lt.2 (Int.natCast_nonneg _)), Int.toNat_natCast, Nat.min_eq_left h1,
      Nat.min_eq_left (h0.trans h1), List.getElem?_mapIdx]
    split
    · rename_i hk
      rw [List.getElem?_eq_getElem (by omega), List.getElem?_eq_getElem (by omega), Option.map_some,
        List.getD_eq_getElem _ _ (by omega)]
    · exact Option.map_id'

/-- Increasing entries have positive differences. -/
theorem diff_pos {xs : List Int} (h : xs.Pairwise (· < ·)) : ∀ d ∈ diff xs, 0 < d := by
  induction xs with
  | nil => simp [diff]
  | cons x xs ih =>
    obtain ⟨hx, hxs⟩ := List.pairwise_cons.1 h
    cases xs with
    | nil => simp [diff]
    | cons y ys =>
      refine List.forall_mem_cons.2 ⟨?_, ih hxs⟩
      exact sub_pos.2 (hx y List.mem_cons_self)

theorem length_diff (xs : List Int) : (diff xs).length = xs.length - 1 := by
  rw [diff, List.length_zipWith, List.length_tail]
  omega

@[simp] theorem length_roll {α : Type*} (xs : List α) (shift : Int) : (roll xs shift).length = xs.length :=
  List.length_rotate ..

/-- A place of a rolled array shows the place that is `shift` before it, around the end. -/
theorem getElem?_roll {α : Type*} {xs : List α} {shift : Int} {k m : Nat} (hk : k < xs.length) (hm : m < xs.length)
    (h : (k : Int) - shift ≡ m [ZMOD xs.length]) : (roll xs shift)[k]? = xs[m]? := by
  have hpos : (0 : Int) < xs.length := by omega
  have hshift : ((-shift % xs.length).toNat : Int) = -shift % xs.length :=
    Int.toNat_of_nonneg (Int.emod_nonneg _ hpos.ne')
  have hindex : (k + (-shift % xs.length).toNat) % xs.length = m := by
    have hmod : ((k : Int) + -shift % xs.length) % xs.length = m := by
      rw [Int.add_emod_emod, ← sub_eq_add_neg, h.eq, Int.emod_eq_of_lt (by omega) (by omega)]
    rw [← hshift] at hmod
    exact_mod_cast hmod
  rw [roll, List.getElem?_rotate hk, hindex]

theorem mem_scatter {α : Type*} {xs : List α} {index : List Nat} {values : List α} {x : α}
    (h : x ∈ scatter xs index values) : x ∈ xs ∨ x ∈ values := by
  induction index generalizing xs values with
  | nil => exact .inl h
  | cons i index ih =>
    cases values with
    | nil => exact .inl h
    | cons v values =>
      rcases ih h with h | h
      · rcases List.mem_or_eq_of_mem_set h with h | rfl
        · exact .inl h
        · exact .inr List.mem_cons_self
      · exact .inr (List.mem_cons_of_mem _ h)

/-- Values at different places of an array that is 0 there add to its sum. -/
theorem sum_scatter {G : Type*} [AddCommGroup G] {xs : List G} {index : List Nat} {values : List G}
    (hlen : index.length = values.length) (hnodup : index.Nodup) (hzero : ∀ i ∈ index, xs[i]? = some 0) :
    (scatter xs index values).sum = xs.sum + values.sum := by
  induction index generalizing xs values with
  | nil =>
    rw [List.length_eq_zero_iff.1 hlen.symm, List.sum_nil, add_zero]
    rfl
  | cons i index ih =>
    cases values with
    | nil => cases hlen
    | cons v values =>
      obtain ⟨hi, hindex⟩ := List.nodup_cons.1 hnodup
      obtain ⟨hlt, hget⟩ := List.getElem?_eq_some_iff.1 (hzero i List.mem_cons_self)
      have hrest : ∀ j ∈ index, (xs.set i v)[j]? = some 0 := by
        intro j hj
        rw [List.getElem?_set_ne (show i ≠ j from fun hij => hi (hij ▸ hj))]
        exact hzero j (List.mem_cons_of_mem i hj)
      have hset : (xs.set i v).sum = xs.sum + v := by
        rw [List.sum_set', dif_pos hlt, hget, neg_zero, zero_add]
      rw [List.sum_cons, ← add_assoc, ← hset]
      exact ih (Nat.succ.inj hlen) hindex hrest

theorem clip_of_mem {x low high : Int} (h0 : low ≤ x) (h1 : x ≤ high) : clip x low high = x := by
  unfold clip
  omega

/-- The values are added to the places of the slice. -/
theorem addSlice_eq {xs values : List ℚ} {start stop : Int} (h0 : 0 ≤ start) (h1 : start ≤ stop) (h2 : stop ≤ xs.length)
    (hlen : values.length = (stop - start).toNat) :
    addSlice xs start stop values =
      some (xs.mapIdx fun k x => if start ≤ k ∧ (k : Int) < stop then x + values.getD (k - start).toNat 0 else x) := by
  have hstart : min start.toNat xs.length = start.toNat := by omega
  have hstop : min stop.toNat xs.length = stop.toNat := by omega
  simp only [addSlice, if_neg (Int.not_lt.2 h0), if_neg (Int.not_lt.2 (h0.trans h1)), hstart, hstop]
  rw [if_pos (by omega), Option.some_inj]
  refine congrArg (List.mapIdx · xs) (funext fun k => funext fun x => ?_)
  rw [show (k - start).toNat = k - start.toNat by omega]
  exact if_congr (by omega) rfl rfl

end Bajiru.Numpy
