import Mathlib.Algebra.BigOperators.Intervals
import Mathlib.Algebra.BigOperators.Ring.Finset
import Mathlib.Algebra.Order.Floor.Div
import Mathlib.Algebra.Ring.Defs
import Mathlib.Data.List.GetD
import Mathlib.Data.Nat.ModEq
import Mathlib.Tactic.Common

/-!
# Rational resampling

`upfirdn` is the textbook resampler: zero-stuff the stream by `L`, convolve with the taps `h`, keep every `M`-th sample.
`upfirdn_polyphase` splits the taps into `L` phases: output `t` only needs the phase `t * M % L` and the samples up to
`t * M / L`. So the outputs that a finite stream determines are the first `count L M` of them (`resample`), and a longer
stream only adds outputs (`resample_append`).
-/

namespace Bajiru.Upfirdn

/-! ## How many outputs -/

variable {L M N n t : Nat}

/-- The number of outputs that `N` samples determine: `⌈N * L / M⌉`. -/
def count (L M N : Nat) : Nat := N * L ⌈/⌉ M

theorem count_le_iff (hM : 0 < M) : count L M N ≤ t ↔ N * L ≤ M * t := ceilDiv_le_iff_le_mul hM

theorem lt_count_iff (hM : 0 < M) : t < count L M N ↔ M * t < N * L := by
  rw [← Nat.not_le, count_le_iff hM, Nat.not_le]

/-- Output `t` is determined once sample `t * M / L` is there. -/
theorem lt_count_iff_div (hL : 0 < L) (hM : 0 < M) : t < count L M N ↔ t * M / L < N := by
  rw [lt_count_iff hM, Nat.div_lt_iff_lt_mul hL, Nat.mul_comm M t]

theorem count_mono (hM : 0 < M) (h : N ≤ n) : count L M N ≤ count L M n := by
  rw [count_le_iff hM]
  exact (Nat.mul_le_mul_right L h).trans ((count_le_iff hM).1 (Nat.le_refl _))

/-- New samples add at most as many outputs as they have alone. -/
theorem count_add_le (hM : 0 < M) : count L M (N + n) ≤ count L M N + count L M n := by
  rw [count_le_iff hM, Nat.add_mul, Nat.mul_add]
  exact Nat.add_le_add ((count_le_iff hM).1 (Nat.le_refl _)) ((count_le_iff hM).1 (Nat.le_refl _))

theorem count_le_div_add_one (hM : 0 < M) : count L M n ≤ n * L / M + 1 := by
  rw [count_le_iff hM]
  exact (Nat.lt_mul_div_succ (n * L) hM).le

/-! ## The outputs -/

variable {R : Type*} [NonUnitalNonAssocSemiring R] {h x y : Nat → R}

/-- The stream `x` with `L - 1` zeros after each sample. -/
def zeroStuff (L : Nat) (x : Nat → R) (i : Nat) : R := if L ∣ i then x (i / L) else 0

/-- Output `t` of the taps `h 0`, …, `h (n - 1)`; before its start the stream is zero. -/
def upfirdn (L M n : Nat) (h x : Nat → R) (t : Nat) : R :=
  ∑ i ∈ Finset.range n, if i ≤ t * M then h i * zeroStuff L x (t * M - i) else 0

/-- Samples after `t * M / L` do not change output `t`. -/
theorem upfirdn_congr (hxy : ∀ j, j ≤ t * M / L → x j = y j) : upfirdn L M n h x t = upfirdn L M n h y t := by
  unfold upfirdn zeroStuff
  refine Finset.sum_congr rfl fun i _ => ?_
  rw [hxy _ (Nat.div_le_div_right (Nat.sub_le _ _))]

/-- The taps of one phase. -/
theorem sum_phase (hL : 0 < L) (a k : Nat) :
    (∑ p ∈ Finset.range L, if L * k + p ≤ a then h (L * k + p) * zeroStuff L x (a - (L * k + p)) else 0) =
      if k ≤ a / L then h (a % L + k * L) * x (a / L - k) else 0 := by
  have ha := Nat.div_add_mod a L
  rw [Finset.sum_eq_single (a % L)]
  · have hle : L * k + a % L ≤ a ↔ k ≤ a / L := by
      rw [← Nat.mul_le_mul_left_iff (n := k) hL]
      omega
    have hsub : a - (L * k + a % L) = L * (a / L - k) := by
      rw [Nat.mul_sub]
      omega
    rw [hsub, zeroStuff, if_pos (Nat.dvd_mul_right _ _), Nat.mul_div_cancel_left _ hL, Nat.mul_comm k L,
      Nat.add_comm (a % L)]
    simp only [hle]
  · intro p hp hne
    split
    · rename_i hle
      -- another phase only meets stuffed zeros
      have hnd : ¬ L ∣ a - (L * k + p) := by
        intro hd
        have hmod : L * k + p ≡ a [MOD L] := (Nat.modEq_iff_dvd' hle).2 hd
        rw [Nat.ModEq, Nat.mul_add_mod, Nat.mod_eq_of_lt (Finset.mem_range.1 hp)] at hmod
        exact hne hmod
      rw [zeroStuff, if_neg hnd, mul_zero]
    · rfl
  · intro hp
    exact absurd (Finset.mem_range.2 (Nat.mod_lt a hL)) hp

/-- **Polyphase decomposition.** Only the phase of output `t` meets samples, and it meets the newest ones. -/
theorem upfirdn_polyphase (hL : 0 < L) (taps : Nat) :
    upfirdn L M (L * taps) h x t =
      ∑ k ∈ Finset.range taps, if k ≤ t * M / L then h (t * M % L + k * L) * x (t * M / L - k) else 0 := by
  induction taps with
  | zero => simp [upfirdn]
  | succ taps ih =>
    rw [Finset.sum_range_succ, ← ih, ← sum_phase hL, Nat.mul_succ]
    exact Finset.sum_range_add _ _ _

/-! ## A constant stream -/

section Constant

variable {c : R}

/-- Once the taps of output `t` see nothing but the constant, the output has the gain of its phase. -/
theorem upfirdn_const (hL : 0 < L) {taps w : Nat} (hw : (w + taps) * L ≤ t * M)
    (hx : ∀ j, w ≤ j → j ≤ t * M / L → x j = c) :
    upfirdn L M (L * taps) h x t = (∑ k ∈ Finset.range taps, h (t * M % L + k * L)) * c := by
  have hstart : w + taps ≤ t * M / L := (Nat.le_div_iff_mul_le hL).2 hw
  rw [upfirdn_polyphase hL, Finset.sum_mul]
  refine Finset.sum_congr rfl fun k hk => ?_
  have hk := Finset.mem_range.1 hk
  rw [if_pos (by omega), hx _ (by omega) (Nat.sub_le _ _)]

/-- The taps by their phases. -/
theorem sum_phases (L taps : Nat) (h : Nat → R) :
    ∑ p ∈ Finset.range L, ∑ k ∈ Finset.range taps, h (p + k * L) = ∑ i ∈ Finset.range (L * taps), h i := by
  induction taps with
  | zero => simp
  | succ taps ih =>
    simp only [Finset.sum_range_succ, Finset.sum_add_distrib]
    rw [ih, Nat.mul_succ, Finset.sum_range_add]
    simp only [Nat.mul_comm taps, Nat.add_comm (L * taps)]

/-- In `L` outputs the commutator goes through all phases. -/
theorem sum_cycle (hLM : L.Coprime M) (t : Nat) (g : Nat → R) :
    ∑ i ∈ Finset.range L, g ((t + i) * M % L) = ∑ p ∈ Finset.range L, g p := by
  have hinj : Set.InjOn (fun i => (t + i) * M % L) (Finset.range L) := by
    intro i hi j hj hij
    have hmod : t + i ≡ t + j [MOD L] := Nat.ModEq.cancel_right_of_coprime hLM hij
    exact (hmod.add_left_cancel' t).eq_of_lt_of_lt (Finset.mem_range.1 hi) (Finset.mem_range.1 hj)
  have himage : (Finset.range L).image (fun i => (t + i) * M % L) = Finset.range L := by
    refine Finset.eq_of_subset_of_card_le (fun p hp => ?_) (Finset.card_image_of_injOn hinj).ge
    obtain ⟨i, hi, rfl⟩ := Finset.mem_image.1 hp
    exact Finset.mem_range.2 (Nat.mod_lt _ (Nat.zero_lt_of_lt (Finset.mem_range.1 hi)))
  conv_rhs => rw [← himage]
  rw [Finset.sum_image hinj]

/-- **A constant** comes out of `L` outputs in a row with the gain of all taps together. -/
theorem sum_upfirdn_const (hL : 0 < L) (hLM : L.Coprime M) {taps w : Nat} (hw : (w + taps) * L ≤ t * M)
    (hx : ∀ j, w ≤ j → j ≤ (t + (L - 1)) * M / L → x j = c) :
    ∑ i ∈ Finset.range L, upfirdn L M (L * taps) h x (t + i) = (∑ i ∈ Finset.range (L * taps), h i) * c := by
  have hout : ∀ i ∈ Finset.range L, upfirdn L M (L * taps) h x (t + i) =
      (∑ k ∈ Finset.range taps, h ((t + i) * M % L + k * L)) * c := by
    intro i hi
    have hi := Finset.mem_range.1 hi
    refine upfirdn_const hL (hw.trans (Nat.mul_le_mul_right M (Nat.le_add_right t i))) fun j hj hlast => hx j hj ?_
    exact hlast.trans (Nat.div_le_div_right (Nat.mul_le_mul_right M (by omega)))
  rw [Finset.sum_congr rfl hout, ← Finset.sum_mul,
    sum_cycle hLM t fun p => ∑ k ∈ Finset.range taps, h (p + k * L), sum_phases]

end Constant

/-! ## A finite stream -/

/-- The outputs that the stream `xs` determines. -/
def resample (L M n : Nat) (h : Nat → R) (xs : List R) : List R :=
  (List.range (count L M xs.length)).map (upfirdn L M n h fun i => xs.getD i 0)

@[simp] theorem length_resample (xs : List R) : (resample L M n h xs).length = count L M xs.length := by
  simp [resample]

/-- More samples add outputs and change none. -/
theorem resample_append (hL : 0 < L) (hM : 0 < M) (xs ys : List R) :
    resample L M n h (xs ++ ys) = resample L M n h xs ++
      (List.range' (count L M xs.length) (count L M (xs ++ ys).length - count L M xs.length)).map
        (upfirdn L M n h fun i => (xs ++ ys).getD i 0) := by
  have hle : count L M xs.length ≤ count L M (xs ++ ys).length := count_mono hM (by simp)
  have hsplit : List.range (count L M (xs ++ ys).length) = List.range (count L M xs.length) ++
      List.range' (count L M xs.length) (count L M (xs ++ ys).length - count L M xs.length) := by
    rw [List.range_eq_range', List.range_eq_range', List.range'_eq_append_iff]
    exact ⟨_, hle, rfl, by simp⟩
  rw [resample, hsplit, List.map_append]
  congr 1
  apply List.map_congr_left
  intro t ht
  apply upfirdn_congr
  intro j hj
  have hlt := (lt_count_iff_div hL hM).1 (List.mem_range.1 ht)
  exact List.getD_append _ _ _ _ (by omega)

end Bajiru.Upfirdn
