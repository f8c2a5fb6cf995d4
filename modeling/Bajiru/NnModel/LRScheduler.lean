import Mathlib.Data.List.Pairwise
import Mathlib.Algebra.Order.Field.Rat
import Bajiru.Line
import Bajiru.Python

/-!
# `LRScheduler`

The learning rate of an epoch, from a list of pairs of an epoch and a rate. The loop that searches the segment of the
epoch goes over an empty range, so that the rate is always that of the last segment, continued to the epoch
(`calcLr_eq`). It is the rate of the schedule on another segment exactly if that one lies on the same line
(`calcLr_iff`). Rates are exact.
-/

namespace Bajiru.NnModel

structure LRScheduler where
  pairs : List (Int × ℚ)

namespace LRScheduler

/-- The constructor: `sorted(epoch_lr, key=lambda x: x[0])`, which is stable. -/
def new (epochLr : List (Int × ℚ)) : LRScheduler := ⟨epochLr.mergeSort fun a b => a.1 ≤ b.1⟩

/-- The loop of `_calc_lr` over the indices `is`. -/
def searchIndex (pairs : List (Int × ℚ)) (epoch : Int) (index : Int) : List Int → Option Int
  | [] => some index
  | i :: is => (Python.getItem pairs i).bind fun pair =>
    if epoch < pair.1 then some index else searchIndex pairs epoch i is

/-- `min_pair`, the point before that of the index. -/
def minPair (pairs : List (Int × ℚ)) (index : Int) : Option (Int × ℚ) :=
  if index = 0 then some (0, 0) else Python.getItem pairs (index - 1)

/-- `_calc_lr(epoch, ratio)`; it raises if there are no pairs, or if both pairs have the same epoch. -/
def calcLr (s : LRScheduler) (epoch : Int) (ratio : ℚ) : Option ℚ :=
  (searchIndex s.pairs epoch (s.pairs.length - 1) (Python.range 0 s.pairs.length (-1))).bind fun index =>
    (minPair s.pairs index).bind fun minPair =>
      (Python.getItem s.pairs index).bind fun maxPair =>
        if maxPair.1 = minPair.1 then none
        else some (minPair.2 + ((epoch - minPair.1 + ratio) / (maxPair.1 - minPair.1)) * (maxPair.2 - minPair.2))

/-! ## The points of the schedule -/

/-- The pairs in order, behind the start. -/
def points (s : LRScheduler) : List (Int × ℚ) := (0, 0) :: s.pairs

/-- A pair as a point. -/
def point (p : Int × ℚ) : ℚ × ℚ := (p.1, p.2)

variable {epochLr : List (Int × ℚ)}

theorem length_pairs : (new epochLr).pairs.length = epochLr.length := List.length_mergeSort _

/-- The points of distinct positive epochs are in strict order. -/
theorem points_pairwise (hpos : ∀ p ∈ epochLr, 0 < p.1) (hdistinct : (epochLr.map Prod.fst).Nodup) :
    (new epochLr).points.Pairwise fun a b => a.1 < b.1 := by
  have hperm : (new epochLr).pairs.Perm epochLr := List.mergeSort_perm _ _
  have hle : (new epochLr).pairs.Pairwise fun a b => a.1 ≤ b.1 := by
    have hsorted : (epochLr.mergeSort fun a b => decide (a.1 ≤ b.1)).Pairwise fun a b => decide (a.1 ≤ b.1) :=
      List.pairwise_mergeSort (by simp; omega) (by simp; omega) epochLr
    exact hsorted.imp of_decide_eq_true
  have hne : (new epochLr).pairs.Pairwise fun a b => a.1 ≠ b.1 :=
    List.pairwise_map.1 ((hperm.map Prod.fst).nodup_iff.2 hdistinct)
  refine List.pairwise_cons.2 ⟨fun p hp => hpos p (hperm.mem_iff.1 hp), ?_⟩
  exact (hle.and hne).imp fun h => lt_of_le_of_ne h.1 h.2

theorem points_lt (hpos : ∀ p ∈ epochLr, 0 < p.1) (hdistinct : (epochLr.map Prod.fst).Nodup) {i j : Nat}
    {a b : Int × ℚ} (hij : i < j) (ha : (new epochLr).points[i]? = some a) (hb : (new epochLr).points[j]? = some b) :
    a.1 < b.1 := by
  obtain ⟨hi, rfl⟩ := List.getElem?_eq_some_iff.1 ha
  obtain ⟨hj, rfl⟩ := List.getElem?_eq_some_iff.1 hb
  exact List.pairwise_iff_getElem.1 (points_pairwise hpos hdistinct) i j hi hj hij

/-- The rate of a segment is its line. -/
theorem rate_eq_line (a b : Int × ℚ) (epoch : Int) (ratio : ℚ) :
    a.2 + (((epoch : ℚ) - a.1 + ratio) / (b.1 - a.1)) * (b.2 - a.2) = line (point a) (point b) (epoch + ratio) := by
  simp only [line, point]
  ring

/-- **The last segment** decides every epoch. -/
theorem calcLr_eq {s : LRScheduler} {p q : Int × ℚ} (hp : s.points[s.pairs.length - 1]? = some p)
    (hq : s.points[s.pairs.length]? = some q) (hlt : p.1 < q.1) (epoch : Int) (ratio : ℚ) :
    s.calcLr epoch ratio = some (line (point p) (point q) (epoch + ratio)) := by
  obtain ⟨pairs⟩ := s
  cases hlen : pairs.length with
  | zero =>
    rw [hlen] at hp hq
    rw [hp] at hq
    obtain rfl := Option.some.inj hq
    exact absurd hlt (lt_irrefl _)
  | succ n =>
    rw [hlen] at hp hq
    have hmax : Python.getItem pairs (n : Int) = some q := (Python.getItem_natCast pairs n).trans hq
    have hmin : minPair pairs n = some p := by
      cases n with
      | zero => exact hp
      | succ n =>
        rw [minPair, if_neg (by omega), show ((n + 1 : Nat) : Int) - 1 = n by omega, Python.getItem_natCast]
        exact hp
    have hindex : (pairs.length : Int) - 1 = n := by omega
    unfold calcLr
    dsimp only
    rw [Python.range_down, hindex, searchIndex, Option.bind_some, hmin, Option.bind_some, hmax, Option.bind_some,
      if_neg hlt.ne']
    exact congrArg some (rate_eq_line p q epoch ratio)

/-- A point lies on the line of the last segment. -/
def OnLast (p q : Int × ℚ) (a : Int × ℚ) : Prop := line (point p) (point q) a.1 = a.2

/-- **The schedule on a segment**: the rate is that of the segment, hence between those of its end points, and goes on
without a jump from an epoch to the next, exactly if the end points lie on the line of the last segment. -/
theorem calcLr_iff (hpos : ∀ p ∈ epochLr, 0 < p.1) (hdistinct : (epochLr.map Prod.fst).Nodup) {k : Nat}
    {a b p q : Int × ℚ} (ha : (new epochLr).points[k]? = some a) (hb : (new epochLr).points[k + 1]? = some b)
    (hp : (new epochLr).points[epochLr.length - 1]? = some p) (hq : (new epochLr).points[epochLr.length]? = some q) :
    (∀ (epoch : Int) (ratio : ℚ), a.1 ≤ epoch → epoch < b.1 → 0 ≤ ratio → ratio ≤ 1 → ∃ lr,
      (new epochLr).calcLr epoch ratio = some lr ∧
        lr = a.2 + (((epoch : ℚ) - a.1 + ratio) / (b.1 - a.1)) * (b.2 - a.2) ∧ min a.2 b.2 ≤ lr ∧ lr ≤ max a.2 b.2 ∧
        (new epochLr).calcLr epoch 1 = (new epochLr).calcLr (epoch + 1) 0) ↔
      OnLast p q a ∧ OnLast p q b := by
  have hlen : (new epochLr).points.length = epochLr.length + 1 := by
    rw [points, List.length_cons, length_pairs]
  have hk : k + 1 < epochLr.length + 1 := hlen ▸ (List.getElem?_eq_some_iff.1 hb).1
  have hab := points_lt hpos hdistinct (Nat.lt_succ_self k) ha hb
  have hcalc := calcLr_eq (s := new epochLr) (by rw [length_pairs]; exact hp) (by rw [length_pairs]; exact hq)
    (points_lt hpos hdistinct (by omega) hp hq)
  have hne : (point a).1 ≠ (point b).1 := by
    simpa [point] using hab.ne
  constructor
  · intro h
    obtain ⟨lr, hlr, heq, -⟩ := h a.1 0 le_rfl hab le_rfl zero_le_one
    obtain ⟨lr', hlr', heq', -⟩ := h a.1 1 le_rfl hab zero_le_one le_rfl
    rw [hcalc, Option.some.injEq] at hlr hlr'
    rw [rate_eq_line] at heq heq'
    exact (line_eq_iff hne (by simp : (a.1 : ℚ) + 0 ≠ a.1 + 1)).1
      ⟨heq.symm.trans hlr.symm, heq'.symm.trans hlr'.symm⟩
  · rintro ⟨hona, honb⟩ epoch ratio hle hlt' h0 h1
    have hline : line (point a) (point b) = line (point p) (point q) :=
      line_unique hne ((line_left _ _).trans hona.symm) ((line_right hne).trans honb.symm)
    refine ⟨_, hcalc epoch ratio, ?_⟩
    rw [rate_eq_line, ← hline]
    have hle' : (a.1 : ℚ) ≤ epoch := by exact_mod_cast hle
    have hlt'' : (epoch : ℚ) + 1 ≤ b.1 := by exact_mod_cast hlt'
    obtain ⟨hmin, hmax⟩ := line_mem (a := point a) (b := point b) (x := epoch + ratio) (le_add_of_le_of_nonneg hle' h0)
      ((add_le_add_right h1 _).trans hlt'') (by simpa [point] using hab)
    refine ⟨rfl, hmin, hmax, ?_⟩
    rw [hcalc, hcalc]
    congr 2
    push_cast
    ring

theorem new_of_pairwise (h : epochLr.Pairwise fun a b => a.1 ≤ b.1) : new epochLr = ⟨epochLr⟩ :=
  congrArg mk (List.mergeSort_of_pairwise (h.imp decide_eq_true))

/-- A schedule that is one line is followed everywhere. -/
def linearLr : List (Int × ℚ) := [(1, 1), (2, 2), (4, 4)]

theorem calcLr_linearLr : (new linearLr).calcLr 1 (1 / 2) = some (3 / 2) := by
  have hnew : new linearLr = ⟨linearLr⟩ := new_of_pairwise (by decide)
  have hpos : ∀ p ∈ linearLr, 0 < p.1 := by decide
  have hiff := calcLr_iff (k := 1) (a := (1, 1)) (b := (2, 2)) (p := (2, 2)) (q := (4, 4)) hpos
    (by decide) (by rw [hnew]; rfl) (by rw [hnew]; rfl) (by rw [hnew]; rfl) (by rw [hnew]; rfl)
  obtain ⟨lr, hlr, rfl, -⟩ := hiff.2 ⟨by norm_num [OnLast, line, point], by norm_num [OnLast, line, point]⟩ 1 (1 / 2)
    le_rfl (by decide) (by norm_num) (by norm_num)
  rw [hlr]
  norm_num

/-- `epoch_lr` of `train.py`. -/
def trainLr : List (Int × ℚ) := [(1, 1 / 1000), (10, 1 / 10000), (40, 1 / 100000), (200, 1 / 1000000)]

theorem calcLr_trainLr : ¬ ∀ (epoch : Int) (ratio : ℚ), 1 ≤ epoch → epoch < 10 → 0 ≤ ratio → ratio ≤ 1 →
    (new trainLr).calcLr epoch ratio =
      some (1 / 1000 + (((epoch : ℚ) - 1 + ratio) / (10 - 1)) * (1 / 10000 - 1 / 1000)) := by
  intro hall
  have hnew : new trainLr = ⟨trainLr⟩ := new_of_pairwise (by decide)
  have hfirst := hall 1 0 le_rfl (by decide) le_rfl zero_le_one
  have hlast : (new trainLr).calcLr 1 0 = some (line (40, 1 / 100000) (200, 1 / 1000000) (1 + 0)) := by
    rw [hnew]
    exact calcLr_eq (p := (40, 1 / 100000)) (q := (200, 1 / 1000000)) rfl rfl (by decide) 1 0
  rw [hlast, Option.some.injEq] at hfirst
  norm_num [line] at hfirst

end LRScheduler

end Bajiru.NnModel
