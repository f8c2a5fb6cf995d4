import Mathlib.Algebra.Order.Ring.Defs
import Mathlib.Tactic.Linarith
import Mathlib.Tactic.Ring

/-!
# One-pole low-pass filters

A step of the filter moves the state by a fraction `a` of the way to the input. Runs are linear in the state and the
inputs (`run_sub`) and fix a constant (`run_const`); on inputs that are not negative the state decays at most
geometrically (`decay`). Bounds on one channel, or on the distance of two, are the decay of their difference.
-/

namespace Bajiru.LowPass

variable {K V : Type*} [CommRing K]

/-- One update with the input `r`. -/
def step (a x r : K) : K := x + a * (r - x)

/-- The state after the inputs `f v` of a list of `v`. -/
def run (a x : K) (f : V → K) (vs : List V) : K := vs.foldl (fun x v => step a x (f v)) x

variable {a x y c : K} {f g : V → K} {vs : List V}

@[simp] theorem run_nil : run a x f [] = x := rfl

theorem run_cons (v : V) : run a x f (v :: vs) = run a (step a x (f v)) f vs := rfl

/-- A constant stays. -/
theorem run_const : run a c (fun _ => c) vs = c := by
  induction vs with
  | nil => rfl
  | cons v vs ih =>
    rw [run_cons, step, sub_self, mul_zero, add_zero]
    exact ih

/-- The difference of two runs is the run of the differences. -/
theorem run_sub : run a (x - y) (fun v => f v - g v) vs = run a x f vs - run a y g vs := by
  induction vs generalizing x y with
  | nil => rfl
  | cons v vs ih =>
    have hstep : step a (x - y) (f v - g v) = step a x (f v) - step a y (g v) := by
      unfold step
      ring
    rw [run_cons, run_cons, run_cons, hstep]
    exact ih

/-- The distance to a constant. -/
theorem run_const_sub : run a (c - x) (fun v => c - f v) vs = c - run a x f vs := by
  rw [run_sub, run_const]

variable [LinearOrder K] [IsStrictOrderedRing K]

/-- **Inputs that are not negative let the state decay at most geometrically.** -/
theorem decay (h0 : 0 ≤ a) (h1 : a ≤ 1) (hf : ∀ v ∈ vs, 0 ≤ f v) : (1 - a) ^ vs.length * x ≤ run a x f vs := by
  induction vs generalizing x with
  | nil => simp
  | cons v vs ih =>
    have hv : 0 ≤ a * f v := mul_nonneg h0 (hf v List.mem_cons_self)
    have hstep : (1 - a) * x ≤ step a x (f v) := by
      unfold step
      linarith
    calc (1 - a) ^ (vs.length + 1) * x = (1 - a) ^ vs.length * ((1 - a) * x) := by ring
      _ ≤ (1 - a) ^ vs.length * step a x (f v) :=
        mul_le_mul_of_nonneg_left hstep (pow_nonneg (sub_nonneg.2 h1) _)
      _ ≤ run a (step a x (f v)) f vs := ih fun u hu => hf u (List.mem_cons_of_mem v hu)

/-- A state that is not negative stays so. -/
theorem run_nonneg (h0 : 0 ≤ a) (h1 : a ≤ 1) (hx : 0 ≤ x) (hf : ∀ v ∈ vs, 0 ≤ f v) : 0 ≤ run a x f vs :=
  (mul_nonneg (pow_nonneg (sub_nonneg.2 h1) _) hx).trans (decay h0 h1 hf)

/-- Below a bound of the inputs, the distance to the bound decays at most geometrically. -/
theorem decay_below (h0 : 0 ≤ a) (h1 : a ≤ 1) (hf : ∀ v ∈ vs, f v ≤ c) :
    (1 - a) ^ vs.length * (c - x) ≤ c - run a x f vs := by
  rw [← run_const_sub]
  exact decay h0 h1 fun v hv => sub_nonneg.2 (hf v hv)

theorem run_le (h0 : 0 ≤ a) (h1 : a ≤ 1) (hx : x ≤ c) (hf : ∀ v ∈ vs, f v ≤ c) : run a x f vs ≤ c :=
  sub_nonneg.1 ((mul_nonneg (pow_nonneg (sub_nonneg.2 h1) _) (sub_nonneg.2 hx)).trans (decay_below h0 h1 hf))

/-- Of two channels with inputs at most `c` apart, the distance plus `c` decays at most geometrically. -/
theorem decay_lead (h0 : 0 ≤ a) (h1 : a ≤ 1) (hfg : ∀ v ∈ vs, g v - f v ≤ c) :
    (1 - a) ^ vs.length * (c + (x - y)) ≤ c + (run a x f vs - run a y g vs) := by
  have hback := decay_below (x := y - x) (f := fun v => g v - f v) h0 h1 hfg
  rw [run_sub] at hback
  calc (1 - a) ^ vs.length * (c + (x - y)) = (1 - a) ^ vs.length * (c - (y - x)) := by ring
    _ ≤ c - (run a y g vs - run a x f vs) := hback
    _ = c + (run a x f vs - run a y g vs) := by ring

end Bajiru.LowPass
