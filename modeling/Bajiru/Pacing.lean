import Mathlib.Data.List.Chain
import Mathlib.Tactic.Common

/-!
# Pacing by the last point

A sequence of points is walked, and a point is taken as soon as it is `h` behind the last taken one, or always once the
last taken one is free (`taken`). The pace of the grid `w + h, w + 2 h, …` is kept if every point is behind as many taken
ones as grid lines (`Keeps`). For a sequence that moves by at most `h`, that is so exactly if the points that first reach
the grid lines (`crossings`) are a step apart themselves (`keeps_iff`): a taken point that is late on the grid delays all
the points behind it.
-/

namespace Bajiru.Pacing

variable (h : Nat) (free : Nat → Prop) [DecidablePred free]

/-- The number of points that are taken behind `x`. -/
def taken (x : Nat) : List Nat → Nat
  | [] => 0
  | c :: cs => if x + h ≤ c ∨ free x then taken c cs + 1 else taken x cs

/-- The points that first reach `t`, `t + h`, and so on. -/
def crossings (t : Nat) : List Nat → List Nat
  | [] => []
  | c :: cs => if t ≤ c then c :: crossings (t + h) cs else crossings t cs

/-- With `k` points already taken, each point is behind as many as grid lines from `w` on. -/
def Keeps (w k x : Nat) (cs : List Nat) : Prop :=
  ∀ us c vs, cs = us ++ c :: vs → (c - w) / h ≤ k + taken h free x (us ++ [c])

variable {h free} {w k x : Nat} {cs : List Nat}

theorem keeps_nil : Keeps h free w k x [] := by
  intro us c vs heq
  cases us with
  | nil => cases heq
  | cons u us => cases heq

theorem keeps_cons {c : Nat} : Keeps h free w k x (c :: cs) ↔
    (c - w) / h ≤ k + (if x + h ≤ c ∨ free x then 1 else 0) ∧
      if x + h ≤ c ∨ free x then Keeps h free w (k + 1) c cs else Keeps h free w k x cs := by
  constructor
  · intro hkeeps
    refine ⟨hkeeps [] c cs rfl, ?_⟩
    split
    next hdue =>
      intro us d vs heq
      have hlate := hkeeps (c :: us) d vs (congrArg _ heq)
      rw [List.cons_append, taken, if_pos hdue] at hlate
      omega
    next hdue =>
      intro us d vs heq
      have hlate := hkeeps (c :: us) d vs (congrArg _ heq)
      rwa [List.cons_append, taken, if_neg hdue] at hlate
  · rintro ⟨hfirst, hrest⟩ us d vs hsplit
    cases us with
    | nil =>
      obtain ⟨rfl, -⟩ := List.cons.inj hsplit
      exact hfirst
    | cons u us =>
      obtain ⟨rfl, heq⟩ := List.cons.inj hsplit
      rw [List.cons_append, taken]
      split at hrest
      next hdue =>
        rw [if_pos hdue]
        have hlate := hrest us d vs heq
        omega
      next hdue =>
        rw [if_neg hdue]
        exact hrest us d vs heq

omit [DecidablePred free] in
theorem mem_of_mem_crossings {t c : Nat} (hc : c ∈ crossings h t cs) : c ∈ cs := by
  induction cs generalizing t with
  | nil => exact hc
  | cons d cs ih =>
    unfold crossings at hc
    split at hc
    · rcases List.mem_cons.1 hc with rfl | hc
      · exact List.mem_cons_self
      · exact List.mem_cons_of_mem d (ih hc)
    · exact List.mem_cons_of_mem d (ih hc)

/-! ## Behind a free point -/

section Free

variable (hmono : ∀ x y, x ≤ y → free x → free y) {p : Nat} (hx : free x) (hxp : x ≤ p)
include hmono hx hxp

/-- Every point is taken. -/
theorem le_taken (hcs : (p :: cs).IsChain fun a b => a ≤ b ∧ b ≤ a + h) :
    ∀ c ∈ cs.getLast?, c ≤ p + h * taken h free x cs := by
  induction cs generalizing x p with
  | nil => nofun
  | cons d cs ih =>
    obtain ⟨⟨hle, hstep⟩, hcs⟩ := List.isChain_cons_cons.1 hcs
    intro c hc
    rw [taken, if_pos (.inr hx)]
    cases cs with
    | nil =>
      obtain rfl := Option.some.inj hc
      simpa [taken] using hstep
    | cons e cs =>
      have hlast := ih (hmono x d (hxp.trans hle) hx) le_rfl hcs c hc
      rw [Nat.mul_add_one]
      omega

/-- The pace is kept. -/
theorem keeps_free (hpos : 0 < h) (hlt : p < w + (k + 1) * h) (hcs : (p :: cs).IsChain fun a b => a ≤ b ∧ b ≤ a + h) :
    Keeps h free w k x cs := by
  rintro us c vs rfl
  have hprefix : (p :: (us ++ [c]) ++ vs).IsChain fun a b => a ≤ b ∧ b ≤ a + h := by
    rwa [List.cons_append, List.append_assoc]
  have hle := le_taken hmono hx hxp hprefix.left_of_append c (by simp)
  have hmul : c - w < h * (k + taken h free x (us ++ [c]) + 1) := by
    rw [Nat.mul_add_one, Nat.mul_add]
    rw [Nat.add_one_mul, Nat.mul_comm k] at hlt
    omega
  exact Nat.le_of_lt_succ (Nat.div_lt_of_lt_mul hmul)

omit [DecidablePred free] in
theorem chain_free (hcs : (p :: cs).IsChain fun a b => a ≤ b ∧ b ≤ a + h) (t : Nat) :
    (x :: crossings h t cs).IsChain fun a b => a + h ≤ b ∨ free a := by
  have hle := (List.pairwise_cons.1 (hcs.imp fun _ _ hstep => hstep.1).pairwise).1
  have hfree : ∀ c ∈ x :: crossings h t cs, free c := by
    intro c hc
    rcases List.mem_cons.1 hc with rfl | hc
    · exact hx
    · exact hmono x c (hxp.trans (hle c (mem_of_mem_crossings hc))) hx
  exact (List.pairwise_of_forall_mem_list fun a ha _ _ => .inr (hfree a ha)).isChain

end Free

/-! ## The grid -/

/-- **Keeping the pace**: `x` was taken in the cell `k` of the grid, in which `p` is the last point. -/
theorem keeps_iff (hmono : ∀ x y, x ≤ y → free x → free y) {p : Nat} (hx : w + k * h ≤ x) (hxp : x ≤ p)
    (hlt : p < w + (k + 1) * h) (hcs : (p :: cs).IsChain fun a b => a ≤ b ∧ b ≤ a + h) :
    Keeps h free w k x cs ↔ (x :: crossings h (w + (k + 1) * h) cs).IsChain fun a b => a + h ≤ b ∨ free a := by
  induction cs generalizing k x p with
  | nil => exact iff_of_true keeps_nil (List.isChain_singleton x)
  | cons c cs ih =>
    have hline : (k + 1) * h = k * h + h := Nat.add_one_mul k h
    have hline' : (k + 1 + 1) * h = (k + 1) * h + h := Nat.add_one_mul (k + 1) h
    have hpos : 0 < h := by omega
    by_cases hfree : free x
    · exact iff_of_true (keeps_free hmono hfree hxp hpos hlt hcs) (chain_free hmono hfree hxp hcs _)
    obtain ⟨⟨hle, hstep⟩, hcs⟩ := List.isChain_cons_cons.1 hcs
    rw [keeps_cons]
    rcases Nat.lt_or_ge c (w + (k + 1) * h) with hc | hc
    · -- the point stays in the cell, and is too near to `x` to be taken
      have hhi : c - w < (k + 1) * h := by omega
      have hdiv : (c - w) / h ≤ k := Nat.le_of_lt_succ ((Nat.div_lt_iff_lt_mul hpos).2 hhi)
      have hdue : ¬(x + h ≤ c ∨ free x) := not_or.2 ⟨by omega, hfree⟩
      rw [crossings, if_neg (Nat.not_le.2 hc), if_neg hdue, if_neg hdue, ← ih hx (hxp.trans hle) hc hcs]
      exact and_iff_right hdiv
    · -- the point reaches the next grid line, and is taken exactly if it is a step behind `x`
      have hdiv : (c - w) / h = k + 1 := by
        have hlo : (k + 1) * h ≤ c - w := by omega
        have hhi : c - w < (k + 1 + 1) * h := by omega
        exact Nat.div_eq_of_lt_le hlo hhi
      rw [crossings, if_pos hc, List.isChain_cons_cons, hdiv]
      by_cases hdue : x + h ≤ c ∨ free x
      · rw [if_pos hdue, if_pos hdue, ih hc le_rfl (by omega) hcs, hline', Nat.add_assoc]
        exact and_congr_left' (iff_of_true le_rfl hdue)
      · rw [if_neg hdue, if_neg hdue]
        refine iff_of_false (fun hboth => ?_) fun hboth => hdue hboth.1
        have := hboth.1
        omega

end Bajiru.Pacing
