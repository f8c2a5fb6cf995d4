import Bajiru.Numpy
import Bajiru.Trellis
import Mathlib.Analysis.SpecialFunctions.Log.Basic

/-!
# `viterbi_log` of the pitch tracker

The table of values is filled row by row, with a pointer back for each state, and the states are read off from the last
row. Each row is a step of a best path (`nextRow_bellman`), so the states are a path of maximal log-likelihood, which
is the greatest value of the last row (`viterbiLog_best`). The entries may be of any ordered additive monoid, such as
the reals, or the reals with `-inf`.
-/

namespace Bajiru.DataAugment

open Numpy (argmaxFin le_argmaxFin)

variable {nStates : Nat} {R : Type*} [AddCommMonoid R]

/-! ## The code -/

/-- `value[t]` and `ptr[t]`. -/
structure ViterbiRow (nStates : Nat) (R : Type*) where
  value : Vector R nStates
  ptr : Vector (Fin nStates) nStates

/-- `value[t - 1] + log_trans.T`. -/
def transOut (value : Vector R nStates) (logTrans : Vector (Vector R nStates) nStates) :
    Vector (Vector R nStates) nStates :=
  Vector.ofFn fun j => Vector.ofFn fun k => value[k] + logTrans[k][j]

theorem transOut_getElem (value : Vector R nStates) (logTrans : Vector (Vector R nStates) nStates) (j k : Fin nStates) :
    (transOut value logTrans)[j][k] = value[k] + logTrans[k][j] := by
  unfold transOut
  simp only [Fin.getElem_fin, Vector.getElem_ofFn]

/-- `value[0]`, and the zeros of `ptr[0]`. -/
def firstRow (hn : 0 < nStates) (logProb logPInit : Vector R nStates) : ViterbiRow nStates R :=
  { value := Vector.zipWith (· + ·) logProb logPInit, ptr := Vector.replicate nStates ⟨0, hn⟩ }

variable [LinearOrder R]

/-- A pass of the loop over `t`. -/
def nextRow (hn : 0 < nStates) (logTrans : Vector (Vector R nStates) nStates) (value logProb : Vector R nStates) :
    ViterbiRow nStates R :=
  let out := transOut value logTrans
  let ptr := Vector.ofFn fun j : Fin nStates => argmaxFin hn out[j]
  { value := Vector.ofFn fun j : Fin nStates => logProb[j] + out[j][ptr[j]], ptr := ptr }

/-- The passes of the loop behind `row`. -/
def laterRows (hn : 0 < nStates) (logTrans : Vector (Vector R nStates) nStates) (row : ViterbiRow nStates R) :
    List (Vector R nStates) → List (ViterbiRow nStates R)
  | [] => []
  | p :: logProb =>
    let next := nextRow hn logTrans row.value p
    next :: laterRows hn logTrans next logProb

/-- `value` and `ptr`. -/
def viterbiTable (hn : 0 < nStates) (logProb : List (Vector R nStates)) (logTrans : Vector (Vector R nStates) nStates)
    (logPInit : Vector R nStates) : List (ViterbiRow nStates R) :=
  match logProb with
  | [] => []
  | p :: logProb =>
    let row := firstRow hn p logPInit
    row :: laterRows hn logTrans row logProb

/-- `state`, filled from the back: the state of `row`, and those of the rows behind. -/
def backtrack (hn : 0 < nStates) (row : ViterbiRow nStates R) : List (ViterbiRow nStates R) →
    Fin nStates × List (Fin nStates)
  | [] => (argmaxFin hn row.value, [])
  | next :: rows =>
    let (s, ss) := backtrack hn next rows
    (next.ptr[s], s :: ss)

/-- `viterbi_log(log_prob, log_trans, log_p_init)`. Without a step or a state there is no row or no greatest entry. -/
def viterbiLog (logProb : List (Vector R nStates)) (logTrans : Vector (Vector R nStates) nStates)
    (logPInit : Vector R nStates) : Option (List (Fin nStates)) :=
  if hn : 0 < nStates then
    match viterbiTable hn logProb logTrans logPInit with
    | [] => none
    | row :: rows =>
      let (s, ss) := backtrack hn row rows
      some (s :: ss)
  else none

/-! ## The log-likelihood of a state sequence -/

/-- What step `t` adds: `log_trans[s_{t-1}, s_t] + log_prob[t, s_t]`. -/
def stepGain (logTrans : Vector (Vector R nStates) nStates) (logProb : Vector R nStates) (i j : Fin nStates) : R :=
  logTrans[i][j] + logProb[j]

/-- `log_p_init[s_0] + log_prob[0, s_0]`, and what the steps add. -/
def logLikelihood (logProb : List (Vector R nStates)) (logTrans : Vector (Vector R nStates) nStates)
    (logPInit : Vector R nStates) (path : List (Fin nStates)) : R :=
  match logProb, path with
  | p :: logProb, s :: ss => logPInit[s] + p[s] + Trellis.total s (logProb.map (stepGain logTrans)) ss
  | _, _ => 0

/-! ## The rows -/

theorem nextRow_ptr (hn : 0 < nStates) (logTrans : Vector (Vector R nStates) nStates) (value logProb : Vector R nStates)
    (j : Fin nStates) : (nextRow hn logTrans value logProb).ptr[j] = argmaxFin hn (transOut value logTrans)[j] := by
  unfold nextRow
  simp only [Fin.getElem_fin, Vector.getElem_ofFn]

theorem nextRow_value (hn : 0 < nStates) (logTrans : Vector (Vector R nStates) nStates)
    (value logProb : Vector R nStates) (j : Fin nStates) : (nextRow hn logTrans value logProb).value[j] =
      logProb[j] + (transOut value logTrans)[j][(nextRow hn logTrans value logProb).ptr[j]] := by
  unfold nextRow
  simp only [Fin.getElem_fin, Vector.getElem_ofFn]

omit [LinearOrder R] in
theorem firstRow_value (hn : 0 < nStates) (p logPInit : Vector R nStates) (s : Fin nStates) :
    (firstRow hn p logPInit).value[s] = logPInit[s] + p[s] := by
  simp only [firstRow, Fin.getElem_fin, Vector.getElem_zipWith]
  exact add_comm _ _

theorem viterbiLog_cons {hn : 0 < nStates} {p : Vector R nStates} {logProb : List (Vector R nStates)}
    {logTrans : Vector (Vector R nStates) nStates} {logPInit : Vector R nStates} {s : Fin nStates}
    {ss : List (Fin nStates)}
    (h : backtrack hn (firstRow hn p logPInit) (laterRows hn logTrans (firstRow hn p logPInit) logProb) = (s, ss)) :
    viterbiLog (p :: logProb) logTrans logPInit = some (s :: ss) := by
  rw [viterbiLog, dif_pos hn, viterbiTable]
  dsimp only
  rw [h]

variable [IsOrderedAddMonoid R]

/-- **A pass of the loop** finds the best step into each state. -/
theorem nextRow_bellman (hn : 0 < nStates) (logTrans : Vector (Vector R nStates) nStates)
    (value logProb : Vector R nStates) :
    Trellis.Bellman (stepGain logTrans logProb) (fun i => value[i])
      (fun j => (nextRow hn logTrans value logProb).value[j])
      (fun j => (nextRow hn logTrans value logProb).ptr[j]) where
  attained j := by
    rw [nextRow_value, transOut_getElem, stepGain, add_comm, add_assoc]
  le i j := by
    have hmax := le_argmaxFin (nextRow_ptr hn logTrans value logProb j).symm i
    rw [transOut_getElem] at hmax
    calc value[i] + stepGain logTrans logProb i j
        = logProb[j] + (value[i] + logTrans[i][j]) := by rw [stepGain, ← add_assoc, add_comm]
      _ ≤ logProb[j] + (transOut value logTrans)[j][(nextRow hn logTrans value logProb).ptr[j]] :=
        add_le_add_right hmax _
      _ = (nextRow hn logTrans value logProb).value[j] := (nextRow_value ..).symm

/-- **The states from a row on** are a best path from its values. -/
theorem backtrack_best (hn : 0 < nStates) (logTrans : Vector (Vector R nStates) nStates) (row : ViterbiRow nStates R)
    (logProb : List (Vector R nStates)) :
    ∃ s ss last state, backtrack hn row (laterRows hn logTrans row logProb) = (s, ss) ∧
      (row :: laterRows hn logTrans row logProb).getLast? = some last ∧ (s :: ss).getLast? = some state ∧
      Trellis.Best (logProb.map (stepGain logTrans)) (fun i => row.value[i]) last.value[state] s ss := by
  induction logProb generalizing row with
  | nil =>
    exact ⟨_, [], row, _, rfl, rfl, rfl, Trellis.Best.nil (le_argmaxFin (show argmaxFin hn row.value = _ from rfl))⟩
  | cons p logProb ih =>
    obtain ⟨s, ss, last, state, hback, hlast, hstate, hbest⟩ := ih (nextRow hn logTrans row.value p)
    refine ⟨_, s :: ss, last, state, ?_, ?_, ?_, hbest.cons (nextRow_bellman hn logTrans row.value p)⟩
    · rw [laterRows, backtrack, hback]
    · rw [laterRows, List.getLast?_cons_cons, hlast]
    · rw [List.getLast?_cons_cons, hstate]

/-- **`viterbi_log`** returns a state sequence of maximal log-likelihood, which is its value in the last row. -/
theorem viterbiLog_best (logProb : List (Vector R nStates)) (logTrans : Vector (Vector R nStates) nStates)
    (logPInit : Vector R nStates) (hstates : 1 ≤ nStates) (hsteps : 1 ≤ logProb.length) :
    ∃ states last state, viterbiLog logProb logTrans logPInit = some states ∧ states.length = logProb.length ∧
      (viterbiTable hstates logProb logTrans logPInit).getLast? = some last ∧ states.getLast? = some state ∧
      logLikelihood logProb logTrans logPInit states = last.value[state] ∧
      ∀ path : List (Fin nStates), path.length = logProb.length →
        logLikelihood logProb logTrans logPInit path ≤ logLikelihood logProb logTrans logPInit states := by
  cases logProb with
  | nil => exact absurd hsteps (Nat.not_succ_le_zero 0)
  | cons p logProb =>
    obtain ⟨s, ss, last, state, hback, hlast, hstate, hbest⟩ :=
      backtrack_best hstates logTrans (firstRow hstates p logPInit) logProb
    have hlen : (s :: ss).length = (p :: logProb).length :=
      congrArg Nat.succ (hbest.length_eq.trans (List.length_map _))
    have hvalue := hbest.value
    rw [firstRow_value] at hvalue
    refine ⟨s :: ss, last, state, viterbiLog_cons hback, hlen, hlast, hstate, hvalue, fun path hpath => ?_⟩
    rw [logLikelihood, hvalue]
    cases path with
    | nil => cases hpath
    | cons t ts =>
      have hle := hbest.le t ts ((Nat.succ_inj.1 hpath).trans (List.length_map _).symm)
      rwa [firstRow_value] at hle

/-- Two states and two steps. -/
theorem viterbiLog_best_two : ∃ states last state,
    viterbiLog [#v[0, -1], #v[-2, 0]] #v[#v[0, -3], #v[-3, 0]] #v[(0 : Int), 0] = some states ∧ states.length = 2 ∧
      (viterbiTable (Nat.le_succ 1) [#v[0, -1], #v[-2, 0]] #v[#v[0, -3], #v[-3, 0]] #v[(0 : Int), 0]).getLast? =
      some last ∧
      states.getLast? = some state ∧
      logLikelihood [#v[0, -1], #v[-2, 0]] #v[#v[0, -3], #v[-3, 0]] #v[(0 : Int), 0] states = last.value[state] ∧
      ∀ path : List (Fin 2), path.length = 2 →
        logLikelihood [#v[0, -1], #v[-2, 0]] #v[#v[0, -3], #v[-3, 0]] #v[(0 : Int), 0] path ≤
          logLikelihood [#v[0, -1], #v[-2, 0]] #v[#v[0, -3], #v[-3, 0]] #v[(0 : Int), 0] states :=
  viterbiLog_best [#v[0, -1], #v[-2, 0]] #v[#v[0, -3], #v[-3, 0]] #v[0, 0] (Nat.le_succ 1) (Nat.le_succ 1)

/-! ## Probabilities -/

section Likelihood

variable {prob : List (Vector ℝ nStates)} {trans : Vector (Vector ℝ nStates) nStates} {pInit : Vector ℝ nStates}

end Likelihood

end Bajiru.DataAugment
