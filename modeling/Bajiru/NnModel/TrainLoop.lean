import Bajiru.Chunks
import Bajiru.FloatFormat
import Bajiru.NnModel.LRScheduler

/-!
# `Trainer.train`

An epoch of the training: the batch size of the epoch, the pass over the shuffled training items with a learning rate
for each batch, and the pass over the evaluation items. `train_fn` and `eval_fn` are parameters, on the state dicts of
the model and the optimizer; what an epoch draws from the generators (the order of the items, their offsets, the
dropout) is a `ρ`. The batch size is a function of the epoch (`target`), so that a new `TrainDataLoader` is as good as
one that went through all epochs before (`updateEpoch_eq`).
-/

namespace Bajiru.NnModel

variable {σ α β ρ : Type*}

/-! ## Batch sizes -/

/-- The rounding is that of the machine's floats. -/
structure TrainDataLoader where
  rnd : Python.Rounding
  minBs : Int
  maxBs : Int
  targetEpoch : Int
  currentBs : Int

namespace TrainDataLoader

/-- `TrainDataLoader(dataset, min_bs, max_bs, target_epoch)`. -/
def new (rnd : Python.Rounding) (minBs maxBs targetEpoch : Int) : TrainDataLoader :=
  ⟨rnd, max 1 minBs, max 1 maxBs, targetEpoch, max 1 minBs⟩

/-- `target` of `update_epoch(epoch)`. -/
def target (l : TrainDataLoader) (epoch : Int) : Int :=
  let target :=
    if l.targetEpoch ≤ 0 then l.maxBs
    else
      let float : Int → ℚ := fun n => l.rnd.toFun n
      let frac : ℚ := min 1 (l.rnd.toFun (epoch / l.targetEpoch))
      Python.round (l.rnd.toFun (float l.minBs + l.rnd.toFun (frac * float (l.maxBs - l.minBs))))
  max 1 (min target l.maxBs)

/-- `update_epoch(epoch)`. -/
def updateEpoch (l : TrainDataLoader) (epoch : Int) : TrainDataLoader :=
  if l.target epoch ≠ l.currentBs then { l with currentBs := l.target epoch } else l

/-- `__iter__()`: the batches of the items in the order of the sampler. -/
def iter (l : TrainDataLoader) (items : List β) : List (List β) := chunks l.currentBs.toNat items

/-- The settings of two loaders agree. -/
def SameSettings (l l' : TrainDataLoader) : Prop :=
  l.rnd = l'.rnd ∧ l.minBs = l'.minBs ∧ l.maxBs = l'.maxBs ∧ l.targetEpoch = l'.targetEpoch

variable {l l' : TrainDataLoader} {epoch : Int}

theorem SameSettings.symm (h : l.SameSettings l') : l'.SameSettings l :=
  ⟨h.1.symm, h.2.1.symm, h.2.2.1.symm, h.2.2.2.symm⟩

theorem SameSettings.trans {l'' : TrainDataLoader} (h : l.SameSettings l') (h' : l'.SameSettings l'') :
    l.SameSettings l'' := ⟨h.1.trans h'.1, h.2.1.trans h'.2.1, h.2.2.1.trans h'.2.2.1, h.2.2.2.trans h'.2.2.2⟩

theorem updateEpoch_cases (l : TrainDataLoader) (epoch : Int) :
    l.updateEpoch epoch = { l with currentBs := l.target epoch } := by
  unfold updateEpoch
  split
  next => rfl
  next h => rw [not_not.1 h]

theorem updateEpoch_settings (l : TrainDataLoader) (epoch : Int) : (l.updateEpoch epoch).SameSettings l := by
  rw [updateEpoch_cases]
  exact ⟨rfl, rfl, rfl, rfl⟩

theorem target_eq (h : l.SameSettings l') : l.target epoch = l'.target epoch := by
  obtain ⟨hrnd, hmin, hmax, htarget⟩ := h
  unfold target
  rw [hrnd, hmin, hmax, htarget]

/-- **No memory**: the loader behind `update_epoch` depends on the settings and on the epoch. -/
theorem updateEpoch_eq (h : l.SameSettings l') : l.updateEpoch epoch = l'.updateEpoch epoch := by
  rw [updateEpoch_cases, updateEpoch_cases, target_eq h, h.1, h.2.1, h.2.2.1, h.2.2.2]

/-! ## The batches of a training -/

variable {rnd : Python.Rounding} {minBs maxBs targetEpoch : Int}

theorem settings_updates (epochs : List Int) (l : TrainDataLoader) : (epochs.foldl updateEpoch l).SameSettings l := by
  induction epochs generalizing l with
  | nil => exact ⟨rfl, rfl, rfl, rfl⟩
  | cons epoch epochs ih => exact (ih (l.updateEpoch epoch)).trans (updateEpoch_settings l epoch)

theorem target_mem (h : l.SameSettings (.new rnd minBs maxBs targetEpoch)) (epoch : Int) :
    1 ≤ l.target epoch ∧ l.target epoch ≤ max 1 maxBs := by
  have hmax : l.maxBs = max 1 maxBs := h.2.2.1
  unfold target
  dsimp only
  omega

/-- Batch sizes that are floats. -/
structure Moderate (l : TrainDataLoader) : Prop where
  regular : l.rnd.Regular
  minBs_mem : 1 ≤ l.minBs ∧ l.minBs ≤ 2 ^ 53
  maxBs_mem : 1 ≤ l.maxBs ∧ l.maxBs ≤ 2 ^ 53

theorem Moderate.new (hrnd : rnd.Regular) (hmin : minBs ≤ 2 ^ 53) (hmax : maxBs ≤ 2 ^ 53)
    (h : l.SameSettings (.new rnd minBs maxBs targetEpoch)) : l.Moderate := by
  have hl : l.minBs = max 1 minBs ∧ l.maxBs = max 1 maxBs := ⟨h.2.1, h.2.2.1⟩
  refine ⟨?_, by omega, by omega⟩
  rw [h.1]
  exact hrnd

namespace Moderate

variable (h : l.Moderate)

include h

theorem float_min : l.rnd.toFun (l.minBs : ℚ) = l.minBs := by
  obtain ⟨h1, h2⟩ := h.minBs_mem
  exact h.regular.intCast (abs_le.2 (by omega))

theorem float_sub : l.rnd.toFun ((l.maxBs - l.minBs : Int) : ℚ) = (l.maxBs - l.minBs : Int) := by
  obtain ⟨h1, h2⟩ := h.minBs_mem
  obtain ⟨h3, h4⟩ := h.maxBs_mem
  exact h.regular.intCast (abs_le.2 (by omega))

theorem target_eq (hpos : 0 < l.targetEpoch) (epoch : Int) : l.target epoch =
    max 1 (min (Python.round (l.rnd.toFun (l.minBs + l.rnd.toFun
      (min 1 (l.rnd.toFun (epoch / l.targetEpoch)) * (l.maxBs - l.minBs : Int))))) l.maxBs) := by
  unfold target
  dsimp only
  rw [if_neg (not_le.2 hpos), h.float_min, h.float_sub]

/-- A target of at least the maximal size is cut to it. -/
theorem target_of_le {x : ℚ} (hx : ((l.maxBs - l.minBs : Int) : ℚ) ≤ x) :
    max 1 (min (Python.round (l.rnd.toFun (l.minBs + l.rnd.toFun x))) l.maxBs) = l.maxBs := by
  obtain ⟨h1, h2⟩ := h.minBs_mem
  obtain ⟨h3, h4⟩ := h.maxBs_mem
  have hstep := h.regular.intCast_le (abs_le.2 (by omega)) hx
  have hsum : ((l.maxBs : Int) : ℚ) ≤ l.rnd.toFun (l.minBs + l.rnd.toFun x) := by
    refine h.regular.intCast_le (abs_le.2 (by omega)) ?_
    push_cast at hstep
    linarith
  have hround := Python.round_mono hsum
  rw [Python.round_intCast] at hround
  omega

/-- From the target epoch on the batches have the maximal size. -/
theorem target_reached {epoch : Int} (hepoch : l.targetEpoch ≤ epoch) : l.target epoch = l.maxBs := by
  obtain ⟨h3, h4⟩ := h.maxBs_mem
  obtain hle | hpos := le_or_gt l.targetEpoch 0
  · unfold target
    dsimp only
    rw [if_pos hle]
    omega
  · have hpos' : (0 : ℚ) < l.targetEpoch := by exact_mod_cast hpos
    have hquot : ((1 : Int) : ℚ) ≤ epoch / l.targetEpoch := by
      rw [Int.cast_one, one_le_div hpos']
      exact_mod_cast hepoch
    have hfrac : min 1 (l.rnd.toFun (epoch / l.targetEpoch)) = 1 := by
      have := h.regular.intCast_le (by norm_num) hquot
      exact min_eq_left (by simpa using this)
    rw [h.target_eq hpos, hfrac, one_mul]
    exact h.target_of_le le_rfl

/-- The batches of a later epoch are not smaller. -/
theorem target_mono {epoch epoch' : Int} (hepoch : epoch ≤ epoch') : l.target epoch ≤ l.target epoch' := by
  obtain hle | hpos := le_or_gt l.targetEpoch 0
  · unfold target
    dsimp only
    rw [if_pos hle, if_pos hle]
  have hpos' : (0 : ℚ) < l.targetEpoch := by exact_mod_cast hpos
  have hcast : (epoch : ℚ) ≤ epoch' := by exact_mod_cast hepoch
  have hfrac : min 1 (l.rnd.toFun (epoch / l.targetEpoch)) ≤ min 1 (l.rnd.toFun (epoch' / l.targetEpoch)) :=
    min_le_min_left 1 (h.regular.mono (by gcongr))
  rw [h.target_eq hpos, h.target_eq hpos]
  obtain hdown | hup := lt_or_ge l.maxBs l.minBs
  · -- above the maximal size the target is cut to it, in every epoch
    have hcut : ∀ e : Int, ((l.maxBs - l.minBs : Int) : ℚ) ≤
        min 1 (l.rnd.toFun (e / l.targetEpoch)) * ((l.maxBs - l.minBs : Int) : ℚ) := fun e => by
      have hneg : ((l.maxBs - l.minBs : Int) : ℚ) ≤ 0 := by exact_mod_cast (by omega : l.maxBs - l.minBs ≤ 0)
      have := mul_le_mul_of_nonpos_right (min_le_left 1 (l.rnd.toFun (e / l.targetEpoch))) hneg
      rwa [one_mul] at this
    rw [h.target_of_le (hcut epoch), h.target_of_le (hcut epoch')]
  · have hstep : (0 : ℚ) ≤ (l.maxBs - l.minBs : Int) := by exact_mod_cast (by omega : 0 ≤ l.maxBs - l.minBs)
    have hround := Python.round_mono (h.regular.mono (add_le_add (le_refl (l.minBs : ℚ))
      (h.regular.mono (mul_le_mul_of_nonneg_right hfrac hstep))))
    omega

end Moderate

/-- **The batches of an epoch**, after any epochs before: together they are the items, each item once, all but the last
have the size of the epoch, which is the same after any other epochs, lies between 1 and the maximal one, does not
shrink, and is the maximal one from the target epoch on. -/
theorem epoch_batches (hrnd : rnd.Regular) (hmin : minBs ≤ 2 ^ 53) (hmax : maxBs ≤ 2 ^ 53) (epochs : List Int)
    (epoch : Int) (items : List β) :
    let l := (epochs.foldl updateEpoch (.new rnd minBs maxBs targetEpoch)).updateEpoch epoch
    (l.iter items).flatten = items ∧ (∀ batch ∈ l.iter items, batch ≠ []) ∧
      (∀ batch ∈ (l.iter items).dropLast, (batch.length : Int) = l.currentBs) ∧
      (l.iter items).length = (items.length + l.currentBs.toNat - 1) / l.currentBs.toNat ∧
      (∀ epochs' : List Int,
        ((epochs'.foldl updateEpoch (.new rnd minBs maxBs targetEpoch)).updateEpoch epoch).currentBs = l.currentBs) ∧
      1 ≤ l.currentBs ∧ l.currentBs ≤ max 1 maxBs ∧ (targetEpoch ≤ epoch → l.currentBs = max 1 maxBs) ∧
      ∀ epoch', epoch ≤ epoch' → l.currentBs ≤ (l.updateEpoch epoch').currentBs := by
  intro l
  have hl : l.SameSettings (.new rnd minBs maxBs targetEpoch) :=
    (updateEpoch_settings _ epoch).trans (settings_updates epochs _)
  have hcurrent : l.currentBs = l.target epoch := by
    show (updateEpoch _ epoch).currentBs = _
    rw [updateEpoch_cases, target_eq (updateEpoch_settings _ epoch)]
  have hmoderate := Moderate.new hrnd hmin hmax hl
  obtain ⟨hpos, hle⟩ := target_mem hl epoch
  rw [← hcurrent] at hpos hle
  have hbatch : 0 < l.currentBs.toNat := by omega
  refine ⟨flatten_chunks hbatch items, fun batch h => ?_, fun batch h => ?_, length_chunks _ items, fun epochs' => ?_,
    hpos, hle, fun h => ?_, fun epoch' h => ?_⟩
  · exact List.ne_nil_of_length_pos (length_pos_of_mem_chunks hbatch h)
  · rw [length_of_mem_dropLast h]
    omega
  · exact congrArg currentBs (updateEpoch_eq ((settings_updates epochs' _).trans (settings_updates epochs _).symm))
  · exact hcurrent.trans ((hmoderate.target_reached (hl.2.2.2.trans_le h)).trans hl.2.2.1)
  · rw [updateEpoch_cases, hcurrent]
    exact hmoderate.target_mono h

theorem epoch_batches_train : (((new FloatFormat.double.rounding 32 64 10).updateEpoch 10).iter [1, 2, 3]).flatten =
      [1, 2, 3] ∧ ((new FloatFormat.double.rounding 32 64 10).updateEpoch 10).currentBs = 64 := by
  obtain ⟨hflatten, -, -, -, -, -, -, hreached, -⟩ := @epoch_batches _ FloatFormat.double.rounding 32 64 10
    FloatFormat.double_regular (by norm_num) (by norm_num) [] 10 [1, 2, 3]
  exact ⟨hflatten, hreached le_rfl⟩

/-- The exact product is halfway, at 14.5; that of the floats is above it. -/
example : ((new FloatFormat.double.rounding 1 22 14).updateEpoch 9).currentBs = 15 ∧
    ((new .exact 1 22 14).updateEpoch 9).currentBs = 14 := by decide +kernel

end TrainDataLoader

/-! ## An epoch -/

/-- What `Trainer` is given: the callbacks, the items that a pass over the training set yields, those of the evaluation
set, the assignment of a learning rate to the parameter groups, and the scheduler. -/
structure Trainer (σ α β ρ : Type*) where
  trainFn : ρ → Nat → List β → σ → σ × α
  evalFn : ρ → Nat → List β → σ → σ × α
  trainItems : ρ → List β
  evalItems : List β
  evalBatchSize : Nat
  setLr : ℚ → σ → σ
  lrScheduler : LRScheduler

/-- `max_epoch()`; there is none without pairs. -/
def LRScheduler.maxEpoch (s : LRScheduler) : Option Int := (Python.getItem s.pairs (-1)).map Prod.fst

namespace Trainer

section Epoch

variable [Zero α] [Add α] [Div α] [NatCast α] (t : Trainer σ α β ρ) (draw : ρ) (epoch : Int)

/-- `lr_scheduler.step(epoch, step, n_steps)`; it raises if there is no rate. -/
def schedule (step nSteps : Nat) (dicts : σ) : Option σ :=
  (t.lrScheduler.calcLr epoch (step / nSteps)).map fun lr => t.setLr lr dicts

/-- A batch of the training pass. The accumulator has the state dicts, `ep_acc` and `ep_steps`. -/
def trainBatch (totalSteps : Nat) (acc : σ × α × Nat) (batch : List β) : Option (σ × α × Nat) :=
  (t.schedule epoch acc.2.2 totalSteps acc.1).map fun dicts =>
    let (dicts, loss) := t.trainFn draw acc.2.2 batch dicts
    (dicts, acc.2.1 + loss, acc.2.2 + 1)

/-- A batch of the evaluation pass. -/
def evalBatch (acc : σ × α × Nat) (batch : List β) : σ × α × Nat :=
  let (dicts, loss) := t.evalFn draw acc.2.2 batch acc.1
  (dicts, acc.2.1 + loss, acc.2.2 + 1)

/-- `acc / max(1, steps)`. -/
def average (acc : α) (steps : Nat) : α := acc / (max 1 steps : Nat)

/-- An epoch of `train()` up to its checkpoint: the loader, the state dicts, `avg_train_loss` and `avg_eval_loss`. -/
def runEpoch (loader : TrainDataLoader) (dicts : σ) : Option (TrainDataLoader × σ × α × α) :=
  let loader := loader.updateEpoch epoch
  let batches := loader.iter (t.trainItems draw)
  (batches.foldlM (t.trainBatch draw epoch batches.length) (dicts, 0, 0)).map fun (dicts, epAcc, epSteps) =>
    let (dicts, evalAcc, evalSteps) := (chunks t.evalBatchSize t.evalItems).foldl (t.evalBatch draw) (dicts, 0, 0)
    (loader, dicts, average epAcc epSteps, average evalAcc evalSteps)

variable {t draw epoch}

/-- An epoch after a restart is the epoch of the process that went on. -/
theorem runEpoch_eq {loader loader' : TrainDataLoader} (h : loader.SameSettings loader') (dicts : σ) :
    t.runEpoch draw epoch loader dicts = t.runEpoch draw epoch loader' dicts := by
  unfold runEpoch
  rw [TrainDataLoader.updateEpoch_eq h]

theorem runEpoch_settings {loader loader' : TrainDataLoader} {dicts dicts' : σ} {avgTrainLoss avgEvalLoss : α}
    (h : t.runEpoch draw epoch loader dicts = some (loader', dicts', avgTrainLoss, avgEvalLoss)) :
    loader'.SameSettings loader := by
  obtain ⟨acc, -, heq⟩ := Option.map_eq_some_iff.1 h
  obtain rfl := congrArg Prod.fst heq
  exact loader.updateEpoch_settings epoch

end Epoch

end Trainer

end Bajiru.NnModel
