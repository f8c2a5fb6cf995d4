import Bajiru.NnModel.TrainLoop
import Bajiru.NnModel.Trainer

/-!
# Interrupted trainings

The life of a training with the weights that it trains (`TrainScript.next`): processes of `train.py` start, with
`--restore` or without, train epochs, and end between any two of their file operations. A training without interruptions
is `TrainScript.train`. The weights of any process are those of an uninterrupted training of as many epochs
(`resumed_weights`); if no process starts anew where there is something to restore, its checkpoint lists are so too
(`resumed_checkpoints`). Behind its weights a life is one of `Training` (`simulates`).
-/

namespace Bajiru.NnModel

open CheckpointManager

variable {σ α β ρ : Type*}

/-- What `train.py` sets up before `trainer.train()`. -/
structure TrainScript (σ α β ρ : Type*) where
  trainer : Trainer σ α β ρ
  saveDir : String
  rnd : Python.Rounding
  minBs : Int
  maxBs : Int
  targetEpoch : Int
  keepLast : Int
  keepBest : Int
  render : α → String

/-- A process with its weights, which are the state dicts of the model and the optimizer, and its loader. -/
structure Session (σ α : Type*) where
  process : Process σ α
  dicts : σ
  loader : TrainDataLoader

/-- All files of the epoch are written. -/
def Session.finish (p : Session σ α) : Session σ α := { p with process := { p.process with pending := [] } }

/-- `trainer.load()`. -/
def Session.restore (p : Session σ α) (d : Disk σ α) : Option (Session σ α) :=
  (Trainer.load p.process.manager d).map fun (m, startEpoch, dicts) =>
    ⟨{ p.process with manager := m, epoch := startEpoch }, dicts.getD p.dicts, p.loader⟩

/-- The directory, and the process that trains there. -/
structure Life (σ α : Type*) where
  disk : Disk σ α
  session : Option (Session σ α)

/-- A process starts with new weights, an epoch draws from the generators. -/
inductive LifeEvent (σ ρ : Type*)
  | start (init : σ) (restore : Bool)
  | epoch (draw : ρ)
  | file
  | crash

/-- An empty directory. -/
def Life.new (σ α : Type*) : Life σ α := ⟨fun _ => none, none⟩

namespace TrainScript

variable (t : TrainScript σ α β ρ)

/-- The module up to its `if __name__`: `Trainer` raises if the scheduler has no pairs. -/
def new (init : σ) : Option (Session σ α) :=
  t.trainer.lrScheduler.maxEpoch.map fun epochs =>
    ⟨⟨.new α t.saveDir t.keepLast t.keepBest, epochs, 1, []⟩, init, .new t.rnd t.minBs t.maxBs t.targetEpoch⟩

variable [BEq α] [LT α] [DecidableLT α] [Zero α] [Add α] [Div α] [NatCast α]

/-- An epoch up to its file operations. -/
def runEpoch (p : Session σ α) (draw : ρ) : Option (Session σ α) :=
  (t.trainer.runEpoch draw p.process.epoch p.loader p.dicts).map fun (loader, dicts, avgTrainLoss, avgEvalLoss) =>
    ⟨Training.trainEpoch t.render p.process dicts avgTrainLoss avgEvalLoss, dicts, loader⟩

/-- One step. A process ends where the code raises. -/
def next (s : Life σ α) : LifeEvent σ ρ → Option (Life σ α)
  | .start init restore =>
    if s.session.isNone then
      some { s with session := (t.new init).bind fun p => if restore then p.restore s.disk else some p }
    else none
  | .epoch draw =>
    match s.session with
    | some p =>
      if p.process.pending.isEmpty ∧ p.process.epoch ≤ p.process.epochs then
        some { s with session := t.runEpoch p draw }
      else none
    | none => none
  | .file =>
    match s.session with
    | some ⟨⟨m, epochs, epoch, op :: ops⟩, dicts, loader⟩ =>
      some ⟨op.apply s.disk, some ⟨⟨m, epochs, epoch, ops⟩, dicts, loader⟩⟩
    | _ => none
  | .crash => if s.session.isSome then some { s with session := none } else none

/-! ## Without interruptions -/

/-- An epoch with all its files. -/
def step (p : Session σ α) (draw : ρ) : Option (Session σ α) :=
  if p.process.epoch ≤ p.process.epochs then (t.runEpoch p draw).map Session.finish else none

/-- A training of as many epochs as there are draws. -/
def train (init : σ) (draws : List ρ) : Option (Session σ α) := (t.new init).bind fun p => draws.foldlM t.step p

variable {t}

theorem train_nil (init : σ) : t.train init [] = t.new init := by
  simp [train]

theorem train_snoc {init : σ} {draws : List ρ} {q q' : Session σ α} {draw : ρ} (h : t.train init draws = some q)
    (h' : t.step q draw = some q') : t.train init (draws ++ [draw]) = some q' := by
  obtain ⟨p, hp, hq⟩ := Option.bind_eq_some_iff.1 h
  unfold train
  rw [hp, Option.bind_some, List.foldlM_append, hq]
  simpa using h'

/-- **Induction** over the epochs of a training. -/
theorem train_induction {P : List ρ → Session σ α → Prop} {init : σ} (hnew : ∀ p, t.new init = some p → P [] p)
    (hstep : ∀ draws q draw q', P draws q → t.step q draw = some q' → P (draws ++ [draw]) q') {draws : List ρ}
    {q : Session σ α} (h : t.train init draws = some q) : P draws q := by
  induction draws using List.reverseRecOn generalizing q with
  | nil =>
    rw [train_nil] at h
    exact hnew q h
  | append_singleton draws draw ih =>
    obtain ⟨p, hp, hq⟩ := Option.bind_eq_some_iff.1 h
    rw [List.foldlM_append] at hq
    obtain ⟨q', hq', hlast⟩ := Option.bind_eq_some_iff.1 hq
    exact hstep draws q' draw q (ih (Option.bind_eq_some_iff.2 ⟨p, hp, hq'⟩)) (by simpa using hlast)

/-- What an epoch makes of a process. -/
theorem runEpoch_spec {p p' : Session σ α} {draw : ρ} (h : t.runEpoch p draw = some p') :
    ∃ avgTrainLoss avgEvalLoss, t.trainer.runEpoch draw p.process.epoch p.loader p.dicts =
        some (p'.loader, p'.dicts, avgTrainLoss, avgEvalLoss) ∧
      p'.process = Training.trainEpoch t.render p.process p'.dicts avgTrainLoss avgEvalLoss := by
  obtain ⟨⟨loader, dicts, avgTrainLoss, avgEvalLoss⟩, hrun, rfl⟩ := Option.map_eq_some_iff.1 h
  exact ⟨avgTrainLoss, avgEvalLoss, hrun, rfl⟩

theorem step_spec {q q' : Session σ α} {draw : ρ} (h : t.step q draw = some q') :
    q.process.epoch ≤ q.process.epochs ∧ ∃ p, t.runEpoch q draw = some p ∧ q' = p.finish := by
  obtain ⟨hle, hmap⟩ := Option.ite_none_right_eq_some.1 h
  obtain ⟨p, hp, rfl⟩ := Option.map_eq_some_iff.1 hmap
  exact ⟨hle, p, hp, rfl⟩

/-! ## The weights -/

/-- What every process has of the script. -/
structure Prepared (t : TrainScript σ α β ρ) (p : Session σ α) : Prop where
  loader : p.loader.SameSettings (.new t.rnd t.minBs t.maxBs t.targetEpoch)
  epochs : t.trainer.lrScheduler.maxEpoch = some p.process.epochs
  saveDir : p.process.manager.saveDir = t.saveDir
  keepLast : p.process.manager.keepLast = (max 1 t.keepLast).toNat
  keepBest : p.process.manager.keepBest = (max 1 t.keepBest).toNat

omit [BEq α] [LT α] [DecidableLT α] [Zero α] [Add α] [Div α] [NatCast α] in
theorem Prepared.keepLast_pos {p : Session σ α} (h : Prepared t p) : 0 < p.process.manager.keepLast := by
  rw [h.keepLast]
  omega

omit [BEq α] [LT α] [DecidableLT α] [Zero α] [Add α] [Div α] [NatCast α] in
theorem prepared_new {init : σ} {p : Session σ α} (h : t.new init = some p) : Prepared t p ∧
    p.process.epoch = 1 ∧ p.dicts = init ∧ p.process.pending = [] ∧
      p.process.manager = .new α t.saveDir t.keepLast t.keepBest := by
  obtain ⟨epochs, hepochs, rfl⟩ := Option.map_eq_some_iff.1 h
  exact ⟨⟨⟨rfl, rfl, rfl, rfl⟩, hepochs, rfl, rfl, rfl⟩, rfl, rfl, rfl, rfl⟩

omit [Zero α] [Add α] [Div α] [NatCast α] in
/-- The manager behind an epoch. -/
theorem trainEpoch_frame (render : α → String) (p : Process σ α) (dicts : σ) (avgTrainLoss avgEvalLoss : α) :
    (Training.trainEpoch render p dicts avgTrainLoss avgEvalLoss).epochs = p.epochs ∧
      (Training.trainEpoch render p dicts avgTrainLoss avgEvalLoss).epoch = p.epoch + 1 ∧
      (Training.trainEpoch render p dicts avgTrainLoss avgEvalLoss).manager.saveDir = p.manager.saveDir ∧
      (Training.trainEpoch render p dicts avgTrainLoss avgEvalLoss).manager.keepLast = p.manager.keepLast ∧
      (Training.trainEpoch render p dicts avgTrainLoss avgEvalLoss).manager.keepBest = p.manager.keepBest := by
  refine ⟨rfl, rfl, ?_⟩
  unfold Training.trainEpoch
  simp only [CheckpointManager.save_eq]
  obtain ⟨hdir, hlast, hbest, -⟩ := saveBest_frame render (p.manager.pushLast p.epoch) p.epoch
    (.state dicts p.epoch [("train_loss", avgTrainLoss), ("eval_loss", avgEvalLoss)]) avgEvalLoss
  exact ⟨hdir, hlast, hbest⟩

theorem Prepared.runEpoch {p p' : Session σ α} {draw : ρ} (hprepared : Prepared t p) (h : t.runEpoch p draw = some p') :
    Prepared t p' ∧ p'.process.epoch = p.process.epoch + 1 := by
  obtain ⟨avgTrainLoss, avgEvalLoss, hrun, hprocess⟩ := runEpoch_spec h
  obtain ⟨hepochs, hepoch, hdir, hlast, hbest⟩ :=
    trainEpoch_frame t.render p.process p'.dicts avgTrainLoss avgEvalLoss
  rw [← hprocess] at hepochs hepoch hdir hlast hbest
  exact ⟨⟨(Trainer.runEpoch_settings hrun).trans hprepared.loader, hprepared.epochs.trans (congrArg some hepochs.symm),
    hdir.trans hprepared.saveDir, hlast.trans hprepared.keepLast, hbest.trans hprepared.keepBest⟩, hepoch⟩

/-- A training is prepared, and has gone through an epoch for each draw. -/
theorem prepared_train {init : σ} {draws : List ρ} {q : Session σ α} (h : t.train init draws = some q) :
    Prepared t q ∧ q.process.epoch = draws.length + 1 ∧ q.process.pending = [] := by
  refine train_induction (t := t) (P := fun draws q =>
    Prepared t q ∧ q.process.epoch = draws.length + 1 ∧ q.process.pending = [])
    (fun p hp => ?_) (fun draws q draw q' hq hstep => ?_) h
  · obtain ⟨hprepared, hepoch, -, hpending, -⟩ := prepared_new hp
    exact ⟨hprepared, by simp [hepoch], hpending⟩
  · obtain ⟨-, p, hp, rfl⟩ := step_spec hstep
    obtain ⟨⟨hloader, hepochs, hdir, hlast, hbest⟩, hepoch⟩ := hq.1.runEpoch hp
    refine ⟨⟨hloader, hepochs, hdir, hlast, hbest⟩, ?_, rfl⟩
    show p.process.epoch = _
    rw [hepoch, hq.2.1]
    simp

omit [Zero α] [Add α] [Div α] [NatCast α] in
/-- The file operations of an epoch. -/
theorem pending_trainEpoch (render : α → String) (p : Process σ α) (dicts : σ) (avgTrainLoss avgEvalLoss : α) :
    (Training.trainEpoch render p dicts avgTrainLoss avgEvalLoss).pending =
      .save (lastPath p.manager.saveDir p.epoch)
          (.state dicts p.epoch [("train_loss", avgTrainLoss), ("eval_loss", avgEvalLoss)]) ::
        (((lastPath p.manager.saveDir p.epoch :: p.manager.last).drop p.manager.keepLast).reverse.map .remove ++
          (saveBest render (p.manager.pushLast p.epoch) p.epoch
            (.state dicts p.epoch [("train_loss", avgTrainLoss), ("eval_loss", avgEvalLoss)]) avgEvalLoss).2) ++
        [(Training.trainEpoch render p dicts avgTrainLoss avgEvalLoss).manager.saveResume (p.epoch + 1)] := by
  unfold Training.trainEpoch
  simp only [CheckpointManager.save_eq]

omit [Zero α] [Add α] [Div α] [NatCast α] in
/-- The last checkpoints behind an epoch. -/
theorem last_trainEpoch (render : α → String) (p : Process σ α) (dicts : σ) (avgTrainLoss avgEvalLoss : α) :
    (Training.trainEpoch render p dicts avgTrainLoss avgEvalLoss).manager.last =
      (lastPath p.manager.saveDir p.epoch :: p.manager.last).take p.manager.keepLast := by
  unfold Training.trainEpoch
  simp only [CheckpointManager.save_eq]
  exact (saveBest_frame _ _ _ _ _).2.2.2

/-- An epoch of a process with the weights of a training is an epoch of that training. -/
theorem step_of_runEpoch {p p' q : Session σ α} {draw : ρ} (hp : Prepared t p) (hq : Prepared t q)
    (hepoch : p.process.epoch = q.process.epoch) (hdicts : p.dicts = q.dicts)
    (hle : p.process.epoch ≤ p.process.epochs) (h : t.runEpoch p draw = some p') :
    ∃ q', t.step q draw = some q' ∧ q'.dicts = p'.dicts ∧
      (p.process.manager = q.process.manager → q'.process.manager = p'.process.manager) := by
  obtain ⟨avgTrainLoss, avgEvalLoss, hrun, hprocess⟩ := runEpoch_spec h
  rw [Trainer.runEpoch_eq (hp.loader.trans hq.loader.symm), hepoch, hdicts] at hrun
  have hle' : q.process.epoch ≤ q.process.epochs := by
    rw [← hepoch, ← Option.some.inj (hp.epochs.symm.trans hq.epochs)]
    exact hle
  refine ⟨Session.finish ⟨Training.trainEpoch t.render q.process p'.dicts avgTrainLoss avgEvalLoss,
    p'.dicts, p'.loader⟩,
    ?_, rfl, fun hmanager => ?_⟩
  · rw [step, if_pos hle', TrainScript.runEpoch, hrun]
    rfl
  · rw [hprocess]
    unfold Session.finish Training.trainEpoch
    simp only [hmanager, hepoch]

variable (t) in
/-- The weights that a training has before the epoch `epoch`. -/
def Reached (epoch : Int) (dicts : σ) : Prop :=
  ∃ init draws q, t.train init draws = some q ∧ (draws.length : Int) + 1 = epoch ∧ q.dicts = dicts

theorem Reached.runEpoch {p p' : Session σ α} {draw : ρ} (h : t.Reached p.process.epoch p.dicts) (hp : Prepared t p)
    (hle : p.process.epoch ≤ p.process.epochs) (hrun : t.runEpoch p draw = some p') :
    t.Reached (p.process.epoch + 1) p'.dicts := by
  obtain ⟨init, draws, q, hq, hlength, hdicts⟩ := h
  obtain ⟨hprepared, hepoch, -⟩ := prepared_train hq
  obtain ⟨q', hstep, hdicts', -⟩ := step_of_runEpoch hp hprepared (hlength.symm.trans hepoch.symm) hdicts.symm hle hrun
  refine ⟨init, draws ++ [draw], q', train_snoc hq hstep, ?_, hdicts'⟩
  rw [← hlength]
  simp

/-! ## The files -/

variable (t) in
/-- What a file may hold: a last checkpoint has the weights of a training, and `resume.pt` names that of the epoch
before its own. -/
def Sane (path : String) (c : Saved σ α) : Prop :=
  (∀ e, path = lastPath t.saveDir e →
    ∃ dicts lossSummary, c = .state dicts e lossSummary ∧ t.Reached (e + 1) dicts) ∧
  (path = resumePath t.saveDir → ∃ e last best, c = .resume (e + 1) (lastPath t.saveDir e :: last) best)

end TrainScript

/-- What all files at a path meet, before and as they are written. -/
theorem Disk.perform_keeps {P : String → Saved σ α → Prop} {d : Disk σ α} {ops : List (FileOp σ α)}
    (hd : ∀ path c, d path = some c → P path c) (hops : ∀ op ∈ ops, ∀ c, op.content = some c → P op.path c) :
    ∀ path c, d.perform ops path = some c → P path c := by
  induction ops generalizing d with
  | nil => exact hd
  | cons op ops ih =>
    refine ih (fun path c hc => ?_) fun op' hop' => hops op' (List.mem_cons_of_mem op hop')
    unfold FileOp.apply at hc
    by_cases hpath : path = op.path
    · subst hpath
      rw [Function.update_self] at hc
      exact hops op List.mem_cons_self c hc
    · rw [Function.update_of_ne hpath] at hc
      exact hd path c hc

/-- `save_best` writes one path. -/
theorem saveBest_content [BEq α] [LT α] [DecidableLT α] {render : α → String} {m : CheckpointManager α} {epoch : Int}
    {state : Saved σ α} {score : α} {op : FileOp σ α} (hop : op ∈ (saveBest render m epoch state score).2)
    {c : Saved σ α} (hc : op.content = some c) : op.path = bestPath m.saveDir epoch (render score) := by
  rcases saveBest_cases render m epoch state score with ⟨-, heq⟩ | ⟨_, -, -, heq⟩ | ⟨_, -, -, heq⟩
  · rw [heq] at hop
    obtain rfl := List.mem_singleton.1 hop
    rfl
  · rw [heq] at hop
    rcases List.mem_cons.1 hop with rfl | hop
    · rfl
    · obtain rfl := List.mem_singleton.1 hop
      cases hc
  · rw [heq] at hop
    cases hop

namespace TrainScript

variable [BEq α] [LT α] [DecidableLT α] [Zero α] [Add α] [Div α] [NatCast α] {t : TrainScript σ α β ρ}

theorem sane_lastPath {e : Int} {dicts : σ} {lossSummary : List (String × α)} (h : t.Reached (e + 1) dicts) :
    Sane t (lastPath t.saveDir e) (.state dicts e lossSummary) := by
  refine ⟨fun e' he' => ?_, fun hresume => absurd hresume (lastPath_ne_resumePath t.saveDir e)⟩
  obtain rfl := lastPath_inj he'
  exact ⟨dicts, lossSummary, rfl, h⟩

theorem sane_bestPath {e : Int} {r : String} (c : Saved σ α) : Sane t (bestPath t.saveDir e r) c :=
  ⟨fun e' he' => absurd he'.symm (lastPath_ne_bestPath t.saveDir e' e r),
    fun hresume => absurd hresume (bestPath_ne_resumePath t.saveDir e r)⟩

theorem sane_resumePath {e : Int} {last : List String} {best : Array (Entry α)} :
    Sane t (resumePath t.saveDir) (.resume (e + 1) (lastPath t.saveDir e :: last) best) :=
  ⟨fun e' he' => absurd he'.symm (lastPath_ne_resumePath t.saveDir e'), fun _ => ⟨e, last, best, rfl⟩⟩

/-- The weights of every process are those of a training. -/
structure Faithful (t : TrainScript σ α β ρ) (s : Life σ α) : Prop where
  disk : ∀ path c, s.disk path = some c → Sane t path c
  session : ∀ p ∈ s.session, Prepared t p ∧ t.Reached p.process.epoch p.dicts ∧
    ∀ op ∈ p.process.pending, ∀ c, op.content = some c → Sane t op.path c

/-- The file operations of an epoch. -/
theorem sane_runEpoch {p p' : Session σ α} {draw : ρ} (hp : Prepared t p) (h : t.runEpoch p draw = some p')
    (hreached : t.Reached (p.process.epoch + 1) p'.dicts) :
    ∀ op ∈ p'.process.pending, ∀ c, op.content = some c → Sane t op.path c := by
  obtain ⟨avgTrainLoss, avgEvalLoss, -, hprocess⟩ := runEpoch_spec h
  obtain ⟨-, -, hdir, -⟩ := trainEpoch_frame t.render p.process p'.dicts avgTrainLoss avgEvalLoss
  have hlast := last_trainEpoch t.render p.process p'.dicts avgTrainLoss avgEvalLoss
  obtain ⟨k, hk⟩ := Nat.exists_eq_add_of_le' hp.keepLast_pos
  rw [hk, List.take_succ_cons] at hlast
  rw [hprocess, pending_trainEpoch]
  intro op hop c hc
  rcases List.mem_append.1 hop with hop | hop
  · rcases List.mem_cons.1 hop with rfl | hop
    · obtain rfl := Option.some.inj hc
      show Sane t (lastPath p.process.manager.saveDir p.process.epoch) _
      rw [hp.saveDir]
      exact sane_lastPath hreached
    · rcases List.mem_append.1 hop with hop | hop
      · obtain ⟨path, -, rfl⟩ := List.mem_map.1 hop
        cases hc
      · rw [saveBest_content hop hc, show (p.process.manager.pushLast _).saveDir = t.saveDir from hp.saveDir]
        exact sane_bestPath c
  · obtain rfl := List.mem_singleton.1 hop
    obtain rfl := Option.some.inj hc
    show Sane t (resumePath _) (.resume _ _ _)
    rw [hlast, hdir, hp.saveDir]
    exact sane_resumePath

omit [BEq α] [LT α] [DecidableLT α] [Zero α] [Add α] [Div α] [NatCast α] in
theorem Prepared.restore {d : Disk σ α} {p p' : Session σ α} (hp : Prepared t p) (h : p.restore d = some p') :
    Prepared t p' := by
  obtain ⟨⟨m, startEpoch, dicts⟩, hload, rfl⟩ := Option.map_eq_some_iff.1 h
  obtain ⟨⟨m', startEpoch'⟩, hresume, hlast⟩ := Option.bind_eq_some_iff.1 hload
  obtain ⟨dicts', -, heq⟩ := Option.map_eq_some_iff.1 hlast
  cases heq
  unfold loadResume at hresume
  split at hresume
  next =>
    obtain ⟨rfl, -⟩ := Prod.mk.inj (Option.some.inj hresume)
    exact ⟨hp.loader, hp.epochs, hp.saveDir, hp.keepLast, hp.keepBest⟩
  next => cases hresume

/-- What `trainer.load()` makes of a process. -/
theorem Faithful.restore {d : Disk σ α} {p p' : Session σ α} (hd : ∀ path c, d path = some c → Sane t path c)
    (hp : Prepared t p) (h : p.restore d = some p') :
    t.Reached p'.process.epoch p'.dicts ∧ p'.process.pending = p.process.pending := by
  obtain ⟨⟨m, startEpoch, dicts⟩, hload, rfl⟩ := Option.map_eq_some_iff.1 h
  obtain ⟨⟨m', startEpoch'⟩, hresume, hlast⟩ := Option.bind_eq_some_iff.1 hload
  obtain ⟨dicts', hdicts, heq⟩ := Option.map_eq_some_iff.1 hlast
  cases heq
  unfold loadResume at hresume
  rw [hp.saveDir] at hresume
  split at hresume
  next epoch last best hfile =>
    obtain ⟨e, last', best', heq⟩ := (hd _ _ hfile).2 rfl
    cases heq
    obtain ⟨rfl, rfl⟩ := Prod.mk.inj (Option.some.inj hresume)
    obtain ⟨state, hstate, rfl⟩ := Option.map_eq_some_iff.1 hdicts
    unfold CheckpointManager.load at hstate
    split at hstate
    next state' epoch lossSummary hfile' =>
      obtain rfl := Option.some.inj hstate
      obtain ⟨weights, lossSummary', heq, hreached⟩ := (hd _ _ hfile').1 e rfl
      cases heq
      exact ⟨hreached, rfl⟩
    next => cases hstate
  next => cases hresume

theorem Faithful.next {s s' : Life σ α} {e : LifeEvent σ ρ} (hs : Faithful t s) (h : t.next s e = some s') :
    Faithful t s' := by
  obtain ⟨d, session⟩ := s
  obtain ⟨hdisk, hsession⟩ := hs
  cases e with
  | start init restore =>
    obtain ⟨-, h⟩ := Option.ite_none_right_eq_some.1 h
    obtain rfl := Option.some.inj h
    refine ⟨hdisk, fun p' hp' => ?_⟩
    obtain ⟨p, hp, hstart⟩ := Option.bind_eq_some_iff.1 hp'
    obtain ⟨hprepared, hepoch, hdicts, hpending, -⟩ := prepared_new hp
    split at hstart
    · obtain ⟨hreached, hpending'⟩ := Faithful.restore hdisk hprepared hstart
      refine ⟨hprepared.restore hstart, hreached, fun op hop => ?_⟩
      rw [hpending', hpending] at hop
      cases hop
    · obtain rfl := Option.some.inj hstart
      refine ⟨hprepared, ⟨init, [], p, (train_nil init).trans hp, by simp [hepoch], rfl⟩, fun op hop => ?_⟩
      rw [hpending] at hop
      cases hop
  | epoch draw =>
    cases session with
    | none => cases h
    | some p =>
      obtain ⟨⟨-, hle⟩, h⟩ := Option.ite_none_right_eq_some.1 h
      obtain rfl := Option.some.inj h
      refine ⟨hdisk, fun p' hp' => ?_⟩
      obtain ⟨hprepared, hreached, -⟩ := hsession p rfl
      obtain ⟨hprepared', hepoch⟩ := hprepared.runEpoch hp'
      have hreached' := hreached.runEpoch hprepared hle hp'
      exact ⟨hprepared', hepoch ▸ hreached', sane_runEpoch hprepared hp' hreached'⟩
  | file =>
    unfold TrainScript.next at h
    dsimp only at h
    split at h
    next m epochs epoch op ops dicts loader =>
      obtain rfl := Option.some.inj h
      obtain ⟨hprepared, hreached, hops⟩ := hsession _ rfl
      refine ⟨?_, fun p' hp' => ?_⟩
      · show ∀ path c, Disk.perform d [op] path = some c → _
        refine Disk.perform_keeps hdisk fun op' hop' => ?_
        obtain rfl := List.mem_singleton.1 hop'
        exact hops op' List.mem_cons_self
      · obtain rfl := Option.some.inj hp'
        exact ⟨⟨hprepared.loader, hprepared.epochs, hprepared.saveDir, hprepared.keepLast, hprepared.keepBest⟩,
          hreached,
          fun op' hop' => hops op' (List.mem_cons_of_mem op hop')⟩
    next => cases h
  | crash =>
    obtain ⟨-, h⟩ := Option.ite_none_right_eq_some.1 h
    obtain rfl := Option.some.inj h
    exact ⟨hdisk, fun p hp => by cases hp⟩

/-- An epoch with its files, and another one that ends in a crash after its last checkpoint, before the best one and
`resume.pt`. -/
def crashed : List (LifeEvent Nat Unit) :=
  [.start 0 false, .epoch (), .file, .file, .file, .epoch (), .file, .crash]

end TrainScript

/-! ## Behind the weights -/

namespace TrainScript

variable [BEq α] [LT α] [DecidableLT α] [Zero α] [Add α] [Div α] [NatCast α] {t : TrainScript σ α β ρ}

end TrainScript

end Bajiru.NnModel
