import Bajiru.NnModel.Resume

/-!
# The checkpoints of interrupted trainings

If a training with a `resume.pt` is always continued with `--restore`, an interruption leaves no trace in a process: its
weights, its epoch and its lists of checkpoints are those of one uninterrupted training (`resumed_checkpoints`).
-/

namespace Bajiru.NnModel

open CheckpointManager

variable {σ α β ρ : Type*}

/-- What a file at one path meets, before and as it is written. -/
theorem Disk.perform_at {path : String} {P : Saved σ α → Prop} {d : Disk σ α} {ops : List (FileOp σ α)}
    (hd : ∀ c, d path = some c → P c) (hops : ∀ op ∈ ops, op.path = path → ∀ c, op.content = some c → P c) :
    ∀ c, d.perform ops path = some c → P c := by
  have hkeeps := @Disk.perform_keeps σ α (fun path' c => path' = path → P c) d ops
    (fun path' c hc hpath => hd c (hpath ▸ hc)) (fun op hop c hc hpath => hops op hop hpath c hc)
  exact fun c hc => hkeeps path c hc rfl

namespace TrainScript

variable [BEq α] [LT α] [DecidableLT α] [Zero α] [Add α] [Div α] [NatCast α] {t : TrainScript σ α β ρ}

/-! ## The lists of a training -/

/-- The lists of a process name its own checkpoints. -/
structure Lists (t : TrainScript σ α β ρ) (p : Process σ α) : Prop where
  last : ∀ path ∈ p.manager.last, ∃ e, e < p.epoch ∧ path = lastPath t.saveDir e
  best : ∀ x ∈ p.manager.best.toList, ∃ e score, x.path = bestPath t.saveDir e score

omit [Zero α] [Add α] [Div α] [NatCast α] in
theorem Lists.trainEpoch {p : Process σ α} (h : Lists t p) (hdir : p.manager.saveDir = t.saveDir) (render : α → String)
    (dicts : σ) (avgTrainLoss avgEvalLoss : α) :
    Lists t (Training.trainEpoch render p dicts avgTrainLoss avgEvalLoss) := by
  refine ⟨fun path hpath => ?_, ?_⟩
  · rw [last_trainEpoch] at hpath
    show ∃ e, e < p.epoch + 1 ∧ path = lastPath t.saveDir e
    rcases List.mem_cons.1 (List.mem_of_mem_take hpath) with rfl | hpath
    · exact ⟨p.epoch, by omega, by rw [hdir]⟩
    · obtain ⟨e, hlt, rfl⟩ := h.last path hpath
      exact ⟨e, by omega, rfl⟩
  · unfold Training.trainEpoch
    simp only [CheckpointManager.save_eq]
    exact (saveBest_paths (σ := σ) (m := p.manager.pushLast p.epoch) hdir h.best _ _).2

/-- The lists of a training, and its last checkpoint. -/
theorem lists_train {init : σ} {draws : List ρ} {q : Session σ α} (h : t.train init draws = some q) :
    Lists t q.process ∧ (draws = [] → q.process.manager = .new α t.saveDir t.keepLast t.keepBest) ∧
      (draws ≠ [] → ∃ last, q.process.manager.last = lastPath t.saveDir (q.process.epoch - 1) :: last) := by
  refine (train_induction (t := t) (P := fun draws q => Prepared t q ∧ Lists t q.process ∧
      (draws = [] → q.process.manager = .new α t.saveDir t.keepLast t.keepBest) ∧
      (draws ≠ [] → ∃ last, q.process.manager.last = lastPath t.saveDir (q.process.epoch - 1) :: last))
    (fun p hp => ?_) (fun draws q draw q' hq hstep => ?_) h).2
  · obtain ⟨hprepared, -, -, -, hmanager⟩ := prepared_new hp
    refine ⟨hprepared, ⟨fun path hpath => ?_, fun x hx => ?_⟩, fun _ => hmanager, fun hne => absurd rfl hne⟩
    · rw [hmanager] at hpath
      cases hpath
    · rw [hmanager] at hx
      cases hx
  · obtain ⟨-, p, hp, rfl⟩ := step_spec hstep
    obtain ⟨hprepared, hlists, -⟩ := hq
    obtain ⟨avgTrainLoss, avgEvalLoss, -, hprocess⟩ := runEpoch_spec hp
    obtain ⟨⟨hloader, hepochs, hdir, hlast, hbest⟩, hepoch⟩ := hprepared.runEpoch hp
    have hlists' := hlists.trainEpoch hprepared.saveDir t.render p.dicts avgTrainLoss avgEvalLoss
    rw [← hprocess] at hlists'
    refine ⟨⟨hloader, hepochs, hdir, hlast, hbest⟩, ⟨hlists'.last, hlists'.best⟩,
      fun hnil => absurd hnil (by simp), fun _ => ?_⟩
    obtain ⟨k, hk⟩ := Nat.exists_eq_add_of_le' hprepared.keepLast_pos
    refine ⟨q.process.manager.last.take k, ?_⟩
    show p.process.manager.last = lastPath t.saveDir (p.process.epoch - 1) :: _
    rw [hepoch, hprocess, last_trainEpoch, hk, hprepared.saveDir, Int.add_sub_cancel]
    rfl

/-! ## What `resume.pt` says -/

/-- `resume.pt` is that of the training `q`, and the last checkpoint that it names has its weights, if it is there. -/
structure Named (t : TrainScript σ α β ρ) (d : Disk σ α) (q : Session σ α) : Prop where
  resume : d (resumePath t.saveDir) = some (.resume q.process.epoch q.process.manager.last q.process.manager.best)
  newest : ∀ c, d (lastPath t.saveDir (q.process.epoch - 1)) = some c →
    ∃ lossSummary, c = .state q.dicts (q.process.epoch - 1) lossSummary

/-- A directory that continues a training. -/
def Continuable (t : TrainScript σ α β ρ) (d : Disk σ α) : Prop :=
  d (resumePath t.saveDir) = none ∨ ∃ init draws q, t.train init draws = some q ∧ draws ≠ [] ∧ Named t d q

omit [BEq α] [LT α] [DecidableLT α] [Zero α] [Add α] [Div α] [NatCast α] in
/-- A manager is its settings and its lists. -/
theorem with_lists {m m' : CheckpointManager α} (hdir : m.saveDir = m'.saveDir) (hlast : m.keepLast = m'.keepLast)
    (hbest : m.keepBest = m'.keepBest) : { m with last := m'.last, best := m'.best } = m' := by
  obtain ⟨dir, keepLast, keepBest, last, best, hpos⟩ := m
  obtain ⟨dir', keepLast', keepBest', last', best', hpos'⟩ := m'
  obtain rfl : dir = dir' := hdir
  obtain rfl : keepLast = keepLast' := hlast
  obtain rfl : keepBest = keepBest' := hbest
  rfl

omit [BEq α] [LT α] [DecidableLT α] [Zero α] [Add α] [Div α] [NatCast α] in
/-- Operations that write neither `resume.pt` nor the last checkpoint that it names. -/
theorem Named.perform {d : Disk σ α} {q : Session σ α} (h : Named t d q) {ops : List (FileOp σ α)}
    (hresume : ∀ op ∈ ops, op.path ≠ resumePath t.saveDir)
    (hnewest : ∀ op ∈ ops, op.path = lastPath t.saveDir (q.process.epoch - 1) → op.content = none) :
    Named t (d.perform ops) q := by
  refine ⟨(perform_resumePath hresume).trans h.resume, Disk.perform_at h.newest fun op hop hpath c hc => ?_⟩
  rw [hnewest op hop hpath] at hc
  cases hc

omit [Zero α] [Add α] [Div α] [NatCast α] in
/-- The operations of an epoch behind its last checkpoint. -/
theorem rest_ops {p : Session σ α} (hp : Prepared t p) (hlists : Lists t p.process) (state : Saved σ α) (score : α) :
    ∀ op ∈ ((lastPath p.process.manager.saveDir p.process.epoch :: p.process.manager.last).drop
          p.process.manager.keepLast).reverse.map .remove ++
        (saveBest t.render (p.process.manager.pushLast p.process.epoch) p.process.epoch state score).2,
      (∃ e, e < p.process.epoch ∧ op = .remove (lastPath t.saveDir e)) ∨ ∃ e r, op.path = bestPath t.saveDir e r := by
  intro op hop
  rcases List.mem_append.1 hop with hop | hop
  · obtain ⟨path, hpath, rfl⟩ := List.mem_map.1 hop
    obtain ⟨k, hk⟩ := Nat.exists_eq_add_of_le' hp.keepLast_pos
    rw [hk, List.mem_reverse, List.drop_succ_cons] at hpath
    obtain ⟨e, hlt, rfl⟩ := hlists.last path (List.mem_of_mem_drop hpath)
    exact .inl ⟨e, hlt, rfl⟩
  · exact .inr ((saveBest_paths (m := p.process.manager.pushLast p.process.epoch) hp.saveDir hlists.best state score).1
      op hop)

/-! ## A process without a trace of interruptions -/

/-- The process `p` is that of the training `q`, and its file operations lead the directory there. -/
structure Following (t : TrainScript σ α β ρ) (d : Disk σ α) (p : Session σ α) (init : σ) (draws : List ρ)
    (q : Session σ α) : Prop where
  train : t.train init draws = some q
  dicts : q.dicts = p.dicts
  epoch : q.process.epoch = p.process.epoch
  manager : q.process.manager = p.process.manager
  first : draws = [] → p.process.pending = [] ∧ d (resumePath t.saveDir) = none
  named : draws ≠ [] → Named t (d.perform p.process.pending) q
  files : ∀ n, Continuable t (d.perform (p.process.pending.take n))

variable {d : Disk σ α} {p p' q : Session σ α} {init : σ} {draws : List ρ} {draw : ρ}

theorem Following.lists (h : Following t d p init draws q) : Lists t p.process := by
  obtain ⟨hlast, hbest⟩ := (lists_train h.train).1
  rw [h.manager, h.epoch] at hlast
  rw [h.manager] at hbest
  exact ⟨hlast, hbest⟩

/-- A new process, where there is no `resume.pt`. -/
theorem following_new (h : t.new init = some p) (hd : d (resumePath t.saveDir) = none) : Following t d p init [] p := by
  obtain ⟨-, -, -, hpending, -⟩ := prepared_new h
  refine ⟨(train_nil init).trans h, rfl, rfl, rfl, fun _ => ⟨hpending, hd⟩, fun hne => absurd rfl hne, fun n => ?_⟩
  rw [hpending, List.take_nil]
  exact .inl hd

/-- A process that restores. -/
theorem following_restore (hp : Prepared t p) (hpending : p.process.pending = []) (hd : Continuable t d)
    (h : p.restore d = some p') : ∃ init draws q, Following t d p' init draws q := by
  obtain ⟨⟨m, startEpoch, dicts⟩, hload, rfl⟩ := Option.map_eq_some_iff.1 h
  obtain ⟨⟨m', startEpoch'⟩, hresume, hlast⟩ := Option.bind_eq_some_iff.1 hload
  obtain ⟨dicts', hdicts, heq⟩ := Option.map_eq_some_iff.1 hlast
  cases heq
  rcases hd with hnone | ⟨init, draws, q, hq, hne, hnamed⟩
  · rw [loadResume, hp.saveDir, hnone] at hresume
    cases hresume
  · obtain ⟨hprepared, -, -⟩ := prepared_train hq
    obtain ⟨last, hhead⟩ := (lists_train hq).2.2 hne
    rw [loadResume, hp.saveDir, hnamed.resume] at hresume
    obtain ⟨rfl, rfl⟩ := Prod.mk.inj (Option.some.inj hresume)
    rw [loadLast] at hdicts
    simp only [hhead] at hdicts
    obtain ⟨state, hstate, rfl⟩ := Option.map_eq_some_iff.1 hdicts
    unfold CheckpointManager.load at hstate
    split at hstate
    next state' epoch lossSummary hfile =>
      obtain rfl := Option.some.inj hstate
      obtain ⟨lossSummary', heq⟩ := hnamed.newest _ hfile
      cases heq
      refine ⟨init, draws, q, hq, rfl, rfl, ?_, fun hnil => absurd hnil hne, fun _ => ?_, fun n => ?_⟩
      · have hmanager := with_lists (hp.saveDir.trans hprepared.saveDir.symm)
          (hp.keepLast.trans hprepared.keepLast.symm)
          (hp.keepBest.trans hprepared.keepBest.symm)
        rw [hp.saveDir] at hmanager
        exact hmanager.symm
      · show Named t (d.perform p.process.pending) q
        rw [hpending]
        exact hnamed
      · show Continuable t (d.perform (p.process.pending.take n))
        rw [hpending, List.take_nil]
        exact .inr ⟨init, draws, q, hq, hne, hnamed⟩
    next => cases hstate

/-- An epoch up to `save_resume` keeps what `resume.pt` says, and writes its weights. -/
theorem epoch_files (h : Following t d p init draws q) (hp : Prepared t p) (hpending : p.process.pending = [])
    (hrun : t.runEpoch p draw = some p') :
    ∃ ops, p'.process.pending = ops ++ [p'.process.manager.saveResume (p.process.epoch + 1)] ∧
      (∀ n, Continuable t (d.perform (ops.take n))) ∧
      ∀ c, d.perform ops (lastPath t.saveDir p.process.epoch) = some c →
        ∃ lossSummary, c = .state p'.dicts p.process.epoch lossSummary := by
  obtain ⟨avgTrainLoss, avgEvalLoss, -, hprocess⟩ := runEpoch_spec hrun
  have hrest := rest_ops hp h.lists
    (.state p'.dicts p.process.epoch [("train_loss", avgTrainLoss), ("eval_loss", avgEvalLoss)]) avgEvalLoss
  have hsplit := pending_trainEpoch t.render p.process p'.dicts avgTrainLoss avgEvalLoss
  rw [← hprocess] at hsplit
  refine ⟨_, hsplit, ?_⟩
  generalize ((lastPath p.process.manager.saveDir p.process.epoch :: p.process.manager.last).drop
      p.process.manager.keepLast).reverse.map .remove ++ (saveBest t.render (p.process.manager.pushLast p.process.epoch)
      p.process.epoch (.state p'.dicts p.process.epoch [("train_loss", avgTrainLoss), ("eval_loss", avgEvalLoss)])
      avgEvalLoss).2 = rest at hrest ⊢
  rw [hp.saveDir]
  constructor
  · intro n
    have hresume : ∀ op ∈ (FileOp.save (lastPath t.saveDir p.process.epoch)
        (.state p'.dicts p.process.epoch [("train_loss", avgTrainLoss), ("eval_loss", avgEvalLoss)]) :: rest).take n,
        op.path ≠ resumePath t.saveDir := by
      intro op hop
      rcases List.mem_cons.1 (List.mem_of_mem_take hop) with rfl | hop
      · exact lastPath_ne_resumePath t.saveDir p.process.epoch
      · rcases hrest op hop with ⟨e, -, rfl⟩ | ⟨e, r, hpath⟩
        · exact lastPath_ne_resumePath t.saveDir e
        · rw [hpath]
          exact bestPath_ne_resumePath t.saveDir e r
    by_cases hnil : draws = []
    · exact .inl ((perform_resumePath hresume).trans (h.first hnil).2)
    · have hnamed := h.named hnil
      rw [hpending] at hnamed
      refine .inr ⟨init, draws, q, h.train, hnil, hnamed.perform hresume fun op hop hpath => ?_⟩
      rw [h.epoch] at hpath
      rcases List.mem_cons.1 (List.mem_of_mem_take hop) with rfl | hop
      · have heq := lastPath_inj hpath
        omega
      · rcases hrest op hop with ⟨e, -, rfl⟩ | ⟨e, r, hbest⟩
        · rfl
        · exact absurd (hpath.symm.trans hbest) (lastPath_ne_bestPath t.saveDir _ e r)
  · have hself : (FileOp.save (lastPath t.saveDir p.process.epoch)
        (.state p'.dicts p.process.epoch [("train_loss", avgTrainLoss), ("eval_loss", avgEvalLoss)])).apply d
        (lastPath t.saveDir p.process.epoch) =
          some (.state p'.dicts p.process.epoch [("train_loss", avgTrainLoss), ("eval_loss", avgEvalLoss)]) :=
      Function.update_self _ _ _
    rw [Disk.perform_cons]
    refine Disk.perform_at (fun c hc => ?_) fun op hop hpath c hc => ?_
    · rw [hself] at hc
      exact ⟨_, (Option.some.inj hc).symm⟩
    · rcases hrest op hop with ⟨e, hlt, rfl⟩ | ⟨e, r, hbest⟩
      · cases hc
      · exact absurd (hpath.symm.trans hbest) (lastPath_ne_bestPath t.saveDir _ e r)

/-- **An epoch.** -/
theorem Following.runEpoch (h : Following t d p init draws q) (hp : Prepared t p) (hpending : p.process.pending = [])
    (hle : p.process.epoch ≤ p.process.epochs) (hrun : t.runEpoch p draw = some p') :
    ∃ q', Following t d p' init (draws ++ [draw]) q' := by
  obtain ⟨hprepared, -, -⟩ := prepared_train h.train
  obtain ⟨q', hstep, hdicts, hmanager⟩ := step_of_runEpoch hp hprepared h.epoch.symm h.dicts.symm hle hrun
  obtain ⟨hprepared', hepoch⟩ := hp.runEpoch hrun
  have hmanager := hmanager h.manager.symm
  have hq' : q'.process.epoch = p.process.epoch + 1 := by
    rw [(prepared_train (train_snoc h.train hstep)).2.1, ← h.epoch, (prepared_train h.train).2.1]
    simp
  obtain ⟨ops, hops, hfiles, hnewest⟩ := epoch_files h hp hpending hrun
  have hend : d.perform p'.process.pending = Function.update (d.perform ops) (resumePath t.saveDir)
      (some (.resume (p.process.epoch + 1) p'.process.manager.last p'.process.manager.best)) := by
    rw [hops, Disk.perform_append, ← hprepared'.saveDir]
    rfl
  have hnamed : Named t (d.perform p'.process.pending) q' := by
    refine ⟨?_, fun c hc => ?_⟩
    · rw [hend, Function.update_self, hq', hmanager]
    · rw [hend, hq', Int.add_sub_cancel, Function.update_of_ne (lastPath_ne_resumePath t.saveDir p.process.epoch)] at hc
      rw [hdicts, hq', Int.add_sub_cancel]
      exact hnewest c hc
  refine ⟨q', train_snoc h.train hstep, hdicts, hq'.trans hepoch.symm, hmanager, fun hnil => absurd hnil (by simp),
    fun _ => hnamed, fun n => ?_⟩
  rcases Nat.lt_or_ge ops.length n with hn | hn
  · rw [List.take_of_length_le (by rw [hops, List.length_append, List.length_singleton]; omega)]
    exact .inr ⟨init, _, q', train_snoc h.train hstep, by simp, hnamed⟩
  · rw [hops, List.take_append_of_le_length hn]
    exact hfiles n

/-- The invariant of a training that is always continued. -/
structure Traceless (t : TrainScript σ α β ρ) (s : Life σ α) : Prop where
  disk : Continuable t s.disk
  session : ∀ p ∈ s.session, Prepared t p ∧ ∃ init draws q, Following t s.disk p init draws q

/-- A process starts anew only where there is no `resume.pt`. -/
def Continues (t : TrainScript σ α β ρ) (s : Life σ α) : LifeEvent σ ρ → Prop
  | .start _ false => s.disk (resumePath t.saveDir) = none
  | _ => True

omit [BEq α] [LT α] [DecidableLT α] [Zero α] [Add α] [Div α] [NatCast α] in
instance decidableContinues (t : TrainScript σ α β ρ) (s : Life σ α) : ∀ e, Decidable (Continues t s e)
  | .start _ false => inferInstanceAs (Decidable (s.disk (resumePath t.saveDir) = none))
  | .start _ true => isTrue trivial
  | .epoch _ => isTrue trivial
  | .file => isTrue trivial
  | .crash => isTrue trivial

theorem Traceless.next {s s' : Life σ α} {e : LifeEvent σ ρ} (hs : Traceless t s) (he : Continues t s e)
    (h : t.next s e = some s') : Traceless t s' := by
  obtain ⟨d, session⟩ := s
  obtain ⟨hdisk, hsession⟩ := hs
  cases e with
  | start init restore =>
    obtain ⟨-, h⟩ := Option.ite_none_right_eq_some.1 h
    obtain rfl := Option.some.inj h
    refine ⟨hdisk, fun p' hp' => ?_⟩
    obtain ⟨p, hp, hstart⟩ := Option.bind_eq_some_iff.1 hp'
    obtain ⟨hprepared, -, -, hpending, -⟩ := prepared_new hp
    cases restore with
    | true => exact ⟨hprepared.restore hstart, following_restore hprepared hpending hdisk hstart⟩
    | false =>
      obtain rfl := Option.some.inj hstart
      exact ⟨hprepared, init, [], p, following_new hp he⟩
  | epoch draw =>
    cases session with
    | none => cases h
    | some p =>
      obtain ⟨⟨hpending, hle⟩, h⟩ := Option.ite_none_right_eq_some.1 h
      obtain rfl := Option.some.inj h
      refine ⟨hdisk, fun p' hp' => ?_⟩
      obtain ⟨hprepared, init, draws, q, hfollowing⟩ := hsession p rfl
      obtain ⟨q', hq'⟩ := hfollowing.runEpoch hprepared (List.isEmpty_iff.1 hpending) hle hp'
      exact ⟨(hprepared.runEpoch hp').1, init, draws ++ [draw], q', hq'⟩
  | file =>
    unfold TrainScript.next at h
    dsimp only at h
    split at h
    next m epochs epoch op ops dicts loader =>
      obtain rfl := Option.some.inj h
      obtain ⟨hprepared, init, draws, q, hfollowing⟩ := hsession _ rfl
      refine ⟨hfollowing.files 1, fun p' hp' => ?_⟩
      obtain rfl := Option.some.inj hp'
      refine ⟨⟨hprepared.loader, hprepared.epochs, hprepared.saveDir, hprepared.keepLast, hprepared.keepBest⟩,
        init, draws,
        q, hfollowing.train, hfollowing.dicts, hfollowing.epoch, hfollowing.manager, fun hnil => ?_, hfollowing.named,
        fun n => hfollowing.files (n + 1)⟩
      cases (hfollowing.first hnil).1
    next => cases h
  | crash =>
    obtain ⟨-, h⟩ := Option.ite_none_right_eq_some.1 h
    obtain rfl := Option.some.inj h
    exact ⟨hdisk, fun p hp => (by cases hp)⟩

end TrainScript

end Bajiru.NnModel
