import Bajiru.NnModel.CheckpointManager
import Bajiru.Runs

/-!
# Resuming a training

A directory of checkpoints over the life of a training: processes are started, with `--restore` or without, train epochs,
and crash between any two of their file operations (`Training`). In every state the newest checkpoint that `resume.pt`
names is there, so that a restore succeeds, exactly if all processes keep at least two last checkpoints
(`resumable_iff`): with one, the checkpoint that `resume.pt` names is removed before `resume.pt` is written again.
-/

namespace Bajiru.NnModel

open CheckpointManager

variable {σ α : Type*}

/-- `Trainer.load()`: the manager with the lists of `resume.pt`, the start epoch, and what `load_last` loads. -/
def Trainer.load (m : CheckpointManager α) (d : Disk σ α) : Option (CheckpointManager α × Int × Option σ) :=
  (m.loadResume d).bind fun (m, startEpoch) => (m.loadLast d).map fun dicts => (m, startEpoch, dicts)

/-- A process of `train.py`: `epochs` is the last epoch of its scheduler, `epoch` the next one of the loop, and `pending`
are the file operations of the last epoch that are not done. -/
structure Process (σ α : Type*) where
  manager : CheckpointManager α
  epochs : Int
  epoch : Int
  pending : List (FileOp σ α)

/-- The directory, and the process that trains there. -/
structure Training (σ α : Type*) where
  disk : Disk σ α
  process : Option (Process σ α)

inductive TrainingEvent (σ α : Type*)
  | start (keepLast keepBest epochs : Int) (restore : Bool)
  | epoch (dicts : σ) (avgTrainLoss avgEvalLoss : α)
  | file
  | crash

namespace Training

/-- An empty directory. -/
def new (σ α : Type*) : Training σ α := ⟨fun _ => none, none⟩

variable [BEq α] [LT α] [DecidableLT α] (render : α → String) (dir : String)

/-- An epoch of `Trainer.train()`, up to its file operations: those of `save` and of `save_resume`. -/
def trainEpoch (p : Process σ α) (dicts : σ) (avgTrainLoss avgEvalLoss : α) : Process σ α :=
  let lossSummary := [("train_loss", avgTrainLoss), ("eval_loss", avgEvalLoss)]
  let (m, ops) := p.manager.save render dicts p.epoch lossSummary avgEvalLoss
  { p with manager := m, epoch := p.epoch + 1, pending := ops ++ [m.saveResume (p.epoch + 1)] }

/-- A process that cannot restore ends. -/
def start (s : Training σ α) (keepLast keepBest epochs : Int) (restore : Bool) : Training σ α :=
  let m := CheckpointManager.new α dir keepLast keepBest
  if restore then
    match Trainer.load m s.disk with
    | some (m, startEpoch, _) => { s with process := some ⟨m, epochs, startEpoch, []⟩ }
    | none => s
  else { s with process := some ⟨m, epochs, 1, []⟩ }

/-- One step. -/
def next (s : Training σ α) : TrainingEvent σ α → Option (Training σ α)
  | .start keepLast keepBest epochs restore =>
    if s.process.isNone then some (s.start dir keepLast keepBest epochs restore) else none
  | .epoch dicts avgTrainLoss avgEvalLoss =>
    match s.process with
    | some p =>
      if p.pending.isEmpty ∧ p.epoch ≤ p.epochs then
        some { s with process := some (trainEpoch render p dicts avgTrainLoss avgEvalLoss) }
      else none
    | none => none
  | .file =>
    match s.process with
    | some ⟨m, epochs, epoch, op :: ops⟩ => some ⟨op.apply s.disk, some ⟨m, epochs, epoch, ops⟩⟩
    | _ => none
  | .crash => if s.process.isSome then some { s with process := none } else none

end Training

/-! ## A directory from which a training can be resumed -/

/-- `resume.pt` names `path` as the newest checkpoint. -/
def Newest (dir : String) (d : Disk σ α) (path : String) : Prop :=
  ∃ epoch last best, d (resumePath dir) = some (.resume epoch (path :: last) best)

/-- If `resume.pt` is there, the newest checkpoint that it names is there, and a process can be restored. -/
def Resumable (dir : String) (d : Disk σ α) : Prop :=
  (d (resumePath dir)).isSome = true → (∃ path, Newest dir d path ∧ (d path).isSome = true) ∧
    ∀ m : CheckpointManager α, m.saveDir = dir → (Trainer.load m d).isSome = true

/-- A directory without its newest checkpoint. -/
theorem not_resumable_of {dir path : String} {d : Disk σ α} {epoch : Int} {last : List String} {best : Array (Entry α)}
    (h : d (resumePath dir) = some (.resume epoch (path :: last) best)) (hpath : d path = none) : ¬ Resumable dir d := by
  intro hresumable
  obtain ⟨⟨path', ⟨epoch', last', best', hnewest⟩, hthere⟩, -⟩ := hresumable (by rw [h]; rfl)
  rw [h] at hnewest
  cases hnewest
  rw [hpath] at hthere
  cases hthere

/-- The file at `path` is a checkpoint. -/
def Present (d : Disk σ α) (path : String) : Prop := ∃ dicts epoch lossSummary, d path = some (.state dicts epoch lossSummary)

/-- A list of last checkpoints before the epoch `epoch`, newest first, and a heap of best ones. -/
structure Listed (dir : String) (epoch : Int) (last : List String) (best : Array (Entry α)) : Prop where
  last : ∃ es : List Int, last = es.map (lastPath dir) ∧ es.Pairwise (· > ·) ∧ ∀ e ∈ es, e < epoch
  best : ∀ x ∈ best.toList, ∃ e score, x.path = bestPath dir e score

/-- The invariant of the directory. -/
def Sound (dir : String) (d : Disk σ α) : Prop :=
  d (resumePath dir) = none ∨ ∃ epoch path last best, d (resumePath dir) = some (.resume epoch (path :: last) best) ∧
    Listed dir epoch (path :: last) best ∧ Present d path

theorem Sound.resumable {dir : String} {d : Disk σ α} (h : Sound dir d) : Resumable dir d := by
  intro hresume
  obtain hnone | ⟨epoch, path, last, best, heq, -, dicts, epoch', lossSummary, hpath⟩ := h
  · rw [hnone] at hresume
    cases hresume
  · refine ⟨⟨path, ⟨epoch, last, best, heq⟩, by rw [hpath]; rfl⟩, fun m hm => ?_⟩
    subst hm
    simp [Trainer.load, loadResume, loadLast, CheckpointManager.load, heq, hpath]

/-! ## Operations that keep a checkpoint -/

/-- The operation leaves `resume.pt` alone, and does not remove the checkpoint `path`. -/
def Keeping (dir path : String) (op : FileOp σ α) : Prop :=
  op.path ≠ resumePath dir ∧ (op.path = path → ∃ dicts epoch lossSummary, op.content = some (.state dicts epoch lossSummary))

theorem Present.perform {dir path : String} {d : Disk σ α} (h : Present d path) {ops : List (FileOp σ α)}
    (hops : ∀ op ∈ ops, Keeping dir path op) : Present (d.perform ops) path := by
  induction ops generalizing d with
  | nil => exact h
  | cons op ops ih =>
    refine ih ?_ fun op' hop' => hops op' (List.mem_cons_of_mem op hop')
    unfold FileOp.apply Present
    by_cases heq : op.path = path
    · obtain ⟨dicts, epoch, lossSummary, hcontent⟩ := (hops op List.mem_cons_self).2 heq
      exact ⟨dicts, epoch, lossSummary, by rw [heq, Function.update_self, hcontent]⟩
    · rw [Function.update_of_ne (Ne.symm heq)]
      exact h

theorem perform_resumePath {dir : String} {d : Disk σ α} {ops : List (FileOp σ α)}
    (hops : ∀ op ∈ ops, op.path ≠ resumePath dir) : d.perform ops (resumePath dir) = d (resumePath dir) := by
  induction ops generalizing d with
  | nil => rfl
  | cons op ops ih =>
    rw [Disk.perform_cons, ih fun op' hop' => hops op' (List.mem_cons_of_mem op hop')]
    exact Function.update_of_ne (Ne.symm (hops op List.mem_cons_self)) _ _

/-- Operations that keep the newest checkpoint keep the directory sound. -/
theorem Sound.perform {dir : String} {d : Disk σ α} (h : Sound dir d) {ops : List (FileOp σ α)}
    (hresume : ∀ op ∈ ops, op.path ≠ resumePath dir)
    (hops : ∀ path, Newest dir d path → ∀ op ∈ ops, Keeping dir path op) : Sound dir (d.perform ops) := by
  unfold Sound
  rw [perform_resumePath hresume]
  refine h.imp_right ?_
  rintro ⟨epoch, path, last, best, heq, hlisted, hpath⟩
  exact ⟨epoch, path, last, best, heq, hlisted, hpath.perform (hops path ⟨epoch, last, best, heq⟩)⟩

/-! ## The operations of an epoch -/

section Epoch

variable [BEq α] [LT α] [DecidableLT α] {render : α → String} {m : CheckpointManager α} {dir : String} {epoch : Int}

/-- The operations of `save_best` are on best checkpoints, and the heap names only those. -/
theorem saveBest_paths (hdir : m.saveDir = dir) (hbest : ∀ x ∈ m.best.toList, ∃ e score, x.path = bestPath dir e score)
    (state : Saved σ α) (score : α) :
    (∀ op ∈ (saveBest render m epoch state score).2, ∃ e score, op.path = bestPath dir e score) ∧
      (∀ x ∈ (saveBest render m epoch state score).1.best.toList, ∃ e score, x.path = bestPath dir e score) := by
  subst hdir
  rcases saveBest_cases render m epoch state score with
    ⟨-, heq⟩ | ⟨hsize, -, -, heq⟩ | ⟨_, -, -, heq⟩
  · rw [heq]
    refine ⟨fun op hop => ?_, fun x hx => ?_⟩
    · obtain rfl := List.mem_singleton.1 hop
      exact ⟨epoch, render score, rfl⟩
    · rcases List.mem_cons.1 ((BinaryHeap.heappush_perm _ _).mem_iff.1 hx) with rfl | hx
      · exact ⟨epoch, render score, rfl⟩
      · exact hbest x hx
  · rw [heq]
    refine ⟨fun op hop => ?_, fun x hx => ?_⟩
    · rcases List.mem_cons.1 hop with rfl | hop
      · exact ⟨epoch, render score, rfl⟩
      · obtain rfl := List.mem_singleton.1 hop
        exact hbest m.best[0] (Array.getElem_mem_toList hsize)
    · rcases List.mem_cons.1 ((BinaryHeap.heapreplace_perm _ _ hsize).mem_iff.1 hx) with rfl | hx
      · exact ⟨epoch, render score, rfl⟩
      · exact hbest x (List.mem_of_mem_tail hx)
  · rw [heq]
    exact ⟨nofun, hbest⟩

variable {d : Disk σ α}

/-- The state before an epoch: the lists of the manager, and what `resume.pt` has of them. -/
structure Ready (dir : String) (d : Disk σ α) (m : CheckpointManager α) (epoch : Int) : Prop where
  saveDir : m.saveDir = dir
  keepLast : 2 ≤ m.keepLast
  listed : Listed dir epoch m.last m.best
  named : m.last = [] ∨ d (resumePath dir) = some (.resume epoch m.last m.best)

variable (render) in
/-- Behind the new checkpoint, `save` removes older ones than the newest, and works on best ones. -/
theorem Ready.ops (h : Ready dir d m epoch) (state : Saved σ α) (score : α) :
    ∀ op ∈ ((lastPath m.saveDir epoch :: m.last).drop m.keepLast).reverse.map .remove ++
      (saveBest render (m.pushLast epoch) epoch state score).2,
    op.path ∈ m.last.tail ∨ ∃ e score, op.path = bestPath dir e score := by
  intro op hop
  rcases List.mem_append.1 hop with hop | hop
  · obtain ⟨path, hpath, rfl⟩ := List.mem_map.1 hop
    obtain ⟨k, hk⟩ := Nat.exists_eq_add_of_le' h.keepLast
    rw [hk, List.mem_reverse, List.drop_succ_cons, ← List.drop_tail] at hpath
    exact .inl (List.mem_of_mem_drop hpath)
  · exact .inr ((saveBest_paths (m := m.pushLast epoch) h.saveDir h.listed.best state score).1 op hop)

omit [BEq α] [LT α] [DecidableLT α]

theorem Listed.mem {last : List String} {best : Array (Entry α)} (h : Listed dir epoch last best) {path : String}
    (hpath : path ∈ last) : ∃ e, e < epoch ∧ path = lastPath dir e := by
  obtain ⟨es, rfl, -, hlt⟩ := h.last
  obtain ⟨e, he, rfl⟩ := List.mem_map.1 hpath
  exact ⟨e, hlt e he, rfl⟩

theorem Listed.notMem {path : String} {last : List String} {best : Array (Entry α)}
    (h : Listed dir epoch (path :: last) best) : path ∉ last := by
  obtain ⟨es, heq, hdesc, -⟩ := h.last
  obtain ⟨e, es', rfl, rfl, rfl⟩ := List.map_eq_cons_iff.1 heq.symm
  intro hmem
  obtain ⟨e', he', heq'⟩ := List.mem_map.1 hmem
  have := (List.pairwise_cons.1 hdesc).1 e' he'
  rw [lastPath_inj heq'] at this
  omega

/-- The newest checkpoint of `resume.pt` is the newest one of the manager, if that has one. -/
theorem Ready.newest (h : Ready dir d m epoch) (hd : Sound dir d) {path : String} (hpath : Newest dir d path) :
    path ∉ m.last.tail ∧ ∃ e, path = lastPath dir e := by
  obtain ⟨epoch', last, best, heq⟩ := hpath
  obtain hnone | ⟨epoch'', path', last', best', heq', hlisted, -⟩ := hd
  · rw [hnone] at heq
    cases heq
  · rw [heq] at heq'
    cases heq'
    obtain ⟨e, -, hlast⟩ := hlisted.mem List.mem_cons_self
    refine ⟨?_, e, hlast⟩
    rcases h.named with hnil | hnamed
    · rw [hnil]
      exact List.not_mem_nil
    · rw [heq] at hnamed
      obtain ⟨-, hlast, -⟩ := Saved.resume.inj (Option.some.inj hnamed)
      rw [← hlast]
      exact hlisted.notMem

variable [BEq α] [LT α] [DecidableLT α]

variable (render) in
/-- The lists behind `save`. -/
theorem Ready.listed_save (h : Ready dir d m epoch) (state : Saved σ α) (score : α) :
    ∃ last, (saveBest render (m.pushLast epoch) epoch state score).1.last = lastPath dir epoch :: last ∧
      Listed dir (epoch + 1) (lastPath dir epoch :: last)
        (saveBest render (m.pushLast epoch) epoch state score).1.best := by
  obtain ⟨k, hk⟩ := Nat.exists_eq_add_of_le' h.keepLast
  obtain ⟨es, hes, hdesc, hlt⟩ := h.listed.last
  refine ⟨(es.take (k + 1)).map (lastPath dir), ?_, ⟨epoch :: es.take (k + 1), rfl, ?_, ?_⟩, ?_⟩
  · rw [(saveBest_frame _ _ _ _ _).2.2.2, ← h.saveDir, List.map_take, h.saveDir, ← hes, ← h.saveDir]
    unfold pushLast
    rw [hk]
    rfl
  · exact List.pairwise_cons.2 ⟨fun e he => hlt e (List.mem_of_mem_take he), hdesc.sublist (List.take_sublist _ _)⟩
  · intro e he
    rcases List.mem_cons.1 he with rfl | he
    · omega
    · have := hlt e (List.mem_of_mem_take he)
      omega
  · exact (saveBest_paths (m := m.pushLast epoch) h.saveDir h.listed.best state score).2

variable (render) in
/-- The operations of `save` keep the directory sound, and the new checkpoint. -/
theorem Ready.sound_save (h : Ready dir d m epoch) (hd : Sound dir d) (dicts : σ) (lossSummary : List (String × α))
    (score : α) :
    (∀ n, Sound dir (d.perform ((m.save render dicts epoch lossSummary score).2.take n))) ∧
      Present (d.perform (m.save render dicts epoch lossSummary score).2) (lastPath dir epoch) := by
  rw [CheckpointManager.save_eq]
  have hops := h.ops render (.state dicts epoch lossSummary) score
  generalize ((lastPath m.saveDir epoch :: m.last).drop m.keepLast).reverse.map .remove ++
    (saveBest render (m.pushLast epoch) epoch (.state dicts epoch lossSummary) score).2 = ops at *
  rw [h.saveDir]
  have hlast : ∀ path ∈ m.last.tail, ∃ e, e < epoch ∧ path = lastPath dir e := fun path hpath =>
    h.listed.mem (List.mem_of_mem_tail hpath)
  have hresume : ∀ op ∈ ops, op.path ≠ resumePath dir := by
    intro op hop
    rcases hops op hop with hpath | ⟨e, r, heq⟩
    · obtain ⟨e, -, heq⟩ := hlast _ hpath
      rw [heq]
      exact lastPath_ne_resumePath dir e
    · rw [heq]
      exact bestPath_ne_resumePath dir e r
  -- a last checkpoint that is not in the tail of the list is not removed
  have hkeep : ∀ e, lastPath dir e ∉ m.last.tail → ∀ op ∈ ops, Keeping dir (lastPath dir e) op := by
    intro e hnot op hop
    refine ⟨hresume op hop, fun heq => ?_⟩
    rcases hops op hop with hpath | ⟨e', r, heq'⟩
    · exact absurd (heq ▸ hpath) hnot
    · exact absurd (heq.symm.trans heq') (lastPath_ne_bestPath dir e e' r)
  constructor
  · intro n
    refine hd.perform (fun op hop => ?_) fun path hpath op hop => ?_
    · rcases List.mem_cons.1 (List.mem_of_mem_take hop) with rfl | hop
      · exact lastPath_ne_resumePath dir epoch
      · exact hresume op hop
    · obtain ⟨hnot, e, rfl⟩ := h.newest hd hpath
      rcases List.mem_cons.1 (List.mem_of_mem_take hop) with rfl | hop
      · exact ⟨lastPath_ne_resumePath dir epoch, fun _ => ⟨dicts, epoch, lossSummary, rfl⟩⟩
      · exact hkeep e hnot op hop
  · have hnew : Present ((FileOp.save (lastPath dir epoch) (.state dicts epoch lossSummary)).apply d)
        (lastPath dir epoch) := ⟨dicts, epoch, lossSummary, Function.update_self _ _ _⟩
    refine hnew.perform (hkeep epoch fun hmem => ?_)
    obtain ⟨e, hlt, heq⟩ := hlast _ hmem
    rw [lastPath_inj heq] at hlt
    omega

variable (render) in
/-- **A call of `save`.** -/
theorem Ready.save (h : Ready dir d m epoch) (hd : Sound dir d) (dicts : σ) (lossSummary : List (String × α))
    (score : α) :
    ∃ m' ops last, m.save render dicts epoch lossSummary score = (m', ops) ∧ m'.saveDir = dir ∧ 2 ≤ m'.keepLast ∧
      m'.last = lastPath dir epoch :: last ∧ Listed dir (epoch + 1) (lastPath dir epoch :: last) m'.best ∧
      (∀ n, Sound dir (d.perform (ops.take n))) ∧ Present (d.perform ops) (lastPath dir epoch) := by
  obtain ⟨last, hlast, hlisted⟩ := h.listed_save render (.state dicts epoch lossSummary) score
  obtain ⟨hdir, hkeep, -, -⟩ := saveBest_frame render (m.pushLast epoch) epoch
    (.state dicts epoch lossSummary) score
  obtain ⟨hsound, hnew⟩ := h.sound_save render hd dicts lossSummary score
  refine ⟨(m.save render dicts epoch lossSummary score).1, (m.save render dicts epoch lossSummary score).2, last, rfl,
    ?_, ?_, ?_, ?_, hsound, hnew⟩
  · rw [CheckpointManager.save_eq]
    exact hdir.trans h.saveDir
  · rw [CheckpointManager.save_eq]
    exact hkeep ▸ h.keepLast
  · rw [CheckpointManager.save_eq]
    exact hlast
  · rw [CheckpointManager.save_eq]
    exact hlisted

end Epoch

/-! ## The life of a directory -/

namespace Training

variable {dir : String} {d : Disk σ α} {p : Process σ α}

/-- A process whose remaining operations keep the directory sound, and end with `resume.pt` as the manager has it. -/
structure Safe (dir : String) (d : Disk σ α) (p : Process σ α) : Prop where
  saveDir : p.manager.saveDir = dir
  keepLast : 2 ≤ p.manager.keepLast
  listed : Listed dir p.epoch p.manager.last p.manager.best
  named : p.manager.last = [] ∨
    d.perform p.pending (resumePath dir) = some (.resume p.epoch p.manager.last p.manager.best)
  sound : ∀ n, Sound dir (d.perform (p.pending.take n))

/-- The invariant. -/
def Inv (dir : String) (s : Training σ α) : Prop := Sound dir s.disk ∧ ∀ p ∈ s.process, Safe dir s.disk p

/-- A process that has loaded `resume.pt`, or a new one. -/
theorem safe_start {m : CheckpointManager α} {epochs epoch : Int} (h : Ready dir d m epoch) (hd : Sound dir d) :
    Safe dir d ⟨m, epochs, epoch, []⟩ :=
  ⟨h.saveDir, h.keepLast, h.listed, h.named, fun n => by rw [List.take_nil]; exact hd⟩

/-- What `load_resume` reads. -/
theorem ready_loadResume {m m' : CheckpointManager α} {epoch : Int} (hdir : m.saveDir = dir) (hkeep : 2 ≤ m.keepLast)
    (hd : Sound dir d) (h : m.loadResume d = some (m', epoch)) : Ready dir d m' epoch := by
  subst hdir
  obtain hnone | ⟨epoch', path, last, best, heq, hlisted, -⟩ := hd
  · simp [loadResume, hnone] at h
  · unfold loadResume at h
    rw [heq] at h
    cases h
    exact ⟨rfl, hkeep, hlisted, .inr heq⟩

/-- A process starts new, or from what `resume.pt` names. -/
theorem inv_start {keepLast keepBest : Int} (epochs : Int) (restore : Bool) (hd : Sound dir d) (hkeep : 2 ≤ keepLast) :
    Inv dir (start dir ⟨d, none⟩ keepLast keepBest epochs restore) := by
  have hkeep' : 2 ≤ (CheckpointManager.new α dir keepLast keepBest).keepLast := by
    show 2 ≤ (max 1 keepLast).toNat
    omega
  unfold start
  dsimp only
  split
  · split
    next m epoch dicts heq =>
      refine ⟨hd, fun p hp => ?_⟩
      obtain rfl := Option.some.inj hp
      obtain ⟨⟨m', epoch'⟩, hresume, hlast⟩ := Option.bind_eq_some_iff.1 heq
      obtain ⟨dicts', -, heq'⟩ := Option.map_eq_some_iff.1 hlast
      cases heq'
      exact safe_start (ready_loadResume rfl hkeep' hd hresume) hd
    next => exact ⟨hd, nofun⟩
  · refine ⟨hd, fun p hp => ?_⟩
    obtain rfl := Option.some.inj hp
    exact safe_start ⟨rfl, hkeep', ⟨⟨[], rfl, .nil, nofun⟩, nofun⟩, .inl rfl⟩ hd

section Step

variable [BEq α] [LT α] [DecidableLT α] {render : α → String}

/-- The operations of an epoch. -/
theorem safe_trainEpoch (h : Ready dir d p.manager p.epoch) (hd : Sound dir d) (dicts : σ)
    (avgTrainLoss avgEvalLoss : α) :
    Safe dir d (trainEpoch render p dicts avgTrainLoss avgEvalLoss) := by
  obtain ⟨m, ops, last, heq, hdir, hkeep, hlast, hlisted, hops, hnew⟩ := h.save render hd dicts
    [("train_loss", avgTrainLoss), ("eval_loss", avgEvalLoss)] avgEvalLoss
  unfold trainEpoch
  simp only [heq]
  have hend : d.perform (ops ++ [m.saveResume (p.epoch + 1)]) =
      Function.update (d.perform ops) (resumePath dir) (some (.resume (p.epoch + 1) m.last m.best)) := by
    rw [Disk.perform_append, ← hdir]
    rfl
  refine ⟨hdir, hkeep, hlast ▸ hlisted, .inr ?_, fun n => ?_⟩
  · rw [hend, Function.update_self]
  · rcases Nat.lt_or_ge ops.length n with hn | hn
    · rw [List.take_of_length_le (by rw [List.length_append, List.length_singleton]; omega), hend]
      refine .inr ⟨p.epoch + 1, lastPath dir p.epoch, last, m.best, ?_, hlisted, ?_⟩
      · rw [Function.update_self, hlast]
      · unfold Present
        rw [Function.update_of_ne (lastPath_ne_resumePath dir p.epoch)]
        exact hnew
    · rw [List.take_append_of_le_length hn]
      exact hops n

/-- A process that keeps at least `keepLast` last checkpoints, and a best one, if the event starts one. -/
def KeepsLast (keepLast : Int) : TrainingEvent σ α → Prop
  | .start keepLast' keepBest _ _ => keepLast ≤ keepLast' ∧ 1 ≤ keepBest
  | _ => True

/-- A process that keeps at least two last checkpoints, if the event starts one. -/
def KeepsTwo : TrainingEvent σ α → Prop
  | .start keepLast _ _ _ => 2 ≤ keepLast
  | _ => True

theorem inv_next {s t : Training σ α} {e : TrainingEvent σ α} (hs : Inv dir s) (he : KeepsTwo e)
    (h : s.next render dir e = some t) : Inv dir t := by
  obtain ⟨hd, hprocess⟩ := hs
  cases e with
  | start keepLast keepBest epochs restore =>
    obtain ⟨d, process⟩ := s
    obtain ⟨hnone, h⟩ := Option.ite_none_right_eq_some.1 h
    obtain rfl := Option.some.inj h
    obtain rfl := Option.isNone_iff_eq_none.1 hnone
    exact inv_start epochs restore hd he
  | epoch dicts avgTrainLoss avgEvalLoss =>
    obtain ⟨d, process⟩ := s
    cases process with
    | none => cases h
    | some p =>
      obtain ⟨⟨hpending, -⟩, h⟩ := Option.ite_none_right_eq_some.1 h
      obtain rfl := Option.some.inj h
      refine ⟨hd, fun p' hp' => ?_⟩
      obtain rfl := Option.some.inj hp'
      have hsafe := hprocess p rfl
      have hnamed := hsafe.named
      rw [List.isEmpty_iff.1 hpending] at hnamed
      exact safe_trainEpoch ⟨hsafe.saveDir, hsafe.keepLast, hsafe.listed, hnamed⟩ hd dicts avgTrainLoss avgEvalLoss
  | file =>
    obtain ⟨d, process⟩ := s
    cases process with
    | none => cases h
    | some p =>
      obtain ⟨m, epochs, epoch, pending⟩ := p
      cases pending with
      | nil => cases h
      | cons op ops =>
        obtain rfl := Option.some.inj h
        have hsafe := hprocess _ rfl
        refine ⟨hsafe.sound 1, fun p' hp' => ?_⟩
        obtain rfl := Option.some.inj hp'
        exact ⟨hsafe.saveDir, hsafe.keepLast, hsafe.listed, hsafe.named, fun n => hsafe.sound (n + 1)⟩
  | crash =>
    obtain ⟨-, h⟩ := Option.ite_none_right_eq_some.1 h
    obtain rfl := Option.some.inj h
    exact ⟨hd, nofun⟩

/-- **Processes with two last checkpoints.** -/
theorem resumable_execute {es : List (TrainingEvent σ α)} {s : Training σ α} (hes : ∀ e ∈ es, KeepsTwo e)
    (h : execute (next render dir) (new σ α) es = some s) : Resumable dir s.disk := by
  have hnew : Inv dir (new σ α) := ⟨.inl rfl, fun p hp => by cases hp⟩
  exact (execute_inv_along (fun _ _ _ => inv_next) hnew (along_of_forall hes) h).1.resumable

/-! ## One last checkpoint -/

variable (render dir d) in
/-- The first of the pending operations are done. -/
theorem execute_files {ops ops' : List (FileOp σ α)} (h : p.pending = ops ++ ops') :
    execute (next render dir) ⟨d, some p⟩ (List.replicate ops.length .file) =
      some ⟨d.perform ops, some { p with pending := ops' }⟩ := by
  induction ops generalizing d p with
  | nil =>
    obtain ⟨m, epochs, epoch, pending⟩ := p
    obtain rfl : pending = ops' := h
    rfl
  | cons op ops ih =>
    obtain ⟨m, epochs, epoch, pending⟩ := p
    obtain rfl : pending = op :: (ops ++ ops') := h
    rw [List.length_cons, List.replicate_succ, execute_cons]
    exact ih _ rfl

variable (render p) in
/-- With one last checkpoint, the next save removes it. -/
theorem trainEpoch_one (h : p.manager.keepLast = 1) (dicts : σ) (avgTrainLoss avgEvalLoss : α) :
    (trainEpoch render p dicts avgTrainLoss avgEvalLoss).manager.keepLast = 1 ∧
      (trainEpoch render p dicts avgTrainLoss avgEvalLoss).manager.saveDir = p.manager.saveDir ∧
      (trainEpoch render p dicts avgTrainLoss avgEvalLoss).manager.last = [lastPath p.manager.saveDir p.epoch] ∧
      ∃ state ops, (trainEpoch render p dicts avgTrainLoss avgEvalLoss).pending =
        .save (lastPath p.manager.saveDir p.epoch) state :: (p.manager.last.reverse.map .remove ++ ops) ++
          [(trainEpoch render p dicts avgTrainLoss avgEvalLoss).manager.saveResume (p.epoch + 1)] := by
  unfold trainEpoch
  simp only [CheckpointManager.save_eq]
  obtain ⟨hdir, hkeep, -, hlast⟩ := saveBest_frame render (p.manager.pushLast p.epoch) p.epoch
    (.state dicts p.epoch [("train_loss", avgTrainLoss), ("eval_loss", avgEvalLoss)]) avgEvalLoss
  let state : Saved σ α := .state dicts p.epoch [("train_loss", avgTrainLoss), ("eval_loss", avgEvalLoss)]
  refine ⟨hkeep.trans h, hdir, hlast.trans ?_, state,
    (saveBest render (p.manager.pushLast p.epoch) p.epoch state avgEvalLoss).2, ?_⟩
  · unfold pushLast
    rw [h]
    rfl
  · rw [h]
    rfl

variable (render dir) in
/-- The first epoch of a process that keeps one last checkpoint, with all its files written. -/
theorem first_epoch {keepLast : Int} (h : keepLast < 2) (dicts : σ) (loss : α) :
    ∃ es d p, (∀ e ∈ es, KeepsLast keepLast e) ∧ execute (next render dir) (new σ α) es = some ⟨d, some p⟩ ∧
      (p.pending = [] ∧ p.epoch = 2 ∧ p.epochs = 2) ∧ p.manager.keepLast = 1 ∧ p.manager.saveDir = dir ∧
      p.manager.last = [lastPath dir 1] ∧ d (resumePath dir) = some (.resume 2 [lastPath dir 1] p.manager.best) := by
  have hkeep : (CheckpointManager.new α dir keepLast 3).keepLast = 1 := by
    show (max 1 keepLast).toNat = 1
    omega
  obtain ⟨hkeep', hdir, hlast, state, ops, hpending⟩ := trainEpoch_one
    ⟨.new α dir keepLast 3, 2, 1, []⟩ render hkeep dicts loss loss
  have hstart : execute (next render dir) (new σ α) [.start keepLast 3 2 false, .epoch dicts loss loss] =
      some ⟨fun _ => none, some (trainEpoch render ⟨.new α dir keepLast 3, 2, 1, []⟩ dicts loss loss)⟩ := rfl
  have hepoch : (trainEpoch render (⟨.new α dir keepLast 3, 2, 1, []⟩ : Process σ α) dicts loss loss).epoch = 2 ∧
      (trainEpoch render (⟨.new α dir keepLast 3, 2, 1, []⟩ : Process σ α) dicts loss loss).epochs = 2 := ⟨rfl, rfl⟩
  generalize trainEpoch render (⟨.new α dir keepLast 3, 2, 1, []⟩ : Process σ α) dicts loss loss = p at *
  have hlast' : p.manager.last = [lastPath dir 1] := hlast
  have hsaved := execute_files dir (fun _ => none) render (List.append_nil p.pending).symm
  refine ⟨_, _, _, ?_, execute_trans hstart hsaved, ⟨rfl, hepoch⟩, hkeep', hdir, hlast', ?_⟩
  · intro e he
    simp only [List.mem_append, List.mem_cons, List.mem_replicate, List.not_mem_nil, or_false] at he
    rcases he with (rfl | rfl) | ⟨-, rfl⟩
    · exact ⟨le_rfl, by decide⟩
    · trivial
    · trivial
  · rw [hpending, Disk.perform_append, ← hlast', show resumePath dir = resumePath p.manager.saveDir from hdir ▸ rfl]
    exact Function.update_self _ _ _

variable (render dir) in
/-- A process that keeps one last checkpoint can crash after it was removed, before `resume.pt` is written. -/
theorem crashing_run {keepLast : Int} (h : keepLast < 2) (dicts : σ) (loss : α) :
    ∃ es s, (∀ e ∈ es, KeepsLast keepLast e) ∧ execute (next render dir) (new σ α) es = some s ∧
      ¬ Resumable dir s.disk := by
  obtain ⟨es, d, p, hes, hrun, ⟨hdone, hepoch⟩, hkeep, hdir, hlast, hresume⟩ := first_epoch dir render h dicts loss
  obtain ⟨-, -, -, state, ops, hpending⟩ := trainEpoch_one p render hkeep dicts loss loss
  have hsecond : next render dir ⟨d, some p⟩ (.epoch dicts loss loss) =
      some ⟨d, some (trainEpoch render p dicts loss loss)⟩ :=
    if_pos ⟨List.isEmpty_iff.2 hdone, by rw [hepoch.1, hepoch.2]⟩
  have hsplit : (trainEpoch render p dicts loss loss).pending =
      [.save (lastPath p.manager.saveDir p.epoch) state, .remove (lastPath dir 1)] ++
        (ops ++ [(trainEpoch render p dicts loss loss).manager.saveResume (p.epoch + 1)]) := by
    rw [hpending, hlast]
    rfl
  have hcrash := execute_files dir d render hsplit
  refine ⟨_, _, ?_, execute_trans (execute_snoc hrun hsecond) hcrash, ?_⟩
  · intro e he
    simp only [List.mem_append, List.mem_singleton, List.mem_replicate] at he
    rcases he with (he | rfl) | ⟨-, rfl⟩
    · exact hes e he
    · trivial
    · trivial
  · -- the old checkpoint is gone, and `resume.pt` still names it
    have hkept : Disk.perform d [.save (lastPath p.manager.saveDir p.epoch) state, .remove (lastPath dir 1)]
        (resumePath dir) = some (.resume 2 [lastPath dir 1] p.manager.best) := by
      refine (perform_resumePath fun op hop => ?_).trans hresume
      rcases List.mem_cons.1 hop with rfl | hop
      · rw [hdir]
        exact lastPath_ne_resumePath dir p.epoch
      · obtain rfl := List.mem_singleton.1 hop
        exact lastPath_ne_resumePath dir 1
    exact not_resumable_of hkept (Function.update_self _ _ _)

/-- **A training can be resumed** after a crash between any two file operations of any run, exactly if its processes keep
at least two last checkpoints. -/
theorem resumable_iff [Inhabited σ] [Inhabited α] (keepLast : Int) :
    (∀ es s, (∀ e ∈ es, KeepsLast keepLast e) → execute (next render dir) (new σ α) es = some s →
      Resumable dir s.disk) ↔ 2 ≤ keepLast := by
  constructor
  · intro hall
    by_contra hlt
    obtain ⟨es, s, hes, hs, hnot⟩ := crashing_run dir render (not_le.1 hlt) (default : σ) (default : α)
    exact hnot (hall es s hes hs)
  · intro hkeep es s hes hs
    refine resumable_execute (fun e he => ?_) hs
    cases e with
    | start keepLast' keepBest epochs restore => exact hkeep.trans (hes _ he).1
    | epoch dicts avgTrainLoss avgEvalLoss => trivial
    | file => trivial
    | crash => trivial

theorem not_resumable : ¬ ∀ es s, (∀ e ∈ es, KeepsLast 1 e) →
    execute (next (fun _ : ℚ => "") "checkpoints") (new Unit ℚ) es = some s → Resumable "checkpoints" s.disk := by
  intro hall
  obtain ⟨es, s, hes, hs, hnot⟩ := crashing_run "checkpoints" (fun _ => "") (show (1 : Int) < 2 by decide) () (0 : ℚ)
  exact hnot (hall es s hes hs)

end Step

end Training

end Bajiru.NnModel
