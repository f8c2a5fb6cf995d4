import Mathlib
import Bajiru.BinaryHeap

/-!
# `CheckpointManager`

The checkpoints of a training run: the last ones, newest first, and the best ones, in a heap of pairs `(-score, path)`
with the worst at its root. A method gives its file operations in order, each of which is atomic; they act on a `Disk`.
Scores are of any type with the comparisons that the code makes. `render` is the format `{score:.6f}`, and `σ` are the
state dicts of the model and the optimizer.
-/

namespace Bajiru.NnModel

/-! ## Files -/

/-- `os.path.join(dir, name)`. -/
def join (dir name : String) : String :=
  if dir = "" ∨ dir.endsWith "/" = true then dir ++ name else dir ++ "/" ++ name

/-- The tuple `(-score, path)`. -/
structure Entry (α : Type*) where
  score : α
  path : String

/-- The order of the tuples: a larger score comes first, and the path decides between equal scores. -/
def Entry.lt {α : Type*} [BEq α] [LT α] [DecidableLT α] (a b : Entry α) : Bool :=
  if a.score == b.score then a.path < b.path else b.score < a.score

/-- What `torch.save` writes: the state of the training, or the index of the checkpoints. -/
inductive Saved (σ α : Type*)
  | state (dicts : σ) (epoch : Int) (lossSummary : List (String × α))
  | resume (epoch : Int) (lastCheckpoints : List String) (bestCheckpoints : Array (Entry α))

/-- The files by their paths. -/
abbrev Disk (σ α : Type*) := String → Option (Saved σ α)

/-- `torch.save(content, path)`, or `os.remove(path)` behind `os.path.exists(path)`. -/
inductive FileOp (σ α : Type*)
  | save (path : String) (content : Saved σ α)
  | remove (path : String)

namespace FileOp

variable {σ α : Type*}

def path : FileOp σ α → String
  | .save path _ => path
  | .remove path => path

def content : FileOp σ α → Option (Saved σ α)
  | .save _ content => some content
  | .remove _ => none

/-- The disk behind the operation. -/
def apply (d : Disk σ α) (op : FileOp σ α) : Disk σ α := Function.update d op.path op.content

end FileOp

/-- The disk behind a list of operations. -/
def Disk.perform {σ α : Type*} (d : Disk σ α) (ops : List (FileOp σ α)) : Disk σ α := ops.foldl FileOp.apply d

/-! ## The manager -/

structure CheckpointManager (α : Type*) where
  saveDir : String
  keepLast : Nat
  keepBest : Nat
  last : List String
  best : Array (Entry α)
  /-- `max(1, keep_best)` -/
  keepBest_pos : 0 < keepBest

namespace CheckpointManager

variable {σ α : Type*}

/-- `CheckpointManager(model, optimizer, save_dir, keep_last, keep_best)`. -/
def new (α : Type*) (saveDir : String) (keepLast keepBest : Int) : CheckpointManager α where
  saveDir := saveDir
  keepLast := (max 1 keepLast).toNat
  keepBest := (max 1 keepBest).toNat
  last := []
  best := #[]
  keepBest_pos := by omega

def lastPath (saveDir : String) (epoch : Int) : String := join saveDir ("last_ep" ++ toString epoch ++ ".pt")

/-- The path of a best checkpoint, with the score as it is rendered. -/
def bestPath (saveDir : String) (epoch : Int) (score : String) : String :=
  join saveDir ("best_ep" ++ toString epoch ++ "_s" ++ score ++ ".pt")

def resumePath (saveDir : String) : String := join saveDir "resume.pt"

/-- The loop `while len(self.last) > self.keep_last`: the paths that stay, and the removals. -/
def evict (keepLast : Nat) (last : List String) : List String × List (FileOp σ α) :=
  if h : keepLast < last.length then
    let old := last.getLast (List.ne_nil_of_length_pos (by omega))
    let (kept, removals) := evict keepLast last.dropLast
    (kept, .remove old :: removals)
  else (last, [])
termination_by last.length
decreasing_by
  rw [List.length_dropLast]
  omega

variable [BEq α] [LT α] [DecidableLT α] (render : α → String)

/-- `save_best(epoch, state, score)`. -/
def saveBest (m : CheckpointManager α) (epoch : Int) (state : Saved σ α) (score : α) :
    CheckpointManager α × List (FileOp σ α) :=
  let path := bestPath m.saveDir epoch (render score)
  if h : m.best.size < m.keepBest then
    ({ m with best := BinaryHeap.heappush Entry.lt m.best ⟨score, path⟩ }, [.save path state])
  else
    have hpos : 0 < m.best.size := by have := m.keepBest_pos; omega
    let worst := m.best[0]
    if score < worst.score then
      ({ m with best := BinaryHeap.heapreplace Entry.lt m.best ⟨score, path⟩ hpos },
        [.save path state, .remove worst.path])
    else (m, [])

/-- `save(epoch, loss_summary, score)`, with the state dicts of that moment. -/
def save (m : CheckpointManager α) (dicts : σ) (epoch : Int) (lossSummary : List (String × α)) (score : α) :
    CheckpointManager α × List (FileOp σ α) :=
  let state : Saved σ α := .state dicts epoch lossSummary
  let path := lastPath m.saveDir epoch
  let (last, removals) := evict m.keepLast (path :: m.last)
  let (m, ops) := saveBest render { m with last := last } epoch state score
  (m, .save path state :: (removals ++ ops))

omit [BEq α] [LT α] [DecidableLT α]

/-- `save_resume(epoch)`. -/
def saveResume (m : CheckpointManager α) (epoch : Int) : FileOp σ α :=
  .save (resumePath m.saveDir) (.resume epoch m.last m.best)

/-- `load_resume()`: the manager with the lists of the file, and the epoch of the file. -/
def loadResume (m : CheckpointManager α) (d : Disk σ α) : Option (CheckpointManager α × Int) :=
  match d (resumePath m.saveDir) with
  | some (.resume epoch last best) => some ({ m with last := last, best := best }, epoch)
  | _ => none

/-- `load(path)`: the state dicts, which the model and the optimizer take over. -/
def load (path : String) (d : Disk σ α) : Option σ :=
  match d path with
  | some (.state dicts _ _) => some dicts
  | _ => none

/-- `load_last()`: nothing is loaded if there is no last checkpoint. -/
def loadLast (m : CheckpointManager α) (d : Disk σ α) : Option (Option σ) :=
  match m.last with
  | [] => some none
  | path :: _ => (load path d).map some

/-! ## The paths -/

theorem isDigit_of_mem_repr {n : Nat} {c : Char} (h : c ∈ n.repr.toList) : c.isDigit = true := by
  rw [Nat.toList_repr] at h
  exact Nat.isDigit_of_mem_toDigits (by decide) (by decide) h

theorem underscore_notMem (e : Int) : '_' ∉ (toString e).toList := by
  intro h
  rw [Int.toString_eq_repr, Int.repr_eq_if] at h
  split at h
  · exact absurd (isDigit_of_mem_repr h) (by decide)
  · rw [String.toList_append] at h
    rcases List.mem_append.1 h with h | h
    · exact absurd h (by decide)
    · exact absurd (isDigit_of_mem_repr h) (by decide)

theorem join_inj {dir a b : String} (h : join dir a = join dir b) : a = b := by
  unfold join at h
  split at h
  · exact (String.append_right_inj dir).1 h
  · exact (String.append_right_inj _).1 h

theorem lastPath_inj {dir : String} {e e' : Int} (h : lastPath dir e = lastPath dir e') : e = e' := by
  have hname := join_inj h
  rw [String.append_left_inj, String.append_right_inj] at hname
  exact Int.repr_injective hname

/-- The epoch ends at the first underscore behind it. -/
theorem bestPath_inj {dir : String} {e e' : Int} {r r' : String} (h : bestPath dir e r = bestPath dir e' r') :
    e = e' := by
  have hname := join_inj h
  rw [String.append_left_inj] at hname
  have hlist : ∀ (e : Int) (r : String), ("best_ep" ++ toString e ++ "_s" ++ r).toList =
      "best_ep".toList ++ ((toString e).toList ++ '_' :: 's' :: r.toList) := by
    intro e r
    simp [String.toList_append]
  have hchars := congrArg String.toList hname
  rw [hlist, hlist, List.append_cancel_left_eq] at hchars
  have hepoch : ∀ (e : Int) (l : List Char),
      ((toString e).toList ++ '_' :: l).takeWhile (· ≠ '_') = (toString e).toList := by
    intro e l
    rw [List.takeWhile_append_of_pos, List.takeWhile_cons_of_neg (by decide), List.append_nil]
    intro c hc
    exact decide_eq_true fun heq => underscore_notMem e (heq ▸ hc)
  have htake := congrArg (List.takeWhile (· ≠ '_')) hchars
  rw [hepoch, hepoch] at htake
  exact Int.repr_injective (String.toList_inj.1 htake)

/-- Names with different first letters are different paths. -/
theorem join_ne {dir a b : String} (h : a.toList.head? ≠ b.toList.head?) : join dir a ≠ join dir b :=
  fun heq => h (by rw [join_inj heq])

theorem lastPath_ne_bestPath (dir : String) (e e' : Int) (r : String) : lastPath dir e ≠ bestPath dir e' r :=
  join_ne (by simp [String.toList_append])

theorem lastPath_ne_resumePath (dir : String) (e : Int) : lastPath dir e ≠ resumePath dir :=
  join_ne (by simp [String.toList_append])

theorem bestPath_ne_resumePath (dir : String) (e : Int) (r : String) : bestPath dir e r ≠ resumePath dir :=
  join_ne (by simp [String.toList_append])

end CheckpointManager

/-! ## Operations on files -/

variable {σ α : Type*}

namespace Disk

variable {d : Disk σ α}

theorem perform_cons (op : FileOp σ α) (ops : List (FileOp σ α)) : d.perform (op :: ops) = (op.apply d).perform ops := rfl

theorem perform_append (ops ops' : List (FileOp σ α)) : d.perform (ops ++ ops') = (d.perform ops).perform ops' :=
  List.foldl_append

theorem apply_save {path p : String} {content : Saved σ α} :
    ((FileOp.save path content).apply d p).isSome = true ↔ p = path ∨ (d p).isSome = true := by
  unfold FileOp.apply
  by_cases h : p = path
  · subst h
    simp [FileOp.path, FileOp.content]
  · simp [FileOp.path, h]

theorem apply_remove {path p : String} :
    ((FileOp.remove path).apply d p).isSome = true ↔ p ≠ path ∧ (d p).isSome = true := by
  unfold FileOp.apply
  by_cases h : p = path
  · subst h
    simp [FileOp.path, FileOp.content]
  · simp [FileOp.path, h]

theorem perform_removals {paths : List String} {p : String} :
    (d.perform (paths.map .remove) p).isSome = true ↔ p ∉ paths ∧ (d p).isSome = true := by
  induction paths generalizing d with
  | nil => simp [perform]
  | cons path paths ih =>
    rw [List.map_cons, perform_cons, ih, apply_remove, List.mem_cons, not_or, ← and_assoc, and_comm (a := p ∉ paths)]

end Disk

namespace CheckpointManager

/-! ## What a save does -/

theorem evict_eq (keepLast : Nat) (last : List String) : evict (σ := σ) (α := α) keepLast last =
    (last.take keepLast, (last.drop keepLast).reverse.map .remove) := by
  induction last using List.reverseRecOn with
  | nil =>
    unfold evict
    simp
  | append_singleton last old ih =>
    unfold evict
    split
    next h =>
      have hle : keepLast ≤ last.length := by
        rw [List.length_append, List.length_singleton] at h
        omega
      simp only [List.dropLast_concat, List.getLast_append_singleton, ih]
      rw [List.take_append_of_le_length hle, List.drop_append_of_le_length hle, List.reverse_append,
        List.reverse_singleton, List.singleton_append, List.map_cons]
    next h =>
      rw [List.take_of_length_le (not_lt.1 h), List.drop_of_length_le (not_lt.1 h)]
      rfl

/-- The manager behind its last list. -/
def pushLast (m : CheckpointManager α) (epoch : Int) : CheckpointManager α :=
  { m with last := (lastPath m.saveDir epoch :: m.last).take m.keepLast }

section Save

variable [BEq α] [LT α] [DecidableLT α] (render : α → String) (m : CheckpointManager α) (epoch : Int)
  (state : Saved σ α) (score : α)

/-- A best checkpoint is added, replaces the worst one, or is not saved. -/
theorem saveBest_cases : (m.best.size < m.keepBest ∧ saveBest render m epoch state score =
      ({ m with best := BinaryHeap.heappush Entry.lt m.best ⟨score, bestPath m.saveDir epoch (render score)⟩ },
        [.save (bestPath m.saveDir epoch (render score)) state])) ∨
    (∃ h : 0 < m.best.size, m.keepBest ≤ m.best.size ∧ score < m.best[0].score ∧ saveBest render m epoch state score =
      ({ m with best := BinaryHeap.heapreplace Entry.lt m.best ⟨score, bestPath m.saveDir epoch (render score)⟩ h },
        [.save (bestPath m.saveDir epoch (render score)) state, .remove m.best[0].path])) ∨
    ∃ h : 0 < m.best.size, m.keepBest ≤ m.best.size ∧ ¬ score < m.best[0].score ∧
      saveBest render m epoch state score = (m, []) := by
  unfold saveBest
  dsimp only
  split
  next h => exact .inl ⟨h, rfl⟩
  next h =>
    have hpos : 0 < m.best.size := by
      have := m.keepBest_pos
      omega
    split
    next hscore => exact .inr (.inl ⟨hpos, by omega, hscore, rfl⟩)
    next hscore => exact .inr (.inr ⟨hpos, by omega, hscore, rfl⟩)

/-- `save_best` only changes the heap. -/
theorem saveBest_frame : (saveBest render m epoch state score).1.saveDir = m.saveDir ∧
    (saveBest render m epoch state score).1.keepLast = m.keepLast ∧
    (saveBest render m epoch state score).1.keepBest = m.keepBest ∧
    (saveBest render m epoch state score).1.last = m.last := by
  rcases saveBest_cases render m epoch state score with
    ⟨-, heq⟩ | ⟨_, -, -, heq⟩ | ⟨_, -, -, heq⟩
  · rw [heq]
    exact ⟨rfl, rfl, rfl, rfl⟩
  · rw [heq]
    exact ⟨rfl, rfl, rfl, rfl⟩
  · rw [heq]
    exact ⟨rfl, rfl, rfl, rfl⟩

variable {render m epoch score}

theorem save_eq (dicts : σ) (lossSummary : List (String × α)) : m.save render dicts epoch lossSummary score =
    ((saveBest render (m.pushLast epoch) epoch (.state dicts epoch lossSummary) score).1,
      .save (lastPath m.saveDir epoch) (.state dicts epoch lossSummary) ::
        (((lastPath m.saveDir epoch :: m.last).drop m.keepLast).reverse.map .remove ++
          (saveBest render (m.pushLast epoch) epoch (.state dicts epoch lossSummary) score).2)) := by
  unfold save pushLast
  simp only [evict_eq]

end Save

/-- `save_resume` and `load_resume` of a manager with the same settings. -/
theorem loadResume_saveResume {m m' : CheckpointManager α} (d : Disk σ α) (epoch : Int) (hdir : m.saveDir = m'.saveDir)
    (hlast : m.keepLast = m'.keepLast) (hbest : m.keepBest = m'.keepBest) :
    m'.loadResume ((m.saveResume epoch).apply d) = some (m, epoch) := by
  obtain ⟨dir, keepLast, keepBest, last, best, hpos⟩ := m
  obtain ⟨dir', keepLast', keepBest', last', best', hpos'⟩ := m'
  obtain rfl : dir = dir' := hdir
  obtain rfl : keepLast = keepLast' := hlast
  obtain rfl : keepBest = keepBest' := hbest
  simp [loadResume, saveResume, FileOp.apply, FileOp.path, FileOp.content]

end CheckpointManager

end Bajiru.NnModel
