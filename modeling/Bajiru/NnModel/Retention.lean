import Bajiru.NnModel.CheckpointManager
import Bajiru.Smallest

/-!
# Which checkpoints are kept

After any calls of `save` with distinct epochs the manager lists the last checkpoints, and those with the smallest losses
in its heap, and the directory holds the files of both lists and no others (`Retained`, `retention`).
-/

namespace Bajiru.NnModel

variable {σ α : Type*}

/-! ## The order of the heap -/

theorem Entry.lt_iff [LinearOrder α] {a b : Entry α} :
    a.lt b = true ↔ b.score < a.score ∨ a.score = b.score ∧ a.path < b.path := by
  unfold Entry.lt
  split
  next h =>
    rw [beq_iff_eq] at h
    simp [h]
  next h =>
    rw [beq_iff_eq] at h
    simp [h]

theorem Entry.strict [LinearOrder α] : BinaryHeap.Strict (Entry.lt (α := α)) where
  asymm {a b} h := by
    rw [Entry.lt_iff] at h
    rw [Bool.eq_false_iff, ne_eq, Entry.lt_iff]
    rintro (h' | ⟨heq, hpath⟩)
    · rcases h with h | ⟨heq, -⟩
      · exact lt_asymm h h'
      · exact h'.ne heq
    · rcases h with h | ⟨-, hpath'⟩
      · exact h.ne heq
      · exact lt_asymm hpath hpath'
  trans {a b c} hab hbc := by
    rw [Bool.eq_false_iff, ne_eq, Entry.lt_iff, not_or, not_and, not_lt, not_lt] at hab hbc ⊢
    refine ⟨hbc.1.trans hab.1, fun heq => ?_⟩
    have hba : b.score = a.score := le_antisymm hab.1 (heq ▸ hbc.1)
    exact (hab.2 hba).trans (hbc.2 (heq.trans hba.symm))

open CheckpointManager

/-! ## Calls of `save` -/

/-- The manager and its directory. -/
structure Store (σ α : Type*) where
  manager : CheckpointManager α
  disk : Disk σ α

/-- The arguments of a call, with the state dicts of that moment. -/
structure SaveCall (σ α : Type*) where
  dicts : σ
  epoch : Int
  lossSummary : List (String × α)
  score : α

variable (render : α → String)

/-- The entry of a call in the heap. -/
def SaveCall.entry (dir : String) (c : SaveCall σ α) : Entry α := ⟨c.score, bestPath dir c.epoch (render c.score)⟩

variable {render} {dir : String} {cs : List (SaveCall σ α)}

/-- The entries of calls with distinct epochs have distinct paths. -/
theorem SaveCall.paths_nodup (h : (cs.map SaveCall.epoch).Nodup) :
    ((cs.map (SaveCall.entry render dir)).map Entry.path).Nodup := by
  rw [List.map_map, List.nodup_map_iff_inj_on (List.Nodup.of_map _ h)]
  exact fun c hc c' hc' heq => List.inj_on_of_nodup_map h hc hc' (bestPath_inj heq)

variable (dir) in
theorem SaveCall.lastPaths_nodup (h : (cs.map SaveCall.epoch).Nodup) : (cs.map fun c => lastPath dir c.epoch).Nodup := by
  rw [List.nodup_map_iff_inj_on (List.Nodup.of_map _ h)]
  exact fun c hc c' hc' heq => List.inj_on_of_nodup_map h hc hc' (lastPath_inj heq)

/-- The entries of a call more. -/
theorem SaveCall.perm_entries {c : SaveCall σ α} {kept kept' left left' : List (Entry α)}
    (h : (kept ++ left).Perm (cs.map (SaveCall.entry render dir)))
    (h' : (kept' ++ left').Perm (c.entry render dir :: (kept ++ left))) :
    (kept' ++ left').Perm ((cs ++ [c]).map (SaveCall.entry render dir)) := by
  rw [List.map_append]
  exact h'.trans ((h.cons _).trans (List.perm_append_singleton _ _).symm)

theorem Entry.coe_scores {l : List (Entry α)} {x : Entry α} {l' : List (Entry α)} (h : l.Perm (x :: l')) :
    (l.map Entry.score : Multiset α) = x.score ::ₘ (l'.map Entry.score : Multiset α) :=
  Multiset.coe_eq_coe.2 (h.map Entry.score)

theorem Entry.mem_paths {l : List (Entry α)} {x : Entry α} {l' : List (Entry α)} (h : l.Perm (x :: l')) {p : String} :
    p ∈ l.map Entry.path ↔ p = x.path ∨ p ∈ l'.map Entry.path := by
  rw [(h.map Entry.path).mem_iff, List.map_cons, List.mem_cons]

variable (render)

namespace Store

/-- A new manager for an empty directory. -/
def new (σ α : Type*) (saveDir : String) (keepLast keepBest : Int) : Store σ α where
  manager := .new α saveDir keepLast keepBest
  disk := fun _ => none

variable [LinearOrder α]

def save (s : Store σ α) (c : SaveCall σ α) : Store σ α where
  manager := (s.manager.save render c.dicts c.epoch c.lossSummary c.score).1
  disk := s.disk.perform (s.manager.save render c.dicts c.epoch c.lossSummary c.score).2

def saves (s : Store σ α) (cs : List (SaveCall σ α)) : Store σ α := cs.foldl (save render) s

/-- What the manager holds after the calls `cs`. -/
structure Retained (dir : String) (cs : List (SaveCall σ α)) (s : Store σ α) : Prop where
  saveDir : s.manager.saveDir = dir
  last : s.manager.last = ((cs.map fun c => lastPath dir c.epoch).reverse).take s.manager.keepLast
  heap : BinaryHeap.IsHeap Entry.lt s.manager.best
  best : ∃ left : List (Entry α), (s.manager.best.toList ++ left).Perm (cs.map (SaveCall.entry render dir)) ∧
    Keeps s.manager.keepBest (s.manager.best.toList.map Entry.score : Multiset α) (left.map Entry.score : Multiset α)
  disk : ∀ p, (s.disk p).isSome = true ↔ p ∈ s.manager.last ∨ p ∈ s.manager.best.toList.map Entry.path

variable {render} {s : Store σ α} {c : SaveCall σ α}

theorem retained_new (keepLast keepBest : Int) : Retained render dir [] (new σ α dir keepLast keepBest) where
  saveDir := rfl
  last := by simp [new, CheckpointManager.new]
  heap i hi _ h := absurd h (Nat.not_lt_zero i)
  best := ⟨[], .refl _, Keeps.empty _⟩
  disk p := by simp [new, CheckpointManager.new]

/-- The files of the heap are none of the last checkpoints. -/
theorem Retained.best_path (h : Retained render dir cs s) {p : String}
    (hp : p ∈ s.manager.best.toList.map Entry.path) : ∃ c ∈ cs, p = bestPath dir c.epoch (render c.score) := by
  obtain ⟨left, hperm, -⟩ := h.best
  obtain ⟨x, hx, rfl⟩ := List.mem_map.1 hp
  obtain ⟨c, hc, rfl⟩ := List.mem_map.1 (hperm.subset (List.mem_append_left left hx))
  exact ⟨c, hc, rfl⟩

/-- The list of the last checkpoints, to which one is added. -/
theorem Retained.pushLast (h : Retained render dir cs s) :
    (s.manager.pushLast c.epoch).last =
      (((cs ++ [c]).map fun c => lastPath dir c.epoch).reverse).take s.manager.keepLast := by
  unfold CheckpointManager.pushLast
  rw [h.last, h.saveDir, List.map_append, List.reverse_append]
  cases s.manager.keepLast with
  | zero => rfl
  | succ k =>
    rw [List.take_succ_cons, List.take_take, Nat.min_eq_left (Nat.le_succ k)]
    rfl

theorem Retained.last_path (h : Retained render dir cs s) {p : String}
    (hp : p ∈ lastPath dir c.epoch :: s.manager.last) : ∃ e, p = lastPath dir e := by
  rcases List.mem_cons.1 hp with rfl | hp
  · exact ⟨_, rfl⟩
  · rw [h.last] at hp
    obtain ⟨c', -, rfl⟩ := List.mem_map.1 (List.mem_reverse.1 (List.mem_of_mem_take hp))
    exact ⟨_, rfl⟩

/-- The paths behind a call of the last checkpoints are different. -/
theorem Retained.last_nodup (h : Retained render dir cs s) (hnodup : ((cs ++ [c]).map SaveCall.epoch).Nodup) :
    (lastPath dir c.epoch :: s.manager.last).Nodup := by
  have hpaths := List.nodup_reverse.2 (SaveCall.lastPaths_nodup dir hnodup)
  rw [List.map_append, List.reverse_append] at hpaths
  refine hpaths.sublist (List.Sublist.cons_cons (lastPath dir c.epoch) ?_)
  rw [h.last]
  exact List.take_sublist _ _

/-- The disk behind the operations on the last checkpoints. -/
def pushDisk (s : Store σ α) (c : SaveCall σ α) : Disk σ α :=
  s.disk.perform (.save (lastPath s.manager.saveDir c.epoch) (.state c.dicts c.epoch c.lossSummary) ::
    ((lastPath s.manager.saveDir c.epoch :: s.manager.last).drop s.manager.keepLast).reverse.map .remove)

theorem Retained.disk_pushLast (h : Retained render dir cs s) (hnodup : ((cs ++ [c]).map SaveCall.epoch).Nodup)
    (p : String) : (s.pushDisk c p).isSome = true ↔
      p ∈ (s.manager.pushLast c.epoch).last ∨ p ∈ s.manager.best.toList.map Entry.path := by
  have hpaths := h.last_nodup hnodup
  have hbest : p ∈ s.manager.best.toList.map Entry.path → p ∉ lastPath dir c.epoch :: s.manager.last := by
    intro hbest hlast
    obtain ⟨c', -, rfl⟩ := h.best_path hbest
    obtain ⟨e, heq⟩ := h.last_path hlast
    exact lastPath_ne_bestPath dir e _ _ heq.symm
  have hlast : (s.manager.pushLast c.epoch).last = (lastPath dir c.epoch :: s.manager.last).take s.manager.keepLast := by
    rw [← h.saveDir]
    rfl
  unfold pushDisk
  rw [h.saveDir, Disk.perform_cons, Disk.perform_removals, Disk.apply_save, List.mem_reverse, h.disk, hlast, ← or_assoc,
    ← List.mem_cons]
  generalize lastPath dir c.epoch :: s.manager.last = paths at *
  rw [← List.take_append_drop s.manager.keepLast paths, List.nodup_append] at hpaths
  have hmem : p ∈ paths ↔ p ∈ paths.take s.manager.keepLast ∨ p ∈ paths.drop s.manager.keepLast := by
    rw [← List.mem_append, List.take_append_drop]
  constructor
  · rintro ⟨hdrop, hp | hp⟩
    · exact .inl ((hmem.1 hp).resolve_right hdrop)
    · exact .inr hp
  · rintro (hp | hp)
    · exact ⟨fun hdrop => hpaths.2.2 p hp p hdrop rfl, .inl (hmem.2 (.inl hp))⟩
    · exact ⟨fun hdrop => hbest hp (hmem.2 (.inr hdrop)), .inr hp⟩

/-- No entry has a larger loss than the root. -/
theorem Retained.le_root (h : Retained render dir cs s) (hsize : 0 < s.manager.best.size) {y : α}
    (hy : y ∈ s.manager.best.toList.map Entry.score) : y ≤ s.manager.best[0].score := by
  obtain ⟨x, hx, rfl⟩ := List.mem_map.1 hy
  obtain ⟨i, hi, rfl⟩ := List.mem_iff_getElem.1 hx
  have hroot := h.heap.root Entry.strict i hsize (by simpa using hi)
  rw [Bool.eq_false_iff, ne_eq, Entry.lt_iff, not_or, not_lt] at hroot
  simpa using hroot.1

theorem save_eq : s.save render c =
    ⟨(saveBest render (s.manager.pushLast c.epoch) c.epoch (.state c.dicts c.epoch c.lossSummary : Saved σ α) c.score).1,
      (s.pushDisk c).perform (saveBest render (s.manager.pushLast c.epoch) c.epoch
        (.state c.dicts c.epoch c.lossSummary) c.score).2⟩ := by
  unfold save pushDisk
  rw [CheckpointManager.save_eq, ← Disk.perform_append]
  rfl

/-- The manager behind a call, by its heap and its files. -/
theorem Retained.finish (h : Retained render dir cs s) {best : Array (Entry α)} {left : List (Entry α)} {disk : Disk σ α}
    (heap : BinaryHeap.IsHeap Entry.lt best)
    (perm : (best.toList ++ left).Perm ((cs ++ [c]).map (SaveCall.entry render dir)))
    (keeps : Keeps s.manager.keepBest (best.toList.map Entry.score : Multiset α) (left.map Entry.score : Multiset α))
    (hdisk : ∀ p, (disk p).isSome = true ↔ p ∈ (s.manager.pushLast c.epoch).last ∨ p ∈ best.toList.map Entry.path) :
    Retained render dir (cs ++ [c]) ⟨{ s.manager.pushLast c.epoch with best := best }, disk⟩ :=
  ⟨h.saveDir, h.pushLast, heap, ⟨left, perm, keeps⟩, hdisk⟩

/-- The path of the root is none of the others. -/
theorem Retained.root_path (h : Retained render dir cs s) (hnodup : ((cs ++ [c]).map SaveCall.epoch).Nodup)
    (hsize : 0 < s.manager.best.size) :
    s.manager.best[0].path ≠ (c.entry render dir).path ∧
      s.manager.best[0].path ∉ (s.manager.pushLast c.epoch).last ∧
      s.manager.best[0].path ∉ s.manager.best.toList.tail.map Entry.path := by
  obtain ⟨left, hperm, -⟩ := h.best
  have hroot := BinaryHeap.toList_eq_cons hsize
  -- the root is the entry of an earlier call
  obtain ⟨c', hc', heq⟩ := h.best_path (p := s.manager.best[0].path) (by
    rw [hroot]
    exact List.mem_cons_self)
  rw [hroot] at hperm
  refine ⟨?_, ?_, ?_⟩
  · rw [heq]
    intro hpath
    rw [List.map_append, List.nodup_append] at hnodup
    refine hnodup.2.2 _ (List.mem_map_of_mem hc') _ List.mem_cons_self (bestPath_inj hpath)
  · rw [heq, h.pushLast]
    intro hlast
    obtain ⟨c'', -, hpath⟩ := List.mem_map.1 (List.mem_reverse.1 (List.mem_of_mem_take hlast))
    exact lastPath_ne_bestPath dir _ _ _ hpath
  · rw [List.map_append] at hnodup
    have hpaths := ((hperm.map Entry.path).nodup_iff).2 (SaveCall.paths_nodup (List.Nodup.of_append_left hnodup))
    rw [List.cons_append, List.map_cons, List.nodup_cons, List.map_append] at hpaths
    exact fun hmem => hpaths.1 (List.mem_append_left _ hmem)

/-- A call whose checkpoint is added to the best ones. -/
theorem Retained.push (h : Retained render dir cs s) (hnodup : ((cs ++ [c]).map SaveCall.epoch).Nodup)
    (hroom : s.manager.best.size < s.manager.keepBest) (state : Saved σ α) :
    Retained render dir (cs ++ [c])
      ⟨{ s.manager.pushLast c.epoch with
          best := BinaryHeap.heappush Entry.lt s.manager.best (c.entry render dir) },
        (s.pushDisk c).perform [.save (c.entry render dir).path state]⟩ := by
  obtain ⟨left, hperm, hkeeps⟩ := h.best
  have hpush : (BinaryHeap.heappush Entry.lt s.manager.best (c.entry render dir)).toList.Perm
      (c.entry render dir :: s.manager.best.toList) := BinaryHeap.heappush_perm _ _
  refine h.finish (BinaryHeap.heappush_isHeap Entry.strict h.heap _)
    (SaveCall.perm_entries hperm (hpush.append_right left)) ?_ fun p => ?_
  · rw [Entry.coe_scores hpush]
    refine hkeeps.push ?_
    rw [Multiset.coe_card, List.length_map]
    exact hroom
  · rw [Entry.mem_paths hpush]
    exact Disk.apply_save.trans ((or_congr_right (h.disk_pushLast hnodup p)).trans or_left_comm)

/-- A call whose checkpoint takes the place of the worst of the best ones. -/
theorem Retained.replace (h : Retained render dir cs s) (hnodup : ((cs ++ [c]).map SaveCall.epoch).Nodup)
    (hsize : 0 < s.manager.best.size) (hfull : s.manager.keepBest ≤ s.manager.best.size)
    (hscore : c.score < s.manager.best[0].score) (state : Saved σ α) :
    Retained render dir (cs ++ [c])
      ⟨{ s.manager.pushLast c.epoch with
          best := BinaryHeap.heapreplace Entry.lt s.manager.best (c.entry render dir) hsize },
        (s.pushDisk c).perform [.save (c.entry render dir).path state, .remove s.manager.best[0].path]⟩ := by
  obtain ⟨left, hperm, hkeeps⟩ := h.best
  obtain ⟨hnew, hold⟩ := h.root_path hnodup hsize
  have hreplace : (BinaryHeap.heapreplace Entry.lt s.manager.best (c.entry render dir) hsize).toList.Perm
      (c.entry render dir :: s.manager.best.toList.tail) := BinaryHeap.heapreplace_perm _ _ hsize
  have hroot := BinaryHeap.toList_eq_cons hsize
  have hle := fun y => h.le_root hsize (y := y)
  have hpaths : ∀ p, (((s.pushDisk c).perform [.save (c.entry render dir).path state,
      .remove s.manager.best[0].path]) p).isSome = true ↔
      p ≠ s.manager.best[0].path ∧ (p = (c.entry render dir).path ∨ p ∈ (s.manager.pushLast c.epoch).last ∨
        p ∈ s.manager.best.toList.map Entry.path) := fun p =>
    Disk.apply_remove.trans (and_congr_right fun _ => Disk.apply_save.trans (or_congr_right (h.disk_pushLast hnodup p)))
  rw [hroot] at hperm hkeeps hle hpaths
  have hentries : ((BinaryHeap.heapreplace Entry.lt s.manager.best (c.entry render dir) hsize).toList ++
      s.manager.best[0] :: left).Perm (c.entry render dir :: (s.manager.best[0] :: s.manager.best.toList.tail ++ left)) :=
    (hreplace.append_right _).trans (List.perm_middle.cons _)
  refine h.finish (BinaryHeap.heapreplace_isHeap Entry.strict h.heap _ hsize)
    (SaveCall.perm_entries hperm hentries) ?_ fun p => (hpaths p).trans ?_
  · rw [Entry.coe_scores hreplace, List.map_cons, ← Multiset.cons_coe]
    refine Keeps.replace hkeeps ?_ (fun y hy => hle y (List.mem_cons_of_mem _ hy)) hscore
    have hcard := hkeeps.room
    have hsize' := congrArg List.length hroot
    rw [Multiset.coe_card, List.map_cons, List.length_cons, List.length_map] at hcard
    rw [Array.length_toList, List.length_cons] at hsize'
    rw [Multiset.coe_card, List.length_map]
    exact le_antisymm hcard (hsize' ▸ hfull)
  · rw [Entry.mem_paths hreplace, List.map_cons, List.mem_cons]
    constructor
    · rintro ⟨hne, hp | hp | hp | hp⟩
      · exact .inr (.inl hp)
      · exact .inl hp
      · exact absurd hp hne
      · exact .inr (.inr hp)
    · rintro (hp | hp | hp)
      · exact ⟨fun heq => hold.1 (heq ▸ hp), .inr (.inl hp)⟩
      · exact ⟨fun heq => hnew (heq ▸ hp), .inl hp⟩
      · exact ⟨fun heq => hold.2 (heq ▸ hp), .inr (.inr (.inr hp))⟩

/-- A call whose checkpoint is not better than the worst of the best ones. -/
theorem Retained.reject (h : Retained render dir cs s) (hnodup : ((cs ++ [c]).map SaveCall.epoch).Nodup)
    (hsize : 0 < s.manager.best.size) (hfull : s.manager.keepBest ≤ s.manager.best.size)
    (hscore : ¬ c.score < s.manager.best[0].score) :
    Retained render dir (cs ++ [c]) ⟨s.manager.pushLast c.epoch, s.pushDisk c⟩ := by
  obtain ⟨left, hperm, hkeeps⟩ := h.best
  have hle := fun y => h.le_root hsize (y := y)
  refine h.finish h.heap (SaveCall.perm_entries hperm List.perm_middle) ?_ (h.disk_pushLast hnodup)
  rw [List.map_cons, ← Multiset.cons_coe]
  refine hkeeps.reject ?_ fun y hy => (hle y hy).trans (not_lt.1 hscore)
  refine le_antisymm hkeeps.room ?_
  rw [Multiset.coe_card, List.length_map]
  exact hfull

/-- **A call of `save`.** -/
theorem Retained.save (h : Retained render dir cs s) (hnodup : ((cs ++ [c]).map SaveCall.epoch).Nodup) :
    Retained render dir (cs ++ [c]) (s.save render c) := by
  have hentry : (⟨c.score, bestPath (s.manager.pushLast c.epoch).saveDir c.epoch (render c.score)⟩ : Entry α) =
      c.entry render dir := by
    rw [show (s.manager.pushLast c.epoch).saveDir = dir from h.saveDir]
    rfl
  have hpath : bestPath (s.manager.pushLast c.epoch).saveDir c.epoch (render c.score) = (c.entry render dir).path :=
    congrArg Entry.path hentry
  rw [save_eq]
  rcases saveBest_cases render (s.manager.pushLast c.epoch) c.epoch
    (.state c.dicts c.epoch c.lossSummary) c.score with
    ⟨hroom, heq⟩ | ⟨hsize, hfull, hscore, heq⟩ | ⟨hsize, hfull, hscore, heq⟩
  · rw [heq, hentry, hpath]
    exact h.push hnodup hroom _
  · rw [heq, hentry, hpath]
    exact h.replace hnodup hsize hfull hscore _
  · rw [heq]
    exact h.reject hnodup hsize hfull hscore

variable (render dir) in
theorem retained_saves (keepLast keepBest : Int) (h : (cs.map SaveCall.epoch).Nodup) :
    Retained render dir cs ((new σ α dir keepLast keepBest).saves render cs) := by
  induction cs using List.reverseRecOn with
  | nil => exact retained_new keepLast keepBest
  | append_singleton cs c ih =>
    unfold saves
    rw [List.foldl_append]
    rw [List.map_append] at h
    exact Retained.save (ih (List.Nodup.of_append_left h)) (by rwa [List.map_append])

/-! ## Restoring the lists -/

theorem saves_append (cs cs' : List (SaveCall σ α)) : s.saves render (cs ++ cs') = (s.saves render cs).saves render cs' :=
  List.foldl_append

variable (render s c) in
theorem save_frame : (s.save render c).manager.saveDir = s.manager.saveDir ∧
    (s.save render c).manager.keepLast = s.manager.keepLast ∧
    (s.save render c).manager.keepBest = s.manager.keepBest := by
  rw [save_eq]
  obtain ⟨hdir, hlast, hbest, -⟩ := saveBest_frame render (s.manager.pushLast c.epoch) c.epoch
    (.state c.dicts c.epoch c.lossSummary) c.score
  exact ⟨hdir, hlast, hbest⟩

variable (render s cs) in
theorem saves_frame : (s.saves render cs).manager.saveDir = s.manager.saveDir ∧
    (s.saves render cs).manager.keepLast = s.manager.keepLast ∧
    (s.saves render cs).manager.keepBest = s.manager.keepBest := by
  induction cs generalizing s with
  | nil => exact ⟨rfl, rfl, rfl⟩
  | cons c cs ih =>
    obtain ⟨hdir, hlast, hbest⟩ := save_frame render s c
    obtain ⟨hdir', hlast', hbest'⟩ := ih (s := s.save render c)
    exact ⟨hdir'.trans hdir, hlast'.trans hlast, hbest'.trans hbest⟩

/-- The lists do not depend on the files. -/
theorem saves_manager {m : CheckpointManager α} (d d' : Disk σ α) :
    ((Store.mk m d).saves render cs).manager = ((Store.mk m d').saves render cs).manager := by
  induction cs generalizing m d d' with
  | nil => rfl
  | cons c cs ih => exact ih _ _

/-- **Retention.** -/
theorem retention {keepLast keepBest : Int} (h : (cs.map SaveCall.epoch).Nodup)
    (hs : (new σ α dir keepLast keepBest).saves render cs = s) :
    s.manager.last = ((cs.map fun c => lastPath dir c.epoch).reverse).take (max 1 keepLast).toNat ∧
      BinaryHeap.IsHeap Entry.lt s.manager.best ∧
      (s.manager.best.toList.map Entry.score : Multiset α) =
        smallest (max 1 keepBest).toNat (cs.map SaveCall.score : Multiset α) ∧
      s.manager.best.toList.Subperm (cs.map (SaveCall.entry render dir)) ∧
      (∀ p, (s.disk p).isSome = true ↔ p ∈ s.manager.last ∨ p ∈ s.manager.best.toList.map Entry.path) ∧
      ∀ epoch, ∃ m, (CheckpointManager.new α dir keepLast keepBest).loadResume
          ((s.manager.saveResume epoch).apply s.disk) = some (m, epoch) ∧
        ∀ cs' t u, (Store.mk m ((s.manager.saveResume epoch).apply s.disk)).saves render cs' = t →
          (new σ α dir keepLast keepBest).saves render (cs ++ cs') = u →
          t.manager.last = u.manager.last ∧ t.manager.best = u.manager.best := by
  have hretained := retained_saves render dir keepLast keepBest h
  obtain ⟨hdir, hlast, hbest⟩ := saves_frame render cs (new σ α dir keepLast keepBest)
  rw [hs] at hretained hdir hlast hbest
  obtain ⟨left, hperm, hkeeps⟩ := hretained.best
  refine ⟨?_, hretained.heap, ?_, ?_, hretained.disk, fun epoch => ⟨s.manager, ?_, ?_⟩⟩
  · rw [hretained.last, hlast]
    rfl
  · have hscores : (cs.map SaveCall.score : Multiset α) =
        (s.manager.best.toList.map Entry.score : Multiset α) + (left.map Entry.score : Multiset α) := by
      rw [Multiset.coe_add, ← List.map_append]
      refine Multiset.coe_eq_coe.2 ((hperm.map Entry.score).trans ?_).symm
      rw [List.map_map]
      exact .refl _
    rw [hbest] at hkeeps
    rw [hscores]
    exact hkeeps.smallest_eq.symm
  · exact (List.sublist_append_left _ left).subperm.trans hperm.subperm
  · exact loadResume_saveResume s.disk epoch hdir hlast hbest
  · rintro cs' t u rfl rfl
    rw [saves_append, hs, saves_manager _ s.disk]
    exact ⟨rfl, rfl⟩

/-- Two epochs, of which the second is the better one. -/
def twoEpochs : List (SaveCall Unit ℚ) := [⟨(), 1, [], 1 / 2⟩, ⟨(), 2, [], 1 / 3⟩]

theorem retention_twoEpochs :
    ((new Unit ℚ "checkpoints" 1 1).saves (fun _ => "") twoEpochs).manager.last = [lastPath "checkpoints" 2] ∧
      (((new Unit ℚ "checkpoints" 1 1).saves (fun _ => "") twoEpochs).manager.best.toList.map Entry.score :
        Multiset ℚ) = smallest 1 {1 / 2, 1 / 3} := by
  obtain ⟨hlast, -, hbest, -⟩ := @retention Unit ℚ (fun _ => "") "checkpoints" twoEpochs _ _ 1 1
    (by decide) rfl
  exact ⟨hlast, hbest⟩

end Store

end Bajiru.NnModel
