import Bajiru.Bisect
import Bajiru.NnModel.Dataset
import Mathlib.Algebra.BigOperators.Group.Finset.Sigma
import Mathlib.Algebra.Order.BigOperators.Group.Finset
import Mathlib.Algebra.BigOperators.Fin

/-!
# The items of an `AudioScoreDataset`

`__getitem__` looks an index up in the offsets of the files by bisection. With the step counts as they are in the
constructor this is a numbering of all steps of all files exactly if no count is negative, that is, if every clip has
more than `win_length - 2 * hop_length` samples (`indexing_iff`): a shorter clip counts negatively, so that its file
takes indices from the others. Scores are read in bounds wherever the step is one of its file.
-/

namespace Bajiru.NnModel

/-- A file with scores, as it is mapped into memory. -/
structure ScoreArray where
  columns : Nat
  rows : List (List ℚ)

namespace AudioScoreDataset

/-- `win_mid`. -/
def winMid (s : AudioScoreDataset) : Int := s.winLength / 2

/-- `_make_scores(end_el, file_idx)`. -/
def makeScores (cachedFile : String → ScoreArray) (s : AudioScoreDataset) (endEl : Int) (fileIdx : Nat) :
    Option (List ℚ) := do
  let pair ← s.filePairs[fileIdx]?
  let scores := cachedFile pair.2
  let index := endEl - s.winMid
  if index < 0 then return List.replicate scores.columns 0
  else Python.getItem scores.rows index

/-- The lookup of `__getitem__`: `(file_idx, step)`. -/
def lookup (s : AudioScoreDataset) (index : Int) : Option (Nat × Int) :=
  let fileIdx := max 0 ((Bisect.bisectRight s.stepOffsets index : Int) - 1)
  (Python.getItem s.stepOffsets fileIdx).map fun offset => (fileIdx.toNat, index - offset)

/-- `__getitem__(index)`. -/
def getItem (audioFile : String → List ℚ) (scoreFile : String → ScoreArray) (s : AudioScoreDataset) (index : Int) :
    Option (List ℚ × List ℚ) := do
  let (fileIdx, step) ← s.lookup index
  let endEl ← s.endElement fileIdx step
  let audio ← s.makeAudio audioFile endEl fileIdx
  let scores ← s.makeScores scoreFile endEl fileIdx
  return (audio, scores)

/-! ## The offsets that the constructor stores -/

variable {readNpyHeader : String → NpyHeader} {pairs done : List (String × String)} {hop win : Int}
  {seg nClasses : Nat} {s t : AudioScoreDataset}

/-- The step counts of the files. -/
def counts (s : AudioScoreDataset) : List Int := s.filesInfo.map FileInfo.nSteps

/-- The scores of a pair have as many rows as its audio has samples. -/
def ScoresFit (readNpyHeader : String → NpyHeader) (pair : String × String) (info : FileInfo) : Prop :=
  (readNpyHeader pair.2).shape[0]? = some info.size

/-- Between the files: each offset is the sum of the counts before. -/
structure Offsets (readNpyHeader : String → NpyHeader) (done : List (String × String)) (s : AudioScoreDataset) :
    Prop where
  stepOffsets : s.stepOffsets = Bisect.starts s.counts
  totalSteps : s.totalSteps = s.counts.sum
  scoresFit : List.Forall₂ (ScoresFit readNpyHeader) done s.filesInfo

theorem starts_append (sizes : List Int) (n : Int) :
    Bisect.starts (sizes ++ [n]) = Bisect.starts sizes ++ [sizes.sum] := by
  unfold Bisect.starts
  rw [List.length_append, List.length_singleton, List.range_succ, List.map_append, List.map_singleton]
  congr 1
  · refine List.map_congr_left fun f hf => ?_
    rw [Bisect.start, List.take_append_of_le_length (List.mem_range.1 hf).le, Bisect.start]
  · rw [Bisect.start, List.take_left]

theorem Offsets.addFile {pair : String × String} (hs : Offsets readNpyHeader done s)
    (h : addFile readNpyHeader s pair = .ok t) : Offsets readNpyHeader (done ++ [pair]) t := by
  obtain ⟨info, -, hfit, rfl⟩ := addFile_ok h
  refine ⟨?_, ?_, List.rel_append hs.scoresFit (.cons hfit .nil)⟩
  · simp [counts, starts_append, hs.stepOffsets, hs.totalSteps]
  · simp [counts, hs.totalSteps]

theorem offsets (h : init readNpyHeader pairs hop win seg nClasses = .ok s) : Offsets readNpyHeader pairs s := by
  have hstart : Offsets readNpyHeader []
      { filePairs := pairs, hopLength := hop, winLength := win, segLength := seg, nClasses := nClasses } :=
    ⟨rfl, rfl, .nil⟩
  exact StateExcept.foldlM_invariant (P := Offsets readNpyHeader) (fun _ _ _ _ hs => hs.addFile) hstart h

/-! ## The numbering -/

/-- The items are the steps of the files. -/
structure Indexing (scoreFile : String → ScoreArray) (s : AudioScoreDataset) : Prop where
  len_nonneg : 0 ≤ s.totalSteps
  /-- Every index is a step of a file. -/
  maps : ∀ index, 0 ≤ index → index < s.totalSteps →
    ∃ f step info, s.lookup index = some (f, step) ∧ s.filesInfo[f]? = some info ∧ 0 ≤ step ∧ step < info.nSteps
  /-- Every step has an index. -/
  onto : ∀ f step info, s.filesInfo[f]? = some info → 0 ≤ step → step < info.nSteps →
    ∃ index, 0 ≤ index ∧ index < s.totalSteps ∧ s.lookup index = some (f, step)
  /-- The indices follow the files, and inside a file the steps. -/
  ordered : ∀ i j, 0 ≤ i → i < j → j < s.totalSteps → ∀ f g step step',
    s.lookup i = some (f, step) → s.lookup j = some (g, step') → f < g ∨ (f = g ∧ step < step')
  /-- The windows of a file are one hop apart. -/
  ends : ∀ f step endEl, s.endElement f step = some endEl → s.endElement f (step + 1) = some (endEl + s.hopLength)
  /-- The last window of a file ends with the clip. -/
  lastEnd : ∀ f info, s.filesInfo[f]? = some info → s.endElement f (info.nSteps - 1) = some info.size
  /-- The row of the scores is in bounds, or zero. -/
  scores : ∀ f step info pair endEl, s.filesInfo[f]? = some info → s.filePairs[f]? = some pair → 0 ≤ step →
    step < info.nSteps → s.endElement f step = some endEl →
    (endEl - s.winMid < 0 ∧ s.makeScores scoreFile endEl f = some (List.replicate (scoreFile pair.2).columns 0)) ∨
      (0 ≤ endEl - s.winMid ∧ ∃ row, (scoreFile pair.2).rows[(endEl - s.winMid).toNat]? = some row ∧
        s.makeScores scoreFile endEl f = some row)

theorem counts_getElem? {f : Nat} {info : FileInfo} (hinfo : s.filesInfo[f]? = some info) :
    s.counts[f]? = some info.nSteps := by
  rw [counts, List.getElem?_map, hinfo, Option.map_some]

/-- The block of an index. -/
theorem Offsets.lookup_eq (hs : Offsets readNpyHeader pairs s) (hcounts : ∀ n ∈ s.counts, 0 ≤ n) {index : Int}
    (h0 : 0 ≤ index) (h1 : index < s.totalSteps) :
    ∃ f info, s.lookup index = some (f, index - Bisect.start s.counts f) ∧ s.filesInfo[f]? = some info ∧
      Bisect.start s.counts f ≤ index ∧ index < Bisect.start s.counts f + info.nSteps := by
  rw [hs.totalSteps] at h1
  obtain ⟨f, hbisect, hf, hlow, hhigh⟩ := Bisect.bisectRight_starts hcounts h0 h1
  have hlen : f < s.filesInfo.length := by rwa [counts, List.length_map] at hf
  have hinfo : s.filesInfo[f]? = some s.filesInfo[f] := List.getElem?_eq_getElem hlen
  refine ⟨f, s.filesInfo[f], ?_, hinfo, hlow, ?_⟩
  · have hfile : max 0 ((Bisect.bisectRight s.stepOffsets index : Int) - 1) = f := by
      rw [hs.stepOffsets, hbisect]
      omega
    unfold lookup
    rw [hfile]
    dsimp only
    rw [Python.getItem_natCast, hs.stepOffsets, Bisect.starts, List.getElem?_map, List.getElem?_range hf]
    rfl
  · rwa [Bisect.start_succ (counts_getElem? hinfo)] at hhigh

theorem Offsets.lookup_start (hs : Offsets readNpyHeader pairs s) (hcounts : ∀ n ∈ s.counts, 0 ≤ n) {f : Nat}
    {step : Int} {info : FileInfo} (hinfo : s.filesInfo[f]? = some info) (h0 : 0 ≤ step) (h1 : step < info.nSteps) :
    0 ≤ Bisect.start s.counts f + step ∧ Bisect.start s.counts f + step < s.totalSteps ∧
      s.lookup (Bisect.start s.counts f + step) = some (f, step) := by
  have hsucc := Bisect.start_succ (counts_getElem? hinfo)
  have hfirst := Bisect.start_le hcounts (Nat.zero_le f)
  rw [Bisect.start_zero] at hfirst
  have hlast : Bisect.start s.counts (f + 1) ≤ s.totalSteps := by
    rw [hs.totalSteps, ← Bisect.start_length]
    refine Bisect.start_le hcounts ?_
    have := (List.getElem?_eq_some_iff.1 (counts_getElem? hinfo)).1
    omega
  obtain ⟨g, info', hlookup, hinfo', hlow, hhigh⟩ :=
    hs.lookup_eq hcounts (show 0 ≤ Bisect.start s.counts f + step by omega) (by omega)
  have hsucc' := Bisect.start_succ (counts_getElem? hinfo')
  have hfile : g = f := Bisect.block_unique hcounts hlow (by omega) (by omega) (by omega)
  refine ⟨by omega, by omega, ?_⟩
  rw [hlookup, hfile, show Bisect.start s.counts f + step - Bisect.start s.counts f = step by omega]

/-! ## The ends of the windows and the scores -/

theorem endElement_eq {f : Nat} {info : FileInfo} (hinfo : s.filesInfo[f]? = some info) (step : Int) :
    s.endElement f step = some (info.size - (info.nSteps - (step + 1)) * s.hopLength) := by
  rw [endElement, hinfo, Option.map_some]

theorem endElement_succ {f : Nat} {step endEl : Int} (h : s.endElement f step = some endEl) :
    s.endElement f (step + 1) = some (endEl + s.hopLength) := by
  obtain ⟨info, hinfo, rfl⟩ := Option.map_eq_some_iff.1 h
  rw [endElement_eq hinfo]
  congr 1
  ring

/-- **`_make_scores`** of a step of its file. -/
theorem makeScores_eq {scoreFile : String → ScoreArray} {f : Nat} {step endEl : Int} {info : FileInfo}
    {pair : String × String} (hhop : 1 ≤ s.hopLength) (hwin : 2 ≤ s.winLength) (hinfo : s.filesInfo[f]? = some info)
    (hpair : s.filePairs[f]? = some pair) (hrows : (scoreFile pair.2).rows.length = info.size)
    (h1 : step < info.nSteps) (hend : s.endElement f step = some endEl) :
    (endEl - s.winMid < 0 ∧ s.makeScores scoreFile endEl f = some (List.replicate (scoreFile pair.2).columns 0)) ∨
      (0 ≤ endEl - s.winMid ∧ ∃ row, (scoreFile pair.2).rows[(endEl - s.winMid).toNat]? = some row ∧
        s.makeScores scoreFile endEl f = some row) := by
  rw [endElement_eq hinfo, Option.some_inj] at hend
  have hmid : 1 ≤ s.winMid := by
    unfold winMid
    omega
  have hin : endEl ≤ info.size := by
    have := mul_nonneg (show 0 ≤ info.nSteps - (step + 1) by omega) (show 0 ≤ s.hopLength by omega)
    omega
  unfold makeScores
  simp only [hpair, Option.bind_eq_bind, Option.bind_some]
  rcases lt_or_ge (endEl - s.winMid) 0 with hneg | hnonneg
  · exact .inl ⟨hneg, by rw [if_pos hneg]; rfl⟩
  · obtain ⟨i, hi⟩ := Int.eq_ofNat_of_zero_le hnonneg
    have hlt : i < (scoreFile pair.2).rows.length := by omega
    refine .inr ⟨hnonneg, (scoreFile pair.2).rows[i], ?_, ?_⟩
    · rw [hi, Int.toNat_natCast, List.getElem?_eq_getElem hlt]
    · rw [if_neg (not_lt.2 hnonneg), hi, Python.getItem_natCast, List.getElem?_eq_getElem hlt]

/-! ## When the items are the steps -/

/-- A file counts at least 0 steps exactly if it is long enough. -/
theorem nSteps_nonneg_iff {size : Nat} (hhop : 1 ≤ hop) : 0 ≤ NnModel.nSteps size hop win ↔ win < size + 2 * hop := by
  have hpos : (0 : ℚ) < hop := by exact_mod_cast hhop
  rw [nSteps_eq (by omega), show (0 ≤ ⌈(((size : Int) - win : Int) : ℚ) / hop⌉ + 1 ↔
    -2 < ⌈(((size : Int) - win : Int) : ℚ) / hop⌉) by omega, Int.lt_ceil, lt_div_iff₀ hpos]
  constructor
  · intro h
    have : (-2 : Int) * hop < size - win := by exact_mod_cast h
    omega
  · intro h
    have : (-2 : Int) * hop < size - win := by omega
    exact_mod_cast this

theorem exists_pair_of_mem (hs : Built readNpyHeader pairs hop win seg pairs s) {n : Int} (hn : n ∈ s.counts) :
    ∃ pair ∈ pairs, ∃ size, (readNpyHeader pair.1).shape[0]? = some size ∧ n = NnModel.nSteps size hop win := by
  obtain ⟨info, hinfo, rfl⟩ := List.mem_map.1 hn
  obtain ⟨f, hf, rfl⟩ := List.mem_iff_getElem.1 hinfo
  have hlen := hs.filesInfo.length_eq
  have hdescribes := hs.filesInfo.get (hlen ▸ hf) hf
  exact ⟨_, List.getElem_mem (hlen ▸ hf), _, hdescribes.size, hdescribes.nSteps⟩

theorem Offsets.rows_length {scoreFile : String → ScoreArray} {f : Nat} {info : FileInfo} {pair : String × String}
    (hs : Offsets readNpyHeader pairs s)
    (hfiles : ∀ pair ∈ pairs, (readNpyHeader pair.2).shape[0]? = some (scoreFile pair.2).rows.length)
    (hpair : pairs[f]? = some pair) (hinfo : s.filesInfo[f]? = some info) :
    (scoreFile pair.2).rows.length = info.size := by
  obtain ⟨hf, rfl⟩ := List.getElem?_eq_some_iff.1 hpair
  obtain ⟨hf', rfl⟩ := List.getElem?_eq_some_iff.1 hinfo
  have hfit : ScoresFit readNpyHeader pairs[f] s.filesInfo[f] := hs.scoresFit.get hf hf'
  exact Option.some_inj.1 ((hfiles _ (List.getElem_mem hf)).symm.trans hfit)

/-- **Counts that are not negative** number the steps. -/
theorem indexing_of_nonneg {scoreFile : String → ScoreArray} (hbuilt : Built readNpyHeader pairs hop win seg pairs s)
    (hs : Offsets readNpyHeader pairs s) (hhop : 1 ≤ hop) (hwin : 2 ≤ win)
    (hfiles : ∀ pair ∈ pairs, (readNpyHeader pair.2).shape[0]? = some (scoreFile pair.2).rows.length)
    (hcounts : ∀ n ∈ s.counts, 0 ≤ n) : Indexing scoreFile s where
  len_nonneg := by
    rw [hs.totalSteps]
    exact List.sum_nonneg hcounts
  maps index h0 h1 := by
    obtain ⟨f, info, hlookup, hinfo, hlow, hhigh⟩ := hs.lookup_eq hcounts h0 h1
    exact ⟨f, _, info, hlookup, hinfo, by omega, by omega⟩
  onto f step info hinfo h0 h1 := ⟨_, hs.lookup_start hcounts hinfo h0 h1⟩
  ordered i j hi hij hj f g step step' hlookup hlookup' := by
    obtain ⟨f', info, heq, hinfo, hlow, hhigh⟩ := hs.lookup_eq hcounts hi (hij.trans hj)
    obtain ⟨g', info', heq', hinfo', hlow', hhigh'⟩ := hs.lookup_eq hcounts (hi.trans hij.le) hj
    rw [hlookup] at heq
    rw [hlookup'] at heq'
    cases heq
    cases heq'
    have hsucc := Bisect.start_succ (counts_getElem? hinfo)
    have hsucc' := Bisect.start_succ (counts_getElem? hinfo')
    rcases Nat.lt_trichotomy f g with h | h | h
    · exact .inl h
    · subst h
      exact .inr ⟨rfl, by omega⟩
    · have := Bisect.start_le hcounts (show g + 1 ≤ f by omega)
      omega
  ends f step endEl h := endElement_succ h
  lastEnd f info hinfo := by
    rw [endElement_eq hinfo]
    congr 1
    ring
  scores f step info pair endEl hinfo hpair h0 h1 hend := by
    have hrows := hs.rows_length hfiles (hbuilt.filePairs ▸ hpair) hinfo
    exact makeScores_eq (hbuilt.hopLength ▸ hhop) (hbuilt.winLength ▸ hwin) hinfo hpair hrows h1 hend

/-- The first window of a file ends inside it if windows overlap or touch. -/
theorem endElement_pos {f : Nat} {step endEl : Int} {info : FileInfo} {pair : String × String} (hhop : 1 ≤ hop)
    (hoverlap : hop ≤ win) (hdescribes : Describes readNpyHeader hop win pair info)
    (hinfo : s.filesInfo[f]? = some info) (hs : s.hopLength = hop) (h0 : 0 ≤ step)
    (hend : s.endElement f step = some endEl) : 0 < endEl := by
  rw [endElement_eq hinfo, hs, Option.some_inj] at hend
  have hpos : (0 : ℚ) < hop := by exact_mod_cast hhop
  have hceil := Int.ceil_lt_add_one ((((info.size : Int) - win : Int) : ℚ) / hop)
  rw [← sub_lt_iff_lt_add, lt_div_iff₀ hpos] at hceil
  have hsteps : (info.nSteps - 2) * hop < info.size - win := by
    rw [hdescribes.nSteps, nSteps_eq (by omega)]
    have hcast : (⌈(((info.size : Int) - win : Int) : ℚ) / hop⌉ - 1) * hop < info.size - win := by exact_mod_cast hceil
    rwa [show ∀ n : Int, n + 1 - 2 = n - 1 by intro n; ring]
  have hle : (info.nSteps - (step + 1)) * hop ≤ (info.nSteps - 1) * hop :=
    mul_le_mul_of_nonneg_right (by omega) (by omega)
  have hexpand : (info.nSteps - 1) * hop = (info.nSteps - 2) * hop + hop := by ring
  omega

/-- **`__getitem__`** of an index reads the samples and the scores of its step. -/
theorem getItem_returns {audioFile : String → List ℚ} {scoreFile : String → ScoreArray}
    (hbuilt : Built readNpyHeader pairs hop win seg pairs s) (hs : Offsets readNpyHeader pairs s) (hhop : 1 ≤ hop)
    (hwin : 2 ≤ win) (hoverlap : hop ≤ win)
    (haudio : ∀ pair ∈ pairs, (readNpyHeader pair.1).shape[0]? = some (audioFile pair.1).length)
    (hfiles : ∀ pair ∈ pairs, (readNpyHeader pair.2).shape[0]? = some (scoreFile pair.2).rows.length)
    (hcounts : ∀ n ∈ s.counts, 0 ≤ n) {index : Int} (h0 : 0 ≤ index) (h1 : index < s.totalSteps) :
    ∃ (f e : Nat) (pair : String × String) (info : FileInfo) (row : List ℚ),
      s.filePairs[f]? = some pair ∧ s.filesInfo[f]? = some info ∧ e ≤ info.size ∧
        s.getItem audioFile scoreFile index =
          some ((segment (audioFile pair.1) s.segLength e).map (· * info.mult), row) := by
  obtain ⟨f, info, hlookup, hinfo, hlow, hhigh⟩ := hs.lookup_eq hcounts h0 h1
  have hlen : f < pairs.length := by
    rw [hs.scoresFit.length_eq]
    exact (List.getElem?_eq_some_iff.1 hinfo).1
  have hpair : pairs[f]? = some pairs[f] := List.getElem?_eq_getElem hlen
  have hmem := List.getElem_mem hlen
  obtain ⟨info', hinfo', hdescribes⟩ := hbuilt.describes hpair
  obtain rfl : info' = info := Option.some_inj.1 (hinfo'.symm.trans hinfo)
  have hpair' : s.filePairs[f]? = some pairs[f] := hbuilt.filePairs ▸ hpair
  have hend := endElement_eq hinfo (index - Bisect.start s.counts f)
  have hpos := endElement_pos hhop hoverlap hdescribes hinfo hbuilt.hopLength (by omega) hend
  obtain ⟨e, he⟩ := Int.eq_ofNat_of_zero_le hpos.le
  rw [he] at hend
  have hle : e ≤ info'.size := by
    have := mul_nonneg (show 0 ≤ info'.nSteps - (index - Bisect.start s.counts f + 1) by omega) (show 0 ≤ hop by omega)
    rw [hbuilt.hopLength] at he
    omega
  have hsamples : e ≤ (audioFile pairs[f].1).length := by
    rwa [Option.some_inj.1 ((haudio _ hmem).symm.trans hdescribes.size)]
  have hrows := hs.rows_length hfiles hpair hinfo
  have hscores : ∃ row, s.makeScores scoreFile e f = some row := by
    obtain ⟨-, hzero⟩ | ⟨-, row, -, hrow⟩ :=
      makeScores_eq (hbuilt.hopLength ▸ hhop) (hbuilt.winLength ▸ hwin) hinfo hpair' hrows (by omega) hend
    · exact ⟨_, hzero⟩
    · exact ⟨row, hrow⟩
  obtain ⟨row, hrow⟩ := hscores
  refine ⟨f, e, pairs[f], info', row, hpair', hinfo, hle, ?_⟩
  unfold getItem
  simp only [hlookup, hend, makeAudio_eq hpair' hinfo hsamples, hrow, Option.bind_eq_bind, Option.bind_some]
  rfl

/-- Every step has an index of its own, so there are at most as many steps as indices. -/
theorem Indexing.sum_toNat_le {scoreFile : String → ScoreArray} (h : Indexing scoreFile s) :
    (s.counts.map fun n => (n.toNat : Int)).sum ≤ s.totalSteps := by
  have hindex : ∀ p : (_ : Fin s.counts.length) × Nat, p.2 < s.counts[p.1].toNat →
      ∃ index : Nat, index < s.totalSteps.toNat ∧ s.lookup index = some ((p.1 : Nat), (p.2 : Int)) := by
    intro p hp
    have hf : p.1 < s.filesInfo.length := by simpa only [counts, List.length_map] using p.1.isLt
    have hcount : s.counts[p.1] = s.filesInfo[p.1].nSteps := List.getElem_map ..
    obtain ⟨index, h0, h1, hlookup⟩ :=
      h.onto p.1 p.2 s.filesInfo[p.1] (List.getElem?_eq_getElem hf) (by omega) (by omega)
    obtain ⟨i, rfl⟩ := Int.eq_ofNat_of_zero_le h0
    exact ⟨i, by omega, hlookup⟩
  choose! index hlt hlookup using hindex
  have hcard : (Finset.univ.sigma fun f : Fin s.counts.length => Finset.range s.counts[f].toNat).card ≤
      (Finset.range s.totalSteps.toNat).card := by
    refine Finset.card_le_card_of_injOn index (fun p hp => ?_) fun p hp q hq hpq => ?_
    · rw [Finset.mem_coe, Finset.mem_sigma, Finset.mem_range] at hp
      exact Finset.mem_coe.2 (Finset.mem_range.2 (hlt p hp.2))
    · rw [Finset.mem_coe, Finset.mem_sigma, Finset.mem_range] at hp hq
      have heq := (hlookup p hp.2).symm.trans ((congrArg (fun i : Nat => s.lookup i) hpq).trans (hlookup q hq.2))
      obtain ⟨f, step⟩ := p
      obtain ⟨g, step'⟩ := q
      simp only [Option.some_inj, Prod.mk.injEq, Nat.cast_inj] at heq
      obtain ⟨hfg, rfl⟩ := heq
      obtain rfl := Fin.ext hfg
      rfl
  rw [Finset.card_sigma, Finset.card_range] at hcard
  simp only [Finset.card_range] at hcard
  have hsum : ∑ f : Fin s.counts.length, s.counts[f].toNat = (s.counts.map Int.toNat).sum :=
    Fin.sum_univ_fun_getElem s.counts Int.toNat
  rw [hsum] at hcard
  have hcast : (s.counts.map fun n => (n.toNat : Int)).sum = ((s.counts.map Int.toNat).sum : Nat) := by
    rw [Nat.cast_list_sum, List.map_map]
    rfl
  have := h.len_nonneg
  omega

/-- A file that counts negatively leaves fewer indices than steps. -/
theorem Indexing.nonneg {scoreFile : String → ScoreArray} (h : Indexing scoreFile s)
    (hs : Offsets readNpyHeader pairs s) : ∀ n ∈ s.counts, 0 ≤ n := by
  intro n hn
  by_contra hneg
  have hless : (s.counts.map id).sum < (s.counts.map fun n => (n.toNat : Int)).sum :=
    List.sum_lt_sum _ _ (fun n _ => Int.self_le_toNat n) ⟨n, hn, by rw [id]; omega⟩
  rw [List.map_id, ← hs.totalSteps] at hless
  exact absurd h.sum_toNat_le (not_le.2 hless)

/-- **Items are steps** exactly if every clip has more than `win_length - 2 * hop_length` samples. -/
theorem indexing_iff {scoreFile : String → ScoreArray} (h : init readNpyHeader pairs hop win seg nClasses = .ok s)
    (hhop : 1 ≤ hop) (hwin : 2 ≤ win)
    (hfiles : ∀ pair ∈ pairs, (readNpyHeader pair.2).shape[0]? = some (scoreFile pair.2).rows.length) :
    Indexing scoreFile s ↔
      ∀ pair ∈ pairs, ∀ size : Nat, (readNpyHeader pair.1).shape[0]? = some size → win < size + 2 * hop := by
  have hbuilt := built h
  have hs := offsets h
  constructor
  · intro hindexing pair hpair size hsize
    obtain ⟨f, hf⟩ := List.mem_iff_getElem?.1 hpair
    obtain ⟨info, hinfo, hdescribes⟩ := hbuilt.describes hf
    rw [hdescribes.size, Option.some_inj] at hsize
    rw [← hsize, ← nSteps_nonneg_iff hhop, ← hdescribes.nSteps]
    exact hindexing.nonneg hs _ (List.mem_of_getElem? (counts_getElem? hinfo))
  · intro hlong
    refine indexing_of_nonneg hbuilt hs hhop hwin hfiles fun n hn => ?_
    obtain ⟨pair, hpair, size, hsize, rfl⟩ := exists_pair_of_mem hbuilt hn
    exact (nSteps_nonneg_iff hhop).2 (hlong pair hpair size hsize)

/-! ## Clips around the limit -/

/-- The headers of a clip of five samples, one of a single sample, and their scores. -/
def clipHeaders (path : String) : NpyHeader :=
  if path = "a.npy" then ⟨[5], "<i2"⟩
  else if path = "a_scores.npy" then ⟨[5, 1], "<f4"⟩
  else if path = "b.npy" then ⟨[1], "<i2"⟩
  else ⟨[1, 1], "<f4"⟩

def clipScores (path : String) : ScoreArray :=
  if path = "a_scores.npy" then ⟨1, List.replicate 5 [1]⟩ else ⟨1, [[0]]⟩

def clips : List (String × String) := [("a.npy", "a_scores.npy"), ("b.npy", "b_scores.npy")]

/-- The dataset of the two clips in windows of `win` samples, with the counts `n` and `m`. -/
def clipsDataset (win n m : Int) : AudioScoreDataset :=
  { filePairs := clips, hopLength := 1, winLength := win, segLength := 2, nClasses := 1,
    filesInfo := [⟨5, n, 1 / 0x7FFF⟩, ⟨1, m, 1 / 0x7FFF⟩], stepOffsets := [0, n], totalSteps := n + m }

/-- Windows of two samples: the short clip counts 0. -/
theorem indexing_two : Indexing clipScores (clipsDataset 2 4 0) := by
  have hinit : init clipHeaders clips 1 2 2 1 = .ok (clipsDataset 2 4 0) := rfl
  refine (indexing_iff hinit (by decide) (by decide) ?_).2 ?_
  · simp [clips, clipHeaders, clipScores]
  · simp [clips, clipHeaders]

/-- Windows of four samples: the short clip counts -2, and there are no items for the other. -/
theorem indexing_four : ¬ ∀ (readNpyHeader : String → NpyHeader) (scoreFile : String → ScoreArray)
    (pairs : List (String × String)) (hop win : Int) (seg nClasses : Nat) (s : AudioScoreDataset),
    init readNpyHeader pairs hop win seg nClasses = .ok s → 1 ≤ hop → 2 ≤ win →
    (∀ pair ∈ pairs, (readNpyHeader pair.2).shape[0]? = some (scoreFile pair.2).rows.length) →
    Indexing scoreFile s := by
  intro h
  have hinit : init clipHeaders clips 1 4 2 1 = .ok (clipsDataset 4 2 (-2)) := rfl
  have hitems := h clipHeaders clipScores clips 1 4 2 1 _ hinit (by decide) (by decide)
    (by simp [clips, clipHeaders, clipScores])
  obtain ⟨index, h0, h1, -⟩ := hitems.onto 0 0 ⟨5, 2, 1 / 0x7FFF⟩ rfl (by decide) (by decide)
  exact absurd (h0.trans_lt h1) (lt_irrefl 0)

end AudioScoreDataset

end Bajiru.NnModel
