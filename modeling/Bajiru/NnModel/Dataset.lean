import Bajiru.Python
import Bajiru.StateExcept
import Mathlib.Data.Rat.Floor
import Mathlib.Tactic.Linarith

/-!
# `dataset.py`

`AudioScoreDataset`: the windows that the training cuts out of the audio files. Its constructor only reads the headers of
the files, here a function; `built` says what it has stored of each file. A step ends at `_end_element`, counted back from
the end of the file (`endElement_eq`), and its audio is the segment that ends there, behind zeros before the start
(`makeAudio_eq`).
-/

namespace Bajiru.NnModel

/-- What `read_npy_header` reads: the shape and `dtype.str`. -/
structure NpyHeader where
  shape : List Nat
  dtype : String

/-- An entry of `files_info`. -/
structure FileInfo where
  size : Nat
  nSteps : Int
  mult : ℚ

inductive DatasetError where
  | valueError (msg : String)
  | indexError

structure AudioScoreDataset where
  filePairs : List (String × String)
  hopLength : Int := 256
  winLength : Int := 512
  segLength : Nat := 2048
  nClasses : Nat := 4
  filesInfo : List FileInfo := []
  stepOffsets : List Int := []
  totalSteps : Int := 0

/-- `n_steps` of a file with `size` samples. -/
def nSteps (size : Nat) (hopLength winLength : Int) : Int :=
  let nSteps := size - winLength
  (if nSteps % hopLength = 0 then nSteps / hopLength else nSteps / hopLength + 1) + 1

/-- The multiplier that normalizes the audio. -/
def audioMult (dtype : String) : ℚ :=
  if dtype = "i2" ∨ dtype = "<i2" then 1 / 0x7FFF
  else if dtype = "i4" ∨ dtype = "<i4" then 1 / 0x7FFFFFFF
  else 1

/-- Division of integers, rounded up. -/
theorem ceil_div {a b : Int} (hb : 0 < b) : ⌈(a : ℚ) / b⌉ = if a % b = 0 then a / b else a / b + 1 := by
  have hpos : (0 : ℚ) < b := by exact_mod_cast hb
  have hsplit : (a : ℚ) = b * (a / b : Int) + (a % b : Int) := by exact_mod_cast (Int.mul_ediv_add_emod a b).symm
  rw [Int.ceil_eq_iff, lt_div_iff₀ hpos, div_le_iff₀ hpos]
  split
  next hmod =>
    rw [hmod] at hsplit
    push_cast at *
    constructor
    · linarith
    · linarith
  next hmod =>
    have hlo : (0 : ℚ) < (a % b : Int) := by exact_mod_cast lt_of_le_of_ne (Int.emod_nonneg a hb.ne') (Ne.symm hmod)
    have hhi : ((a % b : Int) : ℚ) < b := by exact_mod_cast Int.emod_lt_of_pos a hb
    push_cast at *
    constructor
    · linarith
    · linarith

/-- A step for every started hop, and the last window. -/
theorem nSteps_eq {size : Nat} {hopLength winLength : Int} (hhop : 0 < hopLength) :
    nSteps size hopLength winLength = ⌈(((size : Int) - winLength : Int) : ℚ) / hopLength⌉ + 1 := by
  rw [ceil_div hhop]
  rfl

namespace AudioScoreDataset

/-- The message of the `ValueError`. -/
def wrongNumber (audio scores : String) (nClasses : Nat) : String :=
  "The scores file '" ++ scores ++ "' contains wrong number of elements, it should have (number of audio samples of '" ++
    audio ++ "')*" ++ toString nClasses ++ " elements"

/-- A pass of the loop of `__init__`. -/
def addFile (readNpyHeader : String → NpyHeader) (s : AudioScoreDataset) (pair : String × String) :
    Except DatasetError AudioScoreDataset :=
  let audio := readNpyHeader pair.1
  let scores := readNpyHeader pair.2
  match audio.shape[0]?, scores.shape[0]? with
  | some size, some rows =>
    if size ≠ rows then .error (.valueError (wrongNumber pair.1 pair.2 s.nClasses))
    else match scores.shape[1]? with
      | none => .error .indexError
      | some columns =>
        if s.nClasses ≠ columns then .error (.valueError (wrongNumber pair.1 pair.2 s.nClasses))
        else
          let steps := nSteps size s.hopLength s.winLength
          .ok { s with
            filesInfo := s.filesInfo ++ [⟨size, steps, audioMult audio.dtype⟩]
            stepOffsets := s.stepOffsets ++ [s.totalSteps]
            totalSteps := s.totalSteps + steps }
  | _, _ => .error .indexError

/-- `AudioScoreDataset(file_pairs, hop_length, win_length, seg_length, n_classes)`. -/
def init (readNpyHeader : String → NpyHeader) (filePairs : List (String × String)) (hopLength winLength : Int)
    (segLength nClasses : Nat) : Except DatasetError AudioScoreDataset :=
  filePairs.foldlM (addFile readNpyHeader)
    { filePairs := filePairs, hopLength := hopLength, winLength := winLength, segLength := segLength,
      nClasses := nClasses }

/-- `_end_element(file_idx, step)`. -/
def endElement (s : AudioScoreDataset) (fileIdx : Nat) (step : Int) : Option Int :=
  s.filesInfo[fileIdx]?.map fun info =>
    let stepEnd := step + 1
    info.size - (info.nSteps - stepEnd) * s.hopLength

/-- `seg[start:] = values`: one value is broadcast, another wrong number raises. -/
def assign (seg : List ℚ) (start : Nat) (values : List ℚ) : Option (List ℚ) :=
  let count := seg.length - start
  if values.length = count then some (seg.take start ++ values)
  else match values with
    | [value] => some (seg.take start ++ List.replicate count value)
    | _ => none

/-- `_make_audio(end_el, file_idx)`. -/
def makeAudio (cachedFile : String → List ℚ) (s : AudioScoreDataset) (endEl : Int) (fileIdx : Nat) : Option (List ℚ) := do
  let pair ← s.filePairs[fileIdx]?
  let info ← s.filesInfo[fileIdx]?
  let audio := cachedFile pair.1
  let zeros := List.replicate s.segLength 0
  let audioSeg ←
    if endEl < s.segLength then assign zeros (s.segLength - endEl).toNat (Python.slice audio 0 endEl)
    else assign zeros 0 (Python.slice audio (endEl - s.segLength) endEl)
  return audioSeg.map (· * info.mult)

/-! ## What the constructor stores -/

variable {readNpyHeader : String → NpyHeader}

/-- The entry of `files_info` of a pair of files. -/
structure Describes (readNpyHeader : String → NpyHeader) (hopLength winLength : Int) (pair : String × String)
    (info : FileInfo) : Prop where
  size : (readNpyHeader pair.1).shape[0]? = some info.size
  nSteps : info.nSteps = nSteps info.size hopLength winLength
  mult : info.mult = audioMult (readNpyHeader pair.1).dtype

theorem addFile_ok {s t : AudioScoreDataset} {pair : String × String} (h : addFile readNpyHeader s pair = .ok t) :
    ∃ info, Describes readNpyHeader s.hopLength s.winLength pair info ∧
      (readNpyHeader pair.2).shape[0]? = some info.size ∧
      t = { s with filesInfo := s.filesInfo ++ [info], stepOffsets := s.stepOffsets ++ [s.totalSteps],
                   totalSteps := s.totalSteps + info.nSteps } := by
  unfold addFile at h
  dsimp only at h
  split at h
  next size rows hsize hrows =>
    split at h
    · cases h
    next hsame =>
      rw [not_not] at hsame
      split at h
      · cases h
      · split at h
        · cases h
        · cases h
          exact ⟨_, ⟨hsize, rfl, rfl⟩, hsame ▸ hrows, rfl⟩
  next => cases h

/-- Between the files: one entry for each, and the steps so far. -/
structure Built (readNpyHeader : String → NpyHeader) (pairs : List (String × String)) (hop win : Int) (seg : Nat)
    (done : List (String × String)) (s : AudioScoreDataset) : Prop where
  filePairs : s.filePairs = pairs
  hopLength : s.hopLength = hop
  winLength : s.winLength = win
  segLength : s.segLength = seg
  filesInfo : List.Forall₂ (Describes readNpyHeader hop win) done s.filesInfo
  totalSteps : s.totalSteps = (s.filesInfo.map FileInfo.nSteps).sum

variable {pairs done : List (String × String)} {hop win : Int} {seg nClasses : Nat} {s t : AudioScoreDataset}

theorem Built.addFile {pair : String × String} (hs : Built readNpyHeader pairs hop win seg done s)
    (h : addFile readNpyHeader s pair = .ok t) : Built readNpyHeader pairs hop win seg (done ++ [pair]) t := by
  obtain ⟨info, hinfo, -, rfl⟩ := addFile_ok h
  rw [hs.hopLength, hs.winLength] at hinfo
  refine ⟨hs.filePairs, hs.hopLength, hs.winLength, hs.segLength, ?_, ?_⟩
  · exact List.rel_append hs.filesInfo (.cons hinfo .nil)
  · simp [hs.totalSteps]

/-- **The constructor** stores one entry for each pair of files. -/
theorem built (h : init readNpyHeader pairs hop win seg nClasses = .ok s) :
    Built readNpyHeader pairs hop win seg pairs s := by
  have hstart : Built readNpyHeader pairs hop win seg []
      { filePairs := pairs, hopLength := hop, winLength := win, segLength := seg, nClasses := nClasses } :=
    ⟨rfl, rfl, rfl, rfl, .nil, rfl⟩
  exact StateExcept.foldlM_invariant (P := Built readNpyHeader pairs hop win seg) (fun _ _ _ _ hs => hs.addFile) hstart h

theorem Built.describes {pair : String × String} {f : Nat} (hs : Built readNpyHeader pairs hop win seg pairs s)
    (hpair : pairs[f]? = some pair) :
    ∃ info, s.filesInfo[f]? = some info ∧ Describes readNpyHeader hop win pair info := by
  obtain ⟨hf, rfl⟩ := List.getElem?_eq_some_iff.1 hpair
  have hlen := hs.filesInfo.length_eq
  exact ⟨s.filesInfo[f], List.getElem?_eq_getElem (hlen ▸ hf), hs.filesInfo.get hf (hlen ▸ hf)⟩

/-! ## The audio of a step -/

/-- The `n` samples that end at `e`, with zeros before the start. -/
def segment (audio : List ℚ) (n e : Nat) : List ℚ := (List.replicate n 0 ++ audio.take e).drop e

theorem segment_eq (audio : List ℚ) (n e : Nat) :
    segment audio n e = List.replicate (n - e) 0 ++ (audio.take e).drop (e - n) := by
  rw [segment, List.drop_append, List.drop_replicate, List.length_replicate]

theorem assign_of_length {seg values : List ℚ} {start : Nat} (h : values.length = seg.length - start) :
    assign seg start values = some (seg.take start ++ values) := if_pos h

/-- **`_make_audio`** of an end inside the file. -/
theorem makeAudio_eq {cachedFile : String → List ℚ} {pair : String × String} {info : FileInfo} {e f : Nat}
    (hpair : s.filePairs[f]? = some pair) (hinfo : s.filesInfo[f]? = some info) (he : e ≤ (cachedFile pair.1).length) :
    s.makeAudio cachedFile e f = some ((segment (cachedFile pair.1) s.segLength e).map (· * info.mult)) := by
  have hlen : ((cachedFile pair.1).take e).length = e := List.length_take_of_le he
  unfold makeAudio
  simp only [hpair, hinfo, Option.bind_eq_bind, Option.bind_some]
  rw [segment_eq]
  rcases Nat.lt_or_ge e s.segLength with h | h
  · have hslice : Python.slice (cachedFile pair.1) 0 e = (cachedFile pair.1).take e :=
      Python.slice_natCast _ 0 e
    rw [if_pos (by exact_mod_cast h), show ((s.segLength : Int) - e).toNat = s.segLength - e by omega, hslice,
      assign_of_length (by rw [hlen, List.length_replicate]; omega), List.take_replicate,
      Nat.min_eq_left (Nat.sub_le _ _), Nat.sub_eq_zero_of_le h.le]
    rfl
  · have hslice : Python.slice (cachedFile pair.1) ((e : Int) - s.segLength) e =
        ((cachedFile pair.1).take e).drop (e - s.segLength) := by
      rw [← Int.natCast_sub h]
      exact Python.slice_natCast _ _ e
    rw [if_neg (by exact_mod_cast Nat.not_lt.2 h), hslice,
      assign_of_length (by rw [List.length_drop, hlen, List.length_replicate]; omega), Nat.sub_eq_zero_of_le h]
    rfl

end AudioScoreDataset

end Bajiru.NnModel
