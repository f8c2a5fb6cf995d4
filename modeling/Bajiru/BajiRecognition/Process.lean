import Bajiru.Chunks
import Bajiru.Hold
import Bajiru.Python
import Mathlib.Algebra.BigOperators.Group.List.Basic
import Mathlib.Algebra.BigOperators.Ring.Finset
import Mathlib.Algebra.BigOperators.Ring.List

/-!
# Chunks and decisions of `process.py`

`chunk_file` cuts a clip into chunks and gives their durations; `make_decision` fills in the chunks without voice; the
video shows each decision for the duration of its chunk. What is read from the file and the voice of a chunk are
parameters, and numbers are exact.

The duration of the last chunk has `samples_per_chunk` in the place of the rate, so that the durations are right only for
chunks of one second (`chunkFile_iff`). A decision is not carried on, so that an unknown chunk always gets "high"
(`makeDecision_iff`).
-/

namespace Bajiru.BajiRecognition

/-! ## The functions -/

/-- What `librosa` reads from a file: its sample rate, and its samples at a rate, with that rate. -/
structure Librosa (Path α : Type*) where
  getSamplerate : Path → Nat
  load : Path → Nat → List α × Nat

/-- `identifier.RATE`. -/
def RATE : Nat := 44100

section Chunks

variable {Path α K : Type*} [Field K] [LinearOrder K] [FloorRing K]

/-- `chunk_file(file, chunk_length)`; a step of 0 samples and a clip without samples raise. -/
def chunkFile (librosa : Librosa Path α) (file : Path) (chunkLength : K) : Option (List (List α) × List K) :=
  let sr := librosa.getSamplerate file
  let (data, rate) := librosa.load file sr
  let samplesPerChunk := Python.int (chunkLength * rate)
  if samplesPerChunk = 0 then none
  else
    let chunkedData := (Python.range 0 data.length samplesPerChunk).map fun i =>
      Python.slice data i (i + samplesPerChunk)
    let times := List.replicate chunkedData.length chunkLength
    (Python.getItem chunkedData (-1)).bind fun last =>
      (Python.setItem times (-1) (last.length / samplesPerChunk)).map fun times => (chunkedData, times)

/-- `get_decisions(file, chunk_length)`, with `identifier.process`. -/
def getDecisions (librosa : Librosa Path α) (process : List α → Nat → String × K × K) (file : Path) (chunkLength : K) :
    Option (List String × List K) :=
  (chunkFile librosa file chunkLength).map fun (chunks, times) =>
    (chunks.map fun chunk => (process chunk RATE).1, times)

end Chunks

/-- `make_decision(decisions)`. -/
def makeDecision (decisions : List String) : List String :=
  let currDec := "high"
  decisions.foldl (fun newDecisions dec =>
    let decision := if dec ≠ "unknown" then dec else currDec
    newDecisions ++ [decision]) []

/-- `enum`; another key raises. -/
def enum : String → Option Int
  | "unknown" => some (-1)
  | "low" => some 0
  | "high" => some 1
  | _ => none

def BAJI : String := "#19582b"

def LOWJI : String := "#8fdd77"

/-- An image of the video: its color, and when it is shown. -/
structure ImageClip (K : Type*) where
  color : String
  duration : K
  start : K

/-- The loop of `generate_video`, from `start` on; lists of different lengths raise. -/
def imageClips {K : Type*} [Field K] (start : K) : List String → List K → Option (List (ImageClip K))
  | [], [] => some []
  | decision :: decisions, time :: times =>
    (enum decision).bind fun n =>
      (imageClips (start + time) decisions times).map
        (⟨if 0 < n then LOWJI else BAJI, time, start⟩ :: ·)
  | _, _ => none

/-- `generate_video(audio_file, output_file, chunk_length)`: the images and `video.duration`. -/
def generateVideo {Path α K : Type*} [Field K] [LinearOrder K] [FloorRing K] (librosa : Librosa Path α)
    (process : List α → Nat → String × K × K) (audioFile : Path) (chunkLength : K) :
    Option (List (ImageClip K) × K) :=
  (getDecisions librosa process audioFile chunkLength).bind fun (preliminaryDecisions, times) =>
    (imageClips 0 (makeDecision preliminaryDecisions) times).map fun clipList => (clipList, times.sum)

/-! ## Durations -/

section Durations

variable {α K : Type*} [Field K] {rate : Nat}

/-- The durations of all chunks are right, if those of full chunks and that of the last one are. -/
theorem durations_eq (chunkLength : K) {xss : List (List α)} (hne : xss ≠ []) (hrate : (rate : K) ≠ 0)
    (hfull : ∀ xs ∈ xss.dropLast, (xs.length : K) = chunkLength * rate) :
    List.replicate (xss.length - 1) chunkLength ++ [((xss.getLast hne).length : K) / rate] =
      xss.map fun xs => (xs.length : K) / rate := by
  have hinit : xss.dropLast.map (fun xs => (xs.length : K) / rate) = List.replicate (xss.length - 1) chunkLength := by
    rw [List.eq_replicate_iff, List.length_map, List.length_dropLast]
    refine ⟨rfl, fun x hx => ?_⟩
    obtain ⟨xs, hxs, rfl⟩ := List.mem_map.1 hx
    rw [hfull xs hxs, mul_div_cancel_right₀ _ hrate]
  conv_rhs =>
    rw [← List.dropLast_concat_getLast hne, List.map_append, hinit, List.map_singleton]

theorem sum_durations (xss : List (List α)) :
    (xss.map fun xs => (xs.length : K) / rate).sum = xss.flatten.length / rate := by
  rw [List.length_flatten, Nat.cast_list_sum, List.map_map]
  simp only [div_eq_mul_inv]
  exact List.sum_map_mul_right ..

end Durations

/-! ## Chunks -/

section Chunks

variable {Path α K : Type*} [Field K] [LinearOrder K] [IsStrictOrderedRing K] [FloorRing K]
variable {librosa : Librosa Path α} {file : Path} {chunkLength : K} {data : List α} {rate samplesPerChunk : Nat}

/-- `chunk_file` in terms of chunks. -/
theorem chunkFile_eq (hload : librosa.load file (librosa.getSamplerate file) = (data, rate)) (hdata : data ≠ [])
    (hpos : 0 < samplesPerChunk) (hsamples : chunkLength * rate = samplesPerChunk) :
    ∃ hne : chunks samplesPerChunk data ≠ [], chunkFile librosa file chunkLength =
      some (chunks samplesPerChunk data, List.replicate ((chunks samplesPerChunk data).length - 1) chunkLength ++
        [((chunks samplesPerChunk data).getLast hne).length / (samplesPerChunk : K)]) := by
  have hne := chunks_ne_nil hpos hdata
  have hint : Python.int (chunkLength * rate) = samplesPerChunk := by
    rw [hsamples, ← Int.cast_natCast, Python.int_intCast]
  have hchunks : ((Python.range 0 data.length samplesPerChunk).map fun i =>
      Python.slice data i (i + samplesPerChunk)) = chunks samplesPerChunk data := by
    rw [Python.range_natCast _ hpos, List.map_map, chunks]
    refine List.map_congr_left fun k _ => ?_
    rw [Function.comp_apply, ← Int.natCast_add, Python.slice_natCast, List.drop_take, Nat.add_sub_cancel_left]
  have htimes : List.replicate (chunks samplesPerChunk data).length chunkLength ≠ [] := by
    rw [ne_eq, List.replicate_eq_nil_iff]
    exact (List.length_pos_iff.2 hne).ne'
  refine ⟨hne, ?_⟩
  unfold chunkFile
  simp only [hload, hint, hchunks]
  rw [if_neg (by omega), Python.getItem_last, List.getLast?_eq_some_getLast hne, Option.bind_some,
    Python.setItem_last htimes, Option.map_some, List.dropLast_replicate, Int.cast_natCast]

/-- The chunks are the clip, and their durations are right, in seconds. -/
structure Partitions (data : List α) (rate samplesPerChunk : Nat) (chunkedData : List (List α)) (times : List K) :
    Prop where
  flatten : chunkedData.flatten = data
  full : ∀ chunk ∈ chunkedData.dropLast, chunk.length = samplesPerChunk
  length : times.length = chunkedData.length
  duration : ∀ (i : Nat) (chunk : List α) (time : K), chunkedData[i]? = some chunk → times[i]? = some time →
    time * rate = chunk.length
  total : times.sum = data.length / rate

/-- Chunks of one second. -/
theorem chunkFile_second (hload : librosa.load file (librosa.getSamplerate file) = (data, rate)) (hdata : data ≠ [])
    (hpos : 0 < rate) :
    chunkFile librosa file (1 : K) =
      some (chunks rate data, (chunks rate data).map fun chunk => (chunk.length : K) / rate) := by
  obtain ⟨hne, heq⟩ := chunkFile_eq (K := K) hload hdata hpos (one_mul _)
  have hrate : (rate : K) ≠ 0 := Nat.cast_ne_zero.2 hpos.ne'
  rw [heq, durations_eq (1 : K) hne hrate fun xs hxs => by rw [length_of_mem_dropLast hxs, one_mul]]

omit [IsStrictOrderedRing K] in
theorem partitions_chunks (data : List α) (hpos : 0 < rate) :
    Partitions data rate rate (chunks rate data) ((chunks rate data).map fun chunk => (chunk.length : K) / rate) := by
  have hrate : (rate : K) ≠ 0 := Nat.cast_ne_zero.2 hpos.ne'
  refine ⟨flatten_chunks hpos data, fun _ => length_of_mem_dropLast, List.length_map _, ?_, ?_⟩
  · intro i chunk time hchunk htime
    rw [List.getElem?_map, hchunk, Option.map_some, Option.some_inj] at htime
    rw [← htime, div_mul_cancel₀ _ hrate]
  · rw [sum_durations, flatten_chunks hpos]

/-- **`chunk_file`** gives the right durations exactly for chunks of one second. -/
theorem chunkFile_iff (hload : librosa.load file (librosa.getSamplerate file) = (data, rate)) (hdata : data ≠ [])
    (hpos : 0 < samplesPerChunk) (hsamples : chunkLength * rate = samplesPerChunk) :
    (∃ chunkedData times, chunkFile librosa file chunkLength = some (chunkedData, times) ∧
      Partitions data rate samplesPerChunk chunkedData times) ↔ chunkLength = 1 := by
  have hn : (samplesPerChunk : K) ≠ 0 := Nat.cast_ne_zero.2 hpos.ne'
  constructor
  · rintro ⟨chunkedData, times, hfile, hparts⟩
    obtain ⟨hne, heq⟩ := chunkFile_eq hload hdata hpos hsamples
    rw [heq, Option.some_inj, Prod.mk.injEq] at hfile
    obtain ⟨rfl, rfl⟩ := hfile
    -- the last duration, in samples of the clip and in samples of a chunk
    have hlast : ((chunks samplesPerChunk data).getLast hne).length / (samplesPerChunk : K) * rate =
        ((chunks samplesPerChunk data).getLast hne).length := by
      refine hparts.duration ((chunks samplesPerChunk data).length - 1) _ _ ?_ ?_
      · rw [← List.getLast?_eq_getElem?, List.getLast?_eq_some_getLast hne]
      · rw [List.getElem?_append_right (by simp), List.length_replicate, Nat.sub_self]
        rfl
    have hlong : (((chunks samplesPerChunk data).getLast hne).length : K) ≠ 0 :=
      Nat.cast_ne_zero.2 (length_pos_of_mem_chunks hpos (List.getLast_mem hne)).ne'
    have hsame : (rate : K) = samplesPerChunk := by
      rw [div_mul_eq_mul_div, div_eq_iff hn] at hlast
      exact mul_left_cancel₀ hlong hlast
    rw [← hsame] at hsamples hn
    exact mul_right_cancel₀ hn (hsamples.trans (one_mul _).symm)
  · rintro rfl
    rw [one_mul] at hsamples
    obtain rfl : rate = samplesPerChunk := Nat.cast_injective hsamples
    exact ⟨_, _, chunkFile_second hload hdata hpos, partitions_chunks data hpos⟩

/-- A clip that is in memory. -/
def inMemory (data : List α) (rate : Nat) : Librosa Unit α := ⟨fun _ => rate, fun _ sr => (data, sr)⟩

theorem chunkFile_iff_second :
    (∃ chunkedData times, chunkFile (inMemory [0, 1, 2] 2) () (1 : ℚ) = some (chunkedData, times) ∧
      Partitions [0, 1, 2] 2 2 chunkedData times) ↔ (1 : ℚ) = 1 :=
  chunkFile_iff rfl (List.cons_ne_nil _ _) Nat.two_pos (by norm_num)

/-- Five samples at the rate 2 in chunks of two seconds: the last sample lasts a half, not a quarter of a second. -/
theorem chunkFile_twoSeconds : ¬∃ chunkedData times,
    chunkFile (inMemory [0, 1, 2, 3, 4] 2) () (2 : ℚ) = some (chunkedData, times) ∧
      Partitions [0, 1, 2, 3, 4] 2 4 chunkedData times := by
  rintro ⟨chunkedData, times, hfile, hparts⟩
  have heq : chunkFile (inMemory [0, 1, 2, 3, 4] 2) () (2 : ℚ) = some ([[0, 1, 2, 3], [4]], [2, 1 / 4]) := by
    decide +kernel
  rw [heq, Option.some_inj, Prod.mk.injEq] at hfile
  obtain ⟨rfl, rfl⟩ := hfile
  exact absurd (hparts.duration 1 _ _ rfl rfl) (by norm_num)

end Chunks

/-! ## Decisions -/

/-- Every decision by itself. -/
theorem makeDecision_eq (decisions : List String) :
    makeDecision decisions = decisions.map fun dec => if dec ≠ "unknown" then dec else "high" := by
  rw [makeDecision, List.map_eq_flatMap]
  exact List.foldl_append_eq_append

/-- **`make_decision`** holds the last known voice exactly if no known voice but "high" is directly followed by an
unknown chunk. -/
theorem makeDecision_iff (decisions : List String) :
    ((makeDecision decisions).length = decisions.length ∧ ∀ i < decisions.length,
      (makeDecision decisions)[i]? = some (held "unknown" "high" (decisions.take (i + 1)))) ↔
    Steady "unknown" "high" decisions := by
  rw [← forget_iff, makeDecision_eq]
  simp only [List.length_map, true_and]
  refine ⟨fun h i x hx => ?_, fun h i hi => ?_⟩
  · have := h i (List.getElem?_eq_some_iff.1 hx).1
    rw [List.getElem?_map, hx] at this
    exact Option.some_inj.1 this
  · rw [List.getElem?_map, List.getElem?_eq_getElem hi, Option.map_some, Option.some_inj]
    exact h i _ (List.getElem?_eq_getElem hi)

/-- A low voice, and then a chunk without voice. -/
theorem makeDecision_gap : ¬((makeDecision ["low", "unknown"]).length = 2 ∧ ∀ i < 2,
    (makeDecision ["low", "unknown"])[i]? = some (held "unknown" "high" (["low", "unknown"].take (i + 1)))) := by
  rintro ⟨-, h⟩
  exact absurd (h 1 (by decide)) (by decide)

/-! ## The video -/

section Video

variable {Path α K : Type*} [Field K]

/-- Every image is shown for the duration of its chunk, and starts when the image before it ends. -/
theorem imageClips_spec {start : K} {decisions : List String} {times : List K} {clipList : List (ImageClip K)}
    (h : imageClips start decisions times = some clipList) :
    clipList.map ImageClip.duration = times ∧
      ∀ (i : Nat) clip, clipList[i]? = some clip → clip.start = start + (times.take i).sum := by
  induction decisions generalizing start times clipList with
  | nil =>
    cases times with
    | nil =>
      cases h
      exact ⟨rfl, nofun⟩
    | cons time times => cases h
  | cons decision decisions ih =>
    cases times with
    | nil => cases h
    | cons time times =>
      obtain ⟨n, -, h⟩ := Option.bind_eq_some_iff.1 h
      obtain ⟨rest, hrest, rfl⟩ := Option.map_eq_some_iff.1 h
      obtain ⟨hdurations, hstarts⟩ := ih hrest
      refine ⟨congrArg (time :: ·) hdurations, fun i clip hclip => ?_⟩
      cases i with
      | zero =>
        cases hclip
        exact (add_zero _).symm
      | succ i => rw [hstarts i clip hclip, List.take_succ_cons, List.sum_cons, add_assoc]

variable [LinearOrder K] [IsStrictOrderedRing K] [FloorRing K] {librosa : Librosa Path α} {file : Path} {data : List α}
  {rate : Nat} {process : List α → Nat → String × K × K}

/-- **The video** of a clip in chunks of one second is as long as the clip, and every image starts with its chunk. -/
theorem generateVideo_second (hload : librosa.load file (librosa.getSamplerate file) = (data, rate))
    (hdata : data ≠ []) (hpos : 0 < rate) {clipList : List (ImageClip K)} {duration : K}
    (h : generateVideo librosa process file 1 = some (clipList, duration)) :
    duration = data.length / rate ∧ ∀ (i : Nat) clip, clipList[i]? = some clip →
      clip.start = (((chunks rate data).take i).flatten.length : K) / rate := by
  rw [generateVideo, getDecisions, chunkFile_second hload hdata hpos, Option.map_some, Option.bind_some] at h
  obtain ⟨clips, hclips, heq⟩ := Option.map_eq_some_iff.1 h
  rw [Prod.mk.injEq] at heq
  obtain ⟨rfl, rfl⟩ := heq
  refine ⟨(partitions_chunks data hpos).total, fun i clip hclip => ?_⟩
  rw [(imageClips_spec hclips).2 i clip hclip, zero_add, ← List.map_take, sum_durations]

end Video

end Bajiru.BajiRecognition
