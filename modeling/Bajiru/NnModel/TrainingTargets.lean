import Bajiru.FloatFormat
import Bajiru.NnModel.DatasetItems
import Bajiru.NnModel.LabelsToScores
import Bajiru.NnModel.MapLabels

/-!
# From a labelled recording to training items

`convert_labeled` makes the audio and the scores file of a recording, and the dataset of `train.py` cuts items out of
them. The target of an item is the causal convolution of the labels, at half precision, so that it depends on the
labels of 2304 samples, which lie behind the middle of the last window: it is 0 where none of them has the label, 1
where all of them have it, and in between otherwise (`training_items`). With windows of four samples or more the last
sample of the clip, which `map_labels` leaves without labels, is not among them. The convolution is exact.
-/

namespace Bajiru.NnModel

/-! ## `makedata.py` -/

/-- What `wav.read` reads of a mono file. -/
structure Wav where
  sampleRate : Nat
  dtype : String
  samples : List ℚ

inductive MakeError where
  | label (e : LabelError)
  | scores (e : ScoresError)

/-- The environment of `makedata.py`. -/
structure MakeEnv where
  float : List Char → Option ℚ
  rnd : Python.Rounding
  cpuCount : Option Nat

/-- The rows of the scores file, for any lengths of the kernel and of the chunks. -/
def scoreRows (env : MakeEnv) (lines : List (List Char)) (wav : Wav) (frontSamples rearSamples chunkSize : Nat) :
    Except MakeError (List (List ℚ)) := do
  let (nScores, labels) ← (mapLabels env.float env.rnd lines wav.sampleRate wav.samples.length).mapError .label
  let inp := labels.map fun row => row.map fun x => (x.toNat : ℚ)
  let scores ← (tryLabelsToScores env.cpuCount inp nScores frontSamples rearSamples chunkSize).mapError .scores
  return scores.map fun row => row.map FloatFormat.half.round

/-- `convert_dataset`. -/
def convertDataset (env : MakeEnv) (lines : List (List Char)) (wav : Wav) : Except MakeError (List (List ℚ)) :=
  scoreRows env lines wav 256 (1024 * 2) 1000000

/-- `convert_audio`: the samples of the raw file. -/
def convertAudio (audioData : List ℚ) (targetSamples : Option Nat) : List ℚ :=
  let targetSamples := targetSamples.getD audioData.length
  let srcSamples := audioData.length
  if targetSamples < srcSamples then audioData.take targetSamples
  else audioData ++ List.replicate (targetSamples - srcSamples) 0

/-- The two files of `convert_labeled`. -/
structure LabeledFiles where
  dtype : String
  audio : List ℚ
  scores : List (List ℚ)

/-- `convert_labeled`. -/
def convertLabeled (env : MakeEnv) (lines : List (List Char)) (wav : Wav) : Except MakeError LabeledFiles := do
  let scores ← convertDataset env lines wav
  return ⟨wav.dtype, convertAudio wav.samples none, scores⟩

/-! ## `train.py` -/

/-- `make_source(base_path)`. -/
def makeSource (basePath : String) : String × String := (basePath ++ ".audio", basePath ++ ".scores")

namespace LabeledFiles

variable (f : LabeledFiles) (basePath : String)

def readNpyHeader (path : String) : NpyHeader :=
  if path = (makeSource basePath).1 then ⟨[f.audio.length], f.dtype⟩ else ⟨[f.scores.length, 5], "<f2"⟩

def audioFile (path : String) : List ℚ := if path = (makeSource basePath).1 then f.audio else []

def scoreFile (path : String) : ScoreArray := ⟨5, if path = (makeSource basePath).2 then f.scores else []⟩

end LabeledFiles

namespace RandomOffsetDataset

variable (s : AudioScoreDataset) (offset : Int)

/-- `_end_element(file_idx, step)`, with what `random.randint(0, hop_length - 1)` returns. -/
def endElement (fileIdx : Nat) (step : Int) : Option Int :=
  (s.endElement fileIdx step).map fun endEl => max 0 (endEl - offset)

/-- `__getitem__(index)`. -/
def getItem (audioFile : String → List ℚ) (scoreFile : String → ScoreArray) (index : Int) :
    Option (List ℚ × List ℚ) := do
  let (fileIdx, step) ← s.lookup index
  let endEl ← endElement s offset fileIdx step
  let audio ← s.makeAudio audioFile endEl fileIdx
  let scores ← s.makeScores scoreFile endEl fileIdx
  return (audio, scores)

end RandomOffsetDataset

/-! ## The scores of the labels -/

variable {kern col : List ℚ} {t : Nat}

/-- A score of samples without the label. -/
theorem score_eq_zero (hcol : ∀ k, k ≤ t → t < k + kern.length → col.getD k 0 = 0) : score kern col t = 0 := by
  rw [score_eq_sum]
  refine Finset.sum_eq_zero fun m hm => ?_
  obtain ⟨hm, hle⟩ := Finset.mem_filter.1 hm
  have hlt := Finset.mem_range.1 hm
  rw [hcol (t - m) (by omega) (by omega), mul_zero]

/-- A score of samples that all have the label. -/
theorem score_eq_one (hsum : kern.sum = 1) (hlen : kern.length ≤ t + 1)
    (hcol : ∀ k, k ≤ t → t < k + kern.length → col.getD k 0 = 1) : score kern col t = 1 := by
  rw [score_eq_sum, ← hsum, ← sum_getD, Finset.filter_true_of_mem fun m hm => by have := Finset.mem_range.1 hm; omega]
  refine Finset.sum_congr rfl fun m hm => ?_
  have hlt := Finset.mem_range.1 hm
  rw [hcol (t - m) (by omega) (by omega), mul_one]

/-- The kernel of `convert_dataset`. -/
def trainKernel : List ℚ := triangularKernel 256 (1024 * 2)

theorem length_trainKernel : trainKernel.length = 2304 := by
  simp [trainKernel, triangularKernel, frontPart, rearPart, length_linspace]

theorem trainKernel_nonneg : ∀ x ∈ trainKernel, 0 ≤ x := triangularKernel_nonneg (by omega)

theorem sum_trainKernel : trainKernel.sum = 1 := sum_triangularKernel (by omega) _

/-- Sample `k` of the recording has score label `c`, by the labels file. -/
def HasLabel (env : MakeEnv) (lines : List (List Char)) (wav : Wav) (c k : Nat) : Prop :=
  k < wav.samples.length ∧
    (labelRow fun l => InLabel env.float env.rnd lines wav.sampleRate l k)[c]? = some 1

/-- The rows that `map_labels` writes, as `labels_to_scores` reads them. -/
noncomputable def labelRows (env : MakeEnv) (lines : List (List Char)) (wav : Wav) : List (List ℚ) :=
  (List.range wav.samples.length).map fun k => (labelRow fun l =>
    k + 1 < wav.samples.length ∧ InLabel env.float env.rnd lines wav.sampleRate l k).map fun x => (x.toNat : ℚ)

variable {env : MakeEnv} {lines : List (List Char)} {wav : Wav}

/-- The scores file. -/
theorem scoreRows_eq (hfile : LabelFile env.float lines) {front rear chunkSize : Nat} (hfront : 0 < front)
    (hrear : 0 < rear) (hchunk : 0 < chunkSize) : scoreRows env lines wav front rear chunkSize =
      .ok ((causalScores (triangularKernel front rear) (labelRows env lines wav) 5).map fun row =>
        row.map FloatFormat.half.round) := by
  unfold scoreRows
  rw [mapLabels_eq hfile]
  simp only [Except.mapError, bind, Except.bind, List.map_map]
  rw [tryLabelsToScores_eq env.cpuCount (fun _ => Nat.succ_pos 4) hchunk hfront hrear]
  rfl

theorem convertDataset_eq (hfile : LabelFile env.float lines) : convertDataset env lines wav =
    .ok ((causalScores trainKernel (labelRows env lines wav) 5).map fun row => row.map FloatFormat.half.round) :=
  scoreRows_eq hfile (by omega) (by omega) (by omega)

theorem labelRow_bits (inL : Label → Prop) : (labelRow inL).length = 5 ∧ ∀ x ∈ labelRow inL, x = 0 ∨ x = 1 := by
  classical
  refine ⟨rfl, fun x hx => ?_⟩
  simp only [labelRow, List.mem_cons, List.not_mem_nil, or_false] at hx
  rcases hx with rfl | rfl | rfl | rfl | rfl <;> unfold bit <;> split <;> simp

theorem labelRows_bits : ∀ row ∈ labelRows env lines wav, ∀ x ∈ row, x = 0 ∨ x = 1 := by
  intro row hrow x hx
  obtain ⟨k, -, rfl⟩ := List.mem_map.1 hrow
  obtain ⟨bit, hbit, rfl⟩ := List.mem_map.1 hx
  rcases (labelRow_bits _).2 bit hbit with rfl | rfl
  · exact .inl rfl
  · exact .inr rfl

/-- Before the last sample of the clip, a channel is 1 at the samples with its label and 0 at the others. -/
theorem getD_channel {c k : Nat} (hc : c < 5) (hk : k + 1 < wav.samples.length) :
    (HasLabel env lines wav c k → (channel (labelRows env lines wav) c).getD k 0 = 1) ∧
      (¬HasLabel env lines wav c k → (channel (labelRows env lines wav) c).getD k 0 = 0) := by
  have hmap : (channel (labelRows env lines wav) c).getD k 0 = ((labelRows env lines wav).getD k []).getD c 0 :=
    List.getD_map (l := labelRows env lines wav) (d := []) (n := k) (·.getD c 0)
  have hlt : k < wav.samples.length := by omega
  have hin : (fun l => k + 1 < wav.samples.length ∧ InLabel env.float env.rnd lines wav.sampleRate l k) =
      fun l => InLabel env.float env.rnd lines wav.sampleRate l k :=
    funext fun l => propext (and_iff_right hk)
  rw [hmap, labelRows, getD_map_range hlt, hin]
  unfold HasLabel
  obtain ⟨hlen, hbits⟩ := labelRow_bits fun l => InLabel env.float env.rnd lines wav.sampleRate l k
  generalize (labelRow fun l => InLabel env.float env.rnd lines wav.sampleRate l k) = row at hlen hbits ⊢
  have hcolumn : c < row.length := by omega
  rw [List.getD_eq_getElem _ _ (by simpa using hcolumn), List.getElem_map, List.getElem?_eq_getElem hcolumn]
  rcases hbits _ (List.getElem_mem hcolumn) with hbit | hbit
  · rw [hbit]
    exact ⟨fun h => absurd (Option.some.inj h.2) (by decide), fun _ => by simp⟩
  · rw [hbit]
    exact ⟨fun _ => by simp, fun h => absurd ⟨hlt, rfl⟩ h⟩

/-! ## The files -/

theorem convertAudio_none (audio : List ℚ) : convertAudio audio none = audio := by
  simp [convertAudio]

theorem convertLabeled_eq (hfile : LabelFile env.float lines) :
    convertLabeled env lines wav = .ok ⟨wav.dtype, wav.samples,
    (causalScores trainKernel (labelRows env lines wav) 5).map fun row => row.map FloatFormat.half.round⟩ := by
  unfold convertLabeled
  rw [convertDataset_eq hfile, convertAudio_none]
  rfl

theorem makeSource_ne (basePath : String) : (makeSource basePath).2 ≠ (makeSource basePath).1 := by
  intro h
  exact absurd ((String.append_right_inj basePath).1 h) (by decide)

variable {f : LabeledFiles} {basePath : String} {hop win : Int} {seg : Nat}

/-- The dataset of the two files. -/
def LabeledFiles.dataset (f : LabeledFiles) (basePath : String) (hop win : Int) (seg : Nat) : AudioScoreDataset :=
  { filePairs := [makeSource basePath], hopLength := hop, winLength := win, segLength := seg, nClasses := 5,
    filesInfo := [⟨f.audio.length, nSteps f.audio.length hop win, audioMult f.dtype⟩], stepOffsets := [0],
    totalSteps := nSteps f.audio.length hop win }

theorem init_labeled (hrows : f.scores.length = f.audio.length) :
    AudioScoreDataset.init (f.readNpyHeader basePath) [makeSource basePath] hop win seg 5 =
      .ok (f.dataset basePath hop win seg) := by
  unfold AudioScoreDataset.init LabeledFiles.dataset
  rw [List.foldlM_cons]
  unfold AudioScoreDataset.addFile LabeledFiles.readNpyHeader
  simp [makeSource_ne, hrows, bind, Except.bind, pure, Except.pure]

/-- An index of the dataset is a step of the file. -/
theorem lookup_labeled (hrows : f.scores.length = f.audio.length) {index : Int} (h0 : 0 ≤ index)
    (h1 : index < (f.dataset basePath hop win seg).totalSteps) :
    (f.dataset basePath hop win seg).lookup index = some (0, index) := by
  have hinit := @init_labeled f basePath hop win seg hrows
  obtain ⟨g, info, hlookup, hinfo, -, -⟩ := (AudioScoreDataset.offsets hinit).lookup_eq (fun n hn => by
    obtain rfl := List.mem_singleton.1 hn
    exact h0.trans h1.le) h0 h1
  obtain rfl : g = 0 := by
    have := (List.getElem?_eq_some_iff.1 hinfo).1
    simpa [LabeledFiles.dataset] using this
  rwa [Bisect.start_zero, sub_zero] at hlookup

/-- The samples up to an end. -/
theorem makeAudio_labeled {e : Nat} (hle : e ≤ f.audio.length) :
    (f.dataset basePath hop win seg).makeAudio (f.audioFile basePath) e 0 =
      some ((AudioScoreDataset.segment f.audio seg e).map (· * audioMult f.dtype)) := by
  have haudio : f.audioFile basePath (makeSource basePath).1 = f.audio := if_pos rfl
  have hsegment := @AudioScoreDataset.makeAudio_eq (f.dataset basePath hop win seg) (f.audioFile basePath)
    (makeSource basePath) _ e 0 rfl rfl (by rw [haudio]; exact hle)
  rwa [haudio] at hsegment

/-- The row in the middle of the window that ends there; before the clip there are zeros. -/
theorem exists_makeScores_labeled (hrows : f.scores.length = f.audio.length) (hwin : 2 ≤ win) {e : Nat}
    (hle : e ≤ f.audio.length) :
    ∃ row, (f.dataset basePath hop win seg).makeScores (f.scoreFile basePath) e 0 = some row ∧
      (e - win / 2 < 0 ∧ row = List.replicate 5 0 ∨ 0 ≤ e - win / 2 ∧ f.scores[(e - win / 2).toNat]? = some row) := by
  have hscores : (f.scoreFile basePath (makeSource basePath).2).rows = f.scores := if_pos rfl
  have hpair : (f.dataset basePath hop win seg).filePairs[0]? = some (makeSource basePath) := rfl
  unfold AudioScoreDataset.makeScores
  simp only [hpair, Option.bind_eq_bind, Option.bind_some, hscores]
  show ∃ row, (if (e : Int) - win / 2 < 0 then _ else _) = _ ∧ _
  rcases lt_or_ge ((e : Int) - win / 2) 0 with hneg | hnonneg
  · exact ⟨List.replicate 5 0, if_pos hneg, .inl ⟨hneg, rfl⟩⟩
  · obtain ⟨t, ht⟩ := Int.eq_ofNat_of_zero_le hnonneg
    have hlt : t < f.scores.length := by omega
    refine ⟨f.scores[t], ?_, .inr ⟨hnonneg, ?_⟩⟩
    · rw [if_neg (not_lt.2 hnonneg), show (f.dataset basePath hop win seg).winMid = win / 2 from rfl, ht,
        Python.getItem_natCast, List.getElem?_eq_getElem hlt]
    · rw [ht, Int.toNat_natCast, List.getElem?_eq_getElem hlt]

/-- **An item of the dataset**: the samples up to its end, and the row in the middle of its last window. -/
theorem item_labeled (hrows : f.scores.length = f.audio.length) (hhop : 1 ≤ hop) (hwin : 2 ≤ win) {index offset : Int}
    (h0 : 0 ≤ index) (h1 : index < (f.dataset basePath hop win seg).totalSteps) (hoffset : 0 ≤ offset) :
    ∃ (e : Nat) (row : List ℚ),
      (e : Int) = max 0 (f.audio.length - ((f.dataset basePath hop win seg).totalSteps - (index + 1)) * hop - offset) ∧
      e ≤ f.audio.length ∧ RandomOffsetDataset.getItem (f.dataset basePath hop win seg) offset (f.audioFile basePath)
          (f.scoreFile basePath) index =
        some ((AudioScoreDataset.segment f.audio seg e).map (· * audioMult f.dtype), row) ∧
      (e - win / 2 < 0 ∧ row = List.replicate 5 0 ∨
        0 ≤ e - win / 2 ∧ f.scores[(e - win / 2).toNat]? = some row) := by
  have hlookup := @lookup_labeled f basePath hop win seg hrows index h0 h1
  have hback : 0 ≤ ((f.dataset basePath hop win seg).totalSteps - (index + 1)) * hop :=
    mul_nonneg (by omega) (by omega)
  obtain ⟨e, he⟩ := Int.eq_ofNat_of_zero_le
    (le_max_left 0 (f.audio.length - ((f.dataset basePath hop win seg).totalSteps - (index + 1)) * hop - offset))
  have hle : e ≤ f.audio.length := by omega
  have hend : RandomOffsetDataset.endElement (f.dataset basePath hop win seg) offset 0 index = some (e : Int) := by
    rw [← he]
    rfl
  obtain ⟨row, hmake, hcases⟩ := @exists_makeScores_labeled f basePath hop win seg hrows hwin e hle
  refine ⟨e, row, he.symm, hle, ?_, hcases⟩
  unfold RandomOffsetDataset.getItem
  simp only [hlookup, hend, makeAudio_labeled hle, hmake, Option.bind_eq_bind, Option.bind_some]
  rfl

/-! ## Items -/

/-- The samples that the score at `t` is made of. -/
def Behind (t : Int) (k : Nat) : Prop := k ≤ t ∧ t < k + 2304

/-- The target for the label `c`, of an item that ends at `e`. -/
structure IsTarget (env : MakeEnv) (lines : List (List Char)) (wav : Wav) (win : Int) (e c : Nat) (x : ℚ) : Prop where
  nonneg : 0 ≤ x
  le_one : x ≤ 1
  zero : (∀ k, Behind (e - win / 2) k → ¬HasLabel env lines wav c k) → x = 0
  one : 2303 ≤ e - win / 2 → (∀ k, Behind (e - win / 2) k → HasLabel env lines wav c k) → x = 1

/-- The scores of labels, at half precision. -/
theorem isTarget_score {e c t : Nat} (hc : c < 5) (ht : e - win / 2 = t) (hmid : t + 1 < wav.samples.length) :
    IsTarget env lines wav win e c
      (FloatFormat.half.round (score trainKernel (channel (labelRows env lines wav) c) t)) := by
  obtain ⟨hnonneg, hle⟩ := score_mem trainKernel_nonneg sum_trainKernel (getD_channel_mem labelRows_bits c) t
  have hbehind : ∀ k, k ≤ t → t < k + trainKernel.length → Behind (e - win / 2) k := by
    intro k hk hk'
    rw [length_trainKernel] at hk'
    exact ⟨by omega, by omega⟩
  refine ⟨FloatFormat.half.round_nonneg hnonneg, ?_, fun h => ?_, fun hlong h => ?_⟩
  · exact (FloatFormat.half.round_mono hle).trans_eq FloatFormat.half.round_one
  · rw [score_eq_zero fun k hk hk' => (getD_channel hc (by omega)).2 (h k (hbehind k hk hk')), FloatFormat.round_zero]
  · rw [score_eq_one sum_trainKernel (by rw [length_trainKernel]; omega)
      fun k hk hk' => (getD_channel hc (by omega)).1 (h k (hbehind k hk hk')),
      FloatFormat.round_one]

/-- The row of the scores file. -/
theorem getElem?_causalScores {t : Nat} (ht : t < wav.samples.length) :
    ((causalScores trainKernel (labelRows env lines wav) 5).map fun row => row.map FloatFormat.half.round)[t]? =
      some ((List.range 5).map fun c =>
        FloatFormat.half.round (score trainKernel (channel (labelRows env lines wav) c) t)) := by
  have hlen : t < (labelRows env lines wav).length := by simpa [labelRows] using ht
  rw [causalScores_eq, List.map_map, List.getElem?_map, List.getElem?_range hlen, Option.map_some]
  simp

/-- **Items of a labelled recording**: `convert_labeled` makes two files that the dataset takes, and each of its items
has the samples up to its end and a target for each label, from the labels behind the middle of the last window. -/
theorem training_items (hfile : LabelFile env.float lines) (hhop : 1 ≤ hop) (hwin : 4 ≤ win) (basePath : String)
    (seg : Nat) :
    ∃ f s, convertLabeled env lines wav = .ok f ∧
      AudioScoreDataset.init (f.readNpyHeader basePath) [makeSource basePath] hop win seg 5 = .ok s ∧
      s.totalSteps = nSteps wav.samples.length hop win ∧
      ∀ index offset, 0 ≤ index → index < s.totalSteps → 0 ≤ offset → ∃ (e : Nat) (targets : List ℚ),
        (e : Int) = max 0 (wav.samples.length - (s.totalSteps - (index + 1)) * hop - offset) ∧ e ≤ wav.samples.length ∧
          RandomOffsetDataset.getItem s offset (f.audioFile basePath) (f.scoreFile basePath) index =
            some ((AudioScoreDataset.segment wav.samples seg e).map (· * audioMult wav.dtype), targets) ∧
          targets.length = 5 ∧ ∀ c x, targets[c]? = some x → IsTarget env lines wav win e c x := by
  have hrows : ((causalScores trainKernel (labelRows env lines wav) 5).map fun row =>
      row.map FloatFormat.half.round).length = wav.samples.length := by
    simp [causalScores, labelRows]
  refine ⟨_, _, convertLabeled_eq hfile, init_labeled hrows, rfl, fun index offset h0 h1 hoffset => ?_⟩
  obtain ⟨e, row, he, hle, hitem, hcases⟩ := item_labeled hrows hhop (by omega) h0 h1 hoffset
  have hend : e ≤ wav.samples.length := hle
  refine ⟨e, row, he, hle, hitem, ?_⟩
  rcases hcases with ⟨hneg, rfl⟩ | ⟨hnonneg, hrow⟩
  · refine ⟨rfl, fun c x hx => ?_⟩
    obtain rfl := List.eq_of_mem_replicate (List.mem_of_getElem? hx)
    exact ⟨le_rfl, zero_le_one, fun _ => rfl, fun hlong => by omega⟩
  · obtain ⟨t, ht⟩ := Int.eq_ofNat_of_zero_le hnonneg
    rw [ht, Int.toNat_natCast, getElem?_causalScores (by omega), Option.some_inj] at hrow
    subst hrow
    refine ⟨by simp, fun c x hx => ?_⟩
    rw [List.getElem?_map] at hx
    obtain ⟨c', hc, rfl⟩ := Option.map_eq_some_iff.1 hx
    obtain ⟨hlt, rfl⟩ := List.getElem?_eq_some_iff.1 hc
    rw [List.getElem_range]
    -- half a window of at least two samples lies between the row and the end of the clip
    exact isTarget_score (by simpa using hlt) ht (by omega)

/-- 4000 samples at two a second. -/
def longWav : Wav := ⟨2, "<i2", List.replicate 4000 1⟩

/-- `makedata.py` with exact times. -/
def exactEnv : MakeEnv := ⟨oneDigit, .exact, none⟩

/-- Behind the second the recording is noise. -/
theorem labelRow_bajiSecond {k : Nat} (hk : 2 ≤ k) :
    (labelRow fun l => InLabel oneDigit .exact bajiSecond 2 l k) = [0, 0, 1, 0, 0] := by
  simp [labelRow, bit, not_inLabel_bajiSecond _ hk]

theorem training_items_longWav : ∃ f s, convertLabeled exactEnv bajiSecond longWav = .ok f ∧
    AudioScoreDataset.init (f.readNpyHeader "train") [makeSource "train"] 800 2400 24000 5 = .ok s ∧ ∃ audio targets,
      RandomOffsetDataset.getItem s 0 (f.audioFile "train") (f.scoreFile "train") 2 = some (audio, targets) ∧
        targets[0]? = some 0 ∧ targets[2]? = some 1 := by
  obtain ⟨f, s, hf, hs, hsteps, hitems⟩ :=
    @training_items exactEnv bajiSecond longWav 800 2400 bajiSecond_file (by decide) (by decide) "train" 24000
  have hlen : longWav.samples.length = 4000 := List.length_replicate
  have hthree : s.totalSteps = 3 := by
    rw [hsteps, hlen]
    decide
  obtain ⟨e, targets, he, -, hitem, hfive, htargets⟩ := hitems 2 0 (by decide) (by omega) le_rfl
  rw [hthree, hlen] at he
  obtain rfl : e = 4000 := by omega
  have hrow : ∀ k, Behind ((4000 : Nat) - 2400 / 2) k →
      (labelRow fun l => InLabel oneDigit .exact bajiSecond 2 l k) = [0, 0, 1, 0, 0] ∧ k < longWav.samples.length := by
    rintro k ⟨hk, hk'⟩
    exact ⟨labelRow_bajiSecond (by omega), by omega⟩
  refine ⟨f, s, hf, hs, _, targets, hitem, ?_, ?_⟩
  · rw [List.getElem?_eq_getElem (show 0 < targets.length by omega), Option.some_inj]
    refine (htargets 0 _ (List.getElem?_eq_getElem _)).zero fun k hk hlabel => ?_
    rw [HasLabel, exactEnv, longWav, (hrow k hk).1] at hlabel
    exact absurd (Option.some.inj hlabel.2) (by decide)
  · rw [List.getElem?_eq_getElem (show 2 < targets.length by omega), Option.some_inj]
    refine (htargets 2 _ (List.getElem?_eq_getElem _)).one (by decide) fun k hk => ⟨(hrow k hk).2, ?_⟩
    rw [exactEnv, longWav, (hrow k hk).1]
    rfl

end Bajiru.NnModel
