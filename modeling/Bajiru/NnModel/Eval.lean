import Bajiru.NnModel.Dataset

/-!
# `AudioDataset` of `eval.py`

The windows of the evaluation. The audio is padded on the left, and window `index` ends at `index * hop + win` of the
padded audio (`getItem_eq`). The padding is the remainder of what lies in front of the first window, and not what this
part lacks to the next hop: so the windows are those of the training exactly if the hop divides twice that part
(`sameWindows_iff`). Two windows that end at the same sample are the same item, if they do not reach into the padding
(`getItem_eq_makeAudio`).
-/

namespace Bajiru.NnModel

/-- The index that `mode="reflect"` reads `d` places before the start of `n` samples. -/
def reflectIndex (n d : Nat) : Nat :=
  let i := d % (2 * (n - 1))
  if i < n then i else 2 * (n - 1) - i

/-- `np.pad(audio, (padLeft, 0), mode="reflect")`. -/
def padReflect (audio : List ℚ) (padLeft : Nat) : List ℚ :=
  (List.range padLeft).map (fun i => audio.getD (reflectIndex audio.length (padLeft - i)) 0) ++ audio

@[simp] theorem length_padReflect (audio : List ℚ) (padLeft : Nat) :
    (padReflect audio padLeft).length = padLeft + audio.length := by simp [padReflect]

structure AudioDataset where
  segmentSamples : Int
  hop : Int
  win : Int
  mult : ℚ
  audio : List ℚ
  sampleCount : Int

namespace AudioDataset

/-- `AudioDataset(audio, segment_samples, hop_length, win_length, device, audio_mult)`. -/
def init (audio : List ℚ) (segmentSamples hop win : Int) (mult : ℚ) : AudioDataset :=
  let total : Int := audio.length
  let padLeft := (total - win) % hop
  let padded := padReflect audio padLeft.toNat
  let total := total + padLeft
  { segmentSamples := segmentSamples, hop := hop, win := win, mult := mult, audio := padded,
    sampleCount := (total - win) / hop + 1 }

/-- `__getitem__(index)`. -/
def getItem (s : AudioDataset) (index : Int) : List ℚ :=
  let index := index * s.hop
  let pad := s.segmentSamples - s.win
  let seg :=
    if pad > index then List.replicate (pad - index).toNat 0 ++ Python.slice s.audio 0 (index + s.win)
    else Python.slice s.audio (index - pad) (index + s.win)
  seg.map (· * s.mult)

/-- Where window `index` ends in the audio, which had `total` samples before the padding. -/
def endPosition (s : AudioDataset) (total index : Int) : Int := index * s.hop + s.win - (s.audio.length - total)

/-! ## The items -/

/-- **`__getitem__`**: the segment that ends with the window. -/
theorem getItem_eq {s : AudioDataset} {index e n : Nat} (hend : (index : Int) * s.hop + s.win = e)
    (hn : s.segmentSamples = n) : s.getItem index = (AudioScoreDataset.segment s.audio n e).map (· * s.mult) := by
  unfold getItem
  dsimp only
  rw [hend, hn, AudioScoreDataset.segment_eq]
  split
  next h =>
    have hslice : Python.slice s.audio 0 e = s.audio.take e := Python.slice_natCast _ 0 e
    rw [hslice, show ((n : Int) - s.win - index * s.hop).toNat = n - e by omega, Nat.sub_eq_zero_of_le (by omega : e ≤ n)]
    rfl
  next h =>
    have hslice : Python.slice s.audio (index * s.hop - (n - s.win)) e = (s.audio.take e).drop (e - n) := by
      rw [show (index : Int) * s.hop - (n - s.win) = ((e - n : Nat) : Int) by omega]
      exact Python.slice_natCast _ _ e
    rw [hslice, Nat.sub_eq_zero_of_le (by omega : n ≤ e)]
    rfl

/-! ## The windows -/

/-- The evaluation cuts the windows of the training out of the file `f`, which holds `audio`. -/
structure SameWindows (audio : List ℚ) (s : AudioDataset) (ds : AudioScoreDataset) (f : Nat) : Prop where
  count : s.sampleCount = ⌈(((audio.length : Int) - s.win : Int) : ℚ) / s.hop⌉ + 1
  steps : ds.filesInfo[f]?.map FileInfo.nSteps = some s.sampleCount
  aligned : s.hop ∣ s.audio.length - s.win
  last : s.endPosition audio.length (s.sampleCount - 1) = audio.length
  ends : ∀ step, 0 ≤ step → step < s.sampleCount →
    ds.endElement f step = some (s.endPosition audio.length step)

/-- Adding the remainder. -/
theorem dvd_add_emod_iff (a b : Int) : b ∣ a + a % b ↔ b ∣ 2 * a := by
  have hsplit := Int.mul_ediv_add_emod a b
  rw [show a + a % b = 2 * a - b * (a / b) by linarith]
  exact dvd_sub_left (dvd_mul_right b _)

/-- If the hop divides what is padded, the division is the one that was rounded up. -/
theorem ceil_div_eq {a b : Int} (hb : 0 < b) (h : b ∣ a + a % b) : ⌈(a : ℚ) / b⌉ = (a + a % b) / b := by
  obtain ⟨c, hc⟩ := h
  have hsplit := Int.mul_ediv_add_emod a b
  rw [ceil_div hb, hc, Int.mul_ediv_cancel_left c hb.ne']
  split
  next hmod =>
    rw [hmod, add_zero] at hc
    rw [hc, Int.mul_ediv_cancel_left c hb.ne']
  next hmod =>
    have hlo : 0 < a % b := lt_of_le_of_ne (Int.emod_nonneg a hb.ne') (Ne.symm hmod)
    have hhi := Int.emod_lt_of_pos a hb
    -- twice the remainder is a multiple of the hop between 0 and two hops
    have hmul : 2 * (a % b) = b * (c - a / b) := by linarith
    have hpos : 0 < c - a / b := by
      by_contra hle
      nlinarith
    have hlt : c - a / b < 2 := by
      by_contra hge
      nlinarith
    omega

section Clip

variable {audio : List ℚ} {segmentSamples hop win : Int} {mult : ℚ} {readNpyHeader : String → NpyHeader}
  {pairs : List (String × String)} {seg nClasses f : Nat} {pair : String × String} {ds : AudioScoreDataset}

@[simp] theorem hop_init : (init audio segmentSamples hop win mult).hop = hop := rfl

@[simp] theorem win_init : (init audio segmentSamples hop win mult).win = win := rfl

variable (audio segmentSamples win mult) in
theorem length_audio_init (hhop : 1 ≤ hop) : ((init audio segmentSamples hop win mult).audio.length : Int) =
    audio.length + (audio.length - win) % hop := by
  have hnonneg := Int.emod_nonneg ((audio.length : Int) - win) (by omega : hop ≠ 0)
  simp only [init, length_padReflect]
  omega

variable (audio segmentSamples win mult) in
theorem endPosition_init (hhop : 1 ≤ hop) (index : Int) :
    (init audio segmentSamples hop win mult).endPosition audio.length index =
      index * hop + win - (audio.length - win) % hop := by
  rw [endPosition, length_audio_init audio segmentSamples win mult hhop]
  rw [hop_init, win_init]
  omega

/-- What the training has of the file. -/
theorem endElement_init (hds : AudioScoreDataset.init readNpyHeader pairs hop win seg nClasses = .ok ds)
    (hpair : pairs[f]? = some pair) (hclip : (readNpyHeader pair.1).shape[0]? = some audio.length) :
    ds.filesInfo[f]?.map FileInfo.nSteps = some (nSteps audio.length hop win) ∧
      ∀ step, ds.endElement f step = some (audio.length - (nSteps audio.length hop win - (step + 1)) * hop) := by
  have hbuilt := AudioScoreDataset.built hds
  obtain ⟨info, hinfo, hdescribes⟩ := hbuilt.describes hpair
  have hsize : info.size = audio.length := Option.some.inj (hdescribes.size.symm.trans hclip)
  have hsteps := hdescribes.nSteps
  rw [hsize] at hsteps
  refine ⟨by rw [hinfo, Option.map_some, hsteps], fun step => ?_⟩
  rw [AudioScoreDataset.endElement, hinfo, Option.map_some, hsize, hsteps, hbuilt.hopLength]

/-- **The windows of the evaluation are those of the training** exactly if the hop divides twice what lies in front of the
first window. -/
theorem sameWindows_iff (hhop : 1 ≤ hop) (hds : AudioScoreDataset.init readNpyHeader pairs hop win seg nClasses = .ok ds)
    (hpair : pairs[f]? = some pair) (hclip : (readNpyHeader pair.1).shape[0]? = some audio.length) :
    SameWindows audio (init audio segmentSamples hop win mult) ds f ↔ hop ∣ 2 * (audio.length - win) := by
  have hpos : 0 < hop := by omega
  have hlen := length_audio_init audio segmentSamples win mult hhop
  have hend := endPosition_init audio segmentSamples win mult hhop
  obtain ⟨hsteps, helement⟩ := endElement_init hds hpair hclip
  have hpadded : (audio.length : Int) + (audio.length - win) % hop - win =
      audio.length - win + (audio.length - win) % hop := by ring
  have hcount : (init audio segmentSamples hop win mult).sampleCount =
      (audio.length - win + (audio.length - win) % hop) / hop + 1 := by
    rw [← hpadded]
    rfl
  rw [← dvd_add_emod_iff]
  constructor
  · intro h
    have haligned := h.aligned
    rwa [hlen, hop_init, win_init, hpadded] at haligned
  · intro h
    have hceil := ceil_div_eq hpos h
    obtain ⟨c, hc⟩ := h
    rw [hc, Int.mul_ediv_cancel_left c hpos.ne'] at hcount hceil
    rw [nSteps_eq hpos, hceil] at hsteps helement
    refine ⟨?_, ?_, ?_, ?_, fun step _ _ => ?_⟩
    · rw [hcount, win_init, hop_init, hceil]
    · rw [hsteps, hcount]
    · rw [hlen, hop_init, win_init, hpadded]
      exact ⟨c, hc⟩
    · rw [hcount, hend]
      linarith
    · rw [helement, hend, Option.some.injEq]
      linarith

/-- Behind the padding, the padded audio is the audio. -/
theorem segment_padReflect {n e k : Nat} (h : k = 0 ∨ n ≤ e) :
    AudioScoreDataset.segment (padReflect audio k) n (k + e) = AudioScoreDataset.segment audio n e := by
  rcases h with rfl | h
  · rw [Nat.zero_add, padReflect, List.range_zero, List.map_nil, List.nil_append]
  · have hlen : ((List.range k).map fun i => audio.getD (reflectIndex audio.length (k - i)) 0).length = k := by simp
    rw [AudioScoreDataset.segment_eq, AudioScoreDataset.segment_eq, padReflect]
    generalize ((List.range k).map fun i => audio.getD (reflectIndex audio.length (k - i)) 0) = front at hlen
    subst hlen
    rw [List.take_length_add_append, show front.length + e - n = front.length + (e - n) by omega,
      List.drop_length_add_append, Nat.sub_eq_zero_of_le h, Nat.sub_eq_zero_of_le (by omega : n ≤ front.length + e)]

/-- **The items of the same window**, if no segment reaches into a padding. -/
theorem getItem_eq_makeAudio {cachedFile : String → List ℚ} (hhop : 1 ≤ hop)
    (hds : AudioScoreDataset.init readNpyHeader pairs hop win seg nClasses = .ok ds) (hpair : pairs[f]? = some pair)
    (haudio : cachedFile pair.1 = audio)
    {step e : Nat} (he : e ≤ audio.length)
    (hend : (init audio seg hop win (audioMult (readNpyHeader pair.1).dtype)).endPosition audio.length step = e)
    (hfull : ((audio.length : Int) - win) % hop = 0 ∨ seg ≤ e) :
    ds.makeAudio cachedFile e f =
      some ((init audio seg hop win (audioMult (readNpyHeader pair.1).dtype)).getItem step) := by
  have hbuilt := AudioScoreDataset.built hds
  obtain ⟨info, hinfo, hdescribes⟩ := hbuilt.describes hpair
  have hpad := Int.emod_nonneg ((audio.length : Int) - win) (by omega : hop ≠ 0)
  rw [endPosition_init _ _ _ _ hhop] at hend
  rw [AudioScoreDataset.makeAudio_eq (hbuilt.filePairs ▸ hpair) hinfo (haudio ▸ he), haudio, hbuilt.segLength,
    hdescribes.mult]
  have hitem : (init audio seg hop win (audioMult (readNpyHeader pair.1).dtype)).getItem step = _ :=
    getItem_eq (e := (((audio.length : Int) - win) % hop).toNat + e) (n := seg)
      (by rw [hop_init, win_init]; omega) rfl
  rw [hitem]
  exact congrArg _ (congrArg _ (segment_padReflect (by omega)).symm)

end Clip

/-! ## A clip of three samples -/

/-- The headers of a clip of three samples and of its scores. -/
def clipHeader (path : String) : NpyHeader := if path = "clip.npy" then ⟨[3], "<i2"⟩ else ⟨[3, 4], "<f4"⟩

/-- The clip in windows of two samples. -/
def clip : AudioScoreDataset :=
  { filePairs := [("clip.npy", "scores.npy")], hopLength := 2, winLength := 2, segLength := 2, nClasses := 4,
    filesInfo := [⟨3, 2, 1 / 0x7FFF⟩], stepOffsets := [0], totalSteps := 2 }

/-- A hop of two samples, of which one is left over. -/
theorem sameWindows_two : SameWindows [1, 2, 3] (init [1, 2, 3] 2 2 2 1) clip 0 := by
  have hclip : AudioScoreDataset.init clipHeader [("clip.npy", "scores.npy")] 2 2 2 4 = .ok clip := rfl
  exact (sameWindows_iff (by decide) hclip rfl rfl).2 (by decide)

/-- A hop of three samples, of which one is left over. -/
theorem sameWindows_three : ¬ ∀ (audio : List ℚ) (segmentSamples hop win : Int) (mult : ℚ)
    (readNpyHeader : String → NpyHeader) (pairs : List (String × String)) (seg nClasses f : Nat) (pair : String × String)
    (ds : AudioScoreDataset), 1 ≤ hop → 2 ≤ win → win ≤ segmentSamples → win ≤ audio.length →
    AudioScoreDataset.init readNpyHeader pairs hop win seg nClasses = .ok ds → pairs[f]? = some pair →
    (readNpyHeader pair.1).shape[0]? = some audio.length →
    SameWindows audio (init audio segmentSamples hop win mult) ds f := by
  intro hall
  have hsame := hall [1, 2, 3] 2 3 2 1 clipHeader [("clip.npy", "scores.npy")] 2 4 0 ("clip.npy", "scores.npy") _
    (by decide) (by decide) (by decide) (by decide) rfl rfl rfl
  exact absurd hsame.aligned (by decide)

end AudioDataset

end Bajiru.NnModel
