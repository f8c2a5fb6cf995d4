import Bajiru.Python

/-!
# `map_labels`

The labels of a text file as a row of 0 and 1 for each sample. The end of a range is clamped to the last sample, but
the end of a slice is exclusive: the last sample of the clip gets no label (`getD_labelSamples`), so its row is right
exactly if the file labels it neither as baji nor as ru nor as instrumental (`mapLabels_iff`). The times are rationals,
and their products with the sample rate are rounded as the floats of the machine may have it.
-/

namespace Bajiru.NnModel

/-- The keys of `label_map`. -/
inductive Label where
  | p | b | r | n | e | i | s | v | y | w
  deriving DecidableEq, Repr

inductive LabelError where
  | valueError
  | keyError (label : List Char)

/-- `label_map[label]`. -/
def Label.ofText : List Char → Option Label
  | ['p'] => some .p
  | ['b'] => some .b
  | ['r'] => some .r
  | ['n'] => some .n
  | ['e'] => some .e
  | ['i'] => some .i
  | ['s'] => some .s
  | ['v'] => some .v
  | ['y'] => some .y
  | ['w'] => some .w
  | _ => none

/-- A line of the file, with `float` for the texts that are finite numbers. -/
def readLine (float : List Char → Option ℚ) (line : List Char) : Except LabelError (Label × ℚ × ℚ) :=
  match (Python.strip line).splitOn '\t' with
  | [start, stop, label] =>
    match Label.ofText label, float start, float stop with
    | none, _, _ => .error (.keyError label)
    | some l, some f, some t => .ok (l, f, t)
    | _, _, _ => .error .valueError
  | _ => .error .valueError

/-- A pass of the loop over the lines. -/
def addLine (float : List Char → Option ℚ) (labelMap : Label → List (ℚ × ℚ)) (line : List Char) :
    Except LabelError (Label → List (ℚ × ℚ)) :=
  (readLine float line).map fun entry => Function.update labelMap entry.1 (labelMap entry.1 ++ [entry.2])

/-- `label_map`. -/
def readLabels (float : List Char → Option ℚ) (lines : List (List Char)) : Except LabelError (Label → List (ℚ × ℚ)) :=
  lines.foldlM (addLine float) fun _ => []

/-- `time_range_to_sample_range(start, end, sample_rate)`. -/
def timeRangeToSampleRange (rnd : Python.Rounding) (start stop : ℚ) (sampleRate : Nat) : Int × Int :=
  let first := Python.int (rnd.toFun (start * sampleRate))
  let last := Python.int (rnd.toFun (stop * sampleRate))
  (first, last)

/-- A pass of the loop over the ranges of a label. -/
def addRange (rnd : Python.Rounding) (sampleRate nSamples : Nat) (lSamples : List UInt8) (range : ℚ × ℚ) : List UInt8 :=
  let samples := timeRangeToSampleRange rnd range.1 range.2 sampleRate
  if nSamples ≤ samples.1 then lSamples
  else Python.setSlice lSamples samples.1 (min samples.2 ((nSamples : Int) - 1)) 1

/-- `label_samples[label]`. -/
def labelSamples (rnd : Python.Rounding) (sampleRate nSamples : Nat) (timeRanges : List (ℚ × ℚ)) : List UInt8 :=
  timeRanges.foldl (addRange rnd sampleRate nSamples) (List.replicate nSamples 0)

/-- A row of `out`, from the samples of the labels. -/
def scoreRow (p b r e i s : UInt8) : List UInt8 :=
  let baji := p * b
  let ru := p * r
  [baji, ru, max (1 - max baji ru) e, p * i, s * max baji ru]

/-- `map_labels`: the number of label types, and the rows of the output file. -/
def mapLabels (float : List Char → Option ℚ) (rnd : Python.Rounding) (lines : List (List Char))
    (sampleRate nSamples : Nat) : Except LabelError (Nat × List (List UInt8)) := do
  let labelMap ← readLabels float lines
  let samples := fun l => labelSamples rnd sampleRate nSamples (labelMap l)
  let out := (List.range nSamples).map fun k =>
    scoreRow ((samples .p).getD k 0) ((samples .b).getD k 0) ((samples .r).getD k 0) ((samples .e).getD k 0)
      ((samples .i).getD k 0) ((samples .s).getD k 0)
  return (5, out)

/-! ## The ranges of the file -/

section Reading

variable {float : List Char → Option ℚ} {lines : List (List Char)} {labelMap : Label → List (ℚ × ℚ)}

theorem mem_update {entry : Label × ℚ × ℚ} {l : Label} {range : ℚ × ℚ} :
    range ∈ Function.update labelMap entry.1 (labelMap entry.1 ++ [entry.2]) l ↔
      range ∈ labelMap l ∨ entry = (l, range) := by
  rcases eq_or_ne l entry.1 with rfl | hne
  · rw [Function.update_self, List.mem_append, List.mem_singleton]
    exact or_congr_right ⟨fun h => h ▸ rfl, fun h => congrArg Prod.snd h.symm⟩
  · rw [Function.update_of_ne hne]
    exact ⟨Or.inl, fun h => h.resolve_right fun heq => hne (congrArg Prod.fst heq).symm⟩

/-- The lines add their ranges to those of `labelMap`. -/
theorem mem_foldlM_addLine {out : Label → List (ℚ × ℚ)} (h : lines.foldlM (addLine float) labelMap = .ok out)
    (l : Label) (range : ℚ × ℚ) :
    range ∈ out l ↔ range ∈ labelMap l ∨ ∃ line ∈ lines, readLine float line = .ok (l, range) := by
  induction lines generalizing labelMap with
  | nil =>
    cases h
    simp
  | cons line lines ih =>
    rw [List.foldlM_cons, addLine] at h
    cases hline : readLine float line with
    | error e =>
      rw [hline] at h
      cases h
    | ok entry =>
      rw [hline] at h
      rw [ih h, mem_update, or_assoc]
      simp [hline]

theorem mem_readLabels (h : readLabels float lines = .ok labelMap) (l : Label) (range : ℚ × ℚ) :
    range ∈ labelMap l ↔ ∃ line ∈ lines, readLine float line = .ok (l, range) := by
  rw [mem_foldlM_addLine h]
  simp

/-- Every line is a range of times that are not negative. -/
def LabelFile (float : List Char → Option ℚ) (lines : List (List Char)) : Prop :=
  ∀ line ∈ lines, ∃ l f t, readLine float line = .ok (l, f, t) ∧ 0 ≤ f ∧ 0 ≤ t

theorem exists_foldlM_addLine (h : LabelFile float lines) : ∃ out, lines.foldlM (addLine float) labelMap = .ok out := by
  induction lines generalizing labelMap with
  | nil => exact ⟨labelMap, rfl⟩
  | cons line lines ih =>
    obtain ⟨l, f, t, hline, -⟩ := h line List.mem_cons_self
    rw [List.foldlM_cons, addLine, hline]
    exact ih fun line hmem => h line (List.mem_cons_of_mem _ hmem)

/-- A labels file is read. -/
theorem LabelFile.reads (h : LabelFile float lines) : ∃ labelMap, readLabels float lines = .ok labelMap :=
  exists_foldlM_addLine h

end Reading

/-! ## The samples of a label -/

variable {rnd : Python.Rounding} {sampleRate nSamples : Nat} {timeRanges : List (ℚ × ℚ)} {k : Nat}

/-- A range holds a sample. -/
def InRange (rnd : Python.Rounding) (sampleRate : Nat) (range : ℚ × ℚ) (k : Nat) : Prop :=
  Python.int (rnd.toFun (range.1 * sampleRate)) ≤ k ∧ (k : Int) < Python.int (rnd.toFun (range.2 * sampleRate))

instance (range : ℚ × ℚ) : Decidable (InRange rnd sampleRate range k) :=
  inferInstanceAs (Decidable (_ ∧ _))

theorem int_product_nonneg (rnd : Python.Rounding) (sampleRate : Nat) {x : ℚ} (hx : 0 ≤ x) :
    0 ≤ Python.int (rnd.toFun (x * sampleRate)) :=
  Python.int_nonneg (rnd.nonneg (mul_nonneg hx (Nat.cast_nonneg _)))

theorem length_addRange (lSamples : List UInt8) (range : ℚ × ℚ) :
    (addRange rnd sampleRate nSamples lSamples range).length = lSamples.length := by
  unfold addRange
  dsimp only
  split
  · rfl
  · exact Python.length_setSlice _ _ _ _

/-- A range marks its samples, but for the last of the clip. -/
theorem getElem?_addRange {lSamples : List UInt8} {range : ℚ × ℚ} (hlen : lSamples.length = nSamples) (h0 : 0 ≤ range.1)
    (h1 : 0 ≤ range.2) (hk : k < nSamples) :
    (addRange rnd sampleRate nSamples lSamples range)[k]? =
      if k + 1 < nSamples ∧ InRange rnd sampleRate range k then some 1 else lSamples[k]? := by
  have hfirst := int_product_nonneg rnd sampleRate h0
  have hlast := int_product_nonneg rnd sampleRate h1
  unfold addRange timeRangeToSampleRange
  dsimp only
  split
  next hle => rw [if_neg (by unfold InRange; omega)]
  next hlt =>
    rw [Python.getElem?_setSlice hfirst (by omega) (by omega)]
    exact if_congr (by unfold InRange; omega) rfl rfl

theorem length_labelSamples : (labelSamples rnd sampleRate nSamples timeRanges).length = nSamples := by
  induction timeRanges using List.reverseRecOn with
  | nil => exact List.length_replicate
  | append_singleton timeRanges range ih =>
    rw [labelSamples, List.foldl_append]
    exact (length_addRange _ range).trans ih

def bit (P : Prop) [Decidable P] : UInt8 := if P then 1 else 0

/-- **The samples of a label** are those of its ranges, but for the last of the clip. -/
theorem getD_labelSamples (hnonneg : ∀ range ∈ timeRanges, 0 ≤ range.1 ∧ 0 ≤ range.2) (hk : k < nSamples) :
    (labelSamples rnd sampleRate nSamples timeRanges).getD k 0 =
      bit (k + 1 < nSamples ∧ ∃ range ∈ timeRanges, InRange rnd sampleRate range k) := by
  induction timeRanges using List.reverseRecOn with
  | nil => simp [labelSamples, bit, hk]
  | append_singleton timeRanges range ih =>
    obtain ⟨h0, h1⟩ := hnonneg range (by simp)
    have hprefix := ih fun range hmem => hnonneg range (by simp [hmem])
    have hstep : labelSamples rnd sampleRate nSamples (timeRanges ++ [range]) =
        addRange rnd sampleRate nSamples (labelSamples rnd sampleRate nSamples timeRanges) range := by
      rw [labelSamples, List.foldl_append]
      rfl
    rw [hstep, List.getD_eq_getElem?_getD, getElem?_addRange length_labelSamples h0 h1 hk]
    split
    next hin =>
      rw [bit, if_pos ⟨hin.1, range, by simp, hin.2⟩]
      rfl
    next hout =>
      rw [← List.getD_eq_getElem?_getD, hprefix]
      refine if_congr (and_congr_right fun hlt => ?_) rfl rfl
      simp [show ¬ InRange rnd sampleRate range k from fun hin => hout ⟨hlt, hin⟩]

/-! ## The rows -/

section Bits

variable (P Q : Prop) [Decidable P] [Decidable Q]

@[simp] theorem bit_mul_bit : bit P * bit Q = bit (P ∧ Q) := by
  by_cases hP : P <;> by_cases hQ : Q <;> simp [bit, hP, hQ]

@[simp] theorem max_bit_bit : max (bit P) (bit Q) = bit (P ∨ Q) := by
  by_cases hP : P <;> by_cases hQ : Q <;> simp [bit, hP, hQ] <;> rfl

@[simp] theorem one_sub_bit : 1 - bit P = bit ¬P := by
  by_cases hP : P <;> simp [bit, hP]

theorem bit_inj : bit P = bit Q ↔ (P ↔ Q) := by
  by_cases hP : P <;> by_cases hQ : Q <;> simp [bit, hP, hQ]

end Bits

/-- Some range of label `l` holds sample `k`. -/
def InLabel (float : List Char → Option ℚ) (rnd : Python.Rounding) (lines : List (List Char)) (sampleRate : Nat)
    (l : Label) (k : Nat) : Prop :=
  ∃ line ∈ lines, ∃ f t, readLine float line = .ok (l, f, t) ∧ InRange rnd sampleRate (f, t) k

open scoped Classical in
/-- What a row should be, for the labels of its sample. -/
noncomputable def labelRow (inL : Label → Prop) : List UInt8 :=
  let row0 := inL .p ∧ inL .b
  let row1 := inL .p ∧ inL .r
  [bit row0, bit row1, bit (¬(row0 ∨ row1) ∨ inL .e), bit (inL .p ∧ inL .i), bit (inL .s ∧ (row0 ∨ row1))]

theorem scoreRow_bit (inL : Label → Prop) [DecidablePred inL] :
    scoreRow (bit (inL .p)) (bit (inL .b)) (bit (inL .r)) (bit (inL .e)) (bit (inL .i)) (bit (inL .s)) =
      labelRow inL := by
  simp [scoreRow, labelRow, bit_inj]

variable {float : List Char → Option ℚ} {lines : List (List Char)} {labelMap : Label → List (ℚ × ℚ)}

/-- The ranges that are read from a labels file. -/
theorem LabelFile.nonneg (hfile : LabelFile float lines) (hread : readLabels float lines = .ok labelMap) (l : Label) :
    ∀ range ∈ labelMap l, 0 ≤ range.1 ∧ 0 ≤ range.2 := by
  intro range hmem
  obtain ⟨line, hline, hok⟩ := (mem_readLabels hread l range).1 hmem
  obtain ⟨l', f, t, hok', hf, ht⟩ := hfile line hline
  rw [hok'] at hok
  cases hok
  exact ⟨hf, ht⟩

theorem inLabel_iff (hread : readLabels float lines = .ok labelMap) (l : Label) :
    (∃ range ∈ labelMap l, InRange rnd sampleRate range k) ↔ InLabel float rnd lines sampleRate l k := by
  constructor
  · rintro ⟨⟨f, t⟩, hmem, hin⟩
    obtain ⟨line, hline, hok⟩ := (mem_readLabels hread l _).1 hmem
    exact ⟨line, hline, f, t, hok, hin⟩
  · rintro ⟨line, hline, f, t, hok, hin⟩
    exact ⟨(f, t), (mem_readLabels hread l _).2 ⟨line, hline, hok⟩, hin⟩

/-- **`map_labels`**: the rows, with the last sample of the clip in no label. -/
theorem mapLabels_eq (hfile : LabelFile float lines) :
    mapLabels float rnd lines sampleRate nSamples =
      .ok (5, (List.range nSamples).map fun k =>
        labelRow fun l => k + 1 < nSamples ∧ InLabel float rnd lines sampleRate l k) := by
  classical
  obtain ⟨labelMap, hread⟩ := hfile.reads
  have hlabel : ∀ l k, k < nSamples → (labelSamples rnd sampleRate nSamples (labelMap l)).getD k 0 =
      bit (k + 1 < nSamples ∧ InLabel float rnd lines sampleRate l k) := by
    intro l k hk
    rw [getD_labelSamples (hfile.nonneg hread l) hk, bit_inj]
    exact and_congr_right fun _ => inLabel_iff hread l
  rw [mapLabels, hread]
  refine congrArg (fun out => Except.ok (5, out)) (List.map_congr_left fun k hk => ?_)
  have hk' := List.mem_range.1 hk
  dsimp only
  rw [hlabel .p k hk', hlabel .b k hk', hlabel .r k hk', hlabel .e k hk', hlabel .i k hk', hlabel .s k hk']
  exact scoreRow_bit fun l => k + 1 < nSamples ∧ InLabel float rnd lines sampleRate l k

/-- The row of a sample without labels is right exactly if no score of a voice or an instrument is missing. -/
theorem labelRow_false_iff (inL : Label → Prop) :
    labelRow (fun _ => False) = labelRow inL ↔ (inL .p → ¬inL .b ∧ ¬inL .r ∧ ¬inL .i) := by
  classical
  simp only [labelRow, List.cons.injEq, bit_inj, and_true]
  grind

/-- The output file has the row of every sample. -/
def MarksLabels (float : List Char → Option ℚ) (rnd : Python.Rounding) (lines : List (List Char))
    (sampleRate nSamples : Nat) (out : List (List UInt8)) : Prop :=
  out.length = nSamples ∧ ∀ k, k < nSamples → out[k]? = some (labelRow fun l => InLabel float rnd lines sampleRate l k)

/-- The rows before the last are right; the last is exactly if its sample has no label that is multiplied. -/
theorem marksLabels_iff : MarksLabels float rnd lines sampleRate nSamples ((List.range nSamples).map fun k =>
      labelRow fun l => k + 1 < nSamples ∧ InLabel float rnd lines sampleRate l k) ↔
    ∀ k, k + 1 = nSamples → InLabel float rnd lines sampleRate .p k → ¬InLabel float rnd lines sampleRate .b k ∧
      ¬InLabel float rnd lines sampleRate .r k ∧ ¬InLabel float rnd lines sampleRate .i k := by
  have hlast : ∀ k, k + 1 = nSamples → (labelRow (fun l => k + 1 < nSamples ∧ InLabel float rnd lines sampleRate l k) =
      labelRow fun _ => False) := by
    intro k hk
    simp [hk]
  constructor
  · rintro ⟨-, hrows⟩ k hk
    have hrow := hrows k (by omega)
    rw [List.getElem?_map, List.getElem?_range (by omega), Option.map_some, hlast k hk, Option.some_inj] at hrow
    exact (labelRow_false_iff _).1 hrow
  · intro hcond
    refine ⟨by simp, fun k hk => ?_⟩
    rw [List.getElem?_map, List.getElem?_range hk, Option.map_some, Option.some_inj]
    rcases Nat.lt_or_ge (k + 1) nSamples with hlt | hge
    · simp [hlt]
    · have hk' : k + 1 = nSamples := by omega
      rw [hlast k hk']
      exact (labelRow_false_iff _).2 (hcond k hk')

/-- **`map_labels` marks the labelled samples** exactly if the last sample is in no range of `p` together with one of
`b`, `r` or `i`. -/
theorem mapLabels_iff (sampleRate nSamples : Nat) (rnd : Python.Rounding) (hfile : LabelFile float lines) :
    (∃ out, mapLabels float rnd lines sampleRate nSamples = .ok (5, out) ∧
      MarksLabels float rnd lines sampleRate nSamples out) ↔
    ∀ k, k + 1 = nSamples → InLabel float rnd lines sampleRate .p k → ¬InLabel float rnd lines sampleRate .b k ∧
      ¬InLabel float rnd lines sampleRate .r k ∧ ¬InLabel float rnd lines sampleRate .i k := by
  rw [mapLabels_eq hfile, ← marksLabels_iff]
  constructor
  · rintro ⟨out, hout, hmarks⟩
    cases hout
    exact hmarks
  · exact fun hmarks => ⟨_, rfl, hmarks⟩

/-- `float` for texts of one digit. -/
def oneDigit : List Char → Option ℚ
  | [c] => if c.isDigit then some (c.toNat - '0'.toNat : Nat) else none
  | _ => none

/-- A second of `baji` at its peak. -/
def bajiSecond : List (List Char) := ["0\t1\tp".toList, "0\t1\tb".toList]

theorem readLine_peak : readLine oneDigit "0\t1\tp".toList = .ok (.p, 0, 1) := rfl

theorem readLine_baji : readLine oneDigit "0\t1\tb".toList = .ok (.b, 0, 1) := rfl

theorem inRange_second : InRange .exact 2 (0, 1) k ↔ k < 2 := by
  have hfirst : Python.int (Python.Rounding.exact.toFun (0 * (2 : Nat))) = 0 := by
    rw [show Python.Rounding.exact.toFun (0 * (2 : Nat)) = ((0 : Int) : ℚ) by simp [Python.Rounding.exact]]
    exact Python.int_intCast 0
  have hlast : Python.int (Python.Rounding.exact.toFun (1 * (2 : Nat))) = 2 := by
    rw [show Python.Rounding.exact.toFun (1 * (2 : Nat)) = ((2 : Int) : ℚ) by simp [Python.Rounding.exact]]
    exact Python.int_intCast 2
  unfold InRange
  rw [hfirst, hlast]
  omega

theorem bajiSecond_file : LabelFile oneDigit bajiSecond := by
  intro line hline
  rcases List.mem_pair.1 hline with rfl | rfl
  · exact ⟨.p, 0, 1, readLine_peak, le_rfl, zero_le_one⟩
  · exact ⟨.b, 0, 1, readLine_baji, le_rfl, zero_le_one⟩

/-- At two samples a second it ends at sample 2. -/
theorem not_inLabel_bajiSecond (l : Label) (hk : 2 ≤ k) : ¬InLabel oneDigit .exact bajiSecond 2 l k := by
  rintro ⟨line, hline, f, t, hok, hin⟩
  rcases List.mem_pair.1 hline with rfl | rfl
  · rw [readLine_peak] at hok
    cases hok
    exact absurd (inRange_second.1 hin) (not_lt.2 hk)
  · rw [readLine_baji] at hok
    cases hok
    exact absurd (inRange_second.1 hin) (not_lt.2 hk)

theorem mapLabels_inside : ∃ out, mapLabels oneDigit .exact bajiSecond 2 3 = .ok (5, out) ∧
    MarksLabels oneDigit .exact bajiSecond 2 3 out := by
  refine (mapLabels_iff 2 3 .exact bajiSecond_file).2 fun k hk hpeak => ?_
  exact absurd hpeak (not_inLabel_bajiSecond .p (by omega))

/-- A clip of two samples: the second is `baji`. -/
theorem mapLabels_toEnd : ¬∃ out, mapLabels oneDigit .exact bajiSecond 2 2 = .ok (5, out) ∧
    MarksLabels oneDigit .exact bajiSecond 2 2 out := by
  rintro ⟨out, hout, hmarks⟩
  rw [mapLabels_eq bajiSecond_file] at hout
  cases hout
  have hpeak : InLabel oneDigit .exact bajiSecond 2 .p 1 :=
    ⟨_, List.mem_cons_self, 0, 1, readLine_peak, inRange_second.2 (by decide)⟩
  have hbaji : InLabel oneDigit .exact bajiSecond 2 .b 1 :=
    ⟨_, List.mem_cons_of_mem _ List.mem_cons_self, 0, 1, readLine_baji, inRange_second.2 (by decide)⟩
  exact (marksLabels_iff.1 hmarks 1 rfl hpeak).1 hbaji

end Bajiru.NnModel
