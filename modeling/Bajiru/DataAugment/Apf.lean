import Bajiru.DataAugment.Config
import Bajiru.RationalFilter
import Bajiru.StateExcept
import Mathlib.Analysis.SpecialFunctions.Trigonometric.Bounds

/-!
# `augmentations/apf.py`

A cascade of all-pass filters of order 1 and 2. Every section that `_build_section` accepts has its denominator in
reverse as numerator and is stable (`buildSection_allPass`), so a cascade keeps the size of every frequency, and its
poles are inside the unit circle (`cascade_allPass`). What `apply_apf` returns is the output of the cascade's transfer
function (`applyApf_filters`).
-/

namespace Bajiru.DataAugment

open RationalFilter (eval transfer Stable lfilter series Filters)
open StateExcept (bind_eq_ok)

/-- The coefficients `b, a` of a section. -/
structure ApfSection where
  b : List ℝ
  a : List ℝ

/-- `_first_order_coefs(freq_hz, sr)`. -/
noncomputable def firstOrderCoefs (freqHz sr : ℝ) : ApfSection :=
  let t := Real.tan (Real.pi * freqHz / sr)
  let a := (1 - t) / (1 + t)
  ⟨[-a, 1], [1, -a]⟩

/-- `_second_order_coefs(freq_hz, q, sr)`. -/
noncomputable def secondOrderCoefs (freqHz q sr : ℝ) : ApfSection :=
  let w0 := 2 * Real.pi * freqHz / sr
  let alpha := Real.sin w0 / (2 * q)
  let c := Real.cos w0
  let b := [1 - alpha, -2 * c, 1 + alpha]
  let a := [1 + alpha, -2 * c, 1 - alpha]
  ⟨b, a⟩

open Classical in
/-- `_validate_freq(freq_hz, sr)`. -/
noncomputable def validateFreq (py : Builtins) (freqHz sr : ℝ) : Except PyError Unit :=
  if 0 < freqHz ∧ freqHz < sr / 2 then .ok ()
  else .error (.valueError ("freq_hz must lie in (0, sr/2)=(0, " ++ py.reprFloat (sr / 2) ++ "); got " ++
    py.reprFloat freqHz))

open Classical in
/-- `_validate_q(q)`. -/
noncomputable def validateQ (py : Builtins) (q : ℝ) : Except PyError Unit :=
  if q ≤ 0 then .error (.valueError ("q must be positive; got " ++ py.reprFloat q)) else .ok ()

/-- `_build_section(spec, sr)`. -/
noncomputable def buildSection (py : Builtins) (spec : Value) (sr : ℝ) : Except PyError ApfSection := do
  let order ← (← spec.getItem "order").toInt py
  let freqHz ← (← spec.getItem "freq_hz").toFloat py
  validateFreq py freqHz sr
  if order = 1 then return firstOrderCoefs freqHz sr
  if order = 2 then
    let q ← (← spec.getItem "q").toFloat py
    validateQ py q
    return secondOrderCoefs freqHz q sr
  throw (.valueError ("section order must be 1 or 2, got " ++ toString order))

/-- `_DEFAULT_SECTIONS`. -/
def defaultSections : Value :=
  .list [.dict [("order", .num 2), ("freq_hz", .num 1000), ("q", .num 1)],
    .dict [("order", .num 2), ("freq_hz", .num 3000), ("q", .num 1)]]

/-- The keys of a config, sorted, as a list is shown. -/
def reprKeys (py : Builtins) (keys : List String) : String :=
  "[" ++ ", ".intercalate ((keys.insertionSort fun k l => k ≤ l).map py.reprStr) ++ "]"

/-- The message for keys that `apf` does not know. -/
def unknownApfKeys (py : Builtins) (unknown : List String) : String :=
  "Unknown apf config keys: " ++ reprKeys py unknown ++ ". Supported: " ++ reprKeys py ["sections"] ++
    ". To cascade multiple APFs, chain multiple ('apf', \x7b...\x7d) entries."

/-- `apply_apf(signal, config, ctx)`, at the sample rate `sr`. -/
noncomputable def applyApf (py : Builtins) (sr : ℝ) (signal : List ℝ) (config : Config) : Except PyError (List ℝ) := do
  let unknown := config.keys.filter (· ≠ "sections")
  if unknown ≠ [] then throw (.valueError (unknownApfKeys py unknown))
  let specs ← (config.get "sections" defaultSections).items
  specs.foldlM (fun y spec => do
    let s ← buildSection py spec sr
    return lfilter s.b s.a y) signal

/-! ## One section -/

/-- All-pass and stable. -/
structure ApfSection.AllPass (s : ApfSection) : Prop where
  reversed : s.b = s.a.reverse
  stable : Stable s.a
  head : ∃ a₀ as, s.a = a₀ :: as ∧ a₀ ≠ 0

theorem firstOrderCoefs_allPass {freqHz sr : ℝ} (h0 : 0 < freqHz) (h1 : freqHz < sr / 2) :
    (firstOrderCoefs freqHz sr).AllPass := by
  have hsr : 0 < sr := by linarith
  have hangle : Real.pi * freqHz / sr < Real.pi / 2 := by
    rw [div_lt_div_iff₀ hsr two_pos]
    have := mul_lt_mul_of_pos_left h1 Real.pi_pos
    linarith
  have htan : 0 < Real.tan (Real.pi * freqHz / sr) :=
    Real.tan_pos_of_pos_of_lt_pi_div_two (by positivity) hangle
  refine ⟨rfl, RationalFilter.stable_one ?_, _, _, rfl, one_ne_zero⟩
  have hden : 0 < 1 + Real.tan (Real.pi * freqHz / sr) := by linarith
  rw [abs_lt, lt_div_iff₀ hden, div_lt_one hden]
  constructor <;> linarith

theorem secondOrderCoefs_allPass {freqHz q sr : ℝ} (h0 : 0 < freqHz) (h1 : freqHz < sr / 2) (hq : 0 < q) :
    (secondOrderCoefs freqHz q sr).AllPass := by
  have hsr : 0 < sr := by linarith
  have hpos : 0 < 2 * Real.pi * freqHz / sr := by positivity
  have hangle : 2 * Real.pi * freqHz / sr < Real.pi := by
    rw [div_lt_iff₀ hsr]
    have := mul_lt_mul_of_pos_left h1 Real.pi_pos
    linarith
  have hsin := Real.sin_pos_of_pos_of_lt_pi hpos hangle
  have halpha : 0 < Real.sin (2 * Real.pi * freqHz / sr) / (2 * q) := by positivity
  have hcos : |Real.cos (2 * Real.pi * freqHz / sr)| < 1 := by
    rw [← sq_lt_one_iff_abs_lt_one]
    have := Real.sin_sq_add_cos_sq (2 * Real.pi * freqHz / sr)
    have := pow_pos hsin 2
    linarith
  refine ⟨rfl, RationalFilter.stable_two ?_ ?_, _, _, rfl, by linarith⟩
  · rw [abs_lt]
    constructor <;> linarith
  · rw [abs_mul, abs_neg, abs_two]
    linarith

theorem validateFreq_eq_ok {py : Builtins} {freqHz sr : ℝ} :
    validateFreq py freqHz sr = .ok () ↔ 0 < freqHz ∧ freqHz < sr / 2 := by
  unfold validateFreq
  split
  next h => exact ⟨fun _ => h, fun _ => rfl⟩
  next h => exact ⟨fun heq => (nomatch heq), fun hfreq => absurd hfreq h⟩

theorem validateQ_eq_ok {py : Builtins} {q : ℝ} : validateQ py q = .ok () ↔ 0 < q := by
  unfold validateQ
  split
  next h => exact ⟨fun heq => (nomatch heq), fun hq => absurd hq h.not_gt⟩
  next h => exact ⟨fun _ => not_le.1 h, fun _ => rfl⟩

variable {py : Builtins} {spec : Value} {specs : List Value} {sr : ℝ} {s : ApfSection} {sections : List ApfSection}

/-- **`_build_section`** accepts order 1 and 2 with a frequency below half the sample rate, and order 2 with `q > 0`. -/
theorem buildSection_eq_ok : buildSection py spec sr = .ok s ↔
    ∃ order freqHz, (spec.getItem "order" >>= Value.toInt py) = .ok order ∧
      (spec.getItem "freq_hz" >>= Value.toFloat py) = .ok freqHz ∧ (0 < freqHz ∧ freqHz < sr / 2) ∧
      ((order = 1 ∧ s = firstOrderCoefs freqHz sr) ∨
        (order = 2 ∧ ∃ q, (spec.getItem "q" >>= Value.toFloat py) = .ok q ∧ 0 < q ∧
          s = secondOrderCoefs freqHz q sr)) := by
  unfold buildSection
  constructor
  · intro h
    obtain ⟨v, hv, h⟩ := bind_eq_ok.1 h
    obtain ⟨order, horder, h⟩ := bind_eq_ok.1 h
    obtain ⟨w, hw, h⟩ := bind_eq_ok.1 h
    obtain ⟨freqHz, hfreq, h⟩ := bind_eq_ok.1 h
    obtain ⟨⟨⟩, hvalid, h⟩ := bind_eq_ok.1 h
    refine ⟨order, freqHz, bind_eq_ok.2 ⟨v, hv, horder⟩, bind_eq_ok.2 ⟨w, hw, hfreq⟩, validateFreq_eq_ok.1 hvalid, ?_⟩
    split at h
    next hone =>
      cases h
      exact .inl ⟨hone, rfl⟩
    next =>
      split at h
      next htwo =>
        obtain ⟨u, hu, h⟩ := bind_eq_ok.1 h
        obtain ⟨q, hq, h⟩ := bind_eq_ok.1 h
        obtain ⟨⟨⟩, hpos, h⟩ := bind_eq_ok.1 h
        cases h
        exact .inr ⟨htwo, q, bind_eq_ok.2 ⟨u, hu, hq⟩, validateQ_eq_ok.1 hpos, rfl⟩
      next => cases h
  · rintro ⟨order, freqHz, horder, hfreq, hvalid, hcase⟩
    obtain ⟨v, hv, horder⟩ := bind_eq_ok.1 horder
    obtain ⟨w, hw, hfreq⟩ := bind_eq_ok.1 hfreq
    refine bind_eq_ok.2 ⟨v, hv, bind_eq_ok.2 ⟨order, horder, bind_eq_ok.2 ⟨w, hw, bind_eq_ok.2 ⟨freqHz, hfreq,
      bind_eq_ok.2 ⟨(), validateFreq_eq_ok.2 hvalid, ?_⟩⟩⟩⟩⟩
    obtain ⟨rfl, rfl⟩ | ⟨rfl, q, hq, hpos, rfl⟩ := hcase
    · rfl
    · obtain ⟨u, hu, hq⟩ := bind_eq_ok.1 hq
      exact bind_eq_ok.2 ⟨u, hu, bind_eq_ok.2 ⟨q, hq, bind_eq_ok.2 ⟨(), validateQ_eq_ok.2 hpos, rfl⟩⟩⟩

/-- **An accepted section** is all-pass and stable. -/
theorem buildSection_allPass (h : buildSection py spec sr = .ok s) : s.AllPass := by
  obtain ⟨_, freqHz, -, -, ⟨h0, h1⟩, ⟨-, rfl⟩ | ⟨-, q, -, hq, rfl⟩⟩ := buildSection_eq_ok.1 h
  · exact firstOrderCoefs_allPass h0 h1
  · exact secondOrderCoefs_allPass h0 h1 hq

/-! ## The cascade -/

/-- The transfer function of the cascade. -/
noncomputable def cascade (sections : List ApfSection) (z : ℂ) : ℂ := (sections.map fun s => transfer s.b s.a z).prod

/-- Its denominator, as a polynomial in `z`. -/
def cascadeDenominator (sections : List ApfSection) (z : ℂ) : ℂ := (sections.map fun s => eval s.a.reverse z).prod

theorem allPass_of_mapM (h : specs.mapM (fun spec => buildSection py spec sr) = .ok sections) :
    ∀ s ∈ sections, s.AllPass := by
  induction specs generalizing sections with
  | nil =>
    cases h
    exact List.forall_mem_nil _
  | cons spec specs ih =>
    rw [List.mapM_cons] at h
    obtain ⟨s, hs, h⟩ := bind_eq_ok.1 h
    obtain ⟨rest, hrest, h⟩ := bind_eq_ok.1 h
    cases h
    exact List.forall_mem_cons.2 ⟨buildSection_allPass hs, ih hrest⟩

/-- **A cascade** of accepted sections is all-pass and stable. -/
theorem cascade_allPass (h : specs.mapM (fun spec => buildSection py spec sr) = .ok sections) :
    (∀ s ∈ sections, s.b = s.a.reverse) ∧ (∀ z : ℂ, ‖z‖ = 1 → ‖cascade sections z‖ = 1) ∧
      ∀ z : ℂ, cascadeDenominator sections z = 0 → ‖z‖ < 1 := by
  have hall := allPass_of_mapM h
  refine ⟨fun s hs => (hall s hs).reversed, fun z hz => ?_, fun z hz => ?_⟩
  · rw [cascade, List.norm_prod, List.map_map]
    refine List.prod_eq_one fun x hx => ?_
    obtain ⟨s, hs, rfl⟩ := List.mem_map.1 hx
    rw [Function.comp_apply, (hall s hs).reversed]
    exact RationalFilter.norm_transfer (hall s hs).stable hz
  · obtain ⟨s, hs, hroot⟩ := List.mem_map.1 (List.prod_eq_zero_iff.1 hz)
    exact (hall s hs).stable z hroot

/-- A section of each order. -/
noncomputable def twoOrders : List ApfSection := [firstOrderCoefs 1000 16000, secondOrderCoefs 3000 1 16000]

theorem cascade_allPass_twoOrders : (∀ s ∈ twoOrders, s.b = s.a.reverse) ∧
    (∀ z : ℂ, ‖z‖ = 1 → ‖cascade twoOrders z‖ = 1) ∧ ∀ z : ℂ, cascadeDenominator twoOrders z = 0 → ‖z‖ < 1 := by
  let py : Builtins := ⟨fun _ => none, fun _ => none, fun _ => "", fun s => s⟩
  let first : Value := .dict [("order", .num 1), ("freq_hz", .num 1000)]
  let second : Value := .dict [("order", .num 2), ("freq_hz", .num 3000), ("q", .num 1)]
  have hfirst : buildSection py first 16000 = .ok (firstOrderCoefs 1000 16000) := by
    refine buildSection_eq_ok.2 ⟨1, 1000, ?_, rfl, by norm_num, .inl ⟨rfl, rfl⟩⟩
    show Except.ok (Python.int (1 : ℝ)) = _
    rw [← Int.cast_one, Python.int_intCast]
  have hsecond : buildSection py second 16000 = .ok (secondOrderCoefs 3000 1 16000) := by
    refine buildSection_eq_ok.2 ⟨2, 3000, ?_, rfl, by norm_num, .inr ⟨rfl, 1, rfl, one_pos, rfl⟩⟩
    show Except.ok (Python.int (2 : ℝ)) = _
    rw [← Int.cast_ofNat, Python.int_intCast]
  have hsections : [first, second].mapM (fun spec => buildSection py spec 16000) = .ok twoOrders := by
    rw [List.mapM_cons, hfirst, List.mapM_cons, hsecond]
    rfl
  exact cascade_allPass hsections

/-! ## The filter -/

theorem foldlM_filters {f : List ℝ → Value → Except PyError (List ℝ)}
    (hf : ∀ y spec, f y spec = (do let s ← buildSection py spec sr; return lfilter s.b s.a y)) {x y : List ℝ}
    (h : specs.foldlM f x = .ok y) : ∃ sections, specs.mapM (fun spec => buildSection py spec sr) = .ok sections ∧
      Filters (sections.map fun s => series s.b).prod (sections.map fun s => series s.a).prod x y := by
  induction specs generalizing x with
  | nil =>
    cases h
    exact ⟨[], rfl, rfl, by simp⟩
  | cons spec specs ih =>
    rw [List.foldlM_cons, hf] at h
    obtain ⟨x', hx', h⟩ := bind_eq_ok.1 h
    obtain ⟨s, hs, hfilter⟩ := bind_eq_ok.1 hx'
    cases hfilter
    obtain ⟨sections, hsections, hrest⟩ := ih h
    obtain ⟨a₀, as, ha, hne⟩ := (buildSection_allPass hs).head
    have hfirst : Filters (series s.b) (series s.a) x (lfilter s.b s.a x) := by
      rw [ha]
      exact RationalFilter.lfilter_series hne x
    refine ⟨s :: sections, ?_, ?_⟩
    · rw [List.mapM_cons, hs]
      exact bind_eq_ok.2 ⟨s, rfl, bind_eq_ok.2 ⟨sections, hsections, rfl⟩⟩
    · rw [List.map_cons, List.map_cons, List.prod_cons, List.prod_cons, mul_comm (series s.b), mul_comm (series s.a)]
      exact hfirst.comp hrest

/-- **`apply_apf`** filters with the transfer function of its sections. -/
theorem applyApf_filters {signal y : List ℝ} {config : Config} (h : applyApf py sr signal config = .ok y) :
    ∃ specs sections, (config.get "sections" defaultSections).items = .ok specs ∧
      specs.mapM (fun spec => buildSection py spec sr) = .ok sections ∧
      Filters (sections.map fun s => series s.b).prod (sections.map fun s => series s.a).prod signal y := by
  unfold applyApf at h
  dsimp only at h
  split at h
  · cases h
  · obtain ⟨specs, hspecs, h⟩ := bind_eq_ok.1 h
    obtain ⟨sections, hsections, hfilters⟩ := foldlM_filters (fun _ _ => rfl) h
    exact ⟨specs, sections, hspecs, hsections, hfilters⟩

end Bajiru.DataAugment
