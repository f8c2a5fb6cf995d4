import Bajiru.DataAugment.Handlers

/-!
# `core.py`

`Augmenter.augment` applies every chain of configs to every input, the chains in the order of the mixed radix digits of
all modes of all keys, the last key of the last spec varying fastest (`getElem?_buildChains`): it either raises, for
inputs of different lengths and where a handler does, or returns one signal for each input and each choice of modes, in
this order (`augment_enumerates`). An output has the length of its input (`applyChain_length`), and without noise it
depends on its input and its chain alone (`applyChain_stateless`).
-/

namespace Bajiru.DataAugment

open MixedRadix (product pick digits)
open StateExcept (bind_eq_ok run_bind_eq_ok Stateless)

/-! ## Signals -/

inductive Backend where
  | numpy
  | torch

/-- What may stand for a signal: one with samples, an array of other dimensions, and any other object. -/
inductive AudioSignal where
  | mono (backend : Backend) (samples : List ℝ)
  | array (backend : Backend) (shape : List Nat) (hshape : shape.length ≠ 1)
  | object (typeName : String)

/-- The forms of input: a list or tuple, a 2-D batch, and anything else. -/
inductive AudioData where
  | sequence (signals : List AudioSignal)
  | batch {n : Nat} (backend : Backend) (rows : List (Vector ℝ n))
  | single (signal : AudioSignal)

def commaSeparated (ns : List Nat) : String := ", ".intercalate (ns.map toString)

/-- A tuple of numbers, as it is shown. -/
def reprShape : List Nat → String
  | [n] => "(" ++ toString n ++ ",)"
  | ns => "(" ++ commaSeparated ns ++ ")"

/-- `_to_numpy(data)`. -/
def toNumpy : AudioSignal → Except PyError (Backend × List ℝ)
  | .mono backend samples => .ok (backend, samples)
  | .array _ shape _ => .error (.valueError ("Augmenter requires each audio sample to be 1-D mono; got shape " ++
      reprShape shape ++ " (ndim=" ++ toString shape.length ++
      "). For a batch, pass a 2-D array (B, N) or a list of 1-D arrays."))
  | .object typeName => .error (.typeError ("Expected numpy.ndarray or torch.Tensor, got " ++ typeName))

/-- `_fix_length(signal, target_len)`. -/
def fixLength (signal : List ℝ) (targetLen : Nat) : List ℝ :=
  let n := signal.length
  if n = targetLen then signal
  else if targetLen < n then
    let start := (n - targetLen) / 2
    (signal.drop start).take targetLen
  else
    let padTotal := targetLen - n
    let left := padTotal / 2
    let right := padTotal - left
    List.replicate left 0 ++ signal ++ List.replicate right 0

/-- `_MIN_REASONABLE_SAMPLES`. -/
def minReasonableSamples : Nat := 50

/-- `_check_2d_orientation((b, n))`. -/
def check2dOrientation (b n : Nat) : Except PyError Unit :=
  if n < minReasonableSamples ∧ minReasonableSamples ≤ b then
    .error (.valueError ("2-D input shape " ++ reprShape [b, n] ++ " looks transposed — expected (batch, samples) " ++
      "where the trailing dim is the time axis. Got only " ++ toString n ++ " samples per clip. Did you mean shape " ++
      reprShape [n, b] ++ "? If " ++ toString n ++ " is really your clip length, " ++
      "pass a list of 1-D signals to bypass this check."))
  else .ok ()

/-- The lengths of the 1-D signals. -/
def lengths (signals : List AudioSignal) : List Nat :=
  (signals.filterMap fun signal =>
    match signal with
    | .mono _ samples => some samples.length
    | _ => none).dedup

/-- `_check_uniform_length(signals)`. -/
def checkUniformLength (signals : List AudioSignal) : Except PyError Unit :=
  if 1 < (lengths signals).length then
    .error (.valueError ("All input signals must have the same length. Got lengths: [" ++
      commaSeparated ((lengths signals).insertionSort (· ≤ ·)) ++
      "]. Pre-process to a fixed length (random crop + zero-pad) before calling augment()."))
  else .ok ()

/-- `_as_signal_list(data)`. -/
def asSignalList : AudioData → Except PyError (List AudioSignal)
  | .sequence signals => do
    checkUniformLength signals
    return signals
  | @AudioData.batch n backend rows => do
    check2dOrientation rows.length n
    return rows.map fun row => .mono backend row.toList
  | .single signal => return [signal]

/-! ## Specs and chains -/

/-- A spec of a chain, with or without a config. -/
inductive AugmentationSpec where
  | name (name : String)
  | pair (name : String) (config : Config)

/-- `DEFAULT_AUGMENTATIONS`. -/
def defaultAugmentations : List AugmentationSpec :=
  [.pair "pitch" ⟨[("semitones", .list [.num (-2), .num (-1), .num 0, .num 1, .num 2])], by simp⟩,
    .pair "noise" ⟨[("snr_db", .list [.num 20, .num 30]), ("kind", .list [.str "white", .str "pink"])], by simp⟩,
    .pair "phase_flip" ⟨[("flip", .list [.bool false, .bool true])], by simp⟩]

/-- A name with its config, as `_normalize_specs` has it. -/
abbrev Step := Name × Config

/-- A pass of the loop of `_normalize_specs`. -/
def normalizeSpec (py : Builtins) (spec : AugmentationSpec) : Except PyError Step :=
  let (name, config) :=
    match spec with
    | .name name => (name, Config.empty)
    | .pair name config => (name, config)
  match handlerNames.find? (·.1 = name) with
  | some entry => .ok (entry.2, config)
  | none => .error (.valueError ("Unknown augmentation: " ++ py.reprStr name ++ ". Supported: (" ++
      ", ".intercalate (handlerNames.map fun entry => py.reprStr entry.1) ++ ")"))

/-- `_normalize_specs(augmentations)`. -/
def normalizeSpecs (py : Builtins) (augmentations : Option (List AugmentationSpec)) : Except PyError (List Step) :=
  (augmentations.getD defaultAugmentations).mapM (normalizeSpec py)

/-- `_NON_EXPANDING`. -/
def nonExpanding (name : Name) : Bool := name = .apf

/-- The entry of `expansions` of a spec. -/
def expansion (spec : Step) : List Step :=
  if nonExpanding spec.1 then [spec] else (expandConfig spec.2).map fun config => (spec.1, config)

/-- `_build_chains(specs)`. -/
def buildChains (specs : List Step) : List (List Step) :=
  if specs = [] then [[]] else product (specs.map expansion)

/-! ## The pipeline -/

/-- The settings of an `Augmenter`. -/
structure Augmenter where
  seed : Option Int
  context : AugmentContext

variable {Rng : Type}

/-- The generator of `_fresh_context`. Without a seed it is made of `entropy`. -/
def Augmenter.freshRng (a : Augmenter) (kernels : Kernels Rng) (entropy : Rng) : Rng :=
  (a.seed.map kernels.defaultRng).getD entropy

/-- `_apply_chain(data, chain, ctx)`. -/
noncomputable def applyChain (py : Builtins) (kernels : Kernels Rng) (ctx : AugmentContext) (data : AudioSignal)
    (chain : List Step) : Draws Rng AudioSignal := do
  let (backend, working) ← StateT.lift (toNumpy data)
  let targetLen := working.length
  let working ← chain.foldlM (fun working step => handle py kernels ctx step.1 working step.2) working
  let working := if working.length ≠ targetLen then fixLength working targetLen else working
  return .mono backend working

/-- `augment(data, augmentations)`. -/
noncomputable def Augmenter.augment (py : Builtins) (kernels : Kernels Rng) (a : Augmenter) (entropy : Rng)
    (data : AudioData) (augmentations : Option (List AugmentationSpec)) : Except PyError (List AudioSignal) := do
  let specs ← normalizeSpecs py augmentations
  let chains := buildChains specs
  let inputs ← asSignalList data
  let pairs := inputs.flatMap fun x => chains.map fun chain => (x, chain)
  let (outs, _) ← (pairs.mapM fun pair => applyChain py kernels a.context pair.1 pair.2).run
    (a.freshRng kernels entropy)
  return outs

/-! ## One chain -/

theorem fixLength_length (signal : List ℝ) (targetLen : Nat) : (fixLength signal targetLen).length = targetLen := by
  unfold fixLength
  dsimp only
  split
  next h => exact h
  next =>
    split
    next hlong =>
      rw [List.length_take, List.length_drop]
      omega
    next hshort =>
      rw [List.length_append, List.length_append, List.length_replicate, List.length_replicate]
      omega

/-- **An output** has the type and the length of its input. -/
theorem applyChain_length {py : Builtins} {kernels : Kernels Rng} {ctx : AugmentContext} {data out : AudioSignal}
    {chain : List Step} {rng rng' : Rng} (h : (applyChain py kernels ctx data chain).run rng = .ok (out, rng')) :
    ∃ backend samples working, data = .mono backend samples ∧ out = .mono backend working ∧
      working.length = samples.length := by
  unfold applyChain at h
  obtain ⟨⟨backend, samples⟩, t, hdata, h⟩ := run_bind_eq_ok.1 h
  obtain ⟨working, t', -, h⟩ := run_bind_eq_ok.1 h
  have hmono : data = .mono backend samples := by
    cases data with
    | mono => cases hdata; rfl
    | array => cases hdata
    | object => cases hdata
  rw [StateT.run_pure] at h
  cases h
  refine ⟨backend, samples, _, hmono, rfl, ?_⟩
  split
  next => exact fixLength_length ..
  next hlen => exact not_not.1 hlen

/-- **Without noise** a chain neither reads nor writes the generator. -/
theorem applyChain_stateless (py : Builtins) (kernels : Kernels Rng) (ctx : AugmentContext) (data : AudioSignal)
    {chain : List Step} (hchain : ∀ step ∈ chain, step.1 ≠ .noise) :
    Stateless (applyChain py kernels ctx data chain) := by
  unfold applyChain
  refine (Stateless.lift _).bind fun input => ?_
  have hhandle : ∀ step ∈ chain, ∀ working, Stateless (handle py kernels ctx step.1 working step.2) :=
    fun step hstep working => handle_stateless py kernels ctx (hchain step hstep) working step.2
  exact (Stateless.foldlM hhandle input.2).bind fun working => Stateless.pure _

/-! ## The order of the chains -/

/-- The numbers of modes of the keys of a spec. -/
def stepRadices (spec : Step) : List Nat := if nonExpanding spec.1 then [] else radices spec.2

/-- The numbers of modes of all keys of a chain. -/
def chainRadices (specs : List Step) : List Nat := specs.flatMap stepRadices

/-- The chain of the modes at the given places, one for each key. -/
def chainAt : List Step → List Nat → Option (List Step)
  | [], _ => some []
  | spec :: specs, ds =>
    if nonExpanding spec.1 then (chainAt specs ds).map (spec :: ·)
    else do
      let n := spec.2.entries.length
      let values ← pick (dimensions spec.2) (ds.take n)
      let chain ← chainAt specs (ds.drop n)
      return (spec.1, spec.2.ofCombo values) :: chain

theorem length_expansion (spec : Step) : (expansion spec).length = (stepRadices spec).prod := by
  unfold expansion stepRadices
  split
  next => rfl
  next => rw [List.length_map, length_expandConfig]

theorem prod_chainRadices (specs : List Step) :
    (chainRadices specs).prod = ((specs.map expansion).map List.length).prod := by
  induction specs with
  | nil => rfl
  | cons spec specs ih =>
    have hcons : chainRadices (spec :: specs) = stepRadices spec ++ chainRadices specs := List.flatMap_cons
    rw [hcons, List.prod_append, ih, List.map_cons, List.map_cons, List.prod_cons, length_expansion]

theorem buildChains_eq (specs : List Step) : buildChains specs = product (specs.map expansion) := by
  unfold buildChains
  split
  next h => rw [h]; rfl
  next => rfl

theorem length_buildChains (specs : List Step) : (buildChains specs).length = (chainRadices specs).prod := by
  rw [buildChains_eq, MixedRadix.length_product, prod_chainRadices]

/-- A mode of a spec, by the digits of its keys. -/
theorem getElem?_expansion {spec : Step} (hspec : nonExpanding spec.1 = false) {c : Nat}
    (hc : 0 < (stepRadices spec).prod) :
    (expansion spec)[c % (stepRadices spec).prod]? =
      (pick (dimensions spec.2) (digits (stepRadices spec) c)).map fun values => (spec.1, spec.2.ofCombo values) := by
  have hradices : stepRadices spec = radices spec.2 := by rw [stepRadices, hspec]; rfl
  have hexpansion : expansion spec = (expandConfig spec.2).map fun config => (spec.1, config) := by
    rw [expansion, hspec]
    rfl
  rw [hradices] at hc
  rw [hexpansion, List.getElem?_map, hradices, getElem?_expandConfig (Nat.mod_lt c hc), MixedRadix.digits_mod,
    Option.map_map]
  rfl

/-- The choice of a mode of each spec is a choice of a mode of each key. -/
theorem pick_expansion {specs : List Step} {c : Nat} (hc : c < (chainRadices specs).prod) :
    pick (specs.map expansion) (digits ((specs.map expansion).map List.length) c) =
      chainAt specs (digits (chainRadices specs) c) := by
  induction specs generalizing c with
  | nil => rfl
  | cons spec specs ih =>
    have hcons : chainRadices (spec :: specs) = stepRadices spec ++ chainRadices specs := List.flatMap_cons
    rw [hcons, List.prod_append] at hc
    have hprod : 0 < (stepRadices spec).prod * (chainRadices specs).prod := (Nat.zero_le c).trans_lt hc
    have hrest : pick (specs.map expansion) (digits ((specs.map expansion).map List.length) c) =
        chainAt specs (digits (chainRadices specs) c) := by
      rw [← MixedRadix.digits_mod _ c, ← prod_chainRadices, ih (Nat.mod_lt c (Nat.pos_of_mul_pos_left hprod)),
        MixedRadix.digits_mod]
    rw [hcons, MixedRadix.digits_append, List.map_cons, List.map_cons, digits, pick, hrest, length_expansion,
      ← prod_chainRadices, chainAt]
    cases hspec : nonExpanding spec.1 with
    | true =>
      have hnone : stepRadices spec = [] := by rw [stepRadices, hspec]; rfl
      have hone : expansion spec = [spec] := by rw [expansion, hspec]; rfl
      rw [hone, hnone, List.prod_nil, Nat.mod_one, if_pos rfl, digits, List.nil_append]
      cases chainAt specs (digits (chainRadices specs) c) <;> rfl
    | false =>
      have hlen : (digits (stepRadices spec) (c / (chainRadices specs).prod)).length = spec.2.entries.length := by
        rw [MixedRadix.length_digits, stepRadices, hspec]
        simp [radices, dimensions]
      rw [getElem?_expansion hspec (Nat.pos_of_mul_pos_right hprod), if_neg Bool.false_ne_true]
      simp only [← hlen, List.take_left, List.drop_left]
      cases pick (dimensions spec.2) (digits (stepRadices spec) (c / (chainRadices specs).prod)) <;> rfl

/-- **The chains** in their order. -/
theorem getElem?_buildChains {specs : List Step} {c : Nat} (hc : c < (chainRadices specs).prod) :
    (buildChains specs)[c]? = chainAt specs (digits (chainRadices specs) c) := by
  rw [buildChains_eq, MixedRadix.getElem?_product (by rwa [← prod_chainRadices]), pick_expansion hc]

/-- The names of a chain are those of its specs. -/
theorem names_chainAt {specs chain : List Step} {ds : List Nat} (h : chainAt specs ds = some chain) :
    chain.map Prod.fst = specs.map Prod.fst := by
  induction specs generalizing ds chain with
  | nil =>
    cases h
    rfl
  | cons spec specs ih =>
    rw [chainAt] at h
    split at h
    · obtain ⟨rest, hrest, rfl⟩ := Option.map_eq_some_iff.1 h
      rw [List.map_cons, List.map_cons, ih hrest]
    · obtain ⟨values, -, h⟩ := Option.bind_eq_some_iff.1 h
      obtain ⟨rest, hrest, h⟩ := Option.bind_eq_some_iff.1 h
      cases h
      rw [List.map_cons, List.map_cons, ih hrest]

/-! ## The outputs -/

/-- One output for each input and each choice of modes: output `i * C + c` is input `i` through the chain of the digits
of `c`, and every choice has its number. -/
structure Enumerates (py : Builtins) (kernels : Kernels Rng) (ctx : AugmentContext) (specs : List Step)
    (inputs outs : List AudioSignal) : Prop where
  length_eq : outs.length = inputs.length * (chainRadices specs).prod
  element : ∀ (i c : Nat) x, inputs[i]? = some x → c < (chainRadices specs).prod →
    ∃ chain out rng rng', chainAt specs (digits (chainRadices specs) c) = some chain ∧
      outs[i * (chainRadices specs).prod + c]? = some out ∧
      (applyChain py kernels ctx x chain).run rng = .ok (out, rng')
  places : ∀ c, c < (chainRadices specs).prod →
    List.Forall₂ (· < ·) (digits (chainRadices specs) c) (chainRadices specs)
  once : ∀ ds, List.Forall₂ (· < ·) ds (chainRadices specs) →
    ∃! c, c < (chainRadices specs).prod ∧ digits (chainRadices specs) c = ds

variable {py : Builtins} {kernels : Kernels Rng} {a : Augmenter} {entropy : Rng} {data : AudioData}
  {augmentations : Option (List AugmentationSpec)} {specs : List Step} {inputs outs : List AudioSignal}

/-- What `augment` goes through: each input with each chain. -/
def pairsOf (specs : List Step) (inputs : List AudioSignal) : List (AudioSignal × List Step) :=
  inputs.flatMap fun x => (buildChains specs).map fun chain => (x, chain)

theorem length_pairsOf (specs : List Step) (inputs : List AudioSignal) :
    (pairsOf specs inputs).length = inputs.length * (chainRadices specs).prod := by
  rw [pairsOf, List.length_flatMap]
  simp [length_buildChains]

theorem getElem?_pairsOf {i c : Nat} {x : AudioSignal} (hx : inputs[i]? = some x) (hc : c < (chainRadices specs).prod) :
    (pairsOf specs inputs)[i * (chainRadices specs).prod + c]? =
      (chainAt specs (digits (chainRadices specs) c)).map fun chain => (x, chain) := by
  have hpos : 0 < (chainRadices specs).prod := (Nat.zero_le c).trans_lt hc
  have hlen : ∀ x ∈ inputs, ((buildChains specs).map fun chain => (x, chain)).length = (chainRadices specs).prod := by
    intro x _
    rw [List.length_map, length_buildChains]
  have hdiv : (i * (chainRadices specs).prod + c) / (chainRadices specs).prod = i := by
    rw [Nat.mul_comm, Nat.mul_add_div hpos, Nat.div_eq_of_lt hc, Nat.add_zero]
  have hmod : (i * (chainRadices specs).prod + c) % (chainRadices specs).prod = c := by
    rw [Nat.mul_comm, Nat.mul_add_mod, Nat.mod_eq_of_lt hc]
  rw [pairsOf, MixedRadix.getElem?_flatMap hpos hlen, hdiv, hmod, hx, Option.bind_some, List.getElem?_map,
    getElem?_buildChains hc]

theorem exists_chainAt {c : Nat} (hc : c < (chainRadices specs).prod) :
    ∃ chain, chainAt specs (digits (chainRadices specs) c) = some chain := by
  rw [← getElem?_buildChains hc]
  exact ⟨_, List.getElem?_eq_getElem (by rwa [length_buildChains])⟩

/-- **`augment`** after the checks of the specs and the inputs. -/
theorem augment_eq_ok (hspecs : normalizeSpecs py augmentations = .ok specs)
    (hinputs : asSignalList data = .ok inputs) :
    a.augment py kernels entropy data augmentations = .ok outs ↔
      ∃ rng', ((pairsOf specs inputs).mapM fun pair => applyChain py kernels a.context pair.1 pair.2).run
        (a.freshRng kernels entropy) = .ok (outs, rng') := by
  unfold Augmenter.augment
  rw [hspecs, hinputs]
  constructor
  · intro h
    obtain ⟨_, hs, h⟩ := bind_eq_ok.1 h
    cases hs
    obtain ⟨_, hi, h⟩ := bind_eq_ok.1 h
    cases hi
    obtain ⟨⟨outs', rng'⟩, hrun, h⟩ := bind_eq_ok.1 h
    cases h
    exact ⟨rng', hrun⟩
  · rintro ⟨rng', hrun⟩
    exact bind_eq_ok.2 ⟨specs, rfl, bind_eq_ok.2 ⟨inputs, rfl, bind_eq_ok.2 ⟨(outs, rng'), hrun, rfl⟩⟩⟩

theorem enumerates_of_augment (hspecs : normalizeSpecs py augmentations = .ok specs)
    (hinputs : asSignalList data = .ok inputs)
    (h : a.augment py kernels entropy data augmentations = .ok outs) :
    Enumerates py kernels a.context specs inputs outs := by
  obtain ⟨rng', hrun⟩ := (augment_eq_ok hspecs hinputs).1 h
  obtain ⟨hlen, helement⟩ := StateExcept.run_mapM_eq_ok hrun
  refine ⟨hlen.trans (length_pairsOf specs inputs), fun i c x hx hc => ?_, fun c hc => MixedRadix.digits_lt hc,
    fun ds hds => MixedRadix.existsUnique_digits hds⟩
  obtain ⟨chain, hchain⟩ := exists_chainAt hc
  have hpair := getElem?_pairsOf hx hc
  rw [hchain, Option.map_some] at hpair
  obtain ⟨out, rng, rng', hout, happly⟩ := helement _ _ hpair
  exact ⟨chain, out, rng, rng', hchain, hout, happly⟩

/-- Outputs of the same input through the same chain are the same without noise. -/
theorem Enumerates.eq_of_steady {ctx : AugmentContext} {inputs' outs' : List AudioSignal}
    (h : Enumerates py kernels ctx specs inputs outs) (h' : Enumerates py kernels ctx specs inputs' outs')
    (hsteady : ∀ spec ∈ specs, spec.1 ≠ .noise) {i i' c : Nat} {x : AudioSignal} (hx : inputs[i]? = some x)
    (hx' : inputs'[i']? = some x) (hc : c < (chainRadices specs).prod) :
    outs'[i' * (chainRadices specs).prod + c]? = outs[i * (chainRadices specs).prod + c]? := by
  obtain ⟨chain, out, _, _, hchain, hout, hrun⟩ := h.element i c x hx hc
  obtain ⟨chain', out', _, _, hchain', hout', hrun'⟩ := h'.element i' c x hx' hc
  obtain rfl : chain' = chain := Option.some_inj.1 (hchain'.symm.trans hchain)
  have hnoise : ∀ step ∈ chain', step.1 ≠ .noise := by
    intro step hstep
    have hmem := List.mem_map_of_mem (f := Prod.fst) hstep
    rw [names_chainAt hchain] at hmem
    obtain ⟨spec, hspec, heq⟩ := List.mem_map.1 hmem
    exact heq ▸ hsteady spec hspec
  rw [hout, hout', (applyChain_stateless py kernels ctx x hnoise).eq hrun' hrun]

/-- **`augment`** returns if no handler raises; what it returns are the inputs through all choices of modes in their
order, and without noise no output depends on the seed or on another input. -/
theorem augment_enumerates (hspecs : normalizeSpecs py augmentations = .ok specs)
    (hinputs : asSignalList data = .ok inputs) :
    ((∀ x ∈ inputs, ∀ chain ∈ buildChains specs, ∀ rng,
        ∃ r, (applyChain py kernels a.context x chain).run rng = .ok r) →
      ∃ outs, a.augment py kernels entropy data augmentations = .ok outs) ∧
    ∀ outs, a.augment py kernels entropy data augmentations = .ok outs →
      Enumerates py kernels a.context specs inputs outs ∧
      ((∀ spec ∈ specs, spec.1 ≠ .noise) → ∀ (seed' : Option Int) (entropy' : Rng) (data' : AudioData) inputs' outs',
        asSignalList data' = .ok inputs' →
        Augmenter.augment py kernels { a with seed := seed' } entropy' data' augmentations = .ok outs' →
        ∀ (i i' c : Nat) x, inputs[i]? = some x → inputs'[i']? = some x → c < (chainRadices specs).prod →
          outs'[i' * (chainRadices specs).prod + c]? = outs[i * (chainRadices specs).prod + c]?) := by
  constructor
  · intro hreturns
    have hpairs : ∀ pair ∈ pairsOf specs inputs, ∀ rng, ∃ r,
        (applyChain py kernels a.context pair.1 pair.2).run rng = .ok r := by
      intro pair hpair
      obtain ⟨x, hx, hmem⟩ := List.mem_flatMap.1 hpair
      obtain ⟨chain, hchain, rfl⟩ := List.mem_map.1 hmem
      exact hreturns x hx chain hchain
    obtain ⟨⟨outs, rng'⟩, hrun⟩ := StateExcept.exists_run_mapM hpairs (a.freshRng kernels entropy)
    exact ⟨outs, (augment_eq_ok hspecs hinputs).2 ⟨rng', hrun⟩⟩
  · intro outs houts
    have henum := enumerates_of_augment hspecs hinputs houts
    refine ⟨henum, fun hsteady seed' entropy' data' inputs' outs' hinputs' houts' i i' c x hx hx' hc => ?_⟩
    have henum' := enumerates_of_augment (a := { a with seed := seed' }) hspecs hinputs' houts'
    exact henum.eq_of_steady henum' hsteady hx hx' hc

/-! ## Two signals -/

/-- Strings that are no numbers. -/
def wordsOnly : Builtins := ⟨fun _ => none, fun _ => none, fun _ => "", fun s => "'" ++ s ++ "'"⟩

/-- Kernels that leave samples as they are, and no noise. -/
def idleKernels : Kernels Unit where
  sincUpsample samples _ _ := .ok samples
  sincDownsample samples _ _ := .ok samples
  detectPitchPeriods _ _ := .ok []
  psolaShift samples _ _ := .ok samples
  psolaStretch samples _ _ := .ok samples
  limitDenominator _ _ := 1
  resamplePoly samples _ _ := .ok samples
  defaultRng _ := ()
  standardNormal rng n := (List.replicate n 0, rng)
  shape _ samples := .ok samples

def augmenter : Augmenter := ⟨some 0, ⟨16000, 4, 4097⟩⟩

/-- Both modes of `phase_flip`. -/
def flips : Config := ⟨[("flip", .list [.bool false, .bool true])], List.nodup_singleton "flip"⟩

theorem augment_enumerates_flips :
    ((∀ x ∈ [AudioSignal.mono .numpy [1], .mono .torch [2]], ∀ chain ∈ buildChains [(.phaseFlip, flips)], ∀ rng,
        ∃ r, (applyChain wordsOnly idleKernels augmenter.context x chain).run rng = .ok r) →
      ∃ outs, augmenter.augment wordsOnly idleKernels () (.sequence [.mono .numpy [1], .mono .torch [2]])
        (some [.pair "phase_flip" flips]) = .ok outs) ∧
    ∀ outs, augmenter.augment wordsOnly idleKernels () (.sequence [.mono .numpy [1], .mono .torch [2]])
        (some [.pair "phase_flip" flips]) = .ok outs →
      Enumerates wordsOnly idleKernels augmenter.context [(.phaseFlip, flips)]
        [.mono .numpy [1], .mono .torch [2]] outs ∧
      ((∀ spec ∈ [(Name.phaseFlip, flips)], spec.1 ≠ .noise) →
        ∀ (seed' : Option Int) (entropy' : Unit) (data' : AudioData) inputs' outs',
        asSignalList data' = .ok inputs' →
        Augmenter.augment wordsOnly idleKernels { augmenter with seed := seed' } entropy' data'
          (some [.pair "phase_flip" flips]) = .ok outs' →
        ∀ (i i' c : Nat) x, [AudioSignal.mono .numpy [1], .mono .torch [2]][i]? = some x → inputs'[i']? = some x →
          c < (chainRadices [(.phaseFlip, flips)]).prod →
          outs'[i' * (chainRadices [(.phaseFlip, flips)]).prod + c]? =
            outs[i * (chainRadices [(.phaseFlip, flips)]).prod + c]?) :=
  augment_enumerates rfl rfl

/-- Two signals of different lengths have no outputs. -/
theorem augment_lengths : ¬ ∀ (py : Builtins) (kernels : Kernels Unit) (a : Augmenter) (entropy : Unit)
    (augmentations : Option (List AugmentationSpec)) (specs : List Step) (signals : List (List ℝ)),
    normalizeSpecs py augmentations = .ok specs →
    ∃ outs, a.augment py kernels entropy (.sequence (signals.map (.mono .numpy))) augmentations = .ok outs ∧
      Enumerates py kernels a.context specs (signals.map (.mono .numpy)) outs := by
  intro h
  obtain ⟨outs, houts, -⟩ := h wordsOnly idleKernels augmenter () (some []) [] [[1], [1, 2]] rfl
  obtain ⟨_, hspecs, houts⟩ := bind_eq_ok.1 houts
  obtain ⟨_, hinputs, -⟩ := bind_eq_ok.1 houts
  obtain ⟨_, huniform, -⟩ := bind_eq_ok.1 hinputs
  rw [checkUniformLength, if_pos (by decide)] at huniform
  cases huniform

end Bajiru.DataAugment
