import Bajiru.MixedRadix
import Bajiru.Python
import Mathlib.Algebra.Order.Archimedean.Real.Basic

/-!
# The configs of the augmentations

A config is a dictionary of values, and a value that is a list stands for a mode per item. `expand_config` has a config
for each choice of modes, in the order of the mixed radix digits (`getElem?_expandConfig`). The floats of a value are
real numbers; what the builtins of Python do with strings is a parameter.
-/

namespace Bajiru.DataAugment

open MixedRadix (product pick digits)

/-! ## Values -/

/-- The values that a config may have. -/
inductive Value where
  | none
  | bool (b : Bool)
  | num (x : ℝ)
  | str (s : String)
  | list (items : List Value)
  | dict (entries : List (String × Value))

inductive PyError where
  | valueError (text : String)
  | typeError (text : String)
  | keyError (key : Value)

/-- `float` and `int` of strings that are numbers, and `repr`. -/
structure Builtins where
  floatOfStr : String → Option ℝ
  intOfStr : String → Option Int
  reprFloat : ℝ → String
  reprStr : String → String

namespace Value

/-- `type(v).__name__`. -/
def typeName : Value → String
  | none => "NoneType"
  | bool _ => "bool"
  | num _ => "float"
  | str _ => "str"
  | list _ => "list"
  | dict _ => "dict"

/-- `float(v)`. -/
def toFloat (py : Builtins) : Value → Except PyError ℝ
  | num x => .ok x
  | bool b => .ok (if b then 1 else 0)
  | str s =>
    match py.floatOfStr s with
    | some x => .ok x
    | .none => .error (.valueError ("could not convert string to float: " ++ py.reprStr s))
  | v => .error (.typeError ("float() argument must be a string or a real number, not '" ++ v.typeName ++ "'"))

/-- `int(v)`. -/
noncomputable def toInt (py : Builtins) : Value → Except PyError Int
  | num x => .ok (Python.int x)
  | bool b => .ok (if b then 1 else 0)
  | str s =>
    match py.intOfStr s with
    | some n => .ok n
    | .none => .error (.valueError ("invalid literal for int() with base 10: " ++ py.reprStr s))
  | v => .error (.typeError
      ("int() argument must be a string, a bytes-like object or a real number, not '" ++ v.typeName ++ "'"))

open Classical in
/-- `bool(v)`. -/
noncomputable def toBool : Value → Bool
  | none => false
  | bool b => b
  | num x => x ≠ 0
  | str s => s ≠ ""
  | list items => !items.isEmpty
  | dict entries => !entries.isEmpty

/-- `v[key]`. -/
def getItem (v : Value) (key : String) : Except PyError Value :=
  match v with
  | dict entries =>
    match entries.find? (·.1 = key) with
    | some entry => .ok entry.2
    | .none => .error (.keyError (str key))
  | str _ => .error (.typeError "string indices must be integers, not 'str'")
  | list _ => .error (.typeError "list indices must be integers or slices, not str")
  | v => .error (.typeError ("'" ++ v.typeName ++ "' object is not subscriptable"))

/-- The items that `for item in v` goes through. -/
def items : Value → Except PyError (List Value)
  | list items => .ok items
  | dict entries => .ok (entries.map fun entry => str entry.1)
  | str s => .ok (s.toList.map fun c => str c.toString)
  | v => .error (.typeError ("'" ++ v.typeName ++ "' object is not iterable"))

end Value

/-! ## Configs -/

/-- A dictionary, in the order of insertion. -/
structure Config where
  entries : List (String × Value)
  nodup : (entries.map Prod.fst).Nodup

namespace Config

/-- `{}` -/
def empty : Config := ⟨[], List.nodup_nil⟩

/-- `list(config.keys())`. -/
def keys (config : Config) : List String := config.entries.map Prod.fst

/-- `config.get(key, default)`. -/
def get (config : Config) (key : String) (fallback : Value) : Value :=
  match config.entries.find? (·.1 = key) with
  | some entry => entry.2
  | none => fallback

theorem map_fst_zip_sublist (keys : List String) (combo : List Value) :
    ((keys.zip combo).map Prod.fst).Sublist keys := by
  induction keys generalizing combo with
  | nil => exact .slnil
  | cons key keys ih =>
    cases combo with
    | nil => exact List.nil_sublist _
    | cons v combo => exact (ih combo).cons_cons key

/-- `dict(zip(keys, combo))`. -/
def ofCombo (config : Config) (combo : List Value) : Config where
  entries := config.keys.zip combo
  nodup := config.nodup.sublist (map_fst_zip_sublist config.keys combo)

end Config

/-- `expand_modes(value)`. -/
def expandModes : Value → List Value
  | .list items => items
  | value => [value]

/-- `dimensions`. -/
def dimensions (config : Config) : List (List Value) := config.entries.map fun entry => expandModes entry.2

/-- `expand_config(config)`. -/
def expandConfig (config : Config) : List Config :=
  if config.entries = [] then [Config.empty] else (product (dimensions config)).map config.ofCombo

/-- The numbers of modes. -/
def radices (config : Config) : List Nat := (dimensions config).map List.length

theorem Config.ofCombo_nil {config : Config} (h : config.entries = []) (combo : List Value) :
    config.ofCombo combo = Config.empty := by
  simp [Config.ofCombo, Config.empty, Config.keys, h]

theorem length_expandConfig (config : Config) : (expandConfig config).length = (radices config).prod := by
  unfold expandConfig
  split
  next h => simp [radices, dimensions, h]
  next => rw [List.length_map, MixedRadix.length_product, radices]

/-- **The modes of a config**, by the digits of their number. -/
theorem getElem?_expandConfig {config : Config} {c : Nat} (hc : c < (radices config).prod) :
    (expandConfig config)[c]? = (pick (dimensions config) (digits (radices config) c)).map config.ofCombo := by
  unfold expandConfig
  split
  next h =>
    have hdims : dimensions config = [] := by rw [dimensions, h, List.map_nil]
    obtain rfl : c = 0 := by simpa [radices, hdims] using hc
    have hpick : pick (dimensions config) (digits (radices config) 0) = some [] := by
      rw [radices, hdims]
      rfl
    rw [hpick, Option.map_some, Config.ofCombo_nil h]
    rfl
  next => rw [List.getElem?_map, MixedRadix.getElem?_product hc, radices]

end Bajiru.DataAugment
