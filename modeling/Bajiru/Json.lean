import Mathlib.Data.Rat.Defs

/-!
# JSON values and typed access

`find?` is the member lookup of an object. `value` reads a member with a default: a value that is not an object, or a
member of another type, is an error (`none`), a missing member is the default.
-/

namespace Bajiru

inductive Json
  | null
  | bool (b : Bool)
  | num (q : ℚ)
  | str (s : String)
  | arr (items : List Json)
  | obj (members : List (String × Json))

namespace Json

variable {β : Type*} {key : String}

/-- The member of an object; `none` for a missing member and for any other value. -/
def find? : Json → String → Option Json
  | .obj members, key => (members.find? (·.1 = key)).map Prod.snd
  | _, _ => none

/-- `get<std::string>`. -/
def asString : Json → Option String
  | .str s => some s
  | _ => none

/-- `get<bool>`. -/
def asBool : Json → Option Bool
  | .bool b => some b
  | _ => none

/-- `value(key, fallback)`. -/
def value (as : Json → Option β) : Json → String → β → Option β
  | .obj members, key, fallback =>
    match (Json.obj members).find? key with
    | none => some fallback
    | some member => as member
  | _, _, _ => none

@[simp] theorem find?_cons (name : String) (member : Json) (members : List (String × Json)) :
    (Json.obj ((name, member) :: members)).find? key =
      if name = key then some member else (Json.obj members).find? key := by
  simp only [find?, List.find?_cons]
  by_cases h : name = key <;> simp [h]

end Json

end Bajiru
