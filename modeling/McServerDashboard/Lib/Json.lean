import Mathlib.Data.Rat.Defs
import McServerDashboard.Lib.CodePoints

/-!
# JSON values

What a parser of JSON builds, the members of an object in order and each key once.
-/

namespace Lib

inductive Json
  | null
  | bool (b : Bool)
  | int (n : ℤ)
  /-- A number with a fraction or an exponent, unless it is no rational. -/
  | float (value : Option ℚ)
  | str (s : List (Fin 0x110000))
  | arr (items : List Json)
  | obj (members : List (List (Fin 0x110000) × Json))

namespace Json

/-- The member of an object. -/
def get? (key : List (Fin 0x110000)) : Json → Option Json
  | obj members => members.lookup key
  | _ => none

end Json

end Lib
