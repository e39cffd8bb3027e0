import MiniJava.Ty

/-!
# Literals

The constants of the language: 32-bit integers, whose arithmetic wraps, and booleans.
-/

namespace MiniJava

/-- A constant of type `int` or `boolean`. -/
inductive Literal where
  | int (value : Int32)
  | bool (value : Bool)
  deriving DecidableEq

namespace Literal

/-- The type a constant has. -/
def ty : Literal → Ty
  | int _ => .int
  | bool _ => .boolean

/-- The machine word that stands for a constant; a boolean is one or zero. -/
def word : Literal → Int32
  | int value => value
  | bool true => 1
  | bool false => 0

/-- A constant as the intermediate listing writes it, its type behind a point. -/
def listing (value : Literal) : String :=
  toString value.word.toInt ++ "." ++ value.ty.listing

end Literal

end MiniJava
