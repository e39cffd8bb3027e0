/-!
# Types

One type language serves the syntax tree, the intermediate code and the descriptors of emitted
code; what differs between them is only how a type is written. This module holds the type and its
two written forms for people: the one of source text and the one of the intermediate listing.
-/

namespace MiniJava

/-- A type of the language. `void` is the type of calls without a value. -/
inductive Ty where
  | int
  | boolean
  | string
  | void
  | object (name : String)
  | array (element : Ty)
  deriving DecidableEq

namespace Ty

/-- An array type. -/
def isArray : Ty → Bool
  | array _ => true
  | _ => false

/-- The type without values. -/
def isVoid : Ty → Bool
  | void => true
  | _ => false

/-- The types whose values are references; the others live in a machine word. -/
def isReference : Ty → Bool
  | string | object _ | array _ => true
  | _ => false

/-- What an array of this type holds. -/
def element? : Ty → Option Ty
  | array element => some element
  | _ => none

/-- A type as source text writes it. -/
def source : Ty → String
  | int => "int"
  | boolean => "boolean"
  | string => "String"
  | void => "void"
  | object name => name
  | array element => element.source ++ "[]"

/-- A type as the intermediate listing writes it. -/
def listing : Ty → String
  | int => "i32"
  | boolean => "bool"
  | string => "String"
  | void => "V"
  | object name => name
  | array element => "array." ++ element.listing

end Ty

end MiniJava
