import MiniJava.Literal

/-!
# Operands of the intermediate code

Every operand carries its type, decided when the code is made, and the instructions that load, store
and return it are chosen from that type alone.
-/

namespace MiniJava.Ir

/-- Something an instruction reads or writes. A class name is the target of static calls and has no
value. -/
inductive Operand where
  | literal (value : Literal)
  | var (name : String) (ty : Ty)
  | temp (id : Nat) (ty : Ty)
  | receiver (className : String)
  | classRef (name : String)
  deriving DecidableEq

namespace Operand

/-- The integer constant. -/
def int (value : Int32) : Operand :=
  literal (.int value)

/-- The boolean constant. -/
def bool (value : Bool) : Operand :=
  literal (.bool value)

/-- The type an operand carries. -/
def ty : Operand → Ty
  | literal value => value.ty
  | var _ ty => ty
  | temp _ ty => ty
  | receiver className => .object className
  | classRef name => .object name

/-- The operands that hold intermediate results. -/
def isTemp : Operand → Bool
  | temp .. => true
  | _ => false

/-- An operand as the listing writes it. -/
def listing : Operand → String
  | literal value => value.listing
  | var name ty => name ++ "." ++ ty.listing
  | temp id ty => "t" ++ toString id ++ "." ++ ty.listing
  | receiver className => "this." ++ className
  | classRef name => name

end Operand

end MiniJava.Ir
