import MiniJava.Literal

/-!
# Expressions

The expression tree, with the operators that join two operands.
-/

namespace MiniJava

/-- An operator between two operands. -/
inductive BinOp where
  | add
  | sub
  | mul
  | div
  | lt
  | and
  | or
  deriving DecidableEq

namespace BinOp

/-- The operators from integers to integers. -/
def isArithmetic : BinOp → Bool
  | add | sub | mul | div => true
  | lt | and | or => false

/-- The operators that leave their right operand out when the left one decides. -/
def isLogical : BinOp → Bool
  | and | or => true
  | add | sub | mul | div | lt => false

/-- The type of the result. -/
def resultTy (op : BinOp) : Ty :=
  if op.isArithmetic then .int else .boolean

/-- The type both operands have. -/
def operandTy (op : BinOp) : Ty :=
  if op.isLogical then .boolean else .int

/-- An operator as source text writes it. -/
def symbol : BinOp → String
  | add => "+"
  | sub => "-"
  | mul => "*"
  | div => "/"
  | lt => "<"
  | and => "&&"
  | or => "||"

end BinOp

/-- An expression. A name stands for a local, a parameter, a field or a class. -/
inductive Expr where
  | literal (value : Literal)
  | self
  | var (name : String)
  | paren (inner : Expr)
  | binary (op : BinOp) (left right : Expr)
  | not (operand : Expr)
  | newArray (element : Ty) (size : Expr)
  | arrayLiteral (elements : List Expr)
  | index (array index : Expr)
  | length (array : Expr)
  | newObject (className : String)
  | call (target : Expr) (method : String) (args : List Expr)

namespace Expr

/-- A constant without any operation, parentheses included. -/
def isLiteral : Expr → Bool
  | literal _ => true
  | _ => false

/-- The expression inside all outer parentheses. -/
def stripParens : Expr → Expr
  | paren inner => inner.stripParens
  | e => e

end Expr

end MiniJava
