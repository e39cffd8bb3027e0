import MiniJava.Expr

/-!
# Statements
-/

namespace MiniJava

/-- A statement. `return` has no value in a method without a result. -/
inductive Stmt where
  | assign (target : String) (value : Expr)
  | arrayAssign (target : String) (index value : Expr)
  | ite (condition : Expr) (thenBranch elseBranch : Stmt)
  | loop (condition : Expr) (body : Stmt)
  | block (body : List Stmt)
  | ret (value : Option Expr)
  | expr (value : Expr)

mutual

/-- Whether every way through the statement ends in a `return` that can be read off its shape: a
loop never counts, and of a block only the last statement does. -/
def Stmt.endsWithReturn : Stmt → Bool
  | .ret _ => true
  | .block body => Stmt.lastEndsWithReturn body
  | .ite _ thenBranch elseBranch => thenBranch.endsWithReturn && elseBranch.endsWithReturn
  | .assign .. | .arrayAssign .. | .loop .. | .expr _ => false

/-- Whether the last of several statements ends with a return. -/
def Stmt.lastEndsWithReturn : List Stmt → Bool
  | [] => false
  | [s] => s.endsWithReturn
  | _ :: s :: rest => Stmt.lastEndsWithReturn (s :: rest)

end

end MiniJava
