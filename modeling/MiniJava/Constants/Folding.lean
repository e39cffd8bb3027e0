import MiniJava.Constants.Rewrite
import MiniJava.Error
import MiniJava.Program

/-!
# Constant folding

Replaces operations on literals by the literal they give, from the leaves up. Integers are 32 bits
wide and wrap; a division of two literals truncates, and one by zero is refused.
-/

namespace MiniJava.Constants

/-- The literal that an operator gives on two literals. There is none when the operator is not one
for their types. -/
def evalBinary (method : String) : BinOp → Literal → Literal →
    Except CompileError (Option Literal)
  | .add, .int l, .int r => .ok (some (.int (l + r)))
  | .sub, .int l, .int r => .ok (some (.int (l - r)))
  | .mul, .int l, .int r => .ok (some (.int (l * r)))
  | .div, .int l, .int r =>
    if r = 0 then .error (.divisionByZero method) else .ok (some (.int (l / r)))
  | .lt, .int l, .int r => .ok (some (.bool (decide (l < r))))
  | .and, .bool l, .bool r => .ok (some (.bool (l && r)))
  | .or, .bool l, .bool r => .ok (some (.bool (l || r)))
  | _, _, _ => .ok none

/-- A pair of parentheses around what is left of its content. -/
def foldParen (inner : Rewrite Expr) : Rewrite Expr :=
  match inner.node with
  | .literal value => ⟨.literal value, true⟩
  | node => ⟨.paren node, inner.changed⟩

/-- A negation of what is left of its operand. -/
def foldNot (operand : Rewrite Expr) : Rewrite Expr :=
  match operand.node with
  | .literal (.bool value) => ⟨.literal (.bool !value), true⟩
  | node => ⟨.not node, operand.changed⟩

/-- An operator between what is left of its operands. -/
def foldBinary (method : String) (op : BinOp) (left right : Rewrite Expr) :
    Except CompileError (Rewrite Expr) :=
  let kept : Rewrite Expr := ⟨.binary op left.node right.node, left.changed || right.changed⟩
  match left.node, right.node with
  | .literal l, .literal r => do
    match ← evalBinary method op l r with
    | some value => return ⟨.literal value, true⟩
    | none => return kept
  | _, _ => return kept

mutual

/-- Folds an expression of the named method. -/
def foldExpr (method : String) : Expr → Except CompileError (Rewrite Expr)
  | .literal value => return ⟨.literal value, false⟩
  | .self => return ⟨.self, false⟩
  | .var name => return ⟨.var name, false⟩
  | .newObject name => return ⟨.newObject name, false⟩
  | .paren inner => return foldParen (← foldExpr method inner)
  | .not operand => return foldNot (← foldExpr method operand)
  | .binary op left right => do
    let left ← foldExpr method left
    let right ← foldExpr method right
    foldBinary method op left right
  | .newArray element size => return (← foldExpr method size).map (.newArray element)
  | .arrayLiteral elements => return (← foldExprs method elements).map .arrayLiteral
  | .index array index => do
    let array ← foldExpr method array
    let index ← foldExpr method index
    return array.map₂ .index index
  | .length array => return (← foldExpr method array).map .length
  | .call target name args => do
    let target ← foldExpr method target
    let args ← foldExprs method args
    return target.map₂ (.call · name) args

/-- Folds expressions from left to right. -/
def foldExprs (method : String) : List Expr → Except CompileError (Rewrite (List Expr))
  | [] => return ⟨[], false⟩
  | e :: rest => do
    let e ← foldExpr method e
    let rest ← foldExprs method rest
    return e.map₂ List.cons rest

end

mutual

/-- Folds every expression of a statement. -/
def foldStmt (method : String) : Stmt → Except CompileError (Rewrite Stmt)
  | .assign target value => return (← foldExpr method value).map (.assign target)
  | .arrayAssign target index value => do
    let index ← foldExpr method index
    let value ← foldExpr method value
    return index.map₂ (.arrayAssign target) value
  | .ite condition thenBranch elseBranch => do
    let condition ← foldExpr method condition
    let thenBranch ← foldStmt method thenBranch
    let elseBranch ← foldStmt method elseBranch
    return condition.map₃ .ite thenBranch elseBranch
  | .loop condition body => do
    let condition ← foldExpr method condition
    let body ← foldStmt method body
    return condition.map₂ .loop body
  | .block body => return (← foldStmts method body).map .block
  | .ret none => return ⟨.ret none, false⟩
  | .ret (some value) => return (← foldExpr method value).map fun e => .ret (some e)
  | .expr value => return (← foldExpr method value).map .expr

/-- Folds statements in their order. -/
def foldStmts (method : String) : List Stmt → Except CompileError (Rewrite (List Stmt))
  | [] => return ⟨[], false⟩
  | s :: rest => do
    let s ← foldStmt method s
    let rest ← foldStmts method rest
    return s.map₂ List.cons rest

end

/-- One folding pass over a method. -/
def fold (m : Method) : Except CompileError (Rewrite Method) :=
  return (← foldStmts m.name m.body).map fun body => { m with body }

end MiniJava.Constants
