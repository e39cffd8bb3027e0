import MiniJava.Lowering.Expr

/-!
# Lowering of statements

A statement becomes a flat list of instructions. The layouts of branches and loops are written out
at the functions that make them.
-/

namespace MiniJava.Lowering

open Ir (Instr)

/-- An assignment to a variable or a field. The receiver is asked for after the value. -/
def lowerAssign (sc : Scope) (target : String) (value : Option Ty → Lower Lowered) :
    Lower (List Instr) := do
  match ← sc.resolve target with
  | .variable ty =>
    let v ← value (some ty)
    let operand ← v.require .assigned
    return v.code ++ [.assignVar (.var target ty) (.operand operand)]
  | .field ty =>
    let v ← value (some ty)
    let operand ← v.require .assigned
    let object ← sc.receiver (.fieldWrite target)
    return v.code ++ [.putField object target operand]
  | .className name => throw (.unsupported (.classAssigned name))

/-- An assignment to an element. The array is read first, then index and value are computed. -/
def lowerArrayAssign (sc : Scope) (target : String) (index : Lower Lowered)
    (value : Option Ty → Lower Lowered) : Lower (List Instr) := do
  let a ← lowerVar sc target
  let array ← a.require .assignedArray
  let element ← elementTy target array
  let i ← index
  let place ← i.require .arrayIndex
  let v ← value (some element)
  let operand ← v.require .assignedElement
  return a.code ++ i.code ++ v.code ++ [.assign (.element array place element) (.operand operand)]

/-- A conditional:

```text
  <condition>; if (c) goto then; <else>; goto endif;
then: <then>
endif:
```

When the else branch ends with a return, nothing goes to `endif` and it is left out. -/
def lowerIf (condition : Lower (List Instr × Ir.Value)) (thenBranch elseBranch : Lower (List Instr))
    (elseReturns : Bool) : Lower (List Instr) := do
  let n ← freshLabel
  let (test, value) ← condition
  let elseCode ← elseBranch
  let thenCode ← thenBranch
  let skip : List Instr := if elseReturns then [] else [.goto (.numbered .endIf n)]
  let join : List Instr := if elseReturns then [] else [.label (.numbered .endIf n)]
  return test ++ [.condGoto value (.numbered .thenBranch n)] ++ elseCode ++ skip
    ++ [.label (.numbered .thenBranch n)] ++ thenCode ++ join

/-- A loop, its test at the bottom:

```text
  goto condition;
body: <body>
condition: <condition>; if (c) goto body;
```
-/
def lowerLoop (condition : Lower (List Instr × Ir.Value)) (body : Lower (List Instr)) :
    Lower (List Instr) := do
  let n ← freshLabel
  let bodyCode ← body
  let (test, value) ← condition
  return [.goto (.numbered .loopCondition n), .label (.numbered .loopBody n)] ++ bodyCode
    ++ [.label (.numbered .loopCondition n)] ++ test ++ [.condGoto value (.numbered .loopBody n)]

/-- A return with a value. -/
def lowerReturn (sc : Scope) (value : Option Ty → Lower Lowered) : Lower (List Instr) := do
  let m ← sc.currentMethod
  let v ← value (some m.returnTy)
  let operand ← v.require .returned
  return v.code ++ [.ret (some operand)]

mutual

/-- Lowers a statement. -/
def lowerStmt (sc : Scope) : Stmt → Lower (List Instr)
  | .assign target value => lowerAssign sc target fun hint => lowerExpr sc hint value
  | .arrayAssign target index value =>
    lowerArrayAssign sc target (lowerExpr sc (some .int) index) fun hint => lowerExpr sc hint value
  | .ite condition thenBranch elseBranch =>
    lowerIf (lowerCondition sc condition) (lowerStmt sc thenBranch) (lowerStmt sc elseBranch)
      elseBranch.endsWithReturn
  | .loop condition body => lowerLoop (lowerCondition sc condition) (lowerStmt sc body)
  | .block body => lowerStmts sc body
  | .ret none => return [.ret none]
  | .ret (some value) => lowerReturn sc fun hint => lowerExpr sc hint value
  | .expr value => return (← lowerEffect sc value).code

/-- Lowers statements one after another. -/
def lowerStmts (sc : Scope) : List Stmt → Lower (List Instr)
  | [] => return []
  | s :: rest => do
    let code ← lowerStmt sc s
    let more ← lowerStmts sc rest
    return code ++ more

end

end MiniJava.Lowering
