import MiniJava.Ir.Module
import MiniJava.SymbolTable

/-!
# Lowering: names, operands and fresh numbers

What the lowering of expressions and statements is built from: the scope that names are resolved in,
the counters that temporaries and labels are numbered with, and the result for one expression.

The counters have no greatest number here. What is said of them holds of 32-bit ones for as long as
fewer temporaries and labels were given out than these can count.
-/

namespace MiniJava.Lowering

/-- How many temporaries and label numbers have been given out. -/
structure Counters where
  temps : Nat := 0
  labels : Nat := 0
  deriving DecidableEq

/-- A step of lowering. Numbers that were given out stay so when the step fails. -/
abbrev Lower := ExceptT CompileError (StateM Counters)

/-- A temporary that no other code uses. -/
def freshTemp (ty : Ty) : Lower Ir.Operand := do
  let counters ← get
  set { counters with temps := counters.temps + 1 }
  return .temp counters.temps ty

/-- A number for the labels of one construct. -/
def freshLabel : Lower Nat := do
  let counters ← get
  set { counters with labels := counters.labels + 1 }
  return counters.labels

/-- What names are resolved against: the symbols of the class and the method around the code. -/
structure Scope where
  symbols : SymbolTable
  method : Option Method

/-- What a name denotes. -/
inductive Binding where
  | variable (ty : Ty)
  | field (ty : Ty)
  | className (name : String)
  deriving DecidableEq

namespace Scope

/-- The method around the code. -/
def currentMethod (sc : Scope) : Except CompileError Method :=
  match sc.method with
  | some m => .ok m
  | none => .error (.contract .outsideMethod)

theorem currentMethod_some (symbols : SymbolTable) (m : Method) :
    currentMethod { symbols, method := some m } = pure m := rfl

/-- The local or parameter of a name, a local before a parameter. -/
def localTy? (m : Method) (name : String) : Option Ty :=
  match m.locals.find? (·.name == name) with
  | some var => some var.ty
  | none => (m.params.find? (·.name == name)).map (·.ty)

/-- What a name denotes: a local, a parameter, a field, an imported class or the class itself, the
first of these that there is. -/
def resolve (sc : Scope) (name : String) : Except CompileError Binding := do
  let m ← sc.currentMethod
  match localTy? m name, sc.symbols.field? name with
  | some ty, _ => return .variable ty
  | none, some field => return .field field.ty
  | none, none =>
    if sc.symbols.isImport name || name == sc.symbols.className then return .className name
    else throw (.unresolvedName name m.name)

/-- The object a method works on, which a static method has none of. -/
def receiver (sc : Scope) (use : ReceiverUse) : Except CompileError Ir.Operand := do
  let m ← sc.currentMethod
  if m.isStatic then throw (.unsupported (.receiverInStatic use m.name))
  else return .receiver sc.symbols.className

/-- Whether a call on a target is one to a method of the class. -/
def isOwn (sc : Scope) : Ir.Operand → Bool
  | .receiver _ => true
  | .classRef name => name == sc.symbols.className
  | target => target.ty == .object sc.symbols.className

/-- The signature of the method of the class that a call on a target names. -/
def ownSignature? (sc : Scope) (target : Ir.Operand) (method : String) : Option Signature :=
  if sc.isOwn target then sc.symbols.method? method else none

end Scope

/-- The code that computes an expression, and the operand that holds its value afterwards. A call
without a result has none. -/
structure Lowered where
  code : List Ir.Instr := []
  operand : Option Ir.Operand
  deriving DecidableEq

namespace Lowered

/-- An operand that needs no code. -/
def value (operand : Ir.Operand) : Lowered :=
  { operand := some operand }

/-- The operand, which must be there. -/
def require (l : Lowered) (role : OperandRole) : Except CompileError Ir.Operand :=
  match l.operand with
  | some operand => .ok operand
  | none => .error (.missingOperand role)

end Lowered

/-- Code with the assignment of a computed value to a fresh temporary behind it. -/
def compute (code : List Ir.Instr) (ty : Ty) (value : Ir.Value) : Lower Lowered := do
  let dest ← freshTemp ty
  return { code := code ++ [.assignVar dest value], operand := some dest }

end MiniJava.Lowering
