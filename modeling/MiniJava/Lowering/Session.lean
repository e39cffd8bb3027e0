import MiniJava.Lowering.Stmt

/-!
# Lowering of methods and programs

A session lowers over one symbol table. Its counters go on from step to step, failed steps included.
While a method is lowered it is the current one; when that fails it stays so.
-/

namespace MiniJava.Lowering

/-- The body of a method: its statements, and a return behind them when the method has no result and
does not end with one. -/
def lowerBody (symbols : SymbolTable) (m : Method) : Lower (List Ir.Instr) := do
  let code ← lowerStmts { symbols, method := some m } m.body
  return if m.returnTy.isVoid && !m.endsWithReturn then code ++ [.ret none] else code

/-- The method of the intermediate code for a declaration, still without a body: parameters have the
first registers after the receiver, then come the locals. -/
def frame (className : String) (m : Method) : Ir.Method :=
  let empty := { Ir.Method.new m.name className m.isStatic m.returnTy with
    access := m.access, isFinal := m.isFinal }
  let withParams := m.params.foldl (fun f p => f.addParam { name := p.name, ty := p.ty }) empty
  m.locals.foldl (·.addLocal ·) withParams

/-- Lowers a method with its body. -/
def lowerMethod (symbols : SymbolTable) (m : Method) : Lower Ir.Method := do
  let code ← lowerBody symbols m
  let (result, method) := (frame symbols.className m).setBody code
  result
  return method

/-- A field with its literal initializer. -/
def lowerField (f : Field) : Except CompileError Ir.Field := do
  let initialValue ← match f.initializer with
    | none => pure none
    | some (.literal value) => pure (some value)
    | some _ => throw (.unsupported (.initializer f.name))
  return { name := f.name, ty := f.ty, access := f.access, isStatic := f.isStatic,
           isFinal := f.isFinal, initialValue }

/-- What a session keeps between two steps. -/
structure Session where
  symbols : SymbolTable
  counters : Counters := {}
  method : Option Method := none

/-- A step of a session. What it changed stays when it fails. -/
abbrev Step := ExceptT CompileError (StateM Session)

namespace Session

/-- Runs code on the counters of the session. -/
def run {α : Type} (code : Lower α) : Step α := fun s =>
  let (result, counters) := ExceptT.run code s.counters
  (result, { s with counters })

/-- Lowers an expression inside the current method. -/
def lowerExpr (e : Expr) (expected : Option Ty) : Step Lowered := do
  let s ← get
  run (Lowering.lowerExpr { symbols := s.symbols, method := s.method } expected e)

/-- Lowers a statement inside the current method. -/
def lowerStmt (stmt : Stmt) : Step (List Ir.Instr) := do
  let s ← get
  run (Lowering.lowerStmt { symbols := s.symbols, method := s.method } stmt)

/-- Lowers a method, which is the current one until it has succeeded. -/
def lowerMethod (m : Method) : Step Ir.Method := do
  modify fun s => { s with method := some m }
  let method ← run (Lowering.lowerMethod (← get).symbols m)
  modify fun s => { s with method := none }
  return method

/-- Lowers methods in their order. -/
def lowerMethods : List Method → Step (List Ir.Method)
  | [] => return []
  | m :: rest => do
    let method ← lowerMethod m
    let methods ← lowerMethods rest
    return method :: methods

/-- Lowers a program: all fields, then all methods. -/
def lowerProgram (p : Program) : Step Ir.Module := do
  let fields ← p.mainClass.fields.mapM (lowerField ·)
  let methods ← lowerMethods p.mainClass.methods
  return { classes := [{
    name := p.mainClass.name, superclass := p.mainClass.superclass
    imports := (← get).symbols.imports, fields, methods }] }

end Session

/-- Lowers a program over a symbol table. -/
def lowerProgram (symbols : SymbolTable) (p : Program) : Except CompileError Ir.Module :=
  ((Session.lowerProgram p).run { symbols }).1

end MiniJava.Lowering
