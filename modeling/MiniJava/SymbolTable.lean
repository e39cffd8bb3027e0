import MiniJava.Error
import MiniJava.Program

/-!
# Symbol tables

The view of a program that names are resolved against: the class, its superclass, the imports, the
fields, and the signature of every method. A table exists only for programs that put variable
arguments where they are allowed and name every method once.
-/

namespace MiniJava

/-- What calls and bodies need to know about a method. -/
structure Signature where
  name : String
  returnTy : Ty
  params : List Param
  locals : List Variable
  isStatic : Bool
  deriving DecidableEq

namespace Signature

/-- The signature of a declared method. -/
def ofMethod (m : Method) : Signature :=
  { name := m.name, returnTy := m.returnTy, params := m.params, locals := m.locals
    isStatic := m.isStatic }

/-- Whether the last parameter takes any number of arguments. -/
def isVarargs (s : Signature) : Bool :=
  s.params.getLast?.any (·.isVarargs)

/-- How many parameters take exactly one argument. -/
def fixedArity (s : Signature) : Nat :=
  if s.isVarargs then s.params.length - 1 else s.params.length

/-- The first parameter of a name. -/
def param? (s : Signature) (name : String) : Option Param :=
  s.params.find? (·.name == name)

/-- The first local of a name. -/
def local? (s : Signature) (name : String) : Option Variable :=
  s.locals.find? (·.name == name)

end Signature

/-- The symbols of a program. Imports are dotted names. -/
structure SymbolTable where
  className : String
  superclass : Option String
  imports : List String
  fields : List Variable
  methods : List Signature
  deriving DecidableEq

namespace SymbolTable

/-- The symbol of a field, which takes no variable arguments. -/
def ofField (f : Field) : Except CompileError Variable :=
  if f.isVarargs then .error (.varargsNotAllowed .field f.name)
  else .ok { name := f.name, ty := f.ty }

/-- The first parameter before the last one that takes variable arguments. -/
def misplacedVarargs? (params : List Param) : Option Param :=
  params.dropLast.find? (·.isVarargs)

/-- The signature of a method, whose name is none of those seen before. -/
def ofMethod (seen : List String) (m : Method) : Except CompileError Signature :=
  if m.name ∈ seen then .error (.duplicateMethod m.name)
  else if m.returnsVarargs then .error (.varargsNotAllowed .returnTy m.name)
  else
    match misplacedVarargs? m.params with
    | some param => .error (.varargsNotAllowed .nonFinalParam param.name)
    | none => .ok (.ofMethod m)

/-- The signatures of methods in their order, given the names before them. -/
def ofMethods (seen : List String) : List Method → Except CompileError (List Signature)
  | [] => .ok []
  | m :: rest => do
    let signature ← ofMethod seen m
    let signatures ← ofMethods (m.name :: seen) rest
    return signature :: signatures

/-- The table of a program, or the first violation: fields before methods, both in source order. -/
def build (p : Program) : Except CompileError SymbolTable := do
  let fields ← p.mainClass.fields.mapM ofField
  let methods ← ofMethods [] p.mainClass.methods
  return { className := p.mainClass.name, superclass := p.mainClass.superclass
           imports := p.imports.map (·.dotted), fields, methods }

/-- The first method of a name. -/
def method? (t : SymbolTable) (name : String) : Option Signature :=
  t.methods.find? (·.name == name)

/-- The first field of a name. -/
def field? (t : SymbolTable) (name : String) : Option Variable :=
  t.fields.find? (·.name == name)

/-- The first import that makes a name visible. -/
def importFor? (t : SymbolTable) (simple : String) : Option String :=
  t.imports.find? (DottedName.lastSegment · == simple)

/-- Whether some import makes a name visible. -/
def isImport (t : SymbolTable) (name : String) : Bool :=
  (t.importFor? name).isSome

end SymbolTable

end MiniJava
