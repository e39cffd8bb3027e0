import MiniJava.Ir.Operand
import MiniJava.Label

/-!
# Instructions of the intermediate code

Three-address code: an instruction computes one value from operands, jumps, or returns. Beside the
instructions stand the questions asked of them: which operands one reads, which temporary it
defines, where it jumps.
-/

namespace MiniJava.Ir

/-- An operator on two operands that are both evaluated. -/
inductive BinOp where
  | add
  | sub
  | mul
  | div
  | lt
  | and
  deriving DecidableEq

namespace BinOp

/-- The type of the result. -/
def resultTy : BinOp → Ty
  | add | sub | mul | div => .int
  | lt | and => .boolean

/-- An operator as the listing writes it. -/
def symbol : BinOp → String
  | add => "+"
  | sub => "-"
  | mul => "*"
  | div => "/"
  | lt => "<"
  | and => "&&"

end BinOp

/-- What a call does: allocate an object or an array, invoke a method, or measure an array. -/
inductive CallKind where
  | new
  | invokeSpecial
  | invokeVirtual
  | invokeStatic
  | arrayLength
  deriving DecidableEq

/-- A kind of call as both listings write it. -/
def CallKind.mnemonic : CallKind → String
  | new => "new"
  | invokeSpecial => "invokespecial"
  | invokeVirtual => "invokevirtual"
  | invokeStatic => "invokestatic"
  | arrayLength => "arraylength"

/-- A call. An allocation names the class, or the word `array`, in its target and gives what it
makes as its return type; the size of an array is its only argument. -/
structure Call where
  kind : CallKind
  target : Operand
  method : Option String := none
  args : List Operand := []
  returnTy : Ty
  deriving DecidableEq

namespace Call

/-- The allocation of an object whose constructor is still to be called. -/
def newObject (className : String) : Call :=
  { kind := .new, target := .classRef className, returnTy := .object className }

/-- The allocation of an array. -/
def newArray (element : Ty) (size : Operand) : Call :=
  { kind := .new, target := .classRef "array", args := [size], returnTy := .array element }

/-- The constructor call on a fresh object. -/
def constructor (object : Operand) : Call :=
  { kind := .invokeSpecial, target := object, method := some "<init>", returnTy := .void }

/-- The length of an array. -/
def arrayLength (array : Operand) : Call :=
  { kind := .arrayLength, target := array, returnTy := .int }

/-- Whether the call allocates an array. -/
def isArrayNew (c : Call) : Bool :=
  c.kind == .new && c.returnTy.isArray

/-- Whether the call allocates an object. -/
def isObjectNew (c : Call) : Bool :=
  c.kind == .new && !c.returnTy.isArray

/-- The operands a call reads, its target first. -/
def operands (c : Call) : List Operand :=
  c.target :: c.args

end Call

/-- What an assignment computes. -/
inductive Value where
  | operand (operand : Operand)
  | binary (op : BinOp) (left right : Operand)
  | not (operand : Operand)
  | getField (object : Operand) (field : String) (ty : Ty)
  | arrayLoad (array index : Operand) (ty : Ty)
  | call (call : Call)
  deriving DecidableEq

namespace Value

/-- The type of the result. -/
def ty : Value → Ty
  | operand o => o.ty
  | binary op _ _ => op.resultTy
  | not _ => .boolean
  | getField _ _ ty | arrayLoad _ _ ty => ty
  | call c => c.returnTy

/-- The operands read, in their order. -/
def operands : Value → List Operand
  | operand o | not o => [o]
  | binary _ left right => [left, right]
  | getField object _ _ => [object]
  | arrayLoad array index _ => [array, index]
  | call c => c.operands

end Value

/-- Where an assignment puts its result: in a variable or in an element of an array. -/
inductive Place where
  | var (operand : Operand)
  | element (array index : Operand) (ty : Ty)
  deriving DecidableEq

/-- The type of what a place holds. -/
def Place.ty : Place → Ty
  | var o => o.ty
  | element _ _ ty => ty

/-- An instruction. A call on its own drops its result. -/
inductive Instr where
  | assign (dest : Place) (value : Value)
  | putField (object : Operand) (field : String) (value : Operand)
  | call (call : Call)
  | label (label : Label)
  | goto (label : Label)
  | condGoto (condition : Value) (label : Label)
  | ret (value : Option Operand)
  deriving DecidableEq

namespace Instr

/-- The assignment to a variable or temporary. -/
def assignVar (dest : Operand) (value : Value) : Instr :=
  assign (.var dest) value

/-- The temporary an instruction assigns, with the type given there. -/
def definedVar? : Instr → Option (Nat × Ty)
  | assign (.var (.temp id ty)) _ => some (id, ty)
  | _ => none

/-- The number of the temporary an instruction assigns. -/
def definedTemp? (i : Instr) : Option Nat :=
  i.definedVar?.map (·.1)

/-- The operands an instruction reads. A store into an array reads the array and the index after
its value. -/
def usedOperands : Instr → List Operand
  | assign (.var _) value => value.operands
  | assign (.element array index _) value => value.operands ++ [array, index]
  | putField object _ value => [object, value]
  | call c => c.operands
  | condGoto condition _ => condition.operands
  | ret (some o) => [o]
  | ret none | label _ | goto _ => []

/-- The label an instruction may jump to. -/
def jumpTarget? : Instr → Option Label
  | goto l | condGoto _ l => some l
  | _ => none

/-- The label an instruction defines. -/
def definedLabel? : Instr → Option Label
  | label l => some l
  | _ => none

end Instr

end MiniJava.Ir
