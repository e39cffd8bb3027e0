import MiniJava.Ir.Module
import MiniJava.Jvm.Instr
import MiniJava.Jvm.StackDepth

/-!
# Emission of instructions

Every instruction of the intermediate code becomes a few of the stack machine: operands are pushed,
the work is done, the result is stored. A new object stays on the stack for its constructor call if
that comes next; otherwise the copy is dropped again.
-/

namespace MiniJava.Jvm

open Ir (Operand Value Call)

/-- What the emission of a method looks at. -/
structure Frame where
  method : Ir.Method
  owner : Ir.Class
  negation : Negation

/-- The lookup of class names for a class. -/
def Resolver.ofClass (c : Ir.Class) : Resolver :=
  { className := c.name, imports := c.imports }

/-- The lookup of class names inside a method. -/
def Frame.resolver (f : Frame) : Resolver :=
  .ofClass f.owner

/-- The state of emission: the code so far, the depth of the stack, the object that waits on it for
its constructor call, and the number of the next label. -/
structure Emitted where
  code : Array Instr := #[]
  stack : StackDepth := {}
  pending : Option Operand := none
  nextLabel : Nat := 0

/-- A step of emission. What was emitted stays when it fails. -/
abbrev Emit := ExceptT CompileError (StateM Emitted)

/-- Emits an instruction that pops some words and then pushes some. -/
def emit (i : Instr) (pops pushes : Nat) : Emit Unit :=
  modify fun s => { s with code := s.code.push i, stack := (s.stack.pop pops).push pushes }

/-- Emits a label, or an instruction that leaves the stack as it is. -/
def emitPlain (i : Instr) : Emit Unit :=
  modify fun s => { s with code := s.code.push i }

/-- A label that no other code uses. -/
def newLabel (role : LabelRole) : Emit Label := do
  let s ← get
  set { s with nextLabel := s.nextLabel + 1 }
  return .numbered role s.nextLabel

/-! ## Operands -/

/-- The register of an operand. -/
def registerOf (f : Frame) (o : Operand) : Except CompileError Nat :=
  match f.method.register? o with
  | some register => .ok register
  | none => .error (.contract (.noRegister o f.method.name))

/-- The push of an operand. -/
def loadInstr (f : Frame) (o : Operand) : Except CompileError Instr :=
  match o with
  | .literal value => .ok (.push value.word)
  | .var _ ty | .temp _ ty => return .load (.ofTy ty) (← registerOf f o)
  | .receiver _ => .ok (.load .reference 0)
  | .classRef name => .error (.unsupported (.classAsValue name))

/-- The instruction that stores into an operand. -/
def storeInstr (f : Frame) (o : Operand) : Except CompileError Instr :=
  match o with
  | .var _ ty | .temp _ ty => return .store (.ofTy ty) (← registerOf f o)
  | .literal _ | .receiver _ | .classRef _ => .error (.contract (.cannotStore o))

/-- Pushes an operand. -/
def load (f : Frame) (o : Operand) : Emit Unit := do
  emit (← loadInstr f o) 0 1

/-- Pops the result into an operand. -/
def store (f : Frame) (o : Operand) : Emit Unit := do
  emit (← storeInstr f o) 1 0

/-- Pushes operands from left to right. -/
def loadAll (f : Frame) : List Operand → Emit Unit
  | [] => return
  | o :: rest => do
    load f o
    loadAll f rest

/-- The class whose members an object has. -/
def ownerOf (f : Frame) (object : Operand) : Except CompileError String :=
  match object.ty with
  | .object name => .ok (f.resolver.internalName name)
  | .string => .ok stringClass
  | .int | .boolean | .void | .array _ => .error (.contract (.notAnObject object))

/-! ## Values -/

/-- Pushes one if the left operand is less than the right one, else zero. -/
def emitLess (f : Frame) (left right : Operand) : Emit Unit := do
  let onTrue ← newLabel .compareTrue
  let atEnd ← newLabel .compareEnd
  load f left
  load f right
  emit (.ifLess onTrue) 2 0
  let base := (← get).stack.depth
  emit (.push 0) 0 1
  emitPlain (.goto atEnd)
  emitPlain (.label onTrue)
  modify fun s => { s with stack := s.stack.setDepth base }
  emit (.push 1) 0 1
  emitPlain (.label atEnd)

/-- Pushes the result of an operator. -/
def emitBinary (f : Frame) (op : Ir.BinOp) (left right : Operand) : Emit Unit := do
  match WordOp.ofBinOp? op with
  | none => emitLess f left right
  | some o =>
    load f left
    load f right
    emit (.op o) 2 1

/-- Pushes a negation. -/
def emitNot (f : Frame) (o : Operand) : Emit Unit := do
  load f o
  match f.negation with
  | .selfXor => load f o
  | .xorOne => emit (.push 1) 0 1
  emit (.op .xor) 2 1

/-- Pushes the value of a field. -/
def emitGetField (f : Frame) (object : Operand) (field : String) (ty : Ty) : Emit Unit := do
  let owner ← ownerOf f object
  load f object
  emit (.getField owner field (f.resolver.descriptor ty)) 1 1

/-- Pushes a new array. -/
def emitNewArray (f : Frame) (call : Call) : Emit Unit := do
  match call.returnTy.element?, call.args.head? with
  | none, _ => throw (.contract .allocationOutsideAssignment)
  | some _, none => throw (.contract .arrayWithoutSize)
  | some element, some size =>
    load f size
    emit (.newArray (f.resolver.descriptor element).component) 1 1

/-- The descriptor of a call: what the class declares for its own methods, else the types of the
arguments and of the result. -/
def callDescriptor (f : Frame) (owner name : String) (call : Call) : MethodDescriptor :=
  let declared := if owner = f.owner.name then f.owner.method? name else none
  match declared with
  | some m => f.resolver.methodDescriptor (m.params.map (·.ty)) m.returnTy
  | none => f.resolver.methodDescriptor (call.args.map (·.ty)) call.returnTy

/-- The class that a call names. -/
def callOwner (f : Frame) (invocation : Invocation) (target : Operand) :
    Except CompileError String :=
  match invocation, target with
  | .static, .classRef name => .ok (f.resolver.internalName name)
  | _, _ => ownerOf f target

/-- Pushes the object of a call and gives the number of words that stand for it. The object that
waits for its constructor is there already. -/
def loadReceiver (f : Frame) (invocation : Invocation) (target : Operand) : Emit Nat := do
  match invocation with
  | .static => return 0
  | .special =>
    if (← get).pending = some target then
      modify fun s => { s with pending := none }
    else
      load f target
    return 1
  | .virtual =>
    load f target
    return 1

/-- Invokes a method. A result is left on the stack. -/
def emitInvoke (f : Frame) (invocation : Invocation) (call : Call) : Emit Unit := do
  match call.method with
  | none => throw (.contract (.noMethodName call.kind))
  | some name =>
    let owner ← callOwner f invocation call.target
    let receiverWords ← loadReceiver f invocation call.target
    loadAll f call.args
    emit (.invoke invocation owner name (callDescriptor f owner name call))
      (call.args.length + receiverWords) (if call.returnTy.isVoid then 0 else 1)

/-- Emits a call other than the allocation of an object. -/
def emitCall (f : Frame) (call : Call) : Emit Unit := do
  match call.kind with
  | .new => emitNewArray f call
  | .arrayLength =>
    load f call.target
    emit .arrayLength 1 1
  | .invokeSpecial => emitInvoke f .special call
  | .invokeVirtual => emitInvoke f .virtual call
  | .invokeStatic => emitInvoke f .static call

/-- Pushes a value. -/
def emitValue (f : Frame) : Value → Emit Unit
  | .operand o => load f o
  | .binary op left right => emitBinary f op left right
  | .not o => emitNot f o
  | .getField object field ty => emitGetField f object field ty
  | .arrayLoad array index ty => do
    load f array
    load f index
    emit (.arrayLoad (.ofTy ty)) 2 1
  | .call call => emitCall f call

/-! ## Instructions -/

/-- The allocation of an object: one copy goes to the variable, one waits for the constructor. -/
def emitNewObject (f : Frame) (dest : Operand) (call : Call) : Emit Unit := do
  match call.returnTy with
  | .object name =>
    emit (.new (f.resolver.internalName name)) 0 1
    emit .dup 0 1
    store f dest
    modify fun s => { s with pending := some dest }
  | ty => throw (.contract (.allocatedNonClass ty))

/-- An assignment to a variable. -/
def emitAssignVar (f : Frame) (dest : Operand) (value : Value) : Emit Unit := do
  if value.ty.isVoid then throw (.contract (.voidAssigned dest))
  else
    emitValue f value
    store f dest

/-- The type in the name of a field that is written: what the class declares for its own fields,
else the type of the value. -/
def writtenTy (f : Frame) (owner field : String) (value : Operand) : Ty :=
  let declared := if owner = f.owner.name then f.owner.field? field else none
  match declared with
  | some field => field.ty
  | none => value.ty

/-- A write to a field. -/
def emitPutField (f : Frame) (object : Operand) (field : String) (value : Operand) :
    Emit Unit := do
  let owner ← ownerOf f object
  load f object
  load f value
  emit (.putField owner field (f.resolver.descriptor (writtenTy f owner field value))) 2 0

/-- A call whose result is dropped. -/
def emitCallStatement (f : Frame) (call : Call) : Emit Unit := do
  if call.isObjectNew then throw (.contract .bareAllocation)
  else
    emitCall f call
    if !call.returnTy.isVoid then emit .pop 1 0

/-- A jump on a condition. A comparison is its own jump. -/
def emitCondGoto (f : Frame) (condition : Value) (label : Label) : Emit Unit := do
  match condition with
  | .binary .lt left right =>
    load f left
    load f right
    emit (.ifLess label) 2 0
  | value =>
    emitValue f value
    emit (.ifTrue label) 1 0

/-- What a method of the given type returns. -/
def returnKind (ty : Ty) : Option Kind :=
  if ty.isVoid then none else some (.ofTy ty)

/-- The code of an instruction, the object that waits on the stack set aside. -/
def emitBody (f : Frame) : Ir.Instr → Emit Unit
  | .assign (.var dest) value =>
    match value with
    | .call call =>
      if call.isObjectNew then emitNewObject f dest call
      else emitAssignVar f dest value
    | _ => emitAssignVar f dest value
  | .assign (.element array index ty) value => do
    load f array
    load f index
    emitValue f value
    emit (.arrayStore (.ofTy ty)) 3 0
  | .putField object field value => emitPutField f object field value
  | .call call => emitCallStatement f call
  | .label l => emitPlain (.label l)
  | .goto l => emitPlain (.goto l)
  | .condGoto condition l => emitCondGoto f condition l
  | .ret (some o) => do
    load f o
    emit (.ret (returnKind f.method.returnTy)) 1 0
  | .ret none => emitPlain (.ret none)

/-- Whether an instruction is the constructor call of an object. -/
def isConstructorOf (object : Operand) : Ir.Instr → Bool
  | .call call => call.kind == .invokeSpecial && call.target == object
  | _ => false

/-- Drops the object that waits on the stack, if there is one. -/
def dropPending : Emit Unit := do
  if (← get).pending.isSome then
    modify fun s => { s with pending := none }
    emit .pop 1 0

/-- Drops the object that waits on the stack unless the next instruction is its constructor call. -/
def settlePending (next : Ir.Instr) : Emit Unit := do
  if !(← get).pending.any (isConstructorOf · next) then dropPending

/-- Emits an instruction. -/
def emitInstr (f : Frame) (i : Ir.Instr) : Emit Unit := do
  modify fun s => { s with stack := s.stack.beginInstruction }
  settlePending i
  emitBody f i

/-- Emits the instructions of a method one after another. -/
def emitInstrs (f : Frame) : List Ir.Instr → Emit Unit
  | [] => dropPending
  | i :: rest => do
    emitInstr f i
    emitInstrs f rest

end MiniJava.Jvm
