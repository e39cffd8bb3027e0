import MiniJava.Jvm.Assembly
import MiniJava.Proofs.Semantics.Machine

/-!
# Runs of emitted code

A state is the place of the next instruction, the operand stack with its top in front, and the
registers. Labels are instructions that do nothing; a jump goes on at the first place of its label.
A load, a store or a return is stuck on a value of the other kind. A new array has the element type
that its instruction names, and a store into an array of references is checked against it.
-/

namespace MiniJava.Semantics

open Jvm (Descriptor ElementKind Instr Invocation Kind MethodBlock MethodDescriptor WordOp)

/-- Whether a value is of a kind. -/
def Value.isKind (kind : Kind) : Value → Bool
  | .int _ => kind = .word
  | .null | .ref _ => kind = .reference
  | .bool _ => false

/-- A value that has to be of a kind. -/
def keep (kind : Kind) (v : Value) : Action Value :=
  if v.isKind kind then pure v else Action.stuck

/-- The lowest bit of a word, which is what remains of one that is stored as a boolean. -/
def Value.lowestBit : Value → Value
  | .int n => .int (n &&& 1)
  | .bool b => .bool b
  | .null => .null
  | .ref address => .ref address

/-- The kind of the values in a place with a descriptor. -/
def kindOf : Descriptor → Kind
  | .int | .boolean => .word
  | .void | .object _ | .array _ => .reference

/-- What remains of a value in a place with a descriptor. -/
def narrow (d : Descriptor) (v : Value) : Value :=
  if d = .boolean then v.lowestBit else v

/-- What is in a place with a descriptor before it is written. -/
def zeroOf : Descriptor → Value
  | .int | .boolean => .int 0
  | .void | .object _ | .array _ => .null

/-- The kind of the elements that a load or store is for. -/
def elementKind : ElementKind → Kind
  | .int | .boolean => .word
  | .reference => .reference

/-- What remains of a value in an element. -/
def narrowElement : ElementKind → Value → Value
  | .boolean, v => v.lowestBit
  | .int, v | .reference, v => v

/-- An operation on two words. -/
def wordOp : WordOp → Value → Value → Action Value
  | .add => onInts fun x y => pure (.int (x + y))
  | .sub => onInts fun x y => pure (.int (x - y))
  | .mul => onInts fun x y => pure (.int (x * y))
  | .div => onInts quotient
  | .and => onInts fun x y => pure (.int (x &&& y))
  | .xor => onInts fun x y => pure (.int (x ^^^ y))

/-- The arguments of a call, which are on the stack with the last one on top. -/
def popArgs (count : Nat) (stack : List Value) : Action (List Value × List Value) :=
  if count ≤ stack.length then pure ((stack.take count).reverse, stack.drop count)
  else Action.stuck

/-- An invocation. A method without a result leaves nothing on the stack. -/
def invokeOn (P : Platform) (invocation : Invocation) (owner name : String) (d : MethodDescriptor)
    (stack : List Value) : Action (List Value) := do
  let (args, rest) ← popArgs d.params.length stack
  match invocation, rest with
  | .static, rest => do
    let v ← P.invoke (.static owner) name args
    return if d.result = .void then rest else v :: rest
  | .special, object :: rest | .virtual, object :: rest => do
    let v ← P.invoke (.object object) name args
    return if d.result = .void then rest else v :: rest
  | .special, [] | .virtual, [] => Action.stuck

/-- What an instruction does to the stack that neither jumps nor uses a register. -/
def onStack (P : Platform) : Instr → List Value → Action (List Value)
  | .push n, stack => return .int n :: stack
  | .new className, stack => do
    let v ← alloc (.object className [])
    return v :: stack
  | .dup, v :: rest => return v :: v :: rest
  | .pop, _ :: rest => return rest
  | .op op, y :: x :: rest => do
    let v ← wordOp op x y
    return v :: rest
  | .newArray element, n :: rest => do
    let v ← newArray element (zeroOf element) n
    return v :: rest
  | .arrayLength, a :: rest => do
    let v ← arrayLength a
    return v :: rest
  | .arrayLoad kind, i :: a :: rest => do
    let v ← loadElement a i
    let v ← keep (elementKind kind) v
    return v :: rest
  | .arrayStore kind, v :: i :: a :: rest => do
    let v ← keep (elementKind kind) v
    P.storeElement a i (narrowElement kind v)
    return rest
  | .getField owner name d, object :: rest => do
    let v ← getField (zeroOf d) owner name object
    return v :: rest
  | .putField owner name d, v :: object :: rest => do
    let v ← keep (kindOf d) v
    putField owner name object (narrow d v)
    return rest
  | .invoke invocation owner name d, stack => invokeOn P invocation owner name d stack
  | .label _, stack => return stack
  | _, _ => Action.stuck

/-- The place of the next instruction, the operand stack and the registers. -/
structure JvmState where
  pc : Nat
  stack : List Value
  registers : Nat → Option Value

namespace JvmState

/-- Goes on behind the instruction with another stack. -/
def next (s : JvmState) (stack : List Value) : JvmState :=
  { s with pc := s.pc + 1, stack }

/-- Goes on at a label. -/
def jump (s : JvmState) (b : MethodBlock) (label : Label) (stack : List Value) :
    Action (Flow JvmState) :=
  match b.code.idxOf? (.label label) with
  | some place => return .next { s with pc := place, stack }
  | none => Action.stuck

end JvmState

/-- What an instruction does that stands at the place of the state. -/
def jvmInstr (P : Platform) (b : MethodBlock) (s : JvmState) : Instr → Action (Flow JvmState)
  | .load kind register =>
    match s.registers register with
    | some v => do
      let v ← keep kind v
      return .next (s.next (v :: s.stack))
    | none => Action.stuck
  | .store kind register =>
    match s.stack with
    | v :: rest => do
      let v ← keep kind v
      return .next { s.next rest with
        registers := fun r => if r = register then some v else s.registers r }
    | [] => Action.stuck
  | .goto label => s.jump b label s.stack
  | .ifLess label =>
    match s.stack with
    | .int y :: .int x :: rest =>
      if x < y then s.jump b label rest else return .next (s.next rest)
    | _ => Action.stuck
  | .ifTrue label =>
    match s.stack with
    | .int n :: rest => if n = 0 then return .next (s.next rest) else s.jump b label rest
    | _ => Action.stuck
  | .ret none => return .returned none
  | .ret (some kind) =>
    match s.stack with
    | v :: _ => do
      let v ← keep kind v
      return .returned (some (narrow b.descriptor.result v))
    | [] => Action.stuck
  | i => do
    let stack ← onStack P i s.stack
    return .next (s.next stack)

/-- The machine that runs an emitted method. -/
def jvmMachine (P : Platform) (b : MethodBlock) : Machine JvmState := fun s =>
  match b.code[s.pc]? with
  | some i => jvmInstr P b s i
  | none => Action.stuck

/-- The state at the start: the receiver, if there is one, and the arguments are in the first
registers. -/
def jvmStart (isStatic : Bool) (self : Value) (args : List Value) : JvmState :=
  { pc := 0, stack := [], registers := fun r => ((if isStatic then [] else [self]) ++ args)[r]? }

/-- The runs of an emitted method on an object with some arguments. -/
def jvmRun (P : Platform) (isStatic : Bool) (b : MethodBlock) (self : Value) (args : List Value)
    (fuel : Nat) : Action (Option Value) :=
  (jvmMachine P b).run fuel (jvmStart isStatic self args)

end MiniJava.Semantics
