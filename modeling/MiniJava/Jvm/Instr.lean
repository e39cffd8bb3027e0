import MiniJava.Ir.Instr
import MiniJava.Jvm.Descriptor

/-!
# Instructions of emitted code

Emitted code is a list of instructions of a stack machine. It becomes text only when a whole class
is written: an instruction on its own line, four blanks in front, and a label with a colon behind.
-/

namespace MiniJava.Jvm

/-- What a register or a result holds. -/
inductive Kind where
  | word
  | reference
  deriving DecidableEq

/-- The kind of the values of a type. -/
def Kind.ofTy (ty : Ty) : Kind :=
  if ty.isReference then .reference else .word

/-- The letter in front of the instructions for a kind. -/
def Kind.letter : Kind → String
  | word => "i"
  | reference => "a"

/-- What an array holds, as far as loads and stores tell it apart. -/
inductive ElementKind where
  | int
  | boolean
  | reference
  deriving DecidableEq

/-- The kind of the elements of a type. -/
def ElementKind.ofTy : Ty → ElementKind
  | .int => .int
  | .boolean => .boolean
  | .string | .void | .object _ | .array _ => .reference

/-- The letter in front of the loads and stores for a kind of elements. -/
def ElementKind.letter : ElementKind → String
  | int => "i"
  | boolean => "b"
  | reference => "a"

/-- An operation on two words. -/
inductive WordOp where
  | add
  | sub
  | mul
  | div
  | and
  | xor
  deriving DecidableEq

/-- An operation on words as emitted code writes it. -/
def WordOp.mnemonic : WordOp → String
  | add => "iadd"
  | sub => "isub"
  | mul => "imul"
  | div => "idiv"
  | and => "iand"
  | xor => "ixor"

/-- The operation of an operator. A comparison is none: it branches. -/
def WordOp.ofBinOp? : Ir.BinOp → Option WordOp
  | .add => some add
  | .sub => some sub
  | .mul => some mul
  | .div => some div
  | .and => some and
  | .lt => none

/-- How a method is invoked. -/
inductive Invocation where
  | special
  | virtual
  | static
  deriving DecidableEq

/-- A kind of invocation as emitted code writes it. -/
def Invocation.mnemonic : Invocation → String
  | special => "invokespecial"
  | virtual => "invokevirtual"
  | static => "invokestatic"

/-- An instruction, or a label that marks the one behind it. -/
inductive Instr where
  | push (value : Int32)
  | load (kind : Kind) (register : Nat)
  | store (kind : Kind) (register : Nat)
  | new (className : String)
  | dup
  | pop
  | op (op : WordOp)
  | newArray (element : Descriptor)
  | arrayLength
  | arrayLoad (kind : ElementKind)
  | arrayStore (kind : ElementKind)
  | getField (owner name : String) (descriptor : Descriptor)
  | putField (owner name : String) (descriptor : Descriptor)
  | invoke (invocation : Invocation) (owner name : String) (descriptor : MethodDescriptor)
  | label (label : Label)
  | goto (label : Label)
  | ifLess (label : Label)
  | ifTrue (label : Label)
  | ret (kind : Option Kind)
  deriving DecidableEq

/-- The shortest push of a constant: its own instruction from -1 to 5, else an operand of 8 or of 16
bits, else an entry of the constant pool. -/
def pushText (value : Int32) : String :=
  let n := value.toInt
  if n = -1 then "iconst_m1"
  else if 0 ≤ n ∧ n ≤ 5 then "iconst_" ++ toString n
  else if -128 ≤ n ∧ n ≤ 127 then "bipush " ++ toString n
  else if -32768 ≤ n ∧ n ≤ 32767 then "sipush " ++ toString n
  else "ldc " ++ toString n

/-- The operand of a load or store: the first four registers have instructions of their own. -/
def registerText (register : Nat) : String :=
  (if register < 4 then "_" else " ") ++ toString register

/-- The text of an array allocation. -/
def newArrayText : Descriptor → String
  | .int => "newarray int"
  | .boolean => "newarray boolean"
  | element => "anewarray " ++ element.componentText

/-- The text of a return. -/
def returnText : Option Kind → String
  | none => "return"
  | some kind => kind.letter ++ "return"

namespace Instr

/-- An instruction as emitted code writes it. -/
def text : Instr → String
  | push value => pushText value
  | load kind register => kind.letter ++ "load" ++ registerText register
  | store kind register => kind.letter ++ "store" ++ registerText register
  | new className => "new " ++ className
  | dup => "dup"
  | pop => "pop"
  | op o => o.mnemonic
  | newArray element => newArrayText element
  | arrayLength => "arraylength"
  | arrayLoad kind => kind.letter ++ "aload"
  | arrayStore kind => kind.letter ++ "astore"
  | getField owner name descriptor => "getfield " ++ owner ++ "/" ++ name ++ " " ++ descriptor.text
  | putField owner name descriptor => "putfield " ++ owner ++ "/" ++ name ++ " " ++ descriptor.text
  | invoke invocation owner name descriptor =>
    invocation.mnemonic ++ " " ++ owner ++ "/" ++ name ++ descriptor.text
  | label l => l.text ++ ":"
  | goto l => "goto " ++ l.text
  | ifLess l => "if_icmplt " ++ l.text
  | ifTrue l => "ifne " ++ l.text
  | ret kind => returnText kind

/-- The line of an instruction. -/
def line : Instr → String
  | label l => l.text ++ ":\n"
  | i => "    " ++ i.text ++ "\n"

end Instr

end MiniJava.Jvm
