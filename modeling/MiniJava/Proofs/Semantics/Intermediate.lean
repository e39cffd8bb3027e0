import MiniJava.Ir.Module
import MiniJava.Proofs.Semantics.Machine

/-!
# Runs of the intermediate code

A state is the place of the next instruction and the values of the variables. A jump goes on at the
place its label has in the label map of the method. Reading and writing a variable checks that the
value is one of the type that the operand carries.
-/

namespace MiniJava.Semantics

/-- The values of the variables that have one. -/
abbrev Vars := Ir.VarKey → Option Value

/-- The variables after an assignment. -/
def Vars.set (vars : Vars) (key : Ir.VarKey) (value : Value) : Vars := fun other =>
  if other = key then some value else vars other

/-- The place of the next instruction and the values of the variables. -/
structure IrState where
  pc : Nat
  vars : Vars

/-- The value of an operand. -/
def readOperand (P : Platform) (vars : Vars) (o : Ir.Operand) : Action Value :=
  match o with
  | .literal value => pure (P.literal value)
  | .classRef _ => Action.stuck
  | .var .. | .temp .. | .receiver _ =>
    match o.key?.bind vars with
    | some v => P.expect o.ty v
    | none => Action.stuck

/-- The values of operands, from left to right. -/
def readOperands (P : Platform) (vars : Vars) : List Ir.Operand → Action (List Value)
  | [] => return []
  | o :: rest => do
    let v ← readOperand P vars o
    let values ← readOperands P vars rest
    return v :: values

/-- An operator on two values. -/
def irBinary (P : Platform) : Ir.BinOp → Value → Value → Action Value
  | .add => onInts fun x y => pure (.int (x + y))
  | .sub => onInts fun x y => pure (.int (x - y))
  | .mul => onInts fun x y => pure (.int (x * y))
  | .div => onInts quotient
  | .lt => onInts fun x y => pure (P.truth (decide (x < y)))
  | .and => fun x y => do
    let l ← P.test x
    let r ← P.test y
    return P.truth (l && r)

/-- The class whose fields an operand has. -/
def fieldOwner (P : Platform) (object : Ir.Operand) : Option String :=
  match object.ty with
  | .object name => some (P.classOf name)
  | .int | .boolean | .string | .void | .array _ => none

/-- What a call does. Its result is not looked at. -/
def irCall (P : Platform) (vars : Vars) (call : Ir.Call) : Action Value :=
  match call.kind with
  | .new =>
    match call.returnTy, call.args with
    | .object name, _ => alloc (.object (P.classOf name) [])
    | .array element, size :: _ => do
      let n ← readOperand P vars size
      P.newArray element n
    | _, _ => Action.stuck
  | .arrayLength => do
    let array ← readOperand P vars call.target
    arrayLength array
  | .invokeVirtual | .invokeSpecial =>
    match call.method with
    | some method => do
      let object ← readOperand P vars call.target
      let values ← readOperands P vars call.args
      P.invoke (.object object) method values
    | none => Action.stuck
  | .invokeStatic =>
    match call.target, call.method with
    | .classRef name, some method => do
      let values ← readOperands P vars call.args
      P.invoke (.static (P.classOf name)) method values
    | _, _ => Action.stuck

/-- What an assignment or a test computes. -/
def irValue (P : Platform) (vars : Vars) : Ir.Value → Action Value
  | .operand o => readOperand P vars o
  | .binary op left right => do
    let x ← readOperand P vars left
    let y ← readOperand P vars right
    irBinary P op x y
  | .not o => do
    let v ← readOperand P vars o
    let b ← P.test v
    return P.truth !b
  | .getField object field ty =>
    match fieldOwner P object with
    | some owner => do
      let o ← readOperand P vars object
      let v ← getField (P.zero ty) owner field o
      P.expect ty v
    | none => Action.stuck
  | .arrayLoad array index ty => do
    let a ← readOperand P vars array
    let i ← readOperand P vars index
    let v ← loadElement a i
    P.expect ty v
  | .call call => do
    let v ← irCall P vars call
    P.expect call.returnTy v

/-- The variable an operand stands for in an assignment. -/
def destination? : Ir.Operand → Option Ir.VarKey
  | .var name _ => some (.named name)
  | .temp id _ => some (.temp id)
  | .literal _ | .receiver _ | .classRef _ => none

/-- What an instruction does that stands at the place of the state. -/
def irInstr (P : Platform) (m : Ir.Method) (s : IrState) : Ir.Instr → Action (Flow IrState)
  | .assign (.var dest) value =>
    match destination? dest with
    | some key => do
      let v ← irValue P s.vars value
      let v ← P.expect dest.ty v
      return .next { pc := s.pc + 1, vars := s.vars.set key v }
    | none => Action.stuck
  | .assign (.element array index ty) value => do
    let a ← readOperand P s.vars array
    let i ← readOperand P s.vars index
    let v ← irValue P s.vars value
    let v ← P.expect ty v
    P.storeElement a i v
    return .next { s with pc := s.pc + 1 }
  | .putField object field value =>
    match fieldOwner P object with
    | some owner => do
      let o ← readOperand P s.vars object
      let v ← readOperand P s.vars value
      P.writeField owner field o v
      return .next { s with pc := s.pc + 1 }
    | none => Action.stuck
  | .call call => do
    let _ ← irCall P s.vars call
    return .next { s with pc := s.pc + 1 }
  | .label _ => return .next { s with pc := s.pc + 1 }
  | .goto label =>
    match m.labels.place? label with
    | some place => return .next { s with pc := place }
    | none => Action.stuck
  | .condGoto condition label => do
    let v ← irValue P s.vars condition
    if ← P.test v then
      match m.labels.place? label with
      | some place => return .next { s with pc := place }
      | none => Action.stuck
    else return .next { s with pc := s.pc + 1 }
  | .ret none => return .returned none
  | .ret (some o) => do
    let v ← readOperand P s.vars o
    if m.returnTy.isVoid then return .returned none
    else do
      let v ← P.expect m.returnTy v
      return .returned (some v)

/-! ## Operations end -/

section Ends

open MiniJava.Semantics.Action (Ends)

variable {P : Platform} {vars : Vars}

theorem readOperand_ends (o : Ir.Operand) : Ends (readOperand P vars o) := by
  have hvar : ∀ key : Option Ir.VarKey, Ends (match key.bind vars with
      | some v => P.expect o.ty v
      | none => Action.stuck) := by
    intro key
    cases key.bind vars with
    | some v => exact P.expect_ends _ _
    | none => exact .stuck
  cases o with
  | literal value => exact .pure _
  | classRef name => exact .stuck
  | var | temp | receiver => exact hvar _

theorem readOperands_ends : ∀ operands : List Ir.Operand, Ends (readOperands P vars operands)
  | [] => .pure _
  | o :: rest =>
    (readOperand_ends o).bind fun _ => (readOperands_ends rest).bind fun _ => .pure _

theorem irBinary_ends (op : Ir.BinOp) (x y : Value) : Ends (irBinary P op x y) := by
  cases op with
  | add | sub | mul | lt => exact onInts_ends (fun _ _ => .pure _) x y
  | div => exact onInts_ends quotient_ends x y
  | and => exact (P.test_ends x).bind fun _ => (P.test_ends y).bind fun _ => .pure _

theorem irCall_ends (call : Ir.Call) : Ends (irCall P vars call) := by
  have hvirtual : Ends (match call.method with
      | some method => do
        let object ← readOperand P vars call.target
        let values ← readOperands P vars call.args
        P.invoke (.object object) method values
      | none => Action.stuck) := by
    cases call.method with
    | some method =>
      exact (readOperand_ends _).bind fun _ => (readOperands_ends _).bind fun _ =>
        P.invoke_ends _ _ _
    | none => exact .stuck
  rw [irCall]
  cases call.kind with
  | new =>
    dsimp only
    split
    · exact alloc_ends _
    · exact (readOperand_ends _).bind fun _ => P.newArray_ends _ _
    · exact .stuck
  | arrayLength => exact (readOperand_ends _).bind fun _ => arrayLength_ends _
  | invokeVirtual | invokeSpecial => exact hvirtual
  | invokeStatic =>
    dsimp only
    split
    · exact (readOperands_ends _).bind fun _ => P.invoke_ends _ _ _
    · exact .stuck

theorem irValue_ends (value : Ir.Value) : Ends (irValue P vars value) := by
  cases value with
  | operand o => exact readOperand_ends o
  | binary op left right =>
    exact (readOperand_ends left).bind fun _ => (readOperand_ends right).bind fun _ =>
      irBinary_ends _ _ _
  | not o =>
    exact (readOperand_ends o).bind fun _ => (P.test_ends _).bind fun _ => .pure _
  | getField object field ty =>
    rw [irValue]
    cases fieldOwner P object with
    | some owner =>
      exact (readOperand_ends object).bind fun _ => (getField_ends _ _ _ _).bind fun _ =>
        P.expect_ends _ _
    | none => exact .stuck
  | arrayLoad array index ty =>
    exact (readOperand_ends array).bind fun _ => (readOperand_ends index).bind fun _ =>
      (loadElement_ends _ _).bind fun _ => P.expect_ends _ _
  | call call => exact (irCall_ends call).bind fun _ => P.expect_ends _ _

theorem irInstr_ends (m : Ir.Method) (s : IrState) (i : Ir.Instr) : Ends (irInstr P m s i) := by
  have hjump : ∀ (place : Option Nat), Ends (match place with
      | some place => pure (Flow.next { s with pc := place })
      | none => Action.stuck) := by
    intro place
    cases place with
    | some place => exact .pure _
    | none => exact .stuck
  cases i with
  | assign place value =>
    cases place with
    | var dest =>
      rw [irInstr]
      cases destination? dest with
      | some key => exact (irValue_ends value).bind fun _ => (P.expect_ends _ _).bind fun _ => .pure _
      | none => exact .stuck
    | element array index ty =>
      exact (readOperand_ends array).bind fun _ => (readOperand_ends index).bind fun _ =>
        (irValue_ends value).bind fun _ => (P.expect_ends _ _).bind fun _ =>
          (P.storeElement_ends _ _ _).bind fun _ => .pure _
  | putField object field value =>
    rw [irInstr]
    cases fieldOwner P object with
    | some owner =>
      exact (readOperand_ends object).bind fun _ => (readOperand_ends value).bind fun _ =>
        (P.writeField_ends _ _ _ _).bind fun _ => .pure _
    | none => exact .stuck
  | call call => exact (irCall_ends call).bind fun _ => .pure _
  | label l => exact .pure _
  | goto l => exact hjump _
  | condGoto condition l =>
    refine (irValue_ends condition).bind fun v => (P.test_ends v).bind fun b => ?_
    cases b with
    | true => exact hjump _
    | false => exact .pure _
  | ret value =>
    cases value with
    | none => exact .pure _
    | some o =>
      exact (readOperand_ends o).bind fun _ => .ite (.pure _) ((P.expect_ends _ _).bind fun _ => .pure _)

end Ends

/-! ## Methods -/

/-- The machine that runs a method. It is stuck behind the last instruction. -/
def irMachine (P : Platform) (m : Ir.Method) : Machine IrState := fun s =>
  match m.instructions[s.pc]? with
  | some i => irInstr P m s i
  | none => Action.stuck

theorem irMachine_ends (P : Platform) (m : Ir.Method) (s : IrState) : (irMachine P m s).Ends := by
  rw [irMachine]
  cases m.instructions[s.pc]? with
  | some i => exact irInstr_ends m s i
  | none => exact .stuck

/-- The variables at the start: the receiver and the parameters. -/
def irStart (m : Ir.Method) (self : Value) (args : List Value) : Vars
  | .receiver => if m.isStatic then none else some self
  | .named name => argument? (m.params.map (·.name)) args name
  | .temp _ => none

/-- The runs of a method on an object with some arguments. -/
def irRun (P : Platform) (m : Ir.Method) (self : Value) (args : List Value) (fuel : Nat) :
    Action (Option Value) :=
  (irMachine P m).run fuel { pc := 0, vars := irStart m self args }

end MiniJava.Semantics
