import MiniJava.Error
import MiniJava.Program

/-!
# Methods of the intermediate code

A method owns a flat list of instructions, the map from labels to their places in it, and the table
of variables. The table gives every receiver, parameter, local and temporary a register of its own,
and counts the registers that were given. An entry is never changed or taken out, so a register once
given stays. Registers have no greatest number here: what is said of them holds of 32-bit ones for
methods with fewer variables than these can count.

Installing a body enters its labels and temporaries first and checks it afterwards. What was entered
stays when the body is refused.
-/

namespace MiniJava.Ir

/-- What has a register. -/
inductive VarKey where
  | receiver
  | named (name : String)
  | temp (id : Nat)
  deriving DecidableEq

/-- The key of the register that holds an operand. -/
def Operand.key? : Operand → Option VarKey
  | var name _ => some (.named name)
  | temp id _ => some (.temp id)
  | receiver _ => some .receiver
  | literal _ | classRef _ => none

/-- A register and the type of what is stored there. -/
structure Slot where
  register : Nat
  ty : Ty
  deriving DecidableEq

/-- The variables that have a register, and the register that the next one gets. -/
structure VarTable where
  slots : List (VarKey × Slot) := []
  next : Nat := 0
  deriving DecidableEq

namespace VarTable

/-- The register of a key, and what is stored there. -/
def slot? (t : VarTable) (key : VarKey) : Option Slot :=
  t.slots.lookup key

/-- The register of a key. -/
def register? (t : VarTable) (key : VarKey) : Option Nat :=
  (t.slot? key).map (·.register)

/-- Gives a new key the next register. A key that has one keeps it, and its type. -/
def bind (t : VarTable) (key : VarKey) (ty : Ty) : VarTable :=
  if (t.slot? key).isSome then t
  else { slots := t.slots ++ [(key, ⟨t.next, ty⟩)], next := t.next + 1 }

/-- The highest register in use. -/
def maxRegister? (t : VarTable) : Option Nat :=
  (t.slots.map (·.2.register)).max?

/-- The variables with their types, each beside its register. -/
def zipIdx (t : VarTable) : List ((VarKey × Ty) × Nat) :=
  t.slots.map fun entry => ((entry.1, entry.2.ty), entry.2.register)

/-- How many temporaries have a register. -/
def tempCount (t : VarTable) : Nat :=
  t.slots.countP fun entry => match entry.1 with
    | .temp _ => true
    | _ => false

end VarTable

/-- The labels of a body with their places; every label is there once. -/
abbrev LabelMap := List (Label × Nat)

namespace LabelMap

/-- The place of a label. -/
def place? (m : LabelMap) (label : Label) : Option Nat :=
  m.lookup label

/-- Sets the place of a label. -/
def insert (m : LabelMap) (label : Label) (place : Nat) : LabelMap :=
  (label, place) :: m.filter (·.1 != label)

end LabelMap

/-- A method. -/
structure Method where
  name : String
  access : Access := .everyone
  isStatic : Bool
  isFinal : Bool := false
  params : List Variable := []
  returnTy : Ty
  locals : List Variable := []
  vars : VarTable := {}
  instructions : List Instr := []
  labels : LabelMap := []

namespace Method

/-- A method without a body. An instance method has its receiver in register zero. -/
def new (name className : String) (isStatic : Bool) (returnTy : Ty) : Method :=
  { name, isStatic, returnTy
    vars := if isStatic then {} else VarTable.bind {} .receiver (.object className) }

/-- The register that holds an operand. -/
def register? (m : Method) (o : Operand) : Option Nat :=
  o.key?.bind m.vars.register?

/-- Adds a parameter. -/
def addParam (m : Method) (param : Variable) : Method :=
  { m with params := m.params ++ [param], vars := m.vars.bind (.named param.name) param.ty }

/-- Declares a local. One with the name of a parameter shares the register of it. -/
def addLocal (m : Method) (var : Variable) : Method :=
  { m with locals := m.locals ++ [var], vars := m.vars.bind (.named var.name) var.ty }

/-- The highest register in use. -/
def maxRegister? (m : Method) : Option Nat :=
  m.vars.maxRegister?

/-- How many registers a frame of the method needs. -/
def localsLimit (m : Method) : Nat :=
  m.maxRegister?.elim 0 (· + 1)

/-- How many temporaries have a register. -/
def tempCount (m : Method) : Nat :=
  m.vars.tempCount

/-- Enters the labels and temporaries of instructions that begin at a place. It stops at a label
that is there already, which then has the later place, and gives that label. -/
def enter (m : Method) (place : Nat) : List Instr → Method × Option Label
  | [] => (m, none)
  | i :: rest =>
    match i.definedLabel?, i.definedVar? with
    | some label, _ =>
      let entered := { m with labels := m.labels.insert label place }
      if (m.labels.place? label).isSome then (entered, some label)
      else entered.enter (place + 1) rest
    | none, some (id, ty) =>
      { m with vars := m.vars.bind (.temp id) ty }.enter (place + 1) rest
    | none, none => m.enter (place + 1) rest

/-- Checks a jump: its label is in the map. -/
def checkJump (m : Method) (i : Instr) : Except CompileError Unit :=
  match i.jumpTarget? with
  | some label =>
    if (m.labels.place? label).isSome then .ok () else .error (.undefinedLabel label m.name)
  | none => .ok ()

/-- Checks a read, given the temporaries assigned so far. -/
def checkOperand (m : Method) (defined : List Nat) : Operand → Except CompileError Unit
  | .temp id _ =>
    if id ∈ defined then .ok () else .error (.contract (.tempUndefined id m.name))
  | .var name _ =>
    if (m.vars.register? (.named name)).isSome then .ok ()
    else .error (.unresolvedName name m.name)
  | .literal _ | .receiver _ | .classRef _ => .ok ()

/-- Checks instructions one after another, given the temporaries assigned before them. -/
def checkFrom (m : Method) (defined : List Nat) : List Instr → Except CompileError Unit
  | [] => .ok ()
  | i :: rest => do
    m.checkJump i
    i.usedOperands.forM (m.checkOperand defined)
    m.checkFrom (i.definedTemp?.toList ++ defined) rest

/-- Checks the instructions of the method: every jump goes to a label of the method, every
temporary is assigned before it is read, every name has a register. -/
def validate (m : Method) : Except CompileError Unit :=
  m.checkFrom [] m.instructions

/-- Installs a body. The second part is the method as it is afterwards, also when the body is
refused: for a repeated label it keeps its old instructions, for the other faults it has the new
ones. -/
def setBody (m : Method) (body : List Instr) : Except CompileError Unit × Method :=
  match { m with labels := [] }.enter 0 body with
  | (entered, some label) => (.error (.duplicateLabel label m.name), entered)
  | (entered, none) =>
    let installed := { entered with instructions := body }
    (installed.validate, installed)

end Method

end MiniJava.Ir
