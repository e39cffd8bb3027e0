import MiniJava.Ir.Instr

/-!
# Errors

Every way in which a compilation can fail, each as its cause. The wording of a cause is in one
function per type, and nothing else looks at it.
-/

namespace MiniJava

/-- What needs an object to work on. -/
inductive ReceiverUse where
  | self
  | fieldRead (name : String)
  | fieldWrite (name : String)
  deriving DecidableEq

/-- The words for a use of the receiver. -/
def ReceiverUse.text : ReceiverUse → String
  | self => "this"
  | fieldRead name => "field access '" ++ name ++ "'"
  | fieldWrite name => "assignment to field '" ++ name ++ "'"

/-- A construct the language allows in a tree but for which no code is made. -/
inductive Construct where
  | receiverInStatic (use : ReceiverUse) (method : String)
  | classAsValue (name : String)
  | classAssigned (name : String)
  | initializer (field : String)
  | longArrayLiteral
  deriving DecidableEq

/-- The words for a construct. -/
def Construct.text : Construct → String
  | receiverInStatic use method => use.text ++ " in static method " ++ method
  | classAsValue name => "class name '" ++ name ++ "' used as a value"
  | classAssigned name => "assignment to class name '" ++ name ++ "'"
  | initializer field => "non-constant initializer for field " ++ field
  | longArrayLiteral => "array literal too long"

/-- The place of an expression whose value is needed. -/
inductive OperandRole where
  | left
  | right
  | leftOfLess
  | rightOfLess
  | leftOfLogical
  | rightOfAnd
  | rightOfOr
  | condition
  | negated
  | arraySize
  | arrayElement
  | indexedArray
  | arrayIndex
  | measuredArray
  | callTarget
  | callArgument
  | varargsArray
  | returned
  | assigned
  | assignedArray
  | assignedElement
  deriving DecidableEq

/-- The words for the place of an expression. -/
def OperandRole.text : OperandRole → String
  | left => "left operand"
  | right => "right operand"
  | leftOfLess => "left operand of <"
  | rightOfLess => "right operand of <"
  | leftOfLogical => "left operand of logical operator"
  | rightOfAnd => "right operand of &&"
  | rightOfOr => "right operand of ||"
  | condition => "condition"
  | negated => "operand of !"
  | arraySize => "array size"
  | arrayElement => "array element"
  | indexedArray => "indexed array"
  | arrayIndex => "array index"
  | measuredArray => "array of .length"
  | callTarget => "call target"
  | callArgument => "call argument"
  | varargsArray => "varargs array"
  | returned => "return value"
  | assigned => "assigned value"
  | assignedArray => "assigned array"
  | assignedElement => "assigned element"

/-- Where variable arguments are not allowed. -/
inductive VarargsPosition where
  | field
  | returnTy
  | nonFinalParam
  deriving DecidableEq

/-- The words for a wrong place of variable arguments. -/
def VarargsPosition.text : VarargsPosition → String
  | field => "field"
  | returnTy => "return type of"
  | nonFinalParam => "non-final parameter"

/-- A promise between two stages that is broken. -/
inductive Breach where
  | outsideMethod
  | tempUndefined (id : Nat) (method : String)
  | noRegister (operand : Ir.Operand) (method : String)
  | cannotStore (operand : Ir.Operand)
  | notAnObject (operand : Ir.Operand)
  | voidAssigned (dest : Ir.Operand)
  | bareAllocation
  | allocationOutsideAssignment
  | arrayWithoutSize
  | allocatedNonClass (ty : Ty)
  | noMethodName (kind : Ir.CallKind)
  deriving DecidableEq

/-- The words for a broken promise. -/
def Breach.text : Breach → String
  | outsideMethod => "lowering outside of a method"
  | tempUndefined id method =>
    "temporary t" ++ toString id ++ " used before definition in " ++ method
  | noRegister operand method =>
    "operand " ++ operand.listing ++ " has no register in method " ++ method
  | cannotStore operand => "cannot store into " ++ operand.listing
  | notAnObject operand =>
    operand.listing ++ " of type " ++ operand.ty.listing ++ " is not an object"
  | voidAssigned dest => "void value assigned to " ++ dest.listing
  | bareAllocation => "object allocation must be assigned to a variable"
  | allocationOutsideAssignment => "object allocation outside an assignment"
  | arrayWithoutSize => "array allocation without a size"
  | allocatedNonClass ty => "allocation of non-class type " ++ ty.listing
  | noMethodName kind => kind.mnemonic ++ " without a method name"

/-- Why a compilation failed. -/
inductive CompileError where
  | unsupported (construct : Construct)
  | unresolvedName (name method : String)
  | notAnArray (name : String) (ty : Ty)
  | undefinedLabel (label : Label) (method : String)
  | duplicateLabel (label : Label) (method : String)
  | missingOperand (role : OperandRole)
  | contract (breach : Breach)
  | duplicateMethod (name : String)
  | varargsNotAllowed (position : VarargsPosition) (name : String)
  | divisionByZero (method : String)
  | semanticErrors (count : Nat)
  deriving DecidableEq

/-- The message of an error. -/
def CompileError.message : CompileError → String
  | unsupported construct => "Unsupported construct: " ++ construct.text
  | unresolvedName name method => "Unresolved name '" ++ name ++ "' in method " ++ method
  | notAnArray name ty => "Indexing into non-array value '" ++ name ++ "' of type " ++ ty.listing
  | undefinedLabel label method =>
    "Undefined label '" ++ label.text ++ "' in method " ++ method
  | duplicateLabel label method =>
    "Label '" ++ label.text ++ "' defined more than once in method " ++ method
  | missingOperand role =>
    "Expression produced no value where one is required: " ++ role.text
  | contract breach => "Internal compiler error: " ++ breach.text
  | duplicateMethod name => "More than one method named '" ++ name ++ "'"
  | varargsNotAllowed position name =>
    "Varargs not allowed on " ++ position.text ++ " '" ++ name ++ "'"
  | divisionByZero method =>
    "Integer division by zero in constant expression (method " ++ method ++ ")"
  | semanticErrors count => "Semantic analysis reported " ++ toString count ++ " error(s)"

end MiniJava
