import MiniJava.Lowering.Basic

/-!
# Lowering of expressions

Every kind of expression has a small function that puts the code of its parts together; the
recursion over the tree comes last. The type that the place of an expression wants is passed down,
for calls to methods whose signature is unknown and for the elements of array literals.
-/

namespace MiniJava.Lowering

open Ir (Instr Operand Value)

/-- The name by which an error speaks of an expression. -/
def describe : Expr → String
  | .var name => name
  | .self => "this"
  | .paren inner => describe inner
  | _ => "<expression>"

/-- The element type of an operand that is indexed or measured. -/
def elementTy (name : String) (array : Operand) : Except CompileError Ty :=
  match array.ty with
  | .array element => .ok element
  | ty => .error (.notAnArray name ty)

/-- The read of a variable or field. -/
def lowerVar (sc : Scope) (name : String) : Lower Lowered := do
  match ← sc.resolve name with
  | .variable ty => return .value (.var name ty)
  | .field ty =>
    let object ← sc.receiver (.fieldRead name)
    compute [] ty (.getField object name ty)
  | .className name => throw (.unsupported (.classAsValue name))

/-- An operator on the values of both operands. -/
def lowerBinary (op : Ir.BinOp) (left right : Lower Lowered) : Lower Lowered := do
  let l ← left
  let r ← right
  let x ← l.require .left
  let y ← r.require .right
  compute (l.code ++ r.code) op.resultTy (.binary op x y)

/-- The constant that the left operand of a logical operator is, parentheses stripped. -/
def decided? (left : Expr) : Option Bool :=
  match left.stripParens with
  | .literal (.bool value) => some value
  | _ => none

/-- A conjunction. The right operand is computed only if the left one is true. -/
def lowerAnd (decided : Option Bool) (left right : Lower Lowered) : Lower Lowered := do
  match decided with
  | some true => right
  | some false => return .value (.bool false)
  | none =>
    let l ← left
    let test ← l.require .leftOfLogical
    let n ← freshLabel
    let result ← freshTemp .boolean
    let r ← right
    let value ← r.require .rightOfAnd
    return {
      operand := some result
      code := l.code ++ [.condGoto (.operand test) (.numbered .andRight n),
          .assignVar result (.operand (.bool false)), .goto (.numbered .andEnd n),
          .label (.numbered .andRight n)]
        ++ r.code ++ [.assignVar result (.operand value), .label (.numbered .andEnd n)] }

/-- A disjunction. The right operand is computed only if the left one is false. -/
def lowerOr (decided : Option Bool) (left right : Lower Lowered) : Lower Lowered := do
  match decided with
  | some false => right
  | some true => return .value (.bool true)
  | none =>
    let l ← left
    let test ← l.require .leftOfLogical
    let n ← freshLabel
    let result ← freshTemp .boolean
    let r ← right
    let value ← r.require .rightOfOr
    return {
      operand := some result
      code := l.code ++ [.condGoto (.operand test) (.numbered .orTrue n)]
        ++ r.code ++ [.assignVar result (.operand value), .goto (.numbered .orEnd n),
          .label (.numbered .orTrue n), .assignVar result (.operand (.bool true)),
          .label (.numbered .orEnd n)] }

/-- A negation. -/
def lowerNot (operand : Lower Lowered) : Lower Lowered := do
  let o ← operand
  let value ← o.require .negated
  compute o.code .boolean (.not value)

/-- The allocation of an array. -/
def lowerNewArray (element : Ty) (size : Lower Lowered) : Lower Lowered := do
  let s ← size
  let length ← s.require .arraySize
  compute s.code (.array element) (.call (.newArray element length))

/-- The code that stores items into an array one after another, from an index on. -/
def storeItems (array : Operand) (element : Ty) (index : Nat) :
    List Lowered → Except CompileError (List Instr)
  | [] => .ok []
  | item :: rest => do
    let value ← item.require .arrayElement
    let stores ← storeItems array element (index + 1) rest
    return item.code ++ Instr.assign (.element array (.int (.ofNat index)) element)
      (.operand value) :: stores

/-- An array of given items: it is allocated before the code of the items runs. There are no more
items than an index can count. -/
def packArray (element : Ty) (items : List Lowered) : Lower Lowered := do
  if 2147483648 ≤ items.length then throw (.unsupported .longArrayLiteral)
  let array ← freshTemp (.array element)
  let stores ← storeItems array element 0 items
  let allocation := Ir.Call.newArray element (.int (.ofNat items.length))
  return { code := .assignVar array (.call allocation) :: stores, operand := some array }

/-- The element type of an array literal: the type of its first item, or what its place wants. -/
def literalElementTy (hint : Option Ty) (items : List Lowered) : Ty :=
  match items.head?.bind (·.operand) with
  | some first => first.ty
  | none => hint.getD .int

/-- The read of an element. The array is checked before the index is lowered. -/
def lowerIndex (name : String) (array index : Lower Lowered) : Lower Lowered := do
  let a ← array
  let object ← a.require .indexedArray
  let element ← elementTy name object
  let i ← index
  let place ← i.require .arrayIndex
  compute (a.code ++ i.code) element (.arrayLoad object place element)

/-- The length of an array. -/
def lowerLength (name : String) (array : Lower Lowered) : Lower Lowered := do
  let a ← array
  let object ← a.require .measuredArray
  let _ ← elementTy name object
  compute a.code .int (.call (.arrayLength object))

/-- The creation of an object: it is allocated, then its constructor is called. -/
def lowerNewObject (className : String) : Lower Lowered := do
  let dest ← freshTemp (.object className)
  return {
    operand := some dest
    code := [.assignVar dest (.call (.newObject className)), .call (.constructor dest)] }

/-! ## Calls -/

/-- The target of a call with the code that computes it. The name of a class is a target by
itself. -/
def lowerTarget (sc : Scope) (target : Expr) (other : Lower Lowered) :
    Lower (List Instr × Operand) := do
  match target with
  | .var name =>
    match ← sc.resolve name with
    | .className name => return ([], .classRef name)
    | _ =>
      let l ← lowerVar sc name
      return (l.code, ← l.require .callTarget)
  | _ =>
    let l ← other
    return (l.code, ← l.require .callTarget)

/-- The parameters that the arguments still to come are for. -/
inductive Formals where
  /-- One argument for each type; further arguments are for no parameter. -/
  | plain (tys : List Ty)
  /-- One argument for each type, all further ones for an array of the last type. -/
  | varargs (tys : List Ty) (array : Ty)

namespace Formals

/-- The parameters of a call, if its signature is known. -/
def ofSignature? : Option Signature → Formals
  | none => plain []
  | some s =>
    let tys := s.params.map (·.ty)
    if s.isVarargs then varargs tys.dropLast (tys.getLastD (.array .int)) else plain tys

/-- Whether the next argument is one of those that are packed. -/
def isPacked : Formals → Bool
  | varargs [] _ => true
  | _ => false

/-- The element type of the packed arguments. -/
def packedElement : Formals → Ty
  | plain _ => .int
  | varargs _ array => array.element?.getD .int

/-- The type that the next argument should have. -/
def hint? : Formals → Option Ty
  | plain tys => tys.head?
  | varargs [] array => some ((varargs [] array).packedElement)
  | varargs (ty :: _) _ => some ty

/-- The parameters after the next argument. -/
def next : Formals → Formals
  | plain tys => plain tys.tail
  | varargs tys array => varargs tys.tail array

end Formals

/-- The lowered arguments of a call: the code and operands of those with a parameter of their own,
and those that are left to be packed. -/
structure Arguments where
  code : List Instr := []
  operands : List Operand := []
  packed : List Lowered := []

/-- Puts an argument in front of others. -/
def Arguments.cons (formals : Formals) (arg : Lower Lowered) (rest : Lower Arguments) :
    Lower Arguments := do
  let a ← arg
  if formals.isPacked then
    let r ← rest
    return { r with packed := a :: r.packed }
  else
    let operand ← a.require .callArgument
    let r ← rest
    return { r with code := a.code ++ r.code, operands := operand :: r.operands }

/-- The array for the packed arguments. A single argument that is such an array stands for
itself. -/
def packArguments (array element : Ty) (items : List Lowered) : Lower Lowered := do
  match items with
  | [single] =>
    if single.operand.map (·.ty) = some array then return single else packArray element items
  | _ => packArray element items

/-- The code and the operands of all arguments. -/
def Arguments.close (formals : Formals) (args : Arguments) : Lower (List Instr × List Operand) := do
  match formals with
  | .plain _ => return (args.code, args.operands)
  | .varargs _ array =>
    let packed ← packArguments array formals.packedElement args.packed
    let operand ← packed.require .varargsArray
    return (args.code ++ packed.code, args.operands ++ [operand])

/-- What a call gives: what its signature says, or else nothing if the result is dropped, or else
what its place wants. -/
def callReturnTy (signature : Option Signature) (expected : Option Ty) (discard : Bool) : Ty :=
  match signature with
  | some s => s.returnTy
  | none => if discard then .void else expected.getD .int

/-- A call. A static one has a class as its target. With `discard` the call is a statement and gets
no temporary for its result. -/
def lowerCall (sc : Scope) (target : Lower (List Instr × Operand)) (method : String)
    (args : Formals → Lower Arguments) (expected : Option Ty) (discard : Bool) :
    Lower Lowered := do
  let (targetCode, object) ← target
  let signature := sc.ownSignature? object method
  let formals := Formals.ofSignature? signature
  let arguments ← args formals
  let (argCode, operands) ← arguments.close formals
  let kind : Ir.CallKind := match object with
    | .classRef _ => .invokeStatic
    | _ => .invokeVirtual
  let call : Ir.Call := {
    kind, target := object, method := some method, args := operands
    returnTy := callReturnTy signature expected discard }
  let code := targetCode ++ argCode
  if discard || call.returnTy.isVoid then
    return { code := code ++ [.call call], operand := none }
  else
    compute code call.returnTy (.call call)

/-! ## The tree -/

mutual

/-- Lowers an expression; `expected` is the type that its place wants. -/
def lowerExpr (sc : Scope) (expected : Option Ty) : Expr → Lower Lowered
  | .literal value => return .value (.literal value)
  | .self => return .value (← sc.receiver .self)
  | .var name => lowerVar sc name
  | .paren inner => lowerExpr sc expected inner
  | .binary op left right =>
    match op with
    | .add => lowerBinary .add (lowerExpr sc (some .int) left) (lowerExpr sc (some .int) right)
    | .sub => lowerBinary .sub (lowerExpr sc (some .int) left) (lowerExpr sc (some .int) right)
    | .mul => lowerBinary .mul (lowerExpr sc (some .int) left) (lowerExpr sc (some .int) right)
    | .div => lowerBinary .div (lowerExpr sc (some .int) left) (lowerExpr sc (some .int) right)
    | .lt => lowerBinary .lt (lowerExpr sc (some .int) left) (lowerExpr sc (some .int) right)
    | .and => lowerAnd (decided? left) (lowerExpr sc (some .boolean) left)
        (lowerExpr sc (some .boolean) right)
    | .or => lowerOr (decided? left) (lowerExpr sc (some .boolean) left)
        (lowerExpr sc (some .boolean) right)
  | .not operand => lowerNot (lowerExpr sc (some .boolean) operand)
  | .newArray element size => lowerNewArray element (lowerExpr sc (some .int) size)
  | .arrayLiteral elements => do
    let hint := expected.bind (·.element?)
    let items ← lowerItems sc hint elements
    packArray (literalElementTy hint items) items
  | .index array index =>
    lowerIndex (describe array) (lowerExpr sc none array) (lowerExpr sc (some .int) index)
  | .length array => lowerLength (describe array) (lowerExpr sc none array)
  | .newObject className => lowerNewObject className
  | .call target method args =>
    lowerCall sc (lowerTarget sc target (lowerExpr sc none target)) method
      (fun formals => lowerArgs sc formals args) expected false

/-- Lowers the items of an array literal. -/
def lowerItems (sc : Scope) (hint : Option Ty) : List Expr → Lower (List Lowered)
  | [] => return []
  | e :: rest => do
    let item ← lowerExpr sc hint e
    let items ← lowerItems sc hint rest
    return item :: items

/-- Lowers the arguments of a call. -/
def lowerArgs (sc : Scope) (formals : Formals) : List Expr → Lower Arguments
  | [] => return {}
  | e :: rest =>
    Arguments.cons formals (lowerExpr sc formals.hint? e) (lowerArgs sc formals.next rest)

end

/-- Lowers an expression whose value is dropped. Only of a call, parentheses stripped, does this
change the code. -/
def lowerEffect (sc : Scope) : Expr → Lower Lowered
  | .paren inner => lowerEffect sc inner
  | .call target method args =>
    lowerCall sc (lowerTarget sc target (lowerExpr sc none target)) method
      (fun formals => lowerArgs sc formals args) none true
  | e => lowerExpr sc none e

/-- Lowers the condition of a branch: code and the value to test. A comparison, parentheses
stripped, is tested without a temporary for its result. -/
def lowerCondition (sc : Scope) : Expr → Lower (List Instr × Value)
  | .paren inner => lowerCondition sc inner
  | .binary .lt left right => do
    let l ← lowerExpr sc (some .int) left
    let r ← lowerExpr sc (some .int) right
    let x ← l.require .leftOfLess
    let y ← r.require .rightOfLess
    return (l.code ++ r.code, .binary .lt x y)
  | e => do
    let l ← lowerExpr sc (some .boolean) e
    let test ← l.require .condition
    return (l.code, .operand test)

end MiniJava.Lowering
