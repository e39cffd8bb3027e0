import MiniJava.Json.Decode
import MiniJava.Program

/-!
# Trees as JSON

Every tree has a JSON form, in which all parts are written, and a reader that lets parts be left out
where the tree has a default for them. In a document the parts of a statement or expression may also
be listed in an array, without their names; `listed` says whether they may.
-/

namespace MiniJava

open Json (required optional noPayload)

/-! ## Types -/

/-- The JSON form of a type. -/
def Ty.toJson : Ty → Json
  | .int => .str "int"
  | .boolean => .str "boolean"
  | .string => .str "string"
  | .void => .str "void"
  | .object name => .obj [("class", .str name)]
  | .array element => .obj [("array", element.toJson)]

/-- Reads a type. -/
def Ty.ofJson? (j : Json) : Option Ty :=
  match j.variant? with
  | some ("int", p) => noPayload p .int
  | some ("boolean", p) => noPayload p .boolean
  | some ("string", p) => noPayload p .string
  | some ("void", p) => noPayload p .void
  | some ("class", some p) => p.1.str?.map .object
  | some ("array", some p) => (Ty.ofJson? p.1).map .array
  | _ => none
termination_by sizeOf j
decreasing_by exact p.2

/-! ## Expressions -/

/-- The names of the operators. -/
def BinOp.tags : List (String × BinOp) :=
  [("add", .add), ("sub", .sub), ("mul", .mul), ("div", .div), ("lt", .lt), ("and", .and),
    ("or", .or)]

/-- The JSON form of an operator. -/
def BinOp.toJson : BinOp → Json
  | .add => .str "add"
  | .sub => .str "sub"
  | .mul => .str "mul"
  | .div => .str "div"
  | .lt => .str "lt"
  | .and => .str "and"
  | .or => .str "or"

/-- Reads an operator. -/
def BinOp.ofJson? (j : Json) : Option BinOp :=
  j.tag? BinOp.tags

mutual

/-- The JSON form of an expression. -/
def Expr.toJson : Expr → Json
  | .literal (.int value) => .obj [("int_literal", .int value.toInt)]
  | .literal (.bool value) => .obj [("bool_literal", .bool value)]
  | .self => .str "this"
  | .var name => .obj [("var", .str name)]
  | .paren inner => .obj [("paren", inner.toJson)]
  | .binary op left right =>
    .obj [("binary", .obj [("op", op.toJson), ("left", left.toJson), ("right", right.toJson)])]
  | .not operand => .obj [("not", operand.toJson)]
  | .newArray element size =>
    .obj [("new_array", .obj [("element", element.toJson), ("size", size.toJson)])]
  | .arrayLiteral elements => .obj [("array_literal", .arr (Expr.listToJson elements))]
  | .index array place =>
    .obj [("index", .obj [("array", array.toJson), ("index", place.toJson)])]
  | .length array => .obj [("length", array.toJson)]
  | .newObject name => .obj [("new_object", .str name)]
  | .call target method args =>
    .obj [("method_call", .obj [("target", target.toJson), ("method", .str method),
      ("args", .arr (Expr.listToJson args))])]

/-- The JSON forms of expressions. -/
def Expr.listToJson : List Expr → List Json
  | [] => []
  | e :: rest => e.toJson :: Expr.listToJson rest

end

/-- Reads an expression. -/
def Expr.ofJson? (listed : Bool) (j : Json) : Option Expr :=
  match j.variant? with
  | some ("int_literal", some p) => p.1.int32?.map fun value => .literal (.int value)
  | some ("bool_literal", some p) => p.1.bool?.map fun value => .literal (.bool value)
  | some ("this", p) => noPayload p .self
  | some ("var", some p) => p.1.str?.map .var
  | some ("paren", some p) => (Expr.ofJson? listed p.1).map .paren
  | some ("binary", some p) => do
    let [op, left, right] ← p.1.variantRecord? listed ["op", "left", "right"] | none
    return .binary (← required op fun v => BinOp.ofJson? v.1)
      (← required left fun v => Expr.ofJson? listed v.1)
      (← required right fun v => Expr.ofJson? listed v.1)
  | some ("not", some p) => (Expr.ofJson? listed p.1).map .not
  | some ("new_array", some p) => do
    let [element, size] ← p.1.variantRecord? listed ["element", "size"] | none
    return .newArray (← required element fun v => Ty.ofJson? v.1)
      (← required size fun v => Expr.ofJson? listed v.1)
  | some ("array_literal", some p) => do
    return .arrayLiteral (← (← p.1.items?).mapM fun v => Expr.ofJson? listed v.1)
  | some ("index", some p) => do
    let [array, place] ← p.1.variantRecord? listed ["array", "index"] | none
    return .index (← required array fun v => Expr.ofJson? listed v.1)
      (← required place fun v => Expr.ofJson? listed v.1)
  | some ("length", some p) => (Expr.ofJson? listed p.1).map .length
  | some ("new_object", some p) => p.1.str?.map .newObject
  | some ("method_call", some p) => do
    let [target, method, args] ← p.1.variantRecord? listed ["target", "method", "args"] | none
    return .call (← required target fun v => Expr.ofJson? listed v.1)
      (← required method fun v => v.1.str?)
      (← required args fun v => do (← v.1.items?).mapM fun w => Expr.ofJson? listed w.1)
  | _ => none
termination_by sizeOf j
decreasing_by
  all_goals
    first
      | exact p.2
      | exact Nat.lt_trans v.2 p.2
      | exact Nat.lt_trans w.2 (Nat.lt_trans v.2 p.2)

/-! ## Statements -/

/-- The JSON form of something that may be missing. -/
def Json.ofOption {α : Type} (encode : α → Json) : Option α → Json
  | none => .null
  | some value => encode value

mutual

/-- The JSON form of a statement. -/
def Stmt.toJson : Stmt → Json
  | .assign target value =>
    .obj [("assign", .obj [("target", .str target), ("value", value.toJson)])]
  | .arrayAssign target index value =>
    .obj [("array_assign", .obj [("target", .str target), ("index", index.toJson),
      ("value", value.toJson)])]
  | .ite condition thenBranch elseBranch =>
    .obj [("if", .obj [("condition", condition.toJson), ("then_branch", thenBranch.toJson),
      ("else_branch", elseBranch.toJson)])]
  | .loop condition body =>
    .obj [("while", .obj [("condition", condition.toJson), ("body", body.toJson)])]
  | .block body => .obj [("block", .arr (Stmt.listToJson body))]
  | .ret value => .obj [("return", Json.ofOption Expr.toJson value)]
  | .expr value => .obj [("expr", value.toJson)]

/-- The JSON forms of statements. -/
def Stmt.listToJson : List Stmt → List Json
  | [] => []
  | s :: rest => s.toJson :: Stmt.listToJson rest

end

/-- Reads a statement. -/
def Stmt.ofJson? (listed : Bool) (j : Json) : Option Stmt :=
  match j.variant? with
  | some ("assign", some p) => do
    let [target, value] ← p.1.variantRecord? listed ["target", "value"] | none
    return .assign (← required target fun v => v.1.str?)
      (← required value fun v => Expr.ofJson? listed v.1)
  | some ("array_assign", some p) => do
    let [target, index, value] ← p.1.variantRecord? listed ["target", "index", "value"] | none
    return .arrayAssign (← required target fun v => v.1.str?)
      (← required index fun v => Expr.ofJson? listed v.1)
      (← required value fun v => Expr.ofJson? listed v.1)
  | some ("if", some p) => do
    let [condition, thenBranch, elseBranch] ←
      p.1.variantRecord? listed ["condition", "then_branch", "else_branch"] | none
    return .ite (← required condition fun v => Expr.ofJson? listed v.1)
      (← required thenBranch fun v => Stmt.ofJson? listed v.1)
      (← required elseBranch fun v => Stmt.ofJson? listed v.1)
  | some ("while", some p) => do
    let [condition, body] ← p.1.variantRecord? listed ["condition", "body"] | none
    return .loop (← required condition fun v => Expr.ofJson? listed v.1)
      (← required body fun v => Stmt.ofJson? listed v.1)
  | some ("block", some p) => do
    return .block (← (← p.1.items?).mapM fun v => Stmt.ofJson? listed v.1)
  | some ("return", some p) => (p.1.nullable? (Expr.ofJson? listed)).map .ret
  | some ("expr", some p) => (Expr.ofJson? listed p.1).map .expr
  | _ => none
termination_by sizeOf j
decreasing_by
  all_goals
    first
      | exact p.2
      | exact Nat.lt_trans v.2 p.2

/-! ## Programs -/

/-- The names of the accesses. -/
def Access.tags : List (String × Access) :=
  [("public", .everyone), ("private", .ownClass), ("protected", .subclasses),
    ("default", .package)]

/-- The JSON form of an access. -/
def Access.toJson : Access → Json
  | .everyone => .str "public"
  | .ownClass => .str "private"
  | .subclasses => .str "protected"
  | .package => .str "default"

/-- Reads an access. -/
def Access.ofJson? (j : Json) : Option Access :=
  j.tag? Access.tags

/-- The JSON form of a declared local. -/
def Variable.toJson (v : Variable) : Json :=
  .obj [("name", .str v.name), ("ty", v.ty.toJson)]

/-- Reads a declared local. -/
def Variable.ofJson? (j : Json) : Option Variable := do
  let [name, ty] ← j.record? ["name", "ty"] | none
  return { name := ← required name fun v => v.1.str?, ty := ← required ty fun v => Ty.ofJson? v.1 }

/-- The JSON form of a parameter. -/
def Param.toJson (p : Param) : Json :=
  .obj [("name", .str p.name), ("ty", p.ty.toJson), ("is_varargs", .bool p.isVarargs)]

/-- Reads a parameter. -/
def Param.ofJson? (j : Json) : Option Param := do
  let [name, ty, isVarargs] ← j.record? ["name", "ty", "is_varargs"] | none
  return {
    name := ← required name fun v => v.1.str?
    ty := ← required ty fun v => Ty.ofJson? v.1
    isVarargs := ← optional isVarargs false fun v => v.1.bool? }

/-- The JSON form of a field. -/
def Field.toJson (f : Field) : Json :=
  .obj [("name", .str f.name), ("ty", f.ty.toJson), ("access", f.access.toJson),
    ("is_static", .bool f.isStatic), ("is_final", .bool f.isFinal),
    ("is_varargs", .bool f.isVarargs), ("initializer", Json.ofOption Expr.toJson f.initializer)]

/-- Reads a field. -/
def Field.ofJson? (listed : Bool) (j : Json) : Option Field := do
  let [name, ty, access, isStatic, isFinal, isVarargs, initializer] ← j.record?
    ["name", "ty", "access", "is_static", "is_final", "is_varargs", "initializer"] | none
  return {
    name := ← required name fun v => v.1.str?
    ty := ← required ty fun v => Ty.ofJson? v.1
    access := ← optional access .everyone fun v => Access.ofJson? v.1
    isStatic := ← optional isStatic false fun v => v.1.bool?
    isFinal := ← optional isFinal false fun v => v.1.bool?
    isVarargs := ← optional isVarargs false fun v => v.1.bool?
    initializer := ← optional initializer none fun v => v.1.nullable? (Expr.ofJson? listed) }

/-- The JSON form of a method. -/
def Method.toJson (m : Method) : Json :=
  .obj [("name", .str m.name), ("access", m.access.toJson), ("is_static", .bool m.isStatic),
    ("is_final", .bool m.isFinal), ("return_type", m.returnTy.toJson),
    ("returns_varargs", .bool m.returnsVarargs), ("params", .arr (m.params.map (·.toJson))),
    ("locals", .arr (m.locals.map (·.toJson))), ("body", .arr (Stmt.listToJson m.body))]

/-- Reads a method. -/
def Method.ofJson? (listed : Bool) (j : Json) : Option Method := do
  let [name, access, isStatic, isFinal, returnTy, returnsVarargs, params, locals, body] ←
    j.record? ["name", "access", "is_static", "is_final", "return_type", "returns_varargs",
      "params", "locals", "body"] | none
  return {
    name := ← required name fun v => v.1.str?
    access := ← optional access .everyone fun v => Access.ofJson? v.1
    isStatic := ← optional isStatic false fun v => v.1.bool?
    isFinal := ← optional isFinal false fun v => v.1.bool?
    returnTy := ← required returnTy fun v => Ty.ofJson? v.1
    returnsVarargs := ← optional returnsVarargs false fun v => v.1.bool?
    params := ← optional params [] fun v => v.1.list? Param.ofJson?
    locals := ← optional locals [] fun v => v.1.list? Variable.ofJson?
    body := ← optional body [] fun v => v.1.list? (Stmt.ofJson? listed) }

/-- The JSON form of a class. -/
def Class.toJson (c : Class) : Json :=
  .obj [("name", .str c.name), ("superclass", Json.ofOption .str c.superclass),
    ("fields", .arr (c.fields.map (·.toJson))), ("methods", .arr (c.methods.map (·.toJson)))]

/-- Reads a class. -/
def Class.ofJson? (listed : Bool) (j : Json) : Option Class := do
  let [name, superclass, fields, methods] ←
    j.record? ["name", "superclass", "fields", "methods"] | none
  return {
    name := ← required name fun v => v.1.str?
    superclass := ← optional superclass none fun v => v.1.nullable? Json.str?
    fields := ← optional fields [] fun v => v.1.list? (Field.ofJson? listed)
    methods := ← optional methods [] fun v => v.1.list? (Method.ofJson? listed) }

/-- The JSON form of an import. -/
def Import.toJson (i : Import) : Json :=
  .obj [("path", .arr (i.path.map .str))]

/-- Reads an import. -/
def Import.ofJson? (j : Json) : Option Import := do
  let [path] ← j.record? ["path"] | none
  return { path := ← required path fun v => v.1.list? Json.str? }

/-- The JSON form of a program. -/
def Program.toJson (p : Program) : Json :=
  .obj [("imports", .arr (p.imports.map (·.toJson))), ("class", p.mainClass.toJson)]

/-- Reads a program. -/
def Program.ofJson? (listed : Bool) (j : Json) : Option Program := do
  let [imports, mainClass] ← j.record? ["imports", "class"] | none
  return {
    imports := ← optional imports [] fun v => v.1.list? Import.ofJson?
    mainClass := ← required mainClass fun v => Class.ofJson? listed v.1 }

end MiniJava
