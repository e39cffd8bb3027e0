import MiniJava.Ir.Module

/-!
# The listing of the intermediate code

The text of instructions, methods, classes and modules for a reader. Instructions stand one to a
line, a label four blanks to the left of the rest.
-/

namespace MiniJava.Ir

/-- A call: its kind, and in parentheses the target, the quoted method and the arguments. -/
def Call.listing (c : Call) : String :=
  let method := c.method.toList.map fun m => "\"" ++ m ++ "\""
  let parts := c.target.listing :: method ++ c.args.map (·.listing)
  c.kind.mnemonic ++ "(" ++ ", ".intercalate parts ++ ")." ++ c.returnTy.listing

/-- An element of an array. -/
def elementListing (array index : Operand) (ty : Ty) : String :=
  array.listing ++ "[" ++ index.listing ++ "]." ++ ty.listing

/-- The right side of an assignment. -/
def Value.listing : Value → String
  | operand o => o.listing
  | binary op left right =>
    left.listing ++ " " ++ op.symbol ++ "." ++ op.resultTy.listing ++ " " ++ right.listing
  | not o => "!.bool " ++ o.listing
  | getField object field ty =>
    "getfield(" ++ object.listing ++ ", " ++ field ++ "." ++ ty.listing ++ ")." ++ ty.listing
  | arrayLoad array index ty => elementListing array index ty
  | call c => c.listing

/-- The left side of an assignment. -/
def Place.listing : Place → String
  | var o => o.listing
  | element array index ty => elementListing array index ty

/-- An instruction. -/
def Instr.listing : Instr → String
  | assign dest value =>
    dest.listing ++ " :=." ++ dest.ty.listing ++ " " ++ value.listing ++ ";"
  | putField object field value =>
    "putfield(" ++ object.listing ++ ", " ++ field ++ "." ++ value.ty.listing ++ ", "
      ++ value.listing ++ ").V;"
  | call c => c.listing ++ ";"
  | label l => l.text ++ ":"
  | goto l => "goto " ++ l.text ++ ";"
  | condGoto condition l => "if (" ++ condition.listing ++ ") goto " ++ l.text ++ ";"
  | ret (some o) => "ret." ++ o.ty.listing ++ " " ++ o.listing ++ ";"
  | ret none => "ret.V;"

/-- The line of an instruction in a method. -/
def Instr.line (i : Instr) : String :=
  (if i.definedLabel?.isSome then "    " else "        ") ++ i.listing ++ "\n"

/-- A method with its header and its body in braces. -/
def Method.listing (m : Method) : String :=
  let params := ", ".intercalate (m.params.map fun p => p.name ++ "." ++ p.ty.listing)
  "    .method " ++ m.access.modifiers m.isStatic m.isFinal ++ m.name ++ "(" ++ params ++ ")."
    ++ m.returnTy.listing ++ " \x7b\n" ++ String.join (m.instructions.map (·.line)) ++ "    \x7d\n"

/-- A field on its line. -/
def Field.listing (f : Field) : String :=
  let initial := match f.initialValue with
    | some value => " = " ++ value.listing
    | none => ""
  "    .field " ++ f.access.modifiers f.isStatic f.isFinal ++ f.name ++ "." ++ f.ty.listing
    ++ initial ++ ";\n"

/-- A class: imports, header, fields, the constructor that every class has, methods. -/
def Class.listing (c : Class) : String :=
  let gapAfter (lines : List String) : String :=
    String.join lines ++ (if lines.isEmpty then "" else "\n")
  let superclass := match c.superclass with
    | some name => " extends " ++ name
    | none => ""
  gapAfter (c.imports.map fun i => "import " ++ i ++ ";\n")
    ++ c.name ++ superclass ++ " \x7b\n"
    ++ gapAfter (c.fields.map (·.listing))
    ++ "    .construct " ++ c.name ++ "().V \x7b\n"
    ++ "        invokespecial(this, \"<init>\").V;\n    \x7d\n"
    ++ String.join (c.methods.map fun m => "\n" ++ m.listing) ++ "\x7d\n"

/-- The classes of a module, a blank line between two of them. -/
def Module.listing (m : Module) : String :=
  "\n".intercalate (m.classes.map (·.listing))

end MiniJava.Ir
