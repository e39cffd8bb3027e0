import MiniJava.Jvm.Emission

/-!
# Assembly

A class as emitted code has it, its text, and the way there from the intermediate code. Labels made
in emission are numbered on from method to method and from class to class.
-/

namespace MiniJava.Jvm

/-- A field of an emitted class. -/
structure FieldDirective where
  modifiers : String
  name : String
  descriptor : Descriptor
  initialValue : Option Int32

/-- A method of an emitted class. -/
structure MethodBlock where
  modifiers : String
  name : String
  descriptor : MethodDescriptor
  stackLimit : Nat
  localsLimit : Nat
  code : List Instr

/-- An emitted class. Its constructor only calls that of the superclass. -/
structure ClassFile where
  name : String
  superclass : String
  fields : List FieldDirective
  methods : List MethodBlock

/-- The line of a field. -/
def FieldDirective.text (d : FieldDirective) : String :=
  let initial := match d.initialValue with
    | some value => " = " ++ toString value.toInt
    | none => ""
  ".field " ++ d.modifiers ++ d.name ++ " " ++ d.descriptor.text ++ initial ++ "\n"

/-- The lines of a method. -/
def MethodBlock.text (b : MethodBlock) : String :=
  ".method " ++ b.modifiers ++ b.name ++ b.descriptor.text ++ "\n"
    ++ "    .limit stack " ++ toString b.stackLimit ++ "\n"
    ++ "    .limit locals " ++ toString b.localsLimit ++ "\n"
    ++ String.join (b.code.map (·.line)) ++ ".end method\n"

/-- The code of the constructor. -/
def constructorCode (superclass : String) : List Instr :=
  [.load .reference 0, .invoke .special superclass "<init>" ⟨[], .void⟩, .ret none]

/-- The text of a class. -/
def ClassFile.text (c : ClassFile) : String :=
  ".class public " ++ c.name ++ "\n.super " ++ c.superclass ++ "\n\n"
    ++ String.join (c.fields.map (·.text)) ++ (if c.fields.isEmpty then "" else "\n")
    ++ ".method public <init>()V\n" ++ String.join ((constructorCode c.superclass).map (·.line))
    ++ ".end method\n"
    ++ String.join (c.methods.map fun m => "\n" ++ m.text)

/-- A step that numbers labels. The numbers go on when it fails. -/
abbrev Numbered := ExceptT CompileError (StateM Nat)

/-- Emits a method. -/
def assembleMethod (options : Options) (owner : Ir.Class) (m : Ir.Method) : Numbered MethodBlock :=
  fun nextLabel =>
    let frame : Frame := { method := m, owner, negation := options.negation }
    let (result, s) := (emitInstrs frame m.instructions).run { nextLabel }
    let block : MethodBlock := {
      modifiers := m.access.modifiers m.isStatic m.isFinal
      name := m.name
      descriptor := frame.resolver.methodDescriptor (m.params.map (·.ty)) m.returnTy
      stackLimit := s.stack.limit options.stackPolicy
      localsLimit := m.localsLimit
      code := s.code.toList }
    (result.map fun _ => block, s.nextLabel)

/-- Emits methods in their order. -/
def assembleMethods (options : Options) (owner : Ir.Class) :
    List Ir.Method → Numbered (List MethodBlock)
  | [] => return []
  | m :: rest => do
    let block ← assembleMethod options owner m
    let blocks ← assembleMethods options owner rest
    return block :: blocks

/-- The line of a field of a class. -/
def assembleField (r : Resolver) (f : Ir.Field) : FieldDirective :=
  { modifiers := f.access.modifiers f.isStatic f.isFinal, name := f.name
    descriptor := r.descriptor f.ty, initialValue := f.initialValue.map (·.word) }

/-- Emits a class. -/
def assembleClass (options : Options) (c : Ir.Class) : Numbered ClassFile := do
  let methods ← assembleMethods options c c.methods
  let resolver := Resolver.ofClass c
  return { name := c.name, superclass := resolver.superclass c.superclass
           fields := c.fields.map (assembleField resolver), methods }

/-- Emits classes in their order. -/
def assembleClasses (options : Options) : List Ir.Class → Numbered (List ClassFile)
  | [] => return []
  | c :: rest => do
    let file ← assembleClass options c
    let files ← assembleClasses options rest
    return file :: files

/-- Emits every class of a module. -/
def assemble (options : Options) (m : Ir.Module) : Numbered (List ClassFile) :=
  assembleClasses options m.classes

end MiniJava.Jvm
