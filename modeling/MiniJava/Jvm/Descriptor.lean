import MiniJava.DottedName
import MiniJava.Ty

/-!
# Descriptors and class names of emitted code

Emitted code names classes with all segments of their package, slashes between them. The simple
names of a program are looked up in its imports; a name that no import makes visible stands for the
class itself. Descriptors are data here, and written as text at the end.
-/

namespace MiniJava.Jvm

/-- The superclass of a class without one. -/
def objectClass : String := "java/lang/Object"

/-- The class of texts. -/
def stringClass : String := "java/lang/String"

/-- The type of a field, a parameter or a result as emitted code knows it. -/
inductive Descriptor where
  | int
  | boolean
  | void
  | object (className : String)
  | array (element : Descriptor)
  deriving DecidableEq

namespace Descriptor

/-- A descriptor as emitted code writes it. -/
def text : Descriptor → String
  | int => "I"
  | boolean => "Z"
  | void => "V"
  | object className => "L" ++ className ++ ";"
  | array element => "[" ++ element.text

/-- What an array has elements of that is allocated with a descriptor. An allocation names a class or
an array where it names no scalar, so the letter of no value is taken for the name of a class. -/
def component : Descriptor → Descriptor
  | void => object void.text
  | d => d

/-- The operand of an array allocation: a class stands for itself, all else is a descriptor. -/
def componentText : Descriptor → String
  | object className => className
  | d => d.text

end Descriptor

/-- The types of the parameters and the result of a method. -/
structure MethodDescriptor where
  params : List Descriptor
  result : Descriptor
  deriving DecidableEq

/-- A method descriptor as emitted code writes it. -/
def MethodDescriptor.text (d : MethodDescriptor) : String :=
  "(" ++ String.join (d.params.map (·.text)) ++ ")" ++ d.result.text

/-- What class names are looked up in: the class itself and the dotted names of the imports. -/
structure Resolver where
  className : String
  imports : List String

namespace Resolver

/-- The first import that is a name or ends with it, slashed. -/
def imported? (r : Resolver) (name : String) : Option String :=
  (r.imports.find? (DottedName.endsWith · name)).map DottedName.slashed

/-- The full name of a class. -/
def internalName (r : Resolver) (name : String) : String :=
  if name = "this" ∨ name = r.className then r.className
  else (r.imported? name).getD r.className

/-- The full name of a superclass. A name that no import makes visible stays as it is, and no name
or an empty one stands for the root of all classes. -/
def superclass (r : Resolver) : Option String → String
  | none => objectClass
  | some name => if name.isEmpty then objectClass else (r.imported? name).getD name

/-- The descriptor of a type. -/
def descriptor (r : Resolver) : Ty → Descriptor
  | .int => .int
  | .boolean => .boolean
  | .void => .void
  | .string => .object stringClass
  | .object name => .object (r.internalName name)
  | .array element => .array (r.descriptor element)

/-- The descriptor of a method. -/
def methodDescriptor (r : Resolver) (params : List Ty) (result : Ty) : MethodDescriptor :=
  { params := params.map r.descriptor, result := r.descriptor result }

end Resolver

end MiniJava.Jvm
