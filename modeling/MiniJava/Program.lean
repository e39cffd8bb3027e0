import MiniJava.DottedName
import MiniJava.Stmt

/-!
# Programs

A program is a list of imports and one class with fields and methods. The defaults of the fields of
each structure are the ones a reader of trees takes for parts that are left out.
-/

namespace MiniJava

/-- Who may use a member. Access from the package is written by leaving the modifier out. -/
inductive Access where
  | everyone
  | ownClass
  | subclasses
  | package
  deriving DecidableEq

/-- The modifier of an access, if it has one. -/
def Access.keyword? : Access → Option String
  | everyone => some "public"
  | ownClass => some "private"
  | subclasses => some "protected"
  | package => none

/-- The modifiers of a member in their order, each followed by a blank. -/
def Access.modifiers (access : Access) (isStatic isFinal : Bool) : String :=
  let words := access.keyword?.toList ++ (if isStatic then ["static"] else [])
    ++ (if isFinal then ["final"] else [])
  String.join (words.map (· ++ " "))

/-- A name with its type: a declared local, or an entry of a table. -/
structure Variable where
  name : String
  ty : Ty
  deriving DecidableEq

/-- A formal parameter. One with variable arguments has an array type. -/
structure Param where
  name : String
  ty : Ty
  isVarargs : Bool := false
  deriving DecidableEq

/-- The parameter that takes any number of arguments of the given type. -/
def Param.varargs (name : String) (element : Ty) : Param :=
  { name, ty := .array element, isVarargs := true }

/-- A field. An initializer has to be a literal, which is checked when code is made. -/
structure Field where
  name : String
  ty : Ty
  access : Access := .everyone
  isStatic : Bool := false
  isFinal : Bool := false
  isVarargs : Bool := false
  initializer : Option Expr := none

/-- A method with all its locals declared in front. -/
structure Method where
  name : String
  access : Access := .everyone
  isStatic : Bool := false
  isFinal : Bool := false
  returnTy : Ty
  returnsVarargs : Bool := false
  params : List Param := []
  locals : List Variable := []
  body : List Stmt := []

namespace Method

/-- The entry point of a program, its one parameter under the given name. -/
def main (args : String) : Method :=
  { name := "main", isStatic := true, returnTy := .void
    params := [{ name := args, ty := .array .string }] }

/-- Whether a name is a local or a parameter of the method. -/
def declares (m : Method) (name : String) : Bool :=
  m.locals.any (·.name == name) || m.params.any (·.name == name)

/-- Whether the last statement of the body ends with a return. -/
def endsWithReturn (m : Method) : Bool :=
  Stmt.lastEndsWithReturn m.body

end Method

/-- The class of a program. -/
structure Class where
  name : String
  superclass : Option String := none
  fields : List Field := []
  methods : List Method := []

/-- An import as its list of segments. -/
structure Import where
  path : List String
  deriving DecidableEq

namespace Import

/-- The import that a dotted name denotes. -/
def ofDotted (name : String) : Import :=
  ⟨DottedName.segments name⟩

/-- The dotted name of an import. -/
def dotted (i : Import) : String :=
  DottedName.join i.path

/-- The name that an import makes visible. -/
def simpleName (i : Import) : String :=
  i.path.getLastD ""

end Import

/-- Imports and a class. -/
structure Program where
  imports : List Import := []
  mainClass : Class

end MiniJava
