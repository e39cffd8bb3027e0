import MiniJava.Ir.Method

/-!
# Modules of the intermediate code
-/

namespace MiniJava.Ir

/-- A field, its initial value already a literal. -/
structure Field where
  name : String
  ty : Ty
  access : Access := .everyone
  isStatic : Bool := false
  isFinal : Bool := false
  initialValue : Option Literal := none

/-- A class. Its imports are dotted names. -/
structure Class where
  name : String
  superclass : Option String := none
  imports : List String := []
  fields : List Field := []
  methods : List Method := []

namespace Class

/-- The first method of a name. -/
def method? (c : Class) (name : String) : Option Method :=
  c.methods.find? (·.name == name)

/-- The first field of a name. -/
def field? (c : Class) (name : String) : Option Field :=
  c.fields.find? (·.name == name)

end Class

/-- The classes of one compilation. -/
structure Module where
  classes : List Class := []

/-- The first class of a name. -/
def Module.class? (m : Module) (name : String) : Option Class :=
  m.classes.find? (·.name == name)

end MiniJava.Ir
