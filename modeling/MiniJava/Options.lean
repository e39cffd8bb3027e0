/-!
# Options of a compilation
-/

namespace MiniJava

/-- How the stack that a method asks for is computed. -/
inductive StackPolicy where
  /-- The bound that counts every push of an instruction on top of the depth at its start. -/
  | conservative
  /-- The greatest depth that is reached. -/
  | exact
  deriving DecidableEq

/-- The code for a logical negation. -/
inductive Negation where
  /-- The exclusive or of the operand with itself, which is always zero. -/
  | selfXor
  /-- The exclusive or of the operand with one. -/
  | xorOne
  deriving DecidableEq

/-- The options of one compilation. -/
structure Options where
  optimize : Bool := false
  maxPasses : UInt64 := 100
  stackPolicy : StackPolicy := .conservative
  negation : Negation := .selfXor
  deriving DecidableEq

/-- The default options with the optimizer turned on. -/
def Options.optimized : Options :=
  { optimize := true }

end MiniJava
