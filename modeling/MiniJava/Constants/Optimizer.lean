import MiniJava.Constants.Folding
import MiniJava.Constants.Propagation

/-!
# The optimizer

Propagation and folding in turn, until a round of both changes nothing or a cap on the rounds is
reached.
-/

namespace MiniJava.Constants

/-- Optimizes a method in at most as many rounds as the cap says. -/
def optimizeMethod (m : Method) : (cap : Nat) → Except CompileError Method
  | 0 => .ok m
  | cap + 1 => do
    let propagated := propagate m
    let folded ← fold propagated.node
    if propagated.changed || folded.changed then optimizeMethod folded.node cap
    else return folded.node

/-- Optimizes every method of a program. -/
def optimizeProgram (p : Program) (cap : Nat) : Except CompileError Program := do
  let methods ← p.mainClass.methods.mapM (optimizeMethod · cap)
  return { p with mainClass := { p.mainClass with methods } }

end MiniJava.Constants
