import MiniJava.Options

/-!
# The depth of the operand stack

While code is emitted the depth of the stack is followed. Two bounds come out of it: the greatest
depth that was reached, and a conservative one, for which every push of an instruction of the
intermediate code is counted on top of the depth at the start of that instruction.
-/

namespace MiniJava.Jvm

/-- The depth at a place of the code, with the two bounds so far, and the depth at the start of the
current instruction with the pushes since. -/
structure StackDepth where
  depth : Nat := 0
  peak : Nat := 0
  conservativePeak : Nat := 0
  start : Nat := 0
  pushes : Nat := 0
  deriving DecidableEq

namespace StackDepth

/-- Begins an instruction. -/
def beginInstruction (s : StackDepth) : StackDepth :=
  { s with start := s.depth, pushes := 0 }

/-- Pushes some words. -/
def push (s : StackDepth) (count : Nat) : StackDepth :=
  { s with
    depth := s.depth + count
    peak := max s.peak (s.depth + count)
    pushes := s.pushes + count
    conservativePeak := max s.conservativePeak (s.start + (s.pushes + count)) }

/-- Pops some words. The depth does not go below zero. -/
def pop (s : StackDepth) (count : Nat) : StackDepth :=
  { s with depth := s.depth - count }

/-- Sets the depth where two ways of the code meet. -/
def setDepth (s : StackDepth) (depth : Nat) : StackDepth :=
  { s with depth }

/-- The size of the stack that a method asks for. -/
def limit (s : StackDepth) : StackPolicy → Nat
  | .exact => s.peak
  | .conservative => max s.conservativePeak s.peak

end StackDepth

end MiniJava.Jvm
