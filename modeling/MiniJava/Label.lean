/-!
# Labels

A jump target has either a name of its own or a role and a number. Generated labels are of the
second kind, so that raising their numbers and telling them apart needs no look at the text.
-/

namespace MiniJava

/-- What a generated label marks. -/
inductive LabelRole where
  | thenBranch
  | endIf
  | loopBody
  | loopCondition
  | andRight
  | andEnd
  | orTrue
  | orEnd
  | compareTrue
  | compareEnd
  deriving DecidableEq

/-- The text of a role, in front of the number. -/
def LabelRole.stem : LabelRole → String
  | thenBranch => "then"
  | endIf => "endif"
  | loopBody => "whilebody"
  | loopCondition => "whilecond"
  | andRight => "and_rhs"
  | andEnd => "and_end"
  | orTrue => "or_true"
  | orEnd => "or_end"
  | compareTrue => "cmp_true"
  | compareEnd => "cmp_end"

/-- A jump target. -/
inductive Label where
  | named (name : String)
  | numbered (role : LabelRole) (number : Nat)
  deriving DecidableEq

/-- A label as both listings write it. -/
def Label.text : Label → String
  | named name => name
  | numbered role number => role.stem ++ "_" ++ toString number

end MiniJava
