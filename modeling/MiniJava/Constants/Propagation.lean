import MiniJava.Constants.Rewrite
import MiniJava.Program

/-!
# Constant propagation

Replaces reads of a local or parameter that is known to hold a literal by the literal, and removes
the stores that no read can see any more.

What is known never crosses a branch unsafely: each branch of a conditional starts with what was
known before it, and what a branch or a loop body assigns is forgotten after the conditional and
before the condition of the loop. A store is removed when the same scope overwrites it, or when it
is still known at the end of the body.

Stores are named by their place in the order in which the assignments of a body are written.
-/

namespace MiniJava.Constants

/-- A literal that a variable holds, with the store that put it there and the scope of the store,
counted in branches and loops around it. -/
structure Known where
  value : Literal
  store : Nat
  depth : Nat

/-- The variables that hold a known literal. -/
abbrev Facts := List (String × Known)

namespace Facts

/-- What is known without a variable. -/
def forget (facts : Facts) (name : String) : Facts :=
  facts.filter (·.1 != name)

/-- What is known without some variables. -/
def forgetAll (facts : Facts) (names : List String) : Facts :=
  facts.filter fun fact => !names.contains fact.1

/-- The store that is seen by no read once a scope of the given depth overwrites a variable. -/
def deadStore? (facts : Facts) (name : String) (depth : Nat) : Option Nat :=
  (facts.lookup name).bind fun known =>
    if known.depth = depth then some known.store else none

end Facts

mutual

/-- Puts known literals in place of the variables of an expression. -/
def substExpr (facts : Facts) : Expr → Rewrite Expr
  | .var name =>
    match facts.lookup name with
    | some known => ⟨.literal known.value, true⟩
    | none => ⟨.var name, false⟩
  | .literal value => ⟨.literal value, false⟩
  | .self => ⟨.self, false⟩
  | .newObject name => ⟨.newObject name, false⟩
  | .paren inner => (substExpr facts inner).map .paren
  | .not operand => (substExpr facts operand).map .not
  | .binary op left right => (substExpr facts left).map₂ (.binary op) (substExpr facts right)
  | .newArray element size => (substExpr facts size).map (.newArray element)
  | .arrayLiteral elements => (substExprs facts elements).map .arrayLiteral
  | .index array index => (substExpr facts array).map₂ .index (substExpr facts index)
  | .length array => (substExpr facts array).map .length
  | .call target name args => (substExpr facts target).map₂ (.call · name) (substExprs facts args)

/-- Puts known literals in place of the variables of several expressions. -/
def substExprs (facts : Facts) : List Expr → Rewrite (List Expr)
  | [] => ⟨[], false⟩
  | e :: rest => (substExpr facts e).map₂ List.cons (substExprs facts rest)

end

mutual

/-- The variables that a statement assigns as a whole, nested statements included. -/
def assigned : Stmt → List String
  | .assign target _ => [target]
  | .ite _ thenBranch elseBranch => assigned thenBranch ++ assigned elseBranch
  | .loop _ body => assigned body
  | .block body => assignedIn body
  | .arrayAssign .. | .ret _ | .expr _ => []

/-- The variables that some statements assign. -/
def assignedIn : List Stmt → List String
  | [] => []
  | s :: rest => assigned s ++ assignedIn rest

end

/-- The state of a pass between two statements: what is known, the number of the next store, the
stores to remove, and whether a read was replaced. -/
structure Progress where
  facts : Facts := []
  nextStore : Nat := 0
  removable : List Nat := []
  replaced : Bool := false

namespace Progress

/-- Notes the outcome of a substitution. -/
def note {α : Type} (p : Progress) (r : Rewrite α) : Progress :=
  { p with replaced := p.replaced || r.changed }

/-- Passes over the store of an expression into a variable. Only what the method declares is
followed. -/
def store (p : Progress) (m : Method) (depth : Nat) (target : String) (value : Expr) : Progress :=
  let next := { p with nextStore := p.nextStore + 1 }
  if m.declares target then
    let rest := p.facts.forget target
    { next with
      removable := (p.facts.deadStore? target depth).toList ++ p.removable
      facts := match value with
        | .literal value => (target, ⟨value, p.nextStore, depth⟩) :: rest
        | _ => rest }
  else next

end Progress

mutual

/-- Passes over a statement of a method, the number of branches and loops around it given. -/
def propagateStmt (m : Method) (depth : Nat) (p : Progress) : Stmt → Stmt × Progress
  | .assign target value =>
    let value := substExpr p.facts value
    (.assign target value.node, (p.note value).store m depth target value.node)
  | .arrayAssign target index value =>
    let parts := (substExpr p.facts index).map₂ (.arrayAssign target) (substExpr p.facts value)
    (parts.node, p.note parts)
  | .ite condition thenBranch elseBranch =>
    let test := substExpr p.facts condition
    let p := p.note test
    let (thenPart, p₁) := propagateStmt m (depth + 1) p thenBranch
    let (elsePart, p₂) := propagateStmt m (depth + 1) { p₁ with facts := p.facts } elseBranch
    (.ite test.node thenPart elsePart,
      { p₂ with facts := p.facts.forgetAll (assigned thenBranch ++ assigned elseBranch) })
  | .loop condition body =>
    let p := { p with facts := p.facts.forgetAll (assigned body) }
    let test := substExpr p.facts condition
    let (inner, p₁) := propagateStmt m (depth + 1) (p.note test) body
    (.loop test.node inner, { p₁ with facts := p.facts })
  | .block body =>
    let (inner, p) := propagateStmts m depth p body
    (.block inner, p)
  | .ret none => (.ret none, p)
  | .ret (some value) =>
    let value := substExpr p.facts value
    (.ret (some value.node), p.note value)
  | .expr value =>
    let value := substExpr p.facts value
    (.expr value.node, p.note value)

/-- Passes over statements in their order. -/
def propagateStmts (m : Method) (depth : Nat) (p : Progress) : List Stmt → List Stmt × Progress
  | [] => ([], p)
  | s :: rest =>
    let (s, p) := propagateStmt m depth p s
    let (rest, p) := propagateStmts m depth p rest
    (s :: rest, p)

end

mutual

/-- Removes stores from a statement, the number of its first store given. A statement that is itself
a removed store vanishes. The second part is the number after its last store. -/
def removeStores (removable : List Nat) (next : Nat) : Stmt → Option Stmt × Nat
  | .assign target value =>
    (if removable.contains next then none else some (.assign target value), next + 1)
  | .ite condition thenBranch elseBranch =>
    let (thenPart, next) := removeStores removable next thenBranch
    let (elsePart, next) := removeStores removable next elseBranch
    (some (.ite condition (thenPart.getD (.block [])) (elsePart.getD (.block []))), next)
  | .loop condition body =>
    let (inner, next) := removeStores removable next body
    (some (.loop condition (inner.getD (.block []))), next)
  | .block body =>
    let (inner, next) := removeStoresIn removable next body
    (some (.block inner), next)
  | .arrayAssign target index value => (some (.arrayAssign target index value), next)
  | .ret value => (some (.ret value), next)
  | .expr value => (some (.expr value), next)

/-- Removes stores from statements. -/
def removeStoresIn (removable : List Nat) (next : Nat) : List Stmt → List Stmt × Nat
  | [] => ([], next)
  | s :: rest =>
    let (s, next) := removeStores removable next s
    let (rest, next) := removeStoresIn removable next rest
    (s.toList ++ rest, next)

end

/-- The stores outside all branches that are still known: nothing reads them any more. -/
def Facts.outermostStores (facts : Facts) : List Nat :=
  facts.filterMap fun fact => if fact.2.depth = 0 then some fact.2.store else none

/-- One propagation pass over a method. -/
def propagate (m : Method) : Rewrite Method :=
  let (body, p) := propagateStmts m 0 {} m.body
  let removable := p.facts.outermostStores ++ p.removable
  ⟨{ m with body := (removeStoresIn removable 0 body).1 }, p.replaced || !removable.isEmpty⟩

end MiniJava.Constants
