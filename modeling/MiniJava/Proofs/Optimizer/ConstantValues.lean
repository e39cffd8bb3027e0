import MiniJava.Constants.Folding
import MiniJava.Proofs.Success

/-!
# What folding replaces

The constant value of an expression is defined here by recursion over the expression, with operators
on numbers of any size whose results are cut to 32 bits. Folding replaces the outermost expressions
with a constant value by their literals and touches nothing else, unless a division of two constant
integers by zero stands somewhere in the expression: then it fails.
-/

namespace MiniJava

/-! ## Constant values -/

/-- The opposite of a boolean. -/
def Literal.negation? : Literal → Option Literal
  | .bool value => some (.bool !value)
  | .int _ => none

/-- What an operator makes of two constants of its operand type. -/
def BinOp.constant? : BinOp → Literal → Literal → Option Literal
  | .add, .int l, .int r => some (.int (.ofInt (l.toInt + r.toInt)))
  | .sub, .int l, .int r => some (.int (.ofInt (l.toInt - r.toInt)))
  | .mul, .int l, .int r => some (.int (.ofInt (l.toInt * r.toInt)))
  | .div, .int l, .int r => if r = 0 then none else some (.int (.ofInt (l.toInt.tdiv r.toInt)))
  | .lt, .int l, .int r => some (.bool (decide (l.toInt < r.toInt)))
  | .and, .bool l, .bool r => some (.bool (l && r))
  | .or, .bool l, .bool r => some (.bool (l || r))
  | _, _, _ => none

namespace Expr

/-- The value of an expression that is made of literals. -/
def constantValue? : Expr → Option Literal
  | .literal value => some value
  | .paren inner => inner.constantValue?
  | .not operand => operand.constantValue?.bind Literal.negation?
  | .binary op left right =>
    left.constantValue?.bind fun l => right.constantValue?.bind fun r => op.constant? l r
  | .self | .var _ | .newArray _ _ | .arrayLiteral _ | .index _ _ | .length _ | .newObject _
  | .call _ _ _ => none

/-- An expression around what becomes of the expressions it is made of. -/
def mapOperands (f : Expr → Expr) : Expr → Expr
  | .paren inner => .paren (f inner)
  | .not operand => .not (f operand)
  | .binary op left right => .binary op (f left) (f right)
  | .newArray element size => .newArray element (f size)
  | .arrayLiteral elements => .arrayLiteral (elements.map f)
  | .index array place => .index (f array) (f place)
  | .length array => .length (f array)
  | .call target method args => .call (f target) method (args.map f)
  | .literal value => .literal value
  | .self => .self
  | .var name => .var name
  | .newObject className => .newObject className

/-- The literal of a constant value, or an expression in its place. -/
def literalOr (kept : Expr) : Option Literal → Expr
  | some value => .literal value
  | none => kept

mutual

/-- An expression with every outermost part that has a constant value replaced by its literal. -/
def replaceConstants : Expr → Expr
  | .paren inner => literalOr (.paren inner.replaceConstants) (constantValue? (.paren inner))
  | .not operand => literalOr (.not operand.replaceConstants) (constantValue? (.not operand))
  | .binary op left right =>
    literalOr (.binary op left.replaceConstants right.replaceConstants)
      (constantValue? (.binary op left right))
  | .newArray element size => .newArray element size.replaceConstants
  | .arrayLiteral elements => .arrayLiteral (replaceConstantsIn elements)
  | .index array place => .index array.replaceConstants place.replaceConstants
  | .length array => .length array.replaceConstants
  | .call target method args => .call target.replaceConstants method (replaceConstantsIn args)
  | .literal value => .literal value
  | .self => .self
  | .var name => .var name
  | .newObject className => .newObject className

/-- Expressions with their constant parts replaced. -/
def replaceConstantsIn : List Expr → List Expr
  | [] => []
  | e :: rest => e.replaceConstants :: replaceConstantsIn rest

end

mutual

/-- An expression and all expressions inside of it. -/
def parts : Expr → List Expr
  | .paren inner => .paren inner :: inner.parts
  | .not operand => .not operand :: operand.parts
  | .binary op left right => .binary op left right :: (left.parts ++ right.parts)
  | .newArray element size => .newArray element size :: size.parts
  | .arrayLiteral elements => .arrayLiteral elements :: partsIn elements
  | .index array place => .index array place :: (array.parts ++ place.parts)
  | .length array => .length array :: array.parts
  | .call target method args => .call target method args :: (target.parts ++ partsIn args)
  | .literal value => [.literal value]
  | .self => [.self]
  | .var name => [.var name]
  | .newObject className => [.newObject className]

/-- The parts of several expressions. -/
def partsIn : List Expr → List Expr
  | [] => []
  | e :: rest => e.parts ++ partsIn rest

end

/-- A division of a constant integer by a constant zero. -/
def IsZeroDivision : Expr → Prop
  | .binary .div left right =>
    (∃ value, left.constantValue? = some (.int value)) ∧ right.constantValue? = some (.int 0)
  | _ => False

/-- Some division in an expression is one of a constant integer by a constant zero. -/
def DividesByZero (e : Expr) : Prop :=
  ∃ part ∈ e.parts, part.IsZeroDivision

end Expr

mutual

/-- The expressions that stand in a statement. -/
def Stmt.exprs : Stmt → List Expr
  | .assign _ value => [value]
  | .arrayAssign _ index value => [index, value]
  | .ite condition thenBranch elseBranch => condition :: (thenBranch.exprs ++ elseBranch.exprs)
  | .loop condition body => condition :: body.exprs
  | .block body => Stmt.exprsIn body
  | .ret none => []
  | .ret (some value) => [value]
  | .expr value => [value]

/-- The expressions that stand in statements. -/
def Stmt.exprsIn : List Stmt → List Expr
  | [] => []
  | s :: rest => s.exprs ++ Stmt.exprsIn rest

end

mutual

/-- A statement with each expression that stands in it turned into another one. -/
def Stmt.mapExprs (f : Expr → Expr) : Stmt → Stmt
  | .assign target value => .assign target (f value)
  | .arrayAssign target index value => .arrayAssign target (f index) (f value)
  | .ite condition thenBranch elseBranch =>
    .ite (f condition) (thenBranch.mapExprs f) (elseBranch.mapExprs f)
  | .loop condition body => .loop (f condition) (body.mapExprs f)
  | .block body => .block (Stmt.mapExprsIn f body)
  | .ret none => .ret none
  | .ret (some value) => .ret (some (f value))
  | .expr value => .expr (f value)

/-- Statements with each expression that stands in them turned into another one. -/
def Stmt.mapExprsIn (f : Expr → Expr) : List Stmt → List Stmt
  | [] => []
  | s :: rest => s.mapExprs f :: Stmt.mapExprsIn f rest

end

namespace Constants

open MiniJava.Expr (literalOr)

variable {method : String}

/-! ## Operators on literals -/

theorem evalBinary_constant {op : BinOp} {l r : Literal}
    (h : ¬ (op = .div ∧ (∃ value, l = .int value) ∧ r = .int 0)) :
    evalBinary method op l r = .ok (op.constant? l r) := by
  have htdiv (a b : Int32) : Int32.ofInt (a.toInt.tdiv b.toInt) = a / b := by
    rw [← Int32.toInt_inj, Int32.toInt_div, Int32.toInt_ofInt]
  cases op <;> cases l <;> cases r <;>
    simp_all [evalBinary, BinOp.constant?, Int32.ofInt_add, Int32.ofInt_sub, Int32.ofInt_mul,
      Int32.lt_iff_toInt_lt]

/-! ## Replacement -/

theorem replaceConstantsIn_eq (es : List Expr) :
    Expr.replaceConstantsIn es = es.map Expr.replaceConstants := by
  induction es with
  | nil => rfl
  | cons e rest ih => rw [Expr.replaceConstantsIn, ih, List.map_cons]

/-- An expression with a constant value becomes its literal. Any other one stays what it is, around
what becomes of its parts. -/
theorem replaceConstants_eq : ∀ e : Expr,
    e.replaceConstants = literalOr (e.mapOperands Expr.replaceConstants) e.constantValue?
  | .paren _ | .not _ | .binary _ _ _ | .newArray _ _ | .index _ _ | .length _ | .literal _ | .self
  | .var _ | .newObject _ => rfl
  | .arrayLiteral elements => congrArg Expr.arrayLiteral (replaceConstantsIn_eq elements)
  | .call target method args =>
    congrArg (Expr.call target.replaceConstants method) (replaceConstantsIn_eq args)

theorem replaceConstants_eq_literal {e : Expr} {value : Literal} :
    e.replaceConstants = .literal value ↔ e.constantValue? = some value := by
  rw [replaceConstants_eq]
  cases hvalue : e.constantValue? with
  | some value' => simp [literalOr]
  | none =>
    simp only [literalOr, reduceCtorEq, iff_false]
    cases e with
    | literal => cases hvalue
    | _ => exact nofun

/-! ## Outcomes of folding -/

/-- Folding is refused exactly under some condition, and gives the given tree otherwise. -/
structure FoldsInto {α : Type} (method : String) (refused : Prop) (a : α)
    (x : Except CompileError (Rewrite α)) : Prop where
  fails : x = .error (.divisionByZero method) ↔ refused
  folds : ¬ refused → ∃ changed, x = .ok ⟨a, changed⟩

namespace FoldsInto

variable {α β γ δ : Type} {p q r : Prop} {a : α} {b : β} {c : γ}
  {x : Except CompileError (Rewrite α)} {y : Except CompileError (Rewrite β)}
  {z : Except CompileError (Rewrite γ)}

theorem pure (hp : ¬ p) (a : α) (changed : Bool) : FoldsInto method p a (.ok ⟨a, changed⟩) :=
  ⟨iff_of_false nofun hp, fun _ => ⟨changed, rfl⟩⟩

theorem congr (h : FoldsInto method p a x) (hpq : p ↔ q) : FoldsInto method q a x :=
  ⟨h.fails.trans hpq, fun hq => h.folds (mt hpq.mp hq)⟩

theorem bind {f : Rewrite α → Except CompileError (Rewrite β)} (h : FoldsInto method p a x)
    (hf : ∀ changed, FoldsInto method q b (f ⟨a, changed⟩)) :
    FoldsInto method (p ∨ q) b (x >>= f) := by
  by_cases hp : p
  · rw [h.fails.mpr hp]
    exact ⟨iff_of_true rfl (.inl hp), fun hnot => absurd (.inl hp) hnot⟩
  · obtain ⟨changed, rfl⟩ := h.folds hp
    refine (hf changed).congr ?_
    simp [hp]

theorem map (f : α → β) (h : FoldsInto method p a x) :
    FoldsInto method p (f a) (x >>= fun a => .ok (a.map f)) :=
  (h.bind fun changed => .pure not_false (f a) changed).congr (iff_of_eq (or_false p))

theorem map₂ (f : α → β → γ) (h : FoldsInto method p a x) (h' : FoldsInto method q b y) :
    FoldsInto method (p ∨ q) (f a b) (x >>= fun a => y >>= fun b => .ok (a.map₂ f b)) :=
  h.bind fun changed => (h'.bind fun changed' =>
    .pure not_false (f a b) (changed || changed')).congr (iff_of_eq (or_false q))

theorem map₃ (f : α → β → γ → δ) (h : FoldsInto method p a x) (h' : FoldsInto method q b y)
    (h'' : FoldsInto method r c z) :
    FoldsInto method (p ∨ q ∨ r) (f a b c)
      (x >>= fun a => y >>= fun b => z >>= fun c => .ok (a.map₃ f b c)) :=
  h.bind fun changed => h'.bind fun changed' => (h''.bind fun changed'' =>
    .pure not_false (f a b c) (changed || changed' || changed'')).congr (iff_of_eq (or_false r))

end FoldsInto

/-! ## Expressions -/

theorem isZeroDivision_binary {op : BinOp} {left right : Expr} :
    (Expr.binary op left right).IsZeroDivision ↔ op = .div ∧
      (∃ value, left.constantValue? = some (.int value)) ∧
        right.constantValue? = some (.int 0) := by
  cases op <;> simp [Expr.IsZeroDivision]

theorem dividesByZero_cons {e : Expr} {rest : List Expr} (h : e.parts = e :: rest) :
    e.DividesByZero ↔ e.IsZeroDivision ∨ ∃ part ∈ rest, part.IsZeroDivision := by
  rw [Expr.DividesByZero, h]
  simp

theorem dividesByZero_inside {e : Expr} {rest : List Expr} (h : e.parts = e :: rest)
    (hnot : ¬ e.IsZeroDivision) : (∃ part ∈ rest, part.IsZeroDivision) ↔ e.DividesByZero := by
  rw [dividesByZero_cons h]
  exact (or_iff_right hnot).symm

theorem isZeroDivision_append {l₁ l₂ : List Expr} :
    (∃ part ∈ l₁ ++ l₂, part.IsZeroDivision) ↔
      (∃ part ∈ l₁, part.IsZeroDivision) ∨ ∃ part ∈ l₂, part.IsZeroDivision := by
  simp only [List.mem_append, or_and_right, exists_or]

theorem dividesByZero_in {es : List Expr} :
    (∃ part ∈ Expr.partsIn es, part.IsZeroDivision) ↔ ∃ e ∈ es, e.DividesByZero := by
  induction es with
  | nil => simp [Expr.partsIn]
  | cons e rest ih =>
    rw [Expr.partsIn, isZeroDivision_append, ih]
    simp [Expr.DividesByZero]

theorem foldParen_node (inner : Expr) (changed : Bool) :
    (foldParen ⟨inner.replaceConstants, changed⟩).node = (Expr.paren inner).replaceConstants := by
  rw [Expr.replaceConstants, Expr.constantValue?, foldParen]
  dsimp only
  split
  · rename_i value hvalue
    rw [replaceConstants_eq_literal.mp hvalue, literalOr]
  · rename_i hvalue
    cases hconstant : inner.constantValue? with
    | some value => exact absurd (replaceConstants_eq_literal.mpr hconstant) (hvalue value)
    | none => rfl

theorem foldNot_node (operand : Expr) (changed : Bool) :
    (foldNot ⟨operand.replaceConstants, changed⟩).node = (Expr.not operand).replaceConstants := by
  rw [Expr.replaceConstants, Expr.constantValue?, foldNot]
  dsimp only
  split
  · rename_i value hvalue
    rw [replaceConstants_eq_literal.mp hvalue]
    rfl
  · rename_i hvalue
    cases hconstant : operand.constantValue? with
    | some value =>
      cases value with
      | int value => rfl
      | bool value => exact absurd (replaceConstants_eq_literal.mpr hconstant) (hvalue value)
    | none => rfl

theorem foldBinary_folds (op : BinOp) (left right : Expr) (changed changed' : Bool) :
    FoldsInto method (Expr.binary op left right).IsZeroDivision
      (Expr.binary op left right).replaceConstants
      (foldBinary method op ⟨left.replaceConstants, changed⟩
        ⟨right.replaceConstants, changed'⟩) := by
  rw [foldBinary]
  split
  · rename_i l r hl hr
    rw [replaceConstants_eq_literal] at hl hr
    have hrefused : (Expr.binary op left right).IsZeroDivision ↔
        op = .div ∧ (∃ value, l = .int value) ∧ r = .int 0 := by
      rw [isZeroDivision_binary, hl, hr]
      simp
    by_cases hzero : op = .div ∧ (∃ value, l = .int value) ∧ r = .int 0
    · have hin := hrefused.mpr hzero
      obtain ⟨rfl, ⟨value, rfl⟩, rfl⟩ := hzero
      exact ⟨iff_of_true rfl hin, fun hnot => absurd hin hnot⟩
    · have hfine := mt hrefused.mp hzero
      rw [Expr.replaceConstants, Expr.constantValue?, hl, hr, evalBinary_constant hzero]
      show FoldsInto _ _ (literalOr _ (op.constant? l r)) _
      cases op.constant? l r with
      | some value => exact .pure hfine (Expr.literal value) true
      | none => exact .pure hfine (Expr.binary op _ _) (changed || changed')
  -- One of the operands has no constant value, and so neither has the operator.
  · rename_i hvalues
    have hmixed : ∀ l r, left.constantValue? = some l → right.constantValue? ≠ some r :=
      fun l r hl hr =>
        hvalues l r (replaceConstants_eq_literal.mpr hl) (replaceConstants_eq_literal.mpr hr)
    have hnone : (Expr.binary op left right).constantValue? = none := by
      rw [Expr.constantValue?]
      cases hl : left.constantValue? with
      | none => rfl
      | some l =>
        cases hr : right.constantValue? with
        | none => rfl
        | some r => exact absurd hr (hmixed l r hl)
    have hfine : ¬ (Expr.binary op left right).IsZeroDivision := by
      rw [isZeroDivision_binary]
      rintro ⟨_, ⟨value, hl⟩, hr⟩
      exact hmixed _ _ hl hr
    rw [Expr.replaceConstants, hnone]
    exact .pure hfine _ (changed || changed')

mutual

theorem foldExpr_folds : ∀ e : Expr,
    FoldsInto method e.DividesByZero e.replaceConstants (foldExpr method e)
  | .literal _ | .self | .var _ | .newObject _ => by
    rw [foldExpr]
    exact .pure (mt (dividesByZero_inside rfl id).mpr (by simp)) _ _
  | .paren inner => by
    rw [foldExpr]
    refine ((foldExpr_folds inner).bind (q := False) fun changed => ?_).congr ?_
    · rw [← foldParen_node]
      exact .pure not_false _ _
    · rw [or_false]
      exact dividesByZero_inside rfl id
  | .not operand => by
    rw [foldExpr]
    refine ((foldExpr_folds operand).bind (q := False) fun changed => ?_).congr ?_
    · rw [← foldNot_node]
      exact .pure not_false _ _
    · rw [or_false]
      exact dividesByZero_inside rfl id
  | .binary op left right => by
    rw [foldExpr]
    refine ((foldExpr_folds left).bind fun _ => (foldExpr_folds right).bind fun _ =>
      foldBinary_folds op left right _ _).congr ?_
    rw [dividesByZero_cons (e := .binary op left right) rfl, isZeroDivision_append, ← or_assoc]
    exact or_comm
  | .newArray element size => by
    rw [foldExpr]
    exact ((foldExpr_folds size).map (Expr.newArray element)).congr (dividesByZero_inside rfl id)
  | .arrayLiteral elements => by
    rw [foldExpr]
    exact ((foldExprs_fold elements).map Expr.arrayLiteral).congr
      (dividesByZero_in.symm.trans (dividesByZero_inside rfl id))
  | .index array index => by
    rw [foldExpr]
    exact ((foldExpr_folds array).map₂ Expr.index (foldExpr_folds index)).congr
      (isZeroDivision_append.symm.trans (dividesByZero_inside rfl id))
  | .length array => by
    rw [foldExpr]
    exact ((foldExpr_folds array).map Expr.length).congr (dividesByZero_inside rfl id)
  | .call target name args => by
    rw [foldExpr]
    refine ((foldExpr_folds target).map₂ (fun t es => Expr.call t name es)
      (foldExprs_fold args)).congr ?_
    rw [← dividesByZero_in]
    exact isZeroDivision_append.symm.trans (dividesByZero_inside rfl id)

theorem foldExprs_fold : ∀ es : List Expr,
    FoldsInto method (∃ e ∈ es, e.DividesByZero) (Expr.replaceConstantsIn es) (foldExprs method es)
  | [] => by
    rw [foldExprs]
    exact .pure (by simp) _ _
  | e :: rest => by
    rw [foldExprs]
    exact ((foldExpr_folds e).map₂ List.cons (foldExprs_fold rest)).congr (by simp)

end

/-! ## Statements and methods -/

mutual

theorem foldStmt_folds : ∀ s : Stmt, FoldsInto method (∃ e ∈ s.exprs, e.DividesByZero)
    (s.mapExprs Expr.replaceConstants) (foldStmt method s)
  | .assign target value => by
    rw [foldStmt]
    exact ((foldExpr_folds value).map (Stmt.assign target)).congr (by simp [Stmt.exprs])
  | .arrayAssign target index value => by
    rw [foldStmt]
    exact ((foldExpr_folds index).map₂ (Stmt.arrayAssign target) (foldExpr_folds value)).congr
      (by simp [Stmt.exprs])
  | .ite condition thenBranch elseBranch => by
    rw [foldStmt]
    exact ((foldExpr_folds condition).map₃ Stmt.ite (foldStmt_folds thenBranch)
      (foldStmt_folds elseBranch)).congr (by simp [Stmt.exprs, or_and_right, exists_or])
  | .loop condition body => by
    rw [foldStmt]
    exact ((foldExpr_folds condition).map₂ Stmt.loop (foldStmt_folds body)).congr
      (by simp [Stmt.exprs])
  | .block body => by
    rw [foldStmt]
    exact (foldStmts_fold body).map Stmt.block
  | .ret none => by
    rw [foldStmt]
    exact .pure (by simp [Stmt.exprs]) _ _
  | .ret (some value) => by
    rw [foldStmt]
    exact ((foldExpr_folds value).map fun e => Stmt.ret (some e)).congr (by simp [Stmt.exprs])
  | .expr value => by
    rw [foldStmt]
    exact ((foldExpr_folds value).map Stmt.expr).congr (by simp [Stmt.exprs])

theorem foldStmts_fold : ∀ body : List Stmt,
    FoldsInto method (∃ e ∈ Stmt.exprsIn body, e.DividesByZero)
      (Stmt.mapExprsIn Expr.replaceConstants body) (foldStmts method body)
  | [] => by
    rw [foldStmts]
    exact .pure (by simp [Stmt.exprsIn]) _ _
  | s :: rest => by
    rw [foldStmts]
    exact ((foldStmt_folds s).map₂ List.cons (foldStmts_fold rest)).congr
      (by simp [Stmt.exprsIn, or_and_right, exists_or])

end

/-! ## Folding again -/

theorem foldParen_again {inner : Rewrite Expr}
    (h : foldExpr method inner.node = .ok ⟨inner.node, false⟩) :
    foldExpr method (foldParen inner).node = .ok ⟨(foldParen inner).node, false⟩ := by
  obtain ⟨node, changed⟩ := inner
  have hparen : foldExpr method (.paren node) = .ok (foldParen ⟨node, false⟩) := by
    rw [foldExpr, h]
    rfl
  cases node with
  | literal => rfl
  | _ => exact hparen

theorem foldNot_again {operand : Rewrite Expr}
    (h : foldExpr method operand.node = .ok ⟨operand.node, false⟩) :
    foldExpr method (foldNot operand).node = .ok ⟨(foldNot operand).node, false⟩ := by
  obtain ⟨node, changed⟩ := operand
  have hnot : foldExpr method (.not node) = .ok (foldNot ⟨node, false⟩) := by
    rw [foldExpr, h]
    rfl
  cases node with
  | literal value => cases value <;> rfl
  | _ => exact hnot

/-- What an operator leaves is a literal, or an operator that it leaves again. -/
theorem foldBinary_again {op : BinOp} {left right result : Rewrite Expr}
    (hleft : foldExpr method left.node = .ok ⟨left.node, false⟩)
    (hright : foldExpr method right.node = .ok ⟨right.node, false⟩)
    (h : foldBinary method op left right = .ok result) :
    foldExpr method result.node = .ok ⟨result.node, false⟩ := by
  have hagain : foldExpr method (.binary op left.node right.node) =
      foldBinary method op ⟨left.node, false⟩ ⟨right.node, false⟩ := by
    rw [foldExpr, hleft, hright]
    rfl
  rw [foldBinary] at h hagain
  dsimp only at hagain
  split at h
  · rename_i l r hl hr
    obtain ⟨folded, heval, h⟩ := except_bind h
    cases folded with
    | some value =>
      cases h
      rfl
    | none =>
      cases h
      rw [hagain, hl, hr]
      dsimp only
      rw [heval]
      rfl
  · rename_i hvalues
    cases h
    rw [hagain]
    split
    · rename_i l r hl hr
      exact (hvalues l r hl hr).elim
    · rfl

mutual

theorem foldExpr_again : ∀ (e : Expr) {r : Rewrite Expr}, foldExpr method e = .ok r →
    foldExpr method r.node = .ok ⟨r.node, false⟩
  | .literal _, r, h | .self, r, h | .var _, r, h | .newObject _, r, h => by
    rw [foldExpr] at h
    cases h
    rfl
  | .paren inner, r, h => by
    rw [foldExpr] at h
    obtain ⟨i, hi, h⟩ := except_bind h
    cases h
    exact foldParen_again (foldExpr_again inner hi)
  | .not operand, r, h => by
    rw [foldExpr] at h
    obtain ⟨o, ho, h⟩ := except_bind h
    cases h
    exact foldNot_again (foldExpr_again operand ho)
  | .binary op left right, r, h => by
    rw [foldExpr] at h
    obtain ⟨l, hl, h⟩ := except_bind h
    obtain ⟨r, hr, h⟩ := except_bind h
    exact foldBinary_again (foldExpr_again left hl) (foldExpr_again right hr) h
  | .newArray element size, r, h => by
    rw [foldExpr] at h
    obtain ⟨s, hs, h⟩ := except_bind h
    cases h
    rw [Rewrite.map, foldExpr, foldExpr_again size hs]
    rfl
  | .arrayLiteral elements, r, h => by
    rw [foldExpr] at h
    obtain ⟨es, hes, h⟩ := except_bind h
    cases h
    rw [Rewrite.map, foldExpr, foldExprs_again elements hes]
    rfl
  | .index array index, r, h => by
    rw [foldExpr] at h
    obtain ⟨a, ha, h⟩ := except_bind h
    obtain ⟨i, hi, h⟩ := except_bind h
    cases h
    rw [Rewrite.map₂, foldExpr, foldExpr_again array ha, foldExpr_again index hi]
    rfl
  | .length array, r, h => by
    rw [foldExpr] at h
    obtain ⟨a, ha, h⟩ := except_bind h
    cases h
    rw [Rewrite.map, foldExpr, foldExpr_again array ha]
    rfl
  | .call target name args, r, h => by
    rw [foldExpr] at h
    obtain ⟨t, ht, h⟩ := except_bind h
    obtain ⟨as, has, h⟩ := except_bind h
    cases h
    rw [Rewrite.map₂, foldExpr, foldExpr_again target ht, foldExprs_again args has]
    rfl

theorem foldExprs_again : ∀ (es : List Expr) {r : Rewrite (List Expr)},
    foldExprs method es = .ok r → foldExprs method r.node = .ok ⟨r.node, false⟩
  | [], r, h => by
    rw [foldExprs] at h
    cases h
    rfl
  | e :: rest, r, h => by
    rw [foldExprs] at h
    obtain ⟨e', he, h⟩ := except_bind h
    obtain ⟨rest', hrest, h⟩ := except_bind h
    cases h
    rw [Rewrite.map₂, foldExprs, foldExpr_again e he, foldExprs_again rest hrest]
    rfl

end

mutual

theorem foldStmt_again : ∀ (s : Stmt) {r : Rewrite Stmt}, foldStmt method s = .ok r →
    foldStmt method r.node = .ok ⟨r.node, false⟩
  | .assign target value, r, h => by
    rw [foldStmt] at h
    obtain ⟨v, hv, h⟩ := except_bind h
    cases h
    rw [Rewrite.map, foldStmt, foldExpr_again value hv]
    rfl
  | .arrayAssign target index value, r, h => by
    rw [foldStmt] at h
    obtain ⟨i, hi, h⟩ := except_bind h
    obtain ⟨v, hv, h⟩ := except_bind h
    cases h
    rw [Rewrite.map₂, foldStmt, foldExpr_again index hi, foldExpr_again value hv]
    rfl
  | .ite condition thenBranch elseBranch, r, h => by
    rw [foldStmt] at h
    obtain ⟨c, hc, h⟩ := except_bind h
    obtain ⟨t, ht, h⟩ := except_bind h
    obtain ⟨e, he, h⟩ := except_bind h
    cases h
    rw [Rewrite.map₃, foldStmt, foldExpr_again condition hc, foldStmt_again thenBranch ht,
      foldStmt_again elseBranch he]
    rfl
  | .loop condition body, r, h => by
    rw [foldStmt] at h
    obtain ⟨c, hc, h⟩ := except_bind h
    obtain ⟨b, hb, h⟩ := except_bind h
    cases h
    rw [Rewrite.map₂, foldStmt, foldExpr_again condition hc, foldStmt_again body hb]
    rfl
  | .block body, r, h => by
    rw [foldStmt] at h
    obtain ⟨b, hb, h⟩ := except_bind h
    cases h
    rw [Rewrite.map, foldStmt, foldStmts_again body hb]
    rfl
  | .ret none, r, h => by
    rw [foldStmt] at h
    cases h
    rfl
  | .ret (some value), r, h => by
    rw [foldStmt] at h
    obtain ⟨v, hv, h⟩ := except_bind h
    cases h
    rw [Rewrite.map, foldStmt, foldExpr_again value hv]
    rfl
  | .expr value, r, h => by
    rw [foldStmt] at h
    obtain ⟨v, hv, h⟩ := except_bind h
    cases h
    rw [Rewrite.map, foldStmt, foldExpr_again value hv]
    rfl

theorem foldStmts_again : ∀ (body : List Stmt) {r : Rewrite (List Stmt)},
    foldStmts method body = .ok r → foldStmts method r.node = .ok ⟨r.node, false⟩
  | [], r, h => by
    rw [foldStmts] at h
    cases h
    rfl
  | s :: rest, r, h => by
    rw [foldStmts] at h
    obtain ⟨s', hs, h⟩ := except_bind h
    obtain ⟨rest', hrest, h⟩ := except_bind h
    cases h
    rw [Rewrite.map₂, foldStmts, foldStmt_again s hs, foldStmts_again rest hrest]
    rfl

end

/-! ## Methods -/

theorem fold_folds (m : Method) : FoldsInto m.name (∃ e ∈ Stmt.exprsIn m.body, e.DividesByZero)
    { m with body := Stmt.mapExprsIn Expr.replaceConstants m.body } (fold m) :=
  (foldStmts_fold m.body).map fun body => { m with body }

theorem fold_again {m : Method} {r : Rewrite Method} (h : fold m = .ok r) :
    fold r.node = .ok ⟨r.node, false⟩ := by
  obtain ⟨body, hbody, h⟩ := except_bind h
  cases h
  rw [Rewrite.map, fold, foldStmts_again m.body hbody]
  rfl

/-- Folding fails exactly where a constant integer is divided by a constant zero. Otherwise it
replaces the outermost constant parts of each expression by their literals and keeps everything
else, after which there is nothing left to fold. -/
theorem fold_replaces_constants :
    (∀ method e, FoldsInto method e.DividesByZero e.replaceConstants (foldExpr method e)) ∧
    (∀ method s, FoldsInto method (∃ e ∈ s.exprs, e.DividesByZero)
      (s.mapExprs Expr.replaceConstants) (foldStmt method s)) ∧
    ∀ m, FoldsInto m.name (∃ e ∈ Stmt.exprsIn m.body, e.DividesByZero)
        { m with body := Stmt.mapExprsIn Expr.replaceConstants m.body } (fold m) ∧
      ∀ r, fold m = .ok r → fold r.node = .ok ⟨r.node, false⟩ :=
  ⟨fun _ => foldExpr_folds, fun _ => foldStmt_folds, fun m => ⟨fold_folds m, fun _ => fold_again⟩⟩

/-- A call with the most negative integer divided by minus one in its argument. -/
def overflowingQuotient : Method where
  name := "overflow"
  returnTy := .void
  params := [{ name := "x", ty := .int }]
  body := [.expr (.call .self "print" [.binary .add (.var "x")
    (.paren (.binary .div (.literal (.int (-2147483648))) (.literal (.int (-1)))))])]

theorem fold_replaces_constants_overflow : ∃ r, fold overflowingQuotient = .ok r ∧
    r.node.body = [.expr (.call .self "print"
      [.binary .add (.var "x") (.literal (.int (-2147483648)))])] ∧
    fold r.node = .ok ⟨r.node, false⟩ :=
  ⟨_, rfl, rfl, (fold_replaces_constants.2.2 overflowingQuotient).2 _ rfl⟩

end Constants

end MiniJava
