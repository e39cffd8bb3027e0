import MiniJava.Constants.Folding
import MiniJava.Proofs.Optimizer.Expressions
import MiniJava.Proofs.Success

/-!
# Folding keeps the meaning of a method

What folding makes of an expression may stand for it whatever the variables are, so a folded
statement does what the statement does.
-/

namespace MiniJava.Semantics

open Constants

variable {c : Context} {env : Locals} {method : String}

/-- A literal may stand for an expression that always gives its value and has its type. -/
theorem refines_literal {e : Expr} {value : Literal} (hclass : c.classTarget? e = none)
    (heval : ∀ hint, eval c env hint e = pure (c.platform.literal value))
    (hty : ∀ hint, typeOf c hint e = some value.ty) (heffect : effect c env e = pure ()) :
    ExprRefines c env env e (.literal value) where
  classTarget := hclass.symm
  eval hint := by
    rw [heval, eval]
    exact .refl _
  typeOf hint _ _ := by rw [hty, typeOf]
  effect := by
    rw [heffect]
    exact .refl _

/-! ## Folding of one node -/

theorem eval_strict_literals {op : BinOp} (hop : decider? op = none) (l r : Literal)
    (hint : Option Ty) :
    eval c env hint (.binary op (.literal l) (.literal r)) =
      strict c.platform op (c.platform.literal l) (c.platform.literal r) := by
  rw [eval_strict hop, eval, eval]
  rfl

theorem eval_logical_literals {op : BinOp} {decider : Bool} (hop : decider? op = some decider)
    (x y : Bool) (hint : Option Ty) :
    eval c env hint (.binary op (.literal (.bool x)) (.literal (.bool y))) =
      pure (c.platform.truth (if x = decider then decider else y)) := by
  rw [eval_logical hop, eval, eval, typeOf, shortCircuit, pure_bind, Platform.literal,
    c.platform.test_truth, pure_bind]
  by_cases hx : x = decider
  · rw [if_pos hx, if_pos hx]
  · rw [if_neg hx, if_neg hx]
    show c.platform.test (c.platform.truth y) >>= _ = _
    rw [c.platform.test_truth, pure_bind]

theorem evalBinary_eval {op : BinOp} {l r value : Literal}
    (h : evalBinary method op l r = .ok (some value)) (hint : Option Ty) :
    eval c env hint (.binary op (.literal l) (.literal r)) = pure (c.platform.literal value) := by
  unfold evalBinary at h
  split at h
  case h_4 x y =>
    by_cases hzero : y = 0
    · rw [if_pos hzero] at h
      cases h
    · rw [if_neg hzero] at h
      cases h
      rw [eval_strict_literals rfl]
      exact if_neg hzero
  case h_6 x y =>
    cases h
    rw [eval_logical_literals rfl]
    cases x <;> rfl
  case h_7 x y =>
    cases h
    rw [eval_logical_literals rfl]
    cases x <;> rfl
  case h_8 => cases h
  all_goals
    cases h
    rw [eval_strict_literals rfl]
    rfl

theorem evalBinary_typeOf {op : BinOp} {l r value : Literal}
    (h : evalBinary method op l r = .ok (some value)) (hint : Option Ty) :
    typeOf c hint (.binary op (.literal l) (.literal r)) = some value.ty := by
  unfold evalBinary at h
  split at h
  case h_4 x y =>
    split at h
    · cases h
    · cases h
      rw [typeOf]
      rfl
  case h_6 x y =>
    cases h
    rw [typeOf, typeOf]
    exact ite_self _
  case h_7 x y =>
    cases h
    rw [typeOf, typeOf]
    exact ite_self _
  case h_8 => cases h
  all_goals
    cases h
    rw [typeOf]
    rfl

theorem foldParen_refines {e : Expr} {r : Rewrite Expr} (h : ExprRefines c env env e r.node) :
    ExprRefines c env env (.paren e) (foldParen r).node := by
  rw [foldParen]
  split
  · next value hnode =>
    rw [hnode] at h
    refine h.paren.trans (refines_literal rfl (fun hint => ?_) (fun hint => ?_) rfl)
    · rw [eval, eval]
    · rw [typeOf, typeOf]
  · exact h.paren

theorem foldNot_refines {e : Expr} {r : Rewrite Expr} (h : ExprRefines c env env e r.node) :
    ExprRefines c env env (.not e) (foldNot r).node := by
  rw [foldNot]
  split
  · next value hnode =>
    rw [hnode] at h
    have heval : ∀ hint, eval c env hint (.not (.literal (.bool value))) =
        pure (c.platform.literal (.bool !value)) := by
      intro hint
      rw [eval, eval, pure_bind, Platform.literal, c.platform.test_truth]
      rfl
    refine h.not.trans (refines_literal rfl heval (fun hint => ?_) ?_)
    · rw [typeOf]
      rfl
    · show eval c env none _ >>= _ = _
      rw [heval]
      rfl
  · exact h.not

theorem foldBinary_refines {op : BinOp} {left right : Expr} {l r result : Rewrite Expr}
    (hl : ExprRefines c env env left l.node) (hr : ExprRefines c env env right r.node)
    (h : foldBinary method op l r = .ok result) :
    ExprRefines c env env (.binary op left right) result.node := by
  have hparts : ExprRefines c env env (.binary op left right) (.binary op l.node r.node) :=
    hl.binary hr
  rw [foldBinary] at h
  split at h
  · next a b ha hb =>
    rw [ha, hb] at hparts
    obtain ⟨folded, hfolded, h⟩ := except_bind h
    cases folded with
    | some value =>
      cases h
      have heval : ∀ hint, eval c env hint (.binary op (.literal a) (.literal b)) =
          pure (c.platform.literal value) := evalBinary_eval hfolded
      refine hparts.trans (refines_literal rfl heval (evalBinary_typeOf hfolded) ?_)
      show eval c env none _ >>= _ = _
      rw [heval]
      rfl
    | none =>
      cases h
      rw [ha, hb]
      exact hparts
  · cases h
    exact hparts

/-! ## The tree -/

mutual

theorem foldExpr_refines : ∀ (e : Expr) {r : Rewrite Expr}, foldExpr method e = .ok r →
    ExprRefines c env env e r.node
  | .literal value, r, h => by
    rw [foldExpr] at h
    cases h
    exact .refl_of_closed (fun _ => rfl) fun _ => rfl
  | .self, r, h => by
    rw [foldExpr] at h
    cases h
    exact .refl_of_closed (fun _ => rfl) fun _ => rfl
  | .var name, r, h => by
    rw [foldExpr] at h
    cases h
    exact .refl_of_closed (fun _ => rfl) fun _ => rfl
  | .newObject name, r, h => by
    rw [foldExpr] at h
    cases h
    exact .newObject name
  | .paren inner, r, h => by
    rw [foldExpr] at h
    obtain ⟨i, hi, h⟩ := except_bind h
    cases h
    exact foldParen_refines (foldExpr_refines inner hi)
  | .not operand, r, h => by
    rw [foldExpr] at h
    obtain ⟨o, ho, h⟩ := except_bind h
    cases h
    exact foldNot_refines (foldExpr_refines operand ho)
  | .binary op left right, r, h => by
    rw [foldExpr] at h
    obtain ⟨l, hl, h⟩ := except_bind h
    obtain ⟨r, hr, h⟩ := except_bind h
    exact foldBinary_refines (foldExpr_refines left hl) (foldExpr_refines right hr) h
  | .newArray element size, r, h => by
    rw [foldExpr] at h
    obtain ⟨s, hs, h⟩ := except_bind h
    cases h
    exact (foldExpr_refines size hs).newArray
  | .arrayLiteral elements, r, h => by
    rw [foldExpr] at h
    obtain ⟨es, hes, h⟩ := except_bind h
    cases h
    exact .arrayLiteral (foldExprs_refines elements hes)
  | .index array index, r, h => by
    rw [foldExpr] at h
    obtain ⟨a, ha, h⟩ := except_bind h
    obtain ⟨i, hi, h⟩ := except_bind h
    cases h
    exact (foldExpr_refines array ha).index (foldExpr_refines index hi)
  | .length array, r, h => by
    rw [foldExpr] at h
    obtain ⟨a, ha, h⟩ := except_bind h
    cases h
    exact (foldExpr_refines array ha).length
  | .call target name args, r, h => by
    rw [foldExpr] at h
    obtain ⟨t, ht, h⟩ := except_bind h
    obtain ⟨as, has, h⟩ := except_bind h
    cases h
    exact (foldExpr_refines target ht).call (foldExprs_refines args has) name

theorem foldExprs_refines : ∀ (es : List Expr) {r : Rewrite (List Expr)},
    foldExprs method es = .ok r → ExprsRefine c env env es r.node
  | [], r, h => by
    rw [foldExprs] at h
    cases h
    exact .nil
  | e :: rest, r, h => by
    rw [foldExprs] at h
    obtain ⟨e', he, h⟩ := except_bind h
    obtain ⟨rest', hrest, h⟩ := except_bind h
    cases h
    exact .cons (foldExpr_refines e he) (foldExprs_refines rest hrest)

end

/-! ## Statements -/

mutual

theorem foldStmt_simulates (fuel : Nat) : ∀ (s : Stmt) {r : Rewrite Stmt} (env : Locals),
    foldStmt method s = .ok r → Simulates Eq (exec c fuel s env) (exec c fuel r.node env)
  | .assign target value, r, env, h => by
    rw [foldStmt] at h
    obtain ⟨v, hv, h⟩ := except_bind h
    cases h
    exact assign_simulates (foldExpr_refines value hv) (fun _ _ _ _ => rfl) fun _ _ => rfl
  | .arrayAssign target index value, r, env, h => by
    rw [foldStmt] at h
    obtain ⟨i, hi, h⟩ := except_bind h
    obtain ⟨v, hv, h⟩ := except_bind h
    cases h
    exact arrayAssign_simulates (fun _ _ => .refl _) (foldExpr_refines index hi)
      (foldExpr_refines value hv) rfl
  | .ite condition thenBranch elseBranch, r, env, h => by
    rw [foldStmt] at h
    obtain ⟨test, htest, h⟩ := except_bind h
    obtain ⟨t, ht, h⟩ := except_bind h
    obtain ⟨e, he, h⟩ := except_bind h
    cases h
    refine .bind (holdsIn_refines (foldExpr_refines condition htest)) fun b => ?_
    cases b with
    | true => exact foldStmt_simulates fuel thenBranch env ht
    | false => exact foldStmt_simulates fuel elseBranch env he
  | .loop condition body, r, env, h => by
    rw [foldStmt] at h
    obtain ⟨test, htest, h⟩ := except_bind h
    obtain ⟨b, hb, h⟩ := except_bind h
    cases h
    refine .iterate (fun s t hst => ?_) (fun s t hst => ?_) fuel env env rfl
    · subst hst
      exact holdsIn_refines (foldExpr_refines condition htest)
    · subst hst
      exact foldStmt_simulates fuel body s hb
  | .block body, r, env, h => by
    rw [foldStmt] at h
    obtain ⟨b, hb, h⟩ := except_bind h
    cases h
    exact foldStmts_simulates fuel body env hb
  | .ret none, r, env, h => by
    rw [foldStmt] at h
    cases h
    exact .returned none
  | .ret (some value), r, env, h => by
    rw [foldStmt] at h
    obtain ⟨v, hv, h⟩ := except_bind h
    cases h
    exact .bind ((foldExpr_refines value hv).eval _) fun v => giveBack_simulates v
  | .expr value, r, env, h => by
    rw [foldStmt] at h
    obtain ⟨v, hv, h⟩ := except_bind h
    cases h
    exact .bind (foldExpr_refines value hv).effect fun _ => .next rfl

theorem foldStmts_simulates (fuel : Nat) : ∀ (body : List Stmt) {r : Rewrite (List Stmt)}
    (env : Locals), foldStmts method body = .ok r →
      Simulates Eq (execAll c fuel body env) (execAll c fuel r.node env)
  | [], r, env, h => by
    rw [foldStmts] at h
    cases h
    exact .next rfl
  | s :: rest, r, env, h => by
    rw [foldStmts] at h
    obtain ⟨s', hs, h⟩ := except_bind h
    obtain ⟨rest', hrest, h⟩ := except_bind h
    cases h
    refine .andThen (foldStmt_simulates fuel s env hs) fun t t' ht => ?_
    subst ht
    exact foldStmts_simulates fuel rest t hrest

end

theorem fold_signature {m : Method} {r : Rewrite Method} (h : fold m = .ok r) :
    Signature.ofMethod r.node = .ofMethod m := by
  obtain ⟨body, _, h⟩ := except_bind h
  cases h
  rfl

theorem fold_refines {m : Method} {r : Rewrite Method} (h : fold m = .ok r) (args : List Value)
    (fuel : Nat) : (c.run m.body args fuel).Refines (c.run r.node.body args fuel) := by
  obtain ⟨body, hbody, h⟩ := except_bind h
  cases h
  exact run_refines (foldStmts_simulates fuel m.body _ hbody)

end MiniJava.Semantics
