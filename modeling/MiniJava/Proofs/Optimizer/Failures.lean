import MiniJava.Proofs.Compilation
import MiniJava.Proofs.Lowering.Failures

/-!
# Why the optimizer fails

Only folding can fail, and it does so only at a division of two literals of which the second one is
zero. The error names the method that the division stands in.
-/

namespace MiniJava

/-- Whatever error a computation ends in is the given one. -/
def FailsAs {ε α : Type} (e : ε) (x : Except ε α) : Prop := ∀ e', x = .error e' → e' = e

namespace FailsAs

variable {ε α β : Type} {e : ε}

theorem pure (a : α) : FailsAs e (Pure.pure a : Except ε α) := nofun

theorem bind {x : Except ε α} {f : α → Except ε β} (hx : FailsAs e x) (hf : ∀ a, FailsAs e (f a)) :
    FailsAs e (x >>= f) := by
  intro e' h
  rcases except_bind_error h with h | ⟨a, _, h⟩
  · exact hx e' h
  · exact hf a e' h

end FailsAs

theorem except_mapM_error {ε α β : Type} {f : α → Except ε β} {e : ε} : ∀ {items : List α},
    items.mapM f = .error e → ∃ item ∈ items, f item = .error e
  | [], h => by
    rw [List.mapM_nil] at h
    cases h
  | item :: rest, h => by
    rw [List.mapM_cons] at h
    rcases except_bind_error h with h | ⟨_, _, h⟩
    · exact ⟨item, List.mem_cons_self, h⟩
    · rcases except_bind_error h with h | ⟨_, _, h⟩
      · obtain ⟨item', hmem, h⟩ := except_mapM_error h
        exact ⟨item', List.mem_cons_of_mem _ hmem, h⟩
      · cases h

namespace Constants

/-! ## Folding -/

section Folding

variable (method : String)

theorem evalBinary_fails (op : BinOp) (l r : Literal) :
    FailsAs (.divisionByZero method) (evalBinary method op l r) := by
  intro e h
  unfold evalBinary at h
  split at h
  case h_4 =>
    split at h
    · cases h
      rfl
    · cases h
  all_goals cases h

theorem foldBinary_fails (op : BinOp) (l r : Rewrite Expr) :
    FailsAs (.divisionByZero method) (foldBinary method op l r) := by
  rw [foldBinary]
  split
  · refine (evalBinary_fails method op _ _).bind fun value => ?_
    cases value with
    | some _ => exact .pure _
    | none => exact .pure _
  · exact .pure _

mutual

theorem foldExpr_fails : ∀ (e : Expr), FailsAs (.divisionByZero method) (foldExpr method e)
  | .literal _ | .self | .var _ | .newObject _ => by
    rw [foldExpr]
    exact .pure _
  | .paren inner => by
    rw [foldExpr]
    exact (foldExpr_fails inner).bind fun _ => .pure _
  | .not operand => by
    rw [foldExpr]
    exact (foldExpr_fails operand).bind fun _ => .pure _
  | .binary op left right => by
    rw [foldExpr]
    exact (foldExpr_fails left).bind fun _ => (foldExpr_fails right).bind fun _ =>
      foldBinary_fails method op _ _
  | .newArray _ size => by
    rw [foldExpr]
    exact (foldExpr_fails size).bind fun _ => .pure _
  | .arrayLiteral elements => by
    rw [foldExpr]
    exact (foldExprs_fails elements).bind fun _ => .pure _
  | .index array index => by
    rw [foldExpr]
    exact (foldExpr_fails array).bind fun _ => (foldExpr_fails index).bind fun _ => .pure _
  | .length array => by
    rw [foldExpr]
    exact (foldExpr_fails array).bind fun _ => .pure _
  | .call target _ args => by
    rw [foldExpr]
    exact (foldExpr_fails target).bind fun _ => (foldExprs_fails args).bind fun _ => .pure _

theorem foldExprs_fails : ∀ (es : List Expr), FailsAs (.divisionByZero method) (foldExprs method es)
  | [] => by
    rw [foldExprs]
    exact .pure _
  | e :: rest => by
    rw [foldExprs]
    exact (foldExpr_fails e).bind fun _ => (foldExprs_fails rest).bind fun _ => .pure _

end

mutual

theorem foldStmt_fails : ∀ (s : Stmt), FailsAs (.divisionByZero method) (foldStmt method s)
  | .assign _ value => by
    rw [foldStmt]
    exact (foldExpr_fails method value).bind fun _ => .pure _
  | .arrayAssign _ index value => by
    rw [foldStmt]
    exact (foldExpr_fails method index).bind fun _ => (foldExpr_fails method value).bind fun _ =>
      .pure _
  | .ite condition thenBranch elseBranch => by
    rw [foldStmt]
    exact (foldExpr_fails method condition).bind fun _ => (foldStmt_fails thenBranch).bind fun _ =>
      (foldStmt_fails elseBranch).bind fun _ => .pure _
  | .loop condition body => by
    rw [foldStmt]
    exact (foldExpr_fails method condition).bind fun _ => (foldStmt_fails body).bind fun _ => .pure _
  | .block body => by
    rw [foldStmt]
    exact (foldStmts_fails body).bind fun _ => .pure _
  | .ret none => by
    rw [foldStmt]
    exact .pure _
  | .ret (some value) => by
    rw [foldStmt]
    exact (foldExpr_fails method value).bind fun _ => .pure _
  | .expr value => by
    rw [foldStmt]
    exact (foldExpr_fails method value).bind fun _ => .pure _

theorem foldStmts_fails : ∀ (body : List Stmt),
    FailsAs (.divisionByZero method) (foldStmts method body)
  | [] => by
    rw [foldStmts]
    exact .pure _
  | s :: rest => by
    rw [foldStmts]
    exact (foldStmt_fails s).bind fun _ => (foldStmts_fails rest).bind fun _ => .pure _

end

end Folding

/-! ## Methods and programs -/

theorem optimizeMethod_eq : ∀ (cap : Nat) {m m' : Method}, optimizeMethod m cap = .ok m' →
    m' = { m with body := m'.body }
  | 0, m, m', h => by
    cases h
    rfl
  | cap + 1, m, m', h => by
    obtain ⟨folded, hfold, h⟩ := except_bind h
    obtain ⟨body, _, hfold⟩ := except_bind hfold
    cases hfold
    split at h
    · have hrest := optimizeMethod_eq cap h
      exact hrest
    · cases h
      rfl

theorem optimizeMethod_fails : ∀ (cap : Nat) (m : Method),
    FailsAs (.divisionByZero m.name) (optimizeMethod m cap)
  | 0, m => .pure m
  | cap + 1, m => by
    intro e h
    rcases except_bind_error h with h | ⟨folded, hfold, h⟩
    · rcases except_bind_error h with h | ⟨_, _, h⟩
      · exact foldStmts_fails m.name _ e h
      · cases h
    · obtain ⟨body, _, hfold⟩ := except_bind hfold
      cases hfold
      split at h
      · have hrest := optimizeMethod_fails cap _ e h
        exact hrest
      · cases h

theorem optimizeProgram_fails {p : Program} {cap : Nat} {e : CompileError}
    (h : optimizeProgram p cap = .error e) :
    ∃ m ∈ p.mainClass.methods, e = .divisionByZero m.name := by
  rw [optimizeProgram] at h
  rcases except_bind_error h with h | ⟨_, _, h⟩
  · obtain ⟨m, hm, h⟩ := except_mapM_error h
    exact ⟨m, hm, optimizeMethod_fails cap m e h⟩
  · cases h

theorem ofMethods_optimized {cap : Nat} {ms ms' : List Method}
    (h : List.Forall₂ (fun m m' => optimizeMethod m cap = .ok m') ms ms') : ∀ seen,
      SymbolTable.ofMethods seen ms' = SymbolTable.ofMethods seen ms := by
  induction h with
  | nil => exact fun _ => rfl
  | cons hm _ ih =>
    intro seen
    rw [optimizeMethod_eq cap hm, SymbolTable.ofMethods, SymbolTable.ofMethods, ih]
    rfl

/-- An optimized program has the symbol table of the program, or none for the same reason. -/
theorem optimizeProgram_symbols {p p' : Program} {cap : Nat} (h : optimizeProgram p cap = .ok p') :
    SymbolTable.build p' = SymbolTable.build p := by
  obtain ⟨methods, rfl, hmethods⟩ := optimizeProgram_gives h
  rw [SymbolTable.build, SymbolTable.build, ofMethods_optimized hmethods]

end Constants

end MiniJava
