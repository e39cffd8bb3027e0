import MiniJava.Proofs.Lowering.Shape

/-!
# The code of statements and bodies

What statements add to the code of their expressions, and the shape of the code of a whole body. A
statement that ends with a return has code that does, so that nothing has to be put behind it.
-/

namespace MiniJava.Semantics

open Ir (Operand Instr)
open Lowering

variable {c : Context} {d : Method} {Φ : Instr → Prop}

/-! ## Instructions of statements -/

/-- The value that a branch tests. -/
inductive IsTest (c : Context) (e : Expr) : Ir.Value → Prop
  | less {left right : Expr} {x y : Operand} (he : e.stripParens = .binary .lt left right)
    (hx : typeOf c (some .int) left = some x.ty) (hy : typeOf c (some .int) right = some y.ty) :
    IsTest c e (.binary .lt x y)
  | operand {x : Operand} (hx : typeOf c (some .boolean) e = some x.ty) : IsTest c e (.operand x)

/-- What a statement adds to the code of its parts, labels and plain jumps left out. -/
inductive StmtInstr (c : Context) : Stmt → Instr → Prop
  | assign {target : String} {value : Expr} {ty : Ty} {x : Operand} (h : c.meaning target = .var ty)
    (hx : typeOf c (some ty) value = some x.ty) :
    StmtInstr c (.assign target value) (.assignVar (.var target ty) (.operand x))
  | putField {target : String} {value : Expr} {ty : Ty} {x : Operand}
    (h : c.meaning target = .field ty) (hx : typeOf c (some ty) value = some x.ty) :
    StmtInstr c (.assign target value) (.putField (.receiver c.symbols.className) target x)
  | element {target : String} {index value : Expr} {array x y : Operand} {element : Ty}
    (harray : c.nameTy? target = some array.ty) (helement : array.ty = .array element)
    (hx : typeOf c (some .int) index = some x.ty) (hy : typeOf c (some element) value = some y.ty) :
    StmtInstr c (.arrayAssign target index value) (.assign (.element array x element) (.operand y))
  | branch {condition : Expr} {thenBranch elseBranch : Stmt} {value : Ir.Value} {n : Nat}
    (h : IsTest c condition value) :
    StmtInstr c (.ite condition thenBranch elseBranch) (.condGoto value (.numbered .thenBranch n))
  | loop {condition : Expr} {body : Stmt} {value : Ir.Value} {n : Nat} (h : IsTest c condition value) :
    StmtInstr c (.loop condition body) (.condGoto value (.numbered .loopBody n))
  | ret : StmtInstr c (.ret none) (.ret none)
  | retValue {value : Expr} {x : Operand}
    (hx : typeOf c (some c.method.returnTy) value = some x.ty) :
    StmtInstr c (.ret (some value)) (.ret (some x))
  | call {value target : Expr} {method : String} {args : List Expr} {call : Ir.Call}
    (hvalue : value.stripParens = .call target method args)
    (h : IsCall c none true target method args call) : StmtInstr c (.expr value) (.call call)

/-! ## Effects and conditions -/

section Parts

variable {p : Rule}

theorem Expr.Keeps.stripParens {hint : Option Ty} (e : Expr) (h : Expr.Keeps c p hint e) :
    Expr.Keeps c p hint e.stripParens := by
  induction e using Expr.stripParens.induct with
  | case1 inner ih =>
    rw [Expr.Keeps] at h
    exact ih h.2
  | case2 e hparen => rwa [Expr.stripParens.eq_2 e hparen]

theorem lowerEffect_code (hc : c.method = .ofMethod d)
    (hΦ : ∀ ⦃hint e i⦄, Expr.Keeps c p hint e → NodeInstr c hint e i → Φ i) (e : Expr)
    (hkeeps : Expr.Keeps c p none e)
    (hcall : ∀ target method args call, e.stripParens = .call target method args →
      IsCall c none true target method args call → Φ (.call call)) {k k' : Counters} {l : Lowered}
    (h : Gives (lowerEffect (scopeOf c d) e) k l k') : Code c Φ [] k l.code [] k' := by
  refine lowerEffect_cases (P := fun e' x => e.stripParens = e' → Expr.Keeps c p none e' →
    Gives x k l k' → Code c Φ [] k l.code [] k') (fun target method args heq hkeeps h => ?_)
    (fun e' _ _ _ hkeeps h => ?_) e rfl hkeeps.stripParens h
  · have hparts := hkeeps
    rw [Expr.Keeps] at hparts
    obtain ⟨code, call, k₁, os, hcode, hreads, hmade, h⟩ := lowerCall_code hc
      (fun hclass => lowerExpr_codes hc hΦ _ target (hparts.2.1 hclass))
      (fun formals hformals => lowerArgs_codes hc hΦ formals args (by rw [hformals]; exact hparts.2.2)
        fun i hi => hΦ hkeeps (.packed (by rwa [hformals] at hi))) h
    simp only [Bool.true_or, if_true] at h
    obtain ⟨rfl, rfl⟩ := Gives.pure_iff.mp h
    refine .weaken (.effect hcode ⟨rfl, rfl, rfl⟩ (fun o ho => ?_)
      (hcall target method args call heq hmade)) (List.nil_subset _)
    exact (hreads o ho).imp id .inr
  · exact (lowerExpr_codes hc hΦ none e' hkeeps h).weaken (List.nil_subset _)

theorem lowerCondition_code (hc : c.method = .ofMethod d)
    (hΦ : ∀ ⦃hint e i⦄, Expr.Keeps c p hint e → NodeInstr c hint e i → Φ i) (e : Expr)
    (hkeeps : Expr.Keeps c p (some .boolean) e) {k k' : Counters} {code : List Instr}
    {value : Ir.Value} (h : Gives (lowerCondition (scopeOf c d) e) k (code, value) k') :
    IsTest c e value ∧ ∃ os, Code c Φ [] k code os k' ∧ ∀ o ∈ value.operands, o ∈ os := by
  refine lowerCondition_cases (P := fun e' x => e.stripParens = e' →
    Expr.Keeps c p (some .boolean) e' → Gives x k (code, value) k' → IsTest c e value ∧
      ∃ os, Code c Φ [] k code os k' ∧ ∀ o ∈ value.operands, o ∈ os)
    (fun left right heq hkeeps h => ?_) (fun e' heq hkeeps h => ?_) e rfl hkeeps.stripParens h
  · rw [Expr.Keeps] at hkeeps
    obtain ⟨l, k₁, gl, h⟩ := h.bind
    obtain ⟨r, k₂, gr, h⟩ := h.bind
    obtain ⟨x, hx, h⟩ := h.lift_bind
    obtain ⟨y, hy, h⟩ := h.lift_bind
    obtain ⟨hpair, rfl⟩ := Gives.pure_iff.mp h
    cases hpair
    replace hx := require_eq_ok hx
    replace hy := require_eq_ok hy
    refine ⟨.less heq ((lowerExpr_types hc _ left).operand gl hx)
      ((lowerExpr_types hc _ right).operand gr hy), _, ?_, fun o ho => ho⟩
    exact ((lowerExpr_codes hc hΦ _ left hkeeps.2.1).operand gl hx).append
      ((lowerExpr_codes hc hΦ _ right hkeeps.2.2).operand gr hy)
  · obtain ⟨l, k₁, gl, h⟩ := h.bind
    obtain ⟨o, ho, h⟩ := h.lift_bind
    obtain ⟨hpair, rfl⟩ := Gives.pure_iff.mp h
    cases hpair
    replace ho := require_eq_ok ho
    have hty := (lowerExpr_types hc _ e').operand gl ho
    rw [← heq, typeOf_stripParens] at hty
    exact ⟨.operand hty, _, (lowerExpr_codes hc hΦ _ e' hkeeps).operand gl ho, fun o ho => ho⟩

end Parts

/-! ## Statements -/

/-- Lowering gives code for statements. -/
def CodesStmt (c : Context) (Φ : Instr → Prop) (x : Lower (List Instr)) : Prop :=
  ∀ ⦃k code k'⦄, Gives x k code k' → Code c Φ [] k code [] k'

/-- Code whose last instruction is a return. -/
def EndsInReturn (code : List Instr) : Prop :=
  ∃ o, code.getLast? = some (.ret o)

theorem EndsInReturn.prepend {code : List Instr} (h : EndsInReturn code) (before : List Instr) :
    EndsInReturn (before ++ code) := by
  obtain ⟨o, h⟩ := h
  exact ⟨o, by rw [List.getLast?_append, h]; rfl⟩

section Statements

theorem lowerAssign_codes (hc : c.method = .ofMethod d) {target : String} {value : Expr}
    (hvalue : Codes c Φ (lowerExpr (scopeOf c d) (c.nameTy? target) value))
    (hΦ : ∀ i, StmtInstr c (.assign target value) i → Φ i) :
    CodesStmt c Φ (lowerAssign (scopeOf c d) target fun hint => lowerExpr (scopeOf c d) hint value) := by
  intro k code k' h
  obtain ⟨ty, l, o, i, gl, ho, hstore, rfl⟩ := lowerAssign_gives hc h
  rw [hstore.nameTy] at hvalue
  have hty := (lowerExpr_types hc _ value).operand gl ho
  cases hstore with
  | var hmeaning =>
    exact .weaken (.effect (hvalue.operand gl ho) ⟨rfl, rfl, rfl⟩ (fun o' ho' => .inl ho')
      (hΦ _ (.assign hmeaning hty))) (List.nil_subset _)
  | field hmeaning hstatic =>
    refine .weaken (.effect (hvalue.operand gl ho) ⟨rfl, rfl, rfl⟩ (fun o' ho' => ?_)
      (hΦ _ (.putField hmeaning hty))) (List.nil_subset _)
    rcases List.mem_cons.mp ho' with rfl | ho'
    · exact .inr (.inr ⟨rfl, hstatic⟩)
    · exact .inl ho'

theorem lowerArrayAssign_codes (hc : c.method = .ofMethod d) {target : String} {index value : Expr}
    (htarget : Codes c Φ (lowerVar (scopeOf c d) target))
    (hindex : Codes c Φ (lowerExpr (scopeOf c d) (some .int) index))
    (hvalue : Codes c Φ (lowerExpr (scopeOf c d) ((c.nameTy? target).bind (·.element?)) value))
    (hΦ : ∀ i, StmtInstr c (.arrayAssign target index value) i → Φ i) :
    CodesStmt c Φ (lowerArrayAssign (scopeOf c d) target (lowerExpr (scopeOf c d) (some .int) index)
      fun hint => lowerExpr (scopeOf c d) hint value) := by
  intro k code k' h
  obtain ⟨l₁, k₁, l₂, k₂, l₃, o₁, o₂, o₃, element, gx, gy, gz, ho₁, ho₂, ho₃, helement, rfl⟩ :=
    lowerArrayAssign_gives h
  have harray : c.nameTy? target = some o₁.ty := by
    have hty := (lowerExpr_types hc none (.var target)).operand (by rwa [lowerExpr]) ho₁
    rwa [typeOf] at hty
  have hhint : (c.nameTy? target).bind (·.element?) = some element := by
    rw [harray, Option.bind_some, helement]
    rfl
  rw [hhint] at hvalue
  refine .weaken (.effect (((htarget.operand gx ho₁).append (hindex.operand gy ho₂)).append
    (hvalue.operand gz ho₃)) ⟨rfl, rfl, rfl⟩ (fun o ho => .inl ?_) (hΦ _ (.element harray helement
      ((lowerExpr_types hc _ index).operand gy ho₂) ((lowerExpr_types hc _ value).operand gz ho₃))))
    (List.nil_subset _)
  simp only [Instr.usedOperands, Ir.Value.operands, List.mem_append, List.mem_cons,
    List.not_mem_nil, or_false] at ho ⊢
  rcases ho with rfl | rfl | rfl
  · exact .inr rfl
  · exact .inl (.inl rfl)
  · exact .inl (.inr rfl)

theorem lowerReturn_codes (hc : c.method = .ofMethod d) {value : Expr}
    (hvalue : Codes c Φ (lowerExpr (scopeOf c d) (some c.method.returnTy) value))
    (hΦ : ∀ i, StmtInstr c (.ret (some value)) i → Φ i) :
    CodesStmt c Φ (lowerReturn (scopeOf c d) fun hint => lowerExpr (scopeOf c d) hint value) := by
  intro k code k' h
  obtain ⟨d', l, o, hd, gl, ho, rfl⟩ := lowerReturn_gives h
  cases hd
  have hty : c.method.returnTy = d.returnTy := by rw [hc]; rfl
  rw [← hty] at gl
  exact .weaken (.effect (hvalue.operand gl ho) ⟨rfl, rfl, rfl⟩ (fun o' ho' => .inl ho')
    (hΦ _ (.retValue ((lowerExpr_types hc _ value).operand gl ho)))) (List.nil_subset _)

theorem lowerIf_codes {condition : Lower (List Instr × Ir.Value)} {thenBranch elseBranch :
    Lower (List Instr)} {returns : Bool}
    (hcondition : ∀ {k code value k'}, Gives condition k (code, value) k' →
      (∀ n, Φ (.condGoto value (.numbered .thenBranch n))) ∧
        ∃ os, Code c Φ [] k code os k' ∧ ∀ o ∈ value.operands, o ∈ os)
    (hthen : CodesStmt c Φ thenBranch) (helse : CodesStmt c Φ elseBranch)
    (hreturns : returns → ∀ {k code k'}, Gives elseBranch k code k' → EndsInReturn code) :
    CodesStmt c Φ (lowerIf condition thenBranch elseBranch returns) := by
  intro k code k' h
  obtain ⟨test, value, k₁, elseCode, k₂, thenCode, gtest, gelse, gthen, rfl⟩ := lowerIf_gives h
  obtain ⟨hΦ, os, htest, hreads⟩ := hcondition gtest
  exact .branch htest (fun o ho => .inl (hreads o ho)) (helse gelse) (hthen gthen)
    (fun h => hreturns h gelse) (hΦ _)

theorem lowerLoop_codes {condition : Lower (List Instr × Ir.Value)} {body : Lower (List Instr)}
    (hcondition : ∀ {k code value k'}, Gives condition k (code, value) k' →
      (∀ n, Φ (.condGoto value (.numbered .loopBody n))) ∧
        ∃ os, Code c Φ [] k code os k' ∧ ∀ o ∈ value.operands, o ∈ os)
    (hbody : CodesStmt c Φ body) : CodesStmt c Φ (lowerLoop condition body) := by
  intro k code k' h
  obtain ⟨bodyCode, k₁, test, value, gbody, gtest, rfl⟩ := lowerLoop_gives h
  obtain ⟨hΦ, os, htest, hreads⟩ := hcondition gtest
  exact .loop (hbody gbody) htest (fun o ho => .inl (hreads o ho)) (hΦ _)

end Statements

/-! ## Returns -/

mutual

theorem lowerStmt_returns {sc : Scope} : ∀ (s : Stmt), s.endsWithReturn →
    ∀ {k code k'}, Gives (lowerStmt sc s) k code k' → EndsInReturn code
  | .ret none, _, k, code, k', h => by
    rw [lowerStmt] at h
    obtain ⟨rfl, rfl⟩ := Gives.pure_iff.mp h
    exact ⟨none, rfl⟩
  | .ret (some value), _, k, code, k', h => by
    rw [lowerStmt] at h
    obtain ⟨_, l, o, _, _, _, rfl⟩ := lowerReturn_gives h
    exact EndsInReturn.prepend ⟨some o, rfl⟩ _
  | .block body, hends, k, code, k', h => by
    rw [lowerStmt] at h
    exact lowerStmts_returns body (by rwa [Stmt.endsWithReturn] at hends) h
  | .ite condition thenBranch elseBranch, hends, k, code, k', h => by
    rw [Stmt.endsWithReturn, Bool.and_eq_true] at hends
    rw [lowerStmt] at h
    obtain ⟨_, _, _, _, _, thenCode, _, _, gthen, rfl⟩ := lowerIf_gives h
    rw [hends.2, if_pos rfl, if_pos rfl, List.append_nil]
    exact (lowerStmt_returns thenBranch hends.1 gthen).prepend _

theorem lowerStmts_returns {sc : Scope} : ∀ (body : List Stmt), Stmt.lastEndsWithReturn body →
    ∀ {k code k'}, Gives (lowerStmts sc body) k code k' → EndsInReturn code
  | [s], hends, k, code, k', h => by
    rw [lowerStmts] at h
    obtain ⟨first, k₁, gfirst, h⟩ := h.bind
    obtain ⟨more, k₂, gmore, h⟩ := h.bind
    obtain ⟨rfl, rfl⟩ := Gives.pure_iff.mp h
    obtain ⟨rfl, rfl⟩ := Gives.pure_iff.mp gmore
    rw [List.append_nil]
    exact lowerStmt_returns s hends gfirst
  | s :: s' :: rest, hends, k, code, k', h => by
    rw [lowerStmts] at h
    obtain ⟨first, k₁, gfirst, h⟩ := h.bind
    obtain ⟨more, k₂, gmore, h⟩ := h.bind
    obtain ⟨rfl, rfl⟩ := Gives.pure_iff.mp h
    rw [Stmt.lastEndsWithReturn] at hends
    exact (lowerStmts_returns (s' :: rest) hends gmore).prepend _

end

/-! ## The tree -/

mutual

/-- The code of a statement has its shape, and a property that the instructions have that come from
expressions and statements that keep to rules. -/
theorem lowerStmt_codes (hc : c.method = .ofMethod d) {p : Rule} {q : Stmt → Prop}
    (hΦ : ∀ ⦃hint e i⦄, Expr.Keeps c p hint e → NodeInstr c hint e i → Φ i)
    (hΨ : ∀ ⦃s i⦄, Stmt.Keeps c p q s → StmtInstr c s i → Φ i) :
    ∀ (s : Stmt), Stmt.Keeps c p q s → CodesStmt c Φ (lowerStmt (scopeOf c d) s)
  | .assign target value, hkeeps, k, code, k', h => by
    have hparts := hkeeps
    rw [Stmt.Keeps] at hparts
    rw [lowerStmt] at h
    exact lowerAssign_codes hc (lowerExpr_codes hc hΦ _ value hparts.2) (fun i hi => hΨ hkeeps hi) h
  | .arrayAssign target index value, hkeeps, k, code, k', h => by
    have hparts := hkeeps
    rw [Stmt.Keeps] at hparts
    rw [lowerStmt] at h
    have hread : Expr.Keeps c p none (.var target) := by
      rw [Expr.Keeps]
      exact hparts.2.1
    exact lowerArrayAssign_codes hc
      (lowerVar_codes hc fun id ty hty => hΦ hread (.field hty))
      (lowerExpr_codes hc hΦ _ index hparts.2.2.1) (lowerExpr_codes hc hΦ _ value hparts.2.2.2)
      (fun i hi => hΨ hkeeps hi) h
  | .ite condition thenBranch elseBranch, hkeeps, k, code, k', h => by
    have hparts := hkeeps
    rw [Stmt.Keeps] at hparts
    rw [lowerStmt] at h
    refine lowerIf_codes (fun g => ?_) (lowerStmt_codes hc hΦ hΨ thenBranch hparts.2.2.1)
      (lowerStmt_codes hc hΦ hΨ elseBranch hparts.2.2.2)
      (fun hends _ _ _ g => lowerStmt_returns elseBranch hends g) h
    obtain ⟨htest, hcode⟩ := lowerCondition_code hc hΦ condition hparts.2.1 g
    exact ⟨fun n => hΨ hkeeps (.branch htest), hcode⟩
  | .loop condition body, hkeeps, k, code, k', h => by
    have hparts := hkeeps
    rw [Stmt.Keeps] at hparts
    rw [lowerStmt] at h
    refine lowerLoop_codes (fun g => ?_) (lowerStmt_codes hc hΦ hΨ body hparts.2.2) h
    obtain ⟨htest, hcode⟩ := lowerCondition_code hc hΦ condition hparts.2.1 g
    exact ⟨fun n => hΨ hkeeps (.loop htest), hcode⟩
  | .block body, hkeeps, k, code, k', h => by
    rw [Stmt.Keeps] at hkeeps
    rw [lowerStmt] at h
    exact lowerStmts_codes hc hΦ hΨ body hkeeps.2 h
  | .ret none, hkeeps, k, code, k', h => by
    rw [lowerStmt] at h
    obtain ⟨rfl, rfl⟩ := Gives.pure_iff.mp h
    exact .effect (a := []) .nil ⟨rfl, rfl, rfl⟩ nofun (hΨ hkeeps .ret)
  | .ret (some value), hkeeps, k, code, k', h => by
    have hparts := hkeeps
    rw [Stmt.Keeps] at hparts
    rw [lowerStmt] at h
    exact lowerReturn_codes hc (lowerExpr_codes hc hΦ _ value hparts.2) (fun i hi => hΨ hkeeps hi) h
  | .expr value, hkeeps, k, code, k', h => by
    have hparts := hkeeps
    rw [Stmt.Keeps] at hparts
    rw [lowerStmt] at h
    obtain ⟨l, k₁, gl, h⟩ := h.bind
    obtain ⟨rfl, rfl⟩ := Gives.pure_iff.mp h
    exact lowerEffect_code hc hΦ value hparts.2
      (fun target method args call hvalue hcall => hΨ hkeeps (.call hvalue hcall)) gl

theorem lowerStmts_codes (hc : c.method = .ofMethod d) {p : Rule} {q : Stmt → Prop}
    (hΦ : ∀ ⦃hint e i⦄, Expr.Keeps c p hint e → NodeInstr c hint e i → Φ i)
    (hΨ : ∀ ⦃s i⦄, Stmt.Keeps c p q s → StmtInstr c s i → Φ i) :
    ∀ (body : List Stmt), Stmt.AllKeep c p q body → CodesStmt c Φ (lowerStmts (scopeOf c d) body)
  | [], _, k, code, k', h => by
    obtain ⟨rfl, rfl⟩ := Gives.pure_iff.mp h
    exact .nil
  | s :: rest, hkeeps, k, code, k', h => by
    rw [Stmt.AllKeep] at hkeeps
    rw [lowerStmts] at h
    obtain ⟨first, k₁, gfirst, h⟩ := h.bind
    obtain ⟨more, k₂, gmore, h⟩ := h.bind
    obtain ⟨rfl, rfl⟩ := Gives.pure_iff.mp h
    exact (lowerStmt_codes hc hΦ hΨ s hkeeps.1 gfirst).append
      (lowerStmts_codes hc hΦ hΨ rest hkeeps.2 gmore)

end

theorem lowerBody_codes (hc : c.method = .ofMethod d) {p : Rule} {q : Stmt → Prop}
    (hΦ : ∀ ⦃hint e i⦄, Expr.Keeps c p hint e → NodeInstr c hint e i → Φ i)
    (hΨ : ∀ ⦃s i⦄, Stmt.Keeps c p q s → StmtInstr c s i → Φ i)
    (hend : d.returnTy.isVoid → Φ (.ret none)) (hkeeps : Stmt.AllKeep c p q d.body) :
    CodesStmt c Φ (lowerBody c.symbols d) := by
  intro k code k' h
  rw [lowerBody] at h
  obtain ⟨body, k₁, gbody, h⟩ := h.bind
  obtain ⟨rfl, rfl⟩ := Gives.pure_iff.mp h
  have hbody := lowerStmts_codes hc hΦ hΨ d.body hkeeps gbody
  by_cases hvoid : d.returnTy.isVoid && !d.endsWithReturn
  · rw [if_pos hvoid]
    rw [Bool.and_eq_true] at hvoid
    exact .effect hbody ⟨rfl, rfl, rfl⟩ nofun (hend hvoid.1)
  · rw [if_neg hvoid]
    exact hbody

/-- The code of a body ends with a return, if the method has no result or its last statement ends
with a return. -/
theorem lowerBody_returns {symbols : SymbolTable} {k k' : Counters} {code : List Instr}
    (hends : d.returnTy.isVoid ∨ d.endsWithReturn) (h : Gives (lowerBody symbols d) k code k') :
    EndsInReturn code := by
  rw [lowerBody] at h
  obtain ⟨body, k₁, gbody, h⟩ := h.bind
  obtain ⟨rfl, rfl⟩ := Gives.pure_iff.mp h
  by_cases hreturn : d.endsWithReturn
  · rw [hreturn, Bool.not_true, Bool.and_false, if_neg Bool.false_ne_true]
    exact lowerStmts_returns d.body hreturn gbody
  · rw [Bool.eq_false_iff.mpr hreturn, hends.resolve_right hreturn]
    exact EndsInReturn.prepend ⟨none, rfl⟩ _

end MiniJava.Semantics
