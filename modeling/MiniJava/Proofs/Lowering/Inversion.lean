import MiniJava.Lowering.Stmt
import MiniJava.Proofs.Success

/-!
# What lowering goes through

Where one of the small functions of the lowering gives code, the lowering of its parts gave code one
after another, and the result is put together from theirs. Proofs about lowered code start here and do
not open the functions again.
-/

namespace MiniJava.Lowering

open Ir (Instr Operand Value)

variable {sc : Scope} {k k' : Counters} {l : Lowered} {code : List Instr} {x y : Lower Lowered}

/-! ## Operands -/

theorem require_eq_ok {role : OperandRole} {o : Operand} (h : l.require role = .ok o) :
    l.operand = some o := by
  rw [Lowered.require] at h
  cases ho : l.operand with
  | some o' =>
    rw [ho] at h
    cases h
    rfl
  | none =>
    rw [ho] at h
    cases h

theorem elementTy_ok {name : String} {o : Operand} {element : Ty}
    (h : elementTy name o = .ok element) : o.ty = .array element := by
  rw [elementTy] at h
  cases hty : o.ty <;> rw [hty] at h <;> cases h
  rfl

theorem gives_freshTemp {ty : Ty} {o : Operand} (h : Gives (freshTemp ty) k o k') :
    o = .temp k.temps ty ∧ k' = { k with temps := k.temps + 1 } := by
  cases h
  exact ⟨rfl, rfl⟩

theorem gives_freshLabel {n : Nat} (h : Gives freshLabel k n k') :
    n = k.labels ∧ k' = { k with labels := k.labels + 1 } := by
  cases h
  exact ⟨rfl, rfl⟩

theorem gives_compute {ty : Ty} {value : Value} (h : Gives (compute code ty value) k l k') :
    l = { code := code ++ [.assignVar (.temp k.temps ty) value]
          operand := some (.temp k.temps ty) } ∧
      k' = { k with temps := k.temps + 1 } := by
  cases h
  exact ⟨rfl, rfl⟩

/-! ## Operators -/

theorem lowerBinary_gives {op : Ir.BinOp} (h : Gives (lowerBinary op x y) k l k') :
    ∃ l₁ k₁ l₂ k₂ u v, Gives x k l₁ k₁ ∧ Gives y k₁ l₂ k₂ ∧ l₁.operand = some u ∧
      l₂.operand = some v ∧
      Gives (compute (l₁.code ++ l₂.code) op.resultTy (.binary op u v)) k₂ l k' := by
  rw [lowerBinary] at h
  obtain ⟨l₁, k₁, hx, h⟩ := h.bind
  obtain ⟨l₂, k₂, hy, h⟩ := h.bind
  obtain ⟨u, hu, h⟩ := h.lift_bind
  obtain ⟨v, hv, h⟩ := h.lift_bind
  exact ⟨l₁, k₁, l₂, k₂, u, v, hx, hy, require_eq_ok hu, require_eq_ok hv, h⟩

theorem lowerNot_gives (h : Gives (lowerNot x) k l k') :
    ∃ l₁ k₁ u, Gives x k l₁ k₁ ∧ l₁.operand = some u ∧
      Gives (compute l₁.code .boolean (.not u)) k₁ l k' := by
  rw [lowerNot] at h
  obtain ⟨l₁, k₁, hx, h⟩ := h.bind
  obtain ⟨u, hu, h⟩ := h.lift_bind
  exact ⟨l₁, k₁, u, hx, require_eq_ok hu, h⟩

theorem lowerNewArray_gives {element : Ty} (h : Gives (lowerNewArray element x) k l k') :
    ∃ l₁ k₁ u, Gives x k l₁ k₁ ∧ l₁.operand = some u ∧
      Gives (compute l₁.code (.array element) (.call (.newArray element u))) k₁ l k' := by
  rw [lowerNewArray] at h
  obtain ⟨l₁, k₁, hx, h⟩ := h.bind
  obtain ⟨u, hu, h⟩ := h.lift_bind
  exact ⟨l₁, k₁, u, hx, require_eq_ok hu, h⟩

theorem lowerLength_gives {name : String} (h : Gives (lowerLength name x) k l k') :
    ∃ l₁ k₁ u element, Gives x k l₁ k₁ ∧ l₁.operand = some u ∧ u.ty = .array element ∧
      Gives (compute l₁.code .int (.call (.arrayLength u))) k₁ l k' := by
  rw [lowerLength] at h
  obtain ⟨l₁, k₁, hx, h⟩ := h.bind
  obtain ⟨u, hu, h⟩ := h.lift_bind
  obtain ⟨element, helement, h⟩ := h.lift_bind
  exact ⟨l₁, k₁, u, element, hx, require_eq_ok hu, elementTy_ok helement, h⟩

theorem lowerIndex_gives {name : String} (h : Gives (lowerIndex name x y) k l k') :
    ∃ l₁ k₁ l₂ k₂ u v element, Gives x k l₁ k₁ ∧ Gives y k₁ l₂ k₂ ∧ l₁.operand = some u ∧
      l₂.operand = some v ∧ u.ty = .array element ∧
      Gives (compute (l₁.code ++ l₂.code) element (.arrayLoad u v element)) k₂ l k' := by
  rw [lowerIndex] at h
  obtain ⟨l₁, k₁, hx, h⟩ := h.bind
  obtain ⟨u, hu, h⟩ := h.lift_bind
  obtain ⟨element, helement, h⟩ := h.lift_bind
  obtain ⟨l₂, k₂, hy, h⟩ := h.bind
  obtain ⟨v, hv, h⟩ := h.lift_bind
  exact ⟨l₁, k₁, l₂, k₂, u, v, element, hx, hy, require_eq_ok hu, require_eq_ok hv,
    elementTy_ok helement, h⟩

/-- The label and the result of a logical operator are numbered between its operands. -/
theorem lowerAnd_gives (h : Gives (lowerAnd none x y) k l k') :
    ∃ l₁ k₁ l₂ u v, Gives x k l₁ k₁ ∧ Gives y ⟨k₁.temps + 1, k₁.labels + 1⟩ l₂ k' ∧
      l₁.operand = some u ∧ l₂.operand = some v ∧
      l = {
        operand := some (.temp k₁.temps .boolean)
        code := l₁.code ++ [.condGoto (.operand u) (.numbered .andRight k₁.labels),
            .assignVar (.temp k₁.temps .boolean) (.operand (.bool false)),
            .goto (.numbered .andEnd k₁.labels), .label (.numbered .andRight k₁.labels)]
          ++ l₂.code ++ [.assignVar (.temp k₁.temps .boolean) (.operand v),
            .label (.numbered .andEnd k₁.labels)] } := by
  rw [lowerAnd] at h
  obtain ⟨l₁, k₁, hx, h⟩ := h.bind
  obtain ⟨u, hu, h⟩ := h.lift_bind
  obtain ⟨n, k₂, hlabel, h⟩ := h.bind
  obtain ⟨rfl, rfl⟩ := gives_freshLabel hlabel
  obtain ⟨result, k₃, htemp, h⟩ := h.bind
  obtain ⟨rfl, rfl⟩ := gives_freshTemp htemp
  obtain ⟨l₂, k₄, hy, h⟩ := h.bind
  obtain ⟨v, hv, h⟩ := h.lift_bind
  obtain ⟨rfl, rfl⟩ := Gives.pure_iff.mp h
  exact ⟨l₁, k₁, l₂, u, v, hx, hy, require_eq_ok hu, require_eq_ok hv, rfl⟩

theorem lowerOr_gives (h : Gives (lowerOr none x y) k l k') :
    ∃ l₁ k₁ l₂ u v, Gives x k l₁ k₁ ∧ Gives y ⟨k₁.temps + 1, k₁.labels + 1⟩ l₂ k' ∧
      l₁.operand = some u ∧ l₂.operand = some v ∧
      l = {
        operand := some (.temp k₁.temps .boolean)
        code := l₁.code ++ [.condGoto (.operand u) (.numbered .orTrue k₁.labels)]
          ++ l₂.code ++ [.assignVar (.temp k₁.temps .boolean) (.operand v),
            .goto (.numbered .orEnd k₁.labels), .label (.numbered .orTrue k₁.labels),
            .assignVar (.temp k₁.temps .boolean) (.operand (.bool true)),
            .label (.numbered .orEnd k₁.labels)] } := by
  rw [lowerOr] at h
  obtain ⟨l₁, k₁, hx, h⟩ := h.bind
  obtain ⟨u, hu, h⟩ := h.lift_bind
  obtain ⟨n, k₂, hlabel, h⟩ := h.bind
  obtain ⟨rfl, rfl⟩ := gives_freshLabel hlabel
  obtain ⟨result, k₃, htemp, h⟩ := h.bind
  obtain ⟨rfl, rfl⟩ := gives_freshTemp htemp
  obtain ⟨l₂, k₄, hy, h⟩ := h.bind
  obtain ⟨v, hv, h⟩ := h.lift_bind
  obtain ⟨rfl, rfl⟩ := Gives.pure_iff.mp h
  exact ⟨l₁, k₁, l₂, u, v, hx, hy, require_eq_ok hu, require_eq_ok hv, rfl⟩

/-! ## Effects and conditions -/

theorem lowerEffect_cases {P : Expr → Lower Lowered → Prop}
    (call : ∀ target method args, P (.call target method args)
      (lowerCall sc (lowerTarget sc target (lowerExpr sc none target)) method
        (fun formals => lowerArgs sc formals args) none true))
    (value : ∀ e, (∀ inner, e ≠ .paren inner) → (∀ target method args, e ≠ .call target method args) →
      P e (lowerExpr sc none e))
    (e : Expr) : P e.stripParens (lowerEffect sc e) := by
  induction e using Expr.stripParens.induct with
  | case1 inner ih =>
    rw [lowerEffect]
    exact ih
  | case2 e hparen =>
    rw [Expr.stripParens.eq_2 e hparen]
    by_cases hcall : ∃ target method args, e = .call target method args
    · obtain ⟨target, method, args, rfl⟩ := hcall
      rw [lowerEffect]
      exact call target method args
    · have hne : ∀ target method args, e ≠ .call target method args :=
        fun target method args heq => hcall ⟨target, method, args, heq⟩
      rw [lowerEffect.eq_3 sc e hparen hne]
      exact value e hparen hne

theorem lowerCondition_cases {P : Expr → Lower (List Instr × Value) → Prop}
    (less : ∀ left right, P (.binary .lt left right) (do
      let l ← lowerExpr sc (some .int) left
      let r ← lowerExpr sc (some .int) right
      let x ← l.require .leftOfLess
      let y ← r.require .rightOfLess
      return (l.code ++ r.code, .binary .lt x y)))
    (value : ∀ e, P e (do
      let l ← lowerExpr sc (some .boolean) e
      let test ← l.require .condition
      return (l.code, .operand test)))
    (e : Expr) : P e.stripParens (lowerCondition sc e) := by
  induction e using Expr.stripParens.induct with
  | case1 inner ih =>
    rw [lowerCondition]
    exact ih
  | case2 e hparen =>
    rw [Expr.stripParens.eq_2 e hparen]
    by_cases hless : ∃ left right, e = .binary .lt left right
    · obtain ⟨left, right, rfl⟩ := hless
      rw [lowerCondition]
      exact less left right
    · rw [lowerCondition.eq_3 sc e hparen fun left right heq => hless ⟨left, right, heq⟩]
      exact value e

/-! ## Statements -/

theorem lowerArrayAssign_gives {target : String} {value : Option Ty → Lower Lowered}
    (h : Gives (lowerArrayAssign sc target x value) k code k') :
    ∃ l₁ k₁ l₂ k₂ l₃ array i v element, Gives (lowerVar sc target) k l₁ k₁ ∧ Gives x k₁ l₂ k₂ ∧
      Gives (value (some element)) k₂ l₃ k' ∧ l₁.operand = some array ∧ l₂.operand = some i ∧
      l₃.operand = some v ∧ array.ty = .array element ∧
      code = l₁.code ++ l₂.code ++ l₃.code ++ [.assign (.element array i element) (.operand v)] := by
  rw [lowerArrayAssign] at h
  obtain ⟨l₁, k₁, harray, h⟩ := h.bind
  obtain ⟨array, ho₁, h⟩ := h.lift_bind
  obtain ⟨element, helement, h⟩ := h.lift_bind
  obtain ⟨l₂, k₂, hi, h⟩ := h.bind
  obtain ⟨i, ho₂, h⟩ := h.lift_bind
  obtain ⟨l₃, k₃, hv, h⟩ := h.bind
  obtain ⟨v, ho₃, h⟩ := h.lift_bind
  obtain ⟨rfl, rfl⟩ := Gives.pure_iff.mp h
  exact ⟨l₁, k₁, l₂, k₂, l₃, array, i, v, element, harray, hi, hv, require_eq_ok ho₁,
    require_eq_ok ho₂, require_eq_ok ho₃, elementTy_ok helement, rfl⟩

theorem lowerReturn_gives {value : Option Ty → Lower Lowered}
    (h : Gives (lowerReturn sc value) k code k') :
    ∃ d l v, sc.method = some d ∧ Gives (value (some d.returnTy)) k l k' ∧ l.operand = some v ∧
      code = l.code ++ [.ret (some v)] := by
  rw [lowerReturn] at h
  obtain ⟨d, hd, h⟩ := h.lift_bind
  rw [Scope.currentMethod] at hd
  cases hmethod : sc.method with
  | none =>
    rw [hmethod] at hd
    cases hd
  | some d' =>
    rw [hmethod] at hd
    cases hd
    obtain ⟨l, k₁, hl, h⟩ := h.bind
    obtain ⟨v, hv, h⟩ := h.lift_bind
    obtain ⟨rfl, rfl⟩ := Gives.pure_iff.mp h
    exact ⟨d, l, v, rfl, hl, require_eq_ok hv, rfl⟩

/-- A conditional: the other branch is lowered before the one that is jumped to. -/
theorem lowerIf_gives {condition : Lower (List Instr × Value)}
    {thenBranch elseBranch : Lower (List Instr)} {returns : Bool}
    (h : Gives (lowerIf condition thenBranch elseBranch returns) k code k') :
    ∃ test value k₁ elseCode k₂ thenCode,
      Gives condition { k with labels := k.labels + 1 } (test, value) k₁ ∧
      Gives elseBranch k₁ elseCode k₂ ∧ Gives thenBranch k₂ thenCode k' ∧
      code = test ++ [.condGoto value (.numbered .thenBranch k.labels)] ++ elseCode
        ++ (if returns then [] else [.goto (.numbered .endIf k.labels)])
        ++ [.label (.numbered .thenBranch k.labels)] ++ thenCode
        ++ if returns then [] else [.label (.numbered .endIf k.labels)] := by
  rw [lowerIf] at h
  obtain ⟨n, k₁, hlabel, h⟩ := h.bind
  obtain ⟨rfl, rfl⟩ := gives_freshLabel hlabel
  obtain ⟨⟨test, value⟩, k₂, htest, h⟩ := h.bind
  obtain ⟨elseCode, k₃, helse, h⟩ := h.bind
  obtain ⟨thenCode, k₄, hthen, h⟩ := h.bind
  obtain ⟨rfl, rfl⟩ := Gives.pure_iff.mp h
  exact ⟨test, value, k₂, elseCode, k₃, thenCode, htest, helse, hthen, rfl⟩

/-- A loop: its body is lowered before its test. -/
theorem lowerLoop_gives {condition : Lower (List Instr × Value)} {body : Lower (List Instr)}
    (h : Gives (lowerLoop condition body) k code k') :
    ∃ bodyCode k₁ test value, Gives body { k with labels := k.labels + 1 } bodyCode k₁ ∧
      Gives condition k₁ (test, value) k' ∧
      code = [.goto (.numbered .loopCondition k.labels), .label (.numbered .loopBody k.labels)]
        ++ bodyCode ++ [.label (.numbered .loopCondition k.labels)] ++ test
        ++ [.condGoto value (.numbered .loopBody k.labels)] := by
  rw [lowerLoop] at h
  obtain ⟨n, k₁, hlabel, h⟩ := h.bind
  obtain ⟨rfl, rfl⟩ := gives_freshLabel hlabel
  obtain ⟨bodyCode, k₂, hbody, h⟩ := h.bind
  obtain ⟨⟨test, value⟩, k₃, htest, h⟩ := h.bind
  obtain ⟨rfl, rfl⟩ := Gives.pure_iff.mp h
  exact ⟨bodyCode, k₂, test, value, hbody, htest, rfl⟩

end MiniJava.Lowering
