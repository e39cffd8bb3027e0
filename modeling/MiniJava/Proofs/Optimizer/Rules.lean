import MiniJava.Proofs.Optimizer.Simplification
import MiniJava.Proofs.Semantics.Rules

/-!
# Rules on optimized trees

A rule that says the same in every place goes over from a tree to what the optimizer makes of it, if
it goes over from each expression to what the expression becomes.
-/

namespace MiniJava.Semantics

open Constants

theorem becomes_literal {e e' : Expr} {value : Literal}
    (h : Simplifies AnyLiteral (.literal value) e') : Simplifies AnyLiteral e e' := by
  cases h
  exact .literal trivial

mutual

theorem simplifies_trans : ∀ (e : Expr) {e₁ e₂ : Expr}, Simplifies AnyLiteral e e₁ →
    Simplifies AnyLiteral e₁ e₂ → Simplifies AnyLiteral e e₂
  | .literal _, e₁, e₂, h, h' | .self, e₁, e₂, h, h' | .var _, e₁, e₂, h, h'
  | .newObject _, e₁, e₂, h, h' => by
    cases h with
    | literal => exact becomes_literal h'
    | _ => exact h'
  | .paren inner, e₁, e₂, h, h' => by
    cases h with
    | literal => exact becomes_literal h'
    | paren h =>
      cases h' with
      | literal => exact .literal trivial
      | paren h' => exact .paren (simplifies_trans inner h h')
  | .not operand, e₁, e₂, h, h' => by
    cases h with
    | literal => exact becomes_literal h'
    | not h =>
      cases h' with
      | literal => exact .literal trivial
      | not h' => exact .not (simplifies_trans operand h h')
  | .binary _ left right, e₁, e₂, h, h' => by
    cases h with
    | literal => exact becomes_literal h'
    | binary hl hr =>
      cases h' with
      | literal => exact .literal trivial
      | binary hl' hr' => exact .binary (simplifies_trans left hl hl') (simplifies_trans right hr hr')
  | .newArray _ size, e₁, e₂, h, h' => by
    cases h with
    | literal => exact becomes_literal h'
    | newArray h =>
      cases h' with
      | literal => exact .literal trivial
      | newArray h' => exact .newArray (simplifies_trans size h h')
  | .arrayLiteral elements, e₁, e₂, h, h' => by
    cases h with
    | literal => exact becomes_literal h'
    | arrayLiteral h =>
      cases h' with
      | literal => exact .literal trivial
      | arrayLiteral h' => exact .arrayLiteral (simplifiesAll_trans elements h h')
  | .index array index, e₁, e₂, h, h' => by
    cases h with
    | literal => exact becomes_literal h'
    | index ha hi =>
      cases h' with
      | literal => exact .literal trivial
      | index ha' hi' => exact .index (simplifies_trans array ha ha') (simplifies_trans index hi hi')
  | .length array, e₁, e₂, h, h' => by
    cases h with
    | literal => exact becomes_literal h'
    | length h =>
      cases h' with
      | literal => exact .literal trivial
      | length h' => exact .length (simplifies_trans array h h')
  | .call target _ args, e₁, e₂, h, h' => by
    cases h with
    | literal => exact becomes_literal h'
    | call ht hes =>
      cases h' with
      | literal => exact .literal trivial
      | call ht' hes' =>
        exact .call (simplifies_trans target ht ht') (simplifiesAll_trans args hes hes')

theorem simplifiesAll_trans : ∀ (es : List Expr) {es₁ es₂ : List Expr},
    SimplifiesAll AnyLiteral es es₁ → SimplifiesAll AnyLiteral es₁ es₂ →
      SimplifiesAll AnyLiteral es es₂
  | [], es₁, es₂, h, h' => by
    cases h
    exact h'
  | e :: rest, es₁, es₂, h, h' => by
    cases h with
    | cons h hes =>
      cases h' with
      | cons h' hes' => exact .cons (simplifies_trans e h h') (simplifiesAll_trans rest hes hes')

end

/-! ## Steady rules -/

/-- A rule that says the same in every place, of all that an expression may become. -/
structure Steady (T : Expr → Literal → Prop) (p : Rule) : Prop where
  literal : ∀ hint value, p hint (.literal value)
  step : ∀ {hint : Option Ty} {e e' : Expr}, p hint e → Simplifies T e e' → ∀ hint', p hint' e'

variable {c : Context} {T : Expr → Literal → Prop} {p : Rule}

theorem Expr.ItemsKeep.mem {es : List Expr} {hint : Option Ty} (h : Expr.ItemsKeep c p hint es) :
    ∀ e ∈ es, ∃ hint, Expr.Keeps c p hint e := by
  induction es with
  | nil => exact List.forall_mem_nil _
  | cons e rest ih =>
    rw [Expr.ItemsKeep] at h
    exact List.forall_mem_cons.mpr ⟨⟨hint, h.1⟩, ih h.2⟩

theorem Expr.ItemsKeep.of_mem {es : List Expr} {hint : Option Ty}
    (h : ∀ e ∈ es, ∀ hint, Expr.Keeps c p hint e) : Expr.ItemsKeep c p hint es := by
  induction es with
  | nil => exact trivial
  | cons e rest ih =>
    rw [List.forall_mem_cons] at h
    exact ⟨h.1 hint, ih h.2⟩

theorem Expr.ArgsKeep.mem {es : List Expr} {parameters : Parameters}
    (h : Expr.ArgsKeep c p parameters es) : ∀ e ∈ es, ∃ hint, Expr.Keeps c p hint e := by
  induction es generalizing parameters with
  | nil => exact List.forall_mem_nil _
  | cons e rest ih =>
    rw [Expr.ArgsKeep] at h
    cases hpacking : parameters.packing? with
    | some array =>
      rw [hpacking] at h
      exact List.forall_mem_cons.mpr ⟨⟨_, h.1⟩, h.2.mem⟩
    | none =>
      rw [hpacking] at h
      exact List.forall_mem_cons.mpr ⟨⟨_, h.1⟩, ih h.2⟩

theorem Expr.ArgsKeep.of_mem {es : List Expr} {parameters : Parameters}
    (h : ∀ e ∈ es, ∀ hint, Expr.Keeps c p hint e) : Expr.ArgsKeep c p parameters es := by
  induction es generalizing parameters with
  | nil => exact trivial
  | cons e rest ih =>
    rw [List.forall_mem_cons] at h
    rw [Expr.ArgsKeep]
    cases parameters.packing? with
    | some array => exact ⟨h.1 _, .of_mem h.2⟩
    | none => exact ⟨h.1 _, ih h.2⟩

/-- The name of a class stays what it is if literals only stand for names that have types. -/
theorem classTarget_simplifies {e e' : Expr}
    (hT : ∀ name value, T (.var name) value → c.nameTy? name ≠ none) (h : Simplifies T e e') :
    c.classTarget? e' = c.classTarget? e := by
  cases h with
  | @literal e value h =>
    cases e with
    | var name =>
      have hclass : c.meaning name ≠ .className := by
        intro hmeaning
        refine hT name value h ?_
        rw [Context.nameTy?, hmeaning]
      rw [Context.classTarget?, Context.classTarget?, if_neg hclass]
      intro name hname
      cases hname
    | _ => rfl
  | _ => rfl

mutual

theorem Steady.keeps (hp : Steady T p) : ∀ (e : Expr) {hint : Option Ty} {e' : Expr},
    Expr.Keeps c p hint e → Simplifies T e e' → ∀ hint', Expr.Keeps c p hint' e'
  | .literal _, hint, e', h, hs, hint' | .self, hint, e', h, hs, hint'
  | .var _, hint, e', h, hs, hint' | .newObject _, hint, e', h, hs, hint' => by
    have hstep := hp.step h.self hs hint'
    cases hs <;> exact hstep
  | .paren inner, hint, e', h, hs, hint' => by
    rw [Expr.Keeps] at h
    have hstep := hp.step h.1 hs hint'
    cases hs with
    | literal => exact hstep
    | paren hs => exact ⟨hstep, hp.keeps inner h.2 hs hint'⟩
  | .not operand, hint, e', h, hs, hint' => by
    rw [Expr.Keeps] at h
    have hstep := hp.step h.1 hs hint'
    cases hs with
    | literal => exact hstep
    | not hs => exact ⟨hstep, hp.keeps operand h.2 hs _⟩
  | .binary op left right, hint, e', h, hs, hint' => by
    rw [Expr.Keeps] at h
    have hstep := hp.step h.1 hs hint'
    cases hs with
    | literal => exact hstep
    | binary hl hr => exact ⟨hstep, hp.keeps left h.2.1 hl _, hp.keeps right h.2.2 hr _⟩
  | .newArray element size, hint, e', h, hs, hint' => by
    rw [Expr.Keeps] at h
    have hstep := hp.step h.1 hs hint'
    cases hs with
    | literal => exact hstep
    | newArray hs => exact ⟨hstep, hp.keeps size h.2 hs _⟩
  | .arrayLiteral elements, hint, e', h, hs, hint' => by
    rw [Expr.Keeps] at h
    have hstep := hp.step h.1 hs hint'
    cases hs with
    | literal => exact hstep
    | arrayLiteral hs => exact ⟨hstep, .of_mem (hp.keep elements h.2.mem hs)⟩
  | .index array index, hint, e', h, hs, hint' => by
    rw [Expr.Keeps] at h
    have hstep := hp.step h.1 hs hint'
    cases hs with
    | literal => exact hstep
    | index ha hi => exact ⟨hstep, hp.keeps array h.2.1 ha _, hp.keeps index h.2.2 hi _⟩
  | .length array, hint, e', h, hs, hint' => by
    rw [Expr.Keeps] at h
    have hstep := hp.step h.1 hs hint'
    cases hs with
    | literal => exact hstep
    | length hs => exact ⟨hstep, hp.keeps array h.2 hs _⟩
  | .call target method args, hint, e', h, hs, hint' => by
    rw [Expr.Keeps] at h
    have hstep := hp.step h.1 hs hint'
    cases hs with
    | literal => exact hstep
    | @call _ target' _ _ args' ht hargs =>
      refine ⟨hstep, fun hnone => ?_, .of_mem (hp.keep args h.2.2.mem hargs)⟩
      cases hclass : c.classTarget? target with
      | none => exact hp.keeps target (h.2.1 hclass) ht none
      | some name =>
        -- the name of a class stays what it is, or a literal is in its place
        cases ht with
        | literal => exact hp.literal none _
        | var => cases hnone.symm.trans hclass
        | _ => cases hclass

theorem Steady.keep (hp : Steady T p) : ∀ (es : List Expr) {es' : List Expr},
    (∀ e ∈ es, ∃ hint, Expr.Keeps c p hint e) → SimplifiesAll T es es' →
      ∀ e' ∈ es', ∀ hint, Expr.Keeps c p hint e'
  | [], _, _, .nil => nofun
  | e :: rest, _, h, .cons he hrest => by
    rw [List.forall_mem_cons] at h
    obtain ⟨⟨hint, hkeeps⟩, h⟩ := h
    exact List.forall_mem_cons.mpr ⟨hp.keeps e hkeeps he, hp.keep rest h hrest⟩

end

/-- A rule on statements that goes over to what a statement becomes. -/
def SteadyStmt (T : Expr → Literal → Prop) (q : Stmt → Prop) : Prop :=
  ∀ ⦃s s'⦄, q s → Reduces T s s' → q s'

theorem Stmt.Keeps.self {q : Stmt → Prop} {s : Stmt} (h : Stmt.Keeps c p q s) : q s := by
  cases s with
  | assign | arrayAssign | ite | loop | block | expr =>
    rw [Stmt.Keeps] at h
    exact h.1
  | ret value =>
    cases value with
    | none =>
      rw [Stmt.Keeps] at h
      exact h
    | some value =>
      rw [Stmt.Keeps] at h
      exact h.1

variable {q : Stmt → Prop}

mutual

theorem Steady.stmt_keeps (hp : Steady T p) (hq : SteadyStmt T q) : ∀ (s : Stmt) {s' : Stmt},
    Stmt.Keeps c p q s → Reduces T s s' → Stmt.Keeps c p q s'
  | _, _, h, .gone => ⟨hq h.self .gone, trivial⟩
  | .assign _ value, _, h, .assign hs => by
    have hstep := hq h.self (.assign hs)
    rw [Stmt.Keeps] at h ⊢
    exact ⟨hstep, hp.keeps value h.2 hs _⟩
  | .arrayAssign target index value, _, h, .arrayAssign hi hv => by
    have hstep := hq h.self (.arrayAssign hi hv)
    rw [Stmt.Keeps] at h ⊢
    exact ⟨hstep, h.2.1, hp.keeps index h.2.2.1 hi _, hp.keeps value h.2.2.2 hv _⟩
  | .ite condition thenBranch elseBranch, _, h, .ite hs ha hb => by
    have hstep := hq h.self (.ite hs ha hb)
    rw [Stmt.Keeps] at h ⊢
    exact ⟨hstep, hp.keeps condition h.2.1 hs _, hp.stmt_keeps hq thenBranch h.2.2.1 ha,
      hp.stmt_keeps hq elseBranch h.2.2.2 hb⟩
  | .loop condition body, _, h, .loop hs hb => by
    have hstep := hq h.self (.loop hs hb)
    rw [Stmt.Keeps] at h ⊢
    exact ⟨hstep, hp.keeps condition h.2.1 hs _, hp.stmt_keeps hq body h.2.2 hb⟩
  | .block body, _, h, .block hb => by
    have hstep := hq h.self (.block hb)
    rw [Stmt.Keeps] at h ⊢
    exact ⟨hstep, hp.all_keep hq body h.2 hb⟩
  | .ret none, _, h, .retNone => h
  | .ret (some value), _, h, .ret hs => by
    have hstep := hq h.self (.ret hs)
    rw [Stmt.Keeps] at h ⊢
    exact ⟨hstep, hp.keeps value h.2 hs _⟩
  | .expr value, _, h, .expr hs => by
    have hstep := hq h.self (.expr hs)
    rw [Stmt.Keeps] at h ⊢
    exact ⟨hstep, hp.keeps value h.2 hs _⟩

theorem Steady.all_keep (hp : Steady T p) (hq : SteadyStmt T q) :
    ∀ (body : List Stmt) {body' : List Stmt}, Stmt.AllKeep c p q body → ReducesAll T body body' →
      Stmt.AllKeep c p q body'
  | _, _, _, .nil => trivial
  | s :: rest, _, h, .cons hs hrest => by
    rw [Stmt.AllKeep] at h ⊢
    exact ⟨hp.stmt_keeps hq s h.1 hs, hp.all_keep hq rest h.2 hrest⟩
  | s :: rest, _, h, .drop hrest => by
    rw [Stmt.AllKeep] at h
    exact hp.all_keep hq rest h.2 hrest

end

/-- An optimized method keeps to the steady rules that the method keeps to. -/
theorem Steady.optimizeMethod_keeps_both (hp : Steady AnyLiteral p) (hq : SteadyStmt AnyLiteral q)
    {cap : Nat} {m m' : Method} (h : optimizeMethod m cap = .ok m')
    (hm : Stmt.AllKeep c p q m.body) : Stmt.AllKeep c p q m'.body :=
  Constants.optimizeMethod_keeps anyLiteral_foldsTo (fun body _ => allStoresHold_any body)
    (fun body _ hbody hreduces => hp.all_keep hq body hbody hreduces) cap h hm

theorem Steady.optimizeMethod_keeps (hp : Steady AnyLiteral p) {cap : Nat} {m m' : Method}
    (h : optimizeMethod m cap = .ok m') (hm : Stmt.AllKeep c p (fun _ => True) m.body) :
    Stmt.AllKeep c p (fun _ => True) m'.body :=
  hp.optimizeMethod_keeps_both (fun _ _ _ _ => trivial) h hm

end MiniJava.Semantics
