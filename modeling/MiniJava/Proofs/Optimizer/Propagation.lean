import MiniJava.Proofs.Optimizer.Expressions
import MiniJava.Proofs.Optimizer.Simplification

/-!
# Propagation keeps the meaning of a method

A method and what a propagation pass makes of it run side by side. `Agree` relates their variables at
a place where the pass knows some facts: the facts hold, and the variables differ at most where a
known literal is left over from a store that is removed. Such a variable is never read, because its
reads are replaced by the literal. When the literal is forgotten, at the end of a branch or loop that
assigns the variable, the store cannot be one that is removed (`Agree.forget`).
-/

namespace MiniJava.Semantics

open Constants

variable {c : Context} {env env' : Locals}

/-- A literal that may stand for a variable has the type of the variable, if the variable has its
value. -/
def Suits (c : Context) (T : Expr → Literal → Prop) : Prop :=
  ∀ name ty l, c.meaning name = .var ty → T (.var name) l →
    c.platform.holds ty (c.platform.literal l) → ty = l.ty

theorem typed_suits {classOf : String → String}
    {reply : Heap → Target → String → List Value → Reply} (hc : c.platform = typed classOf reply)
    (T : Expr → Literal → Prop) : Suits c T := by
  intro name ty l _ _ h
  rw [hc] at h
  cases ty <;> cases l <;> first | rfl | cases h

/-- The variables of a method and of its optimized form, where some facts are known and some stores
are removed. -/
structure Agree (c : Context) (facts : Facts) (removable : List Nat) (env env' : Locals) :
    Prop where
  known : ∀ a ∈ facts, env a.1 = some (c.platform.literal a.2.value)
  same : ∀ name, env' name = env name ∨ ∃ a ∈ facts, a.1 = name ∧ a.2.store ∈ removable

theorem meaning_of_declares {m : Method} (hc : c.method = .ofMethod m) {name : String}
    (h : m.declares name) : ∃ ty, c.meaning name = .var ty := by
  rw [Context.meaning, hc]
  cases hlocal : (Signature.ofMethod m).local? name with
  | some var => exact ⟨var.ty, rfl⟩
  | none =>
    cases hparam : (Signature.ofMethod m).param? name with
    | some param => exact ⟨param.ty, rfl⟩
    | none =>
      rw [Signature.local?, List.find?_eq_none] at hlocal
      rw [Signature.param?, List.find?_eq_none] at hparam
      rw [Method.declares, Bool.or_eq_true, List.any_eq_true, List.any_eq_true] at h
      rcases h with ⟨var, hvar, hname⟩ | ⟨param, hparam', hname⟩
      · exact absurd hname (hlocal var hvar)
      · exact absurd hname (hparam param hparam')

/-! ## Substitution -/

section Substitution

variable {m : Method} {facts : Facts} {removable : List Nat} {T : Expr → Literal → Prop}

theorem Agree.unknown (h : Agree c facts removable env env') {name : String}
    (hlookup : facts.lookup name = none) : env' name = env name := by
  rcases h.same name with hsame | ⟨a, ha, hname, _⟩
  · exact hsame
  · exact absurd hname (Facts.not_mem_of_lookup hlookup a ha)

theorem Agree.read_known (h : Agree c facts removable env env') {name : String} {known : Known}
    {ty : Ty} (hlookup : facts.lookup name = some known) (hty : c.meaning name = .var ty) :
    c.read env name = c.platform.expect ty (c.platform.literal known.value) :=
  c.read_var hty (h.known _ (Facts.mem_of_lookup hlookup))

theorem substVar_refines (hsuits : Suits c T) (hc : c.method = .ofMethod m)
    (hdeclared : ∀ a ∈ facts, m.declares a.1) (hfacts : facts.Hold T)
    (h : Agree c facts removable env env') (name : String) :
    ExprRefines c env env' (.var name) (substExpr facts (.var name)).node := by
  rw [substExpr]
  cases hlookup : facts.lookup name with
  | none =>
    refine .refl_of_closed (fun hint => ?_) fun _ => rfl
    rw [eval, eval, Context.read, Context.read, h.unknown hlookup]
  | some known =>
    obtain ⟨ty, hty⟩ := meaning_of_declares hc (hdeclared _ (Facts.mem_of_lookup hlookup))
    have hread := h.read_known hlookup hty
    refine .of_eval ?_ (fun hint => ?_) (fun hint w hw => ?_) (fun _ => rfl) fun _ => rfl
    · show none = if c.meaning name = .className then some name else none
      rw [hty, if_neg (by simp)]
    · rw [eval, eval, hread, Platform.expect]
      split
      · exact .refl _
      · exact .stuck _
    · rw [typeOf, typeOf, Context.nameTy?, hty]
      rw [eval, hread, Platform.expect] at hw
      by_cases hholds : c.platform.holds ty (c.platform.literal known.value)
      · rw [hsuits name ty known.value hty (hfacts _ (Facts.mem_of_lookup hlookup)) hholds]
      · rw [if_neg hholds] at hw
        exact absurd rfl hw

theorem readArray_refines (hsuits : Suits c T) (hc : c.method = .ofMethod m)
    (hdeclared : ∀ a ∈ facts, m.declares a.1) (hfacts : facts.Hold T)
    (h : Agree c facts removable env env') {name : String} {element : Ty}
    (hname : c.nameTy? name = some (.array element)) :
    (c.read env name).Refines (c.read env' name) := by
  cases hlookup : facts.lookup name with
  | none =>
    rw [Context.read, Context.read, h.unknown hlookup]
    exact .refl _
  | some known =>
    obtain ⟨ty, hty⟩ := meaning_of_declares hc (hdeclared _ (Facts.mem_of_lookup hlookup))
    rw [Context.nameTy?, hty] at hname
    cases hname
    rw [h.read_known hlookup hty, Platform.expect, if_neg]
    · exact .stuck _
    · intro hholds
      have harray := hsuits name _ known.value hty (hfacts _ (Facts.mem_of_lookup hlookup)) hholds
      cases hvalue : known.value <;> rw [hvalue] at harray <;> cases harray

mutual

theorem substExpr_refines
    (hvar : ∀ name, ExprRefines c env env' (.var name) (substExpr facts (.var name)).node) :
    ∀ e : Expr, ExprRefines c env env' e (substExpr facts e).node
  | .var name => hvar name
  | .literal _ => .refl_of_closed (fun _ => rfl) fun _ => rfl
  | .self => .refl_of_closed (fun _ => rfl) fun _ => rfl
  | .newObject name => .newObject name
  | .paren inner => (substExpr_refines hvar inner).paren
  | .not operand => (substExpr_refines hvar operand).not
  | .binary _ left right => (substExpr_refines hvar left).binary (substExpr_refines hvar right)
  | .newArray _ size => (substExpr_refines hvar size).newArray
  | .arrayLiteral elements => .arrayLiteral (substExprs_refine hvar elements)
  | .index array index => (substExpr_refines hvar array).index (substExpr_refines hvar index)
  | .length array => (substExpr_refines hvar array).length
  | .call target name args =>
    (substExpr_refines hvar target).call (substExprs_refine hvar args) name

theorem substExprs_refine
    (hvar : ∀ name, ExprRefines c env env' (.var name) (substExpr facts (.var name)).node) :
    ∀ es : List Expr, ExprsRefine c env env' es (substExprs facts es).node
  | [] => .nil
  | e :: rest => .cons (substExpr_refines hvar e) (substExprs_refine hvar rest)

end

end Substitution

/-! ## Forgetting and storing -/

namespace Agree

variable {m : Method} {removable : List Nat} {depth : Nat} {p : Progress}

/-- What is forgotten for good was not put there by a store that is removed. -/
theorem forget {facts : Facts} (h : Agree c p.facts removable env env') (hp : p.Good m depth)
    (hsub : ∀ a ∈ facts, a ∈ p.facts) (hcovers : Progress.Covers removable { p with facts }) :
    Agree c facts removable env env' where
  known a ha := h.known a (hsub a ha)
  same name := by
    rcases h.same name with hsame | ⟨a, ha, hname, hremoved⟩
    · exact .inl hsame
    · rcases hcovers _ hremoved (hp.fresh a ha) with hk | ⟨b, hb, hstore⟩
      · exact absurd hk (hp.kept a ha)
      · rw [hp.store_inj b (hsub b hb) a ha hstore] at hb
        exact .inr ⟨a, hb, hname, hremoved⟩

variable {target : String} {value : Expr}

theorem set (h : Agree c p.facts removable env env') (hp : p.Good m depth) {v : Value}
    (hv : ∀ l, value = .literal l → v = c.platform.literal l) :
    Agree c (p.store m depth target value).facts removable (env.set target v)
      (env'.set target v) where
  known a ha := by
    rw [Locals.set]
    cases hd : m.declares target with
    | false =>
      rw [Progress.store_undeclared hd] at ha
      rw [if_neg, h.known a ha]
      intro hname
      rw [← hname, hp.declared a ha] at hd
      cases hd
    | true =>
      rcases (Progress.mem_store_facts hd).mp ha with ⟨l, hl, rfl⟩ | ⟨ha, hname⟩
      · rw [if_pos rfl, hv l hl]
      · rw [if_neg hname, h.known a ha]
  same name := by
    rw [Locals.set, Locals.set]
    by_cases hname : name = target
    · rw [if_pos hname, if_pos hname]
      exact .inl rfl
    · rw [if_neg hname, if_neg hname]
      refine (h.same name).imp_right fun ⟨a, ha, haname, hremoved⟩ => ?_
      refine ⟨a, ?_, haname, hremoved⟩
      cases hd : m.declares target with
      | false =>
        rw [Progress.store_undeclared hd]
        exact ha
      | true => exact (Progress.mem_store_facts hd).mpr (.inr ⟨ha, haname ▸ hname⟩)

/-- A store that is removed was one of a literal into a variable of the method. -/
theorem removed_store (hp : p.Good m depth)
    (hcovers : Progress.Covers removable (p.store m depth target value))
    (hremoved : p.nextStore ∈ removable) :
    m.declares target ∧ ∃ l, value = .literal l := by
  have hlt : p.nextStore < (p.store m depth target value).nextStore := by
    rw [Progress.store_nextStore]
    exact Nat.lt_succ_self _
  rcases hcovers _ hremoved hlt with hk | ⟨a, ha, hstore⟩
  · exact absurd (Progress.store_removable_lt hp hk) (Nat.lt_irrefl _)
  · cases hd : m.declares target with
    | false =>
      rw [Progress.store_undeclared hd] at ha
      exact absurd hstore (Nat.ne_of_lt (hp.fresh a ha))
    | true =>
      rcases (Progress.mem_store_facts hd).mp ha with ⟨l, hl, _⟩ | ⟨ha, _⟩
      · exact ⟨rfl, l, hl⟩
      · exact absurd hstore (Nat.ne_of_lt (hp.fresh a ha))

theorem skip (h : Agree c p.facts removable env env') (hd : m.declares target) {l : Literal}
    (hremoved : p.nextStore ∈ removable) :
    Agree c (p.store m depth target (.literal l)).facts removable
      (env.set target (c.platform.literal l)) env' where
  known a ha := by
    rw [Locals.set]
    rcases (Progress.mem_store_facts hd).mp ha with ⟨l', hl, rfl⟩ | ⟨ha, hname⟩
    · cases hl
      rw [if_pos rfl]
    · rw [if_neg hname, h.known a ha]
  same name := by
    by_cases hname : name = target
    · refine .inr ⟨(target, ⟨l, p.nextStore, depth⟩), ?_, hname.symm, hremoved⟩
      exact (Progress.mem_store_facts hd).mpr (.inl ⟨l, rfl, rfl⟩)
    · rw [Locals.set, if_neg hname]
      refine (h.same name).imp_right fun ⟨a, ha, haname, hin⟩ => ?_
      exact ⟨a, (Progress.mem_store_facts hd).mpr (.inr ⟨ha, haname ▸ hname⟩), haname, hin⟩

end Agree

/-! ## Removal of stores -/

mutual

theorem removeStores_next (m : Method) (removable : List Nat) : ∀ (s : Stmt) (depth : Nat)
    (p : Progress), (removeStores removable p.nextStore (propagateStmt m depth p s).1).2 =
      (propagateStmt m depth p s).2.nextStore
  | .assign target value, depth, p => by
    show p.nextStore + 1 = Progress.nextStore (Progress.store _ m depth target _)
    rw [Progress.store_nextStore]
    rfl
  | .arrayAssign .., _, _ => rfl
  | .ite condition thenBranch elseBranch, depth, p => by
    rw [propagateStmt_ite, removeStores_ite]
    have hthen := removeStores_next m removable thenBranch (depth + 1) (p.atThen condition)
    have helse := removeStores_next m removable elseBranch (depth + 1)
      (p.atElse m depth condition thenBranch)
    rw [← helse]
    exact congrArg (fun next => (removeStores removable next _).2) hthen
  | .loop condition body, depth, p => by
    rw [propagateStmt_loop, removeStores_loop]
    exact removeStores_next m removable body (depth + 1) ((p.atLoop body).atThen condition)
  | .block body, depth, p => by
    rw [propagateStmt_block, removeStores_block]
    exact removeStoresIn_next m removable body depth p
  | .ret none, _, _ => rfl
  | .ret (some _), _, _ => rfl
  | .expr _, _, _ => rfl

theorem removeStoresIn_next (m : Method) (removable : List Nat) : ∀ (body : List Stmt)
    (depth : Nat) (p : Progress),
    (removeStoresIn removable p.nextStore (propagateStmts m depth p body).1).2 =
      (propagateStmts m depth p body).2.nextStore
  | [], _, _ => rfl
  | s :: rest, depth, p => by
    rw [propagateStmts_cons, removeStoresIn_cons]
    rw [removeStores_next m removable s depth p]
    exact removeStoresIn_next m removable rest depth _

end

/-- Runs what is left of a statement. -/
def execLeft (c : Context) (fuel : Nat) : Option Stmt → Locals → Action (Flow Locals)
  | some s, env => exec c fuel s env
  | none, env => pure (.next env)

theorem exec_getD (c : Context) (fuel : Nat) (s : Option Stmt) (env : Locals) :
    exec c fuel (s.getD (.block [])) env = execLeft c fuel s env := by
  cases s <;> rfl

theorem execAll_toList (c : Context) (fuel : Nat) (s : Option Stmt) (rest : List Stmt)
    (env : Locals) : execAll c fuel (s.toList ++ rest) env =
      andThen (execLeft c fuel s env) (execAll c fuel rest) := by
  cases s <;> rfl

/-! ## The simulation -/

section Simulation

variable {m : Method} {removable : List Nat} {T : Expr → Literal → Prop}

theorem assign_left_simulates (hsuits : Suits c T) (hc : c.method = .ofMethod m)
    (fuel : Nat) {target : String} {value : Expr} {depth : Nat} {p : Progress}
    (hp : p.Good m depth) (hfacts : p.facts.Hold T)
    (hcovers : Progress.Covers removable (propagateStmt m depth p (.assign target value)).2)
    (h : Agree c p.facts removable env env') :
    Simulates (Agree c (propagateStmt m depth p (.assign target value)).2.facts removable)
      (exec c fuel (.assign target value) env)
      (execLeft c fuel
        (removeStores removable p.nextStore (propagateStmt m depth p (.assign target value)).1).1
        env') := by
  have hvalue := substExpr_refines (substVar_refines hsuits hc hp.declared hfacts h) value
  have hq : (p.note (substExpr p.facts value)).Good m depth := hp.note _
  show Simulates (Agree c (Progress.store _ m depth target _).facts removable)
    (c.assign env target value) (execLeft c fuel
      (if removable.contains p.nextStore then none
        else some (.assign target (substExpr p.facts value).node)) env')
  by_cases hremoved : p.nextStore ∈ removable
  · rw [if_pos (List.contains_iff_mem.mpr hremoved)]
    obtain ⟨hd, l, hl⟩ := Agree.removed_store hq hcovers hremoved
    obtain ⟨ty, hty⟩ := meaning_of_declares hc hd
    rw [hl] at hvalue ⊢
    refine assign_literal_simulates hvalue hty ?_
    exact Agree.skip (p := p.note (substExpr p.facts value)) h hd hremoved
  · rw [if_neg fun hin => hremoved (List.contains_iff_mem.mp hin)]
    refine assign_simulates hvalue (fun ty v _ hv => ?_) fun ty hty => ?_
    · exact Agree.set (p := p.note (substExpr p.facts value)) h hq hv
    · have hd : m.declares target = false := by
        rw [Bool.eq_false_iff]
        intro hd
        obtain ⟨ty', hty'⟩ := meaning_of_declares hc hd
        rw [hty] at hty'
        cases hty'
      rw [Progress.store_undeclared hd]
      exact h

mutual

/-- A statement and what is left of it after substitution and removal do the same. -/
theorem propagateStmt_simulates (hliteral : ∀ value, T (.literal value) value) (hsuits : Suits c T)
    (hc : c.method = .ofMethod m) (fuel : Nat) : ∀ (s : Stmt) {depth : Nat} {p : Progress}
    {env env' : Locals}, StoresHold T s → p.facts.Hold T →
    p.Good m depth → Progress.Covers removable (propagateStmt m depth p s).2 →
    Agree c p.facts removable env env' →
    Simulates (Agree c (propagateStmt m depth p s).2.facts removable) (exec c fuel s env)
      (execLeft c fuel
        (removeStores removable p.nextStore (propagateStmt m depth p s).1).1 env')
  | .assign target value, depth, p, env, env', _, hfacts, hp, hcovers, h =>
    assign_left_simulates hsuits hc fuel hp hfacts hcovers h
  | .arrayAssign target index value, depth, p, env, env', _, hfacts, hp, hcovers, h => by
    have hvar := substVar_refines hsuits hc hp.declared hfacts h
    exact arrayAssign_simulates (fun _ => readArray_refines hsuits hc hp.declared hfacts h)
      (substExpr_refines hvar index) (substExpr_refines hvar value) h
  | .ite condition thenBranch elseBranch, depth, p, env, env', hstores, hfacts, hp, hcovers, h => by
    rw [StoresHold] at hstores
    have hvar := substVar_refines hsuits hc hp.declared hfacts h
    rw [propagateStmt_ite] at hcovers ⊢
    rw [removeStores_ite]
    have hthen := propagateStmt_advances thenBranch (hp.atThen condition).deepen
    have hgood := (hp.atElse hthen).good
    have helse := propagateStmt_advances elseBranch hgood.deepen
    -- What is known after the conditional was known before it, and no branch assigns it.
    have hsub : ∀ a ∈ p.facts.forgetAll (assigned thenBranch ++ assigned elseBranch),
        a ∈ p.facts ∧ a.1 ∉ assigned thenBranch ∧ a.1 ∉ assigned elseBranch := by
      intro a ha
      rw [Facts.mem_forgetAll, List.mem_append, not_or] at ha
      exact ha
    have hknown₁ := fun a ha => hthen.keeps a (hsub a ha).1 (hsub a ha).2.1
    have hknown₂ := fun a ha => helse.keeps a (hsub a ha).1 (hsub a ha).2.2
    have hcovers₁ := Progress.Covers.back_inside hcovers hgood helse
    refine .bind (holdsIn_refines (substExpr_refines hvar condition)) fun b => ?_
    cases b with
    | true =>
      have hsim := propagateStmt_simulates hliteral hsuits hc fuel thenBranch
        (p := p.atThen condition) hstores.1 hfacts (hp.atThen condition).deepen
        (Progress.Covers.know hcovers₁ hknown₁) h
      rw [← exec_getD] at hsim
      exact hsim.mono fun s t hst => Agree.forget hst hthen.good hknown₁ hcovers₁
    | false =>
      have hsim := propagateStmt_simulates hliteral hsuits hc fuel elseBranch
        (p := p.atElse m depth condition thenBranch) hstores.2 hfacts hgood.deepen
        (Progress.Covers.know hcovers hknown₂) h
      have hnext := removeStores_next m removable thenBranch (depth + 1) (p.atThen condition)
      rw [show Progress.nextStore (p.atElse m depth condition thenBranch) = _ from hnext.symm,
        ← exec_getD] at hsim
      exact hsim.mono fun s t hst => Agree.forget hst helse.good hknown₂ hcovers
  | .loop condition body, depth, p, env, env', hstores, hfacts, hp, hcovers, h => by
    rw [StoresHold] at hstores
    have hloopFacts : (p.atLoop body).facts.Hold T := hfacts.forgetAll _
    rw [propagateStmt_loop] at hcovers ⊢
    rw [removeStores_loop]
    have hloop := hp.atLoop body
    have hgood := hloop.good.atThen condition
    have hbody := propagateStmt_advances body hgood.deepen
    have hknown : ∀ a ∈ (p.atLoop body).facts,
        a ∈ (propagateStmt m (depth + 1) ((p.atLoop body).atThen condition) body).2.facts :=
      fun a ha => hbody.keeps a ha (Facts.mem_forgetAll.mp ha).2
    have hcovers₀ : Progress.Covers removable (p.atLoop body) :=
      Progress.Covers.back_inside (p := (p.atLoop body).atThen condition) hcovers hgood hbody
    have hstart : Agree c (p.atLoop body).facts removable env env' :=
      h.forget hp (fun _ ha => (Facts.mem_forgetAll.mp ha).1) hcovers₀
    refine .iterate (fun s t hst => ?_) (fun s t hst => ?_) fuel env env' hstart
    · have hvar := substVar_refines hsuits hc hloop.good.declared hloopFacts hst
      exact holdsIn_refines (substExpr_refines hvar condition)
    · have hsim := propagateStmt_simulates hliteral hsuits hc fuel body
        (p := (p.atLoop body).atThen condition) hstores hloopFacts hgood.deepen
        (Progress.Covers.know hcovers hknown) hst
      rw [← exec_getD] at hsim
      exact hsim.mono fun s t hst => Agree.forget hst hbody.good hknown hcovers
  | .block body, depth, p, env, env', hstores, hfacts, hp, hcovers, h => by
    rw [StoresHold] at hstores
    rw [propagateStmt_block] at hcovers ⊢
    rw [removeStores_block]
    exact propagateStmts_simulates hliteral hsuits hc fuel body hstores hfacts hp hcovers h
  | .ret none, _, _, _, _, _, _, _, _, _ => .returned none
  | .ret (some value), depth, p, env, env', _, hfacts, hp, hcovers, h => by
    have hvar := substVar_refines hsuits hc hp.declared hfacts h
    exact .bind ((substExpr_refines hvar value).eval _) fun v => giveBack_simulates v
  | .expr value, depth, p, env, env', _, hfacts, hp, hcovers, h => by
    have hvar := substVar_refines hsuits hc hp.declared hfacts h
    exact .bind (substExpr_refines hvar value).effect fun _ => .next h

theorem propagateStmts_simulates (hliteral : ∀ value, T (.literal value) value) (hsuits : Suits c T)
    (hc : c.method = .ofMethod m) (fuel : Nat) : ∀ (body : List Stmt) {depth : Nat} {p : Progress}
    {env env' : Locals}, AllStoresHold T body → p.facts.Hold T →
    p.Good m depth → Progress.Covers removable (propagateStmts m depth p body).2 →
    Agree c p.facts removable env env' →
    Simulates (Agree c (propagateStmts m depth p body).2.facts removable)
      (execAll c fuel body env)
      (execAll c fuel
        (removeStoresIn removable p.nextStore (propagateStmts m depth p body).1).1 env')
  | [], _, _, _, _, _, _, _, _, h => .next h
  | s :: rest, depth, p, env, env', hstores, hfacts, hp, hcovers, h => by
    rw [AllStoresHold] at hstores
    rw [propagateStmts_cons] at hcovers ⊢
    rw [removeStoresIn_cons]
    have hs := propagateStmt_advances s hp
    have hrest := propagateStmts_advances rest hs.good
    rw [execAll_toList, removeStores_next m removable s depth p]
    exact .andThen
      (propagateStmt_simulates hliteral hsuits hc fuel s hstores.1 hfacts hp (hcovers.back hrest) h)
      fun t t' ht => propagateStmts_simulates hliteral hsuits hc fuel rest hstores.2
        (propagateStmt_reduces hliteral s depth hstores.1 hfacts).2 hs.good hcovers ht

end

end Simulation

/-! ## Methods -/

theorem propagate_signature (m : Method) :
    Signature.ofMethod (propagate m).node = .ofMethod m :=
  rfl

theorem propagate_refines {T : Expr → Literal → Prop} (hliteral : ∀ value, T (.literal value) value)
    (hsuits : Suits c T) {m : Method} (hstores : AllStoresHold T m.body) (hc : c.method = .ofMethod m)
    (args : List Value) (fuel : Nat) :
    (c.run m.body args fuel).Refines (c.run (propagate m).node.body args fuel) := by
  have hp := Progress.Good.start m 0
  exact run_refines (propagateStmts_simulates hliteral hsuits hc fuel m.body (p := {}) hstores nofun hp
    (covers_outermost _) ⟨nofun, fun _ => .inl rfl⟩)

end MiniJava.Semantics
