import MiniJava.Proofs.Lowering.Trees

/-!
# Lowered statements

The code of a statement does what the statement does, however often the loops in it run. A statement
that stops after a number of iterations has code that runs for at least as many steps, because
every iteration passes a label.
-/

namespace MiniJava.Semantics

open Ir (Operand Instr)
open Lowering

variable {c : Context} {d : Method} {m : Ir.Method}

/-- The next instruction is at a place, and the values of the variables are known. -/
structure Continues (c : Context) (place : Nat) (env : Locals) (s : IrState) : Prop where
  pc : s.pc = place
  agrees : Agrees c env s.vars

/-- Code does what an action of the variables does, which is bounded by a number of iterations. -/
def Runs (c : Context) (m : Ir.Method) (code : List Instr)
    (a : Nat → Locals → Action (Flow Locals)) : Prop :=
  ∀ (fuel : Nat) ⦃env vars pc⦄, Placed m.instructions pc code → Agrees c env vars →
    (irMachine c.platform m).Follows 0 fuel { pc, vars } (a fuel env)
      (Continues c (pc + code.length))

/-- Lowering gives code that does what a statement does. -/
def LowersStmt (c : Context) (m : Ir.Method) (x : Lower (List Instr))
    (a : Nat → Locals → Action (Flow Locals)) : Prop :=
  ∀ ⦃k code k'⦄, Gives x k code k' → Runs c m code a

theorem Agrees.set {env : Locals} {vars : Vars} (h : Agrees c env vars) (name : String)
    (value : Value) : Agrees c (env.set name value) (vars.set (.named name) value) where
  named name' v hv := by
    rw [Locals.set] at hv
    by_cases hname : name' = name
    · rw [if_pos hname] at hv
      rw [Vars.set, if_pos (by rw [hname]), hv]
    · rw [if_neg hname] at hv
      rw [Vars.set, if_neg fun hkey => hname (by cases hkey; rfl), h.named name' v hv]
  receiver hstatic := by
    rw [Vars.set, if_neg (by simp), h.receiver hstatic]

theorem Lowers.runs {x : Lower Lowered} {ty : Option Ty} {a : Locals → Action Value}
    {k k₁ : Counters} {l : Lowered} {o : Operand} {rest : List Instr}
    {f : Locals → Value → Action (Flow Locals)} (hx : Lowers c m x ty a) (gx : Gives x k l k₁)
    (ho : l.operand = some o) (hends : ∀ env, (a env).Ends)
    (hf : ∀ {env vars pc v fuel}, Placed m.instructions pc rest → Agrees c env vars →
      readOperand c.platform vars o = pure v →
        (irMachine c.platform m).Follows 0 fuel { pc, vars } (f env v)
          (Continues c (pc + rest.length))) :
    Runs c m (l.code ++ rest) fun _ env => a env >>= f env := by
  intro fuel env vars pc hplaced hagree
  refine ((hx gx).computes hplaced.left hagree).follows (hends env) fun v t ht => ?_
  obtain ⟨tpc, tvars⟩ := t
  obtain ⟨rfl, hframe, hreads⟩ := ht
  have h : (irMachine c.platform m).Follows 0 fuel _ _ _ :=
    hf hplaced.right (hagree.frame hframe) (hreads o ho)
  rwa [Nat.add_assoc, ← List.length_append] at h

/-! ## Assignments -/

theorem lowerAssign_lowers (hc : c.method = .ofMethod d) (hm : m.LabelsPlaced) (target : String)
    (value : Expr) :
    LowersStmt c m (lowerAssign (scopeOf c d) target fun hint => lowerExpr (scopeOf c d) hint value)
      (fun _ env => c.assign env target value) := by
  intro k code k' h
  obtain ⟨ty, l, o, i, gl, ho, hstore, rfl⟩ := lowerAssign_gives hc h
  have hvalue := lowerExpr_lowers hc hm (some ty) value
  cases hstore with
  | var hmeaning =>
    simp only [Context.assign, hmeaning]
    refine hvalue.runs gl ho (fun env => eval_ends c env _ _)
      fun {env vars pc v fuel} hplaced hagree hv => ?_
    have hstep : (irMachine c.platform m).Computes 1 ⟨pc, vars⟩ (c.platform.expect ty v)
        fun v t => t = ⟨pc + 1, vars.set (.named target) v⟩ := by
      refine .single (g := fun v => ⟨pc + 1, vars.set (.named target) v⟩) ?_ fun _ _ _ _ => rfl
      rw [irMachine_at (s := ⟨pc, vars⟩) hplaced.head]
      show (readOperand c.platform vars o >>= fun v => c.platform.expect ty v >>= fun v => _) = _
      rw [hv, pure_bind]
    refine ((hstep.mono (Nat.zero_le 1) fun _ _ h => h).follows (c.platform.expect_ends _ _)
      fun v t ht => ?_)
    subst ht
    exact .next ⟨rfl, hagree.set target v⟩
  | field hmeaning hstatic =>
    simp only [Context.assign, hmeaning]
    refine hvalue.runs gl ho (fun env => eval_ends c env _ _)
      fun {env vars pc v fuel} hplaced hagree hv => ?_
    by_cases hholds : c.platform.holds ty v
    · rw [expect_of_holds hholds, pure_bind]
      have hstep : (irMachine c.platform m).Computes 1 ⟨pc, vars⟩
          (c.receiver >>= fun object => c.platform.writeField c.ownClass target object v)
          fun _ t => t = ⟨pc + 1, vars⟩ := by
        refine .single ?_ fun _ _ _ _ => rfl
        rw [irMachine_at (s := ⟨pc, vars⟩) hplaced.head, bind_assoc]
        show (readOperand c.platform vars (.receiver c.symbols.className) >>= fun object =>
          readOperand c.platform vars o >>= fun v =>
            c.platform.writeField c.ownClass target object v >>= _) = _
        rw [read_receiver hagree hstatic, hv]
        rfl
      rw [← bind_assoc]
      refine ((hstep.mono (Nat.zero_le 1) fun _ _ h => h).follows ?_ fun _ t ht => ?_)
      · exact (receiver_ends c).bind fun object => c.platform.writeField_ends _ _ _ _
      · subst ht
        exact .next ⟨rfl, hagree⟩
    · rw [Platform.expect, if_neg hholds]
      exact .stuck

theorem lowerArrayAssign_lowers (hc : c.method = .ofMethod d) (hm : m.LabelsPlaced)
    (target : String) (index value : Expr) :
    LowersStmt c m (lowerArrayAssign (scopeOf c d) target
        (lowerExpr (scopeOf c d) (some .int) index)
        fun hint => lowerExpr (scopeOf c d) hint value)
      (fun _ env => c.arrayAssign env target index value) := by
  intro k code k' h fuel env vars pc hplaced hagree
  obtain ⟨l₁, k₁, l₂, k₂, l₃, o₁, o₂, o₃, element, gx, gy, gz, ho₁, ho₂, ho₃, harray, rfl⟩ :=
    lowerArrayAssign_gives h
  have hx := lowerVar_lowers (m := m) hc target
  have hy := lowerExpr_lowers hc hm (some .int) index
  have hz := lowerExpr_lowers hc hm (some element) value
  have helementTy := (hx gx).fits.element ho₁ harray
  have hstore : (irMachine c.platform m).Computes 0 ⟨pc, vars⟩ (do
      let a ← c.read env target
      let i ← eval c env (some .int) index
      let v ← eval c env (some element) value
      let v ← c.platform.expect element v
      c.platform.storeElement a i v) fun _ =>
        Continues c (pc + (l₁.code ++ l₂.code ++ l₃.code).length + 1) env := by
    refine hx.operands hy gx gy ho₁ ho₂ hplaced.left.left hagree fun a i t hpc hframe ha hi => ?_
    obtain ⟨tpc, tvars⟩ := t
    subst hpc
    refine hz.operand gz ho₃ hplaced.left.right (hagree.frame hframe)
      fun v t hpc hframe' hv => ?_
    have hat := hplaced.right.head
    rw [List.length_append, ← Nat.add_assoc, ← hpc] at hat
    have hproper₁ := ((hx gx).fits.proper o₁ ho₁).mono (hy gy).fits.temps_le
    have hproper₂ := (hy gy).fits.proper o₂ ho₂
    refine (store_computes hat ((read_frame hproper₁ hframe').trans ha)
      ((read_frame hproper₂ hframe').trans hi) hv).mono (Nat.zero_le 1) fun _ u hu => ?_
    subst hu
    refine ⟨congrArg (· + 1) (hpc.trans ?_), (hagree.frame hframe).frame hframe'⟩
    simp only [List.length_append, Nat.add_assoc]
  have hassign : c.arrayAssign env target index value = (do
      let a ← c.read env target
      let i ← eval c env (some .int) index
      let v ← eval c env (some element) value
      let v ← c.platform.expect element v
      c.platform.storeElement a i v) >>= fun _ => pure (.next env) := by
    simp only [Context.arrayAssign, helementTy, bind_assoc]
  simp only [hassign]
  rw [List.length_append, List.length_singleton, ← Nat.add_assoc]
  refine hstore.follows ?_ fun _ t ht => .next ht
  exact (read_ends c env target).bind fun a => (eval_ends c env _ _).bind fun i =>
    (eval_ends c env _ _).bind fun v => (c.platform.expect_ends _ _).bind fun v =>
      c.platform.storeElement_ends a i v

/-! ## Returns and effects -/

theorem lowerReturn_lowers (hc : c.method = .ofMethod d) (hm : m.LabelsPlaced)
    (hreturn : m.returnTy = d.returnTy) (value : Expr) :
    LowersStmt c m (lowerReturn (scopeOf c d) fun hint => lowerExpr (scopeOf c d) hint value)
      (fun _ env => eval c env (some c.method.returnTy) value >>= c.giveBack) := by
  intro k code k' h
  obtain ⟨d', l, o, hd, gl, ho, rfl⟩ := lowerReturn_gives h
  cases hd
  have hty : c.method.returnTy = d.returnTy := by rw [hc]; rfl
  rw [hty]
  refine (lowerExpr_lowers hc hm (some d.returnTy) value).runs gl ho
    (fun env => eval_ends c env _ _) fun {env vars pc v fuel} hplaced hagree hv => ?_
  have hstep : irMachine c.platform m ⟨pc, vars⟩ =
      if d.returnTy.isVoid then pure (.returned none)
      else c.platform.expect d.returnTy v >>= fun v => pure (.returned (some v)) := by
    rw [irMachine_at (s := ⟨pc, vars⟩) hplaced.head, irInstr, hv, pure_bind, hreturn]
  rw [Context.giveBack, hty]
  by_cases hvoid : d.returnTy.isVoid
  · rw [if_pos hvoid] at hstep ⊢
    exact .returned hstep
  · rw [if_neg hvoid] at hstep ⊢
    by_cases hholds : c.platform.holds d.returnTy v
    · rw [expect_of_holds hholds, pure_bind] at hstep ⊢
      exact .returned hstep
    · rw [Platform.expect, if_neg hholds]
      exact .stuck

theorem lowerEffect_runs (hc : c.method = .ofMethod d) (hm : m.LabelsPlaced) (value : Expr) :
    LowersStmt c m (do return (← lowerEffect (scopeOf c d) value).code)
      (fun _ env => effect c env value >>= fun _ => pure (.next env)) := by
  intro k code k' h fuel env vars pc hplaced hagree
  obtain ⟨l, k₁, gl, h⟩ := h.bind
  obtain ⟨rfl, rfl⟩ := Gives.pure_iff.mp h
  refine ((lowerEffect_lowered hc hm value gl).computes hplaced hagree).follows
    (effect_ends c env value) fun _ t ht => .next ⟨ht.pc, hagree.frame ht.frame⟩

/-! ## Branches -/

theorem ConditionLowered.branch {k k' : Counters} {code : List Instr} {value : Ir.Value} {e : Expr}
    {label : Label} {place pc : Nat} {env : Locals} {vars : Vars}
    (h : ConditionLowered c m k k' code value e) (hm : m.LabelsPlaced)
    (hplaced : Placed m.instructions pc (code ++ [.condGoto value label]))
    (hlabel : m.instructions[place]? = some (.label label)) (hagree : Agrees c env vars) :
    (irMachine c.platform m).Computes 0 { pc, vars } (c.holdsIn env e) fun b t =>
      Continues c (if b then place else pc + code.length + 1) env t := by
  rw [← bind_pure (c.holdsIn env e)]
  refine h.computes hplaced.left hagree fun t a hpc hframe hvalue => ?_
  have hat := hplaced.right.head
  rw [← hpc] at hat
  rw [bind_pure]
  refine (condGoto_computes hm hat hlabel hvalue).mono (Nat.zero_le 1) fun b u hu => ?_
  subst hu
  exact ⟨by rw [← hpc], hagree.frame hframe⟩

theorem holdsIn_ends (c : Context) (env : Locals) (e : Expr) : (c.holdsIn env e).Ends :=
  (eval_ends c env _ e).bind fun v => c.platform.test_ends v

theorem Runs.then_label {code : List Instr} {label : Label}
    {a : Nat → Locals → Action (Flow Locals)} (h : Runs c m code a) :
    Runs c m (code ++ [.label label]) a := by
  intro fuel env vars pc hplaced hagree
  refine (h fuel hplaced.left hagree).then_next fun env' t ht => ?_
  have hat := hplaced.right.head
  rw [← ht.pc] at hat
  refine .skip (label_step hat) (.next ⟨?_, ht.agrees⟩)
  rw [ht.pc, List.length_append, List.length_singleton, Nat.add_assoc]

/-- A conditional. When the end label is left out, the other branch never goes on. -/
theorem lowerIf_lowers {condition : Lower (List Instr × Ir.Value)} {e : Expr}
    {thenBranch elseBranch : Lower (List Instr)} {elseReturns : Bool}
    {a b : Nat → Locals → Action (Flow Locals)} (hm : m.LabelsPlaced)
    (hcondition : ∀ {k code value k'}, Gives condition k (code, value) k' →
      ConditionLowered c m k k' code value e)
    (hthen : LowersStmt c m thenBranch a) (helse : LowersStmt c m elseBranch b)
    (hreturns : elseReturns → ∀ fuel env w env' w', b fuel env w ≠ .ok (.next env') w') :
    LowersStmt c m (lowerIf condition thenBranch elseBranch elseReturns)
      (fun fuel env => c.holdsIn env e >>= fun test => if test then a fuel env else b fuel env) := by
  intro k code k' h fuel env vars pc hplaced hagree
  obtain ⟨test, value, k₁, elseCode, k₂, thenCode, gtest, gelse, gthen, rfl⟩ := lowerIf_gives h
  rw [List.append_assoc _ thenCode] at hplaced ⊢
  have hlabel := hplaced.left.right
  have hthenCode : Runs c m (thenCode ++ if elseReturns then [] else
      [.label (.numbered .endIf k.labels)])
      a := by
    cases elseReturns with
    | true => simpa using hthen gthen
    | false => exact (hthen gthen).then_label
  refine ((hcondition gtest).branch hm hplaced.left.left.left.left hlabel.head hagree).follows
    (holdsIn_ends c env e) fun b t ht => ?_
  obtain ⟨tpc, tvars⟩ := t
  obtain ⟨rfl, hagree'⟩ := ht
  cases b with
  | true =>
    refine .skip (label_step hlabel.head) ?_
    refine (hthenCode fuel (hplaced.right.at ?_) hagree').mono (Nat.le_refl 0) (Nat.le_refl fuel)
      fun _ u hu => ⟨?_, hu.agrees⟩
    · rw [List.length_append, ← Nat.add_assoc]
      rfl
    · rw [hu.pc]
      simp only [List.length_append, List.length_singleton, if_true]
      omega
  | false =>
    have helseCode := hplaced.left.left.left.right.at
      (show _ = pc + test.length + 1 by rw [List.length_append, Nat.add_assoc]; rfl)
    have hruns := helse gelse fuel helseCode hagree'
    cases elseReturns with
    | true => exact hruns.of_returns (hreturns rfl fuel env)
    | false =>
      refine hruns.then_next fun env' u hu => ?_
      have hgoto := (hplaced.left.left.right.at (hu.pc.trans ?_).symm).head
      · refine .skip (goto_step hm hgoto hplaced.right.right.head) ?_
        refine .skip (label_step hplaced.right.right.head) (.next ⟨?_, hu.agrees⟩)
        simp only [List.length_append, List.length_singleton, Bool.false_eq_true, if_false]
        omega
      · simp only [List.length_append, List.length_singleton]
        omega

/-! ## Loops -/

/-- From the label of its test on, a loop runs as the iterations of the source do. Each of them
passes the label, so that the steps are at least as many. -/
theorem iterate_follows {body : Locals → Action (Flow Locals)} {test : Locals → Action Bool}
    {bodyPlace testPlace endPlace fuel : Nat} {bodyLabel testLabel : Label}
    (hbodyLabel : m.instructions[bodyPlace]? = some (.label bodyLabel))
    (htestLabel : m.instructions[testPlace]? = some (.label testLabel))
    (hends : ∀ env, (test env).Ends)
    (htest : ∀ {env vars}, Agrees c env vars →
      (irMachine c.platform m).Computes 0 ⟨testPlace + 1, vars⟩ (test env) fun b =>
        Continues c (if b then bodyPlace else endPlace) env)
    (hbody : ∀ {env vars}, Agrees c env vars →
      (irMachine c.platform m).Follows 0 fuel ⟨bodyPlace + 1, vars⟩ (body env)
        (Continues c testPlace)) :
    ∀ (count : Nat), count ≤ fuel → ∀ {env : Locals} {s : IrState}, Continues c testPlace env s →
      (irMachine c.platform m).Follows 0 count s (iterate test body count env)
        (Continues c endPlace)
  | 0, _, _, _, _ => .outOfFuel
  | count + 1, hcount, env, ⟨_, vars⟩, ⟨rfl, hagree⟩ => by
    rw [iterate]
    refine (Machine.Follows.step (label_step htestLabel) ?_).mono (Nat.zero_le 1) (Nat.le_refl _)
      fun _ _ h => h
    refine (htest hagree).follows (hends env) fun b t ht => ?_
    cases b with
    | false => exact .next ht
    | true =>
      obtain ⟨tpc, tvars⟩ := t
      obtain ⟨rfl, hagree'⟩ := ht
      refine .skip (label_step hbodyLabel) ?_
      exact ((hbody hagree').mono (Nat.le_refl 0) (Nat.le_of_succ_le hcount) fun _ _ h => h).andThen
        fun env' u hu => iterate_follows hbodyLabel htestLabel hends htest hbody count
          (Nat.le_of_succ_le hcount) hu

theorem lowerLoop_lowers {condition : Lower (List Instr × Ir.Value)} {e : Expr}
    {body : Lower (List Instr)} {a : Nat → Locals → Action (Flow Locals)} (hm : m.LabelsPlaced)
    (hcondition : ∀ {k code value k'}, Gives condition k (code, value) k' →
      ConditionLowered c m k k' code value e)
    (hbody : LowersStmt c m body a) :
    LowersStmt c m (lowerLoop condition body)
      (fun fuel env => iterate (c.holdsIn · e) (a fuel) fuel env) := by
  intro k code k' h fuel env vars pc hplaced hagree
  obtain ⟨bodyCode, k₁, test, value, gbody, gtest, rfl⟩ := lowerLoop_gives h
  rw [List.append_assoc _ test] at hplaced ⊢
  have hgoto := hplaced.left.left.left
  have hbodyCode := hplaced.left.left.right
  have htestLabel := hplaced.left.right.head
  have htestCode := hplaced.right
  simp only [List.length_append, List.length_cons, List.length_nil, Nat.zero_add,
    ← Nat.add_assoc] at hbodyCode htestLabel htestCode ⊢
  refine .skip (goto_step hm hgoto.head htestLabel) ?_
  refine (iterate_follows hgoto.tail.head htestLabel (fun env => holdsIn_ends c env e)
    (fun {env vars} hagree => ?_) (fun {env vars} hagree => ?_) fuel (Nat.le_refl fuel)
    ⟨rfl, hagree⟩)
  · exact (hcondition gtest).branch hm htestCode hgoto.tail.head hagree
  · exact hbody gbody fuel hbodyCode hagree

/-! ## The tree -/

mutual

theorem exec_returns (c : Context) (fuel : Nat) : ∀ (s : Stmt), s.endsWithReturn →
    ∀ env w env' w', exec c fuel s env w ≠ .ok (.next env') w'
  | .ret none, _, _, _, _, _, hnext => by
    rw [exec] at hnext
    cases hnext
  | .ret (some value), _, env, w, env', w', hnext => by
    rw [exec] at hnext
    obtain ⟨v, t, _, hnext⟩ := Action.bind_eq_ok hnext
    rw [Context.giveBack] at hnext
    split at hnext
    · cases hnext
    · obtain ⟨_, _, _, hnext⟩ := Action.bind_eq_ok hnext
      cases hnext
  | .block body, h, env, w, env', w', hnext => by
    rw [exec] at hnext
    exact execAll_returns c fuel body (by rwa [Stmt.endsWithReturn] at h) env w env' w' hnext
  | .ite condition thenBranch elseBranch, h, env, w, env', w', hnext => by
    rw [Stmt.endsWithReturn, Bool.and_eq_true] at h
    rw [exec] at hnext
    obtain ⟨b, t, _, hnext⟩ := Action.bind_eq_ok hnext
    cases b with
    | true => exact exec_returns c fuel thenBranch h.1 env t env' w' hnext
    | false => exact exec_returns c fuel elseBranch h.2 env t env' w' hnext

theorem execAll_returns (c : Context) (fuel : Nat) : ∀ (body : List Stmt),
    Stmt.lastEndsWithReturn body → ∀ env w env' w', execAll c fuel body env w ≠ .ok (.next env') w'
  | [s], h, env, w, env', w', hnext => by
    rw [execAll, andThen] at hnext
    obtain ⟨flow, t, hs, hnext⟩ := Action.bind_eq_ok hnext
    cases flow with
    | next env₁ => exact exec_returns c fuel s h env w env₁ t hs
    | returned value => cases hnext
  | s :: s' :: rest, h, env, w, env', w', hnext => by
    rw [execAll, andThen] at hnext
    obtain ⟨flow, t, _, hnext⟩ := Action.bind_eq_ok hnext
    cases flow with
    | next env₁ =>
      rw [Stmt.lastEndsWithReturn] at h
      exact execAll_returns c fuel (s' :: rest) h env₁ t env' w' hnext
    | returned value => cases hnext

end

mutual

/-- The code of a statement does what the statement does. -/
theorem lowerStmt_lowers (hc : c.method = .ofMethod d) (hm : m.LabelsPlaced)
    (hreturn : m.returnTy = d.returnTy) :
    ∀ (s : Stmt), LowersStmt c m (lowerStmt (scopeOf c d) s) (fun fuel => exec c fuel s)
  | .assign target value => by
    rw [lowerStmt]
    simp only [exec]
    exact lowerAssign_lowers hc hm target value
  | .arrayAssign target index value => by
    rw [lowerStmt]
    simp only [exec]
    exact lowerArrayAssign_lowers hc hm target index value
  | .ite condition thenBranch elseBranch => by
    rw [lowerStmt]
    simp only [exec]
    exact lowerIf_lowers hm (lowerCondition_lowered hc hm condition)
      (lowerStmt_lowers hc hm hreturn thenBranch) (lowerStmt_lowers hc hm hreturn elseBranch)
      fun h fuel => exec_returns c fuel elseBranch h
  | .loop condition body => by
    rw [lowerStmt]
    simp only [exec]
    exact lowerLoop_lowers hm (lowerCondition_lowered hc hm condition)
      (lowerStmt_lowers hc hm hreturn body)
  | .block body => by
    rw [lowerStmt]
    simp only [exec]
    exact lowerStmts_lowers hc hm hreturn body
  | .ret none => by
    intro k code k' h fuel env vars pc hplaced _
    rw [lowerStmt] at h
    obtain ⟨rfl, rfl⟩ := Gives.pure_iff.mp h
    simp only [exec]
    refine .returned ?_
    rw [irMachine_at (s := ⟨pc, vars⟩) hplaced.head, irInstr]
  | .ret (some value) => by
    rw [lowerStmt]
    simp only [exec]
    exact lowerReturn_lowers hc hm hreturn value
  | .expr value => by
    rw [lowerStmt]
    simp only [exec]
    exact lowerEffect_runs hc hm value

theorem lowerStmts_lowers (hc : c.method = .ofMethod d) (hm : m.LabelsPlaced)
    (hreturn : m.returnTy = d.returnTy) :
    ∀ (body : List Stmt), LowersStmt c m (lowerStmts (scopeOf c d) body)
      (fun fuel => execAll c fuel body)
  | [] => by
    intro k code k' h fuel env vars pc _ hagree
    obtain ⟨rfl, rfl⟩ := Gives.pure_iff.mp h
    simp only [execAll]
    exact .next ⟨rfl, hagree⟩
  | s :: rest => by
    intro k code k' h fuel env vars pc hplaced hagree
    rw [lowerStmts] at h
    obtain ⟨first, k₁, gfirst, h⟩ := h.bind
    obtain ⟨more, k₂, gmore, h⟩ := h.bind
    obtain ⟨rfl, rfl⟩ := Gives.pure_iff.mp h
    simp only [execAll]
    refine ((lowerStmt_lowers hc hm hreturn s) gfirst fuel hplaced.left hagree).andThen
      fun env' t ht => ?_
    obtain ⟨tpc, tvars⟩ := t
    obtain ⟨rfl, hagree'⟩ := ht
    have hrest := (lowerStmts_lowers hc hm hreturn rest) gmore fuel hplaced.right hagree'
    rwa [Nat.add_assoc, ← List.length_append] at hrest

end

end MiniJava.Semantics
