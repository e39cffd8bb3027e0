import MiniJava.Proofs.Lowering.Validation

/-!
# Why lowering fails

Lowering fails only for what is wrong with a program: a name that means nothing, a value that is not
there, a construct without code. It never breaks its own promises, so a body whose statements are
lowered always becomes a method.
-/

namespace MiniJava

theorem except_bind_error {ε α β : Type} {x : Except ε α} {f : α → Except ε β} {e : ε}
    (h : x >>= f = .error e) : x = .error e ∨ ∃ a, x = .ok a ∧ f a = .error e := by
  cases x with
  | error e' =>
    cases h
    exact .inl rfl
  | ok a => exact .inr ⟨a, rfl, h⟩

/-- A computation with a state fails, and goes from one state to another. -/
def Fails {ε σ α : Type} (x : ExceptT ε (StateM σ) α) (s : σ) (e : ε) (s' : σ) : Prop :=
  (x.run).run s = (.error e, s')

/-- All failures of a computation are of a kind. -/
def FailsOnly {ε σ α : Type} (E : ε → Prop) (x : ExceptT ε (StateM σ) α) : Prop :=
  ∀ ⦃s e s'⦄, Fails x s e s' → E e

namespace FailsOnly

variable {ε σ α β : Type} {E : ε → Prop}

theorem pure (a : α) : FailsOnly E (Pure.pure a : ExceptT ε (StateM σ) α) :=
  fun _ _ _ h => nomatch h

theorem throw {e : ε} (h : E e) : FailsOnly E (throw e : ExceptT ε (StateM σ) α) := by
  intro s e' s' hfail
  cases hfail
  exact h

theorem lift {x : Except ε α} (h : ∀ e, x = .error e → E e) :
    FailsOnly E (liftM x : ExceptT ε (StateM σ) α) := by
  intro s e s' hfail
  cases x with
  | ok a => cases hfail
  | error e' =>
    cases hfail
    exact h _ rfl

theorem bind_of_gives {x : ExceptT ε (StateM σ) α} {f : α → ExceptT ε (StateM σ) β}
    (hx : FailsOnly E x) (hf : ∀ ⦃s a t⦄, Gives x s a t → ∀ ⦃e s'⦄, Fails (f a) t e s' → E e) :
    FailsOnly E (x >>= f) := by
  intro s e s' h
  rw [Fails, run_bind] at h
  cases hr : (x.run).run s with
  | mk r t =>
    rw [hr] at h
    cases r with
    | ok a => exact hf hr h
    | error e' =>
      cases h
      exact hx hr

theorem bind {x : ExceptT ε (StateM σ) α} {f : α → ExceptT ε (StateM σ) β} (hx : FailsOnly E x)
    (hf : ∀ a, FailsOnly E (f a)) : FailsOnly E (x >>= f) :=
  hx.bind_of_gives fun _ a _ _ _ _ h => hf a h

end FailsOnly

namespace Semantics

open Ir (Operand Instr)
open Lowering

/-- The errors that are the fault of a program, and not of lowering itself. -/
def ProgramError : CompileError → Prop
  | .duplicateLabel .. | .undefinedLabel .. | .contract _ => False
  | _ => True

/-- Lowering fails only for the faults of a program. -/
abbrev Blames {α : Type} (x : Lower α) : Prop := FailsOnly ProgramError x

section Parts

variable {x y : Lower Lowered} {symbols : SymbolTable} {d : Method}

theorem blames_freshTemp (ty : Ty) : Blames (freshTemp ty) := fun _ _ _ h => nomatch h

theorem blames_freshLabel : Blames freshLabel := fun _ _ _ h => nomatch h

theorem require_error {l : Lowered} {role : OperandRole} {e : CompileError}
    (h : l.require role = .error e) : ProgramError e := by
  rw [Lowered.require] at h
  cases ho : l.operand with
  | some o =>
    rw [ho] at h
    cases h
  | none =>
    rw [ho] at h
    cases h
    trivial

theorem blames_require (l : Lowered) (role : OperandRole) :
    Blames (liftM (l.require role) : Lower Operand) :=
  .lift fun _ => require_error

theorem blames_elementTy (name : String) (o : Operand) :
    Blames (liftM (elementTy name o) : Lower Ty) := by
  refine .lift fun e h => ?_
  rw [elementTy] at h
  cases hty : o.ty with
  | array element =>
    rw [hty] at h
    cases h
  | int | boolean | string | void | object =>
    rw [hty] at h
    cases h
    trivial

theorem blames_resolve (name : String) :
    Blames (liftM (Scope.resolve { symbols, method := some d } name) : Lower Binding) := by
  refine .lift fun e h => ?_
  rw [Scope.resolve, Scope.currentMethod_some, pure_bind] at h
  split at h
  · cases h
  · cases h
  · split at h
    · cases h
    · cases h
      trivial

theorem blames_receiver (use : ReceiverUse) :
    Blames (liftM (Scope.receiver { symbols, method := some d } use) : Lower Operand) := by
  refine .lift fun e h => ?_
  rw [Scope.receiver, Scope.currentMethod_some, pure_bind] at h
  split at h
  · cases h
    trivial
  · cases h

theorem blames_compute (code : List Instr) (ty : Ty) (value : Ir.Value) :
    Blames (compute code ty value) :=
  (blames_freshTemp ty).bind fun _ => .pure _

theorem blames_lowerVar (name : String) :
    Blames (lowerVar { symbols, method := some d } name) := by
  refine (blames_resolve name).bind fun binding => ?_
  match binding with
  | .variable ty => exact .pure _
  | .field ty => exact (blames_receiver _).bind fun _ => blames_compute _ _ _
  | .className name => exact .throw trivial

theorem blames_lowerBinary (op : Ir.BinOp) (hx : Blames x) (hy : Blames y) :
    Blames (lowerBinary op x y) :=
  hx.bind fun _ => hy.bind fun _ => (blames_require _ _).bind fun _ =>
    (blames_require _ _).bind fun _ => blames_compute _ _ _

theorem blames_lowerAnd (decided : Option Bool) (hx : Blames x) (hy : Blames y) :
    Blames (lowerAnd decided x y) := by
  match decided with
  | some true => exact hy
  | some false => exact .pure _
  | none =>
    exact hx.bind fun _ => (blames_require _ _).bind fun _ => blames_freshLabel.bind fun _ =>
      (blames_freshTemp _).bind fun _ => hy.bind fun _ => (blames_require _ _).bind fun _ => .pure _

theorem blames_lowerOr (decided : Option Bool) (hx : Blames x) (hy : Blames y) :
    Blames (lowerOr decided x y) := by
  match decided with
  | some false => exact hy
  | some true => exact .pure _
  | none =>
    exact hx.bind fun _ => (blames_require _ _).bind fun _ => blames_freshLabel.bind fun _ =>
      (blames_freshTemp _).bind fun _ => hy.bind fun _ => (blames_require _ _).bind fun _ => .pure _

theorem blames_lowerNot (hx : Blames x) : Blames (lowerNot x) :=
  hx.bind fun _ => (blames_require _ _).bind fun _ => blames_compute _ _ _

theorem blames_lowerNewArray (element : Ty) (hx : Blames x) : Blames (lowerNewArray element x) :=
  hx.bind fun _ => (blames_require _ _).bind fun _ => blames_compute _ _ _

theorem storeItems_error {array : Operand} {element : Ty} : ∀ {items : List Lowered} {index : Nat}
    {e : CompileError}, storeItems array element index items = .error e → ProgramError e
  | item :: rest, index, e, h => by
    rw [storeItems] at h
    rcases except_bind_error h with h | ⟨value, _, h⟩
    · exact require_error h
    · rcases except_bind_error h with h | ⟨stores, _, h⟩
      · exact storeItems_error h
      · cases h

theorem blames_packArray (element : Ty) (items : List Lowered) : Blames (packArray element items) := by
  rw [packArray]
  split
  · exact FailsOnly.bind (.throw trivial) fun _ => (blames_freshTemp _).bind fun _ =>
      (FailsOnly.lift fun _ => storeItems_error).bind fun _ => .pure _
  · exact (blames_freshTemp _).bind fun _ =>
      (FailsOnly.lift fun _ => storeItems_error).bind fun _ => .pure _

theorem blames_lowerIndex (name : String) (hx : Blames x) (hy : Blames y) :
    Blames (lowerIndex name x y) :=
  hx.bind fun _ => (blames_require _ _).bind fun _ => (blames_elementTy _ _).bind fun _ =>
    hy.bind fun _ => (blames_require _ _).bind fun _ => blames_compute _ _ _

theorem blames_lowerLength (name : String) (hx : Blames x) : Blames (lowerLength name x) :=
  hx.bind fun _ => (blames_require _ _).bind fun _ => (blames_elementTy _ _).bind fun _ =>
    blames_compute _ _ _

theorem blames_lowerNewObject (name : String) : Blames (lowerNewObject name) :=
  (blames_freshTemp _).bind fun _ => .pure _

theorem blames_lowerTarget (target : Expr) (hx : Blames x) :
    Blames (lowerTarget { symbols, method := some d } target x) := by
  have hother : Blames (do
      let l ← x
      return (l.code, ← l.require .callTarget)) :=
    hx.bind fun _ => (blames_require _ _).bind fun _ => .pure _
  cases target with
  | var name =>
    refine (blames_resolve name).bind fun binding => ?_
    match binding with
    | .className name => exact .pure _
    | .variable ty | .field ty =>
      exact (blames_lowerVar name).bind fun _ => (blames_require _ _).bind fun _ => .pure _
  | _ => exact hother

theorem blames_cons (formals : Formals) {rest : Lower Arguments} (hx : Blames x)
    (hrest : Blames rest) : Blames (Arguments.cons formals x rest) := by
  refine hx.bind fun a => ?_
  split
  · exact hrest.bind fun _ => .pure _
  · exact (blames_require _ _).bind fun _ => hrest.bind fun _ => .pure _

theorem blames_packArguments (array element : Ty) (items : List Lowered) :
    Blames (packArguments array element items) := by
  rw [packArguments.eq_def]
  split
  · split
    · exact .pure _
    · exact blames_packArray _ _
  · exact blames_packArray _ _

theorem blames_close (formals : Formals) (args : Arguments) : Blames (args.close formals) := by
  cases formals with
  | plain tys => exact .pure _
  | varargs tys array =>
    exact (blames_packArguments _ _ _).bind fun _ => (blames_require _ _).bind fun _ => .pure _

theorem blames_lowerCall {target : Lower (List Instr × Operand)} {method : String}
    {args : Formals → Lower Arguments} {expected : Option Ty} {discard : Bool}
    (htarget : Blames target) (hargs : ∀ formals, Blames (args formals)) :
    Blames (lowerCall { symbols, method := some d } target method args expected discard) := by
  refine htarget.bind fun _ => (hargs _).bind fun _ => (blames_close _ _).bind fun _ => ?_
  dsimp only
  split
  · exact .pure _
  · exact blames_compute _ _ _

end Parts

/-! ## The tree -/

section Trees

variable (symbols : SymbolTable) (d : Method)

mutual

theorem blames_lowerExpr : ∀ (hint : Option Ty) (e : Expr),
    Blames (lowerExpr { symbols, method := some d } hint e)
  | hint, .literal value => by
    rw [lowerExpr]
    exact .pure _
  | hint, .self => by
    rw [lowerExpr]
    exact (blames_receiver _).bind fun _ => .pure _
  | hint, .var name => by
    rw [lowerExpr]
    exact blames_lowerVar name
  | hint, .paren inner => by
    rw [lowerExpr]
    exact blames_lowerExpr hint inner
  | hint, .binary op left right => by
    have hl := blames_lowerExpr (some .int) left
    have hr := blames_lowerExpr (some .int) right
    have hl' := blames_lowerExpr (some .boolean) left
    have hr' := blames_lowerExpr (some .boolean) right
    cases op with
    | add | sub | mul | div | lt =>
      rw [lowerExpr]
      exact blames_lowerBinary _ hl hr
    | and =>
      rw [lowerExpr]
      exact blames_lowerAnd _ hl' hr'
    | or =>
      rw [lowerExpr]
      exact blames_lowerOr _ hl' hr'
  | hint, .not operand => by
    rw [lowerExpr]
    exact blames_lowerNot (blames_lowerExpr _ operand)
  | hint, .newArray element size => by
    rw [lowerExpr]
    exact blames_lowerNewArray element (blames_lowerExpr _ size)
  | hint, .arrayLiteral elements => by
    rw [lowerExpr]
    exact (blames_lowerItems _ elements).bind fun _ => blames_packArray _ _
  | hint, .index array index => by
    rw [lowerExpr]
    exact blames_lowerIndex _ (blames_lowerExpr _ array) (blames_lowerExpr _ index)
  | hint, .length array => by
    rw [lowerExpr]
    exact blames_lowerLength _ (blames_lowerExpr _ array)
  | hint, .newObject name => by
    rw [lowerExpr]
    exact blames_lowerNewObject name
  | hint, .call target method args => by
    rw [lowerExpr]
    exact blames_lowerCall (blames_lowerTarget target (blames_lowerExpr _ target))
      fun formals => blames_lowerArgs formals args

theorem blames_lowerItems : ∀ (hint : Option Ty) (es : List Expr),
    Blames (lowerItems { symbols, method := some d } hint es)
  | hint, [] => by
    rw [lowerItems]
    exact .pure _
  | hint, e :: rest => by
    rw [lowerItems]
    exact (blames_lowerExpr hint e).bind fun _ => (blames_lowerItems hint rest).bind fun _ => .pure _

theorem blames_lowerArgs : ∀ (formals : Formals) (es : List Expr),
    Blames (lowerArgs { symbols, method := some d } formals es)
  | formals, [] => by
    rw [lowerArgs]
    exact .pure _
  | formals, e :: rest => by
    rw [lowerArgs]
    exact blames_cons formals (blames_lowerExpr _ e) (blames_lowerArgs _ rest)

end

theorem blames_lowerEffect (e : Expr) :
    Blames (lowerEffect { symbols, method := some d } e) := by
  refine lowerEffect_cases (P := fun _ x => Blames x) (fun target method args => ?_)
    (fun e _ _ => blames_lowerExpr symbols d none e) e
  exact blames_lowerCall (blames_lowerTarget target (blames_lowerExpr _ _ _ target))
    fun formals => blames_lowerArgs _ _ formals args

theorem blames_lowerCondition (e : Expr) :
    Blames (lowerCondition { symbols, method := some d } e) := by
  refine lowerCondition_cases (P := fun _ x => Blames x) (fun left right => ?_) (fun e => ?_) e
  · exact (blames_lowerExpr _ _ _ left).bind fun _ => (blames_lowerExpr _ _ _ right).bind fun _ =>
      (blames_require _ _).bind fun _ => (blames_require _ _).bind fun _ => .pure _
  · exact (blames_lowerExpr _ _ _ e).bind fun _ => (blames_require _ _).bind fun _ => .pure _

theorem blames_lowerAssign (target : String) (value : Expr) :
    Blames (lowerAssign { symbols, method := some d } target
      fun hint => lowerExpr { symbols, method := some d } hint value) := by
  refine (blames_resolve target).bind fun binding => ?_
  match binding with
  | .variable ty =>
    exact (blames_lowerExpr _ _ _ value).bind fun _ => (blames_require _ _).bind fun _ => .pure _
  | .field ty =>
    exact (blames_lowerExpr _ _ _ value).bind fun _ => (blames_require _ _).bind fun _ =>
      (blames_receiver _).bind fun _ => .pure _
  | .className name => exact .throw trivial

mutual

theorem blames_lowerStmt : ∀ (s : Stmt), Blames (lowerStmt { symbols, method := some d } s)
  | .assign target value => by
    rw [lowerStmt]
    exact blames_lowerAssign symbols d target value
  | .arrayAssign target index value => by
    rw [lowerStmt]
    exact (blames_lowerVar target).bind fun _ => (blames_require _ _).bind fun _ =>
      (blames_elementTy _ _).bind fun _ => (blames_lowerExpr _ _ _ index).bind fun _ =>
      (blames_require _ _).bind fun _ => (blames_lowerExpr _ _ _ value).bind fun _ =>
      (blames_require _ _).bind fun _ => .pure _
  | .ite condition thenBranch elseBranch => by
    rw [lowerStmt]
    exact blames_freshLabel.bind fun _ => (blames_lowerCondition _ _ condition).bind fun _ =>
      (blames_lowerStmt elseBranch).bind fun _ => (blames_lowerStmt thenBranch).bind fun _ => .pure _
  | .loop condition body => by
    rw [lowerStmt]
    exact blames_freshLabel.bind fun _ => (blames_lowerStmt body).bind fun _ =>
      (blames_lowerCondition _ _ condition).bind fun _ => .pure _
  | .block body => by
    rw [lowerStmt]
    exact blames_lowerStmts body
  | .ret none => by
    rw [lowerStmt]
    exact .pure _
  | .ret (some value) => by
    rw [lowerStmt]
    exact FailsOnly.bind (.lift fun _ h => nomatch h) fun _ =>
      (blames_lowerExpr _ _ _ value).bind fun _ => (blames_require _ _).bind fun _ => .pure _
  | .expr value => by
    rw [lowerStmt]
    exact (blames_lowerEffect _ _ value).bind fun _ => .pure _

theorem blames_lowerStmts : ∀ (body : List Stmt),
    Blames (lowerStmts { symbols, method := some d } body)
  | [] => by
    rw [lowerStmts]
    exact .pure _
  | s :: rest => by
    rw [lowerStmts]
    exact (blames_lowerStmt s).bind fun _ => (blames_lowerStmts rest).bind fun _ => .pure _

end

theorem blames_lowerBody : Blames (lowerBody symbols d) :=
  (blames_lowerStmts symbols d d.body).bind fun _ => .pure _

end Trees

/-! ## Methods -/

/-- What the code of a method is lowered in, on any platform. -/
def anyContext (symbols : SymbolTable) (d : Method) : Context :=
  { platform := words id fun heap _ _ _ => .returned .null heap, symbols, method := .ofMethod d
    self := .null }

theorem lowerBody_code {symbols : SymbolTable} {d : Method} {k k' : Counters} {code : List Instr}
    (h : Gives (lowerBody symbols d) k code k') :
    Code (anyContext symbols d) (fun _ => True) [] k code [] k' :=
  lowerBody_codes (c := anyContext symbols d) rfl (fun _ _ _ _ _ => trivial) (fun _ _ _ _ => trivial)
    (fun _ => trivial) (Stmt.allKeep_nothing _ d.body) h

/-- A body is accepted whenever all statements lower. -/
theorem lowerMethod_succeeds {symbols : SymbolTable} {d : Method} {k k' : Counters}
    {code : List Instr} (h : Gives (lowerBody symbols d) k code k') :
    ∃ ir, (frame symbols.className d).setBody code = (.ok (), ir) ∧
      Gives (lowerMethod symbols d) k ir k' := by
  obtain ⟨ir, hset⟩ := (lowerBody_code h).accepted rfl symbols.className
  refine ⟨ir, hset, ?_⟩
  rw [lowerMethod, Gives.bind_iff]
  refine ⟨code, k', h, ?_⟩
  rw [hset]
  exact Gives.bind_iff.mpr ⟨(), k', Gives.lift_iff.mpr ⟨rfl, rfl⟩, Gives.pure_iff.mpr ⟨rfl, rfl⟩⟩

theorem blames_lowerMethod (symbols : SymbolTable) (d : Method) : Blames (lowerMethod symbols d) := by
  refine (blames_lowerBody symbols d).bind_of_gives fun k code k' h e s' hfails => ?_
  obtain ⟨ir, hset⟩ := (lowerBody_code h).accepted rfl symbols.className
  rw [hset] at hfails
  cases hfails

/-- The operands of an instruction: those it reads, and the variable it assigns. -/
def occurrences : Instr → List Operand
  | .assign (.var dest) value => dest :: value.operands
  | i => i.usedOperands

theorem Code.occurrence_defined {c : Context} {Φ : Instr → Prop} {os : List Operand}
    {k k' : Counters} {code : List Instr} (h : Code c Φ [] k code os k') {i : Instr} (hi : i ∈ code)
    {id : Nat} {ty : Ty} (ho : .temp id ty ∈ occurrences i) : (id, ty) ∈ defsOf code := by
  have hused : .temp id ty ∈ i.usedOperands → (id, ty) ∈ defsOf code := fun ho => h.reads_held hi ho
  match i with
  | .assign (.var dest) value =>
    rcases List.mem_cons.mp ho with heq | ho
    · refine List.mem_filterMap.mpr ⟨_, hi, ?_⟩
      rw [← heq]
      rfl
    · exact hused ho
  | .assign (.element ..) _ | .putField .. | .call _ | .label _ | .goto _ | .condGoto .. | .ret _ =>
    exact hused ho

/-- Whenever all statements of a method lower its body is accepted, and lowering never gives an error
that is its own fault. On every path to an instruction of a lowered method the temporaries that the
instruction reads were assigned, and a temporary has the same type wherever it occurs. -/
theorem lowerMethod_defines_temporaries (symbols : SymbolTable) (d : Method) (k : Counters) :
    (∀ code k', Gives (lowerStmts { symbols, method := some d } d.body) k code k' →
      ∃ body ir, Gives (lowerBody symbols d) k body k' ∧
        (frame symbols.className d).setBody body = (.ok (), ir) ∧
        Gives (lowerMethod symbols d) k ir k') ∧
    (∀ e k', Fails (lowerMethod symbols d) k e k' →
      (∀ l name, e ≠ .duplicateLabel l name) ∧ (∀ l name, e ≠ .undefinedLabel l name) ∧
        ∀ breach, e ≠ .contract breach) ∧
    ∀ ir k', Gives (lowerMethod symbols d) k ir k' →
      (∀ n assigned i, Path countAssigned (FromStart []) ir.instructions n assigned →
        ir.instructions[n]? = some i → ReadsAssigned i assigned) ∧
      ∀ i ∈ ir.instructions, ∀ j ∈ ir.instructions, ∀ id ty ty', .temp id ty ∈ occurrences i →
        .temp id ty' ∈ occurrences j → ty = ty' := by
  refine ⟨fun code k' h => ?_, fun e k' h => ?_, fun ir k' h => ⟨?_, ?_⟩⟩
  · have hbody : Gives (lowerBody symbols d) k
        (if d.returnTy.isVoid && !d.endsWithReturn then code ++ [.ret none] else code) k' :=
      Gives.bind_iff.mpr ⟨code, k', h, Gives.pure_iff.mpr ⟨rfl, rfl⟩⟩
    obtain ⟨ir, hset, hmethod⟩ := lowerMethod_succeeds hbody
    exact ⟨_, ir, hbody, hset, hmethod⟩
  · have hblames := blames_lowerMethod symbols d h
    refine ⟨?_, ?_, ?_⟩
    · rintro l name rfl
      exact hblames
    · rintro l name rfl
      exact hblames
    · rintro breach rfl
      exact hblames
  · exact fun n assigned i hpath hi =>
      (lowerBody_code (lowerMethod_gives h).body).reads_assigned hpath hi
  · intro i hi j hj id ty ty' ho ho'
    have hcode := lowerBody_code (lowerMethod_gives h).body
    exact hcode.temp_type _ (hcode.occurrence_defined hi ho) _ (hcode.occurrence_defined hj ho') rfl

/-- A loop whose test is a disjunction: the result of the operator, which is computed in two ways, is
there where it is tested. -/
theorem lowerMethod_defines_temporaries_test :
    let m : Method := {
      name := "f", returnTy := .boolean, params := [{ name := "p", ty := .boolean }]
      body := [.loop (.binary .or (.var "p") (.not (.var "p"))) (.block []), .ret (some (.var "p"))] }
    let symbols : SymbolTable :=
      { className := "A", superclass := none, imports := [], fields := []
        methods := [.ofMethod m] }
    ∃ ir k', Gives (lowerMethod symbols m) {} ir k' ∧
      ir.instructions[10]? =
        some (Instr.condGoto (.operand (.temp 0 .boolean)) (.numbered .loopBody 0)) ∧
      ∀ n assigned i, Path countAssigned (FromStart []) ir.instructions n assigned →
        ir.instructions[n]? = some i → ReadsAssigned i assigned := by
  intro m symbols
  have h : Gives (lowerMethod symbols m) {} _ _ := rfl
  exact ⟨_, _, h, rfl, ((lowerMethod_defines_temporaries symbols m {}).2.2 _ _ h).1⟩

end Semantics

end MiniJava
