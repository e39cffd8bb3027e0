import MiniJava.Proofs.Lowering.Allocations

/-!
# The forms of lowered instructions

The intermediate code can say more than lowering ever does. Lowering never uses the name of a class
as a value, allocates only where the result is assigned, and always names the method of a call and
gives the size of an array. Every instruction that it makes, from whatever tree, has one of the forms
below.
-/

namespace MiniJava.Lowering

open Ir (Instr Operand Value Call)

/-! ## Forms -/

/-- An operand that has a value. -/
def IsValue (o : Operand) : Prop :=
  ∀ name, o ≠ .classRef name

/-- The calls that lowering makes, the allocation and construction of objects left out. -/
inductive FormedCall : Call → Prop
  | newArray {element : Ty} {size : Operand} (hsize : IsValue size) :
    FormedCall (.newArray element size)
  | arrayLength {array : Operand} (harray : IsValue array) : FormedCall (.arrayLength array)
  | static {className method : String} {args : List Operand} {ty : Ty}
    (hargs : ∀ o ∈ args, IsValue o) :
    FormedCall { kind := .invokeStatic, target := .classRef className, method := some method, args
                 returnTy := ty }
  | virtual {target : Operand} {method : String} {args : List Operand} {ty : Ty}
    (htarget : IsValue target) (hargs : ∀ o ∈ args, IsValue o) :
    FormedCall { kind := .invokeVirtual, target, method := some method, args, returnTy := ty }

/-- The values that lowering computes. -/
inductive FormedValue : Value → Prop
  | operand {o : Operand} (ho : IsValue o) : FormedValue (.operand o)
  | binary {op : Ir.BinOp} {left right : Operand} (hleft : IsValue left) (hright : IsValue right) :
    FormedValue (.binary op left right)
  | not {o : Operand} (ho : IsValue o) : FormedValue (.not o)
  | getField {className field : String} {ty : Ty} :
    FormedValue (.getField (.receiver className) field ty)
  | arrayLoad {array index : Operand} {ty : Ty} (harray : IsValue array) (hindex : IsValue index) :
    FormedValue (.arrayLoad array index ty)
  | call {call : Call} (h : FormedCall call) : FormedValue (.call call)

/-- The instructions that lowering makes in a method. -/
inductive FormedInstr (d : Method) : Instr → Prop
  | compute {id : Nat} {ty : Ty} {value : Value} (h : FormedValue value) :
    FormedInstr d (.assignVar (.temp id ty) value)
  | allocate {id : Nat} {name : String} :
    FormedInstr d (.assignVar (.temp id (.object name)) (.call (.newObject name)))
  | construct {id : Nat} {name : String} :
    FormedInstr d (.call (.constructor (.temp id (.object name))))
  | assign {name : String} {ty : Ty} {o : Operand} (hname : Scope.localTy? d name = some ty)
    (ho : IsValue o) : FormedInstr d (.assignVar (.var name ty) (.operand o))
  | store {array index o : Operand} {ty : Ty} (harray : IsValue array) (hindex : IsValue index)
    (ho : IsValue o) : FormedInstr d (.assign (.element array index ty) (.operand o))
  | putField {className field : String} {o : Operand} (ho : IsValue o) :
    FormedInstr d (.putField (.receiver className) field o)
  | call {call : Call} (h : FormedCall call) : FormedInstr d (.call call)
  | label {l : Label} : FormedInstr d (.label l)
  | goto {l : Label} : FormedInstr d (.goto l)
  | branch {o : Operand} {l : Label} (ho : IsValue o) : FormedInstr d (.condGoto (.operand o) l)
  | branchLess {left right : Operand} {l : Label} (hleft : IsValue left) (hright : IsValue right) :
    FormedInstr d (.condGoto (.binary .lt left right) l)
  | ret : FormedInstr d (.ret none)
  | retValue {o : Operand} (ho : IsValue o) : FormedInstr d (.ret (some o))

variable {d : Method} {symbols : SymbolTable}

/-- Code that consists of such instructions. -/
def FormedCode (d : Method) (code : List Instr) : Prop :=
  ∀ i ∈ code, FormedInstr d i

namespace FormedCode

variable {code code' : List Instr} {i : Instr}

theorem nil : FormedCode d [] := List.forall_mem_nil _

theorem cons (hi : FormedInstr d i) (h : FormedCode d code) : FormedCode d (i :: code) :=
  List.forall_mem_cons.mpr ⟨hi, h⟩

theorem append (h : FormedCode d code) (h' : FormedCode d code') : FormedCode d (code ++ code') :=
  List.forall_mem_append.mpr ⟨h, h'⟩

theorem snoc (h : FormedCode d code) (hi : FormedInstr d i) : FormedCode d (code ++ [i]) :=
  h.append (.cons hi .nil)

theorem skip (hi : FormedInstr d i) (returns : Bool) :
    FormedCode d (if returns then [] else [i]) := by
  cases returns with
  | true => exact .nil
  | false => exact .cons hi .nil

end FormedCode

/-- Code of such instructions, with an operand that has a value if there is one. -/
structure FormedResult (d : Method) (l : Lowered) : Prop where
  code : FormedCode d l.code
  operand : ∀ o, l.operand = some o → IsValue o

/-- Lowering an expression gives code of this form. -/
abbrev Forms (d : Method) (x : Lower Lowered) : Prop :=
  Yields (FormedResult d) x

theorem IsValue.temp (id : Nat) (ty : Ty) : IsValue (.temp id ty) := nofun

theorem IsValue.literal (value : Literal) : IsValue (.literal value) := nofun

theorem FormedResult.value {o : Operand} (ho : IsValue o) : FormedResult d (.value o) :=
  ⟨.nil, by rintro o' ⟨⟩; exact ho⟩

/-! ## Single nodes -/

section Parts

variable {x y : Lower Lowered}

theorem require_isValue {l : Lowered} (h : FormedResult d l) (role : OperandRole) :
    Yields IsValue (liftM (l.require role) : Lower Operand) := by
  intro k o k' hgives
  obtain ⟨hrequire, _⟩ := Gives.lift_iff.mp hgives
  refine h.operand o ?_
  rw [Lowered.require] at hrequire
  cases hoperand : l.operand with
  | none => rw [hoperand] at hrequire; cases hrequire
  | some o' => rw [hoperand] at hrequire; cases hrequire; rfl

theorem freshTemp_isTemp (ty : Ty) :
    Yields (fun o => ∃ id, o = Operand.temp id ty) (freshTemp ty) := by
  intro k o k' h
  cases h
  exact ⟨_, rfl⟩

theorem compute_forms {code : List Instr} {ty : Ty} {value : Value} (h : FormedCode d code)
    (hvalue : FormedValue value) : Forms d (compute code ty value) := by
  refine .bind (freshTemp_isTemp ty) ?_
  rintro _ ⟨id, rfl⟩
  exact .pure ⟨h.snoc (.compute hvalue), by rintro o ⟨⟩; exact .temp id ty⟩

theorem resolve_declared (name : String) :
    Yields (fun binding => ∀ ty, binding = .variable ty → Scope.localTy? d name = some ty)
      (liftM (Scope.resolve { symbols, method := some d } name) : Lower Binding) := by
  intro k binding k' h
  obtain ⟨hresolve, _⟩ := Gives.lift_iff.mp h
  rw [Scope.resolve, Scope.currentMethod_some, pure_bind] at hresolve
  rintro ty rfl
  split at hresolve
  · cases hresolve
    assumption
  · cases hresolve
  · split at hresolve <;> cases hresolve

theorem receiver_isReceiver (use : ReceiverUse) :
    Yields (fun o => ∃ className, o = Operand.receiver className)
      (liftM (Scope.receiver { symbols, method := some d } use) : Lower Operand) := by
  intro k o k' h
  obtain ⟨hreceiver, _⟩ := Gives.lift_iff.mp h
  rw [Scope.receiver, Scope.currentMethod_some, pure_bind] at hreceiver
  split at hreceiver
  · cases hreceiver
  · cases hreceiver
    exact ⟨_, rfl⟩

theorem lowerVar_forms (name : String) : Forms d (lowerVar { symbols, method := some d } name) := by
  refine .behind fun binding => ?_
  match binding with
  | .variable ty => exact .pure (.value nofun)
  | .field ty =>
    refine .bind (receiver_isReceiver _) ?_
    rintro _ ⟨className, rfl⟩
    exact compute_forms .nil .getField
  | .className name => exact .throw

theorem lowerBinary_forms (op : Ir.BinOp) (hx : Forms d x) (hy : Forms d y) :
    Forms d (lowerBinary op x y) :=
  .bind hx fun _ hl => .bind hy fun _ hr => .bind (require_isValue hl _) fun _ hu =>
    .bind (require_isValue hr _) fun _ hv =>
    compute_forms (hl.code.append hr.code) (.binary hu hv)

theorem lowerAnd_forms (decided : Option Bool) (hx : Forms d x) (hy : Forms d y) :
    Forms d (lowerAnd decided x y) := by
  match decided with
  | some true => exact hy
  | some false => exact .pure (.value (.literal _))
  | none =>
    refine .bind hx fun l hl => .bind (require_isValue hl _) fun test htest => .behind fun n =>
      .bind (freshTemp_isTemp _) ?_
    rintro _ ⟨id, rfl⟩
    refine .bind hy fun r hr => .bind (require_isValue hr _) fun value hvalue =>
      .pure ⟨?_, by rintro o ⟨⟩; exact .temp id _⟩
    exact ((hl.code.append (.cons (.branch htest) (.cons (.compute (.operand (.literal _))) (.cons .goto
      (.cons .label .nil))))).append hr.code).append
      (.cons (.compute (.operand hvalue)) (.cons .label .nil))

theorem lowerOr_forms (decided : Option Bool) (hx : Forms d x) (hy : Forms d y) :
    Forms d (lowerOr decided x y) := by
  match decided with
  | some false => exact hy
  | some true => exact .pure (.value (.literal _))
  | none =>
    refine .bind hx fun l hl => .bind (require_isValue hl _) fun test htest => .behind fun n =>
      .bind (freshTemp_isTemp _) ?_
    rintro _ ⟨id, rfl⟩
    refine .bind hy fun r hr => .bind (require_isValue hr _) fun value hvalue =>
      .pure ⟨?_, by rintro o ⟨⟩; exact .temp id _⟩
    exact ((hl.code.snoc (.branch htest)).append hr.code).append
      (.cons (.compute (.operand hvalue)) (.cons .goto (.cons .label
        (.cons (.compute (.operand (.literal _))) (.cons .label .nil)))))

theorem lowerNot_forms (hx : Forms d x) : Forms d (lowerNot x) :=
  .bind hx fun _ hl => .bind (require_isValue hl _) fun _ hu => compute_forms hl.code (.not hu)

theorem lowerNewArray_forms (element : Ty) (hx : Forms d x) : Forms d (lowerNewArray element x) :=
  .bind hx fun _ hl => .bind (require_isValue hl _) fun _ hu =>
    compute_forms hl.code (.call (.newArray hu))

theorem storeItems_forms {array : Operand} {element : Ty} (harray : IsValue array) :
    ∀ {items : List Lowered} {index : Nat} {code : List Instr},
      (∀ item ∈ items, FormedResult d item) → storeItems array element index items = .ok code →
        FormedCode d code
  | [], index, code, _, h => by
    cases h
    exact .nil
  | item :: rest, index, code, hitems, h => by
    rw [storeItems] at h
    obtain ⟨value, hvalue, h⟩ := except_bind h
    obtain ⟨stores, hstores, h⟩ := except_bind h
    cases h
    rw [List.forall_mem_cons] at hitems
    have ho : IsValue value :=
      require_isValue hitems.1 .arrayElement (Gives.lift_iff (s := {}).mpr ⟨hvalue, rfl⟩)
    exact hitems.1.code.append (.cons (.store harray (.literal _) ho)
      (storeItems_forms harray hitems.2 hstores))

theorem packArray_forms (element : Ty) {items : List Lowered}
    (hitems : ∀ item ∈ items, FormedResult d item) : Forms d (packArray element items) := by
  intro k l k' h
  rw [packArray] at h
  split at h
  · obtain ⟨_, _, hthrow, _⟩ := h.bind
    exact absurd hthrow Gives.throw_iff.mp
  · obtain ⟨array, _, harray, h⟩ := h.bind
    obtain ⟨id, rfl⟩ := freshTemp_isTemp _ harray
    obtain ⟨stores, hstores, h⟩ := h.lift_bind
    obtain ⟨rfl, _⟩ := Gives.pure_iff.mp h
    refine ⟨.cons (.compute (.call (.newArray (.literal _))))
      (storeItems_forms (.temp id _) hitems hstores), ?_⟩
    rintro o ⟨⟩
    exact .temp id _

theorem lowerIndex_forms (name : String) (hx : Forms d x) (hy : Forms d y) :
    Forms d (lowerIndex name x y) :=
  .bind hx fun _ hl => .bind (require_isValue hl _) fun _ hu => .behind fun _ => .bind hy fun _ hr =>
    .bind (require_isValue hr _) fun _ hv =>
    compute_forms (hl.code.append hr.code) (.arrayLoad hu hv)

theorem lowerLength_forms (name : String) (hx : Forms d x) : Forms d (lowerLength name x) :=
  .bind hx fun _ hl => .bind (require_isValue hl _) fun _ hu => .behind fun _ =>
    compute_forms hl.code (.call (.arrayLength hu))

theorem lowerNewObject_forms (className : String) : Forms d (lowerNewObject className) := by
  refine .bind (freshTemp_isTemp _) ?_
  rintro _ ⟨id, rfl⟩
  exact .pure ⟨.cons .allocate (.cons .construct .nil), by rintro o ⟨⟩; exact .temp id _⟩

/-! ## Calls -/

theorem lowerTarget_forms {target : Expr} (hx : Forms d x) :
    Yields (fun result => FormedCode d result.1 ∧
        (IsValue result.2 ∨ ∃ className, result.2 = .classRef className))
      (lowerTarget { symbols, method := some d } target x) := by
  have hother : ∀ {y : Lower Lowered}, Forms d y → Yields (fun result => FormedCode d result.1 ∧
        (IsValue result.2 ∨ ∃ className, result.2 = .classRef className))
      (do let l ← y; return (l.code, ← l.require .callTarget) : Lower (List Instr × Operand)) :=
    fun hy => .bind hy fun _ hl => .bind (require_isValue hl _) fun _ ho => .pure ⟨hl.code, .inl ho⟩
  cases target with
  | var name =>
    refine .behind fun binding => ?_
    match binding with
    | .className name => exact .pure ⟨.nil, .inr ⟨name, rfl⟩⟩
    | .variable _ | .field _ => exact hother (lowerVar_forms name)
  | _ => exact hother hx

/-- The code of arguments with operands that have values. -/
structure FormedArgs (d : Method) (args : Arguments) : Prop where
  code : FormedCode d args.code
  operands : ∀ o ∈ args.operands, IsValue o
  packed : ∀ item ∈ args.packed, FormedResult d item

theorem argumentsCons_forms (formals : Formals) {rest : Lower Arguments} (hx : Forms d x)
    (hrest : Yields (FormedArgs d) rest) :
    Yields (FormedArgs d) (Arguments.cons formals x rest) := by
  refine .bind hx fun a ha => ?_
  split
  · exact .bind hrest fun r hr =>
      .pure ⟨hr.code, hr.operands, List.forall_mem_cons.mpr ⟨ha, hr.packed⟩⟩
  · exact .bind (require_isValue ha _) fun operand ho => .bind hrest fun r hr =>
      .pure ⟨ha.code.append hr.code, List.forall_mem_cons.mpr ⟨ho, hr.operands⟩, hr.packed⟩

theorem packArguments_forms (array element : Ty) {items : List Lowered}
    (hitems : ∀ item ∈ items, FormedResult d item) :
    Forms d (packArguments array element items) := by
  unfold packArguments
  split
  · split
    · exact .pure (hitems _ List.mem_cons_self)
    · exact packArray_forms element hitems
  · exact packArray_forms element hitems

theorem argumentsClose_forms (formals : Formals) {args : Arguments} (h : FormedArgs d args) :
    Yields (fun result => FormedCode d result.1 ∧ ∀ o ∈ result.2, IsValue o)
      (args.close formals) := by
  cases formals with
  | plain tys => exact .pure ⟨h.code, h.operands⟩
  | varargs tys array =>
    refine .bind (packArguments_forms _ _ h.packed) fun packed hpacked =>
      .bind (require_isValue hpacked _) fun o ho => .pure ⟨h.code.append hpacked.code, ?_⟩
    exact List.forall_mem_append.mpr ⟨h.operands, List.forall_mem_singleton.mpr ho⟩

theorem finishCall_forms {code : List Instr} {call : Call} {discard : Bool} (h : FormedCode d code)
    (hcall : FormedCall call) :
    Forms d (if discard || call.returnTy.isVoid then
        pure { code := code ++ [.call call], operand := none }
      else compute code call.returnTy (.call call)) := by
  split
  · exact .pure ⟨h.snoc (.call hcall), by rintro o ⟨⟩⟩
  · exact compute_forms h (.call hcall)

theorem lowerCall_forms {target : Lower (List Instr × Operand)} {method : String}
    {args : Formals → Lower Arguments} {expected : Option Ty} {discard : Bool}
    (htarget : Yields (fun result => FormedCode d result.1 ∧
      (IsValue result.2 ∨ ∃ className, result.2 = .classRef className)) target)
    (hargs : ∀ formals, Yields (FormedArgs d) (args formals)) :
    Forms d (lowerCall { symbols, method := some d } target method args expected discard) := by
  refine .bind htarget fun object hobject => .bind (hargs _) fun arguments harguments =>
    .bind (argumentsClose_forms _ harguments) fun operands hoperands => ?_
  obtain ⟨code, o⟩ := object
  refine finishCall_forms (hobject.1.append hoperands.1) ?_
  rcases hobject.2 with ho | ⟨className, rfl⟩
  · cases o with
    | classRef name => exact absurd rfl (ho name)
    | _ => exact .virtual ho hoperands.2
  · exact .static hoperands.2

end Parts

/-! ## The tree -/

section Trees

variable (d symbols)

mutual

theorem lowerExpr_forms : ∀ (e : Expr) (hint : Option Ty),
    Forms d (lowerExpr { symbols, method := some d } hint e)
  | .literal value, hint => by
    rw [lowerExpr]
    exact .pure (.value (.literal value))
  | .self, hint => by
    rw [lowerExpr]
    refine .bind (receiver_isReceiver _) ?_
    rintro _ ⟨className, rfl⟩
    exact .pure (.value nofun)
  | .var name, hint => by
    rw [lowerExpr]
    exact lowerVar_forms name
  | .paren inner, hint => by
    rw [lowerExpr]
    exact lowerExpr_forms inner hint
  | .binary op left right, hint => by
    cases op with
    | add | sub | mul | div | lt =>
      rw [lowerExpr]
      exact lowerBinary_forms _ (lowerExpr_forms left _) (lowerExpr_forms right _)
    | and =>
      rw [lowerExpr]
      exact lowerAnd_forms _ (lowerExpr_forms left _) (lowerExpr_forms right _)
    | or =>
      rw [lowerExpr]
      exact lowerOr_forms _ (lowerExpr_forms left _) (lowerExpr_forms right _)
  | .not operand, hint => by
    rw [lowerExpr]
    exact lowerNot_forms (lowerExpr_forms operand _)
  | .newArray element size, hint => by
    rw [lowerExpr]
    exact lowerNewArray_forms element (lowerExpr_forms size _)
  | .arrayLiteral elements, hint => by
    rw [lowerExpr]
    exact .bind (lowerItems_forms elements _) fun items hitems => packArray_forms _ hitems
  | .index array index, hint => by
    rw [lowerExpr]
    exact lowerIndex_forms _ (lowerExpr_forms array _) (lowerExpr_forms index _)
  | .length array, hint => by
    rw [lowerExpr]
    exact lowerLength_forms _ (lowerExpr_forms array _)
  | .newObject className, hint => by
    rw [lowerExpr]
    exact lowerNewObject_forms className
  | .call target method args, hint => by
    rw [lowerExpr]
    exact lowerCall_forms (lowerTarget_forms (lowerExpr_forms target none))
      fun formals => lowerArgs_forms args formals

theorem lowerItems_forms : ∀ (es : List Expr) (hint : Option Ty),
    Yields (fun items => ∀ item ∈ items, FormedResult d item)
      (lowerItems { symbols, method := some d } hint es)
  | [], hint => by
    rw [lowerItems]
    exact .pure (List.forall_mem_nil _)
  | e :: rest, hint => by
    rw [lowerItems]
    exact .bind (lowerExpr_forms e hint) fun item hitem =>
      .bind (lowerItems_forms rest hint) fun items hitems =>
        .pure (List.forall_mem_cons.mpr ⟨hitem, hitems⟩)

theorem lowerArgs_forms : ∀ (es : List Expr) (formals : Formals),
    Yields (FormedArgs d) (lowerArgs { symbols, method := some d } formals es)
  | [], formals => by
    rw [lowerArgs]
    exact .pure ⟨.nil, List.forall_mem_nil _, List.forall_mem_nil _⟩
  | e :: rest, formals => by
    rw [lowerArgs]
    exact argumentsCons_forms formals (lowerExpr_forms e _) (lowerArgs_forms rest _)

end

theorem lowerEffect_forms (e : Expr) :
    Forms d (lowerEffect { symbols, method := some d } e) := by
  refine lowerEffect_cases (P := fun _ x => Forms d x) (fun target method args => ?_)
    (fun e _ _ => lowerExpr_forms d symbols e none) e
  exact lowerCall_forms (lowerTarget_forms (lowerExpr_forms _ _ target none))
    fun formals => lowerArgs_forms _ _ args formals

theorem lowerCondition_forms (e : Expr) :
    Yields (fun result => FormedCode d result.1 ∧ ∀ l, FormedInstr d (.condGoto result.2 l))
      (lowerCondition { symbols, method := some d } e) := by
  refine lowerCondition_cases (P := fun _ x => Yields (fun result => FormedCode d result.1 ∧
    ∀ l, FormedInstr d (.condGoto result.2 l)) x) (fun left right => ?_) (fun e => ?_) e
  · exact .bind (lowerExpr_forms _ _ left _) fun l hl => .bind (lowerExpr_forms _ _ right _)
      fun r hr => .bind (require_isValue hl _) fun _ hx => .bind (require_isValue hr _)
      fun _ hy => .pure ⟨hl.code.append hr.code, fun _ => .branchLess hx hy⟩
  · exact .bind (lowerExpr_forms _ _ e _) fun l hl => .bind (require_isValue hl _)
      fun _ ho => .pure ⟨hl.code, fun _ => .branch ho⟩

/-! ## Statements and bodies -/

theorem lowerAssign_forms (target : String) (value : Expr) :
    Yields (FormedCode d) (lowerAssign { symbols, method := some d } target
      fun hint => lowerExpr { symbols, method := some d } hint value) := by
  refine .bind (resolve_declared target) fun binding hdeclared => ?_
  match binding with
  | .variable ty =>
    exact .bind (lowerExpr_forms _ _ value _) fun l hl => .bind (require_isValue hl _)
      fun _ ho => .pure (hl.code.snoc (.assign (hdeclared ty rfl) ho))
  | .field ty =>
    refine .bind (lowerExpr_forms _ _ value _) fun l hl => .bind (require_isValue hl _)
      fun _ ho => .bind (receiver_isReceiver _) ?_
    rintro _ ⟨className, rfl⟩
    exact .pure (hl.code.snoc (.putField ho))
  | .className name => exact .throw

theorem lowerIf_forms {condition : Lower (List Instr × Value)}
    {thenBranch elseBranch : Lower (List Instr)} (returns : Bool)
    (hcondition : Yields (fun result => FormedCode d result.1 ∧
      ∀ l, FormedInstr d (.condGoto result.2 l)) condition)
    (hthen : Yields (FormedCode d) thenBranch) (helse : Yields (FormedCode d) elseBranch) :
    Yields (FormedCode d) (lowerIf condition thenBranch elseBranch returns) :=
  .behind fun _ => .bind hcondition fun _ hc => .bind helse fun _ hb => .bind hthen fun _ ha =>
    .pure ((((((hc.1.snoc (hc.2 _)).append hb).append (.skip .goto returns)).snoc .label).append
      ha).append (.skip .label returns))

theorem lowerLoop_forms {condition : Lower (List Instr × Value)} {body : Lower (List Instr)}
    (hcondition : Yields (fun result => FormedCode d result.1 ∧
      ∀ l, FormedInstr d (.condGoto result.2 l)) condition)
    (hbody : Yields (FormedCode d) body) : Yields (FormedCode d) (lowerLoop condition body) :=
  .behind fun _ => .bind hbody fun _ hb => .bind hcondition fun _ hc =>
    .pure (.cons .goto (.cons .label (((hb.snoc .label).append hc.1).snoc (hc.2 _))))

mutual

theorem lowerStmt_forms : ∀ (s : Stmt),
    Yields (FormedCode d) (lowerStmt { symbols, method := some d } s)
  | .assign target value => by
    rw [lowerStmt]
    exact lowerAssign_forms _ _ target value
  | .arrayAssign target index value => by
    rw [lowerStmt]
    exact .bind (lowerVar_forms target) fun _ ha => .bind (require_isValue ha _) fun _ hx =>
      .behind fun _ => .bind (lowerExpr_forms _ _ index _) fun _ hi =>
      .bind (require_isValue hi _) fun _ hy => .bind (lowerExpr_forms _ _ value _) fun _ hv =>
      .bind (require_isValue hv _) fun _ hz =>
      .pure (((ha.code.append hi.code).append hv.code).snoc (.store hx hy hz))
  | .ite condition thenBranch elseBranch => by
    rw [lowerStmt]
    exact lowerIf_forms _ _ (lowerCondition_forms _ _ condition) (lowerStmt_forms thenBranch)
      (lowerStmt_forms elseBranch)
  | .loop condition body => by
    rw [lowerStmt]
    exact lowerLoop_forms _ (lowerCondition_forms _ _ condition) (lowerStmt_forms body)
  | .block body => by
    rw [lowerStmt]
    exact lowerStmts_forms body
  | .ret none => by
    rw [lowerStmt]
    exact .pure (.cons .ret .nil)
  | .ret (some value) => by
    rw [lowerStmt]
    exact .behind fun _ => .bind (lowerExpr_forms _ _ value _) fun _ hl =>
      .bind (require_isValue hl _) fun _ ho => .pure (hl.code.snoc (.retValue ho))
  | .expr value => by
    rw [lowerStmt]
    exact .bind (lowerEffect_forms _ _ value) fun _ hl => .pure hl.code

theorem lowerStmts_forms : ∀ (body : List Stmt),
    Yields (FormedCode d) (lowerStmts { symbols, method := some d } body)
  | [] => by
    rw [lowerStmts]
    exact .pure .nil
  | s :: rest => by
    rw [lowerStmts]
    exact .bind (lowerStmt_forms s) fun _ hs => .bind (lowerStmts_forms rest)
      fun _ hrest => .pure (hs.append hrest)

end

/-- Every instruction of a body has one of the forms. -/
theorem lowerBody_forms : Yields (FormedCode d) (lowerBody symbols d) := by
  refine .bind (lowerStmts_forms d symbols d.body) fun code hcode => .pure ?_
  split
  · exact hcode.snoc .ret
  · exact hcode

end Trees

end MiniJava.Lowering
