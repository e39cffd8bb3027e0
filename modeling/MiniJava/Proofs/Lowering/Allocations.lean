import MiniJava.Jvm.Emission
import MiniJava.Lowering.Session
import MiniJava.Proofs.Lowering.Inversion

/-!
# Allocations in lowered code

Behind each allocation of an object stands the call of its constructor, with nothing in between. So
the copy of the object that emission leaves on the stack is never there for anything else.
-/

namespace MiniJava

/-- Whatever a computation gives has a property. -/
def Yields {ε σ α : Type} (Q : α → Prop) (x : ExceptT ε (StateM σ) α) : Prop :=
  ∀ ⦃s a s'⦄, Gives x s a s' → Q a

namespace Yields

variable {ε σ α β : Type} {P : α → Prop} {Q : β → Prop}

theorem pure {b : β} (h : Q b) : Yields Q (Pure.pure b : ExceptT ε (StateM σ) β) := by
  intro s b' s' hgives
  obtain ⟨rfl, _⟩ := Gives.pure_iff.mp hgives
  exact h

theorem throw {e : ε} : Yields Q (throw e : ExceptT ε (StateM σ) β) :=
  fun _ _ _ h => absurd h Gives.throw_iff.mp

theorem bind {x : ExceptT ε (StateM σ) α} {f : α → ExceptT ε (StateM σ) β} (hx : Yields P x)
    (hf : ∀ a, P a → Yields Q (f a)) : Yields Q (x >>= f) := by
  intro s b s' h
  obtain ⟨a, t, ha, hb⟩ := h.bind
  exact hf a (hx ha) hb

theorem behind {x : ExceptT ε (StateM σ) α} {f : α → ExceptT ε (StateM σ) β}
    (hf : ∀ a, Yields Q (f a)) : Yields Q (x >>= f) :=
  .bind (P := fun _ => True) (fun _ _ _ _ => trivial) fun a _ => hf a

end Yields

/-- The variable that an object is allocated for. -/
def Ir.Instr.allocates? : Ir.Instr → Option Ir.Operand
  | .assign (.var dest) (.call c) => if c.isObjectNew then some dest else none
  | _ => none

namespace Lowering

open Ir (Instr Operand)

/-! ## Code with constructor calls -/

/-- Each allocation of an object is followed by the call of its constructor. -/
inductive Constructs : List Instr → Prop
  | nil : Constructs []
  | cons {i : Instr} {rest : List Instr} (hi : i.allocates? = none) (hrest : Constructs rest) :
    Constructs (i :: rest)
  | object {i next : Instr} {dest : Operand} {rest : List Instr} (hi : i.allocates? = some dest)
    (hnext : Jvm.isConstructorOf dest next) (hrest : Constructs rest) :
    Constructs (i :: next :: rest)

namespace Constructs

variable {code code' : List Instr}

theorem append (h : Constructs code) (h' : Constructs code') : Constructs (code ++ code') := by
  induction h with
  | nil => exact h'
  | cons hi _ ih => exact .cons hi ih
  | object hi hnext _ ih => exact .object hi hnext ih

theorem snoc {i : Instr} (h : Constructs code) (hi : i.allocates? = none) :
    Constructs (code ++ [i]) :=
  h.append (.cons hi .nil)

theorem skip {i : Instr} (hi : i.allocates? = none) (returns : Bool) :
    Constructs (if returns then [] else [i]) := by
  cases returns with
  | true => exact .nil
  | false => exact .cons hi .nil

/-- The call of a constructor is the next instruction behind an allocation. -/
theorem next {dest : Operand} {done rest : List Instr} (h : Constructs code)
    (hcode : code = done ++ rest) (hlast : done.getLast?.bind Instr.allocates? = some dest) :
    ∃ next, rest.head? = some next ∧ Jvm.isConstructorOf dest next := by
  induction h generalizing done with
  | nil =>
    rw [(List.nil_eq_append_iff.mp hcode).1] at hlast
    cases hlast
  | cons hi _ ih =>
    cases done with
    | nil => cases hlast
    | cons j done =>
      obtain ⟨rfl, htail⟩ := List.cons.inj hcode
      cases done with
      | nil => cases hi.symm.trans hlast
      | cons k done => exact ih htail (by rwa [List.getLast?_cons_cons] at hlast)
  | @object i next dest' tail hi hnext _ ih =>
    have hnone : next.allocates? = none := by
      cases next with
      | call call => rfl
      | _ => cases hnext
    cases done with
    | nil => cases hlast
    | cons j done =>
      obtain ⟨rfl, htail⟩ := List.cons.inj hcode
      cases done with
      | nil =>
        cases hi.symm.trans hlast
        exact ⟨next, congrArg List.head? htail.symm, hnext⟩
      | cons k done =>
        obtain ⟨rfl, hrest⟩ := List.cons.inj htail
        cases done with
        | nil => cases hnone.symm.trans hlast
        | cons k' done =>
          exact ih hrest (by rwa [List.getLast?_cons_cons, List.getLast?_cons_cons] at hlast)

end Constructs

/-! ## Expressions -/

/-- The code of an expression has its constructor calls. -/
abbrev Constructed (x : Lower Lowered) : Prop := Yields (fun l => Constructs l.code) x

section Parts

variable {x y : Lower Lowered} {sc : Scope}

theorem compute_constructed {code : List Instr} {ty : Ty} {value : Ir.Value} (h : Constructs code)
    (hvalue : ∀ dest, (Instr.assignVar dest value).allocates? = none) :
    Constructed (compute code ty value) :=
  .behind fun dest => .pure (h.snoc (hvalue dest))

theorem lowerVar_constructed (name : String) : Constructed (lowerVar sc name) := by
  refine .behind fun binding => ?_
  match binding with
  | .variable ty => exact .pure .nil
  | .field ty => exact .behind fun _ => compute_constructed .nil fun _ => rfl
  | .className name => exact .throw

theorem lowerBinary_constructed (op : Ir.BinOp) (hx : Constructed x) (hy : Constructed y) :
    Constructed (lowerBinary op x y) :=
  .bind hx fun _ hl => .bind hy fun _ hr => .behind fun _ => .behind fun _ =>
    compute_constructed (hl.append hr) fun _ => rfl

theorem lowerAnd_constructed (decided : Option Bool) (hx : Constructed x) (hy : Constructed y) :
    Constructed (lowerAnd decided x y) := by
  cases decided with
  | some value =>
    cases value with
    | true => exact hy
    | false => exact .pure .nil
  | none =>
    refine .bind hx fun l hl => .behind fun _ => .behind fun _ => .behind fun _ => .bind hy fun r hr =>
      .behind fun _ => .pure ?_
    exact ((hl.append (.cons rfl (.cons rfl (.cons rfl (.cons rfl .nil))))).append hr).append
      (.cons rfl (.cons rfl .nil))

theorem lowerOr_constructed (decided : Option Bool) (hx : Constructed x) (hy : Constructed y) :
    Constructed (lowerOr decided x y) := by
  cases decided with
  | some value =>
    cases value with
    | true => exact .pure .nil
    | false => exact hy
  | none =>
    refine .bind hx fun l hl => .behind fun _ => .behind fun _ => .behind fun _ => .bind hy fun r hr =>
      .behind fun _ => .pure ?_
    exact ((hl.snoc rfl).append hr).append
      (.cons rfl (.cons rfl (.cons rfl (.cons rfl (.cons rfl .nil)))))

theorem lowerNot_constructed (hx : Constructed x) : Constructed (lowerNot x) :=
  .bind hx fun _ hl => .behind fun _ => compute_constructed hl fun _ => rfl

theorem lowerNewArray_constructed (element : Ty) (hx : Constructed x) :
    Constructed (lowerNewArray element x) :=
  .bind hx fun _ hl => .behind fun _ => compute_constructed hl fun _ => rfl

theorem storeItems_constructs {array : Operand} {element : Ty} : ∀ {items : List Lowered}
    {index : Nat} {code : List Instr}, (∀ item ∈ items, Constructs item.code) →
      storeItems array element index items = .ok code → Constructs code
  | [], index, code, _, h => by
    cases h
    exact .nil
  | item :: rest, index, code, hitems, h => by
    rw [storeItems] at h
    obtain ⟨value, _, h⟩ := except_bind h
    obtain ⟨stores, hstores, h⟩ := except_bind h
    cases h
    rw [List.forall_mem_cons] at hitems
    exact hitems.1.append (.cons rfl (storeItems_constructs hitems.2 hstores))

theorem packArray_constructed (element : Ty) {items : List Lowered}
    (hitems : ∀ item ∈ items, Constructs item.code) : Constructed (packArray element items) := by
  intro k l k' h
  rw [packArray] at h
  split at h
  · obtain ⟨_, _, hthrow, _⟩ := h.bind
    exact absurd hthrow Gives.throw_iff.mp
  · obtain ⟨array, _, _, h⟩ := h.bind
    obtain ⟨stores, hstores, h⟩ := h.lift_bind
    obtain ⟨rfl, _⟩ := Gives.pure_iff.mp h
    exact .cons rfl (storeItems_constructs hitems hstores)

theorem lowerIndex_constructed (name : String) (hx : Constructed x) (hy : Constructed y) :
    Constructed (lowerIndex name x y) :=
  .bind hx fun _ hl => .behind fun _ => .behind fun _ => .bind hy fun _ hr => .behind fun _ =>
    compute_constructed (hl.append hr) fun _ => rfl

theorem lowerLength_constructed (name : String) (hx : Constructed x) :
    Constructed (lowerLength name x) :=
  .bind hx fun _ hl => .behind fun _ => .behind fun _ => compute_constructed hl fun _ => rfl

theorem lowerNewObject_constructed (className : String) :
    Constructed (lowerNewObject className) :=
  .behind fun dest => .pure (.object rfl (by simp [Jvm.isConstructorOf, Ir.Call.constructor]) .nil)

/-! ## Calls -/

theorem lowerTarget_constructed {target : Expr} (hx : Constructed x) :
    Yields (fun result => Constructs result.1) (lowerTarget sc target x) := by
  have hother : Yields (fun result => Constructs result.1)
      (do let l ← x; return (l.code, ← l.require .callTarget) : Lower (List Instr × Operand)) :=
    .bind hx fun _ hl => .behind fun _ => .pure hl
  cases target with
  | var name =>
    refine .behind fun binding => ?_
    match binding with
    | .className name => exact .pure .nil
    | .variable _ | .field _ =>
      exact .bind (lowerVar_constructed name) fun _ hl => .behind fun _ => .pure hl
  | _ => exact hother

/-- The code of arguments has its constructor calls, that of the packed ones too. -/
def ArgsConstruct (args : Arguments) : Prop :=
  Constructs args.code ∧ ∀ item ∈ args.packed, Constructs item.code

theorem argumentsCons_constructed (formals : Formals) {rest : Lower Arguments} (hx : Constructed x)
    (hrest : Yields ArgsConstruct rest) : Yields ArgsConstruct (Arguments.cons formals x rest) := by
  refine .bind hx fun a ha => ?_
  split
  · exact .bind hrest fun r hr => .pure ⟨hr.1, List.forall_mem_cons.mpr ⟨ha, hr.2⟩⟩
  · exact .behind fun operand => .bind hrest fun r hr => .pure ⟨ha.append hr.1, hr.2⟩

theorem packArguments_constructed (array element : Ty) {items : List Lowered}
    (hitems : ∀ item ∈ items, Constructs item.code) :
    Constructed (packArguments array element items) := by
  unfold packArguments
  split
  · split
    · exact .pure (hitems _ List.mem_cons_self)
    · exact packArray_constructed element hitems
  · exact packArray_constructed element hitems

theorem argumentsClose_constructed (formals : Formals) {args : Arguments} (h : ArgsConstruct args) :
    Yields (fun result => Constructs result.1) (args.close formals) := by
  cases formals with
  | plain tys => exact .pure h.1
  | varargs tys array =>
    exact .bind (packArguments_constructed _ _ h.2) fun packed hpacked => .behind fun _ =>
      .pure (h.1.append hpacked)

theorem lowerCall_constructed {target : Lower (List Instr × Operand)} {method : String}
    {args : Formals → Lower Arguments} {expected : Option Ty} {discard : Bool}
    (htarget : Yields (fun result => Constructs result.1) target)
    (hargs : ∀ formals, Yields ArgsConstruct (args formals)) :
    Constructed (lowerCall sc target method args expected discard) := by
  refine .bind htarget fun object hobject => .bind (hargs _) fun arguments harguments =>
    .bind (argumentsClose_constructed _ harguments) fun operands hoperands => ?_
  dsimp only
  split
  · exact .pure ((hobject.append hoperands).snoc rfl)
  · exact compute_constructed (hobject.append hoperands) fun dest => by
      cases object.2 <;> rfl

/-! ## The tree -/

mutual

theorem lowerExpr_constructed : ∀ (e : Expr) (hint : Option Ty), Constructed (lowerExpr sc hint e)
  | .literal value, hint => by
    rw [lowerExpr]
    exact .pure .nil
  | .self, hint => by
    rw [lowerExpr]
    exact .behind fun _ => .pure .nil
  | .var name, hint => by
    rw [lowerExpr]
    exact lowerVar_constructed name
  | .paren inner, hint => by
    rw [lowerExpr]
    exact lowerExpr_constructed inner hint
  | .binary op left right, hint => by
    cases op with
    | add | sub | mul | div | lt =>
      rw [lowerExpr]
      exact lowerBinary_constructed _ (lowerExpr_constructed left _) (lowerExpr_constructed right _)
    | and =>
      rw [lowerExpr]
      exact lowerAnd_constructed _ (lowerExpr_constructed left _) (lowerExpr_constructed right _)
    | or =>
      rw [lowerExpr]
      exact lowerOr_constructed _ (lowerExpr_constructed left _) (lowerExpr_constructed right _)
  | .not operand, hint => by
    rw [lowerExpr]
    exact lowerNot_constructed (lowerExpr_constructed operand _)
  | .newArray element size, hint => by
    rw [lowerExpr]
    exact lowerNewArray_constructed element (lowerExpr_constructed size _)
  | .arrayLiteral elements, hint => by
    rw [lowerExpr]
    exact .bind (lowerItems_constructed elements _) fun items hitems => packArray_constructed _ hitems
  | .index array index, hint => by
    rw [lowerExpr]
    exact lowerIndex_constructed _ (lowerExpr_constructed array _) (lowerExpr_constructed index _)
  | .length array, hint => by
    rw [lowerExpr]
    exact lowerLength_constructed _ (lowerExpr_constructed array _)
  | .newObject className, hint => by
    rw [lowerExpr]
    exact lowerNewObject_constructed className
  | .call target method args, hint => by
    rw [lowerExpr]
    exact lowerCall_constructed (lowerTarget_constructed (lowerExpr_constructed target none))
      fun formals => lowerArgs_constructed args formals

theorem lowerItems_constructed : ∀ (es : List Expr) (hint : Option Ty),
    Yields (fun items => ∀ item ∈ items, Constructs item.code) (lowerItems sc hint es)
  | [], hint => by
    rw [lowerItems]
    exact .pure nofun
  | e :: rest, hint => by
    rw [lowerItems]
    exact .bind (lowerExpr_constructed e hint) fun item hitem =>
      .bind (lowerItems_constructed rest hint) fun items hitems =>
        .pure (List.forall_mem_cons.mpr ⟨hitem, hitems⟩)

theorem lowerArgs_constructed : ∀ (es : List Expr) (formals : Formals),
    Yields ArgsConstruct (lowerArgs sc formals es)
  | [], formals => by
    rw [lowerArgs]
    exact .pure ⟨.nil, nofun⟩
  | e :: rest, formals => by
    rw [lowerArgs]
    exact argumentsCons_constructed formals (lowerExpr_constructed e _) (lowerArgs_constructed rest _)

end

theorem lowerEffect_constructed (e : Expr) : Constructed (lowerEffect sc e) := by
  refine lowerEffect_cases (P := fun _ x => Constructed x) (fun target method args => ?_)
    (fun e _ _ => lowerExpr_constructed e none) e
  exact lowerCall_constructed (lowerTarget_constructed (lowerExpr_constructed target none))
    fun formals => lowerArgs_constructed args formals

theorem lowerCondition_constructed (e : Expr) :
    Yields (fun result => Constructs result.1) (lowerCondition sc e) := by
  refine lowerCondition_cases (P := fun _ x => Yields (fun result => Constructs result.1) x)
    (fun left right => ?_) (fun e => ?_) e
  · exact .bind (lowerExpr_constructed left _) fun l hl => .bind (lowerExpr_constructed right _)
      fun r hr => .behind fun _ => .behind fun _ => .pure (hl.append hr)
  · exact .bind (lowerExpr_constructed e _) fun l hl => .behind fun _ => .pure hl

end Parts

/-! ## Statements and bodies -/

section Statements

variable {sc : Scope}

theorem lowerAssign_constructed (target : String) {value : Option Ty → Lower Lowered}
    (hvalue : ∀ hint, Constructed (value hint)) :
    Yields Constructs (lowerAssign sc target value) := by
  refine .behind fun binding => ?_
  match binding with
  | .variable ty => exact .bind (hvalue _) fun l hl => .behind fun _ => .pure (hl.snoc rfl)
  | .field ty =>
    exact .bind (hvalue _) fun l hl => .behind fun _ => .behind fun _ => .pure (hl.snoc rfl)
  | .className name => exact .throw

theorem lowerArrayAssign_constructed (target : String) {index : Lower Lowered}
    {value : Option Ty → Lower Lowered} (hindex : Constructed index)
    (hvalue : ∀ hint, Constructed (value hint)) :
    Yields Constructs (lowerArrayAssign sc target index value) :=
  .bind (lowerVar_constructed target) fun _ ha => .behind fun _ => .behind fun _ =>
    .bind hindex fun _ hi => .behind fun _ => .bind (hvalue _) fun _ hv => .behind fun _ =>
      .pure (((ha.append hi).append hv).snoc rfl)

theorem lowerIf_constructed {condition : Lower (List Instr × Ir.Value)}
    {thenBranch elseBranch : Lower (List Instr)} (returns : Bool)
    (hcondition : Yields (fun result => Constructs result.1) condition)
    (hthen : Yields Constructs thenBranch) (helse : Yields Constructs elseBranch) :
    Yields Constructs (lowerIf condition thenBranch elseBranch returns) :=
  .behind fun _ => .bind hcondition fun _ hc => .bind helse fun _ hb => .bind hthen fun _ ha =>
    .pure ((((((hc.snoc rfl).append hb).append (.skip rfl returns)).snoc rfl).append ha).append
      (.skip rfl returns))

theorem lowerLoop_constructed {condition : Lower (List Instr × Ir.Value)}
    {body : Lower (List Instr)} (hcondition : Yields (fun result => Constructs result.1) condition)
    (hbody : Yields Constructs body) : Yields Constructs (lowerLoop condition body) :=
  .behind fun _ => .bind hbody fun _ hb => .bind hcondition fun _ hc =>
    .pure (.cons rfl (.cons rfl (((hb.snoc rfl).append hc).snoc rfl)))

theorem lowerReturn_constructed {value : Option Ty → Lower Lowered}
    (hvalue : ∀ hint, Constructed (value hint)) : Yields Constructs (lowerReturn sc value) :=
  .behind fun _ => .bind (hvalue _) fun _ hl => .behind fun _ => .pure (hl.snoc rfl)

mutual

theorem lowerStmt_constructed : ∀ (s : Stmt), Yields Constructs (lowerStmt sc s)
  | .assign target value => by
    rw [lowerStmt]
    exact lowerAssign_constructed target fun hint => lowerExpr_constructed value hint
  | .arrayAssign target index value => by
    rw [lowerStmt]
    exact lowerArrayAssign_constructed target (lowerExpr_constructed index _)
      fun hint => lowerExpr_constructed value hint
  | .ite condition thenBranch elseBranch => by
    rw [lowerStmt]
    exact lowerIf_constructed _ (lowerCondition_constructed condition)
      (lowerStmt_constructed thenBranch) (lowerStmt_constructed elseBranch)
  | .loop condition body => by
    rw [lowerStmt]
    exact lowerLoop_constructed (lowerCondition_constructed condition) (lowerStmt_constructed body)
  | .block body => by
    rw [lowerStmt]
    exact lowerStmts_constructed body
  | .ret none => by
    rw [lowerStmt]
    exact .pure (.cons rfl .nil)
  | .ret (some value) => by
    rw [lowerStmt]
    exact lowerReturn_constructed fun hint => lowerExpr_constructed value hint
  | .expr value => by
    rw [lowerStmt]
    exact .bind (lowerEffect_constructed value) fun _ hl => .pure hl

theorem lowerStmts_constructed : ∀ (body : List Stmt), Yields Constructs (lowerStmts sc body)
  | [] => by
    rw [lowerStmts]
    exact .pure .nil
  | s :: rest => by
    rw [lowerStmts]
    exact .bind (lowerStmt_constructed s) fun _ hs => .bind (lowerStmts_constructed rest)
      fun _ hrest => .pure (hs.append hrest)

end

theorem lowerBody_constructed (symbols : SymbolTable) (d : Method) :
    Yields Constructs (lowerBody symbols d) := by
  refine .bind (lowerStmts_constructed d.body) fun code hcode => .pure ?_
  split
  · exact hcode.snoc rfl
  · exact hcode

end Statements

end Lowering

end MiniJava
