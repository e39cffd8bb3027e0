import MiniJava.Proofs.Lowering.Arrays

/-!
# Lowered calls

Targets, arguments and the calls themselves. Arguments that no parameter of their own takes are
packed behind the others, so the code of a call follows the order in which the source evaluates it.
-/

namespace MiniJava.Semantics

open Ir (Operand Instr)
open Lowering

variable {c : Context} {d : Method} {m : Ir.Method}

/-! ## Parameters -/

/-- What the parameters of a call are in the source. -/
def parametersOf : Formals → Parameters
  | .plain tys => { fixed := tys }
  | .varargs tys array => { fixed := tys, rest := some array }

theorem parametersOf_ofSignature (signature : Option Signature) :
    parametersOf (.ofSignature? signature) = .ofSignature? signature := by
  cases signature with
  | none => rfl
  | some s =>
    simp only [Formals.ofSignature?, Parameters.ofSignature?]
    by_cases h : s.isVarargs
    · rw [if_pos h, if_pos h]
      rfl
    · rw [if_neg h, if_neg h]
      rfl

theorem parametersOf_next (formals : Formals) :
    parametersOf formals.next = (parametersOf formals).next := by
  cases formals <;> rfl

theorem packing_of_not_packed {formals : Formals} (h : formals.isPacked = false) :
    (parametersOf formals).packing? = none ∧
      formals.hint? = (parametersOf formals).fixed.head? := by
  cases formals with
  | plain tys => exact ⟨by cases tys <;> rfl, rfl⟩
  | varargs tys array =>
    cases tys with
    | nil => cases h
    | cons ty rest => exact ⟨rfl, rfl⟩

theorem varargs_of_packed {formals : Formals} (h : formals.isPacked = true) :
    ∃ array, formals = .varargs [] array := by
  cases formals with
  | plain tys => cases h
  | varargs tys array =>
    cases tys with
    | nil => exact ⟨array, rfl⟩
    | cons ty rest => cases h

/-! ## Arguments -/

/-- Lowered arguments: their code puts what an action of the variables gives into the operands. -/
structure ArgsLowered (c : Context) (m : Ir.Method) (k k' : Counters) (code : List Instr)
    (operands : List Operand) (a : Locals → Action (List Value)) : Prop where
  temps_le : k.temps ≤ k'.temps
  proper : ∀ o ∈ operands, Proper c k'.temps o
  computes : ∀ {env vars pc}, Placed m.instructions pc code → Agrees c env vars →
    (irMachine c.platform m).Computes 0 { pc, vars } (a env) fun values t =>
      Passed k.temps k'.temps vars (pc + code.length) t ∧
        readOperands c.platform t.vars operands = pure values

theorem ExprLowered.argument {k k' : Counters} {l : Lowered} {ty : Option Ty} {o : Operand}
    {a : Locals → Action Value} (h : ExprLowered c m k k' l ty a) (ho : l.operand = some o) :
    ArgsLowered c m k k' l.code [o] (fun env => a env >>= fun v => pure [v]) where
  temps_le := h.fits.temps_le
  proper o' ho' := by
    rw [List.mem_singleton.mp ho']
    exact h.fits.proper o ho
  computes hplaced hagree := by
    refine (h.computes hplaced hagree).bind fun v t ht => .pure ⟨⟨ht.pc, ht.frame⟩, ?_⟩
    rw [readOperands, ht.reads o ho]
    rfl

theorem ExprLowered.consArguments {k k₁ k₂ : Counters} {l : Lowered} {ty : Option Ty} {o : Operand}
    {code : List Instr} {operands : List Operand} {a : Locals → Action Value}
    {b : Locals → Action (List Value)} (h : ExprLowered c m k k₁ l ty a) (ho : l.operand = some o)
    (hrest : ArgsLowered c m k₁ k₂ code operands b) :
    ArgsLowered c m k k₂ (l.code ++ code) (o :: operands)
      (fun env => a env >>= fun v => b env >>= fun values => pure (v :: values)) where
  temps_le := Nat.le_trans h.fits.temps_le hrest.temps_le
  proper o' ho' := by
    rcases List.mem_cons.mp ho' with rfl | ho'
    · exact (h.fits.proper _ ho).mono hrest.temps_le
    · exact hrest.proper o' ho'
  computes {env vars pc} hplaced hagree := by
    refine (h.computes hplaced.left hagree).bind fun v t ht => ?_
    obtain ⟨tpc, tvars⟩ := t
    obtain ⟨rfl, hframe, hreads⟩ := ht
    refine (hrest.computes hplaced.right (hagree.frame hframe)).bind
      fun values u ⟨hu, hvalues⟩ => .pure ⟨⟨?_, ?_⟩, ?_⟩
    · rw [hu.pc, List.length_append, Nat.add_assoc]
    · exact hframe.trans hu.frame h.fits.temps_le hrest.temps_le
    · rw [readOperands, hvalues, read_frame (h.fits.proper o ho) hu.frame, hreads o ho]
      rfl

/-- The arguments that are to be packed are lowered like the items of a literal. -/
theorem lowerArgs_packed {sc : Scope} {array : Ty} : ∀ {es : List Expr} {k k' : Counters}
    {args : Arguments}, Gives (lowerArgs sc (.varargs [] array) es) k args k' →
      ∃ items, Gives (lowerItems sc (some (packedTy array)) es) k items k' ∧
        args = { packed := items }
  | [], k, k', args, h => by
    obtain ⟨rfl, rfl⟩ := Gives.pure_iff.mp h
    exact ⟨[], Gives.pure_iff.mpr ⟨rfl, rfl⟩, rfl⟩
  | e :: rest, k, k', args, h => by
    rw [lowerArgs, Arguments.cons] at h
    obtain ⟨item, k₁, gitem, h⟩ := h.bind
    obtain ⟨more, k₂, gmore, h⟩ := h.bind
    obtain ⟨rfl, rfl⟩ := Gives.pure_iff.mp h
    obtain ⟨items, gitems, rfl⟩ := lowerArgs_packed gmore
    refine ⟨item :: items, ?_, rfl⟩
    rw [lowerItems, Gives.bind_iff]
    refine ⟨item, k₁, gitem, Gives.bind_iff.mpr ⟨items, k₂, gitems, Gives.pure_iff.mpr ⟨rfl, rfl⟩⟩⟩

theorem close_varargs {tys : List Ty} {array : Ty} {args : Arguments} {k k' : Counters}
    {code : List Instr} {operands : List Operand}
    (h : Gives (args.close (.varargs tys array)) k (code, operands) k') :
    ∃ l o, Gives (packArguments array (packedTy array) args.packed) k l k' ∧ l.operand = some o ∧
      code = args.code ++ l.code ∧ operands = args.operands ++ [o] := by
  rw [Arguments.close] at h
  obtain ⟨l, k₁, gpack, h⟩ := h.bind
  obtain ⟨o, ho, h⟩ := h.lift_bind
  obtain ⟨hpair, rfl⟩ := Gives.pure_iff.mp h
  cases hpair
  exact ⟨l, o, gpack, require_eq_ok ho, rfl, rfl⟩

theorem close_cons {formals : Formals} {args : Arguments} {first : List Instr} {o : Operand}
    {k k' : Counters} {code : List Instr} {operands : List Operand}
    (h : Gives (Arguments.close formals { args with
      code := first ++ args.code, operands := o :: args.operands }) k (code, operands) k') :
    ∃ code' operands', Gives (args.close formals.next) k (code', operands') k' ∧
      code = first ++ code' ∧ operands = o :: operands' := by
  cases formals with
  | plain tys =>
    obtain ⟨hpair, rfl⟩ := Gives.pure_iff.mp h
    cases hpair
    exact ⟨args.code, args.operands, Gives.pure_iff.mpr ⟨rfl, rfl⟩, rfl, rfl⟩
  | varargs tys array =>
    obtain ⟨l, o', gpack, ho', rfl, rfl⟩ := close_varargs h
    refine ⟨args.code ++ l.code, args.operands ++ [o'], ?_, List.append_assoc .., rfl⟩
    rw [Formals.next, Arguments.close, Gives.bind_iff]
    refine ⟨l, k', gpack, ?_⟩
    rw [Lowered.require, ho']
    exact Gives.pure_iff.mpr ⟨rfl, rfl⟩

/-- The code of the arguments of a call in a method puts their values into operands. -/
def LowersArgs (c : Context) (d : Method) (m : Ir.Method) (es : List Expr) : Prop :=
  ∀ ⦃formals k args k₁ code operands k₂⦄, Gives (lowerArgs (scopeOf c d) formals es) k args k₁ →
    Gives (args.close formals) k₁ (code, operands) k₂ →
      ArgsLowered c m k k₂ code operands (evalArgs c · (parametersOf formals) es)

theorem lowersArgs_nil : LowersArgs c d m [] := by
  intro formals k args k₁ code operands k₂ h hclose
  obtain ⟨rfl, rfl⟩ := Gives.pure_iff.mp h
  cases formals with
  | plain tys =>
    obtain ⟨hpair, rfl⟩ := Gives.pure_iff.mp hclose
    cases hpair
    refine ⟨Nat.le_refl _, nofun, fun {env _ _} _ _ => ?_⟩
    show (irMachine c.platform m).Computes 0 _ (evalArgs c env { fixed := tys } []) _
    rw [evalArgs]
    exact .pure ⟨⟨rfl, .refl _ _ _⟩, rfl⟩
  | varargs tys array =>
    obtain ⟨l, o, gpack, ho, rfl, rfl⟩ := close_varargs hclose
    have hitems : ItemsLowered c m none [] k k [] :=
      lowersItems_nil (d := d) none (Gives.pure_iff.mpr ⟨rfl, rfl⟩)
    have hargs := (packArray_lowered hitems gpack).argument ho
    refine ⟨hargs.temps_le, hargs.proper, fun {env _ _} hplaced hagree => ?_⟩
    show (irMachine c.platform m).Computes 0 _
      (evalArgs c env { fixed := tys, rest := some array } []) _
    rw [evalArgs]
    exact hargs.computes hplaced hagree

/-- A packed argument, which stands for itself if it is the only one and such an array. -/
theorem packArguments_lowered {e : Expr} {rest : List Expr} {array : Ty} {k k₁ k₂ : Counters}
    {items : List Lowered} {l : Lowered} (he : LowersExpr c d m (some (packedTy array)) e)
    (hrest : LowersItems c d m (some (packedTy array)) rest)
    (gitems : Gives (lowerItems (scopeOf c d) (some (packedTy array)) (e :: rest)) k items k₁)
    (gpack : Gives (packArguments array (packedTy array) items) k₁ l k₂) :
    ∃ ty, ExprLowered c m k k₂ l ty fun env =>
      if rest.isEmpty ∧ typeOf c (some (packedTy array)) e = some array then
        eval c env (some (packedTy array)) e
      else do
        let packed ← c.allocate (packedTy array) (rest.length + 1)
        evalItems c env (some (packedTy array)) (packedTy array) packed 0 (e :: rest)
        return packed := by
  have hpacked := lowersItems_cons he hrest gitems
  by_cases hsingle : rest.isEmpty ∧ typeOf c (some (packedTy array)) e = some array
  · simp only [if_pos hsingle]
    obtain ⟨hempty, hty⟩ := hsingle
    cases List.isEmpty_iff.mp hempty
    rw [lowerItems] at gitems
    obtain ⟨item, k₂, gitem, gitems⟩ := gitems.bind
    obtain ⟨more, k₃, gmore, gitems⟩ := gitems.bind
    obtain ⟨rfl, rfl⟩ := Gives.pure_iff.mp gitems
    obtain ⟨rfl, rfl⟩ := Gives.pure_iff.mp gmore
    have hitem := he gitem
    rw [packArguments, if_pos (hitem.fits.ty.trans hty)] at gpack
    obtain ⟨rfl, rfl⟩ := Gives.pure_iff.mp gpack
    exact ⟨_, hitem⟩
  · simp only [if_neg hsingle]
    refine ⟨_, packArray_lowered hpacked ?_⟩
    cases rest with
    | nil =>
      rw [lowerItems] at gitems
      obtain ⟨item, k₂, gitem, gitems⟩ := gitems.bind
      obtain ⟨more, k₃, gmore, gitems⟩ := gitems.bind
      obtain ⟨rfl, rfl⟩ := Gives.pure_iff.mp gitems
      obtain ⟨rfl, rfl⟩ := Gives.pure_iff.mp gmore
      have hty : ¬ item.operand.map (·.ty) = some array := fun h =>
        hsingle ⟨rfl, (he gitem).fits.ty.symm.trans h⟩
      rwa [packArguments, if_neg hty] at gpack
    | cons e' rest' =>
      obtain ⟨item, item', more, rfl⟩ : ∃ item item' more, items = item :: item' :: more := by
        match items, hpacked.length with
        | item :: item' :: more, _ => exact ⟨item, item', more, rfl⟩
      exact gpack

theorem lowersArgs_cons {e : Expr} {rest : List Expr} (he : ∀ hint, LowersExpr c d m hint e)
    (hitems : ∀ hint, LowersItems c d m hint rest) (hrest : LowersArgs c d m rest) :
    LowersArgs c d m (e :: rest) := by
  intro formals k args k₁ code operands k₂ h hclose
  cases hpacked : formals.isPacked with
  | false =>
    obtain ⟨hpacking, hhint⟩ := packing_of_not_packed hpacked
    rw [lowerArgs, Arguments.cons] at h
    obtain ⟨l, k₃, ge, h⟩ := h.bind
    rw [hpacked] at h
    obtain ⟨o, ho, h⟩ := Gives.lift_bind h
    obtain ⟨more, k₄, gmore, h⟩ := h.bind
    obtain ⟨rfl, rfl⟩ := Gives.pure_iff.mp h
    obtain ⟨code', operands', gclose, rfl, rfl⟩ := close_cons hclose
    rw [hhint] at ge
    have hargs := (he _ ge).consArguments (require_eq_ok ho) (hrest gmore gclose)
    simp only [evalArgs_single hpacking, ← parametersOf_next]
    exact hargs
  | true =>
    obtain ⟨array, rfl⟩ := varargs_of_packed hpacked
    obtain ⟨items, gitems, rfl⟩ := lowerArgs_packed h
    obtain ⟨l, o, gpack, ho, rfl, rfl⟩ := close_varargs hclose
    obtain ⟨ty, hl⟩ := packArguments_lowered (he _) (hitems _) gitems gpack
    have hargs := hl.argument ho
    refine ⟨hargs.temps_le, hargs.proper, fun {env _ _} hplaced hagree => ?_⟩
    have hcomputes := hargs.computes hplaced hagree
    have hpacking : (parametersOf (.varargs [] array)).packing? = some array := rfl
    rw [evalArgs_packed hpacking]
    by_cases hsingle : rest.isEmpty ∧ typeOf c (some (packedTy array)) e = some array
    · rw [if_pos hsingle] at hcomputes ⊢
      exact hcomputes
    · rw [if_neg hsingle] at hcomputes ⊢
      simp only [bind_assoc, pure_bind] at hcomputes
      exact hcomputes

/-! ## Targets -/

/-- The target of a lowered call: the name of a class, or an operand with the code of an
expression. -/
inductive TargetLowered (c : Context) (d : Method) (target : Expr) (k : Counters) :
    List Instr → Operand → Counters → Prop
  | ofClass {name : String} (h : c.classTarget? target = some name) :
    TargetLowered c d target k [] (.classRef name) k
  | ofOperand {l : Lowered} {o : Operand} {k' : Counters} (h : c.classTarget? target = none)
    (hl : Gives (lowerExpr (scopeOf c d) none target) k l k') (ho : l.operand = some o) :
    TargetLowered c d target k l.code o k'

theorem lowerTarget_lowered (hc : c.method = .ofMethod d) {target : Expr} {k k' : Counters}
    {code : List Instr} {o : Operand}
    (h : Gives (lowerTarget (scopeOf c d) target (lowerExpr (scopeOf c d) none target)) k
      (code, o) k') : TargetLowered c d target k code o k' := by
  have hother : ∀ {x : Lower Lowered}, c.classTarget? target = none →
      x = lowerExpr (scopeOf c d) none target →
      Gives (do
        let l ← x
        return (l.code, ← l.require .callTarget)) k (code, o) k' →
      TargetLowered c d target k code o k' := by
    rintro _ hclass rfl h
    obtain ⟨l, k₁, gl, h⟩ := h.bind
    obtain ⟨o', ho', h⟩ := h.lift_bind
    obtain ⟨hpair, rfl⟩ := Gives.pure_iff.mp h
    cases hpair
    exact .ofOperand hclass gl (require_eq_ok ho')
  cases target with
  | var name =>
    rw [lowerTarget] at h
    obtain ⟨binding, hresolve, h⟩ := h.lift_bind
    rw [resolve_eq hc] at hresolve
    cases hmeaning : c.meaning name with
    | className =>
      rw [hmeaning] at hresolve
      cases hresolve
      obtain ⟨hpair, rfl⟩ := Gives.pure_iff.mp h
      cases hpair
      exact .ofClass (by rw [Context.classTarget?, if_pos hmeaning])
    | var ty | field ty =>
      rw [hmeaning] at hresolve
      cases hresolve
      refine hother ?_ ?_ h
      · rw [Context.classTarget?, hmeaning]
        exact if_neg (by simp)
      · rw [lowerExpr]
    | unknown =>
      rw [hmeaning] at hresolve
      cases hresolve
  | _ => exact hother rfl rfl h

theorem ownSignature_eq {target : Expr} {k k' : Counters} {code : List Instr} {o : Operand}
    (h : TargetLowered c d target k code o k') (htarget : LowersExpr c d m none target)
    (method : String) :
    (scopeOf c d).ownSignature? o method =
      c.signature? target (typeOf c none target) method := by
  cases h with
  | ofClass h =>
    rw [Context.signature?, h]
    rfl
  | ofOperand h hl ho =>
    have hfits := (htarget hl).fits
    have hproper := hfits.proper o ho
    rw [Context.signature?, h, ← hfits.ty, ho]
    cases o with
    | receiver className =>
      cases hproper
      show (if true then _ else _) = if (some (Ty.object _) == some (Ty.object _)) then _ else _
      rw [beq_self_eq_true]
      rfl
    | classRef name => exact hproper.elim
    | literal | var | temp => rfl

/-! ## Calls -/

/-- A lowered call: behind the code of its operands it does what an action of the variables does. -/
structure CallLowered (c : Context) (m : Ir.Method) (k k' : Counters) (code : List Instr)
    (call : Ir.Call) (a : Locals → Action Value) : Prop where
  temps_le : k.temps ≤ k'.temps
  computes : ∀ {β : Type} {f : Value → Action β} {R : β → IrState → Prop} {env vars pc},
    Placed m.instructions pc code → Agrees c env vars →
    (∀ t : IrState, t.pc = pc + code.length → Frame k.temps k'.temps vars t.vars →
      (irMachine c.platform m).Computes 0 t (irCall c.platform t.vars call >>= f) R) →
    (irMachine c.platform m).Computes 0 { pc, vars } (a env >>= f) R

/-- What a call in the source does. -/
def callAction (c : Context) (target : Expr) (method : String) (args : List Expr) (env : Locals) :
    Action Value :=
  c.call target method (c.signature? target (typeOf c none target) method) (eval c env none target)
    fun parameters => evalArgs c env parameters args

/-- The kind of a call on an operand. -/
def targetKind : Operand → Ir.CallKind
  | .classRef _ => .invokeStatic
  | .literal _ | .var .. | .temp .. | .receiver _ => .invokeVirtual

theorem irCall_static {P : Platform} {vars : Vars} {name method : String} {args : List Operand}
    {returnTy : Ty} {values : List Value} (h : readOperands P vars args = pure values) :
    irCall P vars { kind := targetKind (.classRef name), target := .classRef name
                    method := some method, args, returnTy } =
      P.invoke (.static (P.classOf name)) method values := by
  show (readOperands P vars args >>= fun values => _) = _
  rw [h, pure_bind]

theorem irCall_virtual {P : Platform} {vars : Vars} {o : Operand} {method : String}
    {args : List Operand} {returnTy : Ty} {object : Value} {values : List Value}
    (ho : readOperand P vars o = pure object) (h : readOperands P vars args = pure values) :
    irCall P vars { kind := targetKind o, target := o, method := some method, args, returnTy } =
      P.invoke (.object object) method values := by
  have hkind : targetKind o = .invokeVirtual := by
    cases o <;> first | rfl | exact absurd ho (Action.stuck_ne_pure object)
  rw [hkind]
  show (readOperand P vars o >>= fun object => readOperands P vars args >>= fun values => _) = _
  rw [ho, pure_bind, h, pure_bind]

theorem call_lowered {target : Expr} {method : String} {args : List Expr} {k k₁ k₂ : Counters}
    {targetCode argCode : List Instr} {o : Operand} {operands : List Operand} (returnTy : Ty)
    (htarget : TargetLowered c d target k targetCode o k₁) (he : LowersExpr c d m none target)
    (hargs : ArgsLowered c m k₁ k₂ argCode operands (evalArgs c ·
      (.ofSignature? (c.signature? target (typeOf c none target) method)) args)) :
    CallLowered c m k k₂ (targetCode ++ argCode)
      { kind := targetKind o, target := o, method := some method, args := operands, returnTy }
      (callAction c target method args) := by
  cases htarget with
  | ofClass hclass =>
    refine ⟨hargs.temps_le, fun {β f R env vars pc} hplaced hagree hf => ?_⟩
    simp only [callAction, Context.call, hclass, pure_bind, bind_assoc]
    refine (hargs.computes hplaced hagree).bind fun values t hpassed => ?_
    obtain ⟨ht, hvalues⟩ := hpassed
    have hcall := hf t ht.pc ht.frame
    rwa [irCall_static hvalues] at hcall
  | @ofOperand l o _ hclass hl ho =>
    have hfits := (he hl).fits
    have hproper := hfits.proper o ho
    refine ⟨Nat.le_trans hfits.temps_le hargs.temps_le,
      fun {β f R env vars pc} hplaced hagree hf => ?_⟩
    simp only [callAction, Context.call, hclass, Action.map_eq_bind, pure_bind, bind_assoc]
    refine he.operand hl ho hplaced.left hagree fun v t hpc hframe hv => ?_
    obtain ⟨tpc, tvars⟩ := t
    subst hpc
    refine (hargs.computes hplaced.right (hagree.frame hframe)).bind fun values u hpassed => ?_
    obtain ⟨hu, hvalues⟩ := hpassed
    have hframe' := hframe.trans hu.frame hfits.temps_le hargs.temps_le
    have hcall := hf u (by rw [hu.pc, List.length_append, Nat.add_assoc]) hframe'
    have hread : readOperand c.platform u.vars o = pure v := by
      rw [read_frame hproper hu.frame]
      exact hv
    rwa [irCall_virtual hread hvalues] at hcall

/-- The parts of a lowered call: its target, its arguments, and what is done with the call. -/
theorem lowerCall_parts {sc : Scope} {target : Lower (List Instr × Operand)} {method : String}
    {args : Formals → Lower Arguments} {expected : Option Ty} {discard : Bool} {k k' : Counters}
    {l : Lowered} (h : Gives (lowerCall sc target method args expected discard) k l k') :
    ∃ targetCode object k₁ arguments k₂ argCode operands k₃ call,
      Gives target k (targetCode, object) k₁ ∧
      Gives (args (.ofSignature? (sc.ownSignature? object method))) k₁ arguments k₂ ∧
      Gives (arguments.close (.ofSignature? (sc.ownSignature? object method))) k₂
        (argCode, operands) k₃ ∧
      call = (⟨targetKind object, object, some method, operands,
        callReturnTy (sc.ownSignature? object method) expected discard⟩ : Ir.Call) ∧
      Gives (if discard || call.returnTy.isVoid then
          pure { code := targetCode ++ argCode ++ [.call call], operand := none }
        else compute (targetCode ++ argCode) call.returnTy (.call call)) k₃ l k' := by
  rw [lowerCall] at h
  obtain ⟨⟨targetCode, object⟩, k₁, htarget, h⟩ := h.bind
  obtain ⟨arguments, k₂, hargs, h⟩ := h.bind
  obtain ⟨⟨argCode, operands⟩, k₃, hclose, h⟩ := h.bind
  refine ⟨targetCode, object, k₁, arguments, k₂, argCode, operands, k₃, _, htarget, hargs, hclose,
    rfl, ?_⟩
  cases object <;> exact h

theorem lowerCall_gives (hc : c.method = .ofMethod d) {target : Expr} {method : String}
    {args : List Expr} {expected : Option Ty} {discard : Bool} {k k' : Counters} {l : Lowered}
    (htarget : LowersExpr c d m none target) (hargs : LowersArgs c d m args)
    (h : Gives (lowerCall (scopeOf c d)
      (lowerTarget (scopeOf c d) target (lowerExpr (scopeOf c d) none target)) method
      (fun formals => lowerArgs (scopeOf c d) formals args) expected discard) k l k') :
    ∃ code call k₁, CallLowered c m k k₁ code call (callAction c target method args) ∧
      call.returnTy =
        callReturnTy (c.signature? target (typeOf c none target) method) expected discard ∧
      Gives (if discard || call.returnTy.isVoid then
          pure { code := code ++ [.call call], operand := none }
        else compute code call.returnTy (.call call)) k₁ l k' := by
  obtain ⟨targetCode, o, k₁, arguments, k₂, argCode, operands, k₃, call, gtarget, gargs, gclose, rfl,
    h⟩ := lowerCall_parts h
  have htargeted := lowerTarget_lowered hc gtarget
  rw [ownSignature_eq htargeted htarget] at gargs gclose h
  have hlowered := hargs gargs gclose
  rw [parametersOf_ofSignature] at hlowered
  exact ⟨_, _, k₃, call_lowered (callReturnTy (c.signature? target (typeOf c none target) method)
    expected discard) htargeted htarget hlowered, rfl, h⟩

theorem callTy_eq (signature : Option Signature) (hint : Option Ty) :
    callTy? signature hint = if (callReturnTy signature hint false).isVoid then none
      else some (callReturnTy signature hint false) := by
  cases signature <;> rfl

theorem eval_call (c : Context) (env : Locals) (hint : Option Ty) (target : Expr) (method : String)
    (args : List Expr) :
    eval c env hint (.call target method args) =
      match callTy? (c.signature? target (typeOf c none target) method) hint with
      | some ty => callAction c target method args env >>= c.platform.expect ty
      | none => Action.stuck := by
  rw [eval]
  rfl

theorem lowerCall_lowers (hc : c.method = .ofMethod d) {target : Expr} (method : String)
    {args : List Expr} (hint : Option Ty) (htarget : LowersExpr c d m none target)
    (hargs : LowersArgs c d m args) :
    LowersExpr c d m hint (.call target method args) := by
  intro k l k' h
  rw [lowerExpr] at h
  obtain ⟨code, call, k₁, hcall, hty, h⟩ := lowerCall_gives hc htarget hargs h
  simp only [typeOf, eval_call, callTy_eq, ← hty]
  by_cases hvoid : call.returnTy.isVoid
  · simp only [hvoid, Bool.or_true, if_true] at h ⊢
    obtain ⟨rfl, rfl⟩ := Gives.pure_iff.mp h
    exact ⟨⟨hcall.temps_le, rfl, by simp⟩, fun _ _ => .stuck⟩
  · simp only [Bool.false_or, if_neg hvoid] at h ⊢
    obtain ⟨rfl, rfl⟩ := gives_compute h
    refine ⟨fits_temp hcall.temps_le, fun {env vars pc} hplaced hagree => ?_⟩
    refine hcall.computes hplaced.left hagree fun t hpc hframe => ?_
    exact finish_computes hplaced hpc hframe hcall.temps_le rfl fun _ _ _ => c.platform.expect_holds

end MiniJava.Semantics
