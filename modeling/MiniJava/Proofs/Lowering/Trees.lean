import MiniJava.Proofs.Lowering.Calls

/-!
# Lowered expression trees

The recursion over the tree: the code of every expression that is lowered computes its value. With
it go the two other ways to lower an expression, for its effect and as the condition of a branch.
-/

namespace MiniJava.Semantics

open Ir (Operand Instr)
open Lowering

variable {c : Context} {d : Method} {m : Ir.Method}

theorem Lowers.of_eq {x x' : Lower Lowered} {ty ty' : Option Ty} {a a' : Locals → Action Value}
    (h : Lowers c m x ty a) (hx : x' = x) (hty : ty' = ty) (ha : ∀ env, a' env = a env) :
    Lowers c m x' ty' a' := by
  subst hx hty
  rw [show a' = a from funext ha]
  exact h

theorem literal_lowers (value : Literal) :
    Lowers c m (pure (.value (.literal value))) (some value.ty)
      (fun _ => pure (c.platform.literal value)) := by
  intro k l k' h
  obtain ⟨rfl, rfl⟩ := Gives.pure_iff.mp h
  refine ⟨⟨Nat.le_refl _, rfl, fun o ho => by cases ho; trivial⟩, fun _ _ => ?_⟩
  exact .pure ⟨rfl, .refl _ _ _, fun o ho => by cases ho; rfl⟩

theorem lowerSelf_lowers (hc : c.method = .ofMethod d) (hint : Option Ty) :
    LowersExpr c d m hint .self := by
  intro k l k' h
  rw [lowerExpr] at h
  obtain ⟨o, ho, h⟩ := h.lift_bind
  obtain ⟨rfl, rfl⟩ := Gives.pure_iff.mp h
  obtain ⟨hstatic, rfl⟩ := receiver_eq_ok ho
  rw [typeOf]
  refine ⟨⟨Nat.le_refl _, rfl, fun o ho => by cases ho; rfl⟩, fun {env vars pc} _ hagree => ?_⟩
  have hself : c.method.isStatic = false := by rw [hc]; exact hstatic
  show (irMachine c.platform m).Computes 0 _ c.receiver _
  rw [Context.receiver, if_neg (by simp [hself])]
  by_cases hholds : c.platform.holds (.object c.symbols.className) c.self
  · rw [expect_of_holds hholds]
    refine .pure ⟨rfl, .refl _ _ _, fun o ho => ?_⟩
    cases ho
    rw [read_receiver hagree hself, Context.receiver, if_neg (by simp [hself]),
      expect_of_holds hholds]
  · rw [Platform.expect, if_neg hholds]
    exact .stuck

theorem call_computes {P : Platform} {s : IrState} {call : Ir.Call}
    (hat : m.instructions[s.pc]? = some (.call call)) :
    (irMachine P m).Computes 1 s (irCall P s.vars call) fun _ t => t = { s with pc := s.pc + 1 } :=
  .single (by rw [irMachine_at hat, irInstr]) fun _ _ _ _ => rfl

theorem irCall_constructor {P : Platform} {vars : Vars} {o : Operand} {object : Value}
    (h : readOperand P vars o = pure object) :
    irCall P vars (.constructor o) = P.invoke (.object object) "<init>" [] := by
  show (readOperand P vars o >>= fun object => readOperands P vars [] >>= fun values =>
    P.invoke (.object object) "<init>" values) = _
  rw [h, pure_bind]
  rfl

theorem lowerNewObject_lowers (name : String) (hint : Option Ty) :
    LowersExpr c d m hint (.newObject name) := by
  intro k l k' h
  rw [lowerExpr, lowerNewObject] at h
  obtain ⟨o, k₁, htemp, h⟩ := h.bind
  obtain ⟨rfl, rfl⟩ := gives_freshTemp htemp
  obtain ⟨rfl, rfl⟩ := Gives.pure_iff.mp h
  rw [typeOf]
  refine ⟨⟨Nat.le_succ _, rfl, fun o ho => by cases ho; exact Nat.lt_succ_self _⟩,
    fun {env vars pc} hplaced _ => ?_⟩
  have hfresh : ∀ v w w', alloc (.object (c.platform.classOf name) []) w = .ok v w' →
      c.platform.holds (.object name) v := by
    intro v w w' hv
    cases hv
    exact c.platform.holds_ref _ _ rfl
  have halloc : irValue c.platform vars (.call (.newObject name)) =
      alloc (.object (c.platform.classOf name) []) := by
    show (alloc (.object (c.platform.classOf name) []) >>= c.platform.expect (.object name)) = _
    rw [bind_expect hfresh]
  show (irMachine c.platform m).Computes 0 _ (eval c env hint (.newObject name)) _
  rw [eval]
  refine ((assign_computes hplaced.head halloc hfresh).mono (Nat.zero_le 1)
    fun _ _ h => h).bind fun object t hassigned => ?_
  obtain ⟨tpc, tvars⟩ := t
  obtain ⟨hpc, hvars, hholds⟩ := hassigned
  subst hpc hvars
  have hcall := call_computes (P := c.platform)
    (s := ⟨pc + 1, vars.set (.temp k.temps) object⟩) hplaced.tail.head
  rw [irCall_constructor (read_temp hholds)] at hcall
  refine (hcall.mono (Nat.zero_le 1) fun _ _ h => h).bind fun _ t ht => ?_
  subst ht
  exact .pure ⟨rfl, Frame.set _ _ _, fun o ho => by cases ho; exact read_temp hholds⟩

/-! ## Operators -/

theorem lowerStrict_lowers {op : BinOp} {op' : Ir.BinOp} {left right : Expr} (hint : Option Ty)
    (hl : LowersExpr c d m (some .int) left) (hr : LowersExpr c d m (some .int) right)
    (hop : decider? op = none) (hlower : lowerExpr (scopeOf c d) hint (.binary op left right) =
      lowerBinary op' (lowerExpr (scopeOf c d) (some .int) left)
        (lowerExpr (scopeOf c d) (some .int) right))
    (hty : typeOf c hint (.binary op left right) = some op'.resultTy)
    (hstrict : irBinary c.platform op' = strict c.platform op) :
    LowersExpr c d m hint (.binary op left right) := by
  refine (lowerBinary_lowers op' hl hr).of_eq hlower hty fun env => ?_
  rw [eval_strict hop, hstrict]

theorem lowerLogical_lowers {op : BinOp} {decider : Bool} {left right : Expr} (hint : Option Ty)
    {lower : Option Bool → Lower Lowered → Lower Lowered → Lower Lowered}
    (hop : decider? op = some decider) (hlower : lowerExpr (scopeOf c d) hint (.binary op left right) =
      lower (decided? left) (lowerExpr (scopeOf c d) (some .boolean) left)
        (lowerExpr (scopeOf c d) (some .boolean) right))
    (hdecided : ∀ x y, lower (some decider) x y = pure (.value (.bool decider)))
    (hopen : ∀ x y, lower (some !decider) x y = y)
    (hr : LowersExpr c d m (some .boolean) right)
    (hnone : Lowers c m (lower none (lowerExpr (scopeOf c d) (some .boolean) left)
        (lowerExpr (scopeOf c d) (some .boolean) right)) (some .boolean)
      (fun env => shortCircuit c.platform decider (eval c env (some .boolean) left)
        (rightOf (typeOf c (some .boolean) right) (eval c · (some .boolean) right) env))) :
    LowersExpr c d m hint (.binary op left right) := by
  have hdecision : decided? left = constant? left := rfl
  rw [hdecision] at hlower
  have hty := typeOf_logical hop c hint left right
  cases hleft : constant? left with
  | none =>
    rw [hleft] at hlower hty
    exact hnone.of_eq hlower hty fun env => eval_logical hop c env hint left right
  | some value =>
    rw [hleft] at hlower hty
    by_cases hvalue : value = decider
    · subst hvalue
      rw [hdecided] at hlower
      refine (literal_lowers (.bool value)).of_eq hlower (hty.trans (if_neg ?_)) fun env => ?_
      · cases value <;> decide
      · rw [eval_logical hop, eval_of_constant hleft, shortCircuit, pure_bind,
          c.platform.test_truth, pure_bind, if_pos rfl]
        rfl
    · obtain rfl : value = !decider := by
        cases value <;> cases decider <;> first | rfl | exact absurd rfl hvalue
      rw [hopen] at hlower
      refine (right_lowers hr).of_eq hlower (hty.trans (if_pos rfl)) fun env => ?_
      rw [eval_logical hop, eval_of_constant hleft, shortCircuit, pure_bind,
        c.platform.test_truth, pure_bind, if_neg hvalue]
      rfl

/-! ## The tree -/

theorem lowerArrayLiteral_lowers (hint : Option Ty) {es : List Expr}
    (h : LowersItems c d m (hint.bind (·.element?)) es) :
    LowersExpr c d m hint (.arrayLiteral es) := by
  intro k l k' hg
  rw [lowerExpr] at hg
  obtain ⟨items, k₁, gitems, hg⟩ := hg.bind
  have hitems := h gitems
  rw [hitems.ty] at hg
  simp only [typeOf, eval]
  exact packArray_lowered hitems hg

mutual

/-- The code of an expression computes its value. -/
theorem lowerExpr_lowers (hc : c.method = .ofMethod d) (hm : m.LabelsPlaced) :
    ∀ (hint : Option Ty) (e : Expr), LowersExpr c d m hint e
  | hint, .literal value =>
    (literal_lowers value).of_eq (by rw [lowerExpr]) (by rw [typeOf]) fun env => by rw [eval]
  | hint, .self => lowerSelf_lowers hc hint
  | hint, .var name =>
    (lowerVar_lowers hc name).of_eq (by rw [lowerExpr]) (by rw [typeOf]) fun env => by rw [eval]
  | hint, .paren inner =>
    (lowerExpr_lowers hc hm hint inner).of_eq (by rw [lowerExpr]) (by rw [typeOf])
      fun env => by rw [eval]
  | hint, .binary op left right => by
    have hl := lowerExpr_lowers hc hm (some .int) left
    have hr := lowerExpr_lowers hc hm (some .int) right
    have hl' := lowerExpr_lowers hc hm (some .boolean) left
    have hr' := lowerExpr_lowers hc hm (some .boolean) right
    cases op with
    | add | sub | mul | div | lt =>
      exact lowerStrict_lowers hint hl hr rfl (by rw [lowerExpr]) (by rw [typeOf]; rfl) rfl
    | and =>
      exact lowerLogical_lowers hint rfl (by rw [lowerExpr]) (fun _ _ => rfl) (fun _ _ => rfl) hr'
        (lowerAnd_lowers hm hl' hr')
    | or =>
      exact lowerLogical_lowers hint rfl (by rw [lowerExpr]) (fun _ _ => rfl) (fun _ _ => rfl) hr'
        (lowerOr_lowers hm hl' hr')
  | hint, .not operand =>
    (lowerNot_lowers (lowerExpr_lowers hc hm (some .boolean) operand)).of_eq (by rw [lowerExpr])
      (by rw [typeOf]) fun env => by rw [eval]
  | hint, .newArray element size =>
    (lowerNewArray_lowers element (lowerExpr_lowers hc hm (some .int) size)).of_eq
      (by rw [lowerExpr]) (by rw [typeOf]) fun env => by rw [eval]
  | hint, .arrayLiteral elements =>
    lowerArrayLiteral_lowers hint (lowerItems_lowers hc hm (hint.bind (·.element?)) elements)
  | hint, .index array index =>
    (lowerIndex_lowers (describe array) (lowerExpr_lowers hc hm none array)
      (lowerExpr_lowers hc hm (some .int) index)).of_eq (by rw [lowerExpr]) (by rw [typeOf])
        fun env => eval.eq_11 c env hint array index
  | hint, .length array =>
    (lowerLength_lowers (describe array) (lowerExpr_lowers hc hm none array)).of_eq
      (by rw [lowerExpr]) (by rw [typeOf]) fun env => eval.eq_12 c env hint array
  | hint, .newObject name => lowerNewObject_lowers name hint
  | hint, .call target method args =>
    lowerCall_lowers hc method hint (lowerExpr_lowers hc hm none target) (lowerArgs_lowers hc hm args)

theorem lowerItems_lowers (hc : c.method = .ofMethod d) (hm : m.LabelsPlaced) :
    ∀ (hint : Option Ty) (es : List Expr), LowersItems c d m hint es
  | hint, [] => lowersItems_nil hint
  | hint, e :: rest =>
    lowersItems_cons (lowerExpr_lowers hc hm hint e) (lowerItems_lowers hc hm hint rest)

theorem lowerArgs_lowers (hc : c.method = .ofMethod d) (hm : m.LabelsPlaced) :
    ∀ (es : List Expr), LowersArgs c d m es
  | [] => lowersArgs_nil
  | e :: rest =>
    lowersArgs_cons (fun hint => lowerExpr_lowers hc hm hint e)
      (fun hint => lowerItems_lowers hc hm hint rest) (lowerArgs_lowers hc hm rest)

end

/-! ## Effects and conditions -/

/-- The code of an expression whose value is dropped. -/
structure EffectLowered (c : Context) (m : Ir.Method) (k k' : Counters) (l : Lowered) (e : Expr) :
    Prop where
  temps_le : k.temps ≤ k'.temps
  computes : ∀ {env vars pc}, Placed m.instructions pc l.code → Agrees c env vars →
    (irMachine c.platform m).Computes 0 { pc, vars } (effect c env e)
      fun _ => Passed k.temps k'.temps vars (pc + l.code.length)

theorem ExprLowered.dropped {k k' : Counters} {l : Lowered} {ty : Option Ty} {e : Expr}
    (h : ExprLowered c m k k' l ty (eval c · none e))
    (heffect : ∀ env, effect c env e = eval c env none e >>= fun _ => pure ()) :
    EffectLowered c m k k' l e := by
  refine ⟨h.fits.temps_le, fun hplaced hagree => ?_⟩
  rw [heffect]
  exact (h.computes hplaced hagree).bind fun _ t ht => .pure ⟨ht.pc, ht.frame⟩

theorem lowerEffect_lowered (hc : c.method = .ofMethod d) (hm : m.LabelsPlaced) (e : Expr)
    {k k' : Counters} {l : Lowered} (h : Gives (lowerEffect (scopeOf c d) e) k l k') :
    EffectLowered c m k k' l e := by
  suffices hstripped : EffectLowered c m k k' l e.stripParens from
    ⟨hstripped.temps_le, fun {env} _ _ hplaced hagree => by
      rw [← effect_stripParens]
      exact hstripped.computes hplaced hagree⟩
  refine lowerEffect_cases (P := fun e x => Gives x k l k' → EffectLowered c m k k' l e)
    (fun target method args h => ?_) (fun e hparen hcall h => ?_) e h
  · obtain ⟨code, call, k₁, hcall, _, h⟩ := lowerCall_gives hc
      (lowerExpr_lowers hc hm none target) (lowerArgs_lowers hc hm args) h
    simp only [Bool.true_or, if_true] at h
    obtain ⟨rfl, rfl⟩ := Gives.pure_iff.mp h
    refine ⟨hcall.temps_le, fun {env vars pc} hplaced hagree => ?_⟩
    show (irMachine c.platform m).Computes 0 _
      (callAction c target method args env >>= fun _ => pure ()) _
    refine hcall.computes hplaced.left hagree fun t hpc hframe => ?_
    have hat := hplaced.right.head
    rw [← hpc] at hat
    refine ((call_computes hat).mono (Nat.zero_le 1) fun _ _ h => h).bind fun _ u hu => ?_
    subst hu
    refine .pure ⟨?_, hframe⟩
    show t.pc + 1 = _
    rw [hpc, List.length_append]
    rfl
  · exact (lowerExpr_lowers hc hm none e h).dropped fun env => effect.eq_3 c env e hparen hcall

/-- The code of a condition, with the value to test behind it. -/
structure ConditionLowered (c : Context) (m : Ir.Method) (k k' : Counters) (code : List Instr)
    (value : Ir.Value) (e : Expr) : Prop where
  temps_le : k.temps ≤ k'.temps
  computes : ∀ {env vars pc} {β : Type} {f : Bool → Action β} {R : β → IrState → Prop},
    Placed m.instructions pc code → Agrees c env vars →
    (∀ t a, t.pc = pc + code.length → Frame k.temps k'.temps vars t.vars →
      irValue c.platform t.vars value = a →
        (irMachine c.platform m).Computes 0 t (a >>= c.platform.test >>= f) R) →
    (irMachine c.platform m).Computes 0 { pc, vars } (c.holdsIn env e >>= f) R

theorem lowerCondition_lowered (hc : c.method = .ofMethod d) (hm : m.LabelsPlaced) (e : Expr)
    {k k' : Counters} {code : List Instr} {value : Ir.Value}
    (h : Gives (lowerCondition (scopeOf c d) e) k (code, value) k') :
    ConditionLowered c m k k' code value e := by
  suffices hstripped : ConditionLowered c m k k' code value e.stripParens from
    ⟨hstripped.temps_le, fun {env} _ _ _ _ _ hplaced hagree hf => by
      rw [Context.holdsIn, ← eval_stripParens]
      exact hstripped.computes hplaced hagree hf⟩
  refine lowerCondition_cases
    (P := fun e x => Gives x k (code, value) k' → ConditionLowered c m k k' code value e)
    (fun left right h => ?_) (fun e h => ?_) e h
  · have hl := lowerExpr_lowers hc hm (some .int) left
    have hr := lowerExpr_lowers hc hm (some .int) right
    obtain ⟨l, k₁, gl, h⟩ := h.bind
    obtain ⟨r, k₂, gr, h⟩ := h.bind
    obtain ⟨x, hx, h⟩ := h.lift_bind
    obtain ⟨y, hy, h⟩ := h.lift_bind
    obtain ⟨hpair, rfl⟩ := Gives.pure_iff.mp h
    cases hpair
    refine ⟨Nat.le_trans (hl gl).fits.temps_le (hr gr).fits.temps_le,
      fun {env vars pc β f R} hplaced hagree hf => ?_⟩
    rw [Context.holdsIn, eval_strict rfl, bind_assoc, bind_assoc]
    simp only [bind_assoc]
    refine hl.operands hr gl gr (require_eq_ok hx) (require_eq_ok hy) hplaced hagree
      fun u v t hpc hframe hu hv => ?_
    rw [← bind_assoc]
    refine hf t _ hpc hframe ?_
    rw [irValue, hu, pure_bind, hv, pure_bind]
    rfl
  · have he := lowerExpr_lowers hc hm (some .boolean) e
    obtain ⟨l, k₁, gl, h⟩ := h.bind
    obtain ⟨o, ho, h⟩ := h.lift_bind
    obtain ⟨hpair, rfl⟩ := Gives.pure_iff.mp h
    cases hpair
    refine ⟨(he gl).fits.temps_le, fun {env vars pc β f R} hplaced hagree hf => ?_⟩
    rw [Context.holdsIn, bind_assoc]
    refine he.operand gl (require_eq_ok ho) hplaced hagree fun v t hpc hframe hv => ?_
    have hcond := hf t (pure v) hpc hframe hv
    rwa [bind_assoc, pure_bind] at hcond

end MiniJava.Semantics
