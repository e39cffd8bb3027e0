import Mathlib.Data.List.Forall2
import MiniJava.Proofs.Semantics.Refinement

/-!
# Putting one expression in place of another

`ExprRefines` says when an expression may stand for another one: it names the same class as the
target of a call, and where the other one is not stuck it has the same value and the same type. The
types have to agree because they decide which calls are to methods of the class and which arguments
are packed. Every constructor of the tree keeps the relation.
-/

namespace MiniJava.Semantics

/-- The second expression may stand for the first one, each with its own variables. -/
structure ExprRefines (c : Context) (env env' : Locals) (e e' : Expr) : Prop where
  classTarget : c.classTarget? e' = c.classTarget? e
  eval : ∀ hint, Action.Refines (eval c env hint e) (eval c env' hint e')
  typeOf : ∀ hint w, Semantics.eval c env hint e w ≠ .stuck → typeOf c hint e' = typeOf c hint e
  effect : Action.Refines (effect c env e) (effect c env' e')

/-- An expression whose value is dropped is evaluated like others, calls apart. -/
def DropsValue (c : Context) (e : Expr) : Prop :=
  ∀ env, effect c env e = eval c env none e >>= fun _ => pure ()

/-! ## Logical operators -/

theorem check_of_ne_stuck {α : Type} {p : Bool} {a : Action α} {w : World}
    (h : (Action.check p >>= fun _ => a) w ≠ .stuck) : p = true ∧ a w ≠ .stuck := by
  cases p with
  | true => exact ⟨rfl, h⟩
  | false => exact absurd rfl h

theorem typeOf_logical_eq {op : BinOp} {decider : Bool} (hop : decider? op = some decider)
    {c : Context} {env : Locals} {hint : Option Ty} {left right : Expr} {w : World}
    (h : eval c env hint (.binary op left right) w ≠ .stuck) :
    typeOf c hint (.binary op left right) = some .boolean := by
  rw [typeOf_logical hop]
  by_cases hl : constant? left = some !decider
  · rw [if_pos hl]
    rw [eval_logical hop, eval_of_constant hl, shortCircuit, pure_bind, c.platform.test_truth,
      pure_bind, if_neg (by cases decider <;> decide)] at h
    exact of_decide_eq_true (check_of_ne_stuck (Action.bind_ne_stuck h)).1
  · rw [if_neg hl]

theorem shortCircuit_refines {P : Platform} {decider : Bool} {left left' right right' : Action Value}
    (hl : left.Refines left') (hr : right.Refines right') :
    (shortCircuit P decider left right).Refines (shortCircuit P decider left' right') := by
  refine hl.bind fun v => (Action.Refines.refl _).bind fun b => ?_
  by_cases hb : b = decider
  · rw [if_pos hb, if_pos hb]
    exact .refl _
  · rw [if_neg hb, if_neg hb]
    exact hr.bind fun v => .refl _

/-! ## The constructors keep the relation -/

namespace ExprRefines

variable {c : Context} {env env' : Locals}

theorem trans {env'' : Locals} {e e' e'' : Expr} (h : ExprRefines c env env' e e')
    (h' : ExprRefines c env' env'' e' e'') : ExprRefines c env env'' e e'' where
  classTarget := h'.classTarget.trans h.classTarget
  eval hint := (h.eval hint).trans (h'.eval hint)
  typeOf hint w hw := by
    rw [h'.typeOf hint w (by rwa [h.eval hint w hw]), h.typeOf hint w hw]
  effect := h.effect.trans h'.effect

theorem of_eval {e e' : Expr} (hclass : c.classTarget? e' = c.classTarget? e)
    (heval : ∀ hint, (Semantics.eval c env hint e).Refines (Semantics.eval c env' hint e'))
    (hty : ∀ hint w, Semantics.eval c env hint e w ≠ .stuck →
      Semantics.typeOf c hint e' = Semantics.typeOf c hint e)
    (he : DropsValue c e) (he' : DropsValue c e') : ExprRefines c env env' e e' where
  classTarget := hclass
  eval := heval
  typeOf := hty
  effect := by
    rw [he, he']
    exact (heval none).bind fun _ => .refl _

theorem refl_of_closed {e : Expr}
    (h : ∀ hint, Semantics.eval c env' hint e = Semantics.eval c env hint e)
    (he : DropsValue c e) : ExprRefines c env env' e e := by
  refine of_eval rfl (fun hint => ?_) (fun _ _ _ => rfl) he he
  rw [h hint]
  exact .refl _

theorem paren {e e' : Expr} (h : ExprRefines c env env' e e') :
    ExprRefines c env env' (.paren e) (.paren e') where
  classTarget := rfl
  eval hint := by
    rw [Semantics.eval, Semantics.eval]
    exact h.eval hint
  typeOf hint w hw := by
    rw [Semantics.eval] at hw
    rw [Semantics.typeOf, Semantics.typeOf]
    exact h.typeOf hint w hw
  effect := by
    rw [Semantics.effect, Semantics.effect]
    exact h.effect

theorem not {e e' : Expr} (h : ExprRefines c env env' e e') :
    ExprRefines c env env' (.not e) (.not e') := by
  refine of_eval rfl (fun hint => ?_) (fun hint w _ => ?_) (fun _ => rfl) (fun _ => rfl)
  · rw [Semantics.eval, Semantics.eval]
    exact (h.eval _).bind fun v => .refl _
  · rw [Semantics.typeOf, Semantics.typeOf]

theorem newArray {element : Ty} {e e' : Expr} (h : ExprRefines c env env' e e') :
    ExprRefines c env env' (.newArray element e) (.newArray element e') := by
  refine of_eval rfl (fun hint => ?_) (fun hint w _ => ?_) (fun _ => rfl) (fun _ => rfl)
  · rw [Semantics.eval, Semantics.eval]
    exact (h.eval _).bind fun v => .refl _
  · rw [Semantics.typeOf, Semantics.typeOf]

theorem binary {op : BinOp} {left left' right right' : Expr}
    (hl : ExprRefines c env env' left left') (hr : ExprRefines c env env' right right') :
    ExprRefines c env env' (.binary op left right) (.binary op left' right') := by
  cases hop : decider? op with
  | none =>
    refine of_eval rfl (fun hint => ?_) (fun hint _ _ => typeOf_strict hop c hint _ _ _ _)
      (fun _ => rfl) (fun _ => rfl)
    rw [eval_strict hop, eval_strict hop]
    exact (hl.eval _).bind fun x => (hr.eval _).bind fun y => .refl _
  | some decider =>
    have heval : ∀ hint, Action.Refines (Semantics.eval c env hint (.binary op left right))
        (Semantics.eval c env' hint (.binary op left' right')) := by
      intro hint
      rw [eval_logical hop, eval_logical hop]
      refine shortCircuit_refines (hl.eval _) fun w hw => ?_
      obtain ⟨hty, hright⟩ := check_of_ne_stuck hw
      rw [hr.typeOf _ w hright]
      rw [hty] at hw ⊢
      exact hr.eval _ w hright
    refine of_eval rfl heval (fun hint w hw => ?_) (fun _ => rfl) (fun _ => rfl)
    rw [typeOf_logical_eq hop hw]
    have hw' : Semantics.eval c env' hint (.binary op left' right') w ≠ .stuck := by
      rwa [heval hint w hw]
    exact typeOf_logical_eq hop hw'

theorem length {array array' : Expr} (h : ExprRefines c env env' array array') :
    ExprRefines c env env' (.length array) (.length array') := by
  refine of_eval rfl (fun hint w hw => ?_) (fun hint w _ => ?_) (fun _ => rfl) (fun _ => rfl)
  · rw [Semantics.eval] at hw ⊢
    rw [Semantics.eval]
    cases helem : (Semantics.typeOf c none array).bind (·.element?) with
    | none =>
      rw [helem] at hw
      exact absurd rfl hw
    | some element =>
      rw [helem] at hw
      rw [h.typeOf none w (Action.bind_ne_stuck hw), helem]
      exact (h.eval _).bind (fun a => .refl _) w hw
  · rw [Semantics.typeOf, Semantics.typeOf]

theorem index {array array' place place' : Expr} (ha : ExprRefines c env env' array array')
    (hi : ExprRefines c env env' place place') :
    ExprRefines c env env' (.index array place) (.index array' place') := by
  have hty : ∀ hint w, Semantics.eval c env hint (.index array place) w ≠ .stuck →
      Semantics.typeOf c none array' = Semantics.typeOf c none array := by
    intro hint w hw
    rw [Semantics.eval] at hw
    cases helem : (Semantics.typeOf c none array).bind (·.element?) with
    | none =>
      rw [helem] at hw
      exact absurd rfl hw
    | some element =>
      rw [helem] at hw
      exact ha.typeOf none w (Action.bind_ne_stuck hw)
  refine of_eval rfl (fun hint w hw => ?_) (fun hint w hw => ?_) (fun _ => rfl) (fun _ => rfl)
  · have hty := hty hint w hw
    rw [Semantics.eval] at hw ⊢
    rw [Semantics.eval, hty]
    cases helem : (Semantics.typeOf c none array).bind (·.element?) with
    | none => rfl
    | some element =>
      rw [helem] at hw
      exact (ha.eval _).bind (fun a => (hi.eval _).bind fun i => .refl _) w hw
  · rw [Semantics.typeOf, Semantics.typeOf, hty hint w hw]

theorem newObject (name : String) : ExprRefines c env env' (.newObject name) (.newObject name) := by
  refine refl_of_closed (fun hint => ?_) fun _ => rfl
  rw [Semantics.eval, Semantics.eval]

end ExprRefines

/-! ## Items and arguments -/

variable {c : Context} {env env' : Locals}

/-- Expressions that may stand for others, one by one. -/
abbrev ExprsRefine (c : Context) (env env' : Locals) (es es' : List Expr) : Prop :=
  List.Forall₂ (ExprRefines c env env') es es'

theorem evalItems_refines {es es' : List Expr} (h : ExprsRefine c env env' es es')
    (hint : Option Ty) (element : Ty) (array : Value) : ∀ index,
      (evalItems c env hint element array index es).Refines
        (evalItems c env' hint element array index es') := by
  induction h with
  | nil =>
    intro index
    rw [evalItems, evalItems]
    exact .refl _
  | cons he _ ih =>
    intro index
    rw [evalItems, evalItems]
    exact (he.eval _).bind fun v => (Action.Refines.refl _).bind fun item =>
      (Action.Refines.refl _).bind fun _ => ih (index + 1)

theorem evalArgs_refines {es es' : List Expr} (h : ExprsRefine c env env' es es') :
    ∀ parameters, (evalArgs c env parameters es).Refines (evalArgs c env' parameters es') := by
  induction h with
  | nil =>
    intro parameters
    rw [evalArgs, evalArgs]
    exact .refl _
  | @cons e e' rest rest' he hrest ih =>
    intro parameters
    cases hpack : parameters.packing? with
    | none =>
      rw [evalArgs_single hpack, evalArgs_single hpack]
      exact (he.eval _).bind fun v => (ih _).bind fun values => .refl _
    | some array =>
      intro w hw
      have hempty : rest'.isEmpty = rest.isEmpty := by cases hrest <;> rfl
      have hitems := evalItems_refines (List.Forall₂.cons he hrest) (some (packedTy array))
        (packedTy array)
      rw [evalArgs_packed hpack] at hw ⊢
      rw [evalArgs_packed hpack, hempty, ← hrest.length_eq]
      -- Whether the argument is passed as it is matters only for a single one, which is evaluated
      -- in both cases, so that its type is kept.
      have hpass : (rest.isEmpty ∧ typeOf c (some (packedTy array)) e' = some array) ↔
          (rest.isEmpty ∧ typeOf c (some (packedTy array)) e = some array) := by
        refine and_congr_right fun hsingle => ?_
        by_cases hpass : rest.isEmpty ∧ typeOf c (some (packedTy array)) e = some array
        · rw [if_pos hpass] at hw
          rw [he.typeOf _ w (Action.bind_ne_stuck hw)]
        · rw [if_neg hpass] at hw
          have hfirst := Action.bind_ne_stuck (Action.next_ne_stuck hw rfl)
          rw [evalItems] at hfirst
          rw [he.typeOf _ _ (Action.bind_ne_stuck hfirst)]
      rw [if_congr hpass rfl rfl]
      by_cases hpass : rest.isEmpty ∧ typeOf c (some (packedTy array)) e = some array
      · rw [if_pos hpass] at hw ⊢
        rw [if_pos hpass]
        exact (he.eval _).bind (fun v => .refl _) w hw
      · rw [if_neg hpass] at hw ⊢
        rw [if_neg hpass]
        exact (Action.Refines.refl _).bind
          (fun packed => (hitems packed 0).bind fun _ => .refl _) w hw

namespace ExprRefines

theorem arrayLiteral {es es' : List Expr} (h : ExprsRefine c env env' es es') :
    ExprRefines c env env' (.arrayLiteral es) (.arrayLiteral es') := by
  have hitem : ∀ hint w, Semantics.eval c env hint (.arrayLiteral es) w ≠ .stuck →
      itemTy c (hint.bind (·.element?)) es' = itemTy c (hint.bind (·.element?)) es := by
    intro hint w hw
    cases h with
    | nil => rfl
    | cons he _ =>
      rw [Semantics.eval] at hw
      have hfirst := Action.bind_ne_stuck (Action.next_ne_stuck hw rfl)
      rw [evalItems] at hfirst
      rw [itemTy, itemTy, he.typeOf _ _ (Action.bind_ne_stuck hfirst)]
  refine of_eval rfl (fun hint w hw => ?_) (fun hint w hw => ?_) (fun _ => rfl) (fun _ => rfl)
  · have hty := hitem hint w hw
    rw [Semantics.eval] at hw ⊢
    rw [Semantics.eval, hty, ← h.length_eq]
    exact (Action.Refines.refl _).bind
      (fun array => (evalItems_refines h _ _ array 0).bind fun _ => .refl _) w hw
  · rw [Semantics.typeOf, Semantics.typeOf, hitem hint w hw]

end ExprRefines

/-! ## Calls -/

theorem signature?_congr {target target' : Expr} {ty ty' : Option Ty}
    (htarget : c.classTarget? target' = c.classTarget? target)
    (hty : c.classTarget? target = none → ty' = ty) (method : String) :
    c.signature? target' ty' method = c.signature? target ty method := by
  rw [Context.signature?, Context.signature?, htarget]
  cases h : c.classTarget? target with
  | none => rw [hty h]
  | some name => rfl

theorem call_signature {target target' : Expr} (h : ExprRefines c env env' target target')
    {method : String} {signature : Option Signature} {args : Parameters → Action (List Value)}
    {w : World}
    (hw : c.call target method signature (eval c env none target) args w ≠ .stuck) :
    c.signature? target' (typeOf c none target') method =
      c.signature? target (typeOf c none target) method := by
  refine signature?_congr h.classTarget (fun hclass => ?_) method
  rw [Context.call, hclass] at hw
  exact h.typeOf none w (Action.bind_ne_stuck (Action.bind_ne_stuck hw))

theorem call_refines {target target' : Expr} (h : ExprRefines c env env' target target')
    {es es' : List Expr} (hes : ExprsRefine c env env' es es') (method : String)
    (signature : Option Signature) :
    (c.call target method signature (eval c env none target)
        fun parameters => evalArgs c env parameters es).Refines
      (c.call target' method signature (eval c env' none target')
        fun parameters => evalArgs c env' parameters es') := by
  rw [Context.call, Context.call, h.classTarget]
  have hrest : ∀ on, Action.Refines
      (evalArgs c env (.ofSignature? signature) es >>= fun vs => c.platform.invoke on method vs)
      (evalArgs c env' (.ofSignature? signature) es' >>= fun vs => c.platform.invoke on method vs) :=
    fun on => (evalArgs_refines hes _).bind fun vs => .refl _
  cases c.classTarget? target with
  | some name => exact hrest _
  | none => exact ((h.eval none).bind fun v => .refl _).bind hrest

theorem ExprRefines.call {target target' : Expr} (h : ExprRefines c env env' target target')
    {es es' : List Expr} (hes : ExprsRefine c env env' es es') (method : String) :
    ExprRefines c env env' (.call target method es) (.call target' method es') := by
  have hsignature : ∀ hint w, Semantics.eval c env hint (.call target method es) w ≠ .stuck →
      c.signature? target' (Semantics.typeOf c none target') method =
        c.signature? target (Semantics.typeOf c none target) method := by
    intro hint w hw
    rw [Semantics.eval] at hw
    cases hty : callTy? (c.signature? target (Semantics.typeOf c none target) method) hint with
    | none =>
      rw [hty] at hw
      exact absurd rfl hw
    | some ty =>
      rw [hty] at hw
      exact call_signature h (Action.bind_ne_stuck hw)
  refine ⟨rfl, fun hint w hw => ?_, fun hint w hw => ?_, fun w hw => ?_⟩
  · have hs := hsignature hint w hw
    rw [Semantics.eval] at hw ⊢
    rw [Semantics.eval, hs]
    cases hty : callTy? (c.signature? target (Semantics.typeOf c none target) method) hint with
    | none => rfl
    | some ty =>
      rw [hty] at hw
      exact (call_refines h hes method _).bind (fun v => .refl _) w hw
  · rw [Semantics.typeOf, Semantics.typeOf, hsignature hint w hw]
  · rw [Semantics.effect] at hw ⊢
    rw [Semantics.effect, call_signature h (Action.bind_ne_stuck hw)]
    exact (call_refines h hes method _).bind (fun v => .refl _) w hw

/-! ## Simple statements -/

variable {R : Locals → Locals → Prop}

theorem holdsIn_refines {e e' : Expr} (h : ExprRefines c env env' e e') :
    (c.holdsIn env e).Refines (c.holdsIn env' e') :=
  (h.eval _).bind fun _ => .refl _

theorem value_of_literal {e : Expr} {l : Literal} (h : ExprRefines c env env' e (.literal l))
    {hint : Option Ty} {v : Value} {w w' : World} (hv : eval c env hint e w = .ok v w') :
    v = c.platform.literal l := by
  have heval := h.eval hint w (by rw [hv]; nofun)
  rw [hv, eval] at heval
  cases heval
  rfl

theorem assign_simulates {target : String} {e e' : Expr} (h : ExprRefines c env env' e e')
    (hvar : ∀ ty v, c.meaning target = .var ty →
      (∀ l, e' = .literal l → v = c.platform.literal l) →
      R (env.set target v) (env'.set target v))
    (hfield : ∀ ty, c.meaning target = .field ty → R env env') :
    Simulates R (c.assign env target e) (c.assign env' target e') := by
  rw [Context.assign, Context.assign]
  cases hmeaning : c.meaning target with
  | var ty =>
    refine .bind_of (h.eval _) fun v ⟨w, w', hv⟩ => ?_
    refine .bind_of (.refl _) fun v' ⟨u, u', hv'⟩ => .next (hvar ty v' hmeaning fun l hl => ?_)
    subst hl
    rw [(c.platform.expect_eq_ok hv').1, value_of_literal h hv]
  | field ty =>
    exact .bind (h.eval _) fun v => .bind (.refl _) fun v => .bind (.refl _) fun object =>
      .bind (.refl _) fun _ => .next (hfield ty hmeaning)
  | className => exact .stuck _
  | unknown => exact .stuck _

theorem assign_literal_simulates {target : String} {e : Expr} {l : Literal} {ty : Ty}
    {env'' : Locals} (h : ExprRefines c env env' e (.literal l))
    (hmeaning : c.meaning target = .var ty)
    (hR : R (env.set target (c.platform.literal l)) env'') :
    Simulates R (c.assign env target e) (pure (.next env'')) := by
  have heval : (eval c env (some ty) e).Refines (pure (c.platform.literal l)) := by
    have := h.eval (some ty)
    rwa [eval] at this
  rw [Context.assign, hmeaning]
  show Simulates R _ (pure (c.platform.literal l) >>= fun _ => pure (.next env''))
  refine .bind_of heval fun v ⟨w, w', hv⟩ => ?_
  rw [value_of_literal h hv, Platform.expect]
  split
  · exact .next hR
  · exact .stuck _

theorem arrayAssign_simulates {target : String} {index index' value value' : Expr}
    (htarget : ∀ element, c.nameTy? target = some (.array element) →
      (c.read env target).Refines (c.read env' target))
    (hi : ExprRefines c env env' index index') (hv : ExprRefines c env env' value value')
    (hR : R env env') :
    Simulates R (c.arrayAssign env target index value)
      (c.arrayAssign env' target index' value') := by
  rw [Context.arrayAssign, Context.arrayAssign]
  cases hty : c.nameTy? target with
  | none => exact .stuck _
  | some ty =>
    cases ty with
    | array element =>
      exact .bind (htarget element hty) fun a => .bind (hi.eval _) fun i =>
        .bind (hv.eval _) fun v => .bind (.refl _) fun v => .bind (.refl _) fun _ => .next hR
    | int | boolean | string | void | object => exact .stuck _

theorem giveBack_simulates (v : Value) : Simulates R (c.giveBack v) (c.giveBack v) := by
  rw [Context.giveBack]
  by_cases hvoid : c.method.returnTy.isVoid
  · rw [if_pos hvoid]
    exact .returned none
  · rw [if_neg hvoid]
    exact .bind (.refl _) fun v => .returned (some v)

/-- Methods do the same when their statements do: the variables are dropped at the end. -/
theorem run_refines {body body' : List Stmt} {args : List Value} {fuel : Nat}
    (h : Simulates R (execAll c fuel body (c.start args)) (execAll c fuel body' (c.start args))) :
    (c.run body args fuel).Refines (c.run body' args fuel) :=
  h.bind_refines (fun _ _ _ => .refl _) fun _ => .refl _

end MiniJava.Semantics
