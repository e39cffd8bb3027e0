import MiniJava.Proofs.Emission.Acceptance
import MiniJava.Proofs.Optimizer.Rules

/-!
# Optimized trees have code

When there is code for a method there is code for what the optimizer makes of it, as long as numbers
and truth values are assigned only to what is of such a type. The types of expressions may change on
the way: once the left operand of a logical operator is a constant, the operator is of the type of
its right operand.
-/

namespace MiniJava.Semantics

open Constants

variable {c : Context} {hint : Option Ty} {e e' : Expr}

/-! ## Types -/

/-- The types of literals. -/
def IsWord (ty : Option Ty) : Prop := ty = some .int ∨ ty = some .boolean

/-- What the type of an expression may become when literals stand for parts of it. -/
inductive Becomes : Ty → Ty → Prop
  | same {ty : Ty} : Becomes ty ty
  | word {ty ty' : Ty} (h : IsWord (some ty)) (h' : Storable ty') : Becomes ty ty'
  | array {ty ty' : Ty} (h : Becomes ty ty') : Becomes (.array ty) (.array ty')

theorem Becomes.hasMethods {ty ty' : Ty} (h : Becomes ty ty') (hty : HasMethods ty) : ty' = ty := by
  cases h with
  | same => rfl
  | word hword => rcases hword with h | h <;> cases h <;> cases hty
  | array => cases hty

/-- Whatever a type becomes, it stays one of these. -/
def Stays (Φ : Ty → Prop) : Prop := ∀ ⦃ty ty'⦄, Becomes ty ty' → Φ ty → Φ ty'

theorem stays_any : Stays AnyTy := fun _ _ _ _ => trivial

theorem stays_storable : Stays Storable := by
  intro ty ty' h hty
  cases h with
  | same => exact hty
  | word _ h' => exact h'
  | array => rfl

theorem stays_hasMethods : Stays HasMethods := by
  intro ty ty' h hty
  rwa [h.hasMethods hty]

theorem stays_arrayOf {Φ : Ty → Prop} (hΦ : Stays Φ) : Stays (ArrayOf Φ) := by
  rintro ty ty' h ⟨element, rfl, helement⟩
  cases h with
  | same => exact ⟨element, rfl, helement⟩
  | word hword => rcases hword with h | h <;> cases h
  | array h => exact ⟨_, rfl, hΦ h helement⟩

theorem Becomes.of_word {ty ty' : Option Ty} (h : Option.Rel Becomes ty ty') (hword : IsWord ty') :
    IsWord ty := by
  cases h with
  | none => exact hword
  | some h =>
    cases h with
    | same => exact hword
    | word h => exact h
    | array => rcases hword with h | h <;> cases h

theorem Becomes.rel_refl (ty : Option Ty) : Option.Rel Becomes ty ty := by
  cases ty with
  | none => exact .none
  | some ty => exact .some .same

theorem HasType.becomes {Φ : Ty → Prop} (h : HasType c Φ hint e) (hΦ : Stays Φ)
    (hty : Option.Rel Becomes (typeOf c hint e) (typeOf c hint e')) : HasType c Φ hint e' := by
  obtain ⟨ty, he, hΦty⟩ := h
  rw [he] at hty
  generalize htype : typeOf c hint e' = ty' at hty
  cases hty with
  | some hty => exact ⟨_, htype, hΦ hty hΦty⟩

/-! ## Literals -/

/-- A literal stands for an expression of the type of a literal. What is a constant stays that
constant. -/
structure StandsFor (c : Context) (e : Expr) (value : Literal) : Prop where
  ty : ∀ hint, IsWord (typeOf c hint e)
  constant : ∀ b, constant? e = some b → value = .bool b

theorem literal_isWord (value : Literal) : IsWord (some value.ty) := by
  cases value with
  | int => exact .inl rfl
  | bool => exact .inr rfl

theorem literal_storable (value : Literal) : Storable value.ty := by cases value <;> rfl

theorem standsFor_binary {op : BinOp} {l r : Expr} {y value : Literal} (hr : StandsFor c r y) :
    StandsFor c (.binary op l r) value := by
  refine ⟨fun hint => ?_, nofun⟩
  cases op with
  | add | sub | mul | div => exact .inl rfl
  | lt => exact .inr rfl
  | and | or =>
    rw [typeOf]
    split
    · exact hr.ty _
    · exact .inr rfl

theorem standsFor_foldsTo (c : Context) : FoldsTo (StandsFor c) where
  literal value := ⟨fun _ => literal_isWord value, fun b h => by
    cases value with
    | int => cases h
    | bool => cases h; rfl⟩
  paren h := ⟨h.ty, h.constant⟩
  not h := ⟨fun _ => .inr rfl, nofun⟩
  binary _ hr _ := standsFor_binary hr

theorem constant_stays (h : Simplifies (StandsFor c) e e') {b : Bool} (hb : constant? e = some b) :
    constant? e' = some b := by
  induction e using Expr.stripParens.induct generalizing e' with
  | case1 inner ih =>
    cases h with
    | literal h =>
      rw [h.constant b hb]
      rfl
    | paren h =>
      have hinner := ih h hb
      exact hinner
  | case2 e hparen =>
    cases h with
    | literal h =>
      rw [h.constant b hb]
      rfl
    | paren => exact absurd rfl (hparen _)
    | _ => cases hb

theorem classTarget_stays (h : Simplifies (StandsFor c) e e') :
    c.classTarget? e' = c.classTarget? e := by
  refine classTarget_simplifies (fun name value h hnone => ?_) h
  have hword : IsWord (c.nameTy? name) := h.ty none
  rw [hnone] at hword
  rcases hword with h | h <;> cases h

/-! ## Expressions -/

/-- When there is code for an expression there is code for what it becomes, and the type of that is
one that its type may become. -/
def StaysCompiled (c : Context) (hint : Option Ty) (e e' : Expr) : Prop :=
  Expr.Compiles c hint e →
    Expr.Compiles c hint e' ∧ Option.Rel Becomes (typeOf c hint e) (typeOf c hint e')

theorem StaysCompiled.value (h : StaysCompiled c hint e e') {Φ : Ty → Prop} (hΦ : Stays Φ)
    (he : Expr.CompilesTo c Φ hint e) : Expr.CompilesTo c Φ hint e' :=
  ⟨(h he.1).1, he.2.becomes hΦ (h he.1).2⟩

theorem staysCompiled_literal {value : Literal} (h : StandsFor c e value) :
    StaysCompiled c hint e (.literal value) := by
  intro _
  refine ⟨trivial, ?_⟩
  obtain ⟨ty, hty⟩ : ∃ ty, typeOf c hint e = some ty := by
    rcases h.ty hint with h | h <;> exact ⟨_, h⟩
  rw [hty, typeOf]
  exact .some (.word (hty ▸ h.ty hint) (literal_storable value))

theorem staysCompiled_strict {op : BinOp} {l l' r r' : Expr} (hop : decider? op = none)
    (hl : StaysCompiled c (some .int) l l') (hr : StaysCompiled c (some .int) r r') :
    StaysCompiled c hint (.binary op l r) (.binary op l' r') := by
  intro h
  rw [Expr.Compiles, hop] at h
  rw [Expr.Compiles, hop, typeOf_strict hop c hint l r l' r']
  exact ⟨⟨hl.value stays_any h.1, hr.value stays_any h.2⟩, Becomes.rel_refl _⟩

/-- A left operand that becomes a constant leaves the right operand out, or leaves it alone. -/
theorem staysCompiled_logical {op : BinOp} {decider : Bool} {l l' r r' : Expr}
    (hop : decider? op = some decider) (hconstant : ∀ b, constant? l = some b → constant? l' = some b)
    (hl : StaysCompiled c (some .boolean) l l') (hr : StaysCompiled c (some .boolean) r r') :
    StaysCompiled c hint (.binary op l r) (.binary op l' r') := by
  intro h
  rw [Expr.Compiles, hop] at h
  rw [Expr.Compiles, hop, typeOf_logical hop, typeOf_logical hop]
  cases hleft : constant? l with
  | some value =>
    rw [hleft] at h
    rw [hconstant value hleft]
    refine ⟨h.imp_right fun h => (hr h).1, ?_⟩
    split
    · rename_i hvalue
      cases hvalue
      exact (hr (h.resolve_left (by cases decider <;> decide))).2
    · exact .some .same
  | none =>
    rw [hleft] at h
    obtain ⟨hleftValue, hrightValue⟩ := h
    have hright' := hr.value stays_storable hrightValue
    refine ⟨?_, ?_⟩
    · cases constant? l' with
      | some value => exact .inr hright'.1
      | none => exact ⟨hl.value stays_any hleftValue, hright'⟩
    · rw [if_neg nofun]
      split
      · obtain ⟨ty, hty, hstorable⟩ := hright'.2
        rw [hty]
        exact .some (.word (.inr rfl) hstorable)
      · exact .some .same

theorem staysCompiled_call {target target' : Expr} {method : String} {args args' : List Expr}
    (hclass : c.classTarget? target' = c.classTarget? target)
    (htarget : StaysCompiled c none target target') (hlength : args'.length = args.length)
    (hargs : ∀ parameters, Expr.ArgsCompile c parameters args → Expr.ArgsCompile c parameters args') :
    StaysCompiled c hint (.call target method args) (.call target' method args') := by
  intro h
  rw [Expr.Compiles] at h
  obtain ⟨hobject, harguments, hcount⟩ := h
  have hsignature : c.signature? target' (typeOf c none target') method =
      c.signature? target (typeOf c none target) method := by
    rw [Context.signature?, Context.signature?, hclass]
    cases hname : c.classTarget? target with
    | some name => rfl
    | none =>
      obtain ⟨hcompiles, ty, hty, hmethods⟩ := hobject hname
      have hbecomes := (htarget hcompiles).2
      rw [hty] at hbecomes ⊢
      generalize typeOf c none target' = ty' at hbecomes ⊢
      cases hbecomes with
      | some hbecomes => rw [hbecomes.hasMethods hmethods]
  rw [Expr.Compiles, typeOf, typeOf, hsignature, hclass, hlength]
  exact ⟨⟨fun hname => htarget.value stays_hasMethods (hobject hname), hargs _ harguments, hcount⟩,
    Becomes.rel_refl _⟩

mutual

/-- There is code for whatever an expression becomes. -/
theorem staysCompiled : ∀ (e : Expr) {e' : Expr}, Simplifies (StandsFor c) e e' →
    ∀ hint, StaysCompiled c hint e e'
  | .literal _, _, h, hint | .self, _, h, hint | .var _, _, h, hint | .newObject _, _, h, hint => by
    cases h with
    | literal h => exact staysCompiled_literal h
    | _ => exact fun h => ⟨h, Becomes.rel_refl _⟩
  | .paren inner, _, h, hint => by
    cases h with
    | literal h => exact staysCompiled_literal h
    | paren h =>
      intro hcompiles
      rw [Expr.Compiles] at hcompiles ⊢
      rw [typeOf, typeOf]
      exact staysCompiled inner h hint hcompiles
  | .binary op left right, _, h, hint => by
    cases h with
    | literal h => exact staysCompiled_literal h
    | binary hl hr =>
      cases hop : decider? op with
      | none =>
        exact staysCompiled_strict hop (staysCompiled left hl _) (staysCompiled right hr _)
      | some decider =>
        exact staysCompiled_logical hop (fun _ => constant_stays hl) (staysCompiled left hl _)
          (staysCompiled right hr _)
  | .not operand, _, h, hint => by
    cases h with
    | literal h => exact staysCompiled_literal h
    | not h =>
      intro hcompiles
      rw [Expr.Compiles] at hcompiles ⊢
      exact ⟨(staysCompiled operand h _).value stays_any hcompiles, .some .same⟩
  | .newArray element size, _, h, hint => by
    cases h with
    | literal h => exact staysCompiled_literal h
    | newArray h =>
      intro hcompiles
      rw [Expr.Compiles] at hcompiles ⊢
      exact ⟨(staysCompiled size h _).value stays_any hcompiles, .some .same⟩
  | .arrayLiteral elements, _, h, hint => by
    cases h with
    | literal h => exact staysCompiled_literal h
    | arrayLiteral h =>
      intro hcompiles
      rw [Expr.Compiles] at hcompiles ⊢
      obtain ⟨hitems, hty⟩ := itemsStay elements h _ hcompiles.2
      rw [h.length]
      exact ⟨⟨hcompiles.1, hitems⟩, .some (.array hty)⟩
  | .index array place, _, h, hint => by
    cases h with
    | literal h => exact staysCompiled_literal h
    | index ha hi =>
      intro hcompiles
      rw [Expr.Compiles] at hcompiles ⊢
      have harray := staysCompiled array ha none
      refine ⟨⟨harray.value (stays_arrayOf stays_storable) hcompiles.1,
        (staysCompiled place hi _).value stays_any hcompiles.2⟩, ?_⟩
      obtain ⟨hcode, _, hty, element, rfl, _⟩ := hcompiles.1
      have hbecomes := (harray hcode).2
      rw [typeOf, typeOf]
      rw [hty] at hbecomes ⊢
      generalize typeOf c none _ = ty' at hbecomes ⊢
      cases hbecomes with
      | some hbecomes =>
        cases hbecomes with
        | same => exact .some .same
        | word hword => rcases hword with h | h <;> cases h
        | array h => exact .some h
  | .length array, _, h, hint => by
    cases h with
    | literal h => exact staysCompiled_literal h
    | length h =>
      intro hcompiles
      rw [Expr.Compiles] at hcompiles ⊢
      exact ⟨(staysCompiled array h _).value (stays_arrayOf stays_any) hcompiles, .some .same⟩
  | .call target method args, _, h, hint => by
    cases h with
    | literal h => exact staysCompiled_literal h
    | call ht hargs =>
      exact staysCompiled_call (classTarget_stays ht) (staysCompiled target ht none) hargs.length
        (argsStay args hargs)

theorem itemsStay : ∀ (es : List Expr) {es' : List Expr}, SimplifiesAll (StandsFor c) es es' →
    ∀ hint, Expr.ItemsCompile c hint es →
      Expr.ItemsCompile c hint es' ∧ Becomes (itemTy c hint es) (itemTy c hint es')
  | [], _, .nil, _, h => ⟨h, .same⟩
  | e :: rest, _, .cons he hrest, hint, h => by
    rw [Expr.ItemsCompile] at h ⊢
    have hfirst := staysCompiled e he hint
    refine ⟨⟨hfirst.value stays_any h.1, (itemsStay rest hrest hint h.2).1⟩, ?_⟩
    obtain ⟨hcode, ty, hty, _⟩ := h.1
    have hbecomes := (hfirst hcode).2
    rw [itemTy, itemTy]
    rw [hty] at hbecomes ⊢
    generalize typeOf c hint _ = ty' at hbecomes ⊢
    cases hbecomes with
    | some hbecomes => exact hbecomes

theorem argsStay : ∀ (es : List Expr) {es' : List Expr}, SimplifiesAll (StandsFor c) es es' →
    ∀ parameters, Expr.ArgsCompile c parameters es → Expr.ArgsCompile c parameters es'
  | [], _, .nil, _, h => h
  | e :: rest, _, .cons he hrest, parameters, h => by
    rw [Expr.ArgsCompile] at h ⊢
    exact ⟨(staysCompiled e he _).value stays_any h.1, argsStay rest hrest _ h.2⟩

end

/-! ## Statements -/

/-- What is assigned a number or a truth value is of such a type itself. -/
def StoresWord (c : Context) : Stmt → Prop
  | .assign target value => IsWord (typeOf c (c.nameTy? target) value) → IsWord (c.nameTy? target)
  | .arrayAssign .. | .ite .. | .loop .. | .block _ | .ret _ | .expr _ => True

theorem assign_stays {target : String} {value value' : Expr}
    (hvalue : ∀ hint, StaysCompiled c hint value value')
    (h : Stmt.Compiles c (.assign target value)) : Stmt.Compiles c (.assign target value') := by
  rw [Stmt.Compiles] at h ⊢
  cases hmeaning : c.meaning target with
  | var ty =>
    rw [hmeaning] at h
    exact (hvalue _).value stays_storable h
  | field ty =>
    rw [hmeaning] at h
    exact ⟨(hvalue _).value stays_any h.1, h.2⟩
  | className | unknown =>
    rw [hmeaning] at h
    exact h

theorem assigned_compiles {target : String} {value : Expr}
    (h : Stmt.Compiles c (.assign target value)) : Expr.Compiles c (c.nameTy? target) value := by
  rw [Stmt.Compiles] at h
  rw [Context.nameTy?]
  cases hmeaning : c.meaning target with
  | var ty =>
    rw [hmeaning] at h
    exact h.1
  | field ty =>
    rw [hmeaning] at h
    exact h.1.1
  | className | unknown =>
    rw [hmeaning] at h
    exact h.elim

/-- There is code for a statement, and it assigns numbers and truth values only to what is of such a
type. -/
structure Optimizable (c : Context) (s : Stmt) : Prop where
  compiles : Stmt.Compiles c s
  stores : Stmt.Keeps c (fun _ _ => True) (StoresWord c) s

/-- All statements of a body are like this. -/
structure AllOptimizable (c : Context) (body : List Stmt) : Prop where
  compile : Stmt.AllCompile c body
  store : Stmt.AllKeep c (fun _ _ => True) (StoresWord c) body

theorem allOptimizable_cons {s : Stmt} {rest : List Stmt} :
    AllOptimizable c (s :: rest) ↔ Optimizable c s ∧ AllOptimizable c rest := by
  constructor
  · rintro ⟨hcompile, hstore⟩
    rw [Stmt.AllCompile] at hcompile
    rw [Stmt.AllKeep] at hstore
    exact ⟨⟨hcompile.1, hstore.1⟩, hcompile.2, hstore.2⟩
  · rintro ⟨⟨hcompiles, hstores⟩, hcompile, hstore⟩
    exact ⟨⟨hcompiles, hcompile⟩, hstores, hstore⟩

mutual

theorem storesHold_word : ∀ (s : Stmt), Stmt.Keeps c (fun _ _ => True) (StoresWord c) s →
    StoresHold (StandsFor c) s
  | .assign target value, h => by
    rw [Stmt.Keeps] at h
    exact fun l hl => ⟨fun _ => h.1 (hl.ty _), nofun⟩
  | .ite _ thenBranch elseBranch, h => by
    rw [Stmt.Keeps] at h
    exact ⟨storesHold_word thenBranch h.2.2.1, storesHold_word elseBranch h.2.2.2⟩
  | .loop _ body, h => by
    rw [Stmt.Keeps] at h
    exact storesHold_word body h.2.2
  | .block body, h => by
    rw [Stmt.Keeps] at h
    exact allStoresHold_word body h.2
  | .arrayAssign .., _ | .ret _, _ | .expr _, _ => trivial

theorem allStoresHold_word : ∀ (body : List Stmt),
    Stmt.AllKeep c (fun _ _ => True) (StoresWord c) body → AllStoresHold (StandsFor c) body
  | [], _ => trivial
  | s :: rest, h => by
    rw [Stmt.AllKeep] at h
    exact ⟨storesHold_word s h.1, allStoresHold_word rest h.2⟩

end

mutual

theorem Optimizable.stays : ∀ {s s' : Stmt}, Optimizable c s → Reduces (StandsFor c) s s' →
    Optimizable c s'
  | _, _, _, .gone => ⟨trivial, trivial, trivial⟩
  | .assign target value, _, ⟨hcompiles, hstores⟩, .assign hs => by
    refine ⟨assign_stays (fun hint => staysCompiled value hs hint) hcompiles, ?_⟩
    have hbecomes := (staysCompiled value hs _ (assigned_compiles hcompiles)).2
    rw [Stmt.Keeps] at hstores ⊢
    exact ⟨fun hword => hstores.1 (Becomes.of_word hbecomes hword), Expr.keeps_nothing c _ _⟩
  | .arrayAssign target index value, _, ⟨hcompiles, _⟩, .arrayAssign hi hv => by
    rw [Stmt.Compiles] at hcompiles
    obtain ⟨htarget, element, hty, hindex, hvalue⟩ := hcompiles
    exact ⟨⟨htarget, element, hty, (staysCompiled index hi _).value stays_any hindex,
      (staysCompiled value hv _).value stays_any hvalue⟩,
      trivial, trivial, Expr.keeps_nothing c _ _, Expr.keeps_nothing c _ _⟩
  | .ite condition thenBranch elseBranch, _, ⟨hcompiles, hstores⟩, .ite hs ha hb => by
    rw [Stmt.Compiles] at hcompiles
    rw [Stmt.Keeps] at hstores
    have hthen : Optimizable c thenBranch := ⟨hcompiles.2.1, hstores.2.2.1⟩
    have helse : Optimizable c elseBranch := ⟨hcompiles.2.2, hstores.2.2.2⟩
    exact ⟨⟨(staysCompiled condition hs _).value stays_any hcompiles.1, (hthen.stays ha).compiles,
      (helse.stays hb).compiles⟩, trivial, Expr.keeps_nothing c _ _, (hthen.stays ha).stores,
      (helse.stays hb).stores⟩
  | .loop condition body, _, ⟨hcompiles, hstores⟩, .loop hs hb => by
    rw [Stmt.Compiles] at hcompiles
    rw [Stmt.Keeps] at hstores
    have hbody : Optimizable c body := ⟨hcompiles.2, hstores.2.2⟩
    exact ⟨⟨(staysCompiled condition hs _).value stays_any hcompiles.1, (hbody.stays hb).compiles⟩,
      trivial, Expr.keeps_nothing c _ _, (hbody.stays hb).stores⟩
  | .block body, _, ⟨hcompiles, hstores⟩, .block hb => by
    rw [Stmt.Compiles] at hcompiles
    rw [Stmt.Keeps] at hstores
    have hbody : AllOptimizable c body := ⟨hcompiles, hstores.2⟩
    exact ⟨(hbody.stay hb).compile, trivial, (hbody.stay hb).store⟩
  | .ret none, _, h, .retNone => h
  | .ret (some value), _, ⟨hcompiles, _⟩, .ret hs => by
    rw [Stmt.Compiles] at hcompiles
    exact ⟨(staysCompiled value hs _).value stays_any hcompiles, trivial, Expr.keeps_nothing c _ _⟩
  | .expr value, _, ⟨hcompiles, _⟩, .expr hs => by
    rw [Stmt.Compiles] at hcompiles
    exact ⟨(staysCompiled value hs _ hcompiles).1, trivial, Expr.keeps_nothing c _ _⟩

theorem AllOptimizable.stay : ∀ {body body' : List Stmt}, AllOptimizable c body →
    ReducesAll (StandsFor c) body body' → AllOptimizable c body'
  | _, _, h, .nil => h
  | _ :: _, _, h, .cons hs hrest =>
    have h := allOptimizable_cons.mp h
    allOptimizable_cons.mpr ⟨h.1.stays hs, h.2.stay hrest⟩
  | _ :: _, _, h, .drop hrest => (allOptimizable_cons.mp h).2.stay hrest

end

/-! ## Methods -/

/-- An optimized body is optimizable again, so there is code for it. -/
theorem AllOptimizable.optimizeMethod {cap : Nat} {m m' : Method}
    (h : AllOptimizable c m.body) (hm : optimizeMethod m cap = .ok m') : AllOptimizable c m'.body :=
  optimizeMethod_keeps (standsFor_foldsTo c) (fun body hinv => allStoresHold_word body hinv.store)
    (fun _ _ hinv hreduces => hinv.stay hreduces) cap hm h

end MiniJava.Semantics
