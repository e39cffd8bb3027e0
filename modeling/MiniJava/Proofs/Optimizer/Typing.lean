import Mathlib.Data.List.Forall2
import MiniJava.Proofs.Optimizer.Meaning
import MiniJava.Proofs.Optimizer.Rules
import MiniJava.Proofs.Semantics.Typing

/-!
# Optimized trees keep their types

Where types are right, a literal stands only for what is of its type. So what the optimizer makes of an
expression has the type of the expression, and the types of an optimized method are right again.
-/

namespace MiniJava.Semantics

open Constants

variable {c : Context} {hint : Option Ty} {e e' : Expr}

/-! ## Literals -/

/-- An expression has the type of a literal, whatever its place wants. -/
def HasLiteralTy (c : Context) (e : Expr) (value : Literal) : Prop :=
  ∀ hint, typeOf c hint e = some value.ty

theorem hasLiteralTy_logical {op : BinOp} {l r : Expr} {b : Bool} (hop : op.isLogical)
    (hr : HasLiteralTy c r (.bool b)) (value : Bool) : HasLiteralTy c (.binary op l r) (.bool value) :=
  fun _ => typeOf_logical_of_fills hop ⟨.boolean, hr _, rfl⟩

theorem hasLiteralTy_foldsTo (c : Context) : FoldsTo (HasLiteralTy c) where
  literal _ _ := by rw [typeOf]
  paren h hint := by
    rw [typeOf]
    exact h hint
  not _ _ := by
    rw [typeOf]
    rfl
  binary {method op l r x y value} _ hr hvalue := by
    cases op with
    | and | or =>
      cases x with
      | int => cases hvalue
      | bool =>
        cases y with
        | int => cases hvalue
        | bool =>
          cases hvalue
          exact hasLiteralTy_logical rfl hr _
    | add | sub | mul | div | lt =>
      -- the type does not depend on the operands
      intro hint
      have hliteral := evalBinary_typeOf (c := c) hvalue hint
      rw [typeOf] at hliteral ⊢
      exact hliteral

theorem classTarget_keeps (h : Simplifies (HasLiteralTy c) e e') :
    c.classTarget? e' = c.classTarget? e := by
  refine classTarget_simplifies (fun name value h hnone => ?_) h
  have hty := h none
  rw [typeOf, hnone] at hty
  cases hty

/-! ## Expressions -/

/-- What an expression becomes has the type of the expression, and its types are right. -/
def StaysTyped (c : Context) (hint : Option Ty) (e e' : Expr) : Prop :=
  Expr.Keeps c (Typed c) hint e' ∧ typeOf c hint e' = typeOf c hint e

theorem staysTyped_literal {value : Literal} (h : HasLiteralTy c e value) :
    StaysTyped c hint e (.literal value) :=
  ⟨⟨trivial, trivial⟩, by rw [typeOf, h hint]⟩

theorem StaysTyped.fills (h : StaysTyped c hint e e') {declared : Ty}
    (hfills : Fills c hint e declared) : Fills c hint e' declared := by
  obtain ⟨ty, hty, hfills⟩ := hfills
  exact ⟨ty, h.2.trans hty, hfills⟩

theorem fills_items {es es' : List Expr} (h : List.Forall₂ (StaysTyped c hint) es es') {declared : Ty}
    (hfills : ∀ e ∈ es, Fills c hint e declared) : ∀ e' ∈ es', Fills c hint e' declared := by
  induction h with
  | nil => exact List.forall_mem_nil _
  | cons he _ ih =>
    rw [List.forall_mem_cons] at hfills
    exact List.forall_mem_cons.mpr ⟨he.fills hfills.1, ih hfills.2⟩

theorem itemsKeep_items {es es' : List Expr} (h : List.Forall₂ (StaysTyped c hint) es es') :
    Expr.ItemsKeep c (Typed c) hint es' := by
  induction h with
  | nil => exact trivial
  | cons he _ ih => exact ⟨he.1, ih⟩

theorem itemTy_items {es es' : List Expr} (h : List.Forall₂ (StaysTyped c hint) es es') :
    itemTy c hint es' = itemTy c hint es := by
  cases h with
  | nil => rfl
  | cons he => rw [itemTy, itemTy, he.2]

theorem packFills_items {array : Ty} {es es' : List Expr}
    (h : List.Forall₂ (StaysTyped c (some (packedTy array))) es es') (hfills : PackFills c array es) :
    PackFills c array es' := by
  rcases hfills with ⟨e, rfl, he⟩ | hall
  · obtain ⟨e', _, he', hnil, rfl⟩ := List.forall₂_cons_left_iff.mp h
    cases hnil
    exact .inl ⟨e', rfl, he'.fills he⟩
  · exact .inr (fills_items h hall)

theorem staysTyped_binary {op : BinOp} {l l' r r' : Expr} (hfills : PartsFill c hint (.binary op l r))
    (hl : StaysTyped c (some op.operandTy) l l') (hr : StaysTyped c (some op.operandTy) r r') :
    StaysTyped c hint (.binary op l r) (.binary op l' r') := by
  have hright := hr.fills hfills.2
  refine ⟨⟨⟨trivial, hl.fills hfills.1, hright⟩, hl.1, hr.1⟩, ?_⟩
  cases op with
  | and | or => rw [typeOf_logical_of_fills rfl hright, typeOf_logical_of_fills rfl hfills.2]
  | add | sub | mul | div | lt => rw [typeOf, typeOf]

theorem staysTyped_call {target target' : Expr} {method : String} {args args' : List Expr}
    (hkeeps : Expr.Keeps c (Typed c) hint (.call target method args))
    (hclass : c.classTarget? target' = c.classTarget? target)
    (htarget : c.classTarget? target = none → Expr.Keeps c (Typed c) none target →
      StaysTyped c none target target')
    (hargs : ∀ parameters, Expr.ArgsKeep c (Typed c) parameters args →
      Expr.ArgsKeep c (Typed c) parameters args' ∧
        (ArgsFill c parameters args → ArgsFill c parameters args')) :
    StaysTyped c hint (.call target method args) (.call target' method args') := by
  rw [Expr.Keeps] at hkeeps
  obtain ⟨⟨⟨hmethod, hplain⟩, hfills⟩, hobject, hkeep⟩ := hkeeps
  have htarget := fun hname => htarget hname (hobject hname)
  have hsignature : c.signature? target' (typeOf c none target') method =
      c.signature? target (typeOf c none target) method := by
    rw [Context.signature?, Context.signature?, hclass]
    cases hname : c.classTarget? target with
    | some name => rfl
    | none => rw [(htarget hname).2]
  obtain ⟨hkeep', hfill⟩ := hargs _ hkeep
  rw [← hsignature] at hkeep'
  refine ⟨⟨⟨⟨hmethod, fun name hname => hplain name (hclass ▸ hname)⟩, fun s hs => ?_⟩,
    fun hnone => (htarget (hclass ▸ hnone)).1, hkeep'⟩, ?_⟩
  · rw [hsignature] at hs
    rw [hs] at hfill
    exact hfill (hfills s hs)
  · rw [typeOf, typeOf, hsignature]

mutual

/-- Whatever an expression becomes, its types stay right. -/
theorem staysTyped : ∀ (e : Expr) {e' : Expr}, Simplifies (HasLiteralTy c) e e' → ∀ hint,
    Expr.Keeps c (Typed c) hint e → StaysTyped c hint e e'
  | .literal _, _, h, hint, hkeeps | .self, _, h, hint, hkeeps | .var _, _, h, hint, hkeeps
  | .newObject _, _, h, hint, hkeeps => by
    cases h with
    | literal h => exact staysTyped_literal h
    | _ => exact ⟨hkeeps, rfl⟩
  | .paren inner, _, h, hint, hkeeps => by
    cases h with
    | literal h => exact staysTyped_literal h
    | paren h =>
      rw [Expr.Keeps] at hkeeps
      have hinner := staysTyped inner h hint hkeeps.2
      refine ⟨⟨⟨trivial, trivial⟩, hinner.1⟩, ?_⟩
      rw [typeOf, typeOf]
      exact hinner.2
  | .binary op left right, _, h, hint, hkeeps => by
    cases h with
    | literal h => exact staysTyped_literal h
    | binary hl hr =>
      rw [Expr.Keeps] at hkeeps
      exact staysTyped_binary hkeeps.1.2 (staysTyped left hl _ hkeeps.2.1)
        (staysTyped right hr _ hkeeps.2.2)
  | .not operand, _, h, hint, hkeeps => by
    cases h with
    | literal h => exact staysTyped_literal h
    | not h =>
      rw [Expr.Keeps] at hkeeps
      have hoperand := staysTyped operand h _ hkeeps.2
      exact ⟨⟨⟨trivial, hoperand.fills hkeeps.1.2⟩, hoperand.1⟩, by rw [typeOf, typeOf]⟩
  | .newArray element size, _, h, hint, hkeeps => by
    cases h with
    | literal h => exact staysTyped_literal h
    | newArray h =>
      rw [Expr.Keeps] at hkeeps
      have hsize := staysTyped size h _ hkeeps.2
      exact ⟨⟨⟨hkeeps.1.1, hsize.fills hkeeps.1.2⟩, hsize.1⟩, by rw [typeOf, typeOf]⟩
  | .arrayLiteral elements, _, h, hint, hkeeps => by
    cases h with
    | literal h => exact staysTyped_literal h
    | arrayLiteral h =>
      rw [Expr.Keeps] at hkeeps
      have hitems := itemsStayTyped elements h _ hkeeps.2
      have hitemTy := itemTy_items hitems
      refine ⟨⟨⟨trivial, ?_⟩, itemsKeep_items hitems⟩, by rw [typeOf, typeOf, hitemTy]⟩
      rw [PartsFill, hitemTy]
      exact fills_items hitems hkeeps.1.2
  | .index array place, _, h, hint, hkeeps => by
    cases h with
    | literal h => exact staysTyped_literal h
    | index ha hi =>
      rw [Expr.Keeps] at hkeeps
      have harray := staysTyped array ha none hkeeps.2.1
      have hplace := staysTyped place hi _ hkeeps.2.2
      refine ⟨⟨⟨trivial, ?_, hplace.fills hkeeps.1.2.2⟩, harray.1, hplace.1⟩, ?_⟩
      · rw [harray.2]
        exact hkeeps.1.2.1
      · rw [typeOf, typeOf, harray.2]
  | .length array, _, h, hint, hkeeps => by
    cases h with
    | literal h => exact staysTyped_literal h
    | length h =>
      rw [Expr.Keeps] at hkeeps
      exact ⟨⟨⟨trivial, trivial⟩, (staysTyped array h none hkeeps.2).1⟩, by rw [typeOf, typeOf]⟩
  | .call target method args, _, h, hint, hkeeps => by
    cases h with
    | literal h => exact staysTyped_literal h
    | call ht hargs =>
      exact staysTyped_call hkeeps (classTarget_keeps ht) (fun _ => staysTyped target ht none)
        (argsStayTyped args hargs)

theorem itemsStayTyped : ∀ (es : List Expr) {es' : List Expr},
    SimplifiesAll (HasLiteralTy c) es es' → ∀ hint, Expr.ItemsKeep c (Typed c) hint es →
      List.Forall₂ (StaysTyped c hint) es es'
  | [], _, .nil, _, _ => .nil
  | e :: rest, _, .cons he hrest, hint, hkeeps => by
    rw [Expr.ItemsKeep] at hkeeps
    exact .cons (staysTyped e he hint hkeeps.1) (itemsStayTyped rest hrest hint hkeeps.2)

theorem argsStayTyped : ∀ (es : List Expr) {es' : List Expr},
    SimplifiesAll (HasLiteralTy c) es es' → ∀ parameters, Expr.ArgsKeep c (Typed c) parameters es →
      Expr.ArgsKeep c (Typed c) parameters es' ∧
        (ArgsFill c parameters es → ArgsFill c parameters es')
  | [], _, .nil, _, hkeeps => ⟨hkeeps, id⟩
  | e :: rest, _, .cons he hrest, ⟨[], some array⟩, hkeeps => by
    have hitems := List.Forall₂.cons (staysTyped e he _ hkeeps.1) (itemsStayTyped rest hrest _ hkeeps.2)
    exact ⟨itemsKeep_items hitems, packFills_items hitems⟩
  | e :: rest, _, .cons he hrest, ⟨[], none⟩, hkeeps => by
    have hmore := argsStayTyped rest hrest _ hkeeps.2
    exact ⟨⟨(staysTyped e he _ hkeeps.1).1, hmore.1⟩, False.elim⟩
  | e :: rest, _, .cons he hrest, ⟨ty :: tys, array⟩, hkeeps => by
    have hfirst := staysTyped e he _ hkeeps.1
    have hmore := argsStayTyped rest hrest _ hkeeps.2
    exact ⟨⟨hfirst.1, hmore.1⟩, And.imp hfirst.fills hmore.2⟩

end

/-! ## Statements -/

theorem StmtFills.stores {target : String} {value : Expr} (h : StmtFills c (.assign target value))
    {l : Literal} (hl : HasLiteralTy c value l) : HasLiteralTy c (.var target) l := by
  intro hint
  obtain ⟨ty, hty, found, hfound, hfills⟩ := h
  cases hfound.symm.trans (hl _)
  rw [typeOf, hty, Ty.eq_of_literal_fills hfills]

mutual

theorem storesHold_typed {p : Rule} : ∀ (s : Stmt), Stmt.Keeps c p (StmtFills c) s →
    StoresHold (HasLiteralTy c) s
  | .assign target value, h => by
    rw [Stmt.Keeps] at h
    exact fun l => h.1.stores
  | .ite _ thenBranch elseBranch, h => by
    rw [Stmt.Keeps] at h
    exact ⟨storesHold_typed thenBranch h.2.2.1, storesHold_typed elseBranch h.2.2.2⟩
  | .loop _ body, h => by
    rw [Stmt.Keeps] at h
    exact storesHold_typed body h.2.2
  | .block body, h => by
    rw [Stmt.Keeps] at h
    exact allStoresHold_typed body h.2
  | .arrayAssign .., _ | .ret _, _ | .expr _, _ => trivial

theorem allStoresHold_typed {p : Rule} : ∀ (body : List Stmt),
    Stmt.AllKeep c p (StmtFills c) body → AllStoresHold (HasLiteralTy c) body
  | [], _ => trivial
  | s :: rest, h => by
    rw [Stmt.AllKeep] at h
    exact ⟨storesHold_typed s h.1, allStoresHold_typed rest h.2⟩

end

mutual

theorem reduces_typed : ∀ (s : Stmt) {s' : Stmt}, Stmt.Keeps c (Typed c) (StmtFills c) s →
    Reduces (HasLiteralTy c) s s' → Stmt.Keeps c (Typed c) (StmtFills c) s'
  | _, _, _, .gone => ⟨trivial, trivial⟩
  | .assign target value, _, h, .assign hs => by
    rw [Stmt.Keeps] at h ⊢
    have hvalue := staysTyped value hs _ h.2
    obtain ⟨⟨ty, hty, hfills⟩, _⟩ := h
    rw [hty] at hvalue ⊢
    exact ⟨⟨ty, hty, hvalue.fills hfills⟩, hvalue.1⟩
  | .arrayAssign target index value, _, h, .arrayAssign hi hv => by
    rw [Stmt.Keeps] at h ⊢
    have hindex := staysTyped index hi _ h.2.2.1
    have hvalue := staysTyped value hv _ h.2.2.2
    refine ⟨⟨hindex.fills h.1.1, fun element hty => ?_⟩, h.2.1, hindex.1, hvalue.1⟩
    rw [hty] at hvalue
    exact StaysTyped.fills hvalue (h.1.2 element hty)
  | .ite condition thenBranch elseBranch, _, h, .ite hs ha hb => by
    rw [Stmt.Keeps] at h ⊢
    have hcondition := staysTyped condition hs _ h.2.1
    exact ⟨hcondition.fills h.1, hcondition.1, reduces_typed thenBranch h.2.2.1 ha,
      reduces_typed elseBranch h.2.2.2 hb⟩
  | .loop condition body, _, h, .loop hs hb => by
    rw [Stmt.Keeps] at h ⊢
    have hcondition := staysTyped condition hs _ h.2.1
    exact ⟨hcondition.fills h.1, hcondition.1, reduces_typed body h.2.2 hb⟩
  | .block body, _, h, .block hb => by
    rw [Stmt.Keeps] at h ⊢
    exact ⟨trivial, reducesAll_typed body h.2 hb⟩
  | .ret none, _, h, .retNone => h
  | .ret (some value), _, h, .ret hs => by
    rw [Stmt.Keeps] at h ⊢
    have hvalue := staysTyped value hs _ h.2
    exact ⟨hvalue.fills h.1, hvalue.1⟩
  | .expr value, _, h, .expr hs => by
    rw [Stmt.Keeps] at h ⊢
    exact ⟨trivial, (staysTyped value hs _ h.2).1⟩

theorem reducesAll_typed : ∀ (body : List Stmt) {body' : List Stmt},
    Stmt.AllKeep c (Typed c) (StmtFills c) body → ReducesAll (HasLiteralTy c) body body' →
      Stmt.AllKeep c (Typed c) (StmtFills c) body'
  | _, _, _, .nil => trivial
  | s :: rest, _, h, .cons hs hrest => by
    rw [Stmt.AllKeep] at h ⊢
    exact ⟨reduces_typed s h.1 hs, reducesAll_typed rest h.2 hrest⟩
  | s :: rest, _, h, .drop hrest => by
    rw [Stmt.AllKeep] at h
    exact reducesAll_typed rest h.2 hrest

end

section Platforms

variable {c' : Context}

/-- A literal that has the type of a variable suits it, whatever platform the variable is read on. -/
theorem hasLiteralTy_suits (hsymbols : c'.symbols = c.symbols) (hmethod : c'.method = c.method) :
    Suits c' (HasLiteralTy c) := by
  intro name ty l hmeaning hty _
  have hsame : c'.meaning name = c.meaning name := by
    rw [Context.meaning, Context.meaning, hsymbols, hmethod]
  have hread := hty none
  rw [typeOf, Context.nameTy?, ← hsame, hmeaning] at hread
  exact Option.some.inj hread

/-- Where types are right, an optimized method does what the method does on every platform, those of
machine words included. -/
theorem optimizeMethod_refines_typed (hsymbols : c'.symbols = c.symbols) (hmethod : c'.method = c.method)
    {cap : Nat} {m m' : Method} (hc : c'.method = .ofMethod m) (h : optimizeMethod m cap = .ok m')
    (hm : Stmt.AllKeep c (Typed c) (StmtFills c) m.body) (args : List Value) (fuel : Nat) :
    (c'.run m.body args fuel).Refines (c'.run m'.body args fuel) :=
  optimizeMethod_refines (hasLiteralTy_foldsTo c) (hasLiteralTy_suits hsymbols hmethod)
    (fun body => allStoresHold_typed body)
    (fun body _ hbody hreduces => reducesAll_typed body hbody hreduces) args fuel cap hc hm h

end Platforms

theorem optimizeMethod_typed {cap : Nat} {m m' : Method} (h : optimizeMethod m cap = .ok m')
    (hm : Stmt.AllKeep c (Typed c) (StmtFills c) m.body) :
    Stmt.AllKeep c (Typed c) (StmtFills c) m'.body :=
  Constants.optimizeMethod_keeps (hasLiteralTy_foldsTo c) (fun body => allStoresHold_typed body)
    (fun body _ hbody hreduces => reducesAll_typed body hbody hreduces) cap h hm

end MiniJava.Semantics
