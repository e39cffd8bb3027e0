import MiniJava.Constants.Optimizer
import MiniJava.Proofs.Optimizer.Facts
import MiniJava.Proofs.Success

/-!
# What the optimizer makes of trees

The optimizer leaves the shape of a tree as it is, but that an expression may become a literal and a
statement may vanish. What is shown of all trees that come about like this holds of optimized ones.
-/

namespace MiniJava.Constants

/-! ## Expressions -/

mutual

/-- An expression becomes another one by literals in place of some of its parts, each for a part that
it may stand for. -/
inductive Simplifies (T : Expr → Literal → Prop) : Expr → Expr → Prop
  | literal {e : Expr} {value : Literal} (h : T e value) : Simplifies T e (.literal value)
  | self : Simplifies T .self .self
  | var {name : String} : Simplifies T (.var name) (.var name)
  | paren {e e' : Expr} (h : Simplifies T e e') : Simplifies T (.paren e) (.paren e')
  | binary {op : BinOp} {l l' r r' : Expr} (hl : Simplifies T l l') (hr : Simplifies T r r') :
    Simplifies T (.binary op l r) (.binary op l' r')
  | not {e e' : Expr} (h : Simplifies T e e') : Simplifies T (.not e) (.not e')
  | newArray {element : Ty} {e e' : Expr} (h : Simplifies T e e') :
    Simplifies T (.newArray element e) (.newArray element e')
  | arrayLiteral {es es' : List Expr} (h : SimplifiesAll T es es') :
    Simplifies T (.arrayLiteral es) (.arrayLiteral es')
  | index {a a' i i' : Expr} (ha : Simplifies T a a') (hi : Simplifies T i i') :
    Simplifies T (.index a i) (.index a' i')
  | length {e e' : Expr} (h : Simplifies T e e') : Simplifies T (.length e) (.length e')
  | newObject {name : String} : Simplifies T (.newObject name) (.newObject name)
  | call {t t' : Expr} {name : String} {es es' : List Expr} (ht : Simplifies T t t')
    (hes : SimplifiesAll T es es') : Simplifies T (.call t name es) (.call t' name es')

/-- Expressions become others one by one. -/
inductive SimplifiesAll (T : Expr → Literal → Prop) : List Expr → List Expr → Prop
  | nil : SimplifiesAll T [] []
  | cons {e e' : Expr} {es es' : List Expr} (h : Simplifies T e e') (hes : SimplifiesAll T es es') :
    SimplifiesAll T (e :: es) (e' :: es')

end

/-- Literals stand for what they are folded from. -/
structure FoldsTo (T : Expr → Literal → Prop) : Prop where
  literal : ∀ value, T (.literal value) value
  paren : ∀ {e value}, T e value → T (.paren e) value
  not : ∀ {e b}, T e (.bool b) → T (.not e) (.bool !b)
  binary : ∀ {method op l r x y value}, T l x → T r y → evalBinary method op x y = .ok (some value) →
    T (.binary op l r) value

variable {T : Expr → Literal → Prop}

theorem SimplifiesAll.length {es es' : List Expr} (h : SimplifiesAll T es es') :
    es'.length = es.length := by
  induction es generalizing es' with
  | nil =>
    cases h
    rfl
  | cons e rest ih =>
    cases h with
    | cons _ hes => exact congrArg Nat.succ (ih hes)

/-- Only a literal comes from a literal, and what becomes one is what the literal stands for. -/
theorem Simplifies.of_literal {e : Expr} {value : Literal} (h : Simplifies T e (.literal value)) :
    T e value := by
  cases h with
  | literal h => exact h

section Folding

variable {method : String}

theorem foldParen_simplifies (hT : FoldsTo T) {e : Expr} {r : Rewrite Expr}
    (h : Simplifies T e r.node) : Simplifies T (.paren e) (foldParen r).node := by
  rw [foldParen]
  split
  · rename_i value hnode
    rw [hnode] at h
    exact .literal (hT.paren h.of_literal)
  · exact .paren h

theorem foldNot_simplifies (hT : FoldsTo T) {e : Expr} {r : Rewrite Expr}
    (h : Simplifies T e r.node) : Simplifies T (.not e) (foldNot r).node := by
  rw [foldNot]
  split
  · rename_i value hnode
    rw [hnode] at h
    exact .literal (hT.not h.of_literal)
  · exact .not h

theorem foldBinary_simplifies (hT : FoldsTo T) {op : BinOp} {left right : Expr}
    {l r result : Rewrite Expr} (hl : Simplifies T left l.node) (hr : Simplifies T right r.node)
    (h : foldBinary method op l r = .ok result) : Simplifies T (.binary op left right) result.node := by
  rw [foldBinary] at h
  split at h
  · rename_i x y hx hy
    obtain ⟨value, hvalue, h⟩ := except_bind h
    cases value with
    | some value =>
      cases h
      rw [hx] at hl
      rw [hy] at hr
      exact .literal (hT.binary hl.of_literal hr.of_literal hvalue)
    | none =>
      cases h
      exact .binary hl hr
  · cases h
    exact .binary hl hr

mutual

theorem foldExpr_simplifies (hT : FoldsTo T) : ∀ (e : Expr) {r : Rewrite Expr},
    foldExpr method e = .ok r → Simplifies T e r.node
  | .literal value, r, h => by
    rw [foldExpr] at h
    cases h
    exact .literal (hT.literal value)
  | .self, r, h => by
    rw [foldExpr] at h
    cases h
    exact .self
  | .var name, r, h => by
    rw [foldExpr] at h
    cases h
    exact .var
  | .newObject name, r, h => by
    rw [foldExpr] at h
    cases h
    exact .newObject
  | .paren inner, r, h => by
    rw [foldExpr] at h
    obtain ⟨i, hi, h⟩ := except_bind h
    cases h
    exact foldParen_simplifies hT (foldExpr_simplifies hT inner hi)
  | .not operand, r, h => by
    rw [foldExpr] at h
    obtain ⟨o, ho, h⟩ := except_bind h
    cases h
    exact foldNot_simplifies hT (foldExpr_simplifies hT operand ho)
  | .binary op left right, r, h => by
    rw [foldExpr] at h
    obtain ⟨l, hl, h⟩ := except_bind h
    obtain ⟨r, hr, h⟩ := except_bind h
    exact foldBinary_simplifies hT (foldExpr_simplifies hT left hl) (foldExpr_simplifies hT right hr) h
  | .newArray element size, r, h => by
    rw [foldExpr] at h
    obtain ⟨s, hs, h⟩ := except_bind h
    cases h
    exact .newArray (foldExpr_simplifies hT size hs)
  | .arrayLiteral elements, r, h => by
    rw [foldExpr] at h
    obtain ⟨es, hes, h⟩ := except_bind h
    cases h
    exact .arrayLiteral (foldExprs_simplify hT elements hes)
  | .index array index, r, h => by
    rw [foldExpr] at h
    obtain ⟨a, ha, h⟩ := except_bind h
    obtain ⟨i, hi, h⟩ := except_bind h
    cases h
    exact .index (foldExpr_simplifies hT array ha) (foldExpr_simplifies hT index hi)
  | .length array, r, h => by
    rw [foldExpr] at h
    obtain ⟨a, ha, h⟩ := except_bind h
    cases h
    exact .length (foldExpr_simplifies hT array ha)
  | .call target name args, r, h => by
    rw [foldExpr] at h
    obtain ⟨t, ht, h⟩ := except_bind h
    obtain ⟨as, has, h⟩ := except_bind h
    cases h
    exact .call (foldExpr_simplifies hT target ht) (foldExprs_simplify hT args has)

theorem foldExprs_simplify (hT : FoldsTo T) : ∀ (es : List Expr) {r : Rewrite (List Expr)},
    foldExprs method es = .ok r → SimplifiesAll T es r.node
  | [], r, h => by
    rw [foldExprs] at h
    cases h
    exact .nil
  | e :: rest, r, h => by
    rw [foldExprs] at h
    obtain ⟨e', he, h⟩ := except_bind h
    obtain ⟨rest', hrest, h⟩ := except_bind h
    cases h
    exact .cons (foldExpr_simplifies hT e he) (foldExprs_simplify hT rest hrest)

end

end Folding

/-! ## Propagation -/

/-- What is known of variables, literals may stand for. -/
def Facts.Hold (T : Expr → Literal → Prop) (facts : Facts) : Prop :=
  ∀ fact ∈ facts, T (.var fact.1) fact.2.value

mutual

theorem substExpr_simplifies (hliteral : ∀ value, T (.literal value) value) {facts : Facts}
    (h : facts.Hold T) : ∀ (e : Expr), Simplifies T e (substExpr facts e).node
  | .literal value => .literal (hliteral value)
  | .self => .self
  | .var name => by
    rw [substExpr]
    cases hknown : facts.lookup name with
    | some known => exact .literal (h _ (Facts.mem_of_lookup hknown))
    | none => exact .var
  | .newObject name => .newObject
  | .paren inner => .paren (substExpr_simplifies hliteral h inner)
  | .not operand => .not (substExpr_simplifies hliteral h operand)
  | .binary op left right =>
    .binary (substExpr_simplifies hliteral h left) (substExpr_simplifies hliteral h right)
  | .newArray element size => .newArray (substExpr_simplifies hliteral h size)
  | .arrayLiteral elements => .arrayLiteral (substExprs_simplify hliteral h elements)
  | .index array index =>
    .index (substExpr_simplifies hliteral h array) (substExpr_simplifies hliteral h index)
  | .length array => .length (substExpr_simplifies hliteral h array)
  | .call target name args =>
    .call (substExpr_simplifies hliteral h target) (substExprs_simplify hliteral h args)

theorem substExprs_simplify (hliteral : ∀ value, T (.literal value) value) {facts : Facts}
    (h : facts.Hold T) : ∀ (es : List Expr), SimplifiesAll T es (substExprs facts es).node
  | [] => .nil
  | e :: rest => .cons (substExpr_simplifies hliteral h e) (substExprs_simplify hliteral h rest)

end

/-! ## Statements -/

mutual

/-- A statement becomes another one by what its expressions become, and parts of it vanish. -/
inductive Reduces (T : Expr → Literal → Prop) : Stmt → Stmt → Prop
  | gone {s : Stmt} : Reduces T s (.block [])
  | assign {target : String} {value value' : Expr} (h : Simplifies T value value') :
    Reduces T (.assign target value) (.assign target value')
  | arrayAssign {target : String} {index index' value value' : Expr} (hi : Simplifies T index index')
    (hv : Simplifies T value value') :
    Reduces T (.arrayAssign target index value) (.arrayAssign target index' value')
  | ite {condition condition' : Expr} {a a' b b' : Stmt} (hc : Simplifies T condition condition')
    (ha : Reduces T a a') (hb : Reduces T b b') :
    Reduces T (.ite condition a b) (.ite condition' a' b')
  | loop {condition condition' : Expr} {body body' : Stmt} (hc : Simplifies T condition condition')
    (hb : Reduces T body body') : Reduces T (.loop condition body) (.loop condition' body')
  | block {body body' : List Stmt} (h : ReducesAll T body body') :
    Reduces T (.block body) (.block body')
  | retNone : Reduces T (.ret none) (.ret none)
  | ret {value value' : Expr} (h : Simplifies T value value') :
    Reduces T (.ret (some value)) (.ret (some value'))
  | expr {value value' : Expr} (h : Simplifies T value value') :
    Reduces T (.expr value) (.expr value')

/-- Statements become others, and some of them vanish. -/
inductive ReducesAll (T : Expr → Literal → Prop) : List Stmt → List Stmt → Prop
  | nil : ReducesAll T [] []
  | cons {s s' : Stmt} {rest rest' : List Stmt} (hs : Reduces T s s')
    (hrest : ReducesAll T rest rest') : ReducesAll T (s :: rest) (s' :: rest')
  | drop {s : Stmt} {rest rest' : List Stmt} (hrest : ReducesAll T rest rest') :
    ReducesAll T (s :: rest) rest'

end

mutual

/-- A literal that is stored may stand for the variable. -/
def StoresHold (T : Expr → Literal → Prop) : Stmt → Prop
  | .assign target value => ∀ l, T value l → T (.var target) l
  | .ite _ thenBranch elseBranch => StoresHold T thenBranch ∧ StoresHold T elseBranch
  | .loop _ body => StoresHold T body
  | .block body => AllStoresHold T body
  | .arrayAssign .. | .ret _ | .expr _ => True

/-- Literals that some statements store may stand for the variables. -/
def AllStoresHold (T : Expr → Literal → Prop) : List Stmt → Prop
  | [] => True
  | s :: rest => StoresHold T s ∧ AllStoresHold T rest

end

/-! ## Any literals -/

/-- Any literal may stand for any expression. -/
def AnyLiteral : Expr → Literal → Prop := fun _ _ => True

theorem anyLiteral_foldsTo : FoldsTo AnyLiteral :=
  ⟨fun _ => trivial, fun _ => trivial, fun _ => trivial, fun _ _ _ => trivial⟩

mutual

theorem storesHold_any : ∀ (s : Stmt), StoresHold AnyLiteral s
  | .assign _ _ => fun _ _ => trivial
  | .ite _ thenBranch elseBranch => ⟨storesHold_any thenBranch, storesHold_any elseBranch⟩
  | .loop _ body => storesHold_any body
  | .block body => allStoresHold_any body
  | .arrayAssign _ _ _ | .ret _ | .expr _ => trivial

theorem allStoresHold_any : ∀ (body : List Stmt), AllStoresHold AnyLiteral body
  | [] => trivial
  | s :: rest => ⟨storesHold_any s, allStoresHold_any rest⟩

end

mutual

theorem foldStmt_reduces {method : String} (hT : FoldsTo T) : ∀ (s : Stmt) {r : Rewrite Stmt},
    foldStmt method s = .ok r → Reduces T s r.node
  | .assign target value, r, h => by
    rw [foldStmt] at h
    obtain ⟨v, hv, h⟩ := except_bind h
    cases h
    exact .assign (foldExpr_simplifies hT value hv)
  | .arrayAssign target index value, r, h => by
    rw [foldStmt] at h
    obtain ⟨i, hi, h⟩ := except_bind h
    obtain ⟨v, hv, h⟩ := except_bind h
    cases h
    exact .arrayAssign (foldExpr_simplifies hT index hi) (foldExpr_simplifies hT value hv)
  | .ite condition thenBranch elseBranch, r, h => by
    rw [foldStmt] at h
    obtain ⟨c, hc, h⟩ := except_bind h
    obtain ⟨a, ha, h⟩ := except_bind h
    obtain ⟨b, hb, h⟩ := except_bind h
    cases h
    exact .ite (foldExpr_simplifies hT condition hc) (foldStmt_reduces hT thenBranch ha)
      (foldStmt_reduces hT elseBranch hb)
  | .loop condition body, r, h => by
    rw [foldStmt] at h
    obtain ⟨c, hc, h⟩ := except_bind h
    obtain ⟨b, hb, h⟩ := except_bind h
    cases h
    exact .loop (foldExpr_simplifies hT condition hc) (foldStmt_reduces hT body hb)
  | .block body, r, h => by
    rw [foldStmt] at h
    obtain ⟨b, hb, h⟩ := except_bind h
    cases h
    exact .block (foldStmts_reduce hT body hb)
  | .ret none, r, h => by
    rw [foldStmt] at h
    cases h
    exact .retNone
  | .ret (some value), r, h => by
    rw [foldStmt] at h
    obtain ⟨v, hv, h⟩ := except_bind h
    cases h
    exact .ret (foldExpr_simplifies hT value hv)
  | .expr value, r, h => by
    rw [foldStmt] at h
    obtain ⟨v, hv, h⟩ := except_bind h
    cases h
    exact .expr (foldExpr_simplifies hT value hv)

theorem foldStmts_reduce {method : String} (hT : FoldsTo T) : ∀ (body : List Stmt)
    {r : Rewrite (List Stmt)}, foldStmts method body = .ok r → ReducesAll T body r.node
  | [], r, h => by
    rw [foldStmts] at h
    cases h
    exact .nil
  | s :: rest, r, h => by
    rw [foldStmts] at h
    obtain ⟨s', hs, h⟩ := except_bind h
    obtain ⟨rest', hrest, h⟩ := except_bind h
    cases h
    exact .cons (foldStmt_reduces hT s hs) (foldStmts_reduce hT rest hrest)

end

section Propagating

variable {m : Method} {facts : Facts} {p : Progress}

theorem Facts.Hold.forgetAll (h : facts.Hold T) (names : List String) :
    (facts.forgetAll names).Hold T :=
  fun fact hfact => h fact (mem_forgetAll.mp hfact).1

theorem Progress.store_hold (h : p.facts.Hold T) {depth : Nat} {target : String} {value : Expr}
    (hvalue : ∀ l, value = .literal l → T (.var target) l) :
    (p.store m depth target value).facts.Hold T := by
  cases hdeclares : m.declares target with
  | false =>
    rw [store_undeclared hdeclares]
    exact h
  | true =>
    intro fact hfact
    rcases (mem_store_facts hdeclares).mp hfact with ⟨l, hl, rfl⟩ | ⟨hfact, _⟩
    · exact hvalue l hl
    · exact h fact hfact

mutual

theorem propagateStmt_reduces (hliteral : ∀ value, T (.literal value) value) : ∀ (s : Stmt)
    (depth : Nat) {p : Progress}, StoresHold T s → p.facts.Hold T →
      Reduces T s (propagateStmt m depth p s).1 ∧ (propagateStmt m depth p s).2.facts.Hold T
  | .assign target value, depth, p, hstores, hfacts => by
    have hvalue := substExpr_simplifies hliteral hfacts value
    rw [StoresHold] at hstores
    refine ⟨.assign hvalue, Progress.store_hold (p := p.note (substExpr p.facts value)) hfacts
      fun l hl => hstores l ?_⟩
    rw [hl] at hvalue
    exact hvalue.of_literal
  | .arrayAssign target index value, depth, p, hstores, hfacts =>
    ⟨.arrayAssign (substExpr_simplifies hliteral hfacts index)
      (substExpr_simplifies hliteral hfacts value), hfacts⟩
  | .ite condition thenBranch elseBranch, depth, p, hstores, hfacts => by
    rw [StoresHold] at hstores
    have hthen := propagateStmt_reduces hliteral thenBranch (depth + 1)
      (p := p.atThen condition) hstores.1 hfacts
    have helse := propagateStmt_reduces hliteral elseBranch (depth + 1)
      (p := p.atElse m depth condition thenBranch) hstores.2 hfacts
    rw [propagateStmt_ite]
    exact ⟨.ite (substExpr_simplifies hliteral hfacts condition) hthen.1 helse.1, hfacts.forgetAll _⟩
  | .loop condition body, depth, p, hstores, hfacts => by
    rw [StoresHold] at hstores
    have hloop : (p.atLoop body).facts.Hold T := hfacts.forgetAll _
    have hbody := propagateStmt_reduces hliteral body (depth + 1)
      (p := (p.atLoop body).atThen condition) hstores hloop
    rw [propagateStmt_loop]
    exact ⟨.loop (substExpr_simplifies hliteral hloop condition) hbody.1, hloop⟩
  | .block body, depth, p, hstores, hfacts => by
    rw [StoresHold] at hstores
    have hbody := propagateStmts_reduce hliteral body depth hstores hfacts
    rw [propagateStmt_block]
    exact ⟨.block hbody.1, hbody.2⟩
  | .ret none, depth, p, hstores, hfacts => ⟨.retNone, hfacts⟩
  | .ret (some value), depth, p, hstores, hfacts =>
    ⟨.ret (substExpr_simplifies hliteral hfacts value), hfacts⟩
  | .expr value, depth, p, hstores, hfacts =>
    ⟨.expr (substExpr_simplifies hliteral hfacts value), hfacts⟩

theorem propagateStmts_reduce (hliteral : ∀ value, T (.literal value) value) :
    ∀ (body : List Stmt) (depth : Nat) {p : Progress}, AllStoresHold T body → p.facts.Hold T →
      ReducesAll T body (propagateStmts m depth p body).1 ∧
        (propagateStmts m depth p body).2.facts.Hold T
  | [], depth, p, hstores, hfacts => ⟨.nil, hfacts⟩
  | s :: rest, depth, p, hstores, hfacts => by
    rw [AllStoresHold] at hstores
    have hs := propagateStmt_reduces hliteral s depth hstores.1 hfacts
    have hrest := propagateStmts_reduce hliteral rest depth hstores.2 hs.2
    rw [propagateStmts_cons]
    exact ⟨.cons hs.1 hrest.1, hrest.2⟩

end

end Propagating

mutual

theorem Simplifies.refl (hliteral : ∀ value, T (.literal value) value) : ∀ (e : Expr),
    Simplifies T e e
  | .literal value => .literal (hliteral value)
  | .self => .self
  | .var _ => .var
  | .newObject _ => .newObject
  | .paren inner => .paren (Simplifies.refl hliteral inner)
  | .not operand => .not (Simplifies.refl hliteral operand)
  | .binary _ left right => .binary (Simplifies.refl hliteral left) (Simplifies.refl hliteral right)
  | .newArray _ size => .newArray (Simplifies.refl hliteral size)
  | .arrayLiteral elements => .arrayLiteral (SimplifiesAll.refl hliteral elements)
  | .index array index => .index (Simplifies.refl hliteral array) (Simplifies.refl hliteral index)
  | .length array => .length (Simplifies.refl hliteral array)
  | .call target _ args => .call (Simplifies.refl hliteral target) (SimplifiesAll.refl hliteral args)

theorem SimplifiesAll.refl (hliteral : ∀ value, T (.literal value) value) : ∀ (es : List Expr),
    SimplifiesAll T es es
  | [] => .nil
  | e :: rest => .cons (Simplifies.refl hliteral e) (SimplifiesAll.refl hliteral rest)

end

mutual

theorem removeStores_reduces (hliteral : ∀ value, T (.literal value) value) (removable : List Nat) :
    ∀ (s : Stmt) (next : Nat), Reduces T s ((removeStores removable next s).1.getD (.block []))
  | .assign target value, next => by
    rw [removeStores]
    split
    · exact .gone
    · exact .assign (.refl hliteral value)
  | .ite condition thenBranch elseBranch, next => by
    rw [removeStores_ite]
    exact .ite (.refl hliteral condition) (removeStores_reduces hliteral removable thenBranch _)
      (removeStores_reduces hliteral removable elseBranch _)
  | .loop condition body, next => by
    rw [removeStores_loop]
    exact .loop (.refl hliteral condition) (removeStores_reduces hliteral removable body _)
  | .block body, next => by
    rw [removeStores_block]
    exact .block (removeStoresIn_reduce hliteral removable body _)
  | .arrayAssign target index value, next => .arrayAssign (.refl hliteral index) (.refl hliteral value)
  | .ret none, next => .retNone
  | .ret (some value), next => .ret (.refl hliteral value)
  | .expr value, next => .expr (.refl hliteral value)

theorem removeStoresIn_reduce (hliteral : ∀ value, T (.literal value) value) (removable : List Nat) :
    ∀ (body : List Stmt) (next : Nat), ReducesAll T body (removeStoresIn removable next body).1
  | [], next => .nil
  | s :: rest, next => by
    have hs := removeStores_reduces hliteral removable s next
    have hrest := removeStoresIn_reduce hliteral removable rest (removeStores removable next s).2
    rw [removeStoresIn_cons]
    cases hkept : (removeStores removable next s).1 with
    | none => exact .drop hrest
    | some s' =>
      rw [hkept] at hs
      exact .cons hs hrest

end

/-! ## Methods and programs -/

section Rounds

variable {inv : List Stmt → Prop}

theorem round_keeps (hT : FoldsTo T) (hstores : ∀ body, inv body → AllStoresHold T body)
    (hreduce : ∀ body body', inv body → ReducesAll T body body' → inv body') {m : Method}
    {folded : Rewrite Method} (hinv : inv m.body) (hfold : fold (propagate m).node = .ok folded) :
    inv folded.node.body := by
  have hsubst := propagateStmts_reduce hT.literal m.body 0 (m := m) (p := {})
    (hstores m.body hinv) nofun
  have hpropagated : inv (propagate m).node.body :=
    hreduce _ _ (hreduce _ _ hinv hsubst.1) (removeStoresIn_reduce hT.literal _ _ 0)
  obtain ⟨body, hbody, hfold⟩ := except_bind hfold
  cases hfold
  exact hreduce _ _ hpropagated (foldStmts_reduce hT _ hbody)

/-- What every reduction keeps, optimized methods keep. -/
theorem optimizeMethod_keeps (hT : FoldsTo T) (hstores : ∀ body, inv body → AllStoresHold T body)
    (hreduce : ∀ body body', inv body → ReducesAll T body body' → inv body') :
    ∀ (cap : Nat) {m m' : Method}, optimizeMethod m cap = .ok m' → inv m.body → inv m'.body
  | 0, m, m', h, hinv => by
    cases h
    exact hinv
  | cap + 1, m, m', h, hinv => by
    obtain ⟨folded, hfold, h⟩ := except_bind h
    have hfolded := round_keeps hT hstores hreduce hinv hfold
    split at h
    · exact optimizeMethod_keeps hT hstores hreduce cap h hfolded
    · cases h
      exact hfolded

end Rounds

end MiniJava.Constants
