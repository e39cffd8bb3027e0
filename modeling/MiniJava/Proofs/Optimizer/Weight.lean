import MiniJava.Constants.Folding
import MiniJava.Proofs.Optimizer.Propagation
import MiniJava.Proofs.Success

/-!
# What a round of the optimizer takes away

The weight of a tree counts the nodes that the optimizer may take away. Both passes report a change
exactly where they make one: without a change the tree is the same, and a change leaves a tree of
less weight. So a method can only be changed as often as it has such nodes.
-/

namespace MiniJava

/-! ## Weights -/

mutual

/-- The reads of variables, the parentheses and the operators in an expression. -/
def Expr.weight : Expr → Nat
  | .var _ => 1
  | .paren inner => inner.weight + 1
  | .not operand => operand.weight + 1
  | .binary _ left right => left.weight + right.weight + 1
  | .newArray _ size => size.weight
  | .arrayLiteral elements => Expr.weights elements
  | .index array place => array.weight + place.weight
  | .length array => array.weight
  | .call target _ args => target.weight + Expr.weights args
  | .literal _ | .self | .newObject _ => 0

/-- The weight of several expressions. -/
def Expr.weights : List Expr → Nat
  | [] => 0
  | e :: rest => e.weight + Expr.weights rest

end

mutual

/-- The assignments to variables in a statement, with the weights of its expressions. -/
def Stmt.weight : Stmt → Nat
  | .assign _ value => value.weight + 1
  | .arrayAssign _ index value => index.weight + value.weight
  | .ite condition thenBranch elseBranch =>
    condition.weight + thenBranch.weight + elseBranch.weight
  | .loop condition body => condition.weight + body.weight
  | .block body => Stmt.weights body
  | .ret none => 0
  | .ret (some value) => value.weight
  | .expr value => value.weight

/-- The weight of several statements. -/
def Stmt.weights : List Stmt → Nat
  | [] => 0
  | s :: rest => s.weight + Stmt.weights rest

end

theorem Stmt.weights_append (a b : List Stmt) :
    Stmt.weights (a ++ b) = Stmt.weights a + Stmt.weights b := by
  induction a with
  | nil => exact (Nat.zero_add _).symm
  | cons s rest ih => rw [List.cons_append, Stmt.weights, Stmt.weights, ih, Nat.add_assoc]

/-- The weight of the body of a method. Stores into arrays have none of their own: they stay. -/
def Method.weight (m : Method) : Nat :=
  Stmt.weights m.body

namespace Constants

/-! ## Results of passes -/

/-- A pass over a tree gives the tree itself or one of less weight, and tells which. -/
structure Rewrite.Shrinks {α : Type} (weight : α → Nat) (a : α) (r : Rewrite α) : Prop where
  same : r.changed = false → r.node = a
  less : weight r.node + r.changed.toNat ≤ weight a

namespace Rewrite.Shrinks

variable {α β γ δ : Type} {w : α → Nat} {w' : β → Nat} {w'' : γ → Nat} {v : δ → Nat}
  {a : α} {b : β} {c : γ} {r : Rewrite α} {s : Rewrite β} {t : Rewrite γ}

theorem unchanged (w : α → Nat) (a : α) : Shrinks w a ⟨a, false⟩ :=
  ⟨fun _ => rfl, Nat.le_refl _⟩

theorem eq_of_unchanged (h : Shrinks w a r) (hr : r.changed = false) : r = ⟨a, false⟩ :=
  congrArg₂ Rewrite.mk (h.same hr) hr

theorem or_toNat_le (x y : Bool) : (x || y).toNat ≤ x.toNat + y.toNat := by
  cases x <;> cases y <;> decide

theorem trans {a' a'' : α} {changed changed' : Bool} (h : Shrinks w a ⟨a', changed⟩)
    (h' : Shrinks w a' ⟨a'', changed'⟩) : Shrinks w a ⟨a'', changed || changed'⟩ where
  same hsame := by
    obtain ⟨hchanged, hchanged'⟩ := Bool.or_eq_false_iff.mp hsame
    exact (h'.same hchanged').trans (h.same hchanged)
  less := by
    have := h.less
    have := h'.less
    have := or_toNat_le changed changed'
    dsimp only at *
    omega

theorem map {f : α → β} (h : Shrinks w a r) (k : Nat) (hf : ∀ x, w' (f x) = w x + k) :
    Shrinks w' (f a) (r.map f) where
  same hsame := congrArg f (h.same hsame)
  less := by
    have := h.less
    simp only [Rewrite.map, hf]
    omega

theorem map₂ {f : α → β → γ} (ha : Shrinks w a r) (hb : Shrinks w' b s) (k : Nat)
    (hf : ∀ x y, w'' (f x y) = w x + w' y + k) : Shrinks w'' (f a b) (r.map₂ f s) where
  same hsame := by
    obtain ⟨hr, hs⟩ := Bool.or_eq_false_iff.mp hsame
    exact congrArg₂ f (ha.same hr) (hb.same hs)
  less := by
    have := ha.less
    have := hb.less
    have := or_toNat_le r.changed s.changed
    simp only [Rewrite.map₂, hf]
    omega

theorem map₃ {f : α → β → γ → δ} (ha : Shrinks w a r) (hb : Shrinks w' b s) (hc : Shrinks w'' c t)
    (k : Nat) (hf : ∀ x y z, v (f x y z) = w x + w' y + w'' z + k) :
    Shrinks v (f a b c) (r.map₃ f s t) where
  same hsame := by
    obtain ⟨hrs, ht⟩ := Bool.or_eq_false_iff.mp hsame
    obtain ⟨hr, hs⟩ := Bool.or_eq_false_iff.mp hrs
    rw [Rewrite.map₃, ha.same hr, hb.same hs, hc.same ht]
  less := by
    have := ha.less
    have := hb.less
    have := hc.less
    have := or_toNat_le r.changed s.changed
    have := or_toNat_le (r.changed || s.changed) t.changed
    simp only [Rewrite.map₃, hf]
    omega

end Rewrite.Shrinks

open Rewrite (Shrinks)
open Semantics (removeStoresIn_next)

/-! ## Folding -/

section Folding

variable {method : String}

theorem foldParen_shrinks {e : Expr} {r : Rewrite Expr} (h : r.Shrinks Expr.weight e) :
    (foldParen r).Shrinks Expr.weight (.paren e) := by
  have hless := h.less
  rw [foldParen]
  split
  · refine ⟨fun hsame => Bool.noConfusion hsame, ?_⟩
    simp only [Expr.weight, Bool.toNat_true]
    omega
  · exact h.map 1 fun _ => rfl

theorem foldNot_shrinks {e : Expr} {r : Rewrite Expr} (h : r.Shrinks Expr.weight e) :
    (foldNot r).Shrinks Expr.weight (.not e) := by
  have hless := h.less
  rw [foldNot]
  split
  · refine ⟨fun hsame => Bool.noConfusion hsame, ?_⟩
    simp only [Expr.weight, Bool.toNat_true]
    omega
  · exact h.map 1 fun _ => rfl

theorem foldBinary_shrinks {op : BinOp} {left right : Expr} {l r result : Rewrite Expr}
    (hl : l.Shrinks Expr.weight left) (hr : r.Shrinks Expr.weight right)
    (h : foldBinary method op l r = .ok result) :
    result.Shrinks Expr.weight (.binary op left right) := by
  have hkept : Shrinks Expr.weight (.binary op left right)
      ⟨.binary op l.node r.node, l.changed || r.changed⟩ :=
    hl.map₂ hr 1 fun _ _ => rfl
  rw [foldBinary] at h
  split at h
  · obtain ⟨folded, _, h⟩ := except_bind h
    cases folded with
    | some value =>
      cases h
      refine ⟨fun hsame => Bool.noConfusion hsame, ?_⟩
      simp only [Expr.weight, Bool.toNat_true]
      omega
    | none =>
      cases h
      exact hkept
  · cases h
    exact hkept

mutual

theorem foldExpr_shrinks : ∀ (e : Expr) {r : Rewrite Expr}, foldExpr method e = .ok r →
    r.Shrinks Expr.weight e
  | .literal _, r, h | .self, r, h | .var _, r, h | .newObject _, r, h => by
    rw [foldExpr] at h
    cases h
    exact .unchanged _ _
  | .paren inner, r, h => by
    rw [foldExpr] at h
    obtain ⟨i, hi, h⟩ := except_bind h
    cases h
    exact foldParen_shrinks (foldExpr_shrinks inner hi)
  | .not operand, r, h => by
    rw [foldExpr] at h
    obtain ⟨o, ho, h⟩ := except_bind h
    cases h
    exact foldNot_shrinks (foldExpr_shrinks operand ho)
  | .binary op left right, r, h => by
    rw [foldExpr] at h
    obtain ⟨l, hl, h⟩ := except_bind h
    obtain ⟨r, hr, h⟩ := except_bind h
    exact foldBinary_shrinks (foldExpr_shrinks left hl) (foldExpr_shrinks right hr) h
  | .newArray element size, r, h => by
    rw [foldExpr] at h
    obtain ⟨s, hs, h⟩ := except_bind h
    cases h
    exact (foldExpr_shrinks size hs).map 0 fun _ => rfl
  | .arrayLiteral elements, r, h => by
    rw [foldExpr] at h
    obtain ⟨es, hes, h⟩ := except_bind h
    cases h
    exact (foldExprs_shrink elements hes).map 0 fun _ => rfl
  | .index array index, r, h => by
    rw [foldExpr] at h
    obtain ⟨a, ha, h⟩ := except_bind h
    obtain ⟨i, hi, h⟩ := except_bind h
    cases h
    exact (foldExpr_shrinks array ha).map₂ (foldExpr_shrinks index hi) 0 fun _ _ => rfl
  | .length array, r, h => by
    rw [foldExpr] at h
    obtain ⟨a, ha, h⟩ := except_bind h
    cases h
    exact (foldExpr_shrinks array ha).map 0 fun _ => rfl
  | .call target name args, r, h => by
    rw [foldExpr] at h
    obtain ⟨t, ht, h⟩ := except_bind h
    obtain ⟨as, has, h⟩ := except_bind h
    cases h
    exact (foldExpr_shrinks target ht).map₂ (f := fun t es => Expr.call t name es)
      (foldExprs_shrink args has) 0 fun _ _ => rfl

theorem foldExprs_shrink : ∀ (es : List Expr) {r : Rewrite (List Expr)},
    foldExprs method es = .ok r → r.Shrinks Expr.weights es
  | [], r, h => by
    rw [foldExprs] at h
    cases h
    exact .unchanged _ _
  | e :: rest, r, h => by
    rw [foldExprs] at h
    obtain ⟨e', he, h⟩ := except_bind h
    obtain ⟨rest', hrest, h⟩ := except_bind h
    cases h
    exact (foldExpr_shrinks e he).map₂ (foldExprs_shrink rest hrest) 0 fun _ _ => rfl

end

mutual

theorem foldStmt_shrinks : ∀ (s : Stmt) {r : Rewrite Stmt}, foldStmt method s = .ok r →
    r.Shrinks Stmt.weight s
  | .assign target value, r, h => by
    rw [foldStmt] at h
    obtain ⟨v, hv, h⟩ := except_bind h
    cases h
    exact (foldExpr_shrinks value hv).map 1 fun _ => rfl
  | .arrayAssign target index value, r, h => by
    rw [foldStmt] at h
    obtain ⟨i, hi, h⟩ := except_bind h
    obtain ⟨v, hv, h⟩ := except_bind h
    cases h
    exact (foldExpr_shrinks index hi).map₂ (foldExpr_shrinks value hv) 0 fun _ _ => rfl
  | .ite condition thenBranch elseBranch, r, h => by
    rw [foldStmt] at h
    obtain ⟨c, hc, h⟩ := except_bind h
    obtain ⟨t, ht, h⟩ := except_bind h
    obtain ⟨e, he, h⟩ := except_bind h
    cases h
    exact (foldExpr_shrinks condition hc).map₃ (foldStmt_shrinks thenBranch ht)
      (foldStmt_shrinks elseBranch he) 0 fun _ _ _ => rfl
  | .loop condition body, r, h => by
    rw [foldStmt] at h
    obtain ⟨c, hc, h⟩ := except_bind h
    obtain ⟨b, hb, h⟩ := except_bind h
    cases h
    exact (foldExpr_shrinks condition hc).map₂ (foldStmt_shrinks body hb) 0 fun _ _ => rfl
  | .block body, r, h => by
    rw [foldStmt] at h
    obtain ⟨b, hb, h⟩ := except_bind h
    cases h
    exact (foldStmts_shrink body hb).map 0 fun _ => rfl
  | .ret none, r, h => by
    rw [foldStmt] at h
    cases h
    exact .unchanged _ _
  | .ret (some value), r, h => by
    rw [foldStmt] at h
    obtain ⟨v, hv, h⟩ := except_bind h
    cases h
    exact (foldExpr_shrinks value hv).map (f := fun e => Stmt.ret (some e)) 0 fun _ => rfl
  | .expr value, r, h => by
    rw [foldStmt] at h
    obtain ⟨v, hv, h⟩ := except_bind h
    cases h
    exact (foldExpr_shrinks value hv).map 0 fun _ => rfl

theorem foldStmts_shrink : ∀ (body : List Stmt) {r : Rewrite (List Stmt)},
    foldStmts method body = .ok r → r.Shrinks Stmt.weights body
  | [], r, h => by
    rw [foldStmts] at h
    cases h
    exact .unchanged _ _
  | s :: rest, r, h => by
    rw [foldStmts] at h
    obtain ⟨s', hs, h⟩ := except_bind h
    obtain ⟨rest', hrest, h⟩ := except_bind h
    cases h
    exact (foldStmt_shrinks s hs).map₂ (foldStmts_shrink rest hrest) 0 fun _ _ => rfl

end

theorem fold_shrinks {m : Method} {r : Rewrite Method} (h : fold m = .ok r) :
    r.Shrinks Method.weight m := by
  obtain ⟨body, hbody, h⟩ := except_bind h
  cases h
  refine (foldStmts_shrink m.body hbody).map (f := fun body => { m with body }) 0 fun _ => ?_
  rfl

end Folding

/-! ## Substitution -/

section Substitution

variable (facts : Facts)

mutual

theorem substExpr_shrinks : ∀ e : Expr, (substExpr facts e).Shrinks Expr.weight e
  | .var name => by
    rw [substExpr]
    cases facts.lookup name with
    | some known => exact ⟨nofun, Nat.le_refl _⟩
    | none => exact .unchanged _ _
  | .literal _ | .self | .newObject _ => .unchanged _ _
  | .paren inner => (substExpr_shrinks inner).map 1 fun _ => rfl
  | .not operand => (substExpr_shrinks operand).map 1 fun _ => rfl
  | .binary _ left right =>
    (substExpr_shrinks left).map₂ (substExpr_shrinks right) 1 fun _ _ => rfl
  | .newArray _ size => (substExpr_shrinks size).map 0 fun _ => rfl
  | .arrayLiteral elements => (substExprs_shrink elements).map 0 fun _ => rfl
  | .index array index =>
    (substExpr_shrinks array).map₂ (substExpr_shrinks index) 0 fun _ _ => rfl
  | .length array => (substExpr_shrinks array).map 0 fun _ => rfl
  | .call target name args =>
    (substExpr_shrinks target).map₂ (f := fun t es => Expr.call t name es)
      (substExprs_shrink args) 0 fun _ _ => rfl

theorem substExprs_shrink : ∀ es : List Expr, (substExprs facts es).Shrinks Expr.weights es
  | [] => .unchanged _ _
  | e :: rest => (substExpr_shrinks e).map₂ (substExprs_shrink rest) 0 fun _ _ => rfl

end

end Substitution

/-- A pass goes from one state to another over a tree, which stays or gets less weight, and notes
which. -/
def Progress.Notes {α : Type} (weight : α → Nat) (a : α) (p : Progress) (out : α × Progress) :
    Prop :=
  ∃ changed, Shrinks weight a ⟨out.1, changed⟩ ∧ out.2.replaced = (p.replaced || changed)

theorem Progress.store_replaced {m : Method} {depth : Nat} {p : Progress} {target : String}
    {value : Expr} : (p.store m depth target value).replaced = p.replaced := by
  rw [store]
  split <;> rfl

mutual

theorem propagateStmt_shrinks (m : Method) : ∀ (s : Stmt) (depth : Nat) (p : Progress),
    p.Notes Stmt.weight s (propagateStmt m depth p s)
  | .assign target value, depth, p =>
    ⟨_, (substExpr_shrinks p.facts value).map 1 fun _ => rfl, Progress.store_replaced⟩
  | .arrayAssign target index value, depth, p =>
    ⟨_, (substExpr_shrinks p.facts index).map₂ (substExpr_shrinks p.facts value) 0 fun _ _ => rfl,
      rfl⟩
  | .ite condition thenBranch elseBranch, depth, p => by
    rw [propagateStmt_ite]
    obtain ⟨_, hthen, hreplaced⟩ :=
      propagateStmt_shrinks m thenBranch (depth + 1) (p.atThen condition)
    obtain ⟨_, helse, hreplaced'⟩ :=
      propagateStmt_shrinks m elseBranch (depth + 1) (p.atElse m depth condition thenBranch)
    refine ⟨_, (substExpr_shrinks p.facts condition).map₃ hthen helse 0 fun _ _ _ => rfl, ?_⟩
    exact hreplaced'.trans (by rw [Progress.atElse, hreplaced, Progress.atThen, Progress.note,
      Bool.or_assoc, Bool.or_assoc, Bool.or_assoc])
  | .loop condition body, depth, p => by
    rw [propagateStmt_loop]
    obtain ⟨_, hbody, hreplaced⟩ :=
      propagateStmt_shrinks m body (depth + 1) ((p.atLoop body).atThen condition)
    refine ⟨_, (substExpr_shrinks _ condition).map₂ hbody 0 fun _ _ => rfl, ?_⟩
    exact hreplaced.trans (Bool.or_assoc ..)
  | .block body, depth, p => by
    rw [propagateStmt_block]
    obtain ⟨_, hbody, hreplaced⟩ := propagateStmts_shrink m body depth p
    exact ⟨_, hbody.map 0 fun _ => rfl, hreplaced⟩
  | .ret none, depth, p => ⟨false, .unchanged _ _, (Bool.or_false _).symm⟩
  | .ret (some value), depth, p =>
    ⟨_, (substExpr_shrinks p.facts value).map (f := fun e => Stmt.ret (some e)) 0 fun _ => rfl, rfl⟩
  | .expr value, depth, p => ⟨_, (substExpr_shrinks p.facts value).map 0 fun _ => rfl, rfl⟩

theorem propagateStmts_shrink (m : Method) : ∀ (body : List Stmt) (depth : Nat) (p : Progress),
    p.Notes Stmt.weights body (propagateStmts m depth p body)
  | [], depth, p => ⟨false, .unchanged _ _, (Bool.or_false _).symm⟩
  | s :: rest, depth, p => by
    rw [propagateStmts_cons]
    obtain ⟨_, hs, hreplaced⟩ := propagateStmt_shrinks m s depth p
    obtain ⟨_, hrest, hreplaced'⟩ :=
      propagateStmts_shrink m rest depth (propagateStmt m depth p s).2
    refine ⟨_, hs.map₂ hrest 0 fun _ _ => rfl, ?_⟩
    rw [hreplaced', hreplaced, Bool.or_assoc]

end

/-! ## Removal -/

/-- Whether a store from one number up to another is to be removed. -/
def removesBetween (removable : List Nat) (first last : Nat) : Bool :=
  removable.any fun k => decide (first ≤ k ∧ k < last)

theorem removesBetween_iff {removable : List Nat} {first last : Nat} :
    removesBetween removable first last ↔ ∃ k ∈ removable, first ≤ k ∧ k < last := by
  simp [removesBetween]

theorem removesBetween_self (removable : List Nat) (next : Nat) :
    removesBetween removable next next = false := by
  rw [Bool.eq_false_iff]
  intro h
  obtain ⟨k, _, hle, hlt⟩ := removesBetween_iff.mp h
  exact Nat.not_lt.mpr hle hlt

theorem removesBetween_or {removable : List Nat} {first middle last : Nat} (h : first ≤ middle)
    (h' : middle ≤ last) : (removesBetween removable first middle ||
      removesBetween removable middle last) = removesBetween removable first last := by
  rw [Bool.eq_iff_iff, Bool.or_eq_true, removesBetween_iff, removesBetween_iff, removesBetween_iff]
  constructor
  · rintro (⟨k, hk, hfirst, hlast⟩ | ⟨k, hk, hfirst, hlast⟩)
    · exact ⟨k, hk, hfirst, Nat.lt_of_lt_of_le hlast h'⟩
    · exact ⟨k, hk, Nat.le_trans h hfirst, hlast⟩
  · rintro ⟨k, hk, hfirst, hlast⟩
    rcases Nat.lt_or_ge k middle with hmiddle | hmiddle
    · exact .inl ⟨k, hk, hfirst, hmiddle⟩
    · exact .inr ⟨k, hk, hmiddle, hlast⟩

/-- What removal leaves of statements whose stores have the given numbers. -/
structure Removal (removable : List Nat) (next : Nat) (body : List Stmt)
    (left : List Stmt × Nat) : Prop where
  next_le : next ≤ left.2
  shrinks : Shrinks Stmt.weights body ⟨left.1, removesBetween removable next left.2⟩

namespace Removal

variable {removable : List Nat} {next : Nat} {s : Stmt} {left : Option Stmt} {last : Nat}

theorem single (h : next ≤ last) {s' : Stmt}
    (hs : Shrinks Stmt.weight s ⟨s', removesBetween removable next last⟩) :
    Removal removable next [s] ([s'], last) :=
  ⟨h, hs.map (f := fun s => [s]) 0 fun _ => rfl⟩

theorem kept (s : Stmt) : Removal removable next [s] ([s], next) := by
  refine .single (Nat.le_refl _) ?_
  rw [removesBetween_self]
  exact .unchanged _ _

theorem branch (h : Removal removable next [s] (left.toList, last)) :
    Shrinks Stmt.weight s ⟨left.getD (.block []), removesBetween removable next last⟩ where
  same hsame := by
    have hleft := h.shrinks.same hsame
    cases left with
    | none => cases hleft
    | some s' => exact (List.cons.inj hleft).1
  less := by
    have hless := h.shrinks.less
    cases left with
    | none => exact hless
    | some s' => exact hless

end Removal

mutual

theorem removeStores_removal (removable : List Nat) : ∀ (s : Stmt) (next : Nat),
    Removal removable next [s]
      ((removeStores removable next s).1.toList, (removeStores removable next s).2)
  | .assign target value, next => by
    refine ⟨Nat.le_succ next, ?_⟩
    rw [removeStores]
    by_cases hremoved : next ∈ removable
    · rw [if_pos (List.contains_iff_mem.mpr hremoved),
        removesBetween_iff.mpr ⟨next, hremoved, Nat.le_refl _, Nat.lt_succ_self _⟩]
      exact ⟨nofun, Nat.succ_le_succ (Nat.zero_le _)⟩
    · have hnone : removesBetween removable next (next + 1) = false := by
        rw [Bool.eq_false_iff]
        intro h
        obtain ⟨k, hk, hle, hlt⟩ := removesBetween_iff.mp h
        rw [show k = next by omega] at hk
        exact hremoved hk
      rw [if_neg fun hin => hremoved (List.contains_iff_mem.mp hin), hnone]
      exact .unchanged _ _
  | .ite condition thenBranch elseBranch, next => by
    rw [removeStores_ite]
    have hthen := removeStores_removal removable thenBranch next
    have helse := removeStores_removal removable elseBranch
      (removeStores removable next thenBranch).2
    refine .single (Nat.le_trans hthen.next_le helse.next_le) ?_
    rw [← removesBetween_or hthen.next_le helse.next_le]
    refine hthen.branch.map₂ helse.branch (f := Stmt.ite condition)
      condition.weight fun t e => ?_
    rw [Stmt.weight]
    omega
  | .loop condition body, next => by
    rw [removeStores_loop]
    have hbody := removeStores_removal removable body next
    exact .single hbody.next_le (hbody.branch.map condition.weight fun _ => Nat.add_comm ..)
  | .block body, next => by
    rw [removeStores_block]
    have hbody := removeStoresIn_removal removable body next
    exact .single hbody.next_le (hbody.shrinks.map 0 fun _ => rfl)
  | .arrayAssign .., _ | .ret _, _ | .expr _, _ => .kept _

theorem removeStoresIn_removal (removable : List Nat) : ∀ (body : List Stmt) (next : Nat),
    Removal removable next body (removeStoresIn removable next body)
  | [], next => by
    refine ⟨Nat.le_refl _, ?_⟩
    rw [removeStoresIn, removesBetween_self]
    exact .unchanged _ _
  | s :: rest, next => by
    rw [removeStoresIn_cons]
    have hs := removeStores_removal removable s next
    have hrest := removeStoresIn_removal removable rest (removeStores removable next s).2
    refine ⟨Nat.le_trans hs.next_le hrest.next_le, ?_⟩
    rw [← removesBetween_or hs.next_le hrest.next_le]
    exact hs.shrinks.map₂ hrest.shrinks (f := fun a b => a ++ b) 0 Stmt.weights_append

end

/-- Every store that a pass over a whole body finds to remove is one of the body. -/
theorem removable_lt {m : Method} {p : Progress} (hp : p.Good m 0) :
    ∀ k ∈ p.facts.outermostStores ++ p.removable, k < p.nextStore := by
  intro k hk
  rcases List.mem_append.mp hk with hk | hk
  · obtain ⟨a, ha, hstore⟩ := List.mem_filterMap.mp hk
    split at hstore
    · cases hstore
      exact hp.fresh a ha
    · cases hstore
  · exact hp.past k hk

theorem removesBetween_all {removable : List Nat} {last : Nat} (h : ∀ k ∈ removable, k < last) :
    removesBetween removable 0 last = !removable.isEmpty := by
  rw [Bool.eq_iff_iff, removesBetween_iff]
  cases removable with
  | nil => simp
  | cons k rest => simpa using .inl (h k List.mem_cons_self)

theorem propagate_of_passed {m : Method} {body : List Stmt} {p : Progress}
    (h : propagateStmts m 0 {} m.body = (body, p)) :
    propagate m =
      ⟨{ m with body := (removeStoresIn (p.facts.outermostStores ++ p.removable) 0 body).1 },
        p.replaced || !(p.facts.outermostStores ++ p.removable).isEmpty⟩ := by
  rw [propagate, h]

theorem propagate_shrinks (m : Method) : (propagate m).Shrinks Method.weight m := by
  have hp := Progress.Good.start m 0
  have hgood := (propagateStmts_advances m.body hp).good
  obtain ⟨changed, hbody, hreplaced⟩ := propagateStmts_shrink m m.body 0 {}
  have hnext := fun removable => removeStoresIn_next m removable m.body 0 {}
  rw [propagate_of_passed (Prod.eta _).symm, hreplaced, Bool.false_or]
  -- A store to remove is always one of the body, so where there is one the body gets smaller.
  rw [← removesBetween_all (removable_lt hgood), ← hnext]
  refine (hbody.trans (removeStoresIn_removal _ _ 0).shrinks).map
    (f := fun body => { m with body }) 0 fun _ => ?_
  rfl

/-! ## Reports of changes -/

theorem Rewrite.Shrinks.changed_iff {m : Method} {r : Rewrite Method}
    (h : r.Shrinks Method.weight m) : r.changed = true ↔ r.node.body ≠ m.body := by
  constructor
  · intro hchanged hbody
    have hless := h.less
    have hweight : r.node.weight = m.weight := congrArg Stmt.weights hbody
    rw [hchanged, Bool.toNat_true] at hless
    omega
  · intro hbody
    by_contra hchanged
    have hsame := h.same (Bool.eq_false_iff.mpr hchanged)
    exact hbody (congrArg Method.body hsame)

/-- Propagation and folding report a change of a method exactly where the body they give is not the
body they were given. -/
theorem changed_iff_body_ne (m : Method) :
    ((propagate m).changed = true ↔ (propagate m).node.body ≠ m.body) ∧
      ∀ r, fold m = .ok r → (r.changed = true ↔ r.node.body ≠ m.body) := by
  refine ⟨(propagate_shrinks m).changed_iff, fun r hfold => ?_⟩
  exact (fold_shrinks hfold).changed_iff

/-- A method in which a store inside a loop is overwritten, and one in front of it stays. -/
def overwrittenInLoop : Method where
  name := "f"
  returnTy := .int
  params := [{ name := "c", ty := .boolean }]
  locals := [⟨"x", .int⟩]
  body := [.assign "x" (.literal (.int 1)),
    .loop (.var "c") (.block [.assign "x" (.literal (.int 2)), .assign "x" (.literal (.int 3))]),
    .ret (some (.binary .add (.var "x") (.paren (.literal (.int 4)))))]

theorem changed_iff_body_ne_overwritten :
    (propagate overwrittenInLoop).node.body ≠ overwrittenInLoop.body ∧
      ∃ r, fold overwrittenInLoop = .ok r ∧ r.node.body ≠ overwrittenInLoop.body := by
  obtain ⟨hpropagated, hfolded⟩ := changed_iff_body_ne overwrittenInLoop
  exact ⟨hpropagated.mp rfl, _, rfl, (hfolded _ rfl).mp rfl⟩

end Constants

end MiniJava
