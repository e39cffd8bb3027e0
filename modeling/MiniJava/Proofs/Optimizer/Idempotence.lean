import MiniJava.Proofs.Optimizer.Weight

/-!
# One pass of propagation is enough

A propagation pass over its own outcome finds no read to replace and no store to remove. The second
pass walks over what the first one left, and between two statements it knows less. `Shadows` says
how much less: whatever it knows of a variable the first pass knew of it too, from a store at least
as deep, and from a deeper one where that store is removed. So a scope never overwrites what the
second pass knows from the same scope, and nothing is known at the end of the body.

A branch or a loop body forgets the same variables in both passes. The last store of a scope to a
variable is never removed unless it is known behind the scope (`assigned_left`).
-/

namespace MiniJava.Constants

open Progress
open Semantics (removeStores_next)

/-! ## What can be removed -/

namespace Progress

variable {m : Method} {depth : Nat} {p : Progress}

theorem removable_store (target : String) (value : Expr) :
    p.removable ⊆ (p.store m depth target value).removable := by
  intro k hk
  cases hd : m.declares target with
  | true => exact (mem_store_removable hd).mpr (.inr hk)
  | false => rwa [store_undeclared hd]

end Progress

mutual

theorem removable_mono (m : Method) : ∀ (s : Stmt) (depth : Nat) (p : Progress),
    p.removable ⊆ (propagateStmt m depth p s).2.removable
  | .assign target value, _, p =>
    removable_store (p := p.note (substExpr p.facts value)) target (substExpr p.facts value).node
  | .ite condition thenBranch elseBranch, depth, p => by
    rw [propagateStmt_ite]
    have hthen := removable_mono m thenBranch (depth + 1) (p.atThen condition)
    have helse := removable_mono m elseBranch (depth + 1) (p.atElse m depth condition thenBranch)
    exact fun k hk => helse (hthen hk)
  | .loop condition body, depth, p => by
    rw [propagateStmt_loop]
    have hbody := removable_mono m body (depth + 1) ((p.atLoop body).atThen condition)
    exact hbody
  | .block body, depth, p => by
    rw [propagateStmt_block]
    exact removable_monoIn m body depth p
  | .arrayAssign .., _, _ | .ret none, _, _ | .ret (some _), _, _ | .expr _, _, _ =>
    fun _ hk => hk

theorem removable_monoIn (m : Method) : ∀ (body : List Stmt) (depth : Nat) (p : Progress),
    p.removable ⊆ (propagateStmts m depth p body).2.removable
  | [], _, _ => fun _ hk => hk
  | s :: rest, depth, p => by
    rw [propagateStmts_cons]
    exact fun k hk => removable_monoIn m rest depth _ (removable_mono m s depth p hk)

end

/-! ## What is assigned -/

theorem assignedIn_single (s : Stmt) : assignedIn [s] = assigned s :=
  List.append_nil (assigned s)

theorem assigned_getD (left : Option Stmt) :
    assigned (left.getD (.block [])) = assignedIn left.toList := by
  cases left with
  | none => rfl
  | some s => exact (assignedIn_single s).symm

theorem assignedIn_append (a b : List Stmt) :
    assignedIn (a ++ b) = assignedIn a ++ assignedIn b := by
  induction a with
  | nil => rfl
  | cons s rest ih => rw [List.cons_append, assignedIn, assignedIn, ih, List.append_assoc]

namespace Progress

/-- A branch or loop body from one state to another, behind which some facts are known, with the
stores to remove in sight. -/
structure Encloses (removable : List Nat) (facts : Facts) (p q : Progress) : Prop where
  covers : Covers removable q
  before : Covers removable { p with facts }
  kept : ∀ a ∈ q.facts, p.nextStore ≤ a.2.store → a.2.store ∉ removable

theorem Advances.encloses {m : Method} {depth : Nat} {p q : Progress} {names : List String}
    {facts : Facts} {removable : List Nat} (h : Advances m (depth + 1) names p q)
    (hp : p.Good m depth) (hsub : ∀ a ∈ facts, a ∈ p.facts ∧ a.1 ∉ names)
    (hcovers : Covers removable { q with facts }) : Encloses removable facts p q where
  covers := hcovers.know fun a ha => h.keeps a (hsub a ha).1 (hsub a ha).2
  before := hcovers.back_inside hp h
  kept a ha hinside hremoved := by
    rcases hcovers _ hremoved (h.good.fresh a ha) with hk | ⟨b, hb, hstore⟩
    · exact h.good.kept a ha hk
    · have hlt := hp.fresh b (hsub b hb).1
      omega

end Progress

theorem Facts.known_behind {facts : Facts} {names names' : List String} {a : String × Known}
    (h : a ∈ facts.forgetAll (names ++ names')) :
    a ∈ facts ∧ a.1 ∉ names ∧ a.1 ∉ names' := by
  rwa [mem_forgetAll, List.mem_append, not_or] at h

/-- Some of the facts about a variable that a store since the given one left, when that store is
removed. -/
def Facts.Hides (facts : Facts) (removable : List Nat) (next : Nat) (name : String) : Prop :=
  ∃ a ∈ facts, a.1 = name ∧ a.2.store ∈ removable ∧ next ≤ a.2.store

theorem Facts.not_hides {m : Method} {depth : Nat} {p : Progress} {facts : Facts}
    {removable : List Nat} {name : String} (hp : p.Good m depth)
    (hsub : ∀ a ∈ facts, a ∈ p.facts) : ¬ facts.Hides removable p.nextStore name := by
  rintro ⟨a, ha, _, _, hlater⟩
  exact Nat.not_lt.mpr hlater (hp.fresh a (hsub a ha))

section Assigned

variable {m : Method} {removable : List Nat}

theorem assign_left {target : String} {value : Expr} {depth : Nat} {p : Progress}
    (hp : p.Good m depth)
    (hcovers : Covers removable (propagateStmt m depth p (.assign target value)).2) :
    target ∈ assignedIn (removeStores removable p.nextStore
        (propagateStmt m depth p (.assign target value)).1).1.toList ∨
      (propagateStmt m depth p (.assign target value)).2.facts.Hides removable p.nextStore
        target := by
  have hq : (p.note (substExpr p.facts value)).Good m depth := hp.note _
  show target ∈ assignedIn (if removable.contains p.nextStore then none
      else some (Stmt.assign target (substExpr p.facts value).node)).toList ∨
    (Progress.store _ m depth target _).facts.Hides removable p.nextStore target
  by_cases hremoved : p.nextStore ∈ removable
  · obtain ⟨hd, l, hl⟩ := Semantics.Agree.removed_store hq hcovers hremoved
    refine .inr ⟨(target, ⟨l, p.nextStore, depth⟩), ?_, rfl, hremoved, Nat.le_refl _⟩
    exact (mem_store_facts hd).mpr (.inl ⟨l, hl, rfl⟩)
  · rw [if_neg fun hin => hremoved (List.contains_iff_mem.mp hin)]
    exact .inl List.mem_cons_self

mutual

/-- A variable that a statement assigns is assigned by what is left of the statement, or it is known
from a store that is removed. -/
theorem assigned_left : ∀ (s : Stmt) {depth : Nat} {p : Progress}, p.Good m depth →
    Covers removable (propagateStmt m depth p s).2 → ∀ name ∈ assigned s,
      name ∈ assignedIn
          (removeStores removable p.nextStore (propagateStmt m depth p s).1).1.toList ∨
        (propagateStmt m depth p s).2.facts.Hides removable p.nextStore name
  | .assign target value, depth, p, hp, hcovers, name, hname => by
    rw [assigned, List.mem_singleton] at hname
    rw [hname]
    exact assign_left hp hcovers
  | .ite condition thenBranch elseBranch, depth, p, hp, hcovers, name, hname => by
    rw [propagateStmt_ite] at hcovers ⊢
    rw [removeStores_ite]
    have hthen := propagateStmt_advances thenBranch (hp.atThen condition).deepen
    have hgood := (hp.atElse hthen).good
    have helse := propagateStmt_advances elseBranch hgood.deepen
    have hinElse := helse.encloses hgood
      (fun a ha => (Facts.known_behind ha).imp_right And.right) hcovers
    have hinThen := hthen.encloses (hp.atThen condition)
      (fun a ha => (Facts.known_behind ha).imp_right And.left) hinElse.before
    have hnext := removeStores_next m removable thenBranch (depth + 1) (p.atThen condition)
    refine .inl ?_
    show name ∈ assignedIn [_]
    rw [assignedIn_single, assigned, List.mem_append, assigned_getD, assigned_getD]
    rw [assigned, List.mem_append] at hname
    refine hname.imp (fun hname => ?_) fun hname => ?_
    · refine (assigned_left thenBranch (hp.atThen condition).deepen hinThen.covers name
        hname).resolve_right ?_
      rintro ⟨a, ha, _, hremoved, hinside⟩
      exact hinThen.kept a ha hinside hremoved
    · have hleft := assigned_left elseBranch hgood.deepen hinElse.covers name hname
      rw [show (p.atElse m depth condition thenBranch).nextStore = _ from hnext.symm] at hleft
      refine hleft.resolve_right ?_
      rintro ⟨a, ha, _, hremoved, hinside⟩
      rw [hnext] at hinside
      exact hinElse.kept a ha hinside hremoved
  | .loop condition body, depth, p, hp, hcovers, name, hname => by
    rw [propagateStmt_loop] at hcovers ⊢
    rw [removeStores_loop]
    have hgood := (hp.atLoop body).good.atThen condition
    have hbody := propagateStmt_advances body hgood.deepen
    have hinside := hbody.encloses hgood (fun a ha => ⟨ha, (Facts.mem_forgetAll.mp ha).2⟩) hcovers
    refine .inl ?_
    show name ∈ assignedIn [_]
    rw [assignedIn_single, assigned, assigned_getD]
    rw [assigned] at hname
    refine (assigned_left body hgood.deepen hinside.covers name hname).resolve_right ?_
    rintro ⟨a, ha, _, hremoved, hlater⟩
    exact hinside.kept a ha hlater hremoved
  | .block body, depth, p, hp, hcovers, name, hname => by
    rw [propagateStmt_block] at hcovers ⊢
    rw [removeStores_block]
    have hleft := assignedIn_left body hp hcovers name hname
    refine hleft.imp_left fun hleft => ?_
    show name ∈ assignedIn [_]
    rwa [assignedIn_single, assigned]
  | .arrayAssign .., _, _, _, _, _, hname | .ret _, _, _, _, _, _, hname
  | .expr _, _, _, _, _, _, hname => nomatch hname

theorem assignedIn_left : ∀ (body : List Stmt) {depth : Nat} {p : Progress}, p.Good m depth →
    Covers removable (propagateStmts m depth p body).2 → ∀ name ∈ assignedIn body,
      name ∈ assignedIn
          (removeStoresIn removable p.nextStore (propagateStmts m depth p body).1).1 ∨
        (propagateStmts m depth p body).2.facts.Hides removable p.nextStore name
  | s :: rest, depth, p, hp, hcovers, name, hname => by
    rw [propagateStmts_cons] at hcovers ⊢
    rw [removeStoresIn_cons, assignedIn_append, List.mem_append]
    have hs := propagateStmt_advances s hp
    have hrest := propagateStmts_advances rest hs.good
    rw [removeStores_next m removable s depth p]
    -- A store further on is the one that counts: it is not followed by the one in front.
    by_cases hlater : name ∈ assignedIn rest
    · refine (assignedIn_left rest hs.good hcovers name hlater).imp .inr ?_
      rintro ⟨a, ha, haname, hremoved, hinside⟩
      exact ⟨a, ha, haname, hremoved, Nat.le_trans hs.next_le hinside⟩
    · rw [assignedIn, List.mem_append] at hname
      refine (assigned_left s hp (hcovers.back hrest) name (hname.resolve_right hlater)).imp
        .inl ?_
      rintro ⟨a, ha, rfl, hremoved, hinside⟩
      exact ⟨a, hrest.keeps a ha hlater, rfl, hremoved, hinside⟩

end

end Assigned

/-! ## Facts of the second pass -/

namespace Facts

theorem lookup_filter (keep : String → Bool) (name : String) : ∀ (facts : Facts),
    (facts.filter fun a => keep a.1).lookup name =
      if keep name then facts.lookup name else none
  | [] => (ite_self none).symm
  | (other, known) :: rest => by
    have ih := lookup_filter keep name rest
    by_cases hname : name = other
    · subst hname
      cases hkeep : keep name with
      | true => simp [hkeep]
      | false => simpa [hkeep] using ih
    · have hne : (name == other) = false := beq_false_of_ne hname
      rw [List.lookup_cons, hne, ← ih, List.filter_cons]
      dsimp only
      split
      · rw [List.lookup_cons, hne]
      · rfl

theorem lookup_forget_of_ne (facts : Facts) {name other : String} (h : other ≠ name) :
    (facts.forget name).lookup other = facts.lookup other := by
  rw [forget, lookup_filter (· != name), if_pos (by simpa using h)]

theorem lookup_forgetAll (facts : Facts) (names : List String) (name : String) :
    (facts.forgetAll names).lookup name = if name ∈ names then none else facts.lookup name := by
  rw [forgetAll, lookup_filter (!names.contains ·)]
  by_cases h : name ∈ names <;> simp [h]

end Facts

/-- How the facts of a pass are related to those of a second pass over what the first one leaves,
at the same place: the second one knows less, and whatever it knows of a variable comes from
a scope farther out where the first one knows it from a store that is removed. -/
def Shadows (removable : List Nat) (facts facts' : Facts) : Prop :=
  ∀ name known', facts'.lookup name = some known' → ∃ known, facts.lookup name = some known ∧
    known'.depth ≤ known.depth ∧ (known.store ∈ removable → known'.depth < known.depth)

namespace Progress

variable {m : Method} {depth : Nat} {p : Progress} {target : String}

theorem lookup_store_literal (h : m.declares target) {l : Literal} :
    (p.store m depth target (.literal l)).facts.lookup target =
      some ⟨l, p.nextStore, depth⟩ := by
  rw [store, if_pos h]
  exact List.lookup_cons_self

theorem lookup_store_of_ne {name : String} (h : name ≠ target) {value : Expr} :
    (p.store m depth target value).facts.lookup name = p.facts.lookup name := by
  have hrest := Facts.lookup_forget_of_ne p.facts h
  rw [store]
  split
  · cases value with
    | literal l =>
      rw [← hrest]
      exact List.lookup_cons.trans (by rw [beq_false_of_ne h])
    | _ => exact hrest
  · rfl

end Progress

namespace Shadows

variable {m : Method} {removable : List Nat} {facts facts' : Facts}

theorem unknown (h : Shadows removable facts facts') {name : String}
    (hname : facts.lookup name = none) : facts'.lookup name = none := by
  cases hname' : facts'.lookup name with
  | none => rfl
  | some known' =>
    obtain ⟨known, hknown, _⟩ := h name known' hname'
    rw [hname] at hknown
    cases hknown

theorem forgetAll (h : Shadows removable facts facts') {names names' : List String}
    (hnames : ∀ name ∈ names, name ∈ names') :
    Shadows removable (facts.forgetAll names) (facts'.forgetAll names') := by
  intro name known' hknown'
  rw [Facts.lookup_forgetAll] at hknown' ⊢
  by_cases hname : name ∈ names'
  · rw [if_pos hname] at hknown'
    cases hknown'
  · rw [if_neg hname] at hknown'
    rw [if_neg fun hin => hname (hnames name hin)]
    exact h name known' hknown'

variable {depth : Nat} {p q : Progress} {target : String} {value : Expr}

/-- What a store overwrites is known to the second pass from farther out. -/
theorem overwritten (h : Shadows removable p.facts q.facts) (hp : p.Good m depth)
    (hd : m.declares target) (hsub : (p.store m depth target value).removable ⊆ removable)
    {known' : Known} (hknown' : q.facts.lookup target = some known') : known'.depth < depth := by
  obtain ⟨known, hknown, hle, hlt⟩ := h target known' hknown'
  have hshallow := hp.shallow _ (Facts.mem_of_lookup hknown)
  by_cases hdepth : known.depth = depth
  · have hdead : known.store ∈ (p.facts.deadStore? target depth).toList := by
      rw [Facts.deadStore?, hknown, Option.bind_some, if_pos hdepth]
      exact List.mem_singleton_self _
    have hremoved := hlt (hsub ((mem_store_removable hd).mpr (.inl hdead)))
    omega
  · have hne : known.depth < depth := Nat.lt_of_le_of_ne hshallow hdepth
    omega

theorem skip (h : Shadows removable p.facts q.facts) (hp : p.Good m depth) (hd : m.declares target)
    {l : Literal} (hsub : (p.store m depth target (.literal l)).removable ⊆ removable) :
    Shadows removable (p.store m depth target (.literal l)).facts q.facts := by
  intro name known' hknown'
  by_cases hname : name = target
  · subst hname
    have hlt := h.overwritten hp hd hsub hknown'
    exact ⟨_, lookup_store_literal hd, Nat.le_of_lt hlt, fun _ => hlt⟩
  · rw [lookup_store_of_ne hname]
    exact h name known' hknown'

theorem store (h : Shadows removable p.facts q.facts) (hkept : p.nextStore ∉ removable) :
    Shadows removable (p.store m depth target value).facts
      (q.store m depth target value).facts := by
  intro name known' hknown'
  by_cases hname : name = target
  · subst hname
    cases hd : m.declares name with
    | true =>
      rcases (mem_store_facts hd).mp (Facts.mem_of_lookup hknown') with ⟨l, rfl, heq⟩ | ⟨_, hne⟩
      · cases heq
        exact ⟨_, lookup_store_literal hd, Nat.le_refl _, fun hremoved => absurd hremoved hkept⟩
      · exact absurd rfl hne
    | false =>
      rw [store_undeclared hd] at hknown' ⊢
      exact h name known' hknown'
  · rw [lookup_store_of_ne hname] at hknown' ⊢
    exact h name known' hknown'

theorem store_removable (h : Shadows removable p.facts q.facts) (hp : p.Good m depth)
    (hsub : (p.store m depth target value).removable ⊆ removable) :
    (q.store m depth target value).removable = q.removable := by
  cases hd : m.declares target with
  | true =>
    have hdead : q.facts.deadStore? target depth = none := by
      rw [Facts.deadStore?]
      cases hknown' : q.facts.lookup target with
      | none => rfl
      | some known' => exact if_neg (Nat.ne_of_lt (h.overwritten hp hd hsub hknown'))
    rw [Progress.store, if_pos hd, hdead]
    rfl
  | false => rw [store_undeclared hd]

end Shadows

/-! ## The second pass -/

section Again

variable {facts facts' : Facts}

mutual

theorem substExpr_again (h : ∀ name, facts.lookup name = none → facts'.lookup name = none) :
    ∀ e : Expr, substExpr facts' (substExpr facts e).node = ⟨(substExpr facts e).node, false⟩
  | .var name => by
    rw [substExpr]
    cases hname : facts.lookup name with
    | some known => rfl
    | none =>
      show substExpr facts' (.var name) = _
      rw [substExpr, h name hname]
  | .literal _ | .self | .newObject _ => rfl
  | .paren inner => by simp only [substExpr, Rewrite.map, substExpr_again h inner]
  | .not operand => by simp only [substExpr, Rewrite.map, substExpr_again h operand]
  | .binary _ left right => by
    simp only [substExpr, Rewrite.map₂, substExpr_again h left, substExpr_again h right,
      Bool.or_self]
  | .newArray _ size => by simp only [substExpr, Rewrite.map, substExpr_again h size]
  | .arrayLiteral elements => by simp only [substExpr, Rewrite.map, substExprs_again h elements]
  | .index array index => by
    simp only [substExpr, Rewrite.map₂, substExpr_again h array, substExpr_again h index,
      Bool.or_self]
  | .length array => by simp only [substExpr, Rewrite.map, substExpr_again h array]
  | .call target _ args => by
    simp only [substExpr, Rewrite.map₂, substExpr_again h target, substExprs_again h args,
      Bool.or_self]

theorem substExprs_again (h : ∀ name, facts.lookup name = none → facts'.lookup name = none) :
    ∀ es : List Expr,
      substExprs facts' (substExprs facts es).node = ⟨(substExprs facts es).node, false⟩
  | [] => rfl
  | e :: rest => by
    simp only [substExprs, Rewrite.map₂, substExpr_again h e, substExprs_again h rest, Bool.or_self]

end

end Again

/-- A second pass goes from one state to another without anything to replace or remove, and ends up
with less known than the first one. -/
structure Unmoved (removable : List Nat) (facts : Facts) (q q' : Progress) : Prop where
  removes : q'.removable = q.removable
  replaces : q'.replaced = q.replaced
  shadows : Shadows removable facts q'.facts

/-- A second pass over what is left of statements leaves all of it. -/
def Repeats (m : Method) (depth : Nat) (removable : List Nat) (facts : Facts) (q : Progress)
    (left : List Stmt) : Prop :=
  ∃ q', propagateStmts m depth q left = (left, q') ∧ Unmoved removable facts q q'

section Repeats

variable {m : Method} {depth : Nat} {removable : List Nat} {facts facts' : Facts} {q q' : Progress}

theorem propagateStmts_append (m : Method) (depth : Nat) : ∀ (a b : List Stmt) (p : Progress),
    propagateStmts m depth p (a ++ b) =
      ((propagateStmts m depth p a).1 ++
          (propagateStmts m depth (propagateStmts m depth p a).2 b).1,
        (propagateStmts m depth (propagateStmts m depth p a).2 b).2)
  | [], _, _ => rfl
  | s :: rest, b, p => by
    rw [List.cons_append, propagateStmts_cons, propagateStmts_append m depth rest b,
      propagateStmts_cons]
    rfl

theorem Unmoved.trans {q'' : Progress} (h : Unmoved removable facts q q')
    (h' : Unmoved removable facts' q' q'') : Unmoved removable facts' q q'' :=
  ⟨h'.removes.trans h.removes, h'.replaces.trans h.replaces, h'.shadows⟩

theorem Repeats.nil (h : Shadows removable facts q.facts) :
    Repeats m depth removable facts q [] :=
  ⟨q, rfl, rfl, rfl, h⟩

theorem Repeats.single {s : Stmt} {r : Progress} (h : propagateStmt m depth q s = (s, r))
    (hunmoved : Unmoved removable facts q r) : Repeats m depth removable facts q [s] := by
  refine ⟨r, ?_, hunmoved⟩
  rw [propagateStmts_cons, h]
  rfl

theorem Repeats.append {a b : List Stmt} (ha : Repeats m depth removable facts q a)
    (hb : ∀ q', Shadows removable facts q'.facts → Repeats m depth removable facts' q' b) :
    Repeats m depth removable facts' q (a ++ b) := by
  obtain ⟨q₁, hpassed, hunmoved⟩ := ha
  obtain ⟨q₂, hpassed', hunmoved'⟩ := hb q₁ hunmoved.shadows
  refine ⟨q₂, ?_, hunmoved.trans hunmoved'⟩
  rw [propagateStmts_append, hpassed, hpassed']

theorem Repeats.branch {left : Option Stmt}
    (h : Repeats m depth removable facts q left.toList) :
    ∃ q', propagateStmt m depth q (left.getD (.block [])) = (left.getD (.block []), q') ∧
      Unmoved removable facts q q' := by
  obtain ⟨q', hpassed, hunmoved⟩ := h
  cases left with
  | none =>
    cases hpassed
    exact ⟨q, rfl, hunmoved⟩
  | some s =>
    rw [Option.toList, propagateStmts_cons] at hpassed
    obtain ⟨hs, hq⟩ := Prod.mk.inj hpassed
    exact ⟨q', Prod.ext (List.cons.inj hs).1 hq, hunmoved⟩

theorem Repeats.ite {condition : Expr} {thenPart elsePart : Stmt} {thenFacts elseFacts : Facts}
    {q₁ q₂ : Progress} (hcondition : substExpr q.facts condition = ⟨condition, false⟩)
    (hthen : propagateStmt m (depth + 1) q thenPart = (thenPart, q₁))
    (hunmoved₁ : Unmoved removable thenFacts q q₁)
    (helse : propagateStmt m (depth + 1) { q₁ with facts := q.facts } elsePart = (elsePart, q₂))
    (hunmoved₂ : Unmoved removable elseFacts { q₁ with facts := q.facts } q₂)
    (hshadows : Shadows removable facts
      (q.facts.forgetAll (assigned thenPart ++ assigned elsePart))) :
    Repeats m depth removable facts q [.ite condition thenPart elsePart] := by
  have hstart : q.atThen condition = q := by
    rw [Progress.atThen, hcondition, Progress.note, Bool.or_false]
  refine .single (r := { q₂ with
    facts := q.facts.forgetAll (assigned thenPart ++ assigned elsePart) }) ?_
    ⟨hunmoved₂.removes.trans hunmoved₁.removes, hunmoved₂.replaces.trans hunmoved₁.replaces,
      hshadows⟩
  rw [propagateStmt_ite, Progress.atElse, hstart, hthen, helse, hcondition]

theorem Repeats.loop {condition : Expr} {body : Stmt} {bodyFacts : Facts} {q₁ : Progress}
    (hcondition : substExpr (q.atLoop body).facts condition = ⟨condition, false⟩)
    (hbody : propagateStmt m (depth + 1) (q.atLoop body) body = (body, q₁))
    (hunmoved : Unmoved removable bodyFacts (q.atLoop body) q₁)
    (hshadows : Shadows removable facts (q.atLoop body).facts) :
    Repeats m depth removable facts q [.loop condition body] := by
  have hstart : (q.atLoop body).atThen condition = q.atLoop body := by
    rw [Progress.atThen, hcondition, Progress.note, Bool.or_false]
  refine .single (r := { q₁ with facts := (q.atLoop body).facts }) ?_
    ⟨hunmoved.removes, hunmoved.replaces, hshadows⟩
  rw [propagateStmt_loop, hstart, hbody, hcondition]

end Repeats

section Again

variable {m : Method} {removable : List Nat} {b : List Stmt}

theorem Shadows.note {facts : Facts} {q : Progress} (h : Shadows removable facts q.facts)
    (e : Expr) : q.note (substExpr q.facts (substExpr facts e).node) = q := by
  rw [substExpr_again (fun _ => h.unknown) e, Progress.note, Bool.or_false]

theorem assign_again {target : String} {value : Expr} {depth : Nat} {p q : Progress}
    (hp : p.Good m depth)
    (hcovers : Covers removable (propagateStmt m depth p (.assign target value)).2)
    (hsub : (propagateStmt m depth p (.assign target value)).2.removable ⊆ removable)
    (h : Shadows removable p.facts q.facts) :
    Repeats { m with body := b } depth removable
      (propagateStmt m depth p (.assign target value)).2.facts q
      (removeStores removable p.nextStore
        (propagateStmt m depth p (.assign target value)).1).1.toList := by
  have hq : (p.note (substExpr p.facts value)).Good m depth := hp.note _
  have hshadows : Shadows removable (p.note (substExpr p.facts value)).facts q.facts := h
  show Repeats { m with body := b } depth removable (Progress.store _ m depth target _).facts q
    (if removable.contains p.nextStore then none
      else some (Stmt.assign target (substExpr p.facts value).node)).toList
  by_cases hremoved : p.nextStore ∈ removable
  · rw [if_pos (List.contains_iff_mem.mpr hremoved)]
    obtain ⟨hd, l, hl⟩ := Semantics.Agree.removed_store hq hcovers hremoved
    have hsub' : ((p.note (substExpr p.facts value)).store m depth target
      (substExpr p.facts value).node).removable ⊆ removable := hsub
    rw [hl] at hsub' ⊢
    exact .nil (hshadows.skip hq hd hsub')
  · rw [if_neg fun hin => hremoved (List.contains_iff_mem.mp hin)]
    have hagain : propagateStmt { m with body := b } depth q
          (.assign target (substExpr p.facts value).node) =
        (.assign target (substExpr p.facts value).node,
          q.store m depth target (substExpr p.facts value).node) := by
      rw [propagateStmt, h.note value, substExpr_again (fun _ => h.unknown) value]
      rfl
    exact .single hagain ⟨hshadows.store_removable hq hsub, store_replaced, hshadows.store hremoved⟩

mutual

/-- What the first pass leaves of a statement is all left by a second one. -/
theorem propagateStmt_again : ∀ (s : Stmt) {depth : Nat} {p q : Progress}, p.Good m depth →
    Covers removable (propagateStmt m depth p s).2 →
    (propagateStmt m depth p s).2.removable ⊆ removable → Shadows removable p.facts q.facts →
    Repeats { m with body := b } depth removable (propagateStmt m depth p s).2.facts q
      (removeStores removable p.nextStore (propagateStmt m depth p s).1).1.toList
  | .assign target value, _, _, _, hp, hcovers, hsub, h => assign_again hp hcovers hsub h
  | .arrayAssign target index value, depth, p, q, hp, hcovers, hsub, h => by
    refine .single (r := q) ?_ ⟨rfl, rfl, h⟩
    rw [propagateStmt, substExpr_again (fun _ => h.unknown) index,
      substExpr_again (fun _ => h.unknown) value, Progress.note]
    exact congrArg (Prod.mk _) (congrArg (Progress.mk _ _ _) (Bool.or_false _))
  | .ite condition thenBranch elseBranch, depth, p, q, hp, hcovers, hsub, h => by
    rw [propagateStmt_ite] at hcovers hsub ⊢
    rw [removeStores_ite]
    have hthen := propagateStmt_advances thenBranch (hp.atThen condition).deepen
    have hgood := (hp.atElse hthen).good
    have helse := propagateStmt_advances elseBranch hgood.deepen
    have hinElse := helse.encloses hgood
      (fun a ha => (Facts.known_behind ha).imp_right And.right) hcovers
    have hinThen := hthen.encloses (hp.atThen condition)
      (fun a ha => (Facts.known_behind ha).imp_right And.left) hinElse.before
    have hnext := removeStores_next m removable thenBranch (depth + 1) (p.atThen condition)
    have hgrown := removable_mono m elseBranch (depth + 1) (p.atElse m depth condition thenBranch)
    obtain ⟨q₁, hthen₁, hunmoved₁⟩ := Repeats.branch (propagateStmt_again (q := q) thenBranch
      (hp.atThen condition).deepen hinThen.covers (fun k hk => hsub (hgrown hk)) h)
    obtain ⟨q₂, helse₂, hunmoved₂⟩ := Repeats.branch (propagateStmt_again
      (q := { q₁ with facts := q.facts }) elseBranch hgood.deepen hinElse.covers hsub h)
    rw [show (p.atElse m depth condition thenBranch).nextStore = _ from hnext.symm] at helse₂
    have hassigned := fun name hname =>
      (assigned_left (.ite condition thenBranch elseBranch) hp hcovers name hname).resolve_right
        (Facts.not_hides hp fun a ha => (Facts.known_behind ha).1)
    refine .ite (substExpr_again (fun _ => h.unknown) condition) hthen₁ hunmoved₁ helse₂ hunmoved₂
      (h.forgetAll fun name hname => ?_)
    have hleft := hassigned name hname
    rwa [propagateStmt_ite, removeStores_ite, Option.toList, assignedIn_single, assigned] at hleft
  | .loop condition body, depth, p, q, hp, hcovers, hsub, h => by
    rw [propagateStmt_loop] at hcovers hsub ⊢
    rw [removeStores_loop]
    have hgood := (hp.atLoop body).good.atThen condition
    have hbody := propagateStmt_advances body hgood.deepen
    have hinside := hbody.encloses hgood (fun a ha => ⟨ha, (Facts.mem_forgetAll.mp ha).2⟩) hcovers
    have hassigned := fun name hname =>
      (assigned_left (.loop condition body) hp hcovers name hname).resolve_right
        (Facts.not_hides hp fun a ha => (Facts.mem_forgetAll.mp ha).1)
    rw [propagateStmt_loop, removeStores_loop, Option.toList, assignedIn_single,
      assigned] at hassigned
    have hshadows := h.forgetAll hassigned
    obtain ⟨q₁, hbody₁, hunmoved⟩ := Repeats.branch (propagateStmt_again (q := q.atLoop _) body
      hgood.deepen hinside.covers hsub hshadows)
    exact .loop (substExpr_again (fun _ => hshadows.unknown) condition) hbody₁ hunmoved hshadows
  | .block body, depth, p, q, hp, hcovers, hsub, h => by
    rw [propagateStmt_block] at hcovers hsub ⊢
    rw [removeStores_block]
    obtain ⟨q', hpassed, hunmoved⟩ := propagateStmts_again body hp hcovers hsub h
    refine .single ?_ hunmoved
    rw [propagateStmt_block, hpassed]
  | .ret none, depth, p, q, hp, hcovers, hsub, h => .single rfl ⟨rfl, rfl, h⟩
  | .ret (some value), depth, p, q, hp, hcovers, hsub, h => by
    refine .single (r := q) ?_ ⟨rfl, rfl, h⟩
    rw [propagateStmt, h.note value, substExpr_again (fun _ => h.unknown) value]
  | .expr value, depth, p, q, hp, hcovers, hsub, h => by
    refine .single (r := q) ?_ ⟨rfl, rfl, h⟩
    rw [propagateStmt, h.note value, substExpr_again (fun _ => h.unknown) value]

theorem propagateStmts_again : ∀ (body : List Stmt) {depth : Nat} {p q : Progress},
    p.Good m depth → Covers removable (propagateStmts m depth p body).2 →
    (propagateStmts m depth p body).2.removable ⊆ removable → Shadows removable p.facts q.facts →
    Repeats { m with body := b } depth removable (propagateStmts m depth p body).2.facts q
      (removeStoresIn removable p.nextStore (propagateStmts m depth p body).1).1
  | [], _, _, _, _, _, _, h => .nil h
  | s :: rest, depth, p, q, hp, hcovers, hsub, h => by
    rw [propagateStmts_cons] at hcovers hsub ⊢
    rw [removeStoresIn_cons]
    have hs := propagateStmt_advances s hp
    have hrest := propagateStmts_advances rest hs.good
    have hgrown := removable_monoIn m rest depth (propagateStmt m depth p s).2
    rw [removeStores_next m removable s depth p]
    exact .append
      (propagateStmt_again s hp (hcovers.back hrest) (fun k hk => hsub (hgrown hk)) h)
      fun q' hq' => propagateStmts_again rest hs.good hcovers hsub hq'

end

end Again

/-! ## Methods -/

/-- Behind a body the second pass knows nothing: what the first one knows there is removed. -/
theorem Shadows.nothing {m : Method} {p : Progress} {removable : List Nat} {facts : Facts}
    (h : Shadows removable p.facts facts) (hp : p.Good m 0)
    (hsub : p.facts.outermostStores ⊆ removable) : facts = [] := by
  refine List.eq_nil_iff_forall_not_mem.mpr fun a ha => ?_
  cases hlookup : facts.lookup a.1 with
  | none => exact Facts.not_mem_of_lookup hlookup a ha rfl
  | some known' =>
    obtain ⟨known, hknown, _, hlt⟩ := h a.1 known' hlookup
    have hmem := Facts.mem_of_lookup hknown
    have hdepth : known.depth = 0 := Nat.le_zero.mp (hp.shallow _ hmem)
    have houtermost : known.store ∈ p.facts.outermostStores :=
      List.mem_filterMap.mpr ⟨_, hmem, if_pos hdepth⟩
    have := hlt (hsub houtermost)
    omega

theorem propagate_unmoved (m : Method) : (propagate (propagate m).node).changed = false := by
  have hp := Progress.Good.start m 0
  have hadvances := propagateStmts_advances m.body hp
  obtain ⟨q, hpassed, hunmoved⟩ := propagateStmts_again (q := {})
    (b := (propagate m).node.body) m.body hp (covers_outermost _)
    (fun k hk => List.mem_append_right _ hk) nofun
  have hfacts : q.facts = [] :=
    hunmoved.shadows.nothing hadvances.good fun k hk => List.mem_append_left _ hk
  have hremovable : q.facts.outermostStores ++ q.removable = [] := by
    rw [hfacts, hunmoved.removes]
    rfl
  have hreplaced : q.replaced = false := hunmoved.replaces
  rw [propagate_of_passed (m := (propagate m).node) hpassed, hremovable, hreplaced]
  rfl

/-- One pass is enough: propagation over what a pass leaves changes nothing, and says so. -/
theorem propagate_again (m : Method) :
    propagate (propagate m).node = ⟨(propagate m).node, false⟩ :=
  (propagate_shrinks (propagate m).node).eq_of_unchanged (propagate_unmoved m)

end MiniJava.Constants
