import MiniJava.Constants.Propagation

/-!
# What a propagation pass knows

The invariant of the state that a propagation pass carries from statement to statement, and what a
statement does to it. Stores are numbered upwards, a store that is still known is not among those to
remove, and inside a branch or a loop only the stores made there can become removable.

At the end of the pass the stores to remove are fixed. `Covers` says of an earlier state that it has
not lost sight of any of them: whoever is to be removed and was already seen is either removable
there or still known.
-/

namespace MiniJava.Constants

/-! ## Equations -/

/-- The state in front of the first branch of a conditional. -/
def Progress.atThen (p : Progress) (condition : Expr) : Progress :=
  p.note (substExpr p.facts condition)

/-- The state in front of the second branch: what was known before the conditional is known. -/
def Progress.atElse (p : Progress) (m : Method) (depth : Nat) (condition : Expr)
    (thenBranch : Stmt) : Progress :=
  { (propagateStmt m (depth + 1) (p.atThen condition) thenBranch).2 with facts := p.facts }

/-- The state in front of a loop, where nothing is known of what it assigns. -/
def Progress.atLoop (p : Progress) (body : Stmt) : Progress :=
  { p with facts := p.facts.forgetAll (assigned body) }

theorem propagateStmt_ite (m : Method) (depth : Nat) (p : Progress) (condition : Expr)
    (thenBranch elseBranch : Stmt) :
    propagateStmt m depth p (.ite condition thenBranch elseBranch) =
      (.ite (substExpr p.facts condition).node
          (propagateStmt m (depth + 1) (p.atThen condition) thenBranch).1
          (propagateStmt m (depth + 1) (p.atElse m depth condition thenBranch) elseBranch).1,
        { (propagateStmt m (depth + 1) (p.atElse m depth condition thenBranch) elseBranch).2 with
          facts := p.facts.forgetAll (assigned thenBranch ++ assigned elseBranch) }) :=
  rfl

theorem propagateStmt_loop (m : Method) (depth : Nat) (p : Progress) (condition : Expr)
    (body : Stmt) :
    propagateStmt m depth p (.loop condition body) =
      (.loop (substExpr (p.atLoop body).facts condition).node
          (propagateStmt m (depth + 1) ((p.atLoop body).atThen condition) body).1,
        { (propagateStmt m (depth + 1) ((p.atLoop body).atThen condition) body).2 with
          facts := (p.atLoop body).facts }) :=
  rfl

theorem propagateStmt_block (m : Method) (depth : Nat) (p : Progress) (body : List Stmt) :
    propagateStmt m depth p (.block body) =
      (.block (propagateStmts m depth p body).1, (propagateStmts m depth p body).2) :=
  rfl

theorem propagateStmts_cons (m : Method) (depth : Nat) (p : Progress) (s : Stmt)
    (rest : List Stmt) :
    propagateStmts m depth p (s :: rest) =
      ((propagateStmt m depth p s).1 ::
          (propagateStmts m depth (propagateStmt m depth p s).2 rest).1,
        (propagateStmts m depth (propagateStmt m depth p s).2 rest).2) :=
  rfl

theorem removeStores_ite (removable : List Nat) (next : Nat) (condition : Expr)
    (thenBranch elseBranch : Stmt) :
    removeStores removable next (.ite condition thenBranch elseBranch) =
      (some (.ite condition ((removeStores removable next thenBranch).1.getD (.block []))
          ((removeStores removable (removeStores removable next thenBranch).2
            elseBranch).1.getD (.block []))),
        (removeStores removable (removeStores removable next thenBranch).2 elseBranch).2) :=
  rfl

theorem removeStores_loop (removable : List Nat) (next : Nat) (condition : Expr) (body : Stmt) :
    removeStores removable next (.loop condition body) =
      (some (.loop condition ((removeStores removable next body).1.getD (.block []))),
        (removeStores removable next body).2) :=
  rfl

theorem removeStores_block (removable : List Nat) (next : Nat) (body : List Stmt) :
    removeStores removable next (.block body) =
      (some (.block (removeStoresIn removable next body).1),
        (removeStoresIn removable next body).2) :=
  rfl

theorem removeStoresIn_cons (removable : List Nat) (next : Nat) (s : Stmt) (rest : List Stmt) :
    removeStoresIn removable next (s :: rest) =
      ((removeStores removable next s).1.toList ++
          (removeStoresIn removable (removeStores removable next s).2 rest).1,
        (removeStoresIn removable (removeStores removable next s).2 rest).2) :=
  rfl

/-! ## Facts as a list -/

namespace Facts

variable {facts : Facts} {name : String} {names : List String} {a : String × Known}

theorem mem_forget : a ∈ facts.forget name ↔ a ∈ facts ∧ a.1 ≠ name := by
  rw [forget, List.mem_filter]
  simp

theorem mem_forgetAll : a ∈ facts.forgetAll names ↔ a ∈ facts ∧ a.1 ∉ names := by
  rw [forgetAll, List.mem_filter]
  simp

theorem mem_of_lookup {known : Known} (h : facts.lookup name = some known) :
    (name, known) ∈ facts := by
  obtain ⟨l₁, l₂, rfl, _⟩ := List.lookup_eq_some_iff.mp h
  exact List.mem_append_right l₁ (List.mem_cons_self ..)

theorem not_mem_of_lookup (h : facts.lookup name = none) : ∀ a ∈ facts, a.1 ≠ name := by
  intro a ha hname
  have := List.lookup_eq_none_iff.mp h a ha
  rw [hname] at this
  simp at this

/-- A store that a scope overwrites was known, and made in that very scope. -/
theorem mem_deadStore {depth k : Nat} (h : k ∈ (facts.deadStore? name depth).toList) :
    ∃ a ∈ facts, a.1 = name ∧ a.2.store = k ∧ a.2.depth = depth := by
  rw [Option.mem_toList, deadStore?, Option.bind_eq_some_iff] at h
  obtain ⟨known, hknown, h⟩ := h
  by_cases hdepth : known.depth = depth
  · rw [if_pos hdepth] at h
    cases h
    exact ⟨(name, known), mem_of_lookup hknown, rfl, rfl, hdepth⟩
  · rw [if_neg hdepth] at h
    cases h

end Facts

/-! ## The invariant of a pass -/

namespace Progress

/-- The invariant between two statements of a method, inside the given number of branches and
loops. -/
structure Good (m : Method) (depth : Nat) (p : Progress) : Prop where
  declared : ∀ a ∈ p.facts, m.declares a.1
  fresh : ∀ a ∈ p.facts, a.2.store < p.nextStore
  kept : ∀ a ∈ p.facts, a.2.store ∉ p.removable
  shallow : ∀ a ∈ p.facts, a.2.depth ≤ depth
  store_inj : ∀ a ∈ p.facts, ∀ b ∈ p.facts, a.2.store = b.2.store → a = b
  past : ∀ k ∈ p.removable, k < p.nextStore

/-- What passing over statements that assign the given variables does to the state. -/
structure Advances (m : Method) (depth : Nat) (names : List String) (p q : Progress) : Prop where
  good : q.Good m depth
  next_le : p.nextStore ≤ q.nextStore
  removed : ∀ k ∈ q.removable, k ∈ p.removable ∨ p.nextStore ≤ k ∨
    ∃ a ∈ p.facts, a.2.store = k ∧ a.2.depth = depth
  known : ∀ a ∈ q.facts, a ∈ p.facts ∨ p.nextStore ≤ a.2.store
  keeps : ∀ a ∈ p.facts, a.1 ∉ names → a ∈ q.facts

variable {m : Method} {depth : Nat} {p q r : Progress} {names names' : List String}

theorem Good.start (m : Method) (depth : Nat) : Good m depth {} where
  declared := List.forall_mem_nil _
  fresh := List.forall_mem_nil _
  kept := List.forall_mem_nil _
  shallow := List.forall_mem_nil _
  store_inj := List.forall_mem_nil _
  past := List.forall_mem_nil _

theorem Good.deepen (h : p.Good m depth) : p.Good m (depth + 1) where
  declared := h.declared
  fresh := h.fresh
  kept := h.kept
  shallow a ha := Nat.le_succ_of_le (h.shallow a ha)
  store_inj := h.store_inj
  past := h.past

theorem Good.note {α : Type} (h : p.Good m depth) (r : Rewrite α) : (p.note r).Good m depth :=
  ⟨h.declared, h.fresh, h.kept, h.shallow, h.store_inj, h.past⟩

theorem Advances.of_note {α : Type} {r : Rewrite α} (h : Advances m depth names (p.note r) q) :
    Advances m depth names p q :=
  ⟨h.good, h.next_le, h.removed, h.known, h.keeps⟩

theorem Good.restrict {facts : Facts} (h : p.Good m depth) (hsub : ∀ a ∈ facts, a ∈ p.facts) :
    Good m depth { p with facts } where
  declared a ha := h.declared a (hsub a ha)
  fresh a ha := h.fresh a (hsub a ha)
  kept a ha := h.kept a (hsub a ha)
  shallow a ha := h.shallow a (hsub a ha)
  store_inj a ha b hb := h.store_inj a (hsub a ha) b (hsub b hb)
  past := h.past

theorem Advances.refl (h : p.Good m depth) : Advances m depth names p p :=
  ⟨h, Nat.le_refl _, fun _ hk => .inl hk, fun _ ha => .inl ha, fun _ ha _ => ha⟩

theorem Advances.trans (h : Advances m depth names p q) (h' : Advances m depth names' q r) :
    Advances m depth (names ++ names') p r where
  good := h'.good
  next_le := Nat.le_trans h.next_le h'.next_le
  removed k hk := by
    rcases h'.removed k hk with hk | hk | ⟨a, ha, hstore, hdepth⟩
    · exact h.removed k hk
    · exact .inr (.inl (Nat.le_trans h.next_le hk))
    · rcases h.known a ha with ha | ha
      · exact .inr (.inr ⟨a, ha, hstore, hdepth⟩)
      · exact .inr (.inl (hstore ▸ ha))
  known a ha := by
    rcases h'.known a ha with ha | ha
    · exact h.known a ha
    · exact .inr (Nat.le_trans h.next_le ha)
  keeps a ha hname := by
    rw [List.mem_append, not_or] at hname
    exact h'.keeps a (h.keeps a ha hname.1) hname.2

/-- Inside a branch or a loop nothing that was known before becomes removable. -/
theorem Advances.removed_inside (h : Advances m (depth + 1) names p q) (hp : p.Good m depth)
    {k : Nat} (hk : k ∈ q.removable) : k ∈ p.removable ∨ p.nextStore ≤ k := by
  rcases h.removed k hk with hk | hk | ⟨a, ha, _, hdepth⟩
  · exact .inl hk
  · exact .inr hk
  · have := hp.shallow a ha
    omega

theorem Advances.leave {facts : Facts} (h : Advances m (depth + 1) names p q)
    (hp : p.Good m depth) (hsub : ∀ a ∈ facts, a ∈ p.facts)
    (hkeeps : ∀ a ∈ p.facts, a.1 ∉ names' → a ∈ facts) :
    Advances m depth names' p { q with facts } where
  good := {
    declared := fun a ha => hp.declared a (hsub a ha)
    fresh := fun a ha => Nat.lt_of_lt_of_le (hp.fresh a (hsub a ha)) h.next_le
    kept := fun a ha hk => by
      rcases h.removed_inside hp hk with hk | hk
      · exact hp.kept a (hsub a ha) hk
      · exact absurd (hp.fresh a (hsub a ha)) (Nat.not_lt.mpr hk)
    shallow := fun a ha => hp.shallow a (hsub a ha)
    store_inj := fun a ha b hb => hp.store_inj a (hsub a ha) b (hsub b hb)
    past := h.good.past }
  next_le := h.next_le
  removed k hk := (h.removed_inside hp hk).imp_right .inl
  known a ha := .inl (hsub a ha)
  keeps := hkeeps

/-! ## Branches and loops -/

theorem Good.atThen (hp : p.Good m depth) (condition : Expr) : (p.atThen condition).Good m depth :=
  hp.note _

theorem Good.atElse (hp : p.Good m depth) {condition : Expr} {thenBranch : Stmt}
    (h : Advances m (depth + 1) names (p.atThen condition)
      (propagateStmt m (depth + 1) (p.atThen condition) thenBranch).2) :
    Advances m depth [] (p.atThen condition) (p.atElse m depth condition thenBranch) :=
  h.leave (hp.atThen condition) (fun _ ha => ha) fun _ ha _ => ha

theorem Good.atLoop (hp : p.Good m depth) (body : Stmt) :
    Advances m depth (assigned body) p (p.atLoop body) where
  good := hp.restrict fun _ ha => (Facts.mem_forgetAll.mp ha).1
  next_le := Nat.le_refl _
  removed _ hk := .inl hk
  known _ ha := .inl (Facts.mem_forgetAll.mp ha).1
  keeps _ ha hname := Facts.mem_forgetAll.mpr ⟨ha, hname⟩

/-! ## One store -/

section Store

variable {target : String} {value : Expr} {a : String × Known} {k : Nat}

theorem store_undeclared (h : m.declares target = false) (value : Expr) :
    p.store m depth target value = { p with nextStore := p.nextStore + 1 } := by
  rw [store, if_neg (by rw [h]; decide)]

theorem store_nextStore : (p.store m depth target value).nextStore = p.nextStore + 1 := by
  rw [store]
  split <;> rfl

theorem mem_store_facts (h : m.declares target) :
    a ∈ (p.store m depth target value).facts ↔
      (∃ l, value = .literal l ∧ a = (target, ⟨l, p.nextStore, depth⟩)) ∨
        (a ∈ p.facts ∧ a.1 ≠ target) := by
  rw [store, if_pos h, ← Facts.mem_forget]
  cases value with
  | literal l => simp
  | _ => simp

theorem mem_store_removable (h : m.declares target) :
    k ∈ (p.store m depth target value).removable ↔
      k ∈ (p.facts.deadStore? target depth).toList ∨ k ∈ p.removable := by
  rw [store, if_pos h, List.mem_append]

theorem store_removable_lt (hp : p.Good m depth)
    (hk : k ∈ (p.store m depth target value).removable) : k < p.nextStore := by
  cases hd : m.declares target with
  | true =>
    rcases (mem_store_removable hd).mp hk with hk | hk
    · obtain ⟨b, hb, _, rfl, _⟩ := Facts.mem_deadStore hk
      exact hp.fresh b hb
    · exact hp.past k hk
  | false =>
    rw [store_undeclared hd] at hk
    exact hp.past k hk

theorem Good.store (hp : p.Good m depth) : (p.store m depth target value).Good m depth := by
  cases hd : m.declares target with
  | false =>
    rw [store_undeclared hd]
    exact ⟨hp.declared, fun a ha => Nat.lt_succ_of_lt (hp.fresh a ha), hp.kept, hp.shallow,
      hp.store_inj, fun k hk => Nat.lt_succ_of_lt (hp.past k hk)⟩
  | true =>
    refine ⟨fun a ha => ?_, fun a ha => ?_, fun a ha hk => ?_, fun a ha => ?_,
      fun a ha b hb hab => ?_, fun k hk => ?_⟩
    · rcases (mem_store_facts hd).mp ha with ⟨l, _, rfl⟩ | ⟨ha, _⟩
      · exact hd
      · exact hp.declared a ha
    · rw [store_nextStore]
      rcases (mem_store_facts hd).mp ha with ⟨l, _, rfl⟩ | ⟨ha, _⟩
      · exact Nat.lt_succ_self _
      · exact Nat.lt_succ_of_lt (hp.fresh a ha)
    · rcases (mem_store_facts hd).mp ha with ⟨l, _, rfl⟩ | ⟨ha, hname⟩
      · exact Nat.lt_irrefl _ (store_removable_lt hp hk)
      · rcases (mem_store_removable hd).mp hk with hk | hk
        · obtain ⟨b, hb, hbname, hstore, _⟩ := Facts.mem_deadStore hk
          rw [hp.store_inj b hb a ha hstore] at hbname
          exact hname hbname
        · exact hp.kept a ha hk
    · rcases (mem_store_facts hd).mp ha with ⟨l, _, rfl⟩ | ⟨ha, _⟩
      · exact Nat.le_refl _
      · exact hp.shallow a ha
    · rcases (mem_store_facts hd).mp ha with ⟨l, hl, rfl⟩ | ⟨ha, _⟩ <;>
        rcases (mem_store_facts hd).mp hb with ⟨l', hl', rfl⟩ | ⟨hb, _⟩
      · rw [hl] at hl'
        cases hl'
        rfl
      · exact absurd hab.symm (Nat.ne_of_lt (hp.fresh b hb))
      · exact absurd hab (Nat.ne_of_lt (hp.fresh a ha))
      · exact hp.store_inj a ha b hb hab
    · rw [store_nextStore]
      exact Nat.lt_succ_of_lt (store_removable_lt hp hk)

theorem Advances.store (hp : p.Good m depth) :
    Advances m depth [target] p (p.store m depth target value) := by
  refine ⟨hp.store, ?_, fun k hk => ?_, fun a ha => ?_, fun a ha hname => ?_⟩
  · rw [store_nextStore]
    exact Nat.le_succ _
  · cases hd : m.declares target with
    | false =>
      rw [store_undeclared hd] at hk
      exact .inl hk
    | true =>
      rcases (mem_store_removable hd).mp hk with hk | hk
      · obtain ⟨b, hb, _, hstore, hdepth⟩ := Facts.mem_deadStore hk
        exact .inr (.inr ⟨b, hb, hstore, hdepth⟩)
      · exact .inl hk
  · cases hd : m.declares target with
    | false =>
      rw [store_undeclared hd] at ha
      exact .inl ha
    | true =>
      rcases (mem_store_facts hd).mp ha with ⟨l, _, rfl⟩ | ⟨ha, _⟩
      · exact .inr (Nat.le_refl _)
      · exact .inl ha
  · cases hd : m.declares target with
    | false =>
      rw [store_undeclared hd]
      exact ha
    | true => exact (mem_store_facts hd).mpr (.inr ⟨ha, by simpa using hname⟩)

end Store

end Progress

/-! ## The pass -/

open Progress

mutual

theorem propagateStmt_advances {m : Method} : ∀ (s : Stmt) {depth : Nat} {p : Progress},
    p.Good m depth → Advances m depth (assigned s) p (propagateStmt m depth p s).2
  | .assign target value, depth, p, hp => by
    rw [assigned]
    exact .of_note (.store (hp.note (substExpr p.facts value)))
  | .arrayAssign target index value, depth, p, hp => by
    rw [assigned]
    exact .of_note (.refl (hp.note ((substExpr p.facts index).map₂ (Stmt.arrayAssign target)
      (substExpr p.facts value))))
  | .ite condition thenBranch elseBranch, depth, p, hp => by
    rw [propagateStmt_ite, assigned]
    have hthen := propagateStmt_advances thenBranch (hp.atThen condition).deepen
    have helse := propagateStmt_advances elseBranch (hp.atElse hthen).good.deepen
    refine .of_note ((hp.atElse hthen).trans (helse.leave (hp.atElse hthen).good ?_ ?_))
    · exact fun _ ha => (Facts.mem_forgetAll.mp ha).1
    · exact fun _ ha hname => Facts.mem_forgetAll.mpr ⟨ha, hname⟩
  | .loop condition body, depth, p, hp => by
    rw [propagateStmt_loop, assigned]
    have hloop := hp.atLoop body
    have hbody := propagateStmt_advances body (hloop.good.atThen condition).deepen
    rw [← List.append_nil (assigned body)]
    exact hloop.trans (.of_note (hbody.leave (hloop.good.atThen condition) (fun _ ha => ha)
      fun _ ha _ => ha))
  | .block body, depth, p, hp => by
    rw [propagateStmt_block, assigned]
    exact propagateStmts_advances body hp
  | .ret none, depth, p, hp => .refl hp
  | .ret (some value), depth, p, hp => .of_note (.refl (hp.note (substExpr p.facts value)))
  | .expr value, depth, p, hp => .of_note (.refl (hp.note (substExpr p.facts value)))

theorem propagateStmts_advances {m : Method} : ∀ (body : List Stmt) {depth : Nat} {p : Progress},
    p.Good m depth → Advances m depth (assignedIn body) p (propagateStmts m depth p body).2
  | [], depth, p, hp => .refl hp
  | s :: rest, depth, p, hp => by
    rw [propagateStmts_cons, assignedIn]
    have hs := propagateStmt_advances s hp
    exact hs.trans (propagateStmts_advances rest hs.good)

end

/-! ## The stores to remove -/

namespace Progress

/-- A state has all stores to remove in sight that it has seen. -/
def Covers (removable : List Nat) (p : Progress) : Prop :=
  ∀ k ∈ removable, k < p.nextStore → k ∈ p.removable ∨ ∃ a ∈ p.facts, a.2.store = k

variable {m : Method} {depth : Nat} {p q : Progress} {names : List String} {removable : List Nat}

theorem Covers.back (h : Covers removable q) (hpq : Advances m depth names p q) :
    Covers removable p := by
  intro k hk hlt
  rcases h k hk (Nat.lt_of_lt_of_le hlt hpq.next_le) with hk | ⟨a, ha, rfl⟩
  · rcases hpq.removed k hk with hk | hk | ⟨a, ha, hstore, _⟩
    · exact .inl hk
    · omega
    · exact .inr ⟨a, ha, hstore⟩
  · rcases hpq.known a ha with ha | ha
    · exact .inr ⟨a, ha, rfl⟩
    · omega

theorem Covers.know {facts : Facts} (h : Covers removable { p with facts })
    (hsub : ∀ a ∈ facts, a ∈ p.facts) : Covers removable p := by
  intro k hk hlt
  exact (h k hk hlt).imp_right fun ⟨a, ha, hstore⟩ => ⟨a, hsub a ha, hstore⟩

theorem Covers.back_inside {facts : Facts} (h : Covers removable { q with facts })
    (hp : p.Good m depth) (hpq : Advances m (depth + 1) names p q) :
    Covers removable { p with facts } := by
  intro k hk hlt
  refine (h k hk (Nat.lt_of_lt_of_le hlt hpq.next_le)).imp_left fun hk => ?_
  rcases hpq.removed_inside hp hk with hk | hk
  · exact hk
  · exact absurd hlt (Nat.not_lt.mpr hk)

end Progress

/-- At the end of a method the stores that are removed are in sight. -/
theorem covers_outermost (p : Progress) :
    Progress.Covers (p.facts.outermostStores ++ p.removable) p := by
  intro k hk _
  rcases List.mem_append.mp hk with hk | hk
  · rw [Facts.outermostStores, List.mem_filterMap] at hk
    obtain ⟨a, ha, hstore⟩ := hk
    split at hstore
    · cases hstore
      exact .inr ⟨a, ha, rfl⟩
    · cases hstore
  · exact .inl hk

end MiniJava.Constants
