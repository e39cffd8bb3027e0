import MiniJava.Proofs.Optimizer.Idempotence

/-!
# What propagation leaves

Which variables hold a known literal at a place is told here by the statements in front of it, without
a pass. A body is exhausted if none of its expressions reads such a variable, no store overwrites one
that the same scope gave its literal, and at the end there is none. Propagation leaves exactly the
exhausted bodies as they are, and every body that it gives is exhausted.
-/

namespace MiniJava

/-! ## Reads -/

mutual

/-- The names that an expression reads. -/
def Expr.reads : Expr → List String
  | .var name => [name]
  | .paren inner => inner.reads
  | .not operand => operand.reads
  | .binary _ left right => left.reads ++ right.reads
  | .newArray _ size => size.reads
  | .arrayLiteral elements => Expr.readsIn elements
  | .index array place => array.reads ++ place.reads
  | .length array => array.reads
  | .call target _ args => target.reads ++ Expr.readsIn args
  | .literal _ | .self | .newObject _ => []

/-- The names that several expressions read. -/
def Expr.readsIn : List Expr → List String
  | [] => []
  | e :: rest => e.reads ++ Expr.readsIn rest

end

namespace Constants

/-! ## Exhausted bodies -/

/-- The variables that hold a known literal at a place, and those of them that the scope of the place
gave it. -/
structure Held where
  known : List String := []
  here : List String := []

namespace Held

variable (held : Held)

/-- What is held when some variables are assigned something unknown. -/
def forget (names : List String) : Held :=
  { known := held.known.filter (!names.contains ·), here := held.here.filter (!names.contains ·) }

/-- What is held where a branch or the body of a loop begins. -/
def inside : Held :=
  { held with here := [] }

/-- What is held when a variable is assigned an expression. -/
def store (target : String) : Expr → Held
  | .literal _ => { known := target :: held.known, here := target :: held.here }
  | _ => held.forget [target]

/-- An expression reads nothing that is known. -/
def Unread (e : Expr) : Prop :=
  ∀ name ∈ e.reads, name ∉ held.known

end Held

mutual

/-- What is held behind a statement. Only what the method declares is followed, and what a branch or a
loop assigns is not known behind it. -/
def heldBehind (m : Method) (held : Held) : Stmt → Held
  | .assign target value => if m.declares target then held.store target value else held
  | .ite _ thenBranch elseBranch => held.forget (assigned thenBranch ++ assigned elseBranch)
  | .loop _ body => held.forget (assigned body)
  | .block body => heldBehindAll m held body
  | .arrayAssign .. | .ret _ | .expr _ => held

/-- What is held behind some statements. -/
def heldBehindAll (m : Method) (held : Held) : List Stmt → Held
  | [] => held
  | s :: rest => heldBehindAll m (heldBehind m held s) rest

end

mutual

/-- A statement reads nothing that is known, and no scope of it overwrites what it knows itself. -/
def Exhausted (m : Method) (held : Held) : Stmt → Prop
  | .assign target value => held.Unread value ∧ target ∉ held.here
  | .arrayAssign _ index value => held.Unread index ∧ held.Unread value
  | .ite condition thenBranch elseBranch =>
    held.Unread condition ∧ Exhausted m held.inside thenBranch ∧ Exhausted m held.inside elseBranch
  | .loop condition body =>
    (held.forget (assigned body)).Unread condition ∧
      Exhausted m (held.forget (assigned body)).inside body
  | .block body => AllExhausted m held body
  | .ret none => True
  | .ret (some value) => held.Unread value
  | .expr value => held.Unread value

/-- Statements are exhausted, each behind the ones in front of it. -/
def AllExhausted (m : Method) (held : Held) : List Stmt → Prop
  | [] => True
  | s :: rest => Exhausted m held s ∧ AllExhausted m (heldBehind m held s) rest

end

/-- The body of a method is exhausted, and nothing that it stores is known at its end. -/
def ExhaustedBody (m : Method) : Prop :=
  AllExhausted m {} m.body ∧ (heldBehindAll m {} m.body).here = []

/-! ## What a pass replaces -/

section Reads

variable {facts : Facts}

mutual

theorem substExpr_unchanged_iff : ∀ e : Expr, (substExpr facts e).changed = false ↔
    ∀ name ∈ e.reads, facts.lookup name = none
  | .var name => by
    rw [substExpr, Expr.reads, List.forall_mem_singleton]
    cases facts.lookup name <;> simp
  | .literal _ | .self | .newObject _ => ⟨fun _ => nofun, fun _ => rfl⟩
  | .paren inner => substExpr_unchanged_iff inner
  | .not operand => substExpr_unchanged_iff operand
  | .newArray _ size => substExpr_unchanged_iff size
  | .length array => substExpr_unchanged_iff array
  | .arrayLiteral elements => substExprs_unchanged_iff elements
  | .binary _ left right => by
    rw [Expr.reads, List.forall_mem_append, ← substExpr_unchanged_iff left,
      ← substExpr_unchanged_iff right]
    exact Bool.or_eq_false_iff
  | .index array place => by
    rw [Expr.reads, List.forall_mem_append, ← substExpr_unchanged_iff array,
      ← substExpr_unchanged_iff place]
    exact Bool.or_eq_false_iff
  | .call target _ args => by
    rw [Expr.reads, List.forall_mem_append, ← substExpr_unchanged_iff target,
      ← substExprs_unchanged_iff args]
    exact Bool.or_eq_false_iff

theorem substExprs_unchanged_iff : ∀ es : List Expr, (substExprs facts es).changed = false ↔
    ∀ name ∈ Expr.readsIn es, facts.lookup name = none
  | [] => ⟨fun _ => nofun, fun _ => rfl⟩
  | e :: rest => by
    rw [Expr.readsIn, List.forall_mem_append, ← substExpr_unchanged_iff e,
      ← substExprs_unchanged_iff rest]
    exact Bool.or_eq_false_iff

end

end Reads

/-! ## What a pass knows -/

theorem Facts.forget_eq (facts : Facts) (name : String) : facts.forget name = facts.forgetAll [name] :=
  List.filter_congr fun a _ => by simp [bne, beq_eq_decide]

/-- The facts of a pass, inside the given number of branches and loops, are about the variables that
are held. -/
structure Held.Tells (held : Held) (depth : Nat) (facts : Facts) : Prop where
  known : ∀ name, name ∉ held.known ↔ facts.lookup name = none
  here : ∀ name, name ∉ held.here ↔ facts.deadStore? name depth = none

namespace Held.Tells

variable {held : Held} {m : Method} {depth : Nat} {facts : Facts} {p : Progress}

theorem unread (h : held.Tells depth facts) (e : Expr) :
    (substExpr facts e).changed = false ↔ held.Unread e :=
  (substExpr_unchanged_iff e).trans (forall₂_congr fun name _ => (h.known name).symm)

theorem forget (h : held.Tells depth facts) (names : List String) :
    (held.forget names).Tells depth (facts.forgetAll names) := by
  constructor <;> intro name
  · rw [Facts.lookup_forgetAll, Held.forget, List.mem_filter]
    by_cases hname : name ∈ names <;> simp [hname, h.known name]
  · rw [Facts.deadStore?, Facts.lookup_forgetAll, Held.forget, List.mem_filter]
    by_cases hname : name ∈ names
    · simp [hname]
    · simp [hname, h.here name, Facts.deadStore?]

theorem inside (h : held.Tells depth p.facts) (hp : p.Good m depth) :
    held.inside.Tells (depth + 1) p.facts where
  known := h.known
  here name := by
    refine iff_of_true List.not_mem_nil ?_
    rw [Facts.deadStore?]
    cases hlookup : p.facts.lookup name with
    | none => rfl
    | some known =>
      have hshallow := hp.shallow _ (Facts.mem_of_lookup hlookup)
      exact if_neg (Nat.ne_of_lt (Nat.lt_succ_of_le hshallow))

theorem store (h : held.Tells depth p.facts) {target : String} {value : Expr} :
    (if m.declares target then held.store target value else held).Tells depth
      (p.store m depth target value).facts := by
  cases hd : m.declares target with
  | false => rwa [Progress.store_undeclared hd]
  | true =>
    cases value with
    | literal l =>
      have hnew : (p.store m depth target (.literal l)).facts.lookup target = some ⟨l, p.nextStore, depth⟩ :=
        Progress.lookup_store_literal hd
      constructor <;> intro name
      · by_cases hname : name = target
        · subst hname
          simp [Held.store, hnew]
        · rw [Progress.lookup_store_of_ne hname, ← h.known name]
          simp [Held.store, hname]
      · by_cases hname : name = target
        · subst hname
          simp [Held.store, Facts.deadStore?, hnew]
        · rw [Facts.deadStore?, Progress.lookup_store_of_ne hname, ← Facts.deadStore?, ← h.here name]
          simp [Held.store, hname]
    | _ =>
      rw [Progress.store, if_pos hd]
      exact Facts.forget_eq p.facts target ▸ h.forget [target]

end Held.Tells

/-! ## Passes that change nothing -/

/-- Nothing was replaced yet, and nothing is to be removed. -/
def Progress.Idle (p : Progress) : Prop :=
  p.replaced = false ∧ p.removable = []

/-- A pass stays idle over what is exhausted, and only there. What it knows then is what is held. -/
structure Stays (exhausted : Prop) (held : Held) (depth : Nat) (p q : Progress) : Prop where
  idle : q.Idle ↔ p.Idle ∧ exhausted
  tells : q.Idle → held.Tells depth q.facts

section Passes

variable {m : Method} {held : Held} {depth : Nat} {p : Progress}

theorem Progress.idle_note {α : Type} {r : Rewrite α} :
    (p.note r).Idle ↔ p.Idle ∧ r.changed = false := by
  rw [Progress.Idle, Progress.note, Bool.or_eq_false_iff]
  exact and_right_comm

theorem Held.Tells.idle_note (h : held.Tells depth p.facts) (e : Expr) :
    (p.note (substExpr p.facts e)).Idle ↔ p.Idle ∧ held.Unread e :=
  Progress.idle_note.trans (and_congr_right' (h.unread e))

theorem Held.Tells.idle_store (h : held.Tells depth p.facts) (hp : p.Good m depth) {target : String}
    {value : Expr} : (p.store m depth target value).Idle ↔ p.Idle ∧ target ∉ held.here := by
  cases hd : m.declares target with
  | true =>
    rw [Progress.Idle, Progress.store_replaced, Progress.store, if_pos hd, List.append_eq_nil_iff,
      Option.toList_eq_nil_iff, ← h.here]
    exact and_left_comm.trans and_comm
  | false =>
    rw [Progress.store_undeclared hd]
    refine (and_iff_left ((h.here target).mpr ?_)).symm
    rw [Facts.deadStore?]
    cases hlookup : p.facts.lookup target with
    | none => rfl
    | some known =>
      have hdeclared := hp.declared _ (Facts.mem_of_lookup hlookup)
      exact absurd hd (ne_false_of_eq_true hdeclared)

theorem propagateStmts_idle {body : List Stmt} (h : (propagateStmts m depth p body).2.Idle) :
    p.Idle := by
  obtain ⟨changed, _, hreplaced⟩ := propagateStmts_shrink m body depth p
  refine ⟨(Bool.or_eq_false_iff.mp (hreplaced.symm.trans h.1)).1, ?_⟩
  exact List.subset_nil.mp (h.2 ▸ removable_monoIn m body depth p)

mutual

theorem propagateStmt_stays : ∀ (s : Stmt) {depth : Nat} {p : Progress} {held : Held}, p.Good m depth →
    held.Tells depth p.facts →
      Stays (Exhausted m held s) (heldBehind m held s) depth p (propagateStmt m depth p s).2
  | .assign target value, depth, p, held, hp, h => by
    have hread : held.Tells depth (p.note (substExpr p.facts value)).facts := h
    have hstored : (propagateStmt m depth p (.assign target value)).2.Idle ↔
        (p.note (substExpr p.facts value)).Idle ∧ target ∉ held.here := hread.idle_store (hp.note _)
    have hidle := hstored.trans (and_congr_left' (h.idle_note value))
    refine ⟨hidle.trans and_assoc, fun hq => ?_⟩
    -- Where nothing is replaced, the value that is stored is the one that is written.
    have hsame := (substExpr_shrinks p.facts value).same ((h.unread value).mpr (hidle.mp hq).1.2)
    show (heldBehind m held _).Tells depth (Progress.store _ m depth target _).facts
    rw [hsame]
    exact hread.store
  | .arrayAssign target index value, depth, p, held, _, h => by
    refine ⟨Progress.idle_note.trans (and_congr_right' ?_), fun _ => h⟩
    exact Bool.or_eq_false_iff.trans (and_congr (h.unread index) (h.unread value))
  | .ite condition thenBranch elseBranch, depth, p, held, hp, h => by
    rw [propagateStmt_ite]
    have hthen := propagateStmt_stays thenBranch (hp.atThen condition).deepen
      (h.inside (p := p.atThen condition) (hp.atThen condition))
    have hgood := (hp.atElse (propagateStmt_advances thenBranch (hp.atThen condition).deepen)).good
    have helse := propagateStmt_stays elseBranch hgood.deepen
      (h.inside (p := p.atElse m depth condition thenBranch) hgood)
    refine ⟨?_, fun _ => h.forget _⟩
    refine helse.idle.trans ((and_congr_left' (hthen.idle.trans
      (and_congr_left' (h.idle_note condition)))).trans ?_)
    rw [Exhausted, and_assoc, and_assoc]
  | .loop condition body, depth, p, held, hp, h => by
    rw [propagateStmt_loop]
    have hgood := (hp.atLoop body).good
    have hbefore : (held.forget (assigned body)).Tells depth (p.atLoop body).facts := h.forget _
    have hbody := propagateStmt_stays body (hgood.atThen condition).deepen
      (hbefore.inside (p := (p.atLoop body).atThen condition) (hgood.atThen condition))
    exact ⟨hbody.idle.trans ((and_congr_left' (hbefore.idle_note condition)).trans and_assoc),
      fun _ => hbefore⟩
  | .block body, depth, p, held, hp, h => by
    rw [propagateStmt_block]
    exact propagateStmts_stay body hp h
  | .ret none, depth, p, held, _, h => ⟨(and_iff_left trivial).symm, fun _ => h⟩
  | .ret (some value), depth, p, held, _, h => ⟨h.idle_note value, fun _ => h⟩
  | .expr value, depth, p, held, _, h => ⟨h.idle_note value, fun _ => h⟩

theorem propagateStmts_stay : ∀ (body : List Stmt) {depth : Nat} {p : Progress} {held : Held},
    p.Good m depth → held.Tells depth p.facts →
      Stays (AllExhausted m held body) (heldBehindAll m held body) depth p
        (propagateStmts m depth p body).2
  | [], depth, p, held, _, h => ⟨(and_iff_left trivial).symm, fun _ => h⟩
  | s :: rest, depth, p, held, hp, h => by
    rw [propagateStmts_cons]
    have hs := propagateStmt_stays s hp h
    have hrest := fun hq => propagateStmts_stay rest (propagateStmt_advances s hp).good (hs.tells hq)
    refine ⟨⟨fun hq => ?_, fun ⟨hp', hexhausted⟩ => ?_⟩, fun hq =>
      (hrest (propagateStmts_idle hq)).tells hq⟩
    · have hmiddle := propagateStmts_idle hq
      obtain ⟨hp', hexhausted⟩ := hs.idle.mp hmiddle
      exact ⟨hp', hexhausted, ((hrest hmiddle).idle.mp hq).2⟩
    · have hmiddle := hs.idle.mpr ⟨hp', hexhausted.1⟩
      exact (hrest hmiddle).idle.mpr ⟨hmiddle, hexhausted.2⟩

end

/-! ## Methods -/

theorem Facts.eq_nil_iff {facts : Facts} : facts = [] ↔ ∀ name, facts.lookup name = none := by
  refine ⟨fun h _ => h ▸ rfl, fun h => List.eq_nil_iff_forall_not_mem.mpr fun a ha => ?_⟩
  exact Facts.not_mem_of_lookup (h a.1) a ha rfl

theorem Held.Tells.outermost (h : held.Tells 0 p.facts) (hp : p.Good m 0) :
    p.facts.outermostStores = [] ↔ held.here = [] := by
  have hdepth : ∀ a ∈ p.facts, a.2.depth = 0 := fun a ha => Nat.le_zero.mp (hp.shallow a ha)
  have houter : p.facts.outermostStores = p.facts.map (·.2.store) := by
    rw [Facts.outermostStores, ← List.filterMap_eq_map]
    exact List.filterMap_congr fun a ha => if_pos (hdepth a ha)
  have hdead : ∀ name, p.facts.deadStore? name 0 = none ↔ p.facts.lookup name = none := by
    intro name
    rw [Facts.deadStore?]
    cases hlookup : p.facts.lookup name with
    | none => exact iff_of_true rfl rfl
    | some known =>
      rw [Option.bind_some, if_pos (hdepth _ (Facts.mem_of_lookup hlookup))]
      exact iff_of_false (Option.some_ne_none _) (Option.some_ne_none _)
  rw [houter, List.map_eq_nil_iff, Facts.eq_nil_iff, List.eq_nil_iff_forall_not_mem]
  exact forall_congr' fun name => ((h.here name).trans (hdead name)).symm

/-- Propagation changes nothing exactly where the body is exhausted. -/
theorem propagate_unchanged_iff (m : Method) : (propagate m).changed = false ↔ ExhaustedBody m := by
  have hp := Progress.Good.start m 0
  have hnothing : Held.Tells {} 0 (Progress.facts {}) :=
    ⟨fun _ => iff_of_true List.not_mem_nil rfl, fun _ => iff_of_true List.not_mem_nil rfl⟩
  have hstays := propagateStmts_stay m.body hp hnothing
  have hgood := (propagateStmts_advances m.body hp).good
  rw [propagate_of_passed (Prod.eta _).symm, Bool.or_eq_false_iff, Bool.not_eq_false',
    List.isEmpty_iff, List.append_eq_nil_iff, ExhaustedBody]
  constructor
  · rintro ⟨hreplaced, houter, hremovable⟩
    have hidle : (propagateStmts m 0 {} m.body).2.Idle := ⟨hreplaced, hremovable⟩
    exact ⟨(hstays.idle.mp hidle).2, ((hstays.tells hidle).outermost hgood).mp houter⟩
  · rintro ⟨hexhausted, hhere⟩
    have hidle := hstays.idle.mpr ⟨⟨rfl, rfl⟩, hexhausted⟩
    exact ⟨hidle.1, ((hstays.tells hidle).outermost hgood).mpr hhere, hidle.2⟩

/-- What propagation gives is exhausted: no expression of it reads a variable that holds a known literal,
no scope overwrites one that it gave its literal, and none is left at the end. -/
theorem propagate_exhausted (m : Method) : ExhaustedBody (propagate m).node :=
  (propagate_unchanged_iff _).mp (propagate_unmoved m)

end Passes

end Constants

end MiniJava
