import Mathlib.Data.List.Induction
import Mathlib.Order.Bounds.Basic
import MiniJava.Jvm.Emission
import MiniJava.Proofs.Success

/-!
# The bounds of the depth of the stack

The two bounds follow different rules: the peak follows the depth, the conservative bound counts the
pushes of an instruction from the depth at its start. Each is told here from the operations alone, for
runs of any length. The conservative bound covers the peak as long as the depth is never set to more
than it is (`Covered`), and emission sets it in no other way. Words are counted without a limit, so
nothing is said of sums that overflow.
-/

namespace MiniJava.Jvm

namespace StackDepth

/-! ## Runs -/

/-- What can be done to the depth of the stack. -/
inductive Op where
  | beginInstruction
  | push (count : Nat)
  | pop (count : Nat)
  | setDepth (depth : Nat)

/-- The state behind an operation. -/
def apply (s : StackDepth) : Op → StackDepth
  | .beginInstruction => s.beginInstruction
  | .push count => s.push count
  | .pop count => s.pop count
  | .setDepth depth => s.setDepth depth

/-- The state behind some operations. -/
def run (ops : List Op) : StackDepth :=
  ops.foldl apply {}

theorem run_snoc (ops : List Op) (op : Op) : run (ops ++ [op]) = (run ops).apply op := by
  rw [run, List.foldl_append]
  rfl

/-- The depth behind an operation. A stack with too few words is emptied by a pop. -/
def Op.depthAfter (d : Nat) : Op → Nat
  | .beginInstruction => d
  | .push count => d + count
  | .pop count => d - count
  | .setDepth depth => depth

/-- The depth behind some operations. -/
def depthAfter (ops : List Op) : Nat :=
  ops.foldl Op.depthAfter 0

theorem depthAfter_snoc (ops : List Op) (op : Op) :
    depthAfter (ops ++ [op]) = op.depthAfter (depthAfter ops) := by
  rw [depthAfter, List.foldl_append]
  rfl

/-- The words that an operation pushes. -/
def Op.pushed : Op → Nat
  | .push count => count
  | .beginInstruction | .pop _ | .setDepth _ => 0

/-- The words that some operations push. -/
def pushedBy : List Op → Nat
  | [] => 0
  | op :: rest => op.pushed + pushedBy rest

theorem pushedBy_append (ops more : List Op) :
    pushedBy (ops ++ more) = pushedBy ops + pushedBy more := by
  induction ops with
  | nil => exact (Nat.zero_add _).symm
  | cons op rest ih => rw [List.cons_append, pushedBy, pushedBy, ih, Nat.add_assoc]

theorem run_depth (ops : List Op) : (run ops).depth = depthAfter ops := by
  induction ops using List.reverseRecOn with
  | nil => rfl
  | append_singleton ops op ih =>
    rw [run_snoc, depthAfter_snoc, ← ih]
    cases op <;> rfl

/-- Wherever some operations set the depth, they set it to no more than it is. -/
def NeverRaises (ops : List Op) : Prop :=
  ∀ before depth, before ++ [.setDepth depth] <+: ops → depth ≤ depthAfter before

theorem neverRaises_nil : NeverRaises [] := by
  rintro before depth ⟨after, h⟩
  simp at h

theorem NeverRaises.before {before ops : List Op} (h : NeverRaises ops) (hbefore : before <+: ops) :
    NeverRaises before :=
  fun earlier depth hearlier => h earlier depth (hearlier.trans hbefore)

/-- An operation that may follow where the depth is the given one. -/
def Op.MayFollow (d : Nat) (op : Op) : Prop :=
  ∀ depth, op = .setDepth depth → depth ≤ d

theorem neverRaises_snoc {ops : List Op} {op : Op} :
    NeverRaises (ops ++ [op]) ↔ NeverRaises ops ∧ op.MayFollow (depthAfter ops) := by
  constructor
  · intro h
    refine ⟨h.before (List.prefix_append ..), ?_⟩
    rintro depth rfl
    exact h ops depth (List.prefix_refl _)
  · rintro ⟨h, hop⟩ before depth hbefore
    rcases List.prefix_concat_iff.mp hbefore with heq | hbefore
    · obtain ⟨rfl, hset⟩ := List.append_inj' heq rfl
      exact hop depth (List.singleton_inj.mp hset).symm
    · exact h before depth hbefore

/-! ## The peak -/

/-- The depth is within what the current instruction started from and pushed, and within the peak. The
conservative bound covers both. -/
structure Covered (s : StackDepth) : Prop where
  inside : s.depth ≤ s.start + s.pushes
  reached : s.depth ≤ s.peak
  peak_le : s.peak ≤ s.conservativePeak
  pushed_le : s.start + s.pushes ≤ s.conservativePeak

theorem Covered.apply {s : StackDepth} (h : s.Covered) {op : Op} (hop : op.MayFollow s.depth) :
    (s.apply op).Covered := by
  obtain ⟨hinside, hreached, hpeak, hpushed⟩ := h
  cases op with
  | beginInstruction => exact ⟨Nat.le_refl _, hreached, hpeak, hreached.trans hpeak⟩
  | push count =>
    refine ⟨?_, Nat.le_max_right .., ?_, Nat.le_max_right ..⟩
    · show s.depth + count ≤ s.start + (s.pushes + count)
      omega
    · show max s.peak (s.depth + count) ≤ max s.conservativePeak (s.start + (s.pushes + count))
      omega
  | pop count =>
    have hless : s.depth - count ≤ s.depth := Nat.sub_le ..
    exact ⟨hless.trans hinside, hless.trans hreached, hpeak, hpushed⟩
  | setDepth depth =>
    have hless : depth ≤ s.depth := hop depth rfl
    exact ⟨hless.trans hinside, hless.trans hreached, hpeak, hpushed⟩

theorem covered_run {ops : List Op} (h : NeverRaises ops) : (run ops).Covered := by
  induction ops using List.reverseRecOn with
  | nil => exact ⟨Nat.le_refl _, Nat.le_refl _, Nat.le_refl _, Nat.le_refl _⟩
  | append_singleton ops op ih =>
    obtain ⟨h, hop⟩ := neverRaises_snoc.mp h
    rw [run_snoc]
    exact (ih h).apply (by rwa [run_depth])

theorem Covered.peak_apply {s : StackDepth} (h : s.Covered) {op : Op} (hop : op.MayFollow s.depth) :
    (s.apply op).peak = max (s.apply op).depth s.peak := by
  cases op with
  | beginInstruction => exact (Nat.max_eq_right h.reached).symm
  | push count => exact Nat.max_comm ..
  | pop count => exact (Nat.max_eq_right ((Nat.sub_le ..).trans h.reached)).symm
  | setDepth depth => exact (Nat.max_eq_right ((hop depth rfl).trans h.reached)).symm

/-- The depths that are reached by some operations. -/
def depths (ops : List Op) : Set Nat :=
  {d | ∃ before, before <+: ops ∧ depthAfter before = d}

theorem depths_snoc (ops : List Op) (op : Op) :
    depths (ops ++ [op]) = insert (depthAfter (ops ++ [op])) (depths ops) := by
  ext d
  constructor
  · rintro ⟨before, hbefore, rfl⟩
    rcases List.prefix_concat_iff.mp hbefore with rfl | hbefore
    · exact .inl rfl
    · exact .inr ⟨before, hbefore, rfl⟩
  · rintro (rfl | ⟨before, hbefore, rfl⟩)
    · exact ⟨_, List.prefix_refl _, rfl⟩
    · exact ⟨before, hbefore.trans (List.prefix_append ..), rfl⟩

theorem peak_isGreatest {ops : List Op} (h : NeverRaises ops) :
    IsGreatest (depths ops) (run ops).peak := by
  induction ops using List.reverseRecOn with
  | nil =>
    refine ⟨⟨[], List.prefix_refl _, rfl⟩, ?_⟩
    rintro _ ⟨before, hbefore, rfl⟩
    rw [List.prefix_nil.mp hbefore]
    exact Nat.le_refl _
  | append_singleton ops op ih =>
    obtain ⟨h, hop⟩ := neverRaises_snoc.mp h
    rw [depths_snoc, ← run_depth, run_snoc,
      (covered_run h).peak_apply (by rwa [run_depth])]
    exact (ih h).insert _

/-! ## The conservative bound -/

/-- An instruction starts behind some operations: there are none, or the last one begins it. -/
def Starts (before : List Op) : Prop :=
  before = [] ∨ ∃ earlier, before = earlier ++ [.beginInstruction]

/-- An instruction among some operations: what comes before it, and its own operations up to the
beginning of the next one or to the end. -/
structure IsInstruction (ops before body : List Op) : Prop where
  starts : Starts before
  own : .beginInstruction ∉ body
  ends : ops = before ++ body ∨ before ++ body ++ [.beginInstruction] <+: ops

/-- What the instructions that push ask for: the depth at their start with all that they push. -/
def demands (ops : List Op) : Set Nat :=
  {d | ∃ before body, IsInstruction ops before body ∧ 0 < pushedBy body ∧
    depthAfter before + pushedBy body = d}

/-- An instruction goes on with each operation that does not begin the next one. -/
theorem own_snoc {body : List Op} {op : Op} (hown : .beginInstruction ∉ body)
    (hop : op ≠ .beginInstruction) : .beginInstruction ∉ body ++ [op] := by
  rw [List.mem_append, List.mem_singleton]
  exact not_or.mpr ⟨hown, hop.symm⟩

theorem exists_current (ops : List Op) :
    ∃ before body, Starts before ∧ .beginInstruction ∉ body ∧ ops = before ++ body := by
  induction ops using List.reverseRecOn with
  | nil => exact ⟨[], [], .inl rfl, nofun, rfl⟩
  | append_singleton ops op ih =>
    obtain ⟨before, body, hstarts, hown, rfl⟩ := ih
    by_cases hop : op = .beginInstruction
    · subst hop
      exact ⟨_, [], .inr ⟨_, rfl⟩, nofun, (List.append_nil _).symm⟩
    · exact ⟨before, body ++ [op], hstarts, own_snoc hown hop, List.append_assoc ..⟩

theorem run_current {before : List Op} (hstarts : Starts before) {body : List Op}
    (hown : .beginInstruction ∉ body) :
    (run (before ++ body)).start = depthAfter before ∧
      (run (before ++ body)).pushes = pushedBy body := by
  induction body using List.reverseRecOn with
  | nil =>
    rw [List.append_nil]
    rcases hstarts with rfl | ⟨earlier, rfl⟩
    · exact ⟨rfl, rfl⟩
    · rw [run_snoc, depthAfter_snoc, ← run_depth]
      exact ⟨rfl, rfl⟩
  | append_singleton body op ih =>
    rw [List.mem_append, List.mem_singleton, not_or] at hown
    obtain ⟨hstart, hpushes⟩ := ih hown.1
    rw [← List.append_assoc, run_snoc, pushedBy_append, ← hstart, ← hpushes]
    cases op with
    | beginInstruction => exact absurd rfl hown.2
    | push | pop | setDepth => exact ⟨rfl, rfl⟩

theorem conservativePeak_mono {before ops : List Op} (h : before <+: ops) :
    (run before).conservativePeak ≤ (run ops).conservativePeak := by
  induction ops using List.reverseRecOn with
  | nil => rw [List.prefix_nil.mp h]
  | append_singleton ops op ih =>
    rcases List.prefix_concat_iff.mp h with rfl | hbefore
    · exact Nat.le_refl _
    · rw [run_snoc]
      cases op with
      | push count => exact (ih hbefore).trans (Nat.le_max_left ..)
      | beginInstruction | pop | setDepth => exact ih hbefore

namespace IsInstruction

variable {ops before body : List Op}

theorem within (h : IsInstruction ops before body) : before ++ body <+: ops := by
  rcases h.ends with rfl | hends
  · exact List.prefix_refl _
  · exact (List.prefix_append ..).trans hends

theorem le_conservative (h : IsInstruction ops before body) (hops : NeverRaises ops) :
    depthAfter before + pushedBy body ≤ (run ops).conservativePeak := by
  obtain ⟨hstart, hpushes⟩ := run_current h.starts h.own
  rw [← hstart, ← hpushes]
  exact (covered_run (hops.before h.within)).pushed_le.trans (conservativePeak_mono h.within)

/-- An instruction that goes on takes in what is done next, and one that is at its end stays. -/
theorem snoc (h : IsInstruction ops before body) (op : Op) :
    ∃ more, IsInstruction (ops ++ [op]) before (body ++ more) := by
  have hstays : before ++ body ++ [.beginInstruction] <+: ops ++ [op] →
      ∃ more, IsInstruction (ops ++ [op]) before (body ++ more) := by
    intro hends
    refine ⟨[], ?_⟩
    rw [List.append_nil]
    exact ⟨h.starts, h.own, .inr hends⟩
  rcases h.ends with rfl | hends
  · by_cases hop : op = .beginInstruction
    · subst hop
      exact hstays (List.prefix_refl _)
    · exact ⟨[op], h.starts, own_snoc h.own hop, .inl (List.append_assoc ..)⟩
  · exact hstays (hends.trans (List.prefix_append ..))

end IsInstruction

/-- The conservative bound is asked for by an instruction that pushes, unless it is zero. -/
theorem conservativePeak_mem {ops : List Op} (h : NeverRaises ops) :
    (run ops).conservativePeak ∈ insert 0 (demands ops) := by
  induction ops using List.reverseRecOn with
  | nil => exact .inl rfl
  | append_singleton ops op ih =>
    obtain ⟨hops, hop⟩ := neverRaises_snoc.mp h
    -- Where the bound stays, the instruction that asked for it cannot ask for more now.
    have hstays : (run (ops ++ [op])).conservativePeak = (run ops).conservativePeak →
        (run (ops ++ [op])).conservativePeak ∈ insert 0 (demands (ops ++ [op])) := by
      intro hsame
      rcases ih hops with hzero | ⟨before, body, hbody, hpushes, hasked⟩
      · exact .inl (hsame.trans hzero)
      · obtain ⟨more, hmore⟩ := hbody.snoc op
        have hle := hmore.le_conservative h
        rw [pushedBy_append] at hle
        refine .inr ⟨before, body ++ more, hmore, ?_, ?_⟩
        · rw [pushedBy_append]
          omega
        · rw [pushedBy_append]
          omega
    cases op with
    | beginInstruction | pop | setDepth =>
      refine hstays ?_
      rw [run_snoc]
      rfl
    | push count =>
      rcases Nat.lt_or_ge (run ops).conservativePeak
        ((run ops).start + ((run ops).pushes + count)) with hlt | hge
      · obtain ⟨before, body, hstarts, hown, hcurrent⟩ := exists_current ops
        obtain ⟨hstart, hpushes⟩ := run_current hstarts hown
        rw [← hcurrent] at hstart hpushes
        -- A bound that grows shows that words are pushed: those before it had been taken in.
        have hpushed := (covered_run hops).pushed_le
        refine .inr ⟨before, body ++ [.push count], ⟨hstarts, own_snoc hown nofun, .inl ?_⟩, ?_, ?_⟩
        · rw [hcurrent, List.append_assoc]
        · rw [pushedBy_append]
          show 0 < pushedBy body + (count + 0)
          omega
        · rw [run_snoc, pushedBy_append, ← hstart, ← hpushes]
          exact (Nat.max_eq_right hlt.le).symm
      · refine hstays ?_
        rw [run_snoc]
        exact Nat.max_eq_left hge

theorem conservative_isGreatest {ops : List Op} (h : NeverRaises ops) :
    IsGreatest (insert 0 (demands ops)) (run ops).conservativePeak := by
  refine ⟨conservativePeak_mem h, ?_⟩
  rintro d (rfl | ⟨before, body, hbody, _, rfl⟩)
  · exact Nat.zero_le _
  · exact hbody.le_conservative h

/-- What the state behind some operations says, told from the operations. -/
structure ExactBounds (ops : List Op) : Prop where
  depth : (run ops).depth = depthAfter ops
  peak : IsGreatest (depths ops) (run ops).peak
  conservative : IsGreatest (insert 0 (demands ops)) (run ops).conservativePeak
  asked : ∀ before body, IsInstruction ops before body →
    depthAfter before + pushedBy body ≤ (run ops).conservativePeak
  covers : ∀ before, before <+: ops → (run before).peak ≤ (run before).conservativePeak
  limit : (run ops).limit .conservative = (run ops).conservativePeak

/-! ## Emission -/

/-- A state that is reached by operations of which none sets the depth higher than it is. -/
def Followed (s : StackDepth) : Prop :=
  ∃ ops, NeverRaises ops ∧ s = run ops

theorem Followed.apply {s : StackDepth} (h : s.Followed) (op : Op) (hop : op.MayFollow s.depth) :
    (s.apply op).Followed := by
  obtain ⟨ops, hops, rfl⟩ := h
  rw [run_depth] at hop
  exact ⟨ops ++ [op], neverRaises_snoc.mpr ⟨hops, hop⟩, (run_snoc ops op).symm⟩

theorem Followed.move {s : StackDepth} (h : s.Followed) (pops pushes : Nat) :
    ((s.pop pops).push pushes).Followed := by
  have hpop : (s.pop pops).Followed := h.apply (.pop pops) nofun
  exact hpop.apply (.push pushes) nofun

end StackDepth

end MiniJava.Jvm

namespace MiniJava

/-- A computation keeps a property of the state, also where it fails. -/
def Maintains {ε σ α : Type} (I : σ → Prop) (x : ExceptT ε (StateM σ) α) : Prop :=
  ∀ s, I s → I ((x.run).run s).2

namespace Maintains

variable {ε σ α β : Type} {I : σ → Prop} {x : ExceptT ε (StateM σ) α}
  {f : α → ExceptT ε (StateM σ) β}

theorem pure {a : α} : Maintains I (Pure.pure a : ExceptT ε (StateM σ) α) :=
  fun _ hs => hs

theorem throw {e : ε} : Maintains I (throw e : ExceptT ε (StateM σ) α) :=
  fun _ hs => hs

theorem lift (x : Except ε α) : Maintains I (liftM x : ExceptT ε (StateM σ) α) := by
  intro s hs
  cases x with
  | ok a => exact hs
  | error e => exact hs

theorem modify {g : σ → σ} (h : ∀ s, I s → I (g s)) :
    Maintains I (modify g : ExceptT ε (StateM σ) PUnit) :=
  h

theorem bind (hx : Maintains I x) (hf : ∀ a, Maintains I (f a)) : Maintains I (x >>= f) := by
  intro s hs
  have ht := hx s hs
  rw [run_bind]
  cases hr : (x.run).run s with
  | mk r t =>
    rw [hr] at ht
    cases r with
    | ok a => exact hf a t ht
    | error e => exact ht

theorem get_bind {f : σ → ExceptT ε (StateM σ) β} (h : ∀ s, I s → I (((f s).run).run s).2) :
    Maintains I (MonadState.get >>= f) :=
  h

end Maintains

namespace Jvm

open Ir (Operand Value Call)
open StackDepth

/-- A step of emission follows the depth by such operations, also where it fails. -/
abbrev FollowsDepth {α : Type} (x : Emit α) : Prop :=
  Maintains (fun s => s.stack.Followed) x

variable {f : Frame}

theorem emit_follows (i : Instr) (pops pushes : Nat) : FollowsDepth (emit i pops pushes) :=
  .modify fun _ hs => hs.move pops pushes

theorem emitPlain_follows (i : Instr) : FollowsDepth (emitPlain i) :=
  .modify fun _ hs => hs

theorem newLabel_follows (role : LabelRole) : FollowsDepth (newLabel role) :=
  fun _ hs => hs

theorem load_follows (o : Operand) : FollowsDepth (load f o) :=
  (Maintains.lift (loadInstr f o)).bind fun i => emit_follows i 0 1

theorem store_follows (o : Operand) : FollowsDepth (store f o) :=
  (Maintains.lift (storeInstr f o)).bind fun i => emit_follows i 1 0

theorem loadAll_follows : ∀ os : List Operand, FollowsDepth (loadAll f os)
  | [] => .pure
  | o :: rest => (load_follows o).bind fun _ => loadAll_follows rest

theorem emitLess_follows (left right : Operand) : FollowsDepth (emitLess f left right) := by
  refine (newLabel_follows _).bind fun onTrue => (newLabel_follows _).bind fun atEnd =>
    (load_follows left).bind fun _ => (load_follows right).bind fun _ =>
    (emit_follows _ 2 0).bind fun _ => .get_bind fun s hs => ?_
  have hset : (((s.stack.pop 0).push 1).setDepth s.stack.depth).Followed := by
    refine (hs.move 0 1).apply (.setDepth s.stack.depth) ?_
    rintro depth ⟨⟩
    exact Nat.le_add_right ..
  exact hset.move 0 1

theorem emitBinary_follows (op : Ir.BinOp) (left right : Operand) :
    FollowsDepth (emitBinary f op left right) := by
  rw [emitBinary]
  split
  · exact emitLess_follows left right
  · exact (load_follows left).bind fun _ => (load_follows right).bind fun _ => emit_follows _ 2 1

theorem emitNot_follows (o : Operand) : FollowsDepth (emitNot f o) := by
  rw [emitNot]
  cases f.negation with
  | selfXor =>
    exact (load_follows o).bind fun _ => (load_follows o).bind fun _ => emit_follows _ 2 1
  | xorOne =>
    exact (load_follows o).bind fun _ => (emit_follows _ 0 1).bind fun _ => emit_follows _ 2 1

theorem emitNewArray_follows (call : Call) : FollowsDepth (emitNewArray f call) := by
  rw [emitNewArray]
  split
  · exact .throw
  · exact .throw
  · exact (load_follows _).bind fun _ => emit_follows _ 1 1

theorem loadReceiver_follows (invocation : Invocation) (target : Operand) :
    FollowsDepth (loadReceiver f invocation target) := by
  have hload : FollowsDepth (do load f target; return 1) := (load_follows target).bind fun _ => .pure
  cases invocation with
  | static => exact .pure
  | virtual => exact hload
  | special =>
    refine .get_bind fun s hs => ?_
    by_cases hpending : s.pending = some target
    · rw [if_pos hpending]
      exact hs
    · rw [if_neg hpending]
      exact hload s hs

theorem emitInvoke_follows (invocation : Invocation) (call : Call) :
    FollowsDepth (emitInvoke f invocation call) := by
  rw [emitInvoke]
  split
  · exact .throw
  · exact (Maintains.lift _).bind fun _ => (loadReceiver_follows invocation call.target).bind fun _ =>
      (loadAll_follows call.args).bind fun _ => emit_follows _ _ _

theorem emitCall_follows (call : Call) : FollowsDepth (emitCall f call) := by
  rw [emitCall]
  cases call.kind with
  | new => exact emitNewArray_follows call
  | arrayLength => exact (load_follows call.target).bind fun _ => emit_follows _ 1 1
  | invokeSpecial => exact emitInvoke_follows .special call
  | invokeVirtual => exact emitInvoke_follows .virtual call
  | invokeStatic => exact emitInvoke_follows .static call

theorem emitValue_follows (value : Value) : FollowsDepth (emitValue f value) := by
  cases value with
  | operand o => exact load_follows o
  | binary op left right => exact emitBinary_follows op left right
  | not o => exact emitNot_follows o
  | getField object field ty =>
    exact (Maintains.lift _).bind fun _ => (load_follows object).bind fun _ => emit_follows _ 1 1
  | arrayLoad array index ty =>
    exact (load_follows array).bind fun _ => (load_follows index).bind fun _ => emit_follows _ 2 1
  | call call => exact emitCall_follows call

theorem emitNewObject_follows (dest : Operand) (call : Call) :
    FollowsDepth (emitNewObject f dest call) := by
  rw [emitNewObject]
  split
  · exact (emit_follows _ 0 1).bind fun _ => (emit_follows _ 0 1).bind fun _ =>
      (store_follows dest).bind fun _ => .modify fun _ hs => hs
  · exact .throw

theorem emitAssignVar_follows (dest : Operand) (value : Value) :
    FollowsDepth (emitAssignVar f dest value) := by
  rw [emitAssignVar]
  split
  · exact .throw
  · exact (emitValue_follows value).bind fun _ => store_follows dest

theorem emitBody_follows (i : Ir.Instr) : FollowsDepth (emitBody f i) := by
  match i with
  | .assign (.var dest) value =>
    cases value with
    | call call =>
      rw [emitBody]
      split
      · exact emitNewObject_follows dest call
      · exact emitAssignVar_follows dest _
    | _ => exact emitAssignVar_follows dest _
  | .assign (.element array index ty) value =>
    exact (load_follows array).bind fun _ => (load_follows index).bind fun _ =>
      (emitValue_follows value).bind fun _ => emit_follows _ 3 0
  | .putField object field value =>
    exact (Maintains.lift _).bind fun _ => (load_follows object).bind fun _ =>
      (load_follows value).bind fun _ => emit_follows _ 2 0
  | .call call =>
    rw [emitBody, emitCallStatement]
    split
    · exact .throw
    · refine (emitCall_follows call).bind fun _ => ?_
      split
      · exact emit_follows _ 1 0
      · exact .pure
  | .condGoto condition l =>
    rw [emitBody]
    unfold emitCondGoto
    split
    · exact (load_follows _).bind fun _ => (load_follows _).bind fun _ => emit_follows _ 2 0
    · exact (emitValue_follows condition).bind fun _ => emit_follows _ 1 0
  | .ret (some o) => exact (load_follows o).bind fun _ => emit_follows _ 1 0
  | .ret none | .label l | .goto l => exact emitPlain_follows _

theorem dropPending_follows : FollowsDepth dropPending := by
  refine .get_bind fun s hs => ?_
  split
  · exact hs.move 1 0
  · exact hs

theorem emitInstr_follows (i : Ir.Instr) : FollowsDepth (emitInstr f i) := by
  have hbegin : FollowsDepth (modify fun s => { s with stack := s.stack.beginInstruction }) :=
    .modify fun _ hs => hs.apply .beginInstruction nofun
  have hsettle : FollowsDepth (settlePending i) := by
    refine .get_bind fun s hs => ?_
    split
    · exact dropPending_follows s hs
    · exact hs
  exact hbegin.bind fun _ => hsettle.bind fun _ => emitBody_follows i

theorem emitInstrs_follows : ∀ instrs : List Ir.Instr, FollowsDepth (emitInstrs f instrs)
  | [] => dropPending_follows
  | i :: rest => (emitInstr_follows i).bind fun _ => emitInstrs_follows rest

/-- Behind operations of which none sets the depth higher than it is, the peak is the greatest depth
that was reached, and the conservative bound the most that an instruction asks for. It covers the peak
at every step. The operations of emission are of this kind, however far emission gets. -/
theorem stackDepth_exactBounds :
    (∀ ops, NeverRaises ops → ExactBounds ops) ∧
      ∀ (f : Frame) (instrs : List Ir.Instr) (nextLabel : Nat), ∃ ops, NeverRaises ops ∧
        (((emitInstrs f instrs).run).run { nextLabel }).2.stack = run ops := by
  constructor
  · intro ops h
    exact {
      depth := run_depth ops
      peak := peak_isGreatest h
      conservative := conservative_isGreatest h
      asked := fun _ _ hbody => hbody.le_conservative h
      covers := fun _ hbefore => (covered_run (h.before hbefore)).peak_le
      limit := Nat.max_eq_left (covered_run h).peak_le }
  · intro f instrs nextLabel
    exact emitInstrs_follows instrs { nextLabel } ⟨[], neverRaises_nil, rfl⟩

/-- A comparison whose result is stored: of the two words that it may leave only one is there. -/
def comparison : List Op :=
  [.beginInstruction, .push 1, .push 1, .pop 2, .push 1, .setDepth 0, .push 1, .pop 1]

theorem stackDepth_exactBounds_comparison : NeverRaises comparison ∧
    IsGreatest (depths comparison) 2 ∧ IsGreatest (insert 0 (demands comparison)) 4 := by
  have hnever : NeverRaises comparison := by
    have hbegun : NeverRaises [.beginInstruction, .push 1, .push 1, .pop 2, .push 1] := by
      rintro before depth ⟨after, hset⟩
      have hmem : Op.setDepth depth ∈ before ++ [.setDepth depth] ++ after := by simp
      rw [hset] at hmem
      simp at hmem
    have hlower : Op.MayFollow 1 (.setDepth 0) := by
      rintro _ ⟨⟩
      decide
    have hset := neverRaises_snoc.mpr ⟨hbegun, hlower⟩
    have hpush := neverRaises_snoc.mpr ⟨hset, show Op.MayFollow 0 (.push 1) from nofun⟩
    exact neverRaises_snoc.mpr ⟨hpush, show Op.MayFollow 1 (.pop 1) from nofun⟩
  have hbounds := stackDepth_exactBounds.1 comparison hnever
  exact ⟨hnever, hbounds.peak, hbounds.conservative⟩

end Jvm

end MiniJava
