import MiniJava.Proofs.Lowering.Inversion
import MiniJava.Proofs.Lowering.Layout
import MiniJava.Proofs.Semantics.Intermediate

/-!
# Source and intermediate code side by side

What it means that lowered code computes the value of an expression. The variables of the
intermediate code hold at least what the variables of the source hold (`Agrees`), and code for an
expression changes nothing but the temporaries that were numbered while it was made (`Frame`), so
that operands stay readable while the code of their neighbours runs.
-/

namespace MiniJava.Semantics

open Ir (Operand Instr VarKey)
open Lowering (Counters Lower Lowered Scope)

/-! ## Variables -/

/-- Only temporaries in a range of numbers have changed. -/
def Frame (low high : Nat) (vars vars' : Vars) : Prop :=
  ∀ key, (∀ id, key = .temp id → id < low ∨ high ≤ id) → vars' key = vars key

theorem Frame.refl (low high : Nat) (vars : Vars) : Frame low high vars vars :=
  fun _ _ => rfl

theorem Frame.trans {a b d : Nat} {vars vars' vars'' : Vars} (h : Frame a b vars vars')
    (h' : Frame b d vars' vars'') (hab : a ≤ b) (hbd : b ≤ d) : Frame a d vars vars'' := by
  intro key hkey
  rw [h' key fun id hid => by have := hkey id hid; omega,
    h key fun id hid => by have := hkey id hid; omega]

theorem Frame.widen {a b a' b' : Nat} {vars vars' : Vars} (h : Frame a b vars vars')
    (ha : a' ≤ a) (hb : b ≤ b') : Frame a' b' vars vars' :=
  fun key hkey => h key fun id hid => by have := hkey id hid; omega

theorem Frame.join {low high : Nat} {vars vars' vars'' : Vars} (h : Frame low high vars vars')
    (h' : Frame low high vars' vars'') : Frame low high vars vars'' :=
  fun key hkey => (h' key hkey).trans (h key hkey)

theorem Frame.set (id : Nat) (vars : Vars) (v : Value) :
    Frame id (id + 1) vars (vars.set (.temp id) v) := by
  intro key hkey
  rw [Vars.set, if_neg]
  rintro rfl
  have := hkey id rfl
  omega

/-- The intermediate code knows the values of the variables of the source. -/
structure Agrees (c : Context) (env : Locals) (vars : Vars) : Prop where
  named : ∀ name v, env name = some v → vars (.named name) = some v
  receiver : c.method.isStatic = false → vars .receiver = some c.self

theorem Agrees.frame {c : Context} {env : Locals} {vars vars' : Vars} {low high : Nat}
    (h : Agrees c env vars) (hframe : Frame low high vars vars') : Agrees c env vars' where
  named name v hv := by rw [hframe (.named name) (fun _ => nofun), h.named name v hv]
  receiver hstatic := by rw [hframe .receiver (fun _ => nofun), h.receiver hstatic]

/-! ## Operands -/

variable {P : Platform}

/-- What operands of lowered expressions are like: a temporary has been numbered, a receiver is one
of the class, and the name of a class is none. -/
def Proper (c : Context) (high : Nat) : Operand → Prop
  | .temp id _ => id < high
  | .receiver className => className = c.symbols.className
  | .classRef _ => False
  | .literal _ | .var .. => True

theorem Proper.mono {c : Context} {n n' : Nat} {o : Operand} (h : Proper c n o) (hn : n ≤ n') :
    Proper c n' o := by
  cases o with
  | temp id ty => exact Nat.lt_of_lt_of_le h hn
  | receiver | classRef | literal | var => exact h

theorem readOperand_of_key {vars : Vars} {o : Operand} {key : Ir.VarKey} (h : o.key? = some key) :
    readOperand P vars o = (vars key).elim Action.stuck (P.expect o.ty) := by
  cases o with
  | literal | classRef => cases h
  | var | temp | receiver =>
    cases h
    rw [readOperand]
    dsimp only [Operand.key?, Option.bind_some]
    cases vars _ <;> rfl

theorem read_frame {c : Context} {n high : Nat} {o : Operand} {vars vars' : Vars}
    (ho : Proper c n o) (h : Frame n high vars vars') :
    readOperand P vars' o = readOperand P vars o := by
  cases o with
  | literal value => rfl
  | var name ty =>
    rw [readOperand_of_key rfl, readOperand_of_key rfl, h (.named name) fun _ hid => by cases hid]
  | temp id ty =>
    rw [readOperand_of_key rfl, readOperand_of_key rfl,
      h (.temp id) fun _ hid => by cases hid; exact .inl ho]
  | receiver className =>
    rw [readOperand_of_key rfl, readOperand_of_key rfl, h .receiver fun _ hid => by cases hid]
  | classRef name => exact ho.elim

theorem expect_of_holds {ty : Ty} {v : Value} (h : P.holds ty v) : P.expect ty v = pure v :=
  if_pos h

theorem read_temp {vars : Vars} {id : Nat} {ty : Ty} {v : Value} (h : P.holds ty v) :
    readOperand P (vars.set (.temp id) v) (.temp id ty) = pure v := by
  rw [readOperand_of_key rfl, Vars.set, if_pos rfl]
  exact expect_of_holds h

/-! ## Instructions -/

section Instructions

variable {m : Ir.Method} {s : IrState}

theorem irMachine_at {i : Instr} (h : m.instructions[s.pc]? = some i) :
    irMachine P m s = irInstr P m s i := by
  rw [irMachine, h]

theorem bind_expect {ty : Ty} {a : Action Value}
    (h : ∀ v w w', a w = .ok v w' → P.holds ty v) : (a >>= P.expect ty) = a := by
  funext w
  rw [Action.bind_apply]
  cases ha : a w with
  | ok v w' => exact congrFun (expect_of_holds (h v w w' ha)) w'
  | threw e w' => rfl
  | stuck => rfl
  | outOfFuel => rfl

theorem assign_computes {id : Nat} {ty : Ty} {value : Ir.Value} {a : Action Value}
    (hat : m.instructions[s.pc]? = some (.assignVar (.temp id ty) value))
    (hvalue : irValue P s.vars value = a) (hty : ∀ v w w', a w = .ok v w' → P.holds ty v) :
    (irMachine P m).Computes 1 s a fun v t =>
      t.pc = s.pc + 1 ∧ t.vars = s.vars.set (.temp id) v ∧ P.holds ty v := by
  have hstep : irMachine P m s = a >>= fun v =>
      pure (.next { pc := s.pc + 1, vars := s.vars.set (.temp id) v }) := by
    rw [irMachine_at hat]
    show (irValue P s.vars value >>= fun v => P.expect ty v >>= fun v => _) = _
    rw [hvalue, ← bind_assoc, bind_expect hty]
  exact .single hstep fun v w w' hv => ⟨rfl, rfl, hty v w w' hv⟩

theorem condGoto_computes {value : Ir.Value} {label : Label} {place : Nat} {a : Action Value}
    (hm : m.LabelsPlaced) (hat : m.instructions[s.pc]? = some (.condGoto value label))
    (hlabel : m.instructions[place]? = some (.label label)) (hvalue : irValue P s.vars value = a) :
    (irMachine P m).Computes 1 s (a >>= P.test) fun b t =>
      t = { s with pc := if b then place else s.pc + 1 } := by
  have hstep : irMachine P m s = (a >>= P.test) >>= fun b =>
      pure (.next { s with pc := if b then place else s.pc + 1 }) := by
    rw [irMachine_at hat, irInstr, hm place label hlabel, hvalue, bind_assoc]
    refine congrArg (a >>= ·) (funext fun v => congrArg (P.test v >>= ·) (funext fun b => ?_))
    cases b <;> rfl
  exact .single hstep fun b _ _ _ => rfl

theorem goto_step {label : Label} {place : Nat} (hm : m.LabelsPlaced)
    (hat : m.instructions[s.pc]? = some (.goto label))
    (hlabel : m.instructions[place]? = some (.label label)) :
    irMachine P m s = pure (.next { s with pc := place }) := by
  rw [irMachine_at hat, irInstr, hm place label hlabel]

theorem label_step {label : Label} (hat : m.instructions[s.pc]? = some (.label label)) :
    irMachine P m s = pure (.next { s with pc := s.pc + 1 }) := by
  rw [irMachine_at hat, irInstr]

end Instructions

/-! ## Lowered expressions -/

/-- Where the code of an expression leads: to the place behind it, with the value of the expression
in its operand. -/
structure Reached (P : Platform) (low high : Nat) (vars : Vars) (place : Nat)
    (operand : Option Operand) (v : Value) (s : IrState) : Prop where
  pc : s.pc = place
  frame : Frame low high vars s.vars
  reads : ∀ o, operand = some o → readOperand P s.vars o = pure v

/-- A lowered expression fits its type and the counters before and after it. -/
structure Fits (c : Context) (k k' : Counters) (l : Lowered) (ty : Option Ty) : Prop where
  temps_le : k.temps ≤ k'.temps
  ty : l.operand.map (·.ty) = ty
  proper : ∀ o, l.operand = some o → Proper c k'.temps o

/-- A lowered expression fits, and its code computes what an action of the variables does. -/
structure ExprLowered (c : Context) (m : Ir.Method) (k k' : Counters) (l : Lowered) (ty : Option Ty)
    (a : Locals → Action Value) : Prop where
  fits : Fits c k k' l ty
  computes : ∀ {env vars pc}, Placed m.instructions pc l.code → Agrees c env vars →
    (irMachine c.platform m).Computes 0 { pc, vars } (a env)
      (Reached c.platform k.temps k'.temps vars (pc + l.code.length) l.operand)

/-- Lowering gives code that computes the values of an expression of some type. -/
def Lowers (c : Context) (m : Ir.Method) (x : Lower Lowered) (ty : Option Ty)
    (a : Locals → Action Value) : Prop :=
  ∀ ⦃k l k'⦄, Gives x k l k' → ExprLowered c m k k' l ty a

theorem finish_computes {m : Ir.Method} {k k' : Counters} {vars : Vars} {pc : Nat}
    {code : List Instr} {ty : Ty} {value : Ir.Value} {t : IrState} {a : Action Value}
    (hplaced : Placed m.instructions pc (code ++ [.assignVar (.temp k'.temps ty) value]))
    (ht : t.pc = pc + code.length) (hframe : Frame k.temps k'.temps vars t.vars)
    (hle : k.temps ≤ k'.temps) (hvalue : irValue P t.vars value = a)
    (hty : ∀ v w w', a w = .ok v w' → P.holds ty v) :
    (irMachine P m).Computes 0 t a
      (Reached P k.temps (k'.temps + 1) vars
        (pc + (code ++ [Instr.assignVar (.temp k'.temps ty) value]).length)
        (some (.temp k'.temps ty))) := by
  have hat := hplaced.right.head
  rw [← ht] at hat
  refine (assign_computes hat hvalue hty).mono (Nat.zero_le 1) fun v u ⟨hpc, hvars, hholds⟩ => ?_
  refine ⟨?_, ?_, fun o ho => ?_⟩
  · rw [hpc, ht, List.length_append]
    rfl
  · rw [hvars]
    exact hframe.trans (Frame.set _ t.vars v) hle (Nat.le_succ _)
  · cases ho
    rw [hvars]
    exact read_temp hholds

theorem Lowers.operand {c : Context} {m : Ir.Method} {x : Lower Lowered} {ty : Option Ty}
    {a : Locals → Action Value} {β : Type} {f : Value → Action β} {R : β → IrState → Prop}
    {k k₁ : Counters} {l : Lowered} {o : Operand} {env : Locals} {vars : Vars} {pc : Nat}
    (hx : Lowers c m x ty a) (gx : Gives x k l k₁) (ho : l.operand = some o)
    (hplaced : Placed m.instructions pc l.code) (hagree : Agrees c env vars)
    (hf : ∀ v t, t.pc = pc + l.code.length → Frame k.temps k₁.temps vars t.vars →
      readOperand c.platform t.vars o = pure v → (irMachine c.platform m).Computes 0 t (f v) R) :
    (irMachine c.platform m).Computes 0 { pc, vars } (a env >>= f) R :=
  ((hx gx).computes hplaced hagree).bind fun v t ht => hf v t ht.pc ht.frame (ht.reads o ho)

theorem Lowers.operands {c : Context} {m : Ir.Method} {x y : Lower Lowered} {tx ty : Option Ty}
    {a b : Locals → Action Value} {β : Type} {f : Value → Value → Action β}
    {R : β → IrState → Prop} {k k₁ k₂ : Counters} {l r : Lowered} {lo ro : Operand}
    {env : Locals} {vars : Vars} {pc : Nat} (hx : Lowers c m x tx a) (hy : Lowers c m y ty b)
    (gx : Gives x k l k₁) (gy : Gives y k₁ r k₂) (hlo : l.operand = some lo)
    (hro : r.operand = some ro) (hplaced : Placed m.instructions pc (l.code ++ r.code))
    (hagree : Agrees c env vars)
    (hf : ∀ u v t, t.pc = pc + (l.code ++ r.code).length → Frame k.temps k₂.temps vars t.vars →
      readOperand c.platform t.vars lo = pure u → readOperand c.platform t.vars ro = pure v →
      (irMachine c.platform m).Computes 0 t (f u v) R) :
    (irMachine c.platform m).Computes 0 { pc, vars } (a env >>= fun u => b env >>= f u) R := by
  have hfx := (hx gx).fits
  refine hx.operand gx hlo hplaced.left hagree fun u t hpc hframe hu => ?_
  obtain ⟨tpc, tvars⟩ := t
  subst hpc
  refine hy.operand gy hro hplaced.right (hagree.frame hframe) fun v t' hpc' hframe' hv => ?_
  refine hf u v t' ?_ (hframe.trans hframe' hfx.temps_le (hy gy).fits.temps_le) ?_ hv
  · rw [hpc', List.length_append, Nat.add_assoc]
  · rw [read_frame (hfx.proper lo hlo) hframe', hu]

end MiniJava.Semantics
