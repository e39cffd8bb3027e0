import MiniJava.Proofs.Lowering.Simulation

/-!
# Lowered expressions compute their values

One lemma for each of the small functions that put the code of an expression together.
-/

namespace MiniJava.Semantics

open Ir (Operand Instr VarKey)
open Lowering

variable {c : Context} {d : Method} {m : Ir.Method}

/-- The scope of the code of a method. -/
def scopeOf (c : Context) (d : Method) : Scope :=
  { symbols := c.symbols, method := some d }

/-! ## Names -/

theorem resolve_eq (hc : c.method = .ofMethod d) (name : String) :
    (scopeOf c d).resolve name = match c.meaning name with
      | .var ty => .ok (.variable ty)
      | .field ty => .ok (.field ty)
      | .className => .ok (.className name)
      | .unknown => .error (CompileError.unresolvedName name d.name) := by
  have hlocal : c.method.local? name = d.locals.find? (·.name == name) := by rw [hc]; rfl
  have hparam : c.method.param? name = d.params.find? (·.name == name) := by rw [hc]; rfl
  rw [Context.meaning, hlocal, hparam]
  rw [Scope.resolve, scopeOf, Scope.currentMethod_some, pure_bind, Scope.localTy?]
  cases d.locals.find? (·.name == name) with
  | some var => rfl
  | none =>
    cases d.params.find? (·.name == name) with
    | some param => rfl
    | none =>
      cases c.symbols.field? name with
      | some field => rfl
      | none =>
        by_cases h : c.symbols.isImport name || name == c.symbols.className
        · simp only [if_pos h]
          rfl
        · simp only [if_neg h]
          rfl

theorem receiver_eq_ok {use : ReceiverUse} {o : Operand}
    (h : (scopeOf c d).receiver use = .ok o) :
    d.isStatic = false ∧ o = .receiver c.symbols.className := by
  obtain ⟨d', hd, h⟩ := except_bind h
  cases hd
  by_cases hstatic : d.isStatic
  · rw [if_pos hstatic] at h
    cases h
  · rw [if_neg hstatic] at h
    cases h
    exact ⟨Bool.eq_false_iff.mpr hstatic, rfl⟩

theorem read_receiver {env : Locals} {vars : Vars} (h : Agrees c env vars)
    (hstatic : c.method.isStatic = false) :
    readOperand c.platform vars (.receiver c.symbols.className) = c.receiver := by
  rw [readOperand_of_key rfl, h.receiver hstatic, Context.receiver, hstatic]
  rfl

theorem resolve_ok (hc : c.method = .ofMethod d) {name : String} {binding : Binding}
    (h : (scopeOf c d).resolve name = .ok binding) :
    (∃ ty, c.meaning name = .var ty ∧ binding = .variable ty) ∨
      (∃ ty, c.meaning name = .field ty ∧ binding = .field ty) ∨
      c.meaning name = .className ∧ binding = .className name := by
  rw [resolve_eq hc] at h
  cases hmeaning : c.meaning name with
  | unknown =>
    rw [hmeaning] at h
    cases h
  | var ty | field ty | className =>
    rw [hmeaning] at h
    cases h
    simp

theorem lowerVar_gives (hc : c.method = .ofMethod d) {name : String} {k k' : Counters} {l : Lowered}
    (h : Gives (lowerVar (scopeOf c d) name) k l k') :
    (∃ ty, c.meaning name = .var ty ∧ l = .value (.var name ty) ∧ k' = k) ∨
      ∃ ty, c.meaning name = .field ty ∧ c.method.isStatic = false ∧
        Gives (compute [] ty (.getField (.receiver c.symbols.className) name ty)) k l k' := by
  rw [lowerVar] at h
  obtain ⟨binding, hresolve, h⟩ := h.lift_bind
  obtain ⟨ty, hvar, rfl⟩ | ⟨ty, hfield, rfl⟩ | ⟨_, rfl⟩ := resolve_ok hc hresolve
  · obtain ⟨rfl, rfl⟩ := Gives.pure_iff.mp h
    exact .inl ⟨ty, hvar, rfl, rfl⟩
  · obtain ⟨object, hobject, h⟩ := h.lift_bind
    obtain ⟨hstatic, rfl⟩ := receiver_eq_ok hobject
    exact .inr ⟨ty, hfield, by rw [hc]; exact hstatic, h⟩
  · exact absurd h Gives.throw_iff.mp

/-- The instruction that stores an operand under a name: in a variable, or in a field of the
receiver. -/
inductive StoresUnder (c : Context) (target : String) (o : Operand) : Ty → Instr → Prop
  | var {ty : Ty} (h : c.meaning target = .var ty) :
    StoresUnder c target o ty (.assignVar (.var target ty) (.operand o))
  | field {ty : Ty} (h : c.meaning target = .field ty) (hstatic : c.method.isStatic = false) :
    StoresUnder c target o ty (.putField (.receiver c.symbols.className) target o)

theorem StoresUnder.nameTy {target : String} {o : Operand} {ty : Ty} {i : Instr}
    (h : StoresUnder c target o ty i) : c.nameTy? target = some ty := by
  rw [Context.nameTy?]
  cases h with
  | var h | field h => rw [h]

theorem lowerAssign_gives (hc : c.method = .ofMethod d) {target : String}
    {value : Option Ty → Lower Lowered} {k k' : Counters} {code : List Instr}
    (h : Gives (lowerAssign (scopeOf c d) target value) k code k') :
    ∃ ty l o i, Gives (value (some ty)) k l k' ∧ l.operand = some o ∧ StoresUnder c target o ty i ∧
      code = l.code ++ [i] := by
  rw [lowerAssign] at h
  obtain ⟨binding, hresolve, h⟩ := h.lift_bind
  obtain ⟨ty, hvar, rfl⟩ | ⟨ty, hfield, rfl⟩ | ⟨_, rfl⟩ := resolve_ok hc hresolve
  · obtain ⟨l, k₁, gl, h⟩ := h.bind
    obtain ⟨o, ho, h⟩ := h.lift_bind
    obtain ⟨rfl, rfl⟩ := Gives.pure_iff.mp h
    exact ⟨ty, l, o, _, gl, require_eq_ok ho, .var hvar, rfl⟩
  · obtain ⟨l, k₁, gl, h⟩ := h.bind
    obtain ⟨o, ho, h⟩ := h.lift_bind
    obtain ⟨object, hobject, h⟩ := h.lift_bind
    obtain ⟨hstatic, rfl⟩ := receiver_eq_ok hobject
    obtain ⟨rfl, rfl⟩ := Gives.pure_iff.mp h
    exact ⟨ty, l, o, _, gl, require_eq_ok ho, .field hfield (by rw [hc]; exact hstatic), rfl⟩
  · exact absurd h Gives.throw_iff.mp

theorem lowerVar_lowers (hc : c.method = .ofMethod d) (name : String) :
    Lowers c m (lowerVar (scopeOf c d) name) (c.nameTy? name) (c.read · name) := by
  intro k l k' h
  rw [Context.nameTy?]
  obtain ⟨ty, hmeaning, rfl, rfl⟩ | ⟨ty, hmeaning, hstatic, h⟩ := lowerVar_gives hc h
  · rw [hmeaning]
    refine ⟨⟨Nat.le_refl _, rfl, fun o ho => by cases ho; trivial⟩, fun {env vars pc} _ hagree => ?_⟩
    show (irMachine c.platform m).Computes 0 _ (c.read env name) _
    cases henv : env name with
    | none =>
      rw [c.read_var_none hmeaning henv]
      exact .stuck
    | some v =>
      rw [c.read_var hmeaning henv]
      by_cases hholds : c.platform.holds ty v
      · rw [expect_of_holds hholds]
        refine .pure ⟨rfl, .refl _ _ _, fun o ho => ?_⟩
        cases ho
        show readOperand c.platform vars (.var name ty) = pure v
        rw [readOperand_of_key rfl, hagree.named name v henv]
        exact expect_of_holds hholds
      · rw [Platform.expect, if_neg hholds]
        exact .stuck
  · rw [hmeaning]
    obtain ⟨rfl, rfl⟩ := gives_compute h
    refine ⟨⟨Nat.le_succ _, rfl, fun o ho => by cases ho; exact Nat.lt_succ_self _⟩,
      fun {env vars pc} hplaced hagree => ?_⟩
    show (irMachine c.platform m).Computes 0 _ (c.read env name) _
    refine finish_computes hplaced rfl (.refl _ _ _) (Nat.le_refl _) ?_ fun v w w' hv => ?_
    · show (do
        let o ← readOperand c.platform vars (.receiver c.symbols.className)
        let v ← getField (c.platform.zero ty) c.ownClass name o
        c.platform.expect ty v) = _
      rw [read_receiver hagree hstatic, c.read_field hmeaning]
    · rw [c.read_field hmeaning, ← bind_assoc] at hv
      exact c.platform.expect_holds hv

/-! ## Operators -/

theorem irBinary_holds {P : Platform} {op : Ir.BinOp} {x y v : Value} {w w' : World}
    (h : irBinary P op x y w = .ok v w') : P.holds op.resultTy v := by
  cases op with
  | and =>
    obtain ⟨l, _, _, h⟩ := Action.bind_eq_ok h
    obtain ⟨r, _, _, h⟩ := Action.bind_eq_ok h
    cases h
    exact P.holds_truth _
  | add | sub | mul | lt =>
    cases x <;> cases y <;> cases h
    first | exact P.holds_int _ | exact P.holds_truth _
  | div =>
    cases x <;> cases y <;> try cases h
    simp only [irBinary, onInts, quotient] at h
    split at h
    · cases h
    · cases h
      exact P.holds_int _

theorem fits_temp {k k' : Counters} {ty : Ty} {code : List Instr} (h : k.temps ≤ k'.temps) :
    Fits c k { k' with temps := k'.temps + 1 }
      { code, operand := some (.temp k'.temps ty) } (some ty) :=
  ⟨Nat.le_succ_of_le h, rfl, fun o ho => by cases ho; exact Nat.lt_succ_self _⟩

section Operators

variable {x y : Lower Lowered} {tx ty : Option Ty} {a b : Locals → Action Value}

theorem lowerBinary_lowers (op : Ir.BinOp) (hx : Lowers c m x tx a) (hy : Lowers c m y ty b) :
    Lowers c m (lowerBinary op x y) (some op.resultTy)
      (fun env => a env >>= fun u => b env >>= irBinary c.platform op u) := by
  intro k l k' h
  obtain ⟨l₁, k₁, l₂, k₂, o₁, o₂, gx, gy, ho₁, ho₂, h⟩ := lowerBinary_gives h
  obtain ⟨rfl, rfl⟩ := gives_compute h
  have hle := Nat.le_trans (hx gx).fits.temps_le (hy gy).fits.temps_le
  refine ⟨fits_temp hle, fun hplaced hagree => ?_⟩
  refine hx.operands hy gx gy ho₁ ho₂ hplaced.left hagree fun u v t hpc hframe hu hv => ?_
  refine finish_computes hplaced hpc hframe hle ?_ fun _ _ _ => irBinary_holds
  show (readOperand c.platform t.vars o₁ >>= fun u =>
    readOperand c.platform t.vars o₂ >>= irBinary c.platform op u) = _
  rw [hu, hv, pure_bind, pure_bind]

theorem lowerNot_lowers (hx : Lowers c m x tx a) :
    Lowers c m (lowerNot x) (some .boolean)
      (fun env => a env >>= fun v => c.platform.test v >>= fun b =>
        pure (c.platform.truth !b)) := by
  intro k l k' h
  obtain ⟨l₁, k₁, o, gx, ho, h⟩ := lowerNot_gives h
  obtain ⟨rfl, rfl⟩ := gives_compute h
  have hle := (hx gx).fits.temps_le
  refine ⟨fits_temp hle, fun hplaced hagree => ?_⟩
  refine hx.operand gx ho hplaced.left hagree fun v t hpc hframe hv => ?_
  refine finish_computes hplaced hpc hframe hle ?_ fun v' w w' hv' => ?_
  · show (readOperand c.platform t.vars o >>= fun v => c.platform.test v >>= _) = _
    rw [hv, pure_bind]
  · obtain ⟨b, _, _, hv'⟩ := Action.bind_eq_ok hv'
    cases hv'
    exact c.platform.holds_truth _

theorem newArray_holds {P : Platform} {element : Ty} {n v : Value} {w w' : World}
    (h : P.newArray element n w = .ok v w') : P.holds (.array element) v := by
  rw [Platform.newArray] at h
  cases n with
  | int n =>
    rw [newArray] at h
    by_cases hn : n < 0
    · rw [if_pos hn] at h
      cases h
    · rw [if_neg hn] at h
      cases h
      exact P.holds_ref _ _ rfl
  | bool | null | ref => cases h

theorem lowerNewArray_lowers (element : Ty) (hx : Lowers c m x tx a) :
    Lowers c m (lowerNewArray element x) (some (.array element))
      (fun env => a env >>= c.platform.newArray element) := by
  intro k l k' h
  obtain ⟨l₁, k₁, o, gx, ho, h⟩ := lowerNewArray_gives h
  obtain ⟨rfl, rfl⟩ := gives_compute h
  have hle := (hx gx).fits.temps_le
  refine ⟨fits_temp hle, fun hplaced hagree => ?_⟩
  refine hx.operand gx ho hplaced.left hagree fun v t hpc hframe hv => ?_
  refine finish_computes hplaced hpc hframe hle ?_ fun _ _ _ => newArray_holds
  show ((readOperand c.platform t.vars o >>= c.platform.newArray element) >>=
    c.platform.expect (.array element)) = _
  rw [hv, pure_bind, bind_expect fun _ _ _ => newArray_holds]

theorem Fits.element {k k' : Counters} {l : Lowered} {o : Operand} {element : Ty}
    (h : Fits c k k' l tx) (ho : l.operand = some o) (harray : o.ty = .array element) :
    tx.bind (·.element?) = some element := by
  rw [← h.ty, ho]
  show o.ty.element? = some element
  rw [harray]
  rfl

theorem arrayLength_holds {P : Platform} {array v : Value} {w w' : World}
    (h : arrayLength array w = .ok v w') : P.holds .int v := by
  obtain ⟨_, _, _, h⟩ := Action.bind_eq_ok h
  cases h
  exact P.holds_int _

theorem lowerLength_lowers (name : String) (hx : Lowers c m x tx a) :
    Lowers c m (lowerLength name x) (some .int)
      (fun env => match tx.bind (·.element?) with
        | some _ => a env >>= arrayLength
        | none => Action.stuck) := by
  intro k l k' h
  obtain ⟨l₁, k₁, o, element, gx, ho, harray, h⟩ := lowerLength_gives h
  obtain ⟨rfl, rfl⟩ := gives_compute h
  have hle := (hx gx).fits.temps_le
  refine ⟨fits_temp hle, fun {env} _ _ hplaced hagree => ?_⟩
  rw [(hx gx).fits.element ho harray]
  show (irMachine c.platform m).Computes 0 _ (a env >>= arrayLength) _
  refine hx.operand gx ho hplaced.left hagree fun v t hpc hframe hv => ?_
  refine finish_computes hplaced hpc hframe hle ?_ fun _ _ _ => arrayLength_holds
  show ((readOperand c.platform t.vars o >>= arrayLength) >>= c.platform.expect .int) = _
  rw [hv, pure_bind, bind_expect fun _ _ _ => arrayLength_holds]

theorem lowerIndex_lowers (name : String) (hx : Lowers c m x tx a) (hy : Lowers c m y ty b) :
    Lowers c m (lowerIndex name x y) (tx.bind (·.element?))
      (fun env => match tx.bind (·.element?) with
        | some element => a env >>= fun array => b env >>= fun index =>
          loadElement array index >>= c.platform.expect element
        | none => Action.stuck) := by
  intro k l k' h
  obtain ⟨l₁, k₁, l₂, k₂, o₁, o₂, element, gx, gy, ho₁, ho₂, harray, h⟩ := lowerIndex_gives h
  obtain ⟨rfl, rfl⟩ := gives_compute h
  have hle := Nat.le_trans (hx gx).fits.temps_le (hy gy).fits.temps_le
  rw [(hx gx).fits.element ho₁ harray]
  refine ⟨fits_temp hle, fun {env} _ _ hplaced hagree => ?_⟩
  show (irMachine c.platform m).Computes 0 _ (a env >>= fun array => b env >>= fun index =>
    loadElement array index >>= c.platform.expect element) _
  refine hx.operands hy gx gy ho₁ ho₂ hplaced.left hagree fun u v t hpc hframe hu hv => ?_
  refine finish_computes hplaced hpc hframe hle ?_ fun _ _ _ => c.platform.expect_holds
  show (readOperand c.platform t.vars o₁ >>= fun u => readOperand c.platform t.vars o₂ >>=
    fun v => loadElement u v >>= c.platform.expect element) = _
  rw [hu, hv, pure_bind, pure_bind]

/-! ## Logical operators -/

/-- The right operand of a logical operator that the left one does not decide. -/
def rightOf (ty : Option Ty) (b : Locals → Action Value) (env : Locals) :
    Action Value := do
  Action.check (ty = some .boolean)
  b env

theorem Lowers.right {β : Type} {f : Value → Action β} {R : β → IrState → Prop} {k k₁ : Counters}
    {r : Lowered} {o : Operand} {env : Locals} {vars : Vars} {pc : Nat} (hy : Lowers c m y ty b)
    (gy : Gives y k r k₁) (ho : r.operand = some o) (hplaced : Placed m.instructions pc r.code)
    (hagree : Agrees c env vars)
    (hf : ∀ v t, t.pc = pc + r.code.length → Frame k.temps k₁.temps vars t.vars →
      readOperand c.platform t.vars o = pure v → (irMachine c.platform m).Computes 0 t (f v) R) :
    (irMachine c.platform m).Computes 0 { pc, vars } (rightOf ty b env >>= f) R := by
  rw [rightOf, Action.check]
  by_cases hty : ty = some .boolean
  · rw [if_pos (decide_eq_true hty)]
    exact hy.operand gy ho hplaced hagree hf
  · rw [if_neg (by simpa using hty)]
    exact .stuck

/-- The code of the right operand alone, when the left one is a constant that does not decide. -/
theorem right_lowers (hy : Lowers c m y ty b) :
    Lowers c m y ty (fun env => rightOf ty b env >>= fun v => c.platform.test v >>= fun r =>
      pure (c.platform.truth r)) := by
  intro k l k' h
  refine ⟨(hy h).fits, fun {env} _ _ hplaced hagree => ?_⟩
  show (irMachine c.platform m).Computes 0 _ (rightOf ty b env >>= _) _
  rw [rightOf, Action.check]
  by_cases hty : ty = some .boolean
  · rw [if_pos (decide_eq_true hty)]
    refine ((hy h).computes hplaced hagree).bind fun v t ht => ?_
    rcases c.platform.test_cases v with htest | ⟨r, rfl, htest⟩
    · rw [htest]
      exact .stuck
    · rw [htest, pure_bind]
      exact .pure ht
  · rw [if_neg (by simpa using hty)]
    exact .stuck

theorem assign_truth_computes {s : IrState} {id : Nat} {o : Operand} {v : Value}
    (hat : m.instructions[s.pc]? = some (.assignVar (.temp id .boolean) (.operand o)))
    (ho : readOperand c.platform s.vars o = pure v) :
    (irMachine c.platform m).Computes 0 s
      (c.platform.test v >>= fun b => pure (c.platform.truth b)) fun u t =>
        t.pc = s.pc + 1 ∧ t.vars = s.vars.set (.temp id) u ∧ c.platform.holds .boolean u := by
  rcases c.platform.test_cases v with htest | ⟨b, rfl, htest⟩
  · rw [htest]
    exact .stuck
  · rw [htest, pure_bind]
    refine (assign_computes hat ho fun u w w' hu => ?_).mono (Nat.zero_le 1) fun _ _ h => h
    cases hu
    exact c.platform.holds_truth b

theorem end_label_computes {s : IrState} {label : Label} {id low high place : Nat} {vars : Vars}
    {v : Value} (hat : m.instructions[s.pc]? = some (.label label)) (hplace : s.pc + 1 = place)
    (hframe : Frame low high vars s.vars)
    (hread : readOperand c.platform s.vars (.temp id .boolean) = pure v) :
    (irMachine c.platform m).Computes 0 s (pure v)
      (Reached c.platform low high vars place (some (.temp id .boolean))) := by
  refine (Machine.Computes.step (label_step hat) ?_).mono (Nat.zero_le 1) fun _ _ h => h
  exact .pure ⟨hplace, hframe, fun o ho => by cases ho; exact hread⟩

theorem lowerAnd_lowers (hm : m.LabelsPlaced) (hx : Lowers c m x tx a) (hy : Lowers c m y ty b) :
    Lowers c m (lowerAnd none x y) (some .boolean)
      (fun env => shortCircuit c.platform false (a env) (rightOf ty b env)) := by
  intro k l k' h
  obtain ⟨l₁, k₁, l₂, o₁, o₂, gx, gy, ho₁, ho₂, rfl⟩ := lowerAnd_gives h
  have hle₁ : k.temps ≤ k₁.temps := (hx gx).fits.temps_le
  have hle₂ : k₁.temps + 1 ≤ k'.temps := (hy gy).fits.temps_le
  refine ⟨⟨by omega, rfl, fun o ho => by cases ho; exact hle₂⟩,
    fun {env vars pc} hplaced hagree => ?_⟩
  have hjump := hplaced.left.left.right
  have hright := hplaced.left.right
  have hend := hplaced.right
  simp only [List.length_append, List.length_cons, List.length_nil] at hright hend ⊢
  refine hx.operand gx ho₁ hplaced.left.left.left hagree
    fun v t hpc hframe hv => ?_
  obtain ⟨tpc, tvars⟩ := t
  subst hpc
  have hcond : (irMachine c.platform m).Computes 1 _ (pure v >>= c.platform.test) _ :=
    condGoto_computes (s := ⟨_, tvars⟩) hm hjump.head hjump.tail.tail.tail.head hv
  rw [pure_bind] at hcond
  refine (hcond.mono (Nat.zero_le 1) fun _ _ h => h).bind fun test t ht => ?_
  subst ht
  cases test with
  | false =>
    have hassign := assign_truth_computes (s := ⟨pc + l₁.code.length + 1, tvars⟩)
      (o := .bool false) hjump.tail.head (v := c.platform.truth false) rfl
    rw [c.platform.test_truth, pure_bind] at hassign
    refine hassign.then_pure fun u t ⟨hpc, hvars, hu⟩ => ?_
    have hgoto := hjump.tail.tail.head
    rw [← hpc] at hgoto
    refine .skip (goto_step hm hgoto hend.tail.head) ?_
    refine end_label_computes hend.tail.head (by simp only; omega) ?_ (hvars ▸ read_temp hu)
    rw [hvars]
    exact (hframe.trans (Frame.set _ _ u) hle₁ (Nat.le_succ _)).widen (Nat.le_refl _) hle₂
  | true =>
    refine .skip (label_step hjump.tail.tail.tail.head) ?_
    show (irMachine c.platform m).Computes 0 ⟨pc + l₁.code.length + 3 + 1, tvars⟩ _ _
    refine hy.right gy ho₂ (hright.at (by omega)) (hagree.frame hframe)
      fun v t hpc hframe' hv => ?_
    have hassign : Placed m.instructions t.pc _ := hend.at (by omega)
    refine (assign_truth_computes hassign.head hv).then_pure fun u t' ⟨hpc', hvars, hu⟩ => ?_
    have hlabel := hassign.tail.head
    rw [← hpc'] at hlabel
    refine end_label_computes hlabel (by omega) ?_ (hvars ▸ read_temp hu)
    rw [hvars]
    have hset := (Frame.set k₁.temps t.vars u).widen (Nat.le_refl _) hle₂
    exact ((hframe.widen (Nat.le_refl _) (by omega)).join (hframe'.widen (by simp only; omega)
      (Nat.le_refl _))).join (hset.widen hle₁ (Nat.le_refl _))

theorem lowerOr_lowers (hm : m.LabelsPlaced) (hx : Lowers c m x tx a) (hy : Lowers c m y ty b) :
    Lowers c m (lowerOr none x y) (some .boolean)
      (fun env => shortCircuit c.platform true (a env) (rightOf ty b env)) := by
  intro k l k' h
  obtain ⟨l₁, k₁, l₂, o₁, o₂, gx, gy, ho₁, ho₂, rfl⟩ := lowerOr_gives h
  have hle₁ : k.temps ≤ k₁.temps := (hx gx).fits.temps_le
  have hle₂ : k₁.temps + 1 ≤ k'.temps := (hy gy).fits.temps_le
  refine ⟨⟨by omega, rfl, fun o ho => by cases ho; exact hle₂⟩,
    fun {env vars pc} hplaced hagree => ?_⟩
  have hjump := hplaced.left.left.right
  have hright := hplaced.left.right
  have hend := hplaced.right
  simp only [List.length_append, List.length_cons, List.length_nil] at hright hend ⊢
  refine hx.operand gx ho₁ hplaced.left.left.left hagree
    fun v t hpc hframe hv => ?_
  obtain ⟨tpc, tvars⟩ := t
  subst hpc
  have hcond : (irMachine c.platform m).Computes 1 _ (pure v >>= c.platform.test) _ :=
    condGoto_computes (s := ⟨_, tvars⟩) hm hjump.head hend.tail.tail.head hv
  rw [pure_bind] at hcond
  refine (hcond.mono (Nat.zero_le 1) fun _ _ h => h).bind fun test t ht => ?_
  subst ht
  cases test with
  | false =>
    show (irMachine c.platform m).Computes 0 ⟨pc + l₁.code.length + 1, tvars⟩ _ _
    refine hy.right gy ho₂ (hright.at (by omega)) (hagree.frame hframe)
      fun v t hpc hframe' hv => ?_
    have hassign : Placed m.instructions t.pc _ := hend.at (by omega)
    refine (assign_truth_computes hassign.head hv).then_pure fun u t' ⟨hpc', hvars, hu⟩ => ?_
    have hgoto := hassign.tail.head
    rw [← hpc'] at hgoto
    refine .skip (goto_step hm hgoto hend.tail.tail.tail.tail.head) ?_
    refine end_label_computes hend.tail.tail.tail.tail.head (by simp only; omega) ?_
      (hvars ▸ read_temp hu)
    rw [hvars]
    have hset := (Frame.set k₁.temps t.vars u).widen (Nat.le_refl _) hle₂
    exact ((hframe.widen (Nat.le_refl _) (by omega)).join (hframe'.widen (by simp only; omega)
      (Nat.le_refl _))).join (hset.widen hle₁ (Nat.le_refl _))
  | true =>
    refine .skip (label_step hend.tail.tail.head) ?_
    have hassign := hend.tail.tail.tail
    have htruth := assign_truth_computes (s := ⟨_, tvars⟩) (o := .bool true) hassign.head
      (v := c.platform.truth true) rfl
    rw [c.platform.test_truth, pure_bind] at htruth
    refine htruth.then_pure fun u t ⟨hpc, hvars, hu⟩ => ?_
    have hlabel := hassign.tail.head
    rw [← hpc] at hlabel
    refine end_label_computes hlabel (by simp only at hpc; omega) ?_ (hvars ▸ read_temp hu)
    rw [hvars]
    exact (hframe.trans (Frame.set _ _ u) hle₁ (Nat.le_succ _)).widen (Nat.le_refl _) hle₂

end Operators

end MiniJava.Semantics
