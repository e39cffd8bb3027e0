import MiniJava.Proofs.Emission.Blocks
import MiniJava.Proofs.Lowering.Failures

/-!
# Which code cannot be emitted

Whether an instruction can be emitted can be seen from the instruction and the method it is in. What
was emitted before it does not matter: the only thing that emission remembers and looks at is the
object that waits for its constructor, and that one is in a variable with a register. So there is a
check that finds the first instruction without code, together with the error it gives.
-/

namespace MiniJava

theorem except_forM_ok {ε α : Type} {check : α → Except ε Unit} :
    ∀ {xs : List α}, xs.forM check = .ok () ↔ ∀ x ∈ xs, check x = .ok ()
  | [] => ⟨fun _ => nofun, fun _ => rfl⟩
  | x :: rest => by
    constructor
    · intro h
      obtain ⟨_, hx, hrest⟩ := except_bind h
      exact List.forall_mem_cons.mpr ⟨hx, except_forM_ok.mp hrest⟩
    · intro h
      obtain ⟨hx, hrest⟩ := List.forall_mem_cons.mp h
      show (check x >>= fun _ => rest.forM check) = .ok ()
      rw [hx]
      exact except_forM_ok.mpr hrest

theorem except_forM_error {ε α : Type} {check : α → Except ε Unit} {e : ε} :
    ∀ {xs : List α}, xs.forM check = .error e → ∃ x ∈ xs, check x = .error e
  | x :: rest, h => by
    rcases except_bind_error h with h | ⟨_, _, h⟩
    · exact ⟨x, List.mem_cons_self, h⟩
    · obtain ⟨y, hy, h⟩ := except_forM_error h
      exact ⟨y, List.mem_cons_of_mem _ hy, h⟩

/-! ## Checks that decide a computation -/

/-- A check decides a computation with a state: where it passes, the computation gives a result from
every state with a property, and leads to such a state again; where it does not, the computation
fails from all of them with the error of the check. -/
def Decides {ε σ α β : Type} (I : σ → Prop) (check : Except ε β) (x : ExceptT ε (StateM σ) α) :
    Prop :=
  ∀ s, I s → match check with
    | .ok _ => ∃ a s', Gives x s a s' ∧ I s'
    | .error e => ∃ s', Fails x s e s'

namespace Decides

variable {ε σ α α' β β' : Type} {I : σ → Prop} {check : Except ε β} {check' : Except ε β'}
  {x : ExceptT ε (StateM σ) α} {f : α → ExceptT ε (StateM σ) α'}

theorem pure {a : α} :
    Decides I (.ok () : Except ε Unit) (Pure.pure a : ExceptT ε (StateM σ) α) :=
  fun s hs => ⟨a, s, rfl, hs⟩

theorem throw {e : ε} : Decides I (.error e : Except ε β) (throw e : ExceptT ε (StateM σ) α) :=
  fun s _ => ⟨s, rfl⟩

theorem lift (x : Except ε α) : Decides I x (liftM x : ExceptT ε (StateM σ) α) := by
  intro s hs
  cases x with
  | ok a => exact ⟨a, s, rfl, hs⟩
  | error e => exact ⟨s, rfl⟩

theorem get : Decides I (.ok () : Except ε Unit) (MonadState.get : ExceptT ε (StateM σ) σ) :=
  fun s hs => ⟨s, s, rfl, hs⟩

theorem modify {g : σ → σ} (h : ∀ s, I s → I (g s)) :
    Decides I (.ok () : Except ε Unit) (modify g : ExceptT ε (StateM σ) PUnit) :=
  fun s hs => ⟨⟨⟩, g s, rfl, h s hs⟩

/-- A sequence is decided by the checks of its parts, one after the other. The second part only
matters where the first one has passed. -/
theorem bind_of_ok (hx : Decides I check x)
    (hf : ∀ b, check = .ok b → ∀ a, Decides I check' (f a)) :
    Decides I (check >>= fun _ => check') (x >>= f) := by
  intro s hs
  have hfirst := hx s hs
  cases check with
  | error e =>
    obtain ⟨t, ht⟩ := hfirst
    refine ⟨t, ?_⟩
    rw [Fails, run_bind, show (x.run).run s = (.error e, t) from ht]
  | ok b =>
    obtain ⟨a, t, hgives, ht⟩ := hfirst
    have hsecond := hf b rfl a t ht
    cases check' with
    | error e =>
      obtain ⟨u, hu⟩ := hsecond
      refine ⟨u, ?_⟩
      rw [Fails, run_bind, show (x.run).run s = (.ok a, t) from hgives]
      exact hu
    | ok b' =>
      obtain ⟨a', u, hu, hI⟩ := hsecond
      exact ⟨a', u, Gives.bind_iff.mpr ⟨a, t, hgives, hu⟩, hI⟩

theorem bind (hx : Decides I check x) (hf : ∀ a, Decides I check' (f a)) :
    Decides I (check >>= fun _ => check') (x >>= f) :=
  hx.bind_of_ok fun _ _ => hf

theorem sure (hx : Decides I (.ok () : Except ε Unit) x) (hf : ∀ a, Decides I check' (f a)) :
    Decides I check' (x >>= f) :=
  hx.bind hf

theorem last {check : Except ε Unit} (hx : Decides I check x)
    (hf : check = .ok () → ∀ a, Decides I (.ok () : Except ε Unit) (f a)) :
    Decides I check (x >>= f) := by
  have h := hx.bind_of_ok fun _ hcheck => hf hcheck
  cases check with
  | ok _ => exact h
  | error _ => exact h

theorem gives {s : σ} {b : β} (h : Decides I check x) (hcheck : check = .ok b) (hs : I s) :
    ∃ a s', Gives x s a s' ∧ I s' := by
  have := h s hs
  rwa [hcheck] at this

theorem fails {s : σ} {e : ε} (h : Decides I check x) (hcheck : check = .error e) (hs : I s) :
    ∃ s', Fails x s e s' := by
  have := h s hs
  rwa [hcheck] at this

theorem of_gives {s s' : σ} {a : α} (h : Decides I check x) (hs : I s) (hx : Gives x s a s') :
    ∃ b, check = .ok b := by
  cases hcheck : check with
  | ok b => exact ⟨b, rfl⟩
  | error e =>
    obtain ⟨t, ht⟩ := h.fails hcheck hs
    rw [Gives, show (x.run).run s = (.error e, t) from ht] at hx
    cases hx

theorem of_fails {s s' : σ} {e : ε} (h : Decides I check x) (hs : I s) (hx : Fails x s e s') :
    check = .error e := by
  cases hcheck : check with
  | ok b =>
    obtain ⟨a, t, ht, _⟩ := h.gives hcheck hs
    rw [Fails, show (x.run).run s = (.ok a, t) from ht] at hx
    cases hx
  | error e' =>
    obtain ⟨t, ht⟩ := h.fails hcheck hs
    rw [Fails, show (x.run).run s = (.error e', t) from ht] at hx
    cases hx
    rfl

end Decides

namespace Jvm

open Ir (Operand Value Call)

/-! ## The check of an instruction -/

variable (f : Frame)

/-- An operand can be pushed. -/
def checkLoad (o : Operand) : Except CompileError Unit := do
  let _ ← loadInstr f o

/-- A result can be stored into an operand. -/
def checkStore (o : Operand) : Except CompileError Unit := do
  let _ ← storeInstr f o

/-- What stands for the object of a call can be pushed. -/
def checkReceiver (invocation : Invocation) (target : Operand) : Except CompileError Unit :=
  match invocation with
  | .static => .ok ()
  | .special | .virtual => checkLoad f target

/-- A method can be invoked. -/
def checkInvoke (invocation : Invocation) (call : Call) : Except CompileError Unit :=
  match call.method with
  | none => .error (.contract (.noMethodName call.kind))
  | some _ => do
    let _ ← callOwner f invocation call.target
    checkReceiver f invocation call.target
    call.args.forM (checkLoad f)

/-- An array can be allocated. -/
def checkNewArray (call : Call) : Except CompileError Unit :=
  match call.returnTy.element?, call.args.head? with
  | none, _ => .error (.contract .allocationOutsideAssignment)
  | some _, none => .error (.contract .arrayWithoutSize)
  | some _, some size => checkLoad f size

/-- There is code for a call other than the allocation of an object. -/
def checkCall (call : Call) : Except CompileError Unit :=
  match call.kind with
  | .new => checkNewArray f call
  | .arrayLength => checkLoad f call.target
  | .invokeSpecial => checkInvoke f .special call
  | .invokeVirtual => checkInvoke f .virtual call
  | .invokeStatic => checkInvoke f .static call

/-- A value can be pushed. -/
def checkValue : Value → Except CompileError Unit
  | .operand o | .not o => checkLoad f o
  | .binary _ left right => do
    checkLoad f left
    checkLoad f right
  | .getField object _ _ => do
    let _ ← ownerOf f object
    checkLoad f object
  | .arrayLoad array index _ => do
    checkLoad f array
    checkLoad f index
  | .call call => checkCall f call

/-- An object can be allocated for a variable. -/
def checkNewObject (dest : Operand) (call : Call) : Except CompileError Unit :=
  match call.returnTy with
  | .object _ => checkStore f dest
  | ty => .error (.contract (.allocatedNonClass ty))

/-- A value can be assigned to a variable. -/
def checkAssignVar (dest : Operand) (value : Value) : Except CompileError Unit :=
  if value.ty.isVoid then .error (.contract (.voidAssigned dest))
  else do
    checkValue f value
    checkStore f dest

/-- There is code for an instruction. -/
def checkInstr : Ir.Instr → Except CompileError Unit
  | .assign (.var dest) value =>
    match value with
    | .call call =>
      if call.isObjectNew then checkNewObject f dest call else checkAssignVar f dest value
    | _ => checkAssignVar f dest value
  | .assign (.element array index _) value => do
    checkLoad f array
    checkLoad f index
    checkValue f value
  | .putField object _ value => do
    let _ ← ownerOf f object
    checkLoad f object
    checkLoad f value
  | .call call =>
    if call.isObjectNew then .error (.contract .bareAllocation) else checkCall f call
  | .condGoto condition _ => checkValue f condition
  | .ret (some o) => checkLoad f o
  | .ret none | .label _ | .goto _ => .ok ()

/-! ## What the check decides -/

/-- The object that waits for its constructor can be pushed. -/
def Waiting (s : Emitted) : Prop :=
  ∀ o, s.pending = some o → checkLoad f o = .ok ()

/-- A check decides a step of emission. -/
abbrev DecidesEmit {α β : Type} (check : Except CompileError β) (x : Emit α) : Prop :=
  Decides (Waiting f) check x

variable {f}

theorem emit_decided (i : Instr) (pops pushes : Nat) : DecidesEmit f (.ok ()) (emit i pops pushes) :=
  .modify fun _ hs => hs

theorem emitPlain_decided (i : Instr) : DecidesEmit f (.ok ()) (emitPlain i) :=
  .modify fun _ hs => hs

theorem newLabel_decided (role : LabelRole) : DecidesEmit f (.ok ()) (newLabel role) :=
  fun s hs => ⟨.numbered role s.nextLabel, { s with nextLabel := s.nextLabel + 1 }, rfl, hs⟩

theorem setStack_decided (g : Emitted → StackDepth) :
    DecidesEmit f (.ok ()) (modify fun s => { s with stack := g s }) :=
  .modify fun _ hs => hs

theorem getState_decided : DecidesEmit f (.ok ()) get := .get

theorem load_decided (o : Operand) : DecidesEmit f (checkLoad f o) (load f o) :=
  (Decides.lift (loadInstr f o)).bind fun i => emit_decided i 0 1

theorem store_decided (o : Operand) : DecidesEmit f (checkStore f o) (store f o) :=
  (Decides.lift (storeInstr f o)).bind fun i => emit_decided i 1 0

theorem loadAll_decided : ∀ os : List Operand, DecidesEmit f (os.forM (checkLoad f)) (loadAll f os)
  | [] => .pure
  | o :: rest => (load_decided o).bind fun _ => loadAll_decided rest

/-! ### Values -/

theorem emitLess_decided (left right : Operand) :
    DecidesEmit f (do checkLoad f left; checkLoad f right) (emitLess f left right) :=
  (newLabel_decided _).sure fun _ => (newLabel_decided _).sure fun _ =>
    (load_decided left).bind fun _ => (load_decided right).last fun _ _ =>
    (emit_decided _ _ _).sure fun _ => getState_decided.sure fun _ =>
    (emit_decided _ _ _).sure fun _ => (emitPlain_decided _).sure fun _ =>
    (emitPlain_decided _).sure fun _ => (setStack_decided _).sure fun _ =>
    (emit_decided _ _ _).sure fun _ => emitPlain_decided _

theorem emitBinary_decided (op : Ir.BinOp) (left right : Operand) :
    DecidesEmit f (do checkLoad f left; checkLoad f right) (emitBinary f op left right) := by
  rw [emitBinary]
  split
  · exact emitLess_decided left right
  · exact (load_decided left).bind fun _ => (load_decided right).last fun _ _ => emit_decided _ _ _

theorem emitNot_decided (o : Operand) : DecidesEmit f (checkLoad f o) (emitNot f o) := by
  have hagain : (checkLoad f o >>= fun _ => checkLoad f o) = checkLoad f o := by
    cases checkLoad f o <;> rfl
  rw [emitNot]
  cases f.negation with
  | selfXor =>
    rw [← hagain]
    exact (load_decided o).bind fun _ => (load_decided o).last fun _ _ => emit_decided _ _ _
  | xorOne =>
    exact (load_decided o).last fun _ _ => (emit_decided _ _ _).sure fun _ => emit_decided _ _ _

theorem emitGetField_decided (object : Operand) (field : String) (ty : Ty) :
    DecidesEmit f (checkValue f (.getField object field ty)) (emitGetField f object field ty) :=
  (Decides.lift (ownerOf f object)).bind fun _ => (load_decided object).last fun _ _ =>
    emit_decided _ _ _

theorem emitNewArray_decided (call : Call) :
    DecidesEmit f (checkNewArray f call) (emitNewArray f call) := by
  rw [emitNewArray, checkNewArray]
  cases call.returnTy.element? with
  | none => exact .throw
  | some element =>
    cases call.args.head? with
    | none => exact .throw
    | some size => exact (load_decided size).last fun _ _ => emit_decided _ _ _

theorem loadReceiver_decided (invocation : Invocation) (target : Operand) :
    DecidesEmit f (checkReceiver f invocation target) (loadReceiver f invocation target) := by
  cases invocation with
  | static => exact .pure
  | virtual => exact (load_decided target).last fun _ _ => .pure
  | special =>
    intro s hs
    have hload : DecidesEmit f (checkLoad f target) (do load f target; return 1) :=
      (load_decided target).last fun _ _ => .pure
    by_cases hpending : s.pending = some target
    · have hgives : Gives (loadReceiver f .special target) s 1 { s with pending := none } := by
        rw [loadReceiver, Gives.bind_iff]
        refine ⟨s, s, Gives.get_iff.mpr ⟨rfl, rfl⟩, ?_⟩
        rw [if_pos hpending]
        rfl
      rw [checkReceiver, hs target hpending]
      exact ⟨_, _, hgives, by rintro _ ⟨⟩⟩
    · have hrun : ((loadReceiver f .special target).run).run s =
          ((do load f target; return 1 : Emit Nat).run).run s := by
        rw [loadReceiver, run_bind, show ((get : Emit Emitted).run).run s = (.ok s, s) from rfl]
        dsimp only
        rw [if_neg hpending]
      have hdecided := hload s hs
      simp only [Gives, Fails, ← hrun] at hdecided
      exact hdecided

theorem emitInvoke_decided (invocation : Invocation) (call : Call) :
    DecidesEmit f (checkInvoke f invocation call) (emitInvoke f invocation call) := by
  rw [emitInvoke, checkInvoke]
  cases call.method with
  | none => exact .throw
  | some name =>
    exact (Decides.lift (callOwner f invocation call.target)).bind fun _ =>
      (loadReceiver_decided invocation call.target).bind fun _ =>
      (loadAll_decided call.args).last fun _ _ => emit_decided _ _ _

theorem emitCall_decided (call : Call) : DecidesEmit f (checkCall f call) (emitCall f call) := by
  rw [emitCall, checkCall]
  cases call.kind with
  | new => exact emitNewArray_decided call
  | arrayLength => exact (load_decided call.target).last fun _ _ => emit_decided _ _ _
  | invokeSpecial => exact emitInvoke_decided .special call
  | invokeVirtual => exact emitInvoke_decided .virtual call
  | invokeStatic => exact emitInvoke_decided .static call

theorem emitValue_decided (value : Value) :
    DecidesEmit f (checkValue f value) (emitValue f value) := by
  cases value with
  | operand o => exact load_decided o
  | binary op left right => exact emitBinary_decided op left right
  | not o => exact emitNot_decided o
  | getField object field ty => exact emitGetField_decided object field ty
  | arrayLoad array index ty =>
    exact (load_decided array).bind fun _ => (load_decided index).last fun _ _ => emit_decided _ _ _
  | call call => exact emitCall_decided call

/-! ### Instructions -/

theorem checkLoad_of_store {o : Operand} (h : checkStore f o = .ok ()) : checkLoad f o = .ok () := by
  cases o with
  | var name ty | temp id ty =>
    obtain ⟨i, hi, _⟩ := except_bind h
    obtain ⟨register, hregister, _⟩ := except_bind hi
    rw [checkLoad, loadInstr, hregister]
    rfl
  | literal | receiver | classRef => cases h

theorem emitNewObject_decided (dest : Operand) (call : Call) :
    DecidesEmit f (checkNewObject f dest call) (emitNewObject f dest call) := by
  rw [emitNewObject, checkNewObject]
  cases call.returnTy with
  | object name =>
    refine (emit_decided _ _ _).sure fun _ => (emit_decided _ _ _).sure fun _ =>
      (store_decided dest).last fun hstore _ => .modify fun s _ o ho => ?_
    cases ho
    exact checkLoad_of_store hstore
  | int | boolean | string | void | array => exact .throw

theorem emitAssignVar_decided (dest : Operand) (value : Value) :
    DecidesEmit f (checkAssignVar f dest value) (emitAssignVar f dest value) := by
  rw [emitAssignVar, checkAssignVar]
  split
  · exact .throw
  · exact (emitValue_decided value).bind fun _ => store_decided dest

theorem emitBody_decided (i : Ir.Instr) : DecidesEmit f (checkInstr f i) (emitBody f i) := by
  match i with
  | .assign (.var dest) value =>
    cases value with
    | call call =>
      rw [emitBody, checkInstr]
      split
      · exact emitNewObject_decided dest call
      · exact emitAssignVar_decided dest _
    | _ => exact emitAssignVar_decided dest _
  | .assign (.element array index ty) value =>
    exact (load_decided array).bind fun _ => (load_decided index).bind fun _ =>
      (emitValue_decided value).last fun _ _ => emit_decided _ _ _
  | .putField object field value =>
    exact (Decides.lift (ownerOf f object)).bind fun _ => (load_decided object).bind fun _ =>
      (load_decided value).last fun _ _ => emit_decided _ _ _
  | .call call =>
    rw [emitBody, emitCallStatement, checkInstr]
    split
    · exact .throw
    · refine (emitCall_decided call).last fun _ _ => ?_
      split
      · exact emit_decided _ _ _
      · exact .pure
  | .condGoto condition l =>
    rw [emitBody, checkInstr]
    unfold emitCondGoto
    split
    · exact (load_decided _).bind fun _ => (load_decided _).last fun _ _ => emit_decided _ _ _
    · exact (emitValue_decided condition).last fun _ _ => emit_decided _ _ _
  | .ret (some o) => exact (load_decided o).last fun _ _ => emit_decided _ _ _
  | .ret none | .label l | .goto l => exact emitPlain_decided _

theorem dropPending_decided : DecidesEmit f (.ok ()) dropPending := by
  refine getState_decided.sure fun s => ?_
  split
  · exact (Decides.modify (fun _ _ => nofun)).sure fun _ => emit_decided _ _ _
  · exact .pure

theorem emitInstr_decided (i : Ir.Instr) : DecidesEmit f (checkInstr f i) (emitInstr f i) := by
  have hsettle : DecidesEmit f (.ok ()) (settlePending i) := by
    refine getState_decided.sure fun s => ?_
    split
    · exact dropPending_decided
    · exact .pure
  exact (setStack_decided _).sure fun _ => hsettle.sure fun _ => emitBody_decided i

/-- The first instruction without code decides what happens to all of them. -/
theorem emitInstrs_decided : ∀ body : List Ir.Instr,
    DecidesEmit f (body.forM (checkInstr f)) (emitInstrs f body)
  | [] => dropPending_decided
  | i :: rest => (emitInstr_decided i).bind fun _ => emitInstrs_decided rest

/-! ### Modules -/

/-- There is code for every instruction of a method. -/
def checkMethod (options : Options) (owner : Ir.Class) (m : Ir.Method) : Except CompileError Unit :=
  m.instructions.forM (checkInstr (frameOf options owner m))

variable {options : Options}

theorem assembleMethod_run (options : Options) (owner : Ir.Class) (m : Ir.Method) :
    ∃ block : Emitted → MethodBlock, ∀ n, ((assembleMethod options owner m).run).run n =
      let r := ((emitInstrs (frameOf options owner m) m.instructions).run).run { nextLabel := n }
      (r.1.map fun _ => block r.2, r.2.nextLabel) :=
  ⟨fun s => {
    modifiers := m.access.modifiers m.isStatic m.isFinal
    name := m.name
    descriptor := (frameOf options owner m).resolver.methodDescriptor (m.params.map (·.ty)) m.returnTy
    stackLimit := s.stack.limit options.stackPolicy
    localsLimit := m.localsLimit
    code := s.code.toList }, fun _ => rfl⟩

theorem assembleMethod_decided (owner : Ir.Class) (m : Ir.Method) :
    Decides (fun _ => True) (checkMethod options owner m) (assembleMethod options owner m) := by
  intro n _
  obtain ⟨block, hrun⟩ := assembleMethod_run options owner m
  have hinstrs := emitInstrs_decided (f := frameOf options owner m) m.instructions
    { nextLabel := n } nofun
  rw [checkMethod]
  cases hcheck : m.instructions.forM (checkInstr (frameOf options owner m)) with
  | ok u =>
    rw [hcheck] at hinstrs
    obtain ⟨_, s, hgives, _⟩ := hinstrs
    refine ⟨block s, s.nextLabel, ?_, trivial⟩
    rw [Gives] at hgives ⊢
    rw [hrun, hgives]
    rfl
  | error e =>
    rw [hcheck] at hinstrs
    obtain ⟨s, hfails⟩ := hinstrs
    refine ⟨s.nextLabel, ?_⟩
    rw [Fails] at hfails ⊢
    rw [hrun, hfails]
    rfl

theorem assembleMethods_decided (owner : Ir.Class) : ∀ methods : List Ir.Method,
    Decides (fun _ => True) (methods.forM (checkMethod options owner))
      (assembleMethods options owner methods)
  | [] => .pure
  | m :: rest => (assembleMethod_decided owner m).bind fun _ =>
      (assembleMethods_decided owner rest).last fun _ _ => .pure

theorem assembleClasses_decided : ∀ classes : List Ir.Class,
    Decides (fun _ => True) (classes.forM fun c => c.methods.forM (checkMethod options c))
      (assembleClasses options classes)
  | [] => .pure
  | c :: rest => by
    have hclass : Decides (fun _ => True) (c.methods.forM (checkMethod options c))
        (assembleClass options c) :=
      (assembleMethods_decided c c.methods).last fun _ _ => .pure
    exact hclass.bind fun _ => (assembleClasses_decided rest).last fun _ _ => .pure

end Jvm

end MiniJava
