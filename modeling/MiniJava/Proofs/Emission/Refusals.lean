import MiniJava.Proofs.Emission.Registers
import MiniJava.Proofs.Lowering.Forms
import MiniJava.Proofs.Lowering.Modules

/-!
# Why lowered code is not emitted

Of the many things that emission can refuse only two ever come out of lowering: a call on what has
no methods, and a value of type `void` that is kept in a variable. All others are excluded by the
forms of lowered instructions, or by the registers that a body gets when it is accepted.
-/

namespace MiniJava

open Ir (Operand Instr)

/-! ## What is refused -/

/-- The types whose values have methods: the classes, and strings. -/
def Ty.hasMethods : Ty → Bool
  | object _ | string => true
  | int | boolean | void | array _ => false

/-- A virtual call is on an object. -/
def Ir.Call.refusal? (call : Call) : Option Breach :=
  if call.kind = .invokeVirtual ∧ ¬ call.target.ty.hasMethods then some (.notAnObject call.target)
  else none

/-- Of the values only calls are refused. -/
def Ir.Value.refusal? : Value → Option Breach
  | call c => c.refusal?
  | operand _ | binary .. | not _ | getField .. | arrayLoad .. => none

/-- Why a lowered instruction is not emitted: a value of type `void` is assigned to a variable, or a
method is called on what is no object. -/
def Ir.Instr.refusal? : Instr → Option Breach
  | assign (.var dest) value =>
    if value.ty.isVoid then some (.voidAssigned dest) else value.refusal?
  | assign (.element ..) value | condGoto value _ => value.refusal?
  | call c => c.refusal?
  | putField .. | label _ | goto _ | ret _ => none

/-- What comes of code: the error of a refusal, if there is one. -/
def refuse : Option Breach → Except CompileError Unit
  | some breach => .error (.contract breach)
  | none => .ok ()

/-- The first refusal decides what comes of all. -/
theorem forM_refuse {α : Type} {check : α → Except CompileError Unit} {refusal? : α → Option Breach} :
    ∀ {xs : List α}, (∀ x ∈ xs, check x = refuse (refusal? x)) →
      xs.forM check = refuse (xs.findSome? refusal?)
  | [], _ => rfl
  | x :: rest, h => by
    obtain ⟨hx, hrest⟩ := List.forall_mem_cons.mp h
    show (check x >>= fun _ => rest.forM check) = _
    rw [hx, List.findSome?_cons]
    cases refusal? x with
    | some breach => rfl
    | none => exact forM_refuse hrest

theorem findSome?_flatMap {α β γ : Type} {g : β → Option γ} {f : α → List β} : ∀ {xs : List α},
    (xs.flatMap f).findSome? g = xs.findSome? fun x => (f x).findSome? g
  | [] => rfl
  | x :: rest => by
    rw [List.flatMap_cons, List.findSome?_append, List.findSome?_cons, findSome?_flatMap]
    cases (f x).findSome? g <;> rfl

/-! ## Registers of lowered methods -/

namespace Lowering

open Semantics (occurrences)

variable {symbols : SymbolTable} {d : Method} {k k' : Counters} {ir : Ir.Method}

theorem lowerMethod_formed (h : Gives (lowerMethod symbols d) k ir k') {i : Instr}
    (hi : i ∈ ir.instructions) :
    FormedInstr d i ∧ ∀ o ∈ occurrences i, o.IsStored → (ir.register? o).isSome := by
  obtain ⟨hbody, hset⟩ := lowerMethod_installs h
  have hform : FormedInstr d i := lowerBody_forms d symbols hbody i hi
  obtain ⟨hread, htemp⟩ := Ir.Method.setBody_registers hset hi
  refine ⟨hform, fun o ho hstored => ?_⟩
  by_cases hused : o ∈ i.usedOperands
  · exact hread o hused hstored
  · obtain ⟨value, rfl⟩ := Jvm.assigned_of_unread ho hused
    cases hform with
    | compute | allocate => exact htemp _ _ rfl
    | assign hname =>
      exact Ir.VarTable.register?_isSome_grown (Ir.Method.setBody_grown hset)
        (frame_named symbols.className d hname)

end Lowering

/-! ## Emission of lowered code -/

namespace Jvm

open Lowering
open Semantics (occurrences)

variable {f : Frame} {d : Method}

theorem checkLoad_ok {o : Operand} (ho : IsValue o)
    (hregister : o.IsStored → (f.method.register? o).isSome) : checkLoad f o = .ok () := by
  have hregisterOf : o.IsStored → ∃ register, registerOf f o = .ok register := by
    intro hstored
    obtain ⟨register, hget⟩ := Option.isSome_iff_exists.mp (hregister hstored)
    exact ⟨register, by rw [registerOf, hget]⟩
  cases o with
  | var name ty | temp id ty =>
    obtain ⟨register, hregister⟩ := hregisterOf trivial
    rw [checkLoad, loadInstr, hregister]
    rfl
  | literal | receiver => rfl
  | classRef name => exact absurd rfl (ho name)

theorem checkStore_ok {o : Operand} (hstored : o.IsStored)
    (hregister : (f.method.register? o).isSome) : checkStore f o = .ok () := by
  obtain ⟨register, hget⟩ := Option.isSome_iff_exists.mp hregister
  cases o with
  | var name ty | temp id ty =>
    rw [checkStore, storeInstr, registerOf, hget]
    rfl
  | literal | receiver | classRef => cases hstored

theorem checkLoads_ok {os : List Operand} (hos : ∀ o ∈ os, IsValue o)
    (hregisters : ∀ o ∈ os, o.IsStored → (f.method.register? o).isSome) :
    os.forM (checkLoad f) = .ok () :=
  except_forM_ok.mpr fun o ho => checkLoad_ok (hos o ho) (hregisters o ho)

theorem ownerOf_ok {o : Operand} (h : o.ty.hasMethods) : ∃ owner, ownerOf f o = .ok owner := by
  rw [ownerOf]
  split
  · exact ⟨_, rfl⟩
  · exact ⟨_, rfl⟩
  all_goals simp_all [Ty.hasMethods]

theorem ownerOf_error {o : Operand} (h : ¬ o.ty.hasMethods) :
    ownerOf f o = .error (.contract (.notAnObject o)) := by
  rw [ownerOf]
  split
  · simp_all [Ty.hasMethods]
  · simp_all [Ty.hasMethods]
  all_goals rfl

theorem checkCall_formed {call : Ir.Call} (h : FormedCall call)
    (hregisters : ∀ o ∈ call.operands, o.IsStored → (f.method.register? o).isSome) :
    checkCall f call = refuse call.refusal? := by
  cases h with
  | newArray hsize =>
    exact checkLoad_ok hsize (hregisters _ (List.mem_cons_of_mem _ List.mem_cons_self))
  | arrayLength harray => exact checkLoad_ok harray (hregisters _ List.mem_cons_self)
  | static hargs =>
    exact checkLoads_ok hargs fun o ho => hregisters o (List.mem_cons_of_mem _ ho)
  | @virtual target method args ty htarget hargs =>
    have hload := checkLoad_ok htarget (hregisters target List.mem_cons_self)
    have hloads := checkLoads_ok hargs fun o ho => hregisters o (List.mem_cons_of_mem _ ho)
    rw [checkCall, checkInvoke, Ir.Call.refusal?]
    by_cases hmethods : target.ty.hasMethods
    · obtain ⟨owner, howner⟩ := ownerOf_ok (f := f) hmethods
      rw [if_neg fun h => h.2 hmethods]
      show (ownerOf f target >>= fun _ => checkLoad f target >>= fun _ => args.forM (checkLoad f)) = _
      rw [howner, hload, hloads]
      rfl
    · rw [if_pos ⟨rfl, hmethods⟩]
      show (ownerOf f target >>= fun _ => checkLoad f target >>= fun _ => args.forM (checkLoad f)) = _
      rw [ownerOf_error hmethods]
      rfl

theorem checkValue_formed {value : Ir.Value} (h : FormedValue value)
    (hregisters : ∀ o ∈ value.operands, o.IsStored → (f.method.register? o).isSome) :
    checkValue f value = refuse value.refusal? := by
  cases h with
  | operand ho | not ho => exact checkLoad_ok ho (hregisters _ List.mem_cons_self)
  | binary hleft hright =>
    have hleft := checkLoad_ok hleft (hregisters _ List.mem_cons_self)
    have hright := checkLoad_ok hright (hregisters _ (List.mem_cons_of_mem _ List.mem_cons_self))
    rw [checkValue, hleft]
    exact hright
  | getField => rfl
  | arrayLoad harray hindex =>
    have harray := checkLoad_ok harray (hregisters _ List.mem_cons_self)
    have hindex := checkLoad_ok hindex (hregisters _ (List.mem_cons_of_mem _ List.mem_cons_self))
    rw [checkValue, harray]
    exact hindex
  | call hcall => exact checkCall_formed hcall hregisters

theorem checkAssignVar_formed {o : Operand} {value : Ir.Value} (hstored : o.IsStored)
    (hvalue : FormedValue value)
    (hregisters : ∀ o' ∈ o :: value.operands, o'.IsStored → (f.method.register? o').isSome) :
    checkAssignVar f o value = refuse (Ir.Instr.assignVar o value).refusal? := by
  rw [checkAssignVar, Ir.Instr.assignVar, Ir.Instr.refusal?]
  split
  · rfl
  · rw [checkValue_formed hvalue fun o ho => hregisters o (List.mem_cons_of_mem _ ho)]
    cases value.refusal? with
    | some breach => rfl
    | none => exact checkStore_ok hstored (hregisters o List.mem_cons_self hstored)

/-- An instruction of lowered code is emitted unless it is refused. -/
theorem checkInstr_formed {i : Ir.Instr} (h : FormedInstr d i)
    (hregisters : ∀ o ∈ occurrences i, o.IsStored → (f.method.register? o).isSome) :
    checkInstr f i = refuse i.refusal? := by
  cases h with
  | @compute id ty value hvalue =>
    rw [← checkAssignVar_formed (o := .temp id ty) trivial hvalue hregisters]
    cases hvalue with
    | call hcall => cases hcall <;> rfl
    | _ => rfl
  | allocate => exact checkStore_ok trivial (hregisters _ List.mem_cons_self trivial)
  | @construct id name =>
    have hload := checkLoad_ok (o := .temp id (.object name)) (.temp id _)
      (hregisters _ List.mem_cons_self)
    show (checkLoad f (.temp id (.object name)) >>= fun _ => .ok ()) = _
    rw [hload]
    rfl
  | @assign name ty o _ ho =>
    rw [← checkAssignVar_formed (o := .var name ty) trivial (.operand ho) hregisters]
    rfl
  | @store array index o ty harray hindex ho =>
    have harray := checkLoad_ok harray (hregisters _ (by simp [occurrences, Ir.Instr.usedOperands]))
    have hindex := checkLoad_ok hindex (hregisters _ (by simp [occurrences, Ir.Instr.usedOperands]))
    have ho := checkLoad_ok ho (hregisters _ List.mem_cons_self)
    rw [checkInstr, harray, hindex]
    exact ho
  | @putField className field o ho =>
    exact checkLoad_ok ho (hregisters _ (List.mem_cons_of_mem _ List.mem_cons_self))
  | call hcall =>
    rw [Ir.Instr.refusal?, ← checkCall_formed hcall hregisters]
    cases hcall <;> rfl
  | label | goto | ret => rfl
  | branch ho => exact checkLoad_ok ho (hregisters _ List.mem_cons_self)
  | @branchLess left right l hleft hright =>
    have hless : FormedValue (.binary .lt left right) := .binary hleft hright
    exact checkValue_formed hless hregisters
  | retValue ho => exact checkLoad_ok ho (hregisters _ List.mem_cons_self)

/-! ### Modules -/

end Jvm

/-- The instructions of a module in the order of their emission. -/
def Ir.Module.instructions (mod : Module) : List Instr :=
  mod.classes.flatMap fun c => c.methods.flatMap (·.instructions)

namespace Jvm

open Lowering

variable {options : Options} {symbols : SymbolTable} {p : Program}

theorem checkMethod_lowered {d : Method} {ir : Ir.Method} (h : LowersTo symbols d ir)
    (owner : Ir.Class) :
    checkMethod options owner ir = refuse (ir.instructions.findSome? (·.refusal?)) := by
  obtain ⟨k, k', h⟩ := h
  refine forM_refuse fun i hi => ?_
  obtain ⟨hform, hregisters⟩ := lowerMethod_formed h hi
  exact checkInstr_formed hform hregisters

/-- The emission of a lowered class is decided by the first refusal. -/
theorem assemble_lowered {c : Ir.Class} (h : LoweredClass symbols p c) :
    Decides (fun _ => True)
      (refuse ((Ir.Module.mk [c]).instructions.findSome? (·.refusal?)))
      (assemble options { classes := [c] }) := by
  have hmethods : c.methods.forM (checkMethod options c) =
      refuse (c.methods.findSome? fun ir => ir.instructions.findSome? (·.refusal?)) :=
    forM_refuse fun ir hir => by
      obtain ⟨d, _, hlowers⟩ := h.origin hir
      exact checkMethod_lowered hlowers c
  have hclasses : ([c].forM fun c => c.methods.forM (checkMethod options c)) =
      refuse ((Ir.Module.mk [c]).instructions.findSome? (·.refusal?)) := by
    rw [Ir.Module.instructions, findSome?_flatMap]
    refine forM_refuse fun c' hc' => ?_
    rw [List.mem_singleton.mp hc', hmethods, findSome?_flatMap]
  rw [← hclasses]
  exact assembleClasses_decided [c]

/-- Whatever is lowered, its emission fails if and only if an instruction of it is refused: a virtual
call on what is neither of a class nor a string, or an assignment of a value of type `void` to a
variable or temporary. It then fails with the breach that the first such instruction is, and with no
other error. -/
theorem assemble_refuses {s s' : Session} {mod : Ir.Module}
    (h : Gives (Session.lowerProgram p) s mod s') (options : Options) (n : Nat) :
    ((∃ e n', Fails (assemble options mod) n e n') ↔
      ∃ i ∈ mod.instructions, i.refusal?.isSome) ∧
    ∀ e n', Fails (assemble options mod) n e n' → ∃ before i after breach,
      mod.instructions = before ++ i :: after ∧ (∀ j ∈ before, j.refusal? = none) ∧
        i.refusal? = some breach ∧ e = .contract breach := by
  obtain ⟨c, rfl, hc⟩ := session_lowerProgram_gives h
  have hdecided : Decides (fun _ => True)
      (refuse ((Ir.Module.mk [c]).instructions.findSome? (·.refusal?)))
      (assemble options { classes := [c] }) := assemble_lowered hc
  cases hfirst : (Ir.Module.mk [c]).instructions.findSome? (·.refusal?) with
  | none =>
    have hnofail : ∀ e n', ¬ Fails (assemble options { classes := [c] }) n e n' := by
      intro e n' hfails
      have herror := hdecided.of_fails trivial hfails
      rw [hfirst] at herror
      cases herror
    refine ⟨⟨fun ⟨e, n', hfails⟩ => absurd hfails (hnofail e n'), fun ⟨i, hi, hrefused⟩ => ?_⟩,
      fun e n' hfails => absurd hfails (hnofail e n')⟩
    rw [List.findSome?_eq_none_iff.mp hfirst i hi] at hrefused
    cases hrefused
  | some breach =>
    obtain ⟨before, i, after, hsplit, hi, hbefore⟩ := List.findSome?_eq_some_iff.mp hfirst
    rw [hfirst] at hdecided
    refine ⟨⟨fun _ => ⟨i, ?_, Option.isSome_of_eq_some hi⟩, fun _ => ?_⟩, fun e n' hfails => ?_⟩
    · rw [hsplit]
      exact List.mem_append_right _ List.mem_cons_self
    · exact ⟨_, hdecided.fails rfl trivial⟩
    · have herror := hdecided.of_fails trivial hfails
      cases herror
      exact ⟨before, i, after, breach, hsplit, hbefore, hi, rfl⟩

/-- A method is called on a number: that is lowered, and refused in emission. -/
theorem assemble_refuses_number :
    let m : Method := {
      name := "f", returnTy := .void, body := [.expr (.call (.literal (.int 1)) "g" [])] }
    let p : Program := { mainClass := { name := "A", methods := [m] } }
    let symbols : SymbolTable :=
      { className := "A", superclass := none, imports := [], fields := []
        methods := [.ofMethod m] }
    ∃ mod s', Gives (Session.lowerProgram p) { symbols } mod s' ∧
      ∃ e n', Fails (assemble {} mod) 0 e n' := by
  intro m p symbols
  have h : Gives (Session.lowerProgram p) { symbols } _ _ := rfl
  exact ⟨_, _, h, ((assemble_refuses h {} 0).1).mpr ⟨_, List.mem_cons_self, rfl⟩⟩

end Jvm

end MiniJava
