import MiniJava.Proofs.Emission.Faults

/-!
# Registers of bodies that are accepted

A body that a method accepts reads only what has a register, and every temporary that it assigns is
given one. Of a named variable that is only assigned nobody asks whether it is declared, so there
the emission of an accepted body can still miss a register.
-/

namespace MiniJava

open Ir (Operand)
open Semantics (occurrences)

/-- The operands that are kept in a register of their own. -/
def Ir.Operand.IsStored : Operand → Prop
  | var .. | temp .. => True
  | literal _ | receiver _ | classRef _ => False

/-! ## What emission looks up -/

namespace Jvm

variable {f : Frame} {os : List Operand}

/-- A check misses the registers only of some operands. -/
def MissesOnly {α : Type} (f : Frame) (os : List Operand) (check : Except CompileError α) : Prop :=
  ∀ ⦃o name⦄, check = .error (.contract (.noRegister o name)) →
    o ∈ os ∧ o.IsStored ∧ f.method.register? o = none

namespace MissesOnly

variable {α β : Type} {check : Except CompileError α}

theorem pure {a : α} : MissesOnly f os (.ok a : Except CompileError α) := by
  intro o name heq
  cases heq

theorem error {e : CompileError} (h : ∀ o name, e ≠ .contract (.noRegister o name)) :
    MissesOnly f os (.error e : Except CompileError α) := by
  intro o name heq
  cases heq
  exact absurd rfl (h o name)

theorem bind {g : α → Except CompileError β} (h : MissesOnly f os check)
    (hg : ∀ a, MissesOnly f os (g a)) : MissesOnly f os (check >>= g) := by
  intro o name heq
  rcases except_bind_error heq with heq | ⟨a, _, heq⟩
  · exact h heq
  · exact hg a heq

end MissesOnly

theorem registerOf_misses {o : Operand} (ho : o ∈ os) (hstored : o.IsStored) :
    MissesOnly f os (registerOf f o) := by
  intro o' name h
  rw [registerOf] at h
  split at h
  · cases h
  · cases h
    exact ⟨ho, hstored, ‹_›⟩

theorem checkLoad_misses {o : Operand} (ho : o ∈ os) : MissesOnly f os (checkLoad f o) := by
  refine .bind ?_ fun _ => nofun
  cases o with
  | var | temp => exact (registerOf_misses ho trivial).bind fun _ => nofun
  | literal | receiver => exact nofun
  | classRef name => exact .error nofun

theorem checkStore_misses {o : Operand} (ho : o ∈ os) : MissesOnly f os (checkStore f o) := by
  refine .bind ?_ fun _ => nofun
  cases o with
  | var | temp => exact (registerOf_misses ho trivial).bind fun _ => nofun
  | literal | receiver | classRef => exact .error nofun

theorem checkLoads_misses : ∀ {args : List Operand}, (∀ o ∈ args, o ∈ os) →
    MissesOnly f os (args.forM (checkLoad f))
  | [], _ => nofun
  | _ :: _, h =>
    (checkLoad_misses (h _ List.mem_cons_self)).bind fun _ =>
      checkLoads_misses fun o ho => h o (List.mem_cons_of_mem _ ho)

theorem ownerOf_misses (object : Operand) : MissesOnly f os (ownerOf f object) := by
  rw [ownerOf]
  split
  · exact nofun
  · exact nofun
  all_goals exact .error nofun

theorem callOwner_misses (invocation : Invocation) (target : Operand) :
    MissesOnly f os (callOwner f invocation target) := by
  rw [callOwner.eq_def]
  split
  · exact nofun
  · exact ownerOf_misses target

theorem checkInvoke_misses (invocation : Invocation) {call : Ir.Call}
    (h : ∀ o ∈ call.operands, o ∈ os) : MissesOnly f os (checkInvoke f invocation call) := by
  rw [checkInvoke]
  split
  · exact .error (by simp)
  · refine (callOwner_misses invocation _).bind fun _ => .bind ?_ fun _ =>
      checkLoads_misses fun o ho => h o (List.mem_cons_of_mem _ ho)
    cases invocation with
    | static => exact .pure
    | special | virtual => exact checkLoad_misses (h _ List.mem_cons_self)

theorem checkCall_misses {call : Ir.Call} (h : ∀ o ∈ call.operands, o ∈ os) :
    MissesOnly f os (checkCall f call) := by
  rw [checkCall]
  split
  · rw [checkNewArray]
    split
    · exact .error (by simp)
    · exact .error (by simp)
    · exact checkLoad_misses (h _ (List.mem_cons_of_mem _ (List.mem_of_mem_head? ‹_›)))
  · exact checkLoad_misses (h _ List.mem_cons_self)
  all_goals exact checkInvoke_misses _ h

theorem checkValue_misses {value : Ir.Value} (h : ∀ o ∈ value.operands, o ∈ os) :
    MissesOnly f os (checkValue f value) := by
  cases value with
  | operand o | not o => exact checkLoad_misses (h o List.mem_cons_self)
  | binary op left right =>
    exact (checkLoad_misses (h _ List.mem_cons_self)).bind fun _ =>
      checkLoad_misses (h _ (List.mem_cons_of_mem _ List.mem_cons_self))
  | getField object field ty =>
    exact (ownerOf_misses object).bind fun _ => checkLoad_misses (h _ List.mem_cons_self)
  | arrayLoad array index ty =>
    exact (checkLoad_misses (h _ List.mem_cons_self)).bind fun _ =>
      checkLoad_misses (h _ (List.mem_cons_of_mem _ List.mem_cons_self))
  | call call => exact checkCall_misses h

theorem checkInstr_misses (i : Ir.Instr) : MissesOnly f (occurrences i) (checkInstr f i) := by
  have hassign : ∀ {dest : Operand} {value : Ir.Value},
      MissesOnly f (occurrences (.assign (.var dest) value)) (checkAssignVar f dest value) := by
    intro dest value
    rw [checkAssignVar]
    split
    · exact .error (by simp)
    · exact (checkValue_misses fun o ho => List.mem_cons_of_mem _ ho).bind fun _ =>
        checkStore_misses List.mem_cons_self
  cases i with
  | assign place value =>
    cases place with
    | var dest =>
      cases value with
      | call call =>
        rw [checkInstr]
        split
        · rw [checkNewObject]
          split
          · exact checkStore_misses List.mem_cons_self
          · exact .error (by simp)
        · exact hassign
      | _ => exact hassign
    | element array index ty =>
      have hmem : ∀ o, o ∈ value.operands ∨ o ∈ [array, index] →
          o ∈ occurrences (.assign (.element array index ty) value) := fun o => List.mem_append.mpr
      exact (checkLoad_misses (hmem _ (.inr List.mem_cons_self))).bind fun _ =>
        (checkLoad_misses (hmem _ (.inr (List.mem_cons_of_mem _ List.mem_cons_self)))).bind fun _ =>
        checkValue_misses fun o ho => hmem o (.inl ho)
  | putField object field value =>
    exact (ownerOf_misses object).bind fun _ => (checkLoad_misses List.mem_cons_self).bind fun _ =>
      checkLoad_misses (List.mem_cons_of_mem _ List.mem_cons_self)
  | call call =>
    rw [checkInstr]
    split
    · exact .error (by simp)
    · exact checkCall_misses fun o ho => ho
  | condGoto condition l => exact checkValue_misses fun o ho => ho
  | ret result =>
    cases result with
    | some o => exact checkLoad_misses List.mem_cons_self
    | none => exact .pure
  | label | goto => exact .pure

theorem checkInstr_assigned {o : Operand} {value : Ir.Value} (ho : o.IsStored)
    (h : checkInstr f (.assign (.var o) value) = .ok ()) : (f.method.register? o).isSome := by
  have hregister : ∀ {g : Nat → Instr}, (do return g (← registerOf f o)) = storeInstr f o →
      checkStore f o = .ok () → (f.method.register? o).isSome := by
    intro g hg hstore
    obtain ⟨i, hi, _⟩ := except_bind hstore
    rw [← hg] at hi
    obtain ⟨register, hregister, _⟩ := except_bind hi
    rw [registerOf] at hregister
    cases hget : f.method.register? o with
    | some register => rfl
    | none =>
      rw [hget] at hregister
      cases hregister
  have hstore : checkStore f o = .ok () := by
    have hassign : ∀ {value : Ir.Value}, checkAssignVar f o value = .ok () →
        checkStore f o = .ok () := by
      intro value h
      rw [checkAssignVar] at h
      split at h
      · cases h
      · exact (except_bind h).choose_spec.2
    cases value with
    | call call =>
      rw [checkInstr] at h
      split at h
      · rw [checkNewObject] at h
        split at h
        · exact h
        · cases h
      · exact hassign h
    | _ => exact hassign h
  cases o with
  | var | temp => exact hregister rfl hstore
  | literal | receiver | classRef => cases ho

end Jvm

/-! ## What acceptance makes sure of -/

namespace Ir.Method

theorem enter_temps {i : Instr} {id : Nat} {ty : Ty} (hdefined : i.definedVar? = some (id, ty)) :
    ∀ (body : List Instr) (m : Method) (place : Nat) {m' : Method},
      m.enter place body = (m', none) → i ∈ body → (m'.vars.register? (.temp id)).isSome
  | [], _, _, _, _, hi => absurd hi List.not_mem_nil
  | j :: rest, m, place, m', h, hi => by
    rw [enter] at h
    cases hlabel : j.definedLabel? with
    | some label =>
      have hother : i ≠ j := by
        rintro rfl
        cases i <;> cases hlabel
        cases hdefined
      simp only [hlabel] at h
      by_cases hknown : (m.labels.place? label).isSome
      · rw [if_pos hknown] at h
        cases h
      · rw [if_neg hknown] at h
        exact enter_temps hdefined rest _ _ h ((List.mem_cons.mp hi).resolve_left hother)
    | none =>
      simp only [hlabel] at h
      rcases List.mem_cons.mp hi with rfl | hi
      · rw [hdefined] at h
        exact VarTable.register?_isSome_grown (enter_grown h)
          (VarTable.register?_isSome.mpr (VarTable.mem_keys_bind.mpr (.inr rfl)))
      · cases hvar : j.definedVar? with
        | some entry =>
          rw [hvar] at h
          exact enter_temps hdefined rest _ _ h hi
        | none =>
          rw [hvar] at h
          exact enter_temps hdefined rest _ _ h hi

/-- What a body reads that passed the check: names with registers, and temporaries that it assigns
if they were not assigned before. -/
theorem checkFrom_reads {m : Method} {i : Instr} {o : Operand} (ho : o ∈ i.usedOperands) :
    ∀ {body : List Instr} {defined : List Nat}, m.checkFrom defined body = .ok () → i ∈ body →
      (∀ name ty, o = .var name ty → (m.register? o).isSome) ∧
      ∀ id ty, o = .temp id ty → id ∈ defined ∨ ∃ j ∈ body, j.definedTemp? = some id
  | [], _, _, hi => absurd hi List.not_mem_nil
  | j :: rest, defined, h, hi => by
    rw [checkFrom] at h
    obtain ⟨_, _, h⟩ := except_bind h
    obtain ⟨_, hreads, hrest⟩ := except_bind h
    rcases List.mem_cons.mp hi with rfl | hi
    · have hread := except_forM_ok.mp hreads o ho
      constructor
      · rintro name ty rfl
        rw [checkOperand] at hread
        split at hread
        · assumption
        · cases hread
      · rintro id ty rfl
        rw [checkOperand] at hread
        split at hread
        · exact .inl ‹_›
        · cases hread
    · obtain ⟨hvar, htemp⟩ := checkFrom_reads ho hrest hi
      refine ⟨hvar, fun id ty heq => ?_⟩
      rcases htemp id ty heq with hid | ⟨k, hk, hdefines⟩
      · rcases List.mem_append.mp hid with hid | hid
        · exact .inr ⟨j, List.mem_cons_self, Option.mem_toList.mp hid⟩
        · exact .inl hid
      · exact .inr ⟨k, List.mem_cons_of_mem _ hk, hdefines⟩

/-- In an accepted body, what is read has a register and so has every temporary that is assigned. -/
theorem setBody_registers {m m' : Method} {body : List Instr} (h : m.setBody body = (.ok (), m'))
    {i : Instr} (hi : i ∈ body) :
    (∀ o ∈ i.usedOperands, o.IsStored → (m'.register? o).isSome) ∧
      ∀ id ty, i.definedVar? = some (id, ty) → (m'.register? (.temp id ty)).isSome := by
  obtain ⟨entered, henter, hinstalled, hvalid⟩ := setBody_accepted h
  have htemps : ∀ {j : Instr} {id : Nat} {ty : Ty}, j ∈ body → j.definedVar? = some (id, ty) →
      (m'.vars.register? (.temp id)).isSome := by
    intro j id ty hj hdefined
    have hvars := enter_temps hdefined body _ 0 henter hj
    rwa [hinstalled]
  refine ⟨fun o ho hstored => ?_, fun id ty hdefined => htemps hi hdefined⟩
  have hreads := hvalid
  rw [hinstalled] at hreads
  obtain ⟨hvar, htemp⟩ := checkFrom_reads ho hreads hi
  rw [← hinstalled] at hvar
  cases o with
  | var name ty => exact hvar name ty rfl
  | temp id ty =>
    rcases htemp id ty rfl with hid | ⟨j, hj, hdefines⟩
    · cases hid
    · obtain ⟨⟨id', ty'⟩, hdefined, rfl⟩ := Option.map_eq_some_iff.mp hdefines
      exact htemps hj hdefined
  | literal | receiver | classRef => cases hstored

end Ir.Method

namespace Jvm

theorem assigned_of_unread {i : Ir.Instr} {o : Operand} (ho : o ∈ occurrences i)
    (hunread : o ∉ i.usedOperands) : ∃ value, i = .assign (.var o) value := by
  match i with
  | .assign (.var dest) value =>
    rcases List.mem_cons.mp ho with rfl | ho
    · exact ⟨value, rfl⟩
    · exact absurd ho hunread
  | .assign (.element ..) _ | .putField .. | .call _ | .label _ | .goto _ | .condGoto .. | .ret _ =>
    exact absurd ho hunread

/-- Registers of an accepted body. Whatever it reads that is kept in a register has one, and so has
every temporary that it assigns. So emission of the body can miss the register of a named variable
only, one that is assigned somewhere in the body and was never declared; and where a body has such
an assignment it is never emitted. -/
theorem accepted_body_registers {m m' : Ir.Method} {body : List Ir.Instr}
    (h : m.setBody body = (.ok (), m')) :
    (∀ i ∈ body, (∀ o ∈ i.usedOperands, o.IsStored → (m'.register? o).isSome) ∧
      ∀ id ty, i.definedVar? = some (id, ty) → (m'.register? (.temp id ty)).isSome) ∧
    ∀ (options : Options) (owner : Ir.Class) (n : Nat),
      (∀ o name n', Fails (assembleMethod options owner m') n (.contract (.noRegister o name)) n' →
        ∃ x ty value, o = .var x ty ∧ .assign (.var o) value ∈ body ∧ m'.register? o = none) ∧
      ∀ x ty value, .assign (.var (.var x ty)) value ∈ body → m'.register? (.var x ty) = none →
        ∃ e n', Fails (assembleMethod options owner m') n e n' := by
  have hregisters := fun i (hi : i ∈ body) => Ir.Method.setBody_registers h hi
  have hbody : m'.instructions = body := (Ir.Method.setBody_ok h).2.1
  refine ⟨hregisters, fun options owner n => ⟨fun o name n' hfails => ?_, fun x ty value hi hnone => ?_⟩⟩
  · have hcheck := (assembleMethod_decided owner m').of_fails trivial hfails
    rw [checkMethod, hbody] at hcheck
    obtain ⟨i, hi, hcheck⟩ := except_forM_error hcheck
    obtain ⟨ho, hstored, hmissing⟩ := checkInstr_misses i hcheck
    replace hmissing : m'.register? o = none := hmissing
    have hunread : o ∉ i.usedOperands := fun hread => by
      have hsome := (hregisters i hi).1 o hread hstored
      rw [hmissing] at hsome
      cases hsome
    obtain ⟨value, rfl⟩ := assigned_of_unread ho hunread
    cases o with
    | var x ty => exact ⟨x, ty, value, rfl, hi, hmissing⟩
    | temp id ty =>
      have hsome := (hregisters _ hi).2 id ty rfl
      rw [hmissing] at hsome
      cases hsome
    | literal | receiver | classRef => cases hstored
  · have hdecided : Decides (fun _ => True) (checkMethod options owner m')
        (assembleMethod options owner m') := assembleMethod_decided owner m'
    cases hcheck : checkMethod options owner m' with
    | error e =>
      obtain ⟨n', hfails⟩ := hdecided.fails hcheck trivial
      exact ⟨e, n', hfails⟩
    | ok u =>
      rw [checkMethod, hbody] at hcheck
      have hsome := checkInstr_assigned (o := .var x ty) trivial (except_forM_ok.mp hcheck _ hi)
      rw [show (frameOf options owner m').method.register? (.var x ty) = none from hnone] at hsome
      cases hsome

/-- A parameter is returned: no register can be missing. -/
theorem accepted_body_registers_parameter :
    let m := (Ir.Method.new "f" "A" true .int).addParam { name := "x", ty := .int }
    let body : List Ir.Instr := [.ret (some (.var "x" .int))]
    ∃ m', m.setBody body = (.ok (), m') ∧
      ∀ (options : Options) (owner : Ir.Class) (n : Nat) o name n',
        ¬ Fails (assembleMethod options owner m') n (.contract (.noRegister o name)) n' := by
  intro m body
  have h : m.setBody body = (.ok (), _) := rfl
  refine ⟨_, h, fun options owner n o name n' hfails => ?_⟩
  obtain ⟨x, ty, value, _, hassigned, _⟩ :=
    ((accepted_body_registers h).2 options owner n).1 o name n' hfails
  rw [List.mem_singleton] at hassigned
  cases hassigned

/-- A variable is assigned that nobody declared: the body is accepted, and its emission fails for
want of a register. -/
theorem undeclared_variable_accepted :
    let m := Ir.Method.new "f" "A" true .void
    let body : List Ir.Instr := [.assignVar (.var "x" .int) (.operand (.int 1)), .ret none]
    ∃ m', m.setBody body = (.ok (), m') ∧ ∀ (options : Options) (owner : Ir.Class) (n : Nat),
      ∃ n', Fails (assembleMethod options owner m') n
        (.contract (.noRegister (.var "x" .int) "f")) n' :=
  ⟨_, rfl, fun _ owner _ => (assembleMethod_decided owner _).fails rfl trivial⟩

end Jvm

end MiniJava
