import MiniJava.Proofs.Emission.Values

/-!
# Emitted methods step by step

Emitted code and intermediate code run side by side: the code of the next instruction begins at the
place of the stack machine, the registers hold the variables, and the stack is empty but for an
object that waits for its constructor call. Every step of the intermediate code keeps this up, with
at least one step of the stack machine.
-/

namespace MiniJava.Semantics

open Ir (Operand)
open Jvm

variable {f : Jvm.Frame} {b : MethodBlock}
  {host : Host}

/-! ## The relation -/

/-- What is on the stack between two instructions. -/
def Stacked (P : Platform) (vars : Vars) : Option Operand → List Value → Prop
  | none, stack => stack = []
  | some o, stack => ∃ v, readOperand P vars o = pure v ∧ stack = [v]

/-- The stack machine is about to run the code of the next instruction. -/
structure Ready (f : Jvm.Frame) (b : MethodBlock)
    (host : Host) (s : IrState) (t : JvmState) : Prop where
  registered : Registered f.method s.vars t.registers
  aligned : ∀ i, f.method.instructions[s.pc]? = some i → ∃ n waiting,
    AlignedInstr f f.method.instructions b.code s.pc n waiting i t.pc ∧
      Stacked (classPlatform f.owner host) s.vars waiting t.stack

/-- What is known of an emitted method. -/
structure Assembled (f : Jvm.Frame) (b : MethodBlock) : Prop where
  sound : ∀ i ∈ f.method.instructions, Sound f i
  start : ∃ n, Aligned f f.method.instructions b.code 0 n none 0
  placed : f.method.LabelsPlaced
  defined : f.method.LabelsDefined
  result : b.descriptor.result = f.resolver.descriptor f.method.returnTy
  negation : f.negation = .xorOne

theorem ready_of_aligned {s : IrState} {t : JvmState} {n : Nat}
    (haligned : Aligned f f.method.instructions b.code s.pc n none t.pc)
    (hregs : Registered f.method s.vars t.registers) (hstack : t.stack = []) :
    Ready f b host s t :=
  ⟨hregs, fun _ hi => ⟨n, none, (haligned.instr hi).1, hstack⟩⟩

theorem settle_follows {s : IrState} {t : JvmState} {n : Nat} {pending : Option Operand}
    (haligned : Aligned f f.method.instructions b.code s.pc n pending t.pc)
    (hregs : Registered f.method s.vars t.registers)
    (hstack : Stacked (classPlatform f.owner host) s.vars pending t.stack) :
    (jvmMachine (classPlatform f.owner host) b).Follows 0 0 t (pure (.next s)) (Ready f b host) := by
  cases hi : f.method.instructions[s.pc]? with
  | none =>
    refine .next ⟨hregs, fun i hi' => ?_⟩
    rw [hi] at hi'
    cases hi'
  | some i =>
    obtain ⟨hinstr, hplaced⟩ := haligned.instr hi
    have hready : ∀ {pc : Nat} {stack : List Value},
        pc = t.pc + (settleCode pending i).length →
        Stacked (classPlatform f.owner host) s.vars (pending.filter (isConstructorOf · i)) stack →
        Ready f b host s { t with pc, stack } := by
      rintro pc stack rfl hstack
      refine ⟨hregs, fun i' hi' => ?_⟩
      rw [hi] at hi'
      cases hi'
      exact ⟨n, _, hinstr, hstack⟩
    cases pending with
    | none => exact .next (ready_of_aligned haligned hregs hstack)
    | some o =>
      obtain ⟨v, hread, hv⟩ := hstack
      cases hconstructor : isConstructorOf o i with
      | true =>
        refine .next (hready ?_ ?_)
        · simp [settleCode, hconstructor]
        · rw [Option.filter_some, if_pos hconstructor]
          exact ⟨v, hread, hv⟩
      | false =>
        have hsettle : settleCode (some o) i = [.pop] := by
          simp [settleCode, hconstructor]
        rw [hsettle] at hplaced
        refine .skip (t := t.next []) ?_ (.next (hready ?_ ?_))
        · rw [jvmMachine_at hplaced.head, jvmInstr, hv]
          · rfl
          all_goals intros; contradiction
        · rw [hsettle]
          rfl
        · rw [Option.filter_some, hconstructor]
          rfl

/-- Behind the code of an instruction the stack machine goes on with the next one. -/
def GoesOn (f : Jvm.Frame) (b : MethodBlock) (host : Host)
    (pc place : Nat) (waiting : Option Operand) : Prop :=
  ∀ ⦃vars registers stack⦄, Registered f.method vars registers →
    Stacked (classPlatform f.owner host) vars waiting stack →
      (jvmMachine (classPlatform f.owner host) b).Follows 0 0 ⟨place, stack, registers⟩
        (pure (.next ⟨pc, vars⟩)) (Ready f b host)

theorem aligned_goesOn {pc n place : Nat} {waiting : Option Operand}
    (h : Aligned f f.method.instructions b.code pc n waiting place) :
    GoesOn f b host pc place waiting :=
  fun vars registers stack hregs hstack =>
    settle_follows (s := ⟨pc, vars⟩) (t := ⟨place, stack, registers⟩) h hregs hstack

theorem Assembled.jump (h : Assembled f b) {l : Label} {k : Nat}
    (hl : f.method.labels.place? l = some k) :
    ∃ place, b.code.idxOf? (.label l) = some place ∧ ∀ vars registers,
      Registered f.method vars registers → Ready f b host ⟨k, vars⟩ ⟨place, [], registers⟩ := by
  have hk := h.defined l k hl
  have hplain : PlainLabel l := (h.sound _ (List.mem_of_getElem? hk)).defined l rfl
  obtain ⟨n₀, hstart⟩ := h.start
  obtain ⟨n, pending, place, haligned⟩ :=
    hstart.reach k (Nat.le_of_lt (List.getElem?_eq_some_iff.mp hk).1)
  obtain ⟨hinstr, _⟩ := haligned.instr hk
  have hnone : pending.filter (isConstructorOf · (.label l)) = none := by
    cases pending <;> rfl
  rw [hnone] at hinstr
  refine ⟨_, hinstr.idxOf_label (fun i j hi hj => ?_) hplain hk, fun vars registers hregs => ?_⟩
  · have hi' := h.placed i l hi
    rw [h.placed j l hj] at hi'
    exact (Option.some.inj hi').symm
  · refine ⟨hregs, fun i hi => ?_⟩
    rw [show f.method.instructions[k]? = some i from hi] at hk
    cases hk
    exact ⟨n, none, hinstr, rfl⟩

/-! ## Assignments -/

section Assignments

variable {s : IrState} {t : JvmState} {place : Nat}

theorem storeInstr_eq_ok {dest : Operand} {st : Instr} (h : storeInstr f dest = .ok st) :
    ∃ key register, destination? dest = some key ∧ key ≠ .receiver ∧
      f.method.vars.register? key = some register ∧ st = .store (.ofTy dest.ty) register ∧
        ∀ P v (vars : Vars), P.holds dest.ty v → readOperand P (vars.set key v) dest = pure v := by
  have hregister : ∀ {key : Ir.VarKey} {register : Nat}, dest.key? = some key →
      registerOf f dest = .ok register → f.method.vars.register? key = some register := by
    intro key register hkey hregister
    rw [registerOf, Ir.Method.register?, hkey, Option.bind_some] at hregister
    cases hr : f.method.vars.register? key with
    | none =>
      rw [hr] at hregister
      cases hregister
    | some r =>
      rw [hr] at hregister
      cases hregister
      rfl
  have hread : ∀ {key : Ir.VarKey} (P : Platform) (v : Value) (vars : Vars), dest.key? = some key →
      P.holds dest.ty v → readOperand P (vars.set key v) dest = pure v := by
    intro key P v vars hkey hv
    rw [readOperand_of_key hkey, Vars.set, if_pos rfl]
    exact expect_of_holds hv
  cases dest with
  | literal | receiver | classRef => cases h
  | var name ty =>
    obtain ⟨register, hr, h⟩ := except_bind h
    cases h
    exact ⟨.named name, register, rfl, by simp, hregister rfl hr, rfl,
      fun P v vars hv => hread P v vars rfl hv⟩
  | temp id ty =>
    obtain ⟨register, hr, h⟩ := except_bind h
    cases h
    exact ⟨.temp id, register, rfl, by simp, hregister rfl hr, rfl,
      fun P v vars hv => hread P v vars rfl hv⟩

theorem store_step {P : Platform} {kind : Kind} {register : Nat} {v : Value} {rest : List Value}
    (hat : b.code[t.pc]? = some (.store kind register)) (hstack : t.stack = v :: rest)
    (hkind : v.isKind kind) :
    jvmMachine P b t = pure (.next ⟨t.pc + 1, rest, fun r =>
      if r = register then some v else t.registers r⟩) := by
  rw [jvmMachine_at hat, jvmInstr, hstack]
  show keep kind v >>= _ = _
  rw [keep_of_isKind hkind, pure_bind]
  rfl

theorem assignVar_follows {dest : Operand} {value : Ir.Value} {code : List Instr} {st : Instr}
    {n n' : Nat} (hnegation : f.negation = .xorOne)
    (hfits : ∀ call, value = .call call → CallFits f call) (hvalue : ValueCode f n value code n')
    (hst : storeInstr f dest = .ok st) (hregs : Registered f.method s.vars t.registers)
    (hstack : t.stack = []) (hplaced : Placed b.code t.pc (code ++ [st]))
    (hlabels : JumpsInto b t.pc n n') (hplace : place = t.pc + (code ++ [st]).length)
    (hnext : GoesOn f b host (s.pc + 1) place none) :
    (jvmMachine (classPlatform f.owner host) b).Follows 1 0 t
      (irInstr (classPlatform f.owner host) f.method s (.assign (.var dest) value))
      (Ready f b host) := by
  obtain ⟨key, register, hdest, hkey, hregister, rfl, _⟩ := storeInstr_eq_ok hst
  rw [irInstr, hdest]
  refine (value_computes hnegation hfits hvalue hregs hplaced.left hlabels).follows
    (irValue_ends value) fun v t' ht' => ?_
  subst ht'
  by_cases hv : (classPlatform f.owner host).holds dest.ty v
  · rw [expect_of_holds hv, pure_bind]
    refine .skip (store_step hplaced.right.head rfl (isKind_of_holds hv)) ?_
    have hpc : place = t.pc + code.length + 1 := by
      rw [hplace, List.length_append]
      rfl
    subst hpc
    rw [hstack]
    exact hnext (hregs.set hregister hkey v) rfl
  · rw [Platform.expect, if_neg hv]
    exact .stuck

theorem newObject_follows {dest : Operand} {call : Ir.Call} {name : String} {st : Instr}
    (hnew : call.isObjectNew) (hty : call.returnTy = .object name)
    (hst : storeInstr f dest = .ok st) (hregs : Registered f.method s.vars t.registers)
    (hstack : t.stack = [])
    (hplaced : Placed b.code t.pc [.new (f.resolver.internalName name), .dup, st])
    (hnext : GoesOn f b host (s.pc + 1) (t.pc + 3) (some dest)) :
    (jvmMachine (classPlatform f.owner host) b).Follows 1 0 t
      (irInstr (classPlatform f.owner host) f.method s (.assign (.var dest) (.call call)))
      (Ready f b host) := by
  obtain ⟨key, register, hdest, hkey, hregister, rfl, hread⟩ := storeInstr_eq_ok hst
  have hfresh : ∀ v w w', alloc (.object (f.resolver.internalName name) []) w = .ok v w' →
      (classPlatform f.owner host).holds (.object name) v := by
    intro v w w' hv
    cases hv
    rfl
  have halloc : irValue (classPlatform f.owner host) s.vars (.call call) =
      alloc (.object (f.resolver.internalName name) []) := by
    have hkind : call.kind = .new := eq_of_beq (Bool.and_eq_true _ _ ▸ hnew).1
    have hcall : irCall (classPlatform f.owner host) s.vars call =
        alloc (.object (f.resolver.internalName name) []) := by
      rw [irCall]
      simp only [hkind, hty]
      rfl
    rw [irValue, hcall, hty]
    exact bind_expect hfresh
  rw [irInstr, hdest]
  dsimp only
  rw [halloc]
  have hfirst : (jvmMachine (classPlatform f.owner host) b).Computes 1 t
      (alloc (.object (f.resolver.internalName name) [])) fun v t' => t' = t.next (v :: t.stack) :=
    work_computes hplaced.head rfl rfl (.refl _)
  refine hfirst.follows (alloc_ends _) fun v t' ht' => ?_
  subst ht'
  by_cases hv : (classPlatform f.owner host).holds dest.ty v
  · rw [expect_of_holds hv, pure_bind]
    refine .skip (t := (t.next (v :: t.stack)).next (v :: v :: t.stack)) ?_ ?_
    · rw [jvmMachine_at hplaced.tail.head]
      rfl
    · refine .skip (store_step hplaced.tail.tail.head rfl (isKind_of_holds hv)) ?_
      rw [hstack]
      exact hnext (hregs.set hregister hkey v) ⟨v, hread _ v _ hv, rfl⟩
  · rw [Platform.expect, if_neg hv]
    exact .stuck

theorem assignElement_follows {array index value : Operand} {ty : Ty} {i j k : Instr}
    (hi : loadInstr f array = .ok i) (hj : loadInstr f index = .ok j)
    (hk : loadInstr f value = .ok k) (hregs : Registered f.method s.vars t.registers)
    (hstack : t.stack = []) (hplaced : Placed b.code t.pc [i, j, k, .arrayStore (.ofTy ty)])
    (hnext : GoesOn f b host (s.pc + 1) (t.pc + 4) none) :
    (jvmMachine (classPlatform f.owner host) b).Follows 1 0 t
      (irInstr (classPlatform f.owner host) f.method s
        (.assign (.element array index ty) (.operand value)))
      (Ready f b host) := by
  rw [irInstr]
  refine (load_computes hregs hi hplaced.head).follows (readOperand_ends array) fun a t' ht' => ?_
  subst ht'
  refine ((load_computes (t := t.next (a :: t.stack)) hregs hj hplaced.tail.head).mono
    (Nat.zero_le 1) fun _ _ h => h).follows (readOperand_ends index) fun i t' ht' => ?_
  subst ht'
  refine ((load_computes (t := (t.next (a :: t.stack)).next (i :: a :: t.stack)) hregs hk
    hplaced.tail.tail.head).mono (Nat.zero_le 1) fun _ _ h => h).follows
      (readOperand_ends value) fun v t' ht' => ?_
  subst ht'
  rw [← bind_assoc]
  refine ((work_computes (e := keep (elementKind (.ofTy ty)) v >>= fun u =>
      (classPlatform f.owner host).storeElement a i (narrowElement (.ofTy ty) u)) (g := fun _ => t.stack)
    hplaced.tail.tail.tail.head rfl ?_ ?_).mono (Nat.zero_le 1) fun _ _ h => h).follows
      ((Platform.expect_ends _ ty v).bind fun u => Platform.storeElement_ends _ a i u) fun _ t' ht' => ?_
  · rw [bind_assoc]
    rfl
  · by_cases hv : (classPlatform f.owner host).holds ty v
    · rw [expect_of_holds hv, keep_of_isKind (isKind_element hv), pure_bind, pure_bind,
        narrowElement_of_holds hv]
      exact .refl _
    · rw [Platform.expect, if_neg hv]
      exact stuck_bind_refines
  · rw [ht', hstack]
    exact hnext hregs rfl

theorem writeField_refines {owner field : String} {value : Operand} {object v : Value}
    (hv : (classPlatform f.owner host).holds value.ty v) :
    Action.Refines ((classPlatform f.owner host).writeField owner field object v)
      (keep (kindOf (f.resolver.descriptor (writtenTy f owner field value))) v >>= fun u =>
        putField owner field object
          (narrow (f.resolver.descriptor (writtenTy f owner field value)) u)) := by
  by_cases hholds : (classPlatform f.owner host).fieldHolds owner field v
  · have hwritten : (classPlatform f.owner host).holds (writtenTy f owner field value) v := by
      have hholds : (if owner = f.owner.name then
          (f.owner.field? field).all ((classPlatform f.owner host).holds ·.ty v) else true) = true :=
        hholds
      rw [writtenTy]
      by_cases howner : owner = f.owner.name
      · rw [if_pos howner] at hholds ⊢
        cases hfield : f.owner.field? field with
        | none => exact hv
        | some declared =>
          rw [hfield] at hholds
          exact hholds
      · rw [if_neg howner]
        exact hv
    rw [Platform.writeField, hholds, keep_of_isKind (isKind_descriptor _ hwritten), pure_bind,
      narrow_of_holds _ hwritten]
    exact .refl _
  · rw [Platform.writeField, Action.check, if_neg hholds]
    exact stuck_bind_refines

theorem putField_follows {object value : Operand} {field owner : String} {i j : Instr}
    (howner : ownerOf f object = .ok owner) (hi : loadInstr f object = .ok i)
    (hj : loadInstr f value = .ok j) (hregs : Registered f.method s.vars t.registers)
    (hstack : t.stack = []) (hplaced : Placed b.code t.pc [i, j, .putField owner field
      (f.resolver.descriptor (writtenTy f owner field value))])
    (hnext : GoesOn f b host (s.pc + 1) (t.pc + 3) none) :
    (jvmMachine (classPlatform f.owner host) b).Follows 1 0 t
      (irInstr (classPlatform f.owner host) f.method s (.putField object field value))
      (Ready f b host) := by
  rw [irInstr]
  cases hobject : fieldOwner (classPlatform f.owner host) object with
  | none => exact .stuck
  | some owner' =>
    cases fieldOwner_eq howner hobject
    refine (load_computes hregs hi hplaced.head).follows (readOperand_ends object)
      fun o t' ht' => ?_
    subst ht'
    refine ((load_holds (t := t.next (o :: t.stack)) hregs hj hplaced.tail.head).mono
      (Nat.zero_le 1) fun _ _ h => h).follows (readOperand_ends value) fun v t' ⟨ht', hv⟩ => ?_
    subst ht'
    refine ((work_computes (g := fun _ => t.stack) hplaced.tail.tail.head rfl ?_
      (writeField_refines hv)).mono (Nat.zero_le 1) fun _ _ h => h).follows
        (Platform.writeField_ends _ _ _ _ _) fun _ t' ht' => ?_
    · rw [bind_assoc]
      rfl
    · rw [ht', hstack]
      exact hnext hregs rfl

end Assignments

/-! ## Calls -/

section Calls

variable {s : IrState} {t : JvmState}

theorem Stacked.waits {vars : Vars} {pending : Option Operand} {call : Ir.Call}
    {stack : List Value} (h : Stacked (classPlatform f.owner host) vars pending stack)
    (hpending : ∀ o, pending = some o → call.kind = .invokeSpecial ∧ o = call.target) :
    Waits (classPlatform f.owner host) vars call.target [] stack pending.isSome := by
  cases pending with
  | none => exact .no h
  | some o =>
    obtain ⟨v, hread, hv⟩ := h
    obtain ⟨_, rfl⟩ := hpending o rfl
    exact .yes hread hv

theorem call_follows {call : Ir.Call} {pending : Option Operand} {code : List Instr}
    (hfits : CallFits f call)
    (hpending : ∀ o, pending = some o → call.kind = .invokeSpecial ∧ o = call.target)
    (hcall : CallCode f call pending.isSome code)
    (hregs : Registered f.method s.vars t.registers)
    (hstack : Stacked (classPlatform f.owner host) s.vars pending t.stack)
    (hplaced : Placed b.code t.pc (code ++ if call.returnTy.isVoid then [] else [.pop]))
    (hnext : GoesOn f b host (s.pc + 1)
      (t.pc + (code ++ if call.returnTy.isVoid then [] else [Instr.pop]).length) none) :
    (jvmMachine (classPlatform f.owner host) b).Follows 1 0 t
      (irInstr (classPlatform f.owner host) f.method s (.call call)) (Ready f b host) := by
  rw [irInstr]
  refine (callCode_computes hfits hcall hregs hplaced.left (hstack.waits hpending)).follows
    (irCall_ends call) fun v t' ht' => ?_
  subst ht'
  by_cases hvoid : call.returnTy.isVoid
  · rw [if_pos hvoid, List.append_nil] at hnext
    rw [afterCall, if_pos hvoid]
    exact hnext hregs rfl
  · rw [if_neg hvoid] at hnext hplaced
    rw [afterCall, if_neg hvoid]
    refine .skip (t := ⟨t.pc + code.length + 1, [], t.registers⟩) ?_ ?_
    · rw [jvmMachine_at hplaced.right.head]
      rfl
    · rw [List.length_append] at hnext
      exact hnext hregs rfl

end Calls

/-! ## Jumps and returns -/

section Jumps

variable {s : IrState} {t : JvmState}

theorem label_follows {l : Label} (hregs : Registered f.method s.vars t.registers)
    (hstack : t.stack = []) (hplaced : Placed b.code t.pc [.label l])
    (hnext : GoesOn f b host (s.pc + 1) (t.pc + 1) none) :
    (jvmMachine (classPlatform f.owner host) b).Follows 1 0 t
      (irInstr (classPlatform f.owner host) f.method s (.label l)) (Ready f b host) := by
  refine (Machine.Follows.step (jvm_label_step hplaced.head) ?_).mono (Nat.le_refl 1) (Nat.zero_le 1)
    fun _ _ h => h
  rw [hstack]
  exact hnext hregs rfl

theorem goto_follows {l : Label} (hb : Assembled f b)
    (hregs : Registered f.method s.vars t.registers) (hstack : t.stack = [])
    (hplaced : Placed b.code t.pc [.goto l]) :
    (jvmMachine (classPlatform f.owner host) b).Follows 1 0 t
      (irInstr (classPlatform f.owner host) f.method s (.goto l)) (Ready f b host) := by
  rw [irInstr]
  cases hl : f.method.labels.place? l with
  | none => exact .stuck
  | some k =>
    obtain ⟨place, hplace, hready⟩ := hb.jump hl
    refine (Machine.Follows.step (jvm_goto_step hplaced.head hplace) ?_).mono (Nat.le_refl 1)
      (Nat.zero_le 1) fun _ _ h => h
    rw [hstack]
    exact .next (hready s.vars t.registers hregs)

/-- A branch of the intermediate code. -/
def branch (m : Ir.Method) (s : IrState) (l : Label) (taken : Bool) : Action (Flow IrState) :=
  if taken then
    match m.labels.place? l with
    | some place => return .next { s with pc := place }
    | none => Action.stuck
  else return .next { s with pc := s.pc + 1 }

theorem branch_follows {l : Label} {taken : Bool} (hb : Assembled f b)
    (hregs : Registered f.method s.vars t.registers)
    (hjumps : ∀ place, taken → b.code.idxOf? (.label l) = some place →
      jvmMachine (classPlatform f.owner host) b t = pure (.next { t with pc := place, stack := [] }))
    (hfalls : taken = false →
      jvmMachine (classPlatform f.owner host) b t = pure (.next (t.next [])))
    (hnext : GoesOn f b host (s.pc + 1) (t.pc + 1) none) :
    (jvmMachine (classPlatform f.owner host) b).Follows 0 0 t (branch f.method s l taken)
      (Ready f b host) := by
  cases taken with
  | true =>
    rw [branch, if_pos rfl]
    cases hl : f.method.labels.place? l with
    | none => exact .stuck
    | some k =>
      obtain ⟨place, hplace, hready⟩ := hb.jump hl
      exact .skip (hjumps place rfl hplace) (.next (hready s.vars t.registers hregs))
  | false => exact .skip (hfalls rfl) (hnext hregs rfl)

theorem condLess_follows {left right : Operand} {l : Label} {i j : Instr} (hb : Assembled f b)
    (hi : loadInstr f left = .ok i) (hj : loadInstr f right = .ok j)
    (hregs : Registered f.method s.vars t.registers) (hstack : t.stack = [])
    (hplaced : Placed b.code t.pc [i, j, .ifLess l])
    (hnext : GoesOn f b host (s.pc + 1) (t.pc + 3) none) :
    (jvmMachine (classPlatform f.owner host) b).Follows 1 0 t
      (irInstr (classPlatform f.owner host) f.method s (.condGoto (.binary .lt left right) l))
      (Ready f b host) := by
  show (jvmMachine (classPlatform f.owner host) b).Follows 1 0 t
    (irValue (classPlatform f.owner host) s.vars (.binary .lt left right) >>= fun v =>
      (classPlatform f.owner host).test v >>= branch f.method s l) _
  rw [irValue, bind_assoc]
  refine (load_computes hregs hi hplaced.head).follows (readOperand_ends left) fun x t' ht' => ?_
  subst ht'
  rw [bind_assoc]
  refine ((load_computes (t := t.next (x :: t.stack)) hregs hj hplaced.tail.head).mono
    (Nat.zero_le 1) fun _ _ h => h).follows (readOperand_ends right) fun y t' ht' => ?_
  subst ht'
  cases x with
  | bool | null | ref => exact .stuck
  | int x =>
    cases y with
    | bool | null | ref => exact .stuck
    | int y =>
      show (jvmMachine (classPlatform f.owner host) b).Follows 0 0 _
        ((classPlatform f.owner host).test ((classPlatform f.owner host).truth (decide (x < y)))
          >>= branch f.method s l) _
      rw [Platform.test_truth, pure_bind]
      have hat := hplaced.tail.tail.head
      refine branch_follows hb hregs (fun place htaken hplace => ?_) (fun htaken => ?_) hnext
      · rw [hstack]
        exact ifLess_jumps (t := ⟨t.pc + 2, [.int y, .int x], t.registers⟩) hat hplace rfl
          (of_decide_eq_true htaken)
      · rw [hstack]
        exact ifLess_falls (t := ⟨t.pc + 2, [.int y, .int x], t.registers⟩) hat rfl
          (of_decide_eq_false htaken)

theorem condValue_follows {value : Ir.Value} {l : Label} {code : List Instr} {n n' : Nat}
    (hb : Assembled f b) (hfits : ∀ call, value = .call call → CallFits f call)
    (hvalue : ValueCode f n value code n') (hregs : Registered f.method s.vars t.registers)
    (hstack : t.stack = []) (hplaced : Placed b.code t.pc (code ++ [.ifTrue l]))
    (hlabels : JumpsInto b t.pc n n')
    (hnext : GoesOn f b host (s.pc + 1) (t.pc + code.length + 1) none) :
    (jvmMachine (classPlatform f.owner host) b).Follows 1 0 t
      (irInstr (classPlatform f.owner host) f.method s (.condGoto value l)) (Ready f b host) := by
  show (jvmMachine (classPlatform f.owner host) b).Follows 1 0 t
    (irValue (classPlatform f.owner host) s.vars value >>= fun v =>
      (classPlatform f.owner host).test v >>= branch f.method s l) _
  refine (value_computes hb.negation hfits hvalue hregs hplaced.left hlabels).follows
    (irValue_ends value) fun v t' ht' => ?_
  subst ht'
  rcases (classPlatform f.owner host).test_cases v with htest | ⟨taken, rfl, htest⟩
  · rw [htest]
    exact .stuck
  · rw [htest, pure_bind, hstack]
    have hat := hplaced.right.head
    refine branch_follows hb hregs (fun place htaken hplace => ?_) (fun htaken => ?_) hnext
    · subst htaken
      rw [jvmMachine_at hat]
      show JvmState.jump _ b l [] = _
      rw [JvmState.jump, hplace]
    · subst htaken
      rw [jvmMachine_at hat]
      rfl

theorem ret_follows {o : Operand} {i : Instr} (hb : Assembled f b) (hi : loadInstr f o = .ok i)
    (hregs : Registered f.method s.vars t.registers)
    (hplaced : Placed b.code t.pc [i, .ret (returnKind f.method.returnTy)]) :
    (jvmMachine (classPlatform f.owner host) b).Follows 1 0 t
      (irInstr (classPlatform f.owner host) f.method s (.ret (some o))) (Ready f b host) := by
  rw [irInstr]
  refine (load_computes hregs hi hplaced.head).follows (readOperand_ends o) fun v t' ht' => ?_
  subst ht'
  have hat := hplaced.tail.head
  rw [returnKind] at hat
  by_cases hvoid : f.method.returnTy.isVoid
  · rw [if_pos hvoid] at hat ⊢
    refine .returned ?_
    rw [jvmMachine_at hat]
    rfl
  · rw [if_neg hvoid] at hat ⊢
    by_cases hv : (classPlatform f.owner host).holds f.method.returnTy v
    · rw [expect_of_holds hv, pure_bind]
      refine .returned ?_
      rw [jvmMachine_at hat]
      show keep (.ofTy f.method.returnTy) v >>= (fun v =>
        pure (Flow.returned (some (narrow b.descriptor.result v)))) = _
      rw [keep_of_isKind (isKind_of_holds hv), pure_bind, hb.result, narrow_of_holds _ hv]
    · rw [Platform.expect, if_neg hv]
      exact .stuck

end Jumps

/-! ## Methods -/

/-- Emitted code follows every step of the intermediate code. -/
theorem ready_follows (hb : Assembled f b) {s : IrState} {t : JvmState}
    (h : Ready f b host s t) :
    (jvmMachine (classPlatform f.owner host) b).Follows 1 0 t
      (irMachine (classPlatform f.owner host) f.method s) (Ready f b host) := by
  obtain ⟨hregs, haligned⟩ := h
  cases hi : f.method.instructions[s.pc]? with
  | none =>
    rw [irMachine, hi]
    exact .stuck
  | some i =>
    rw [irMachine_at hi]
    obtain ⟨n, waiting, hinstr, hstack⟩ := haligned i hi
    obtain ⟨code, waiting', n', hcode, hplaced, hnext⟩ := hinstr.code
    have hsound := hb.sound i (List.mem_of_getElem? hi)
    have hgoes : GoesOn f b host (s.pc + 1) (t.pc + code.length) waiting' := aligned_goesOn hnext
    have hlabels : JumpsInto b t.pc n n' := fun l first rest hl hat hfirst =>
      hinstr.idxOf_made hb.sound hl hat hfirst
    cases hcode with
    | newObject hnew hty hst => exact newObject_follows hnew hty hst hregs hstack hplaced hgoes
    | assignVar hnew hty hvalue hst =>
      refine assignVar_follows hb.negation ?_ hvalue hst hregs hstack hplaced hlabels rfl hgoes
      rintro call rfl
      exact hsound.calls call List.mem_cons_self
    | @assignElement array index ty value _ _ _ _ hai haj hvalue =>
      obtain ⟨o, rfl⟩ := hsound.element array index ty value rfl
      cases hvalue with
      | operand ho => exact assignElement_follows hai haj ho hregs hstack hplaced hgoes
    | putField howner hai haj => exact putField_follows howner hai haj hregs hstack hplaced hgoes
    | call hnew hpending hcall =>
      exact call_follows (hsound.calls _ List.mem_cons_self) hpending hcall hregs hstack hplaced
        hgoes
    | label => exact label_follows hregs hstack hplaced hgoes
    | goto => exact goto_follows hb hregs hstack hplaced
    | condLess hai haj => exact condLess_follows hb hai haj hregs hstack hplaced hgoes
    | condValue hless hvalue =>
      refine condValue_follows hb ?_ hvalue hregs hstack hplaced hlabels ?_
      · rintro call rfl
        exact absurd rfl (hsound.branch call _)
      · rw [List.length_append] at hgoes
        exact hgoes
    | ret hai => exact ret_follows hb hai hregs hplaced
    | retNone =>
      refine .returned ?_
      rw [jvmMachine_at hplaced.head]
      rfl

/-- A method that is emitted has the outcome of its intermediate code, and no other one. -/
theorem assembled_keeps_outcome (hb : Assembled f b) {self : Value} {args : List Value}
    (hregs : Registered f.method (irStart f.method self args)
      (jvmStart f.method.isStatic self args).registers) {w : World} {o : Outcome}
    (h : HasOutcome (irRun (classPlatform f.owner host) f.method self args) w o) (o' : Outcome) :
    HasOutcome (jvmRun (classPlatform f.owner host) f.method.isStatic b self args) w o' ↔
      o' = o := by
  obtain ⟨n, hstart⟩ := hb.start
  have hready : Ready f b host ⟨0, irStart f.method self args⟩
      (jvmStart f.method.isStatic self args) :=
    ready_of_aligned hstart hregs rfl
  have hkept := Machine.simulates_outcome (fun s t => ready_follows hb)
    (irMachine_ends (classPlatform f.owner host) f.method) hready h
  refine ⟨fun h' => Machine.outcome_unique h' hkept, ?_⟩
  rintro rfl
  exact hkept

end MiniJava.Semantics
