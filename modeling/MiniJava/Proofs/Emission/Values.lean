import MiniJava.Proofs.Emission.Operands

/-!
# Values on the stack

The code of a value pushes the value. Behind the loads of its operands there is one instruction that
does the work, but for a comparison, whose result is decided by a jump.
-/

namespace MiniJava.Semantics

open Ir (Operand)
open Jvm

variable {f : Jvm.Frame} {b : MethodBlock} {vars : Vars} {t : JvmState}
  {host : Host}

/-- Where code leads that pushes a value. -/
def Pushed (t : JvmState) (code : List Instr) (v : Value) (t' : JvmState) : Prop :=
  t' = { t with pc := t.pc + code.length, stack := v :: t.stack }

theorem work_computes {α : Type} {P : Platform} {i : Instr} {a e : Action α}
    {g : α → List Value} (hat : b.code[t.pc]? = some i)
    (hinstr : jvmInstr P b t i = onStack P i t.stack >>= fun stack => pure (.next (t.next stack)))
    (hstack : onStack P i t.stack = e >>= fun v => pure (g v)) (ha : Action.Refines a e) :
    (jvmMachine P b).Computes 1 t a fun v t' => t' = t.next (g v) := by
  refine Machine.Computes.refines (.single ?_ fun _ _ _ _ => rfl) ha
  rw [jvmMachine_at hat, hinstr, hstack, bind_assoc]
  rfl

/-! ## Operations -/

theorem stuck_bind_refines {α β : Type} {g : α → Action β} {a : Action β} :
    Action.Refines (Action.stuck >>= g) a :=
  .stuck a

theorem wordOp_refines {op : Ir.BinOp} {o : WordOp} (h : WordOp.ofBinOp? op = some o) (x y : Value) :
    Action.Refines (irBinary (classPlatform f.owner host) op x y) (wordOp o x y) := by
  cases op with
  | add | sub | mul | div =>
    cases h
    exact .refl _
  | lt => cases h
  | and =>
    cases h
    rw [irBinary]
    rcases (classPlatform f.owner host).test_cases x with hx | ⟨l, rfl, hx⟩
    · simp only [hx]
      exact stuck_bind_refines
    · rcases (classPlatform f.owner host).test_cases y with hy | ⟨r, rfl, hy⟩
      · simp only [hx, hy, pure_bind]
        exact stuck_bind_refines
      · simp only [hx, hy, pure_bind]
        cases l <;> cases r <;> exact .refl _

theorem xor_refines (v : Value) :
    Action.Refines ((classPlatform f.owner host).test v >>= fun b =>
      pure ((classPlatform f.owner host).truth !b)) (wordOp .xor v (.int 1)) := by
  rcases (classPlatform f.owner host).test_cases v with hv | ⟨b, rfl, hv⟩
  · rw [hv]
    exact stuck_bind_refines
  · rw [hv, pure_bind]
    cases b <;> exact .refl _

/-! ## Calls -/

/-- The object of a call waits on the stack, or does not. -/
inductive Waits (P : Platform) (vars : Vars) (object : Operand) (rest stack : List Value) :
    Bool → Prop
  | no (hstack : stack = rest) : Waits P vars object rest stack false
  | yes {v : Value} (hread : readOperand P vars object = pure v) (hstack : stack = v :: rest) :
    Waits P vars object rest stack true

/-- What a call leaves on the stack. -/
def afterCall (call : Ir.Call) (v : Value) (rest : List Value) : List Value :=
  if call.returnTy.isVoid then rest else v :: rest

theorem popArgs_reverse (values rest : List Value) :
    popArgs values.length (values.reverse ++ rest) = pure (values, rest) := by
  have hlength : values.reverse.length = values.length := List.length_reverse
  rw [popArgs, if_pos (by simp only [List.length_append, hlength]; omega),
    List.take_left' hlength, List.drop_left' hlength, List.reverse_reverse]

/-- What an invocation takes off the stack below the arguments, and the target that this gives. -/
inductive Receives (owner : String) (rest : List Value) :
    Invocation → List Value → Target → Prop
  | static : Receives owner rest .static rest (.static owner)
  | special {v : Value} : Receives owner rest .special (v :: rest) (.object v)
  | virtual {v : Value} : Receives owner rest .virtual (v :: rest) (.object v)

theorem invoke_computes {P : Platform} {call : Ir.Call} {invocation : Invocation}
    {owner name : String} {d : MethodDescriptor} {values stack rest : List Value} {target : Target}
    (hat : b.code[t.pc]? = some (.invoke invocation owner name d))
    (hstack : t.stack = values.reverse ++ stack) (hparams : d.params.length = values.length)
    (hresult : d.result = .void ↔ call.returnTy.isVoid)
    (htarget : Receives owner rest invocation stack target) :
    (jvmMachine P b).Computes 1 t (P.invoke target name values) fun v t' =>
      t' = t.next (afterCall call v rest) := by
  refine .single (g := fun v => t.next (afterCall call v rest)) ?_ fun _ _ _ _ => rfl
  have hafter : ∀ v, (if d.result = .void then rest else v :: rest) = afterCall call v rest := by
    intro v
    rw [afterCall]
    simp only [hresult]
  rw [jvmMachine_at hat]
  show invokeOn P invocation owner name d t.stack >>= _ = _
  rw [invokeOn, hstack, hparams, popArgs_reverse, pure_bind]
  cases htarget with
  | static | special | virtual =>
    simp only [bind_assoc, pure_bind, hafter]

theorem irCall_invoke {P : Platform} {call : Ir.Call} {name : String}
    (hkind : call.kind = .invokeVirtual ∨ call.kind = .invokeSpecial)
    (hname : call.method = some name) :
    irCall P vars call = readOperand P vars call.target >>= fun object =>
      readOperands P vars call.args >>= fun values => P.invoke (.object object) name values := by
  rw [irCall]
  rcases hkind with hkind | hkind
  · simp only [hkind, hname]
  · simp only [hkind, hname]

theorem irCall_newArray {P : Platform} {call : Ir.Call} {element : Ty} {size : Operand}
    (hkind : call.kind = .new) (hty : call.returnTy.element? = some element)
    (hsize : call.args.head? = some size) :
    irCall P vars call = readOperand P vars size >>= P.newArray element := by
  obtain ⟨rest, hargs⟩ := List.head?_eq_some_iff.mp hsize
  have hreturn : call.returnTy = .array element := by
    cases hr : call.returnTy <;> rw [hr] at hty <;> cases hty
    rfl
  rw [irCall]
  simp only [hkind, hreturn, hargs]

theorem objectCall_computes {call : Ir.Call} {invocation : Invocation} {waiting : Bool}
    {owner name : String} {d : MethodDescriptor} {code : List Instr} {rest : List Value}
    (hobject : invocation ≠ .static)
    (hkind : call.kind = .invokeVirtual ∨ call.kind = .invokeSpecial)
    (hname : call.method = some name) (hparams : d.params.length = call.args.length)
    (hresult : d.result = .void ↔ call.returnTy.isVoid)
    (hloads : Loads f (pushedOperands invocation waiting call) code)
    (hregs : Registered f.method vars t.registers)
    (hplaced : Placed b.code t.pc (code ++ [.invoke invocation owner name d]))
    (hwaits : Waits (classPlatform f.owner host) vars call.target rest t.stack waiting) :
    (jvmMachine (classPlatform f.owner host) b).Computes 1 t
      (irCall (classPlatform f.owner host) vars call) fun v t' =>
        t' = { t with pc := t.pc + (code.length + 1), stack := afterCall call v rest } := by
  have hreceives : ∀ v, Receives owner rest invocation (v :: rest) (.object v) := by
    intro v
    cases invocation with
    | static => exact absurd rfl hobject
    | special => exact .special
    | virtual => exact .virtual
  rw [irCall_invoke hkind hname]
  cases hwaits with
  | no hstack =>
    rw [pushedOperands, if_neg (by simp [hobject])] at hloads
    cases hloads with
    | @cons _ i _ code hi hloads =>
      refine (load_computes hregs hi hplaced.head).bind fun v t' ht' => ?_
      subst ht'
      refine (loads_computes (t := t.next (v :: t.stack)) hloads hregs hplaced.tail.left).bind
        fun values t' hloaded => ?_
      obtain ⟨hlength, rfl⟩ := hloaded
      have hinvoke := invoke_computes (P := classPlatform f.owner host) (b := b)
        (t := { t with
          pc := t.pc + 1 + code.length, stack := values.reverse ++ v :: t.stack })
        (hplaced.tail.right.head) (by rw [hstack]) (hparams.trans hlength.symm) hresult (hreceives v)
      refine hinvoke.mono (Nat.zero_le 1) fun u t' ht' => ?_
      rw [ht', List.length_cons]
      simp only [JvmState.next, JvmState.mk.injEq, and_true]
      omega
  | @yes v hread hstack =>
    rw [pushedOperands, if_pos (.inr rfl)] at hloads
    rw [hread, pure_bind]
    refine (loads_computes hloads hregs hplaced.left).bind_later fun values t' hloaded => ?_
    obtain ⟨hlength, rfl⟩ := hloaded
    have hinvoke := invoke_computes (P := classPlatform f.owner host) (b := b)
      (t := { t with pc := t.pc + code.length, stack := values.reverse ++ t.stack })
      hplaced.right.head (by rw [hstack]) (hparams.trans hlength.symm) hresult (hreceives v)
    refine hinvoke.mono (Nat.le_refl 1) fun u t' ht' => ?_
    rw [ht']
    rfl

theorem staticCall_computes {call : Ir.Call} {waiting : Bool} {owner name : String}
    {d : MethodDescriptor} {code : List Instr} {rest : List Value}
    (hkind : call.kind = .invokeStatic) (howner : callOwner f .static call.target = .ok owner)
    (hname : call.method = some name) (hparams : d.params.length = call.args.length)
    (hresult : d.result = .void ↔ call.returnTy.isVoid)
    (hloads : Loads f (pushedOperands .static waiting call) code)
    (hregs : Registered f.method vars t.registers)
    (hplaced : Placed b.code t.pc (code ++ [.invoke .static owner name d]))
    (hstack : t.stack = rest) :
    (jvmMachine (classPlatform f.owner host) b).Computes 1 t
      (irCall (classPlatform f.owner host) vars call) fun v t' =>
        t' = { t with pc := t.pc + (code.length + 1), stack := afterCall call v rest } := by
  rw [pushedOperands, if_pos (.inl rfl)] at hloads
  rw [irCall]
  simp only [hkind, hname]
  cases htarget : call.target with
  | classRef className =>
    rw [htarget] at howner
    cases howner
    refine (loads_computes hloads hregs hplaced.left).bind_later fun values t' hloaded => ?_
    obtain ⟨hlength, rfl⟩ := hloaded
    have hinvoke := invoke_computes (P := classPlatform f.owner host) (b := b)
      (t := { t with pc := t.pc + code.length, stack := values.reverse ++ t.stack })
      hplaced.right.head (by rw [hstack]) (hparams.trans hlength.symm) hresult .static
    refine hinvoke.mono (Nat.le_refl 1) fun u t' ht' => ?_
    rw [ht']
    rfl
  | literal | var | temp | receiver => exact .stuck

/-- The code of a call does what the call does. -/
theorem callCode_computes {call : Ir.Call} {waiting : Bool} {code : List Instr} {rest : List Value}
    (hfits : CallFits f call) (h : CallCode f call waiting code)
    (hregs : Registered f.method vars t.registers) (hplaced : Placed b.code t.pc code)
    (hwaits : Waits (classPlatform f.owner host) vars call.target rest t.stack waiting) :
    (jvmMachine (classPlatform f.owner host) b).Computes 1 t
      (irCall (classPlatform f.owner host) vars call) fun v t' =>
        t' = { t with pc := t.pc + code.length, stack := afterCall call v rest } := by
  cases h with
  | newArray hkind hty hsize hi =>
    cases hwaits with
    | no hstack =>
      have hvoid : ¬ call.returnTy.isVoid := by
        cases hr : call.returnTy with
        | array element => exact Bool.false_ne_true
        | _ =>
          rw [hr] at hty
          cases hty
      rw [irCall_newArray hkind hty hsize]
      refine (load_computes hregs hi hplaced.head).bind fun n t' ht' => ?_
      subst ht'
      refine (work_computes hplaced.tail.head rfl rfl ?_).mono (Nat.zero_le 1) fun v t' ht' => ?_
      · rw [zeroOf_component, zeroOf_descriptor f.owner host, Frame.resolver,
          component_descriptor f.owner host]
        exact .refl _
      · rw [ht', afterCall, if_neg hvoid, ← hstack]
        rfl
  | arrayLength hkind hi =>
    cases hwaits with
    | no hstack =>
      have harray : irCall (classPlatform f.owner host) vars call =
          readOperand (classPlatform f.owner host) vars call.target >>= arrayLength := by
        rw [irCall]
        simp only [hkind]
      rw [harray]
      refine (load_computes hregs hi hplaced.head).bind fun array t' ht' => ?_
      subst ht'
      refine (work_computes hplaced.tail.head rfl rfl (.refl _)).mono (Nat.zero_le 1)
        fun v t' ht' => ?_
      rw [ht', afterCall, if_neg (hfits.length hkind), ← hstack]
      rfl
  | @invoke invocation _ owner name code hkind hwaiting hname howner hloads =>
    obtain ⟨hparams, hresult⟩ := hfits.invoke hkind hname howner
    have hlength : (code ++ [Instr.invoke invocation owner name
        (callDescriptor f owner name call)]).length = code.length + 1 := List.length_append
    rw [hlength]
    cases invocation with
    | static =>
      cases hwaits with
      | no hstack =>
        exact staticCall_computes hkind howner hname hparams hresult hloads hregs hplaced hstack
      | yes => cases hwaiting rfl
    | special =>
      exact objectCall_computes (by simp) (.inr hkind) hname hparams hresult hloads hregs hplaced hwaits
    | virtual =>
      exact objectCall_computes (by simp) (.inl hkind) hname hparams hresult hloads hregs hplaced hwaits

/-! ## Values -/

/-- A jump to a label that emission makes leads to the code that follows the place. -/
def JumpsInto (b : MethodBlock) (place n n' : Nat) : Prop :=
  ∀ ⦃l : Label⦄ ⦃first rest : List Instr⦄, MadeLabel n n' l →
    Placed b.code place (first ++ .label l :: rest) → Instr.label l ∉ first →
      b.code.idxOf? (.label l) = some (place + first.length)

theorem jvm_label_step {P : Platform} {l : Label} (hat : b.code[t.pc]? = some (.label l)) :
    jvmMachine P b t = pure (.next (t.next t.stack)) := by
  rw [jvmMachine_at hat]
  rfl

theorem jvm_goto_step {P : Platform} {l : Label} {place : Nat} (hat : b.code[t.pc]? = some (.goto l))
    (hl : b.code.idxOf? (.label l) = some place) :
    jvmMachine P b t = pure (.next { t with pc := place }) := by
  rw [jvmMachine_at hat, jvmInstr, JvmState.jump, hl]

/-- A comparison that is its own jump. -/
theorem ifLess_jumps {P : Platform} {l : Label} {place : Nat} {x y : Int32} {rest : List Value}
    (hat : b.code[t.pc]? = some (.ifLess l)) (hl : b.code.idxOf? (.label l) = some place)
    (hstack : t.stack = .int y :: .int x :: rest) (hless : x < y) :
    jvmMachine P b t = pure (.next { t with pc := place, stack := rest }) := by
  rw [jvmMachine_at hat, jvmInstr, hstack]
  dsimp only
  rw [if_pos hless, JvmState.jump, hl]

theorem ifLess_falls {P : Platform} {l : Label} {x y : Int32} {rest : List Value}
    (hat : b.code[t.pc]? = some (.ifLess l)) (hstack : t.stack = .int y :: .int x :: rest)
    (hless : ¬ x < y) : jvmMachine P b t = pure (.next (t.next rest)) := by
  rw [jvmMachine_at hat, jvmInstr, hstack]
  dsimp only
  rw [if_neg hless]

theorem less_computes {left right : Operand} {i j : Instr} {n : Nat}
    (hi : loadInstr f left = .ok i) (hj : loadInstr f right = .ok j)
    (hregs : Registered f.method vars t.registers) (hplaced : Placed b.code t.pc (lessCode n i j))
    (hlabels : JumpsInto b t.pc n (n + 2)) :
    (jvmMachine (classPlatform f.owner host) b).Computes 1 t
      (irValue (classPlatform f.owner host) vars (.binary .lt left right))
      (Pushed t (lessCode n i j)) := by
  have hload : ∀ {o : Operand} {i : Instr} (l : Label), loadInstr f o = .ok i →
      Instr.label l ≠ i := by
    rintro o i l hi rfl
    exact Bool.false_ne_true (loadInstr_isLoad hi)
  have htrue : b.code.idxOf? (.label (.numbered .compareTrue n)) = some (t.pc + 5) :=
    @hlabels _ [i, j, .ifLess (.numbered .compareTrue n), .push 0,
        .goto (.numbered .compareEnd (n + 1))] _
      ⟨id, _, _, rfl, Nat.le_refl n, by omega⟩ hplaced (by simp [hload _ hi, hload _ hj])
  have hend : b.code.idxOf? (.label (.numbered .compareEnd (n + 1))) = some (t.pc + 7) :=
    @hlabels _ [i, j, .ifLess (.numbered .compareTrue n), .push 0,
        .goto (.numbered .compareEnd (n + 1)), .label (.numbered .compareTrue n), .push 1] _
      ⟨id, _, _, rfl, Nat.le_succ n, by omega⟩ hplaced (by simp [hload _ hi, hload _ hj])
  have hat : ∀ k (hk : k < 8), b.code[t.pc + k]? = (lessCode n i j)[k]? := by
    intro k hk
    obtain ⟨rest, hrest⟩ := hplaced
    rw [← List.getElem?_drop, ← hrest, List.getElem?_append_left hk]
  rw [irValue]
  refine (load_computes hregs hi (hat 0 (by decide))).bind fun x t' ht' => ?_
  subst ht'
  refine ((load_computes (t := t.next (x :: t.stack)) hregs hj (hat 1 (by decide))).mono
    (Nat.zero_le 1) fun _ _ h => h).bind fun y t' ht' => ?_
  subst ht'
  cases x with
  | bool | null | ref => exact .stuck
  | int x =>
    cases y with
    | bool | null | ref => exact .stuck
    | int y =>
      by_cases hless : x < y
      · refine .skip (ifLess_jumps (hat 2 (by decide)) htrue rfl hless) ?_
        refine .skip (jvm_label_step (hat 5 (by decide))) ?_
        refine .skip (t := { t with pc := t.pc + 7, stack := .int 1 :: t.stack }) ?_ ?_
        · rw [jvmMachine_at (hat 6 (by decide))]
          rfl
        · refine .skip (jvm_label_step (hat 7 (by decide))) (.pure ?_)
          simp only [hless, decide_true]
          rfl
      · refine .skip (ifLess_falls (hat 2 (by decide)) rfl hless) ?_
        refine .skip (t := { t with pc := t.pc + 4, stack := .int 0 :: t.stack }) ?_ ?_
        · rw [jvmMachine_at (hat 3 (by decide))]
          rfl
        · refine .skip (jvm_goto_step (hat 4 (by decide)) hend) ?_
          refine .skip (jvm_label_step (hat 7 (by decide))) (.pure ?_)
          simp only [hless, decide_false]
          rfl

theorem fieldOwner_eq {object : Operand} {owner owner' : String}
    (h : ownerOf f object = .ok owner)
    (h' : fieldOwner (classPlatform f.owner host) object = some owner') : owner' = owner := by
  rw [ownerOf] at h
  rw [fieldOwner] at h'
  cases hty : object.ty with
  | object name =>
    rw [hty] at h h'
    cases h
    cases h'
    rfl
  | int | boolean | string | void | array =>
    rw [hty] at h'
    cases h'

/-- The code of a value pushes the value. -/
theorem value_computes {value : Ir.Value} {code : List Instr} {n n' : Nat}
    (hnegation : f.negation = .xorOne) (hfits : ∀ call, value = .call call → CallFits f call)
    (h : ValueCode f n value code n') (hregs : Registered f.method vars t.registers)
    (hplaced : Placed b.code t.pc code) (hlabels : JumpsInto b t.pc n n') :
    (jvmMachine (classPlatform f.owner host) b).Computes 1 t
      (irValue (classPlatform f.owner host) vars value) (Pushed t code) := by
  cases h with
  | operand hi => exact load_computes hregs hi hplaced.head
  | less hi hj => exact less_computes hi hj hregs hplaced hlabels
  | binary hop hi hj =>
    refine (load_computes hregs hi hplaced.head).bind fun x t' ht' => ?_
    subst ht'
    refine ((load_computes (t := t.next (x :: t.stack)) hregs hj hplaced.tail.head).mono
      (Nat.zero_le 1) fun _ _ h => h).bind fun y t' ht' => ?_
    subst ht'
    exact (work_computes hplaced.tail.tail.head rfl rfl (wordOp_refines hop x y)).mono
      (Nat.zero_le 1) fun v t' ht' => ht'
  | not hi =>
    rw [negator, hnegation] at hplaced
    refine (load_computes hregs hi hplaced.head).bind fun v t' ht' => ?_
    subst ht'
    refine .skip (t := (t.next (v :: t.stack)).next (.int 1 :: v :: t.stack)) ?_ ?_
    · rw [jvmMachine_at hplaced.tail.head]
      rfl
    · exact (work_computes hplaced.tail.tail.head rfl rfl (xor_refines v)).mono
        (Nat.zero_le 1) fun v t' ht' => ht'
  | @getField object field owner ty i howner hi =>
    rw [irValue]
    cases hobject : fieldOwner (classPlatform f.owner host) object with
    | none => exact .stuck
    | some owner' =>
      cases fieldOwner_eq howner hobject
      refine (load_computes hregs hi hplaced.head).bind fun o t' ht' => ?_
      subst ht'
      refine (work_computes hplaced.tail.head rfl rfl ?_).mono (Nat.zero_le 1) fun v t' ht' => ht'
      rw [zeroOf_descriptor f.owner host]
      exact expect_refines _
  | @arrayLoad array index ty i j hi hj =>
    refine (load_computes hregs hi hplaced.head).bind fun a t' ht' => ?_
    subst ht'
    refine ((load_computes (t := t.next (a :: t.stack)) hregs hj hplaced.tail.head).mono
      (Nat.zero_le 1) fun _ _ h => h).bind fun i t' ht' => ?_
    subst ht'
    refine (work_computes (e := loadElement a i >>= keep (elementKind (.ofTy ty)))
      hplaced.tail.tail.head rfl ?_ ?_).mono (Nat.zero_le 1) fun v t' ht' => ht'
    · rw [bind_assoc]
      rfl
    · exact (Action.Refines.refl _).bind fun v => expect_refines_keep isKind_element
  | @call call code hcall =>
    refine (callCode_computes (hfits call rfl) hcall hregs hplaced (.no rfl)).bind
      fun v t' ht' => ?_
    by_cases hv : (classPlatform f.owner host).holds call.returnTy v
    · rw [expect_of_holds hv]
      refine .pure ?_
      rw [ht', afterCall, if_neg (not_void_of_holds hv)]
      rfl
    · rw [Platform.expect, if_neg hv]
      exact .stuck

end MiniJava.Semantics
