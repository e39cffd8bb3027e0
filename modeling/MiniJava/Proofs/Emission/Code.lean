import MiniJava.Jvm.Emission
import MiniJava.Proofs.Success

/-!
# The code of an instruction

What emission appends for each instruction of the intermediate code, as a relation between the
instruction and a list. Everything that is proved about emitted code goes by cases on it, and only
this module looks at how the lists are put together.
-/

namespace MiniJava.Jvm

open Ir (Operand Value Call)

/-- The state of emission behind one more instruction that pops and pushes some words. -/
def Emitted.put (s : Emitted) (i : Instr) (pops pushes : Nat) : Emitted :=
  { s with code := s.code.push i, stack := (s.stack.pop pops).push pushes }

/-- The state of emission behind one more instruction that leaves the stack as it is. -/
def Emitted.putPlain (s : Emitted) (i : Instr) : Emitted :=
  { s with code := s.code.push i }

variable {f : Frame} {s s' : Emitted}

/-! ## Steps of emission -/

theorem gives_emit {i : Instr} {pops pushes : Nat} {u : Unit} (h : Gives (emit i pops pushes) s u s') :
    s' = s.put i pops pushes :=
  (Gives.modify_iff.mp h).symm

theorem gives_emitPlain {i : Instr} {u : Unit} (h : Gives (emitPlain i) s u s') :
    s' = s.putPlain i :=
  (Gives.modify_iff.mp h).symm

theorem gives_newLabel {role : LabelRole} {label : Label} (h : Gives (newLabel role) s label s') :
    label = .numbered role s.nextLabel ∧ s' = { s with nextLabel := s.nextLabel + 1 } := by
  cases h
  exact ⟨rfl, rfl⟩

theorem gives_load {o : Operand} {u : Unit} (h : Gives (load f o) s u s') :
    ∃ i, loadInstr f o = .ok i ∧ s' = s.put i 0 1 := by
  obtain ⟨i, hi, h⟩ := h.lift_bind
  exact ⟨i, hi, gives_emit h⟩

theorem gives_store {o : Operand} {u : Unit} (h : Gives (store f o) s u s') :
    ∃ i, storeInstr f o = .ok i ∧ s' = s.put i 1 0 := by
  obtain ⟨i, hi, h⟩ := h.lift_bind
  exact ⟨i, hi, gives_emit h⟩

theorem gives_emit_bind {i : Instr} {pops pushes : Nat} {α : Type} {next : Unit → Emit α} {a : α}
    (h : Gives (emit i pops pushes >>= next) s a s') : Gives (next ()) (s.put i pops pushes) a s' := by
  obtain ⟨_, t, hemit, h⟩ := h.bind
  cases gives_emit hemit
  exact h

theorem gives_load_bind {o : Operand} {α : Type} {next : Unit → Emit α} {a : α}
    (h : Gives (load f o >>= next) s a s') :
    ∃ i, loadInstr f o = .ok i ∧ Gives (next ()) (s.put i 0 1) a s' := by
  obtain ⟨_, t, hload, h⟩ := h.bind
  obtain ⟨i, hi, rfl⟩ := gives_load hload
  exact ⟨i, hi, h⟩

/-! ## What the stack does -/

/-- How many words an instruction takes off the stack. -/
def Instr.pops : Instr → Nat
  | .push _ | .load .. | .new _ | .label _ | .goto _ | .ret none => 0
  | .store .. | .dup | .pop | .newArray _ | .arrayLength | .getField .. | .ifTrue _ => 1
  | .ret (some _) => 1
  | .op _ | .arrayLoad _ | .putField .. | .ifLess _ => 2
  | .arrayStore _ => 3
  | .invoke .static _ _ d => d.params.length
  | .invoke .special _ _ d | .invoke .virtual _ _ d => d.params.length + 1

/-- How many words an instruction puts on the stack. -/
def Instr.pushes : Instr → Nat
  | .push _ | .load .. | .new _ | .op _ | .newArray _ | .arrayLength | .arrayLoad _ => 1
  | .getField .. => 1
  | .dup => 2
  | .store .. | .pop | .arrayStore _ | .putField .. | .label _ | .goto _ | .ifLess _ => 0
  | .ifTrue _ | .ret _ => 0
  | .invoke _ _ _ d => if d.result = .void then 0 else 1

/-- Whether emission follows the depth by the words an instruction pops and pushes. -/
def Instr.isCounted : Instr → Bool
  | .label _ | .goto _ | .ret _ | .dup => false
  | _ => true

/-- The depth of the stack and the greatest depth so far, as emission follows them over an
instruction. At the label behind the word for a failed comparison that word is not there, and
nothing is behind a return. -/
def track (d : Nat × Nat) : Instr → Nat × Nat
  | .label (.numbered .compareTrue _) => (d.1 - 1, d.2)
  | .label _ | .goto _ => d
  | .ret _ => (0, d.2)
  | .dup => (d.1 + 1, max d.2 (d.1 + 1))
  | i => (d.1 - i.pops + i.pushes, max d.2 (d.1 - i.pops + i.pushes))

/-- The depth of the stack and the greatest depth so far. -/
def StackDepth.level (d : StackDepth) : Nat × Nat :=
  (d.depth, d.peak)

/-- One state of emission is behind another one by some code. The depth is followed right as far as
the calls fit their descriptors, so that is said under what makes them fit. -/
structure Extends (fits : Prop) (s : Emitted) (code : List Instr) (s' : Emitted) : Prop where
  appended : s'.code.toList = s.code.toList ++ code
  tracked : fits → s'.stack.level = code.foldl track s.stack.level

variable {fits : Prop}

namespace Extends

variable {code code' : List Instr}

theorem refl (s : Emitted) : Extends fits s [] s :=
  ⟨(List.append_nil _).symm, fun _ => rfl⟩

theorem trans {t : Emitted} (h : Extends fits s code t) (h' : Extends fits t code' s') :
    Extends fits s (code ++ code') s' where
  appended := by rw [h'.appended, h.appended, List.append_assoc]
  tracked hfits := by rw [h'.tracked hfits, h.tracked hfits, List.foldl_append]

theorem put {i : Instr} {pops pushes : Nat}
    (h : fits → track s.stack.level i = ((s.stack.pop pops).push pushes).level) :
    Extends fits s [i] (s.put i pops pushes) where
  appended := Array.toList_push
  tracked hfits := (h hfits).symm

theorem counted {i : Instr} {pops pushes : Nat} (hcounted : i.isCounted) (hpops : i.pops = pops)
    (hpushes : i.pushes = pushes) : Extends fits s [i] (s.put i pops pushes) := by
  subst hpops hpushes
  refine put fun _ => ?_
  cases i <;> first | rfl | cases hcounted

theorem putPlain {i : Instr} (h : fits → track s.stack.level i = s.stack.level) :
    Extends fits s [i] (s.putPlain i) where
  appended := Array.toList_push
  tracked hfits := (h hfits).symm

end Extends

/-! ## Operands -/

/-- The instructions that push operands from left to right. -/
inductive Loads (f : Frame) : List Operand → List Instr → Prop
  | nil : Loads f [] []
  | cons {o : Operand} {i : Instr} {rest : List Operand} {code : List Instr}
    (hi : loadInstr f o = .ok i) (hrest : Loads f rest code) : Loads f (o :: rest) (i :: code)

theorem Extends.load {o : Operand} {i : Instr} (h : loadInstr f o = .ok i) :
    Extends fits s [i] (s.put i 0 1) := by
  cases o with
  | literal value =>
    cases h
    exact .counted rfl rfl rfl
  | receiver className =>
    cases h
    exact .counted rfl rfl rfl
  | classRef name => cases h
  | var name ty | temp id ty =>
    obtain ⟨register, _, h⟩ := except_bind h
    cases h
    exact .counted rfl rfl rfl

theorem Extends.store {o : Operand} {i : Instr} (h : storeInstr f o = .ok i) :
    Extends fits s [i] (s.put i 1 0) := by
  cases o with
  | literal | receiver | classRef => cases h
  | var name ty | temp id ty =>
    obtain ⟨register, _, h⟩ := except_bind h
    cases h
    exact .counted rfl rfl rfl

theorem loadAll_extends : ∀ {operands : List Operand} {s s' : Emitted} {u : Unit},
    Gives (loadAll f operands) s u s' →
      ∃ code, Loads f operands code ∧ Extends fits s code s' ∧ s'.pending = s.pending ∧
        s'.nextLabel = s.nextLabel
  | [], s, s', u, h => by
    obtain ⟨_, rfl⟩ := Gives.pure_iff.mp h
    exact ⟨[], .nil, .refl _, rfl, rfl⟩
  | o :: rest, s, s', u, h => by
    obtain ⟨i, hi, h⟩ := gives_load_bind h
    obtain ⟨code, hcode, hextends, hpending, hlabel⟩ := loadAll_extends h
    exact ⟨i :: code, .cons hi hcode, (Extends.load hi).trans hextends, hpending,
      hlabel⟩

/-! ## Calls -/

/-- The kind of the calls that an invocation is for. -/
def Invocation.callKind : Invocation → Ir.CallKind
  | .special => .invokeSpecial
  | .virtual => .invokeVirtual
  | .static => .invokeStatic

/-- The type of a call tells whether it leaves a result, and its descriptor agrees with its operands
and its result. -/
structure CallFits (f : Frame) (call : Call) : Prop where
  length : call.kind = .arrayLength → ¬ call.returnTy.isVoid
  invoke : ∀ ⦃invocation : Invocation⦄ ⦃owner name : String⦄, call.kind = invocation.callKind →
    call.method = some name → callOwner f invocation call.target = .ok owner →
    (callDescriptor f owner name call).params.length = call.args.length ∧
      ((callDescriptor f owner name call).result = .void ↔ call.returnTy.isVoid)

/-- What a call pushes before the method is invoked. An object that waits is on the stack. -/
def pushedOperands (invocation : Invocation) (waiting : Bool) (call : Call) : List Operand :=
  if invocation = .static ∨ waiting then call.args else call.target :: call.args

/-- The code of a call, the object of which may wait on the stack. -/
inductive CallCode (f : Frame) (call : Call) : Bool → List Instr → Prop
  | newArray {element : Ty} {size : Operand} {i : Instr} (hkind : call.kind = .new)
    (hty : call.returnTy.element? = some element) (hsize : call.args.head? = some size)
    (hi : loadInstr f size = .ok i) :
    CallCode f call false [i, .newArray (f.resolver.descriptor element).component]
  | arrayLength {i : Instr} (hkind : call.kind = .arrayLength)
    (hi : loadInstr f call.target = .ok i) : CallCode f call false [i, .arrayLength]
  | invoke {invocation : Invocation} {waiting : Bool} {owner name : String} {code : List Instr}
    (hkind : call.kind = invocation.callKind) (hwaiting : waiting → invocation = .special)
    (hname : call.method = some name) (howner : callOwner f invocation call.target = .ok owner)
    (hloads : Loads f (pushedOperands invocation waiting call) code) :
    CallCode f call waiting
      (code ++ [.invoke invocation owner name (callDescriptor f owner name call)])

theorem loadReceiver_extends {invocation : Invocation} {target : Operand} {words : Nat}
    (hpending : ∀ o, s.pending = some o → invocation = .special ∧ o = target)
    (h : Gives (loadReceiver f invocation target) s words s') :
    ∃ operands code, Loads f operands code ∧ Extends fits s code s' ∧ s'.pending = none ∧
      s'.nextLabel = s.nextLabel ∧ words = (if invocation = .static then 0 else 1) ∧
      operands = if invocation = .static ∨ s.pending.isSome then [] else [target] := by
  have hload : ∀ {words : Nat} {t : Emitted}, s.pending = none →
      Gives (do
        load f target
        return 1) s words t →
      ∃ i, loadInstr f target = .ok i ∧ words = 1 ∧ t = s.put i 0 1 := by
    intro words t _ h
    obtain ⟨i, hi, h⟩ := gives_load_bind h
    obtain ⟨rfl, rfl⟩ := Gives.pure_iff.mp h
    exact ⟨i, hi, rfl, rfl⟩
  cases invocation with
  | static =>
    obtain ⟨rfl, rfl⟩ := Gives.pure_iff.mp h
    have hnone : s.pending = none := by
      cases hp : s.pending with
      | none => rfl
      | some o => exact absurd (hpending o hp).1 (by decide)
    exact ⟨[], [], .nil, .refl s, hnone, rfl, rfl, rfl⟩
  | virtual =>
    have hnone : s.pending = none := by
      cases hp : s.pending with
      | none => rfl
      | some o => exact absurd (hpending o hp).1 (by decide)
    obtain ⟨i, hi, rfl, rfl⟩ := hload hnone h
    exact ⟨[target], [i], .cons hi .nil, .load hi, hnone, rfl, rfl, by rw [hnone]; rfl⟩
  | special =>
    rw [loadReceiver] at h
    obtain ⟨t, t', hget, h⟩ := h.bind
    obtain ⟨rfl, rfl⟩ := Gives.get_iff.mp hget
    cases hp : s.pending with
    | none =>
      rw [hp, if_neg nofun] at h
      obtain ⟨i, hi, rfl, rfl⟩ := hload hp h
      exact ⟨[target], [i], .cons hi .nil, .load hi, hp, rfl, rfl, rfl⟩
    | some o =>
      obtain ⟨_, rfl⟩ := hpending o hp
      rw [hp, if_pos rfl] at h
      obtain ⟨_, t, hmodify, h⟩ := h.bind
      cases Gives.modify_iff.mp hmodify
      obtain ⟨rfl, rfl⟩ := Gives.pure_iff.mp h
      exact ⟨[], [], .nil, ⟨(List.append_nil _).symm, fun _ => rfl⟩, rfl, rfl, rfl, rfl⟩

theorem Loads.append {operands operands' : List Operand} {code code' : List Instr}
    (h : Loads f operands code) (h' : Loads f operands' code') :
    Loads f (operands ++ operands') (code ++ code') := by
  induction h with
  | nil => exact h'
  | cons hi _ ih => exact .cons hi ih

theorem emitInvoke_code {invocation : Invocation} {call : Call} {u : Unit}
    (hkind : call.kind = invocation.callKind) (hfits : fits → CallFits f call)
    (hpending : ∀ o, s.pending = some o → invocation = .special ∧ o = call.target)
    (h : Gives (emitInvoke f invocation call) s u s') :
    ∃ code, CallCode f call s.pending.isSome code ∧ Extends fits s code s' ∧ s'.pending = none ∧
      s'.nextLabel = s.nextLabel := by
  rw [emitInvoke] at h
  cases hname : call.method with
  | none =>
    rw [hname] at h
    exact absurd h Gives.throw_iff.mp
  | some name =>
    rw [hname] at h
    obtain ⟨owner, howner, h⟩ := h.lift_bind
    obtain ⟨words, t, hreceiver, h⟩ := h.bind
    obtain ⟨_, t', hargs, h⟩ := h.bind
    cases gives_emit h
    obtain ⟨operands, code, hloads, hextends, hnone, hlabel, hwords, hoperands⟩ :=
      loadReceiver_extends hpending hreceiver
    obtain ⟨argCode, hargLoads, hargExtends, hargPending, hargLabel⟩ := loadAll_extends hargs
    have hall := hloads.append hargLoads
    have hpushed : operands ++ call.args = pushedOperands invocation s.pending.isSome call := by
      rw [hoperands, pushedOperands]
      split <;> rfl
    rw [hpushed] at hall
    refine ⟨_, .invoke hkind (fun hw => ?_) hname howner hall,
      (hextends.trans hargExtends).trans (.put fun hf => ?_), hargPending.trans hnone,
      hargLabel.trans hlabel⟩
    · obtain ⟨o, ho⟩ := Option.isSome_iff_exists.mp hw
      exact (hpending o ho).1
    · obtain ⟨hparams, hresult⟩ := (hfits hf).invoke hkind hname howner
      have hpops : (Instr.invoke invocation owner name (callDescriptor f owner name call)).pops =
          call.args.length + words := by
        rw [hwords]
        cases invocation <;> simp [Instr.pops, hparams]
      have hpushes : (Instr.invoke invocation owner name (callDescriptor f owner name call)).pushes =
          if call.returnTy.isVoid then 0 else 1 := by
        rw [Instr.pushes]
        simp only [hresult]
      rw [← hpushes, ← hpops]
      rfl

theorem emitNewArray_code {call : Call} {u : Unit} (hkind : call.kind = .new)
    (h : Gives (emitNewArray f call) s u s') :
    ∃ code, CallCode f call false code ∧ Extends fits s code s' ∧ s'.pending = s.pending ∧
      s'.nextLabel = s.nextLabel := by
  rw [emitNewArray] at h
  cases hty : call.returnTy.element? with
  | none =>
    simp only [hty] at h
    exact absurd h Gives.throw_iff.mp
  | some element =>
    cases hsize : call.args.head? with
    | none =>
      simp only [hty, hsize] at h
      exact absurd h Gives.throw_iff.mp
    | some size =>
      simp only [hty, hsize] at h
      obtain ⟨i, hi, h⟩ := gives_load_bind h
      cases gives_emit h
      exact ⟨_, .newArray hkind hty hsize hi, (Extends.load hi).trans (.counted rfl rfl rfl), rfl, rfl⟩

theorem emitCall_code {call : Call} {u : Unit} (hfits : fits → CallFits f call)
    (hpending : ∀ o, s.pending = some o → call.kind = .invokeSpecial ∧ o = call.target)
    (h : Gives (emitCall f call) s u s') :
    ∃ code, CallCode f call s.pending.isSome code ∧ Extends fits s code s' ∧ s'.pending = none ∧
      s'.nextLabel = s.nextLabel := by
  have hnone : call.kind ≠ .invokeSpecial → s.pending = none := by
    intro hkind
    cases hp : s.pending with
    | none => rfl
    | some o => exact absurd (hpending o hp).1 hkind
  rw [emitCall] at h
  cases hkind : call.kind with
  | new =>
    have hp := hnone (by rw [hkind]; nofun)
    simp only [hkind] at h
    obtain ⟨code, hcode, hextends, hpending', hlabel⟩ := emitNewArray_code hkind h
    rw [hp]
    exact ⟨code, hcode, hextends, hpending'.trans hp, hlabel⟩
  | arrayLength =>
    have hp := hnone (by rw [hkind]; nofun)
    simp only [hkind] at h
    obtain ⟨i, hi, h⟩ := gives_load_bind h
    cases gives_emit h
    rw [hp]
    exact ⟨_, .arrayLength hkind hi, (Extends.load hi).trans (.counted rfl rfl rfl), hp, rfl⟩
  | invokeSpecial =>
    simp only [hkind] at h
    exact emitInvoke_code (show _ = Invocation.callKind .special from hkind) hfits
      (fun o ho => ⟨rfl, (hpending o ho).2⟩) h
  | invokeVirtual =>
    have hp := hnone (by rw [hkind]; nofun)
    simp only [hkind] at h
    exact emitInvoke_code (show _ = Invocation.callKind .virtual from hkind) hfits
      (fun o ho => by rw [hp] at ho; cases ho) h
  | invokeStatic =>
    have hp := hnone (by rw [hkind]; nofun)
    simp only [hkind] at h
    exact emitInvoke_code (show _ = Invocation.callKind .static from hkind) hfits
      (fun o ho => by rw [hp] at ho; cases ho) h

/-! ## Values -/

/-- The code that pushes one if the left operand is less than the right one, else zero. -/
def lessCode (n : Nat) (left right : Instr) : List Instr :=
  [left, right, .ifLess (.numbered .compareTrue n), .push 0, .goto (.numbered .compareEnd (n + 1)),
    .label (.numbered .compareTrue n), .push 1, .label (.numbered .compareEnd (n + 1))]

/-- What a negation is computed with, beside its operand. -/
def negator (f : Frame) (operand : Instr) : Instr :=
  match f.negation with
  | .selfXor => operand
  | .xorOne => .push 1

/-- The code that pushes a value, between two numbers of labels. -/
inductive ValueCode (f : Frame) (n : Nat) : Value → List Instr → Nat → Prop
  | operand {o : Operand} {i : Instr} (hi : loadInstr f o = .ok i) :
    ValueCode f n (.operand o) [i] n
  | less {left right : Operand} {i j : Instr} (hi : loadInstr f left = .ok i)
    (hj : loadInstr f right = .ok j) :
    ValueCode f n (.binary .lt left right) (lessCode n i j) (n + 2)
  | binary {op : Ir.BinOp} {wordOp : WordOp} {left right : Operand} {i j : Instr}
    (hop : WordOp.ofBinOp? op = some wordOp) (hi : loadInstr f left = .ok i)
    (hj : loadInstr f right = .ok j) :
    ValueCode f n (.binary op left right) [i, j, .op wordOp] n
  | not {o : Operand} {i : Instr} (hi : loadInstr f o = .ok i) :
    ValueCode f n (.not o) [i, negator f i, .op .xor] n
  | getField {object : Operand} {field owner : String} {ty : Ty} {i : Instr}
    (howner : ownerOf f object = .ok owner) (hi : loadInstr f object = .ok i) :
    ValueCode f n (.getField object field ty)
      [i, .getField owner field (f.resolver.descriptor ty)] n
  | arrayLoad {array index : Operand} {ty : Ty} {i j : Instr} (hi : loadInstr f array = .ok i)
    (hj : loadInstr f index = .ok j) :
    ValueCode f n (.arrayLoad array index ty) [i, j, .arrayLoad (.ofTy ty)] n
  | call {call : Call} {code : List Instr} (hcall : CallCode f call false code) :
    ValueCode f n (.call call) code n

theorem emitLess_extends {left right : Operand} {u : Unit}
    (h : Gives (emitLess f left right) s u s') :
    ∃ i j, loadInstr f left = .ok i ∧ loadInstr f right = .ok j ∧
      Extends fits s (lessCode s.nextLabel i j) s' ∧ s'.pending = s.pending ∧
      s'.nextLabel = s.nextLabel + 2 := by
  rw [emitLess] at h
  obtain ⟨onTrue, s₁, htrue, h⟩ := h.bind
  obtain ⟨atEnd, s₂, hend, h⟩ := h.bind
  obtain ⟨rfl, rfl⟩ := gives_newLabel htrue
  obtain ⟨rfl, rfl⟩ := gives_newLabel hend
  obtain ⟨i, hi, h⟩ := gives_load_bind h
  obtain ⟨j, hj, h⟩ := gives_load_bind h
  obtain ⟨base, s₃, hget, h⟩ := (gives_emit_bind h).bind
  obtain ⟨rfl, rfl⟩ := Gives.get_iff.mp hget
  obtain ⟨_, s₄, hgoto, h⟩ := (gives_emit_bind h).bind
  cases gives_emitPlain hgoto
  obtain ⟨_, s₅, hlabel, h⟩ := h.bind
  cases gives_emitPlain hlabel
  obtain ⟨_, s₆, hdepth, h⟩ := h.bind
  cases Gives.modify_iff.mp hdepth
  cases gives_emitPlain (gives_emit_bind h)
  refine ⟨i, j, hi, hj, ⟨?_, fun _ => ?_⟩, rfl, rfl⟩
  · simp only [Emitted.put, Emitted.putPlain, Array.toList_push, List.append_assoc, lessCode]
    rfl
  · have hleft : (s.put i 0 1).stack.level = track s.stack.level i :=
      (Extends.load hi).tracked trivial
    have hright : ((s.put i 0 1).put j 0 1).stack.level = track (s.put i 0 1).stack.level j :=
      (Extends.load hj).tracked trivial
    rw [lessCode, List.foldl_cons, ← hleft, List.foldl_cons, ← hright]
    rfl

theorem emitBinary_code {op : Ir.BinOp} {left right : Operand} {u : Unit}
    (h : Gives (emitBinary f op left right) s u s') :
    ∃ code, ValueCode f s.nextLabel (.binary op left right) code s'.nextLabel ∧
      Extends fits s code s' ∧ s'.pending = s.pending := by
  rw [emitBinary] at h
  cases hop : WordOp.ofBinOp? op with
  | none =>
    have hless : op = .lt := by cases op <;> first | rfl | cases hop
    subst hless
    obtain ⟨i, j, hi, hj, hextends, hpending, hlabel⟩ := emitLess_extends h
    rw [hlabel]
    exact ⟨_, .less hi hj, hextends, hpending⟩
  | some o =>
    simp only [hop] at h
    obtain ⟨i, hi, h⟩ := gives_load_bind h
    obtain ⟨j, hj, h⟩ := gives_load_bind h
    cases gives_emit h
    exact ⟨_, .binary hop hi hj,
      ((Extends.load hi).trans (.load hj)).trans (.counted rfl rfl rfl), rfl⟩

theorem emitNot_code {o : Operand} {u : Unit} (h : Gives (emitNot f o) s u s') :
    ∃ code, ValueCode f s.nextLabel (.not o) code s'.nextLabel ∧ Extends fits s code s' ∧
      s'.pending = s.pending := by
  rw [emitNot] at h
  obtain ⟨i, hi, h⟩ := gives_load_bind h
  have hnegator := ValueCode.not (f := f) (n := s.nextLabel) hi
  rw [negator] at hnegator
  cases hneg : f.negation with
  | selfXor =>
    simp only [hneg] at h hnegator
    obtain ⟨j, hj, h⟩ := gives_load_bind h
    cases hi.symm.trans hj
    cases gives_emit h
    exact ⟨_, hnegator, ((Extends.load hi).trans (.load hi)).trans (.counted rfl rfl rfl), rfl⟩
  | xorOne =>
    simp only [hneg] at h hnegator
    cases gives_emit (gives_emit_bind h)
    exact ⟨_, hnegator,
      ((Extends.load hi).trans (.counted rfl rfl rfl)).trans (.counted rfl rfl rfl), rfl⟩

theorem emitValue_code {value : Value} {u : Unit} (hnone : s.pending = none)
    (hfits : fits → ∀ call, value = .call call → CallFits f call)
    (h : Gives (emitValue f value) s u s') :
    ∃ code, ValueCode f s.nextLabel value code s'.nextLabel ∧ Extends fits s code s' ∧
      s'.pending = none := by
  cases value with
  | operand o =>
    obtain ⟨i, hi, rfl⟩ := gives_load h
    exact ⟨_, .operand hi, .load hi, hnone⟩
  | binary op left right =>
    rw [← hnone]
    exact emitBinary_code h
  | not o =>
    rw [← hnone]
    exact emitNot_code h
  | getField object field ty =>
    rw [emitValue, emitGetField] at h
    obtain ⟨owner, howner, h⟩ := h.lift_bind
    obtain ⟨i, hi, h⟩ := gives_load_bind h
    cases gives_emit h
    exact ⟨_, .getField howner hi, (Extends.load hi).trans (.counted rfl rfl rfl), hnone⟩
  | arrayLoad array index ty =>
    rw [emitValue] at h
    obtain ⟨i, hi, h⟩ := gives_load_bind h
    obtain ⟨j, hj, h⟩ := gives_load_bind h
    cases gives_emit h
    exact ⟨_, .arrayLoad hi hj,
      ((Extends.load hi).trans (.load hj)).trans (.counted rfl rfl rfl), hnone⟩
  | call call =>
    rw [emitValue] at h
    obtain ⟨code, hcode, hextends, hpending, hlabel⟩ :=
      emitCall_code (fun hf => hfits hf call rfl) (fun o ho => by rw [hnone] at ho; cases ho) h
    rw [hnone] at hcode
    rw [hlabel]
    exact ⟨code, .call hcode, hextends, hpending⟩

/-! ## Instructions -/

/-- The calls of an instruction. -/
def callsOf : Ir.Instr → List Call
  | .assign _ (.call call) | .call call | .condGoto (.call call) _ => [call]
  | _ => []

/-- The code of an instruction, with the object that waits on the stack before it and behind it, and
between two numbers of labels. -/
inductive InstrCode (f : Frame) (n : Nat) :
    Option Operand → Ir.Instr → List Instr → Option Operand → Nat → Prop
  | newObject {dest : Operand} {call : Call} {name : String} {st : Instr}
    (hnew : call.isObjectNew) (hty : call.returnTy = .object name)
    (hst : storeInstr f dest = .ok st) :
    InstrCode f n none (.assign (.var dest) (.call call))
      [.new (f.resolver.internalName name), .dup, st] (some dest) n
  | assignVar {dest : Operand} {value : Value} {code : List Instr} {n' : Nat} {st : Instr}
    (hnew : ∀ call, value = .call call → ¬ call.isObjectNew) (hty : ¬ value.ty.isVoid)
    (hvalue : ValueCode f n value code n') (hst : storeInstr f dest = .ok st) :
    InstrCode f n none (.assign (.var dest) value) (code ++ [st]) none n'
  | assignElement {array index : Operand} {ty : Ty} {value : Value} {code : List Instr} {n' : Nat}
    {i j : Instr} (hi : loadInstr f array = .ok i) (hj : loadInstr f index = .ok j)
    (hvalue : ValueCode f n value code n') :
    InstrCode f n none (.assign (.element array index ty) value)
      ([i, j] ++ code ++ [.arrayStore (.ofTy ty)]) none n'
  | putField {object value : Operand} {field owner : String} {i j : Instr}
    (howner : ownerOf f object = .ok owner) (hi : loadInstr f object = .ok i)
    (hj : loadInstr f value = .ok j) :
    InstrCode f n none (.putField object field value)
      [i, j, .putField owner field (f.resolver.descriptor (writtenTy f owner field value))] none n
  | call {call : Call} {pending : Option Operand} {code : List Instr} (hnew : ¬ call.isObjectNew)
    (hpending : ∀ o, pending = some o → call.kind = .invokeSpecial ∧ o = call.target)
    (hcall : CallCode f call pending.isSome code) :
    InstrCode f n pending (.call call)
      (code ++ if call.returnTy.isVoid then [] else [.pop]) none n
  | label {l : Label} : InstrCode f n none (.label l) [.label l] none n
  | goto {l : Label} : InstrCode f n none (.goto l) [.goto l] none n
  | condLess {left right : Operand} {l : Label} {i j : Instr} (hi : loadInstr f left = .ok i)
    (hj : loadInstr f right = .ok j) :
    InstrCode f n none (.condGoto (.binary .lt left right) l) [i, j, .ifLess l] none n
  | condValue {value : Value} {l : Label} {code : List Instr} {n' : Nat}
    (hless : ∀ left right, value ≠ .binary .lt left right) (hvalue : ValueCode f n value code n') :
    InstrCode f n none (.condGoto value l) (code ++ [.ifTrue l]) none n'
  | ret {o : Operand} {i : Instr} (hi : loadInstr f o = .ok i) :
    InstrCode f n none (.ret (some o)) [i, .ret (returnKind f.method.returnTy)] none n
  | retNone : InstrCode f n none (.ret none) [.ret none] none n

/-- A label that the intermediate code may define: none that emission makes. -/
def PlainLabel : Label → Prop
  | .numbered .compareTrue _ | .numbered .compareEnd _ => False
  | _ => True

theorem track_label {l : Label} (h : PlainLabel l) (d : Nat × Nat) : track d (.label l) = d := by
  cases l with
  | named name => rfl
  | numbered role n => cases role <;> first | rfl | exact h.elim

/-- How many words an object that waits takes up on the stack. -/
def waitingWords (pending : Option Operand) : Nat :=
  if pending.isSome then 1 else 0

theorem emitNewObject_code {dest : Operand} {call : Call} {u : Unit} (hnew : call.isObjectNew)
    (h : Gives (emitNewObject f dest call) s u s') :
    ∃ code, InstrCode f s.nextLabel none (.assign (.var dest) (.call call)) code s'.pending
      s'.nextLabel ∧ Extends fits s code s' := by
  rw [emitNewObject] at h
  cases hty : call.returnTy with
  | object name =>
    simp only [hty] at h
    have hdup := gives_emit_bind h
    obtain ⟨_, t, hstore, h⟩ := (gives_emit_bind hdup).bind
    obtain ⟨st, hst, rfl⟩ := gives_store hstore
    cases Gives.modify_iff.mp h
    refine ⟨_, .newObject hnew hty hst, ?_⟩
    have hextends : Extends fits s [.new (f.resolver.internalName name), .dup, st]
        (((s.put (.new (f.resolver.internalName name)) 0 1).put .dup 0 1).put st 1 0) :=
      ((Extends.counted rfl rfl rfl).trans (.put fun _ => rfl)).trans (.store hst)
    exact ⟨hextends.appended, hextends.tracked⟩
  | int | boolean | string | void | array =>
    simp only [hty] at h
    exact absurd h Gives.throw_iff.mp

theorem emitAssignVar_code {dest : Operand} {value : Value} {u : Unit} (hnone : s.pending = none)
    (hfits : fits → ∀ call, value = .call call → CallFits f call)
    (hnew : ∀ call, value = .call call → ¬ call.isObjectNew)
    (h : Gives (emitAssignVar f dest value) s u s') :
    ∃ code, InstrCode f s.nextLabel none (.assign (.var dest) value) code none s'.nextLabel ∧
      Extends fits s code s' ∧ s'.pending = none := by
  rw [emitAssignVar] at h
  by_cases hvoid : value.ty.isVoid
  · rw [if_pos hvoid] at h
    exact absurd h Gives.throw_iff.mp
  · rw [if_neg hvoid] at h
    obtain ⟨_, t, hvalue, h⟩ := h.bind
    obtain ⟨st, hst, rfl⟩ := gives_store h
    obtain ⟨code, hcode, hextends, hnone'⟩ := emitValue_code hnone hfits hvalue
    exact ⟨_, .assignVar hnew hvoid hcode hst, hextends.trans (.store hst), hnone'⟩

theorem emitAssignElement_code {array index : Operand} {ty : Ty} {value : Value} {u : Unit}
    (hnone : s.pending = none) (hfits : fits → ∀ call, value = .call call → CallFits f call)
    (h : Gives (emitBody f (.assign (.element array index ty) value)) s u s') :
    ∃ code, InstrCode f s.nextLabel none (.assign (.element array index ty) value) code none
      s'.nextLabel ∧ Extends fits s code s' ∧ s'.pending = none := by
  rw [emitBody] at h
  obtain ⟨i, hi, h⟩ := gives_load_bind h
  obtain ⟨j, hj, h⟩ := gives_load_bind h
  obtain ⟨_, t, hvalue, h⟩ := h.bind
  cases gives_emit h
  have hloaded : ((s.put i 0 1).put j 0 1).pending = none := hnone
  obtain ⟨code, hcode, hextends, hnone'⟩ := emitValue_code hloaded hfits hvalue
  exact ⟨_, .assignElement hi hj hcode, (((Extends.load hi).trans (.load hj)).trans hextends).trans
    (.counted rfl rfl rfl), hnone'⟩

theorem emitPutField_code {object value : Operand} {field : String} {u : Unit}
    (h : Gives (emitPutField f object field value) s u s') :
    ∃ code, InstrCode f s.nextLabel none (.putField object field value) code none s'.nextLabel ∧
      Extends fits s code s' ∧ s'.pending = s.pending := by
  rw [emitPutField] at h
  obtain ⟨owner, howner, h⟩ := h.lift_bind
  obtain ⟨i, hi, h⟩ := gives_load_bind h
  obtain ⟨j, hj, h⟩ := gives_load_bind h
  cases gives_emit h
  exact ⟨_, .putField howner hi hj,
    ((Extends.load hi).trans (.load hj)).trans (.counted rfl rfl rfl), rfl⟩

theorem emitCallStatement_code {call : Call} {u : Unit} (hfits : fits → CallFits f call)
    (hpending : ∀ o, s.pending = some o → call.kind = .invokeSpecial ∧ o = call.target)
    (h : Gives (emitCallStatement f call) s u s') :
    ∃ code, InstrCode f s.nextLabel s.pending (.call call) code none s'.nextLabel ∧
      Extends fits s code s' ∧ s'.pending = none := by
  rw [emitCallStatement] at h
  by_cases hnew : call.isObjectNew
  · rw [if_pos hnew] at h
    exact absurd h Gives.throw_iff.mp
  · rw [if_neg hnew] at h
    obtain ⟨_, t, hcall, h⟩ := h.bind
    obtain ⟨code, hcode, hextends, hnone, hnext⟩ := emitCall_code hfits hpending hcall
    have hwhole := InstrCode.call (n := s.nextLabel) hnew hpending hcode
    rw [← hnext] at hwhole ⊢
    by_cases hvoid : call.returnTy.isVoid
    · simp only [hvoid, Bool.not_true, Bool.false_eq_true, if_false] at h
      obtain ⟨_, rfl⟩ := Gives.pure_iff.mp h
      rw [if_pos hvoid, List.append_nil] at hwhole
      exact ⟨_, hwhole, hextends, hnone⟩
    · rw [if_pos (by simp [hvoid])] at h
      cases gives_emit h
      rw [if_neg hvoid] at hwhole
      exact ⟨_, hwhole, hextends.trans (.counted rfl rfl rfl), hnone⟩

theorem emitCondGoto_code {condition : Value} {l : Label} {u : Unit} (hnone : s.pending = none)
    (hfits : fits → ∀ call, condition = .call call → CallFits f call)
    (h : Gives (emitCondGoto f condition l) s u s') :
    ∃ code, InstrCode f s.nextLabel none (.condGoto condition l) code none s'.nextLabel ∧
      Extends fits s code s' ∧ s'.pending = none := by
  by_cases hless : ∃ left right, condition = .binary .lt left right
  · obtain ⟨left, right, rfl⟩ := hless
    rw [emitCondGoto] at h
    obtain ⟨i, hi, h⟩ := gives_load_bind h
    obtain ⟨j, hj, h⟩ := gives_load_bind h
    cases gives_emit h
    exact ⟨_, .condLess hi hj,
      ((Extends.load hi).trans (.load hj)).trans (.counted rfl rfl rfl), hnone⟩
  · have hother : ∀ left right, condition ≠ .binary .lt left right :=
      fun left right hcond => hless ⟨left, right, hcond⟩
    rw [emitCondGoto] at h
    · obtain ⟨_, t, hvalue, h⟩ := h.bind
      cases gives_emit h
      obtain ⟨code, hcode, hextends, hnone'⟩ := emitValue_code hnone hfits hvalue
      exact ⟨_, .condValue hother hcode, hextends.trans (.counted rfl rfl rfl), hnone'⟩
    · exact hother

theorem emitRet_code {value : Option Operand} {u : Unit} (hdepth : fits → s.stack.depth = 0)
    (h : Gives (emitBody f (.ret value)) s u s') :
    ∃ code, InstrCode f s.nextLabel none (.ret value) code none s'.nextLabel ∧
      Extends fits s code s' ∧ s'.pending = s.pending := by
  cases value with
  | none =>
    cases gives_emitPlain h
    exact ⟨_, .retNone, .putPlain fun hf => Prod.ext (hdepth hf).symm rfl, rfl⟩
  | some o =>
    rw [emitBody] at h
    obtain ⟨i, hi, h⟩ := gives_load_bind h
    cases gives_emit h
    refine ⟨_, .ret hi, (Extends.load hi).trans (.put fun hf => Prod.ext ?_ ?_), rfl⟩
    · show 0 = s.stack.depth - 0 + 1 - 1 + 0
      rw [hdepth hf]
    · show max s.stack.peak (s.stack.depth + 1) =
        max (max s.stack.peak (s.stack.depth + 1)) (s.stack.depth + 1 - 1)
      omega

/-- The code of an instruction, one lemma for each form. Only a constructor call finds an object that
waits on the stack. -/
theorem emitBody_code {i : Ir.Instr} {u : Unit} (hfits : fits → ∀ call ∈ callsOf i, CallFits f call)
    (hdepth : fits → s.stack.depth = waitingWords s.pending)
    (hlabel : fits → ∀ l, i = .label l → PlainLabel l)
    (hpending : ∀ o, s.pending = some o → isConstructorOf o i) (h : Gives (emitBody f i) s u s') :
    ∃ code, InstrCode f s.nextLabel s.pending i code s'.pending s'.nextLabel ∧
      Extends fits s code s' := by
  have hnone : (∀ call, i ≠ .call call) → s.pending = none := by
    intro hcall
    cases hp : s.pending with
    | none => rfl
    | some o =>
      have hconstructor := hpending o hp
      cases i with
      | call call => exact absurd rfl (hcall call)
      | assign | putField | label | goto | condGoto | ret => cases hconstructor
  have hidle : s.pending = none → (∃ code, InstrCode f s.nextLabel none i code none s'.nextLabel ∧
      Extends fits s code s' ∧ s'.pending = none) →
      ∃ code, InstrCode f s.nextLabel s.pending i code s'.pending s'.nextLabel ∧
        Extends fits s code s' := by
    rintro hp ⟨code, hcode, hextends, hp'⟩
    rw [hp, hp']
    exact ⟨code, hcode, hextends⟩
  cases i with
  | assign place value =>
    have hp := hnone (by simp)
    have hvalueFits : fits → ∀ call, value = .call call → CallFits f call := by
      rintro hf call rfl
      exact hfits hf call List.mem_cons_self
    cases place with
    | element array index ty => exact hidle hp (emitAssignElement_code hp hvalueFits h)
    | var dest =>
      by_cases hnew : ∃ call, value = .call call ∧ call.isObjectNew
      · obtain ⟨call, rfl, hnew⟩ := hnew
        rw [emitBody, if_pos hnew] at h
        rw [hp]
        exact emitNewObject_code hnew h
      · have hbody : emitBody f (.assign (.var dest) value) = emitAssignVar f dest value := by
          cases value with
          | call call => rw [emitBody, if_neg fun hcall => hnew ⟨call, rfl, hcall⟩]
          | _ => rw [emitBody]; simp
        rw [hbody] at h
        exact hidle hp (emitAssignVar_code hp hvalueFits (fun call hcall hn => hnew ⟨call, hcall, hn⟩) h)
  | putField object field value =>
    have hp := hnone (by simp)
    exact hidle hp (hp ▸ emitPutField_code h)
  | call call =>
    have hconstructor : ∀ o, s.pending = some o → call.kind = .invokeSpecial ∧ o = call.target := by
      intro o ho
      have hof := hpending o ho
      rw [isConstructorOf, Bool.and_eq_true, beq_iff_eq, beq_iff_eq] at hof
      exact ⟨hof.1, hof.2.symm⟩
    obtain ⟨code, hcode, hextends, hp'⟩ :=
      emitCallStatement_code (fun hf => hfits hf call List.mem_cons_self) hconstructor h
    rw [hp']
    exact ⟨code, hcode, hextends⟩
  | label l =>
    have hp := hnone (by simp)
    cases gives_emitPlain h
    exact hidle hp ⟨_, .label, .putPlain fun hf => track_label (hlabel hf l rfl) _, hp⟩
  | goto l =>
    have hp := hnone (by simp)
    cases gives_emitPlain h
    exact hidle hp ⟨_, .goto, .putPlain fun _ => rfl, hp⟩
  | condGoto condition l =>
    have hp := hnone (by simp)
    have hvalueFits : fits → ∀ call, condition = .call call → CallFits f call := by
      rintro hf call rfl
      exact hfits hf call List.mem_cons_self
    exact hidle hp (emitCondGoto_code hp hvalueFits h)
  | ret value =>
    have hp := hnone (by simp)
    have hempty : fits → s.stack.depth = 0 := fun hf => by rw [hdepth hf, hp]; rfl
    exact hidle hp (hp ▸ emitRet_code hempty h)

end MiniJava.Jvm
