import MiniJava.Proofs.Emission.OwnCalls

/-!
# Instructions that name members

A call instruction and the two field instructions name a member by its class and its name. Each one
in emitted code is printed for an instruction of the intermediate code that calls a method, or reads
or writes a field, and the class that it names is that of the operand it works on.
-/

namespace MiniJava.Jvm

open Ir (Operand Value Call)

/-- The value that an instruction computes, if it does. -/
def valueOf? : Ir.Instr → Option Value
  | .assign _ value | .condGoto value _ => some value
  | .putField .. | .call _ | .label _ | .goto _ | .ret _ => none

/-- An instruction that names a member is printed for one of the intermediate code. -/
inductive PrintsMember (f : Frame) (i : Ir.Instr) : Instr → Prop
  | call {call : Call} {j : Instr} (hcall : call ∈ callsOf i) (h : Prints f call j) :
    PrintsMember f i j
  | read {object : Operand} {field owner : String} {ty : Ty} {d : Descriptor}
    (hvalue : valueOf? i = some (.getField object field ty)) (howner : ownerOf f object = .ok owner) :
    PrintsMember f i (.getField owner field d)
  | write {object value : Operand} {field owner : String} {d : Descriptor}
    (hi : i = .putField object field value) (howner : ownerOf f object = .ok owner) :
    PrintsMember f i (.putField owner field d)

variable {f : Frame} {code : List Instr} {n n' : Nat} {j : Instr}

theorem callsOf_valueOf {i : Ir.Instr} {value : Value} (h : valueOf? i = some value) :
    callsOf i = valueCalls value := by
  cases i with
  | assign place value' =>
    cases h
    exact callsOf_assign place value
  | condGoto value' l =>
    cases h
    exact callsOf_condGoto value l
  | putField | call | label | goto | ret => cases h

/-- Whether an instruction calls a method or a constructor, or reads or writes a field. -/
def usesMember : Ir.Instr → Bool
  | .assign _ (.getField ..) | .condGoto (.getField ..) _ | .putField .. => true
  | i => (callsOf i).any fun call => call.kind != .new && call.kind != .arrayLength

theorem PrintsMember.uses {i : Ir.Instr} (h : PrintsMember f i j) : usesMember i := by
  cases h with
  | @call call _ hcall h =>
    obtain ⟨invocation, _, _, hkind, _⟩ := h
    have hinvokes : (callsOf i).any fun call => call.kind != .new && call.kind != .arrayLength :=
      List.any_eq_true.mpr ⟨call, hcall, by rw [hkind]; cases invocation <;> rfl⟩
    rw [usesMember.eq_def]
    split
    · rfl
    · rfl
    · rfl
    · exact hinvokes
  | read hvalue _ =>
    cases i with
    | assign place value =>
      cases hvalue
      rfl
    | condGoto value l =>
      cases hvalue
      rfl
    | putField | call | label | goto | ret => cases hvalue
  | write hi _ =>
    cases hi
    rfl

theorem PrintsMember.prints {i : Ir.Instr} {call : Call} (hcalls : callsOf i = [call])
    (h : PrintsMember f i j) : Prints f call j := by
  cases h with
  | call hcall h =>
    rw [hcalls] at hcall
    cases List.mem_singleton.mp hcall
    exact h
  | read hvalue _ =>
    rw [callsOf_valueOf hvalue] at hcalls
    cases hcalls
  | write hi _ =>
    cases hi
    cases hcalls

/-! ## Calls, values and instructions -/

theorem CallCode.members {call : Call} {waiting : Bool} (h : CallCode f call waiting code) :
    ∀ j ∈ code.filter Instr.namesMember, Prints f call j := by
  cases h with
  | newArray _ _ _ hi | arrayLength _ hi =>
    rw [filter_load (fun _ h => h) hi]
    exact List.forall_mem_nil _
  | @invoke invocation _ owner name _ hkind _ hname howner hloads =>
    rw [hloads.filter (fun _ h => h)]
    exact List.forall_mem_singleton.mpr ⟨invocation, owner, name, hkind, hname, howner, rfl⟩

theorem ValueCode.members {i : Ir.Instr} {value : Value} (hvalue : valueOf? i = some value)
    (h : ValueCode f n value code n') :
    ∀ j ∈ code.filter Instr.namesMember, PrintsMember f i j := by
  cases h with
  | operand hi =>
    rw [filter_load (fun _ h => h) hi]
    exact List.forall_mem_nil _
  | less hi hj =>
    rw [lessCode, filter_load (fun _ h => h) hi, filter_load (fun _ h => h) hj]
    exact List.forall_mem_nil _
  | binary _ hi hj | arrayLoad hi hj =>
    rw [filter_load (fun _ h => h) hi, filter_load (fun _ h => h) hj]
    exact List.forall_mem_nil _
  | not hi =>
    rw [filter_load (fun _ h => h) hi, negator]
    cases f.negation with
    | selfXor =>
      rw [filter_load (fun _ h => h) hi]
      exact List.forall_mem_nil _
    | xorOne => exact List.forall_mem_nil _
  | getField howner hi =>
    rw [filter_load (fun _ h => h) hi]
    exact List.forall_mem_singleton.mpr (.read hvalue howner)
  | @call call _ hcall =>
    have hmem : call ∈ callsOf i := by
      rw [callsOf_valueOf hvalue]
      exact List.mem_singleton_self call
    exact fun j hj => .call hmem (hcall.members j hj)

theorem InstrCode.members {pending pending' : Option Operand} {i : Ir.Instr}
    (h : InstrCode f n pending i code pending' n') :
    ∀ j ∈ code.filter Instr.namesMember, PrintsMember f i j := by
  cases h with
  | @newObject dest call name st _ _ hst =>
    have hquiet : [Instr.new (f.resolver.internalName name), .dup, st].filter Instr.namesMember =
        [st].filter Instr.namesMember := rfl
    rw [hquiet, filter_store (fun _ h => h) hst]
    exact List.forall_mem_nil _
  | assignVar _ _ hvalue hst =>
    rw [List.filter_append, filter_store (fun _ h => h) hst, List.append_nil]
    exact hvalue.members rfl
  | assignElement hi hj hvalue =>
    rw [List.filter_append, List.filter_append, filter_load (fun _ h => h) hi,
      filter_load (fun _ h => h) hj]
    exact (List.append_nil _).symm ▸ hvalue.members rfl
  | putField howner hi hj =>
    rw [filter_load (fun _ h => h) hi, filter_load (fun _ h => h) hj]
    exact List.forall_mem_singleton.mpr (.write rfl howner)
  | @call call _ _ _ _ hcall =>
    have hpop : (if call.returnTy.isVoid then [] else [Instr.pop]).filter Instr.namesMember = [] := by
      split <;> rfl
    rw [List.filter_append, hpop, List.append_nil]
    exact fun j hj => .call (List.mem_singleton_self call) (hcall.members j hj)
  | label | goto | retNone => exact List.forall_mem_nil _
  | condLess hi hj =>
    rw [filter_load (fun _ h => h) hi, filter_load (fun _ h => h) hj]
    exact List.forall_mem_nil _
  | condValue _ hvalue =>
    rw [List.filter_append]
    exact (List.append_nil _).symm ▸ hvalue.members rfl
  | ret hi =>
    rw [filter_load (fun _ h => h) hi]
    exact List.forall_mem_nil _

/-- What names a member in the code of a method is printed for one of its instructions. -/
theorem Layout.members {pending : Option Operand} {instrs : List Ir.Instr} {last : Nat}
    (h : Layout f n pending instrs code last) :
    ∀ j ∈ code.filter Instr.namesMember, ∃ i ∈ instrs, PrintsMember f i j := by
  induction h with
  | nil =>
    split <;> exact List.forall_mem_nil _
  | @cons _ _ _ pending _ i rest code more hcode _ ih =>
    have hsettle : (settleCode pending i).filter Instr.namesMember = [] := by
      rw [settleCode]
      split <;> rfl
    rw [List.filter_append, List.filter_append, hsettle, List.nil_append]
    intro j hj
    rcases List.mem_append.mp hj with hj | hj
    · exact ⟨i, List.mem_cons_self, hcode.members j hj⟩
    · obtain ⟨i', hi', hprints⟩ := ih j hj
      exact ⟨i', List.mem_cons_of_mem i hi', hprints⟩

end MiniJava.Jvm
