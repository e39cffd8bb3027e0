import MiniJava.Proofs.Emission.Code

/-!
# The depth of the stack

Code is balanced between two depths if it never takes more words off the stack than there are, and
if the stack is empty wherever the code jumps, returns or can be jumped to. The code of every
instruction is balanced: it leaves on the stack what it found there, but for an object that waits
for its constructor call.
-/

namespace MiniJava.Jvm

open Ir (Operand Value Call)

variable {f : Frame}

/-! ## Balanced code -/

/-- Whether the next instruction is always the one behind. -/
def Instr.isStraight : Instr → Bool
  | .label _ | .goto _ | .ifLess _ | .ifTrue _ | .ret _ => false
  | _ => true

/-- The label that an instruction may jump to. -/
def Instr.jumpTarget? : Instr → Option Label
  | .goto l | .ifLess l | .ifTrue l => some l
  | _ => none

/-- The push of an operand. -/
def Instr.isLoad : Instr → Bool
  | .push _ | .load .. => true
  | _ => false

/-- Code that leads from one depth of the stack to another one. -/
inductive Balanced : Nat → List Instr → Nat → Prop
  | nil {d : Nat} : Balanced d [] d
  | straight {d e : Nat} {i : Instr} {rest : List Instr} (hi : i.isStraight) (hpops : i.pops ≤ d)
    (hrest : Balanced (d - i.pops + i.pushes) rest e) : Balanced d (i :: rest) e
  | label {e : Nat} {l : Label} {rest : List Instr} (hl : PlainLabel l)
    (hrest : Balanced 0 rest e) : Balanced 0 (.label l :: rest) e
  | jump {d e : Nat} {i : Instr} {l : Label} {rest : List Instr} (hi : i.jumpTarget? = some l)
    (hl : PlainLabel l) (hpops : i.pops = d) (hrest : Balanced 0 rest e) : Balanced d (i :: rest) e
  | ret {d e : Nat} {kind : Option Kind} {rest : List Instr} (hpops : (Instr.ret kind).pops ≤ d)
    (hrest : Balanced 0 rest e) : Balanced d (.ret kind :: rest) e
  | less {e n : Nat} {i j : Instr} {rest : List Instr} (hi : i.isLoad) (hj : j.isLoad)
    (hrest : Balanced 1 rest e) : Balanced 0 (lessCode n i j ++ rest) e

namespace Balanced

variable {d e e' : Nat} {code code' : List Instr}

theorem append (h : Balanced d code e) (h' : Balanced e code' e') :
    Balanced d (code ++ code') e' := by
  induction h with
  | nil => exact h'
  | straight hi hpops _ ih => exact .straight hi hpops (ih h')
  | label hl _ ih => exact .label hl (ih h')
  | jump hi hl hpops _ ih => exact .jump hi hl hpops (ih h')
  | ret hpops _ ih => exact .ret hpops (ih h')
  | less hi hj _ ih => exact .less hi hj (ih h')

theorem single {i : Instr} (hi : i.isStraight) (hpops : i.pops ≤ d)
    (he : d - i.pops + i.pushes = e) : Balanced d [i] e :=
  .straight hi hpops (he ▸ .nil)

theorem load {i : Instr} (h : i.isLoad) : Balanced d [i] (d + 1) := by
  cases i with
  | push | load => exact .single rfl (Nat.zero_le d) rfl
  | _ => cases h

end Balanced

/-! ## What emission follows -/

theorem track_straight {i : Instr} (hi : i.isStraight) {d : Nat × Nat} (hpops : i.pops ≤ d.1) :
    track d i = (d.1 - i.pops + i.pushes, max d.2 (d.1 - i.pops + i.pushes)) := by
  cases i with
  | label | goto | ifLess | ifTrue | ret => cases hi
  | dup =>
    have hd : d.1 + 1 = d.1 - 1 + 2 := by
      have : 1 ≤ d.1 := hpops
      omega
    show (d.1 + 1, max d.2 (d.1 + 1)) = (d.1 - 1 + 2, max d.2 (d.1 - 1 + 2))
    rw [hd]
  | _ => rfl

theorem track_jump {i : Instr} {l : Label} (hi : i.jumpTarget? = some l) (p : Nat) :
    track (i.pops, p) i = (0, p) := by
  cases i with
  | goto => rfl
  | ifLess | ifTrue => exact Prod.ext rfl (Nat.max_eq_left (Nat.zero_le p))
  | _ => cases hi

theorem track_load {i : Instr} (hi : i.isLoad) (d : Nat × Nat) :
    track d i = (d.1 + 1, max d.2 (d.1 + 1)) := by
  cases i with
  | push | load => rfl
  | _ => cases hi

theorem track_less {i j : Instr} (hi : i.isLoad) (hj : j.isLoad) (n p : Nat) :
    (lessCode n i j).foldl track (0, p) = (1, max p 2) := by
  rw [lessCode, List.foldl_cons, track_load hi, List.foldl_cons, track_load hj]
  refine Prod.ext rfl ?_
  show max (max (max (max (max p 1) 2) 0) 1) 1 = max p 2
  omega

theorem Balanced.depth {d e : Nat} {code : List Instr} (h : Balanced d code e) :
    ∀ p, (code.foldl track (d, p)).1 = e := by
  induction h with
  | nil => exact fun p => rfl
  | straight hi hpops _ ih =>
    intro p
    rw [List.foldl_cons, track_straight hi hpops]
    exact ih _
  | label hl _ ih =>
    intro p
    rw [List.foldl_cons, track_label hl]
    exact ih p
  | jump hi _ hpops _ ih =>
    intro p
    rw [List.foldl_cons, ← hpops, track_jump hi]
    exact ih p
  | ret _ _ ih => exact fun p => ih p
  | less hi hj _ ih =>
    intro p
    rw [List.foldl_append, track_less hi hj]
    exact ih _

/-! ## Instructions -/

theorem loadInstr_isLoad {o : Operand} {i : Instr} (h : loadInstr f o = .ok i) : i.isLoad := by
  cases o with
  | literal | receiver =>
    cases h
    rfl
  | classRef name => cases h
  | var name ty | temp id ty =>
    obtain ⟨register, _, h⟩ := except_bind h
    cases h
    rfl

theorem storeInstr_balanced {o : Operand} {i : Instr} (h : storeInstr f o = .ok i) (d : Nat) :
    Balanced (d + 1) [i] d := by
  cases o with
  | literal | receiver | classRef => cases h
  | var name ty | temp id ty =>
    obtain ⟨register, _, h⟩ := except_bind h
    cases h
    exact .single rfl (Nat.le_add_left 1 d) rfl

theorem loadInstr_balanced {o : Operand} {i : Instr} (h : loadInstr f o = .ok i) {d : Nat} :
    Balanced d [i] (d + 1) :=
  .load (loadInstr_isLoad h)

theorem Loads.balanced {operands : List Operand} {code : List Instr} (h : Loads f operands code) :
    ∀ d, Balanced d code (d + operands.length) := by
  induction h with
  | nil => exact fun d => .nil
  | cons hi _ ih =>
    intro d
    have hrest := (loadInstr_balanced hi).append (ih (d + 1))
    rwa [Nat.add_right_comm] at hrest

/-- How many words a call leaves on the stack. -/
def resultWords (call : Call) : Nat :=
  if call.returnTy.isVoid then 0 else 1

theorem CallCode.balanced {call : Call} {waiting : Bool} {code : List Instr}
    (hfits : CallFits f call) (h : CallCode f call waiting code) (d : Nat) :
    Balanced (d + if waiting then 1 else 0) code (d + resultWords call) := by
  cases h with
  | newArray hkind hty hsize hi =>
    have hvoid : ¬ call.returnTy.isVoid := by
      cases hr : call.returnTy with
      | array element => exact Bool.false_ne_true
      | _ =>
        rw [hr] at hty
        cases hty
    rw [resultWords, if_neg hvoid]
    exact (loadInstr_balanced hi).append (.single rfl (Nat.le_add_left 1 d) rfl)
  | arrayLength hkind hi =>
    rw [resultWords, if_neg (hfits.length hkind)]
    exact (loadInstr_balanced hi).append (.single rfl (Nat.le_add_left 1 d) rfl)
  | @invoke invocation waiting owner name code hkind hwaiting hname howner hloads =>
    obtain ⟨hparams, hresult⟩ := hfits.invoke hkind hname howner
    have hpushed : (d + if waiting then 1 else 0) + (pushedOperands invocation waiting call).length =
        d + (Instr.invoke invocation owner name (callDescriptor f owner name call)).pops := by
      cases waiting with
      | true =>
        cases hwaiting rfl
        simp only [pushedOperands, Instr.pops, hparams, if_true, or_true]
        omega
      | false => cases invocation <;> simp [pushedOperands, Instr.pops, hparams]
    refine (hloads.balanced _).append ?_
    rw [hpushed]
    refine .single rfl (Nat.le_add_left _ d) ?_
    rw [Nat.add_sub_cancel, Instr.pushes, resultWords]
    simp only [hresult]

theorem ValueCode.balanced {n n' : Nat} {value : Value} {code : List Instr}
    (hfits : ∀ call, value = .call call → CallFits f call ∧ ¬ call.returnTy.isVoid)
    (h : ValueCode f n value code n') : Balanced 0 code 1 := by
  cases h with
  | operand hi => exact loadInstr_balanced hi
  | less hi hj =>
    have hless := Balanced.less (n := n) (loadInstr_isLoad hi) (loadInstr_isLoad hj) .nil
    rwa [List.append_nil] at hless
  | binary hop hi hj =>
    exact (loadInstr_balanced hi).append ((loadInstr_balanced hj).append
      (.single rfl (Nat.le_refl 2) rfl))
  | @not o i hi =>
    have hnegator : (negator f i).isLoad := by
      rw [negator]
      cases f.negation with
      | selfXor => exact loadInstr_isLoad hi
      | xorOne => rfl
    exact (loadInstr_balanced hi).append ((Balanced.load hnegator).append
      (.single rfl (Nat.le_refl 2) rfl))
  | getField howner hi =>
    exact (loadInstr_balanced hi).append (.single rfl (Nat.le_refl 1) rfl)
  | arrayLoad hi hj =>
    exact (loadInstr_balanced hi).append ((loadInstr_balanced hj).append
      (.single rfl (Nat.le_refl 2) rfl))
  | @call call code hcall =>
    obtain ⟨hfit, hvoid⟩ := hfits call rfl
    have hbalanced := hcall.balanced hfit 0
    rwa [resultWords, if_neg hvoid] at hbalanced

/-- What is asked of an instruction for its code to be balanced: its calls fit their descriptors, it
uses no label that emission makes, an element is given the value of an operand, and no branch is
decided by a call. -/
structure Sound (f : Frame) (i : Ir.Instr) : Prop where
  calls : ∀ call ∈ callsOf i, CallFits f call
  defined : ∀ l, i.definedLabel? = some l → PlainLabel l
  target : ∀ l, i.jumpTarget? = some l → PlainLabel l
  element : ∀ array index ty value, i = .assign (.element array index ty) value →
    ∃ o, value = .operand o
  branch : ∀ call l, i ≠ .condGoto (.call call) l

/-- The code of an instruction leads from the object that waits before it to the one that waits
behind it. -/
theorem InstrCode.balanced {n n' : Nat} {pending pending' : Option Operand} {i : Ir.Instr}
    {code : List Instr} (hi : Sound f i) (h : InstrCode f n pending i code pending' n') :
    Balanced (waitingWords pending) code (waitingWords pending') := by
  cases h with
  | newObject hnew hty hst =>
    exact (Balanced.single (e := 1) rfl (Nat.zero_le 0) rfl).append
      ((Balanced.single (e := 2) rfl (Nat.le_refl 1) rfl).append (storeInstr_balanced hst 1))
  | assignVar hnew hty hvalue hst =>
    refine (hvalue.balanced ?_).append (storeInstr_balanced hst 0)
    rintro call rfl
    exact ⟨hi.calls call List.mem_cons_self, hty⟩
  | @assignElement array index ty value code n' i j hai haj hvalue =>
    obtain ⟨o, rfl⟩ := hi.element array index ty value rfl
    cases hvalue with
    | operand ho =>
      exact ((loadInstr_balanced hai).append (loadInstr_balanced haj)).append
        ((loadInstr_balanced ho)) |>.append (.single rfl (Nat.le_refl 3) rfl)
  | putField howner hai haj =>
    exact (loadInstr_balanced hai).append ((loadInstr_balanced haj).append
      (.single rfl (Nat.le_refl 2) rfl))
  | @call call pending code hnew hpending hcall =>
    have hbalanced := hcall.balanced (hi.calls call List.mem_cons_self) 0
    rw [Nat.zero_add, Nat.zero_add] at hbalanced
    refine hbalanced.append ?_
    rw [resultWords]
    by_cases hvoid : call.returnTy.isVoid
    · rw [if_pos hvoid, if_pos hvoid]
      exact .nil
    · rw [if_neg hvoid, if_neg hvoid]
      exact .single rfl (Nat.le_refl 1) rfl
  | label => exact .label (hi.defined _ rfl) .nil
  | goto => exact .jump rfl (hi.target _ rfl) rfl .nil
  | condLess hai haj =>
    exact (loadInstr_balanced hai).append ((loadInstr_balanced haj).append
      (.jump rfl (hi.target _ rfl) rfl .nil))
  | condValue hless hvalue =>
    refine (hvalue.balanced ?_).append (.jump rfl (hi.target _ rfl) rfl .nil)
    rintro call rfl
    exact absurd rfl (hi.branch call _)
  | @ret o i hai =>
    refine (loadInstr_balanced hai).append (.ret ?_ .nil)
    cases returnKind f.method.returnTy with
    | none => exact Nat.zero_le 1
    | some kind => exact Nat.le_refl 1
  | retNone => exact .ret (Nat.le_refl 0) .nil

end MiniJava.Jvm
