import MiniJava.Proofs.Emission.Labels
import MiniJava.Proofs.Lowering.Registers

/-!
# What registers hold

A load is for the kind of the value in its register. In the intermediate code an operand is read only
where it has a value, on every path, and a temporary always has one type. This carries over: a
register belongs to one operand, so it holds a value of the kind of that operand wherever the operand
has a value, and emitted code loads it for that kind.
-/

namespace MiniJava

namespace Jvm

open Ir (Operand Value Call)
open Semantics (countAssigned ReadsAssigned)

/-! ## Registers along a path -/

/-- The kinds of what the registers hold, as far as they hold anything. -/
abbrev Holdings := Nat → Option Kind

/-- What the registers hold behind an instruction. -/
def Instr.keep (i : Instr) (held : Holdings) : Holdings :=
  match i with
  | .store kind register => Function.update held register (some kind)
  | _ => held

/-- An instruction loads only what its register holds. -/
def Instr.LoadsHeld (i : Instr) (held : Holdings) : Prop :=
  ∀ kind register, i = .load kind register → held register = some kind

/-! ## Operands that have values -/

/-- The operands of a method: a variable has one type and a register of its own, and the receiver has
the first register. -/
structure Operands (f : Frame) (known : Operand → Prop) : Prop where
  sequential : f.method.vars.Sequential
  unique : ∀ o o', known o → known o' → o.key?.isSome → o.key? = o'.key? → o.ty = o'.ty
  receiver : ∀ name, known (.receiver name) → f.method.register? (.receiver name) = some 0

/-- The registers of all operands that have values hold what is of their kinds. The temporaries that
have values are given, and all other operands have one. -/
def Holds (f : Frame) (known : Operand → Prop) (assigned : List Nat) (held : Holdings) : Prop :=
  ∀ o, known o → (∀ id ty, o = .temp id ty → id ∈ assigned) →
    ∀ register, f.method.register? o = some register → held register = some (.ofTy o.ty)

variable {f : Frame} {known : Operand → Prop} {assigned : List Nat} {held : Holdings}

theorem registerOf_eq_ok {o : Operand} {register : Nat} (h : registerOf f o = .ok register) :
    f.method.register? o = some register := by
  rw [registerOf] at h
  cases hregister : f.method.register? o with
  | none =>
    rw [hregister] at h
    cases h
  | some r =>
    rw [hregister] at h
    cases h
    rfl

theorem Holds.load (h : Holds f known assigned held) (hf : Operands f known) {o : Operand}
    (ho : known o) (hassigned : ∀ id ty, o = .temp id ty → id ∈ assigned) {i : Instr}
    (hi : loadInstr f o = .ok i) : i.LoadsHeld held := by
  intro kind register heq
  subst heq
  cases o with
  | literal | classRef => cases hi
  | receiver name =>
    cases hi
    exact h _ ho hassigned 0 (hf.receiver name ho)
  | var name ty | temp id ty =>
    obtain ⟨r, hr, hi⟩ := except_bind hi
    cases hi
    exact h _ ho hassigned _ (registerOf_eq_ok hr)

theorem Holds.store (h : Holds f known assigned held) (hf : Operands f known) {dest : Operand}
    (hdest : known dest) {value : Value} {st : Instr} (hst : storeInstr f dest = .ok st) :
    Holds f known (countAssigned (.assignVar dest value) assigned) (st.keep held) := by
  obtain ⟨register, hregister, rfl⟩ :
      ∃ register, f.method.register? dest = some register ∧ st = .store (.ofTy dest.ty) register := by
    cases dest with
    | literal | receiver | classRef => cases hst
    | var name ty | temp id ty =>
      obtain ⟨r, hr, hst⟩ := except_bind hst
      cases hst
      exact ⟨r, registerOf_eq_ok hr, rfl⟩
  intro o ho hassigned r hr
  obtain ⟨key, hkey, hplace⟩ := Option.bind_eq_some_iff.mp hregister
  obtain ⟨key', hkey', hplace'⟩ := Option.bind_eq_some_iff.mp hr
  rw [Instr.keep]
  by_cases hsame : r = register
  · subst hsame
    have hkeys : o.key? = dest.key? := by
      rw [hkey, hkey', hf.sequential.register_inj hplace' hplace]
    rw [Function.update_self, hf.unique o dest ho hdest (by rw [hkey']; rfl) hkeys]
  · rw [Function.update_of_ne hsame]
    refine h o ho (fun id ty heq => ?_) r hr
    subst heq
    rcases List.mem_append.mp (hassigned id ty rfl) with hmem | hmem
    · -- the temporary is the one that is stored into
      refine absurd ?_ hsame
      cases dest with
      | temp id' ty' =>
        have hid : id = id' := List.mem_singleton.mp hmem
        cases hkey
        cases hkey'
        rw [hid, hplace] at hplace'
        exact (Option.some.inj hplace').symm
      | literal | var | receiver | classRef => cases hmem
    · exact hmem

/-! ## Assertions on registers -/

/-- What holds of the temporaries that have values, said of the registers. -/
def Lifted (f : Frame) (known : Operand → Prop) (P : List Nat → Prop) (held : Holdings) : Prop :=
  ∃ assigned, P assigned ∧ Holds f known assigned held

variable {marks : Label → (Holdings → Prop) → Prop} {A : Holdings → Prop} {code : List Instr}

/-- An operand can be loaded wherever an assertion holds. -/
def Loadable (f : Frame) (A : Holdings → Prop) (o : Operand) : Prop :=
  ∀ i held, loadInstr f o = .ok i → A held → i.LoadsHeld held

/-- Code that changes nothing in the registers. -/
abbrev Calm (marks : Label → (Holdings → Prop) → Prop) (A : Holdings → Prop) (code : List Instr) :
    Prop :=
  Verified Instr.keep Instr.LoadsHeld marks A code A

theorem calm_nil : Calm marks A [] :=
  .nil fun _ h => h

/-- Whether an instruction names a register. -/
def Instr.usesRegister : Instr → Bool
  | .load .. | .store .. => true
  | _ => false

theorem loadsHeld_of_other {i : Instr} (hi : i.usesRegister = false) (held : Holdings) :
    i.LoadsHeld held := by
  intro kind register heq
  subst heq
  cases hi

theorem calm_stack {i : Instr} (hi : i.isStraight) (hregister : i.usesRegister = false) :
    Calm marks A [i] := by
  cases i with
  | label | goto | ifLess | ifTrue | ret => cases hi
  | load | store => cases hregister
  | _ => exact .straight rfl rfl (fun held _ => loadsHeld_of_other rfl held) fun _ _ h => h

theorem calm_load {o : Operand} (ho : Loadable f A o) {i : Instr} (h : loadInstr f o = .ok i) :
    Calm marks A [i] := by
  have hload := loadInstr_isLoad h
  cases i with
  | push | load => exact .straight rfl rfl (fun held => ho _ held h) fun _ _ h => h
  | _ => cases hload

theorem Loads.calm {operands : List Operand} (h : Loads f operands code)
    (ho : ∀ o ∈ operands, Loadable f A o) : Calm marks A code := by
  induction h with
  | nil => exact calm_nil
  | cons hi _ ih =>
    rw [List.forall_mem_cons] at ho
    exact Verified.append (calm_load ho.1 hi) (ih ho.2)

theorem CallCode.calm {call : Call} {waiting : Bool} (h : CallCode f call waiting code)
    (ho : ∀ o ∈ call.operands, Loadable f A o) : Calm marks A code := by
  rw [Call.operands, List.forall_mem_cons] at ho
  cases h with
  | newArray hkind hty hsize hi =>
    exact Verified.append (calm_load (ho.2 _ (List.mem_of_head? hsize)) hi)
      (calm_stack rfl rfl)
  | arrayLength hkind hi => exact Verified.append (calm_load ho.1 hi) (calm_stack rfl rfl)
  | invoke hkind hwaiting hname howner hloads =>
    refine Verified.append (hloads.calm fun o hmem => ?_) (calm_stack rfl rfl)
    rw [pushedOperands] at hmem
    split at hmem
    · exact ho.2 o hmem
    · exact List.forall_mem_cons.mpr ho o hmem

/-- The code of a value changes nothing in the registers. Its own labels are marked with what holds in
front of it. -/
theorem ValueCode.calm {n n' : Nat} {value : Value} (h : ValueCode f n value code n')
    (ho : ∀ o ∈ value.operands, Loadable f A o) :
    ∃ made, Makes n made n' ∧ Calm (fun l B => l ∈ made ∧ B = A) A code := by
  have hpair : ∀ {marks} {left right : Operand} {i j : Instr}, Loadable f A left →
      Loadable f A right → loadInstr f left = .ok i → loadInstr f right = .ok j →
      Calm marks A [i, j] :=
    fun hl hr hi hj => Verified.append (calm_load hl hi) (calm_load hr hj)
  cases h with
  | operand hi => exact ⟨[], .nothing, calm_load (ho _ List.mem_cons_self) hi⟩
  | @less left right i j hi hj =>
    refine ⟨_, .less, ?_⟩
    have hloads : Calm (fun l B =>
        l ∈ [Label.numbered .compareTrue n, .numbered .compareEnd (n + 1)] ∧ B = A) A [i, j] :=
      hpair (ho left (by simp [Value.operands])) (ho right (by simp [Value.operands])) hi hj
    have hquiet : ∀ {i : Instr}, i.usesRegister = false → ∀ held, A held → i.LoadsHeld held :=
      fun hi held _ => loadsHeld_of_other hi held
    refine Verified.append hloads (.append (.jump rfl rfl ⟨by simp, rfl⟩ (hquiet rfl) (fun _ h => h)
      fun _ _ h => h) (.append (calm_stack rfl rfl) (.append (.jump (Q := A) rfl rfl ⟨by simp, rfl⟩
        (hquiet rfl) (fun _ h => h) (by simp [Control.falls])) (.append (.label rfl rfl ⟨by simp, rfl⟩
          (hquiet rfl) (fun _ h => h) fun _ h => h) (.append (calm_stack rfl rfl) (.label rfl rfl
            ⟨by simp, rfl⟩ (hquiet rfl) (fun _ h => h) fun _ h => h))))))
  | @binary op wordOp left right i j hop hi hj =>
    exact ⟨[], .nothing, Verified.append (hpair (ho left (by simp [Value.operands]))
      (ho right (by simp [Value.operands])) hi hj) (calm_stack rfl rfl)⟩
  | @not o i hi =>
    have hoperand := ho o List.mem_cons_self
    have hnegator : Calm (fun l B => l ∈ [] ∧ B = A) A [negator f i] := by
      rw [negator]
      cases f.negation with
      | selfXor => exact calm_load hoperand hi
      | xorOne => exact calm_stack rfl rfl
    exact ⟨[], .nothing, Verified.append (calm_load hoperand hi)
      (Verified.append hnegator (calm_stack rfl rfl))⟩
  | getField howner hi =>
    exact ⟨[], .nothing, Verified.append (calm_load (ho _ List.mem_cons_self) hi)
      (calm_stack rfl rfl)⟩
  | @arrayLoad array index ty i j hi hj =>
    exact ⟨[], .nothing, Verified.append (hpair (ho array (by simp [Value.operands]))
      (ho index (by simp [Value.operands])) hi hj) (calm_stack rfl rfl)⟩
  | call hcall => exact ⟨[], .nothing, hcall.calm ho⟩

/-! ## Instructions -/

/-- The assertions on registers that go with labels: what holds at the labels of the intermediate code,
and one assertion for the labels that emission makes for an instruction. -/
def LiftedMarks (f : Frame) (known : Operand → Prop) (marks : Label → (List Nat → Prop) → Prop)
    (made : Label → (Holdings → Prop) → Prop) (l : Label) (B : Holdings → Prop) : Prop :=
  (∃ P, marks l P ∧ B = Lifted f known P) ∨ made l B

section Lifting

variable {marked : Label → (List Nat → Prop) → Prop} {P Q : List Nat → Prop}

theorem Lifted.mono {held : Holdings} (h : ∀ assigned, P assigned → Q assigned)
    (hP : Lifted f known P held) : Lifted f known Q held := by
  obtain ⟨assigned, hassigned, hholds⟩ := hP
  exact ⟨assigned, h assigned hassigned, hholds⟩

theorem loadable (hf : Operands f known) {i : Ir.Instr} (hknown : ∀ o ∈ i.usedOperands, known o)
    (hreads : ∀ assigned, P assigned → ReadsAssigned i assigned) :
    ∀ o ∈ i.usedOperands, Loadable f (Lifted f known P) o := by
  rintro o ho j held hj ⟨assigned, hassigned, hholds⟩
  refine hholds.load hf (hknown o ho) (fun id ty heq => ?_) hj
  subst heq
  exact hreads assigned hassigned id ty ho

theorem store_verified (hf : Operands f known) {marks : Label → (Holdings → Prop) → Prop}
    {dest : Operand} (hdest : known dest) {value : Value} {st : Instr}
    (hst : storeInstr f dest = .ok st)
    (hfalls : ∀ assigned, P assigned → Q (countAssigned (.assignVar dest value) assigned)) :
    Verified Instr.keep Instr.LoadsHeld marks (Lifted f known P) [st] (Lifted f known Q) := by
  have hstraight := storeInstr_straight hst
  have hload : ∀ held, st.LoadsHeld held := by
    intro held kind register heq
    subst heq
    cases dest with
    | literal | receiver | classRef => cases hst
    | var name ty | temp id ty =>
      obtain ⟨r, _, hst⟩ := except_bind hst
      cases hst
  have hstep : ∀ held, Lifted f known P held → Lifted f known Q (st.keep held) := by
    rintro held ⟨assigned, hassigned, hholds⟩
    exact ⟨_, hfalls assigned hassigned, hholds.store hf hdest hst⟩
  cases st with
  | label | goto | ifLess | ifTrue | ret => cases hstraight
  | _ => exact .straight rfl rfl (fun held _ => hload held) fun _ => hstep

theorem Calm.lifted {made : List Label} (h : Calm (fun l B => l ∈ made ∧ B = Lifted f known P)
    (Lifted f known P) code) (hstep : ∀ assigned, P assigned → Q assigned) :
    Verified Instr.keep Instr.LoadsHeld
      (LiftedMarks f known marked fun l B => l ∈ made ∧ B = Lifted f known P)
      (Lifted f known P) code (Lifted f known Q) :=
  (Verified.mono h fun _ _ => .inr).post fun _ => Lifted.mono hstep

theorem branch_verified {made : Label → (Holdings → Prop) → Prop} {i : Ir.Instr} {l : Label}
    {j : Instr} (hvar : i.definedVar? = none)
    (hjump : ∃ R, marked l R ∧ ∀ assigned, P assigned → R (countAssigned i assigned))
    (hfalls : Control.falls i → ∀ assigned, P assigned → Q (countAssigned i assigned))
    (hjumps : j.jumpTarget? = some l) (hfall : Control.falls j → Control.falls i) :
    Verified Instr.keep Instr.LoadsHeld (LiftedMarks f known marked made) (Lifted f known P) [j]
      (Lifted f known Q) := by
  have hcount : ∀ assigned, countAssigned i assigned = assigned := by
    intro assigned
    rw [countAssigned, Ir.Instr.definedTemp?, hvar]
    rfl
  obtain ⟨R, hR, hstep⟩ := hjump
  simp only [hcount] at hstep hfalls
  cases j with
  | goto | ifLess | ifTrue =>
    exact .jump rfl hjumps (.inl ⟨R, hR, rfl⟩) (fun held _ => loadsHeld_of_other rfl held)
      (fun held hP => hP.mono hstep) fun hj held hP => hP.mono (hfalls (hfall hj))
  | _ => cases hjumps

/-- The code of an instruction takes what holds in front of the instruction to what holds behind
it. -/
theorem InstrCode.verified (hf : Operands f known) {n n' : Nat} {pending pending' : Option Operand}
    {i : Ir.Instr} (h : InstrCode f n pending i code pending' n')
    (hknown : ∀ o ∈ i.usedOperands, known o)
    (hdest : ∀ dest value, i = .assign (.var dest) value → known dest)
    (hreads : ∀ assigned, P assigned → ReadsAssigned i assigned)
    (hmark : ∀ l, Control.marks? i = some l → marked l P)
    (hjump : ∀ l, Control.jumps? i = some l →
      ∃ R, marked l R ∧ ∀ assigned, P assigned → R (countAssigned i assigned))
    (hfalls : Control.falls i → ∀ assigned, P assigned → Q (countAssigned i assigned)) :
    ∃ made, Makes n made n' ∧ Verified Instr.keep Instr.LoadsHeld
      (LiftedMarks f known marked fun l B => l ∈ made ∧ B = Lifted f known P)
      (Lifted f known P) code (Lifted f known Q) := by
  have hload := loadable hf hknown hreads
  have hsame : ∀ assigned, P assigned → P assigned := fun _ h => h
  cases h with
  | @newObject dest call name st hnew hty hst =>
    have hcopies : Calm (fun l B => l ∈ [] ∧ B = Lifted f known P) (Lifted f known P)
        [.new (f.resolver.internalName name), .dup] :=
      Verified.append (calm_stack rfl rfl) (calm_stack rfl rfl)
    exact ⟨[], .nothing, (hcopies.lifted hsame).append
      (store_verified hf (hdest _ _ rfl) hst (hfalls rfl))⟩
  | assignVar hnew hty hvalue hst =>
    obtain ⟨made, hmade, hcode⟩ := hvalue.calm hload
    exact ⟨made, hmade, (hcode.lifted hsame).append
      (store_verified hf (hdest _ _ rfl) hst (hfalls rfl))⟩
  | @assignElement array index ty value _ _ _ _ hai haj hvalue =>
    simp only [Ir.Instr.usedOperands, List.forall_mem_append, List.forall_mem_cons] at hload
    obtain ⟨made, hmade, hcode⟩ := hvalue.calm hload.1
    have hloads : Calm (fun l B => l ∈ made ∧ B = Lifted f known P) (Lifted f known P) [_, _] :=
      Verified.append (calm_load hload.2.1 hai) (calm_load hload.2.2.1 haj)
    exact ⟨made, hmade, Calm.lifted (Verified.append (Verified.append hloads hcode)
      (calm_stack rfl rfl)) (hfalls rfl)⟩
  | putField howner hai haj =>
    simp only [Ir.Instr.usedOperands, List.forall_mem_cons] at hload
    exact ⟨[], .nothing, Calm.lifted (Verified.append (calm_load hload.1 hai)
      (Verified.append (calm_load hload.2.1 haj) (calm_stack rfl rfl))) (hfalls rfl)⟩
  | @call call pending code hnew hpending hcall =>
    refine ⟨[], .nothing, Calm.lifted (Verified.append (hcall.calm hload) ?_) (hfalls rfl)⟩
    split
    · exact calm_nil
    · exact calm_stack rfl rfl
  | @label l =>
    exact ⟨[], .nothing, .label rfl rfl (.inl ⟨P, hmark l rfl, rfl⟩)
      (fun held _ => loadsHeld_of_other rfl held) (fun _ h => h) fun held hP => hP.mono (hfalls rfl)⟩
  | @goto l =>
    exact ⟨[], .nothing, branch_verified rfl (hjump l rfl) hfalls rfl (by simp [Control.falls])⟩
  | @condLess left right l i j hai haj =>
    have hloads : Calm (fun l B => l ∈ [] ∧ B = Lifted f known P) (Lifted f known P) [i, j] :=
      Verified.append (calm_load (hload left (by simp [Ir.Instr.usedOperands, Value.operands])) hai)
        (calm_load (hload right (by simp [Ir.Instr.usedOperands, Value.operands])) haj)
    exact ⟨[], .nothing, (hloads.lifted hsame).append
      (branch_verified rfl (hjump l rfl) hfalls rfl fun _ => rfl)⟩
  | @condValue value l _ _ hless hvalue =>
    obtain ⟨made, hmade, hcode⟩ := hvalue.calm hload
    exact ⟨made, hmade, (hcode.lifted hsame).append
      (branch_verified rfl (hjump l rfl) hfalls rfl fun _ => rfl)⟩
  | ret hai =>
    have hpush : Calm (fun l B => l ∈ [] ∧ B = Lifted f known P) (Lifted f known P) [_] :=
      calm_load (hload _ List.mem_cons_self) hai
    exact ⟨[], .nothing, (hpush.lifted hsame).append
      (.straight rfl rfl (fun held _ => loadsHeld_of_other rfl held) (by simp [Control.falls]))⟩
  | retNone =>
    exact ⟨[], .nothing, .straight rfl rfl (fun held _ => loadsHeld_of_other rfl held)
      (by simp [Control.falls])⟩

/-! ## Methods -/

theorem settleCode_calm (pending : Option Operand) (i : Ir.Instr) :
    Calm marks A (settleCode pending i) := by
  rw [settleCode]
  split
  · exact calm_nil
  · exact calm_stack rfl rfl

theorem Layout.verified (hf : Operands f known) {n last : Nat} {pending : Option Operand}
    {instrs : List Ir.Instr} (h : Layout f n pending instrs code last)
    (hknown : ∀ i ∈ instrs, ∀ o ∈ i.usedOperands, known o)
    (hdest : ∀ i ∈ instrs, ∀ dest value, i = .assign (.var dest) value → known dest)
    (hverified : Verified countAssigned ReadsAssigned marked P instrs Q) :
    ∃ assertions : List (Label × (Holdings → Prop)), (assertions.map (·.1)).Nodup ∧
      (∀ l ∈ assertions.map (·.1), MadeLabel n last l) ∧ n ≤ last ∧
      Verified Instr.keep Instr.LoadsHeld (LiftedMarks f known marked (InList assertions))
        (Lifted f known P) code (Lifted f known Q) := by
  induction hverified generalizing n pending code with
  | @nil P Q hstep =>
    cases h
    refine ⟨[], List.nodup_nil, by simp, Nat.le_refl _, ?_⟩
    have hdrop : Calm (LiftedMarks f known marked (InList [])) (Lifted f known P)
        (if pending.isSome then [.pop] else []) := by
      split
      · exact calm_stack rfl rfl
      · exact calm_nil
    exact hdrop.post fun _ => Lifted.mono hstep
  | @cons P P' Q R i rest hpre hpermits hmark hjump hfalls _ ih =>
    cases h with
    | @cons _ n' _ _ pending' _ _ code more hcode hrest =>
      rw [List.forall_mem_cons] at hknown hdest
      obtain ⟨made, hmakes, hfirst⟩ := hcode.verified hf hknown.1 hdest.1 hpermits hmark hjump hfalls
      obtain ⟨assertions, hnodup, hmade, hle, hmore⟩ := ih hrest hknown.2 hdest.2
      obtain ⟨hdistinct, hle', hnew⟩ := hmakes.made
      have hlabels : (made.map fun l => (l, Lifted f known P')).map (·.1) = made := by
        rw [List.map_map]
        exact List.map_id made
      refine ⟨made.map (fun l => (l, Lifted f known P')) ++ assertions, ?_, ?_, Nat.le_trans hle' hle,
        ?_⟩
      · rw [List.map_append, hlabels]
        exact List.nodup_append.mpr ⟨hdistinct, hnodup, fun l hl l' hl' =>
          (hnew l hl).ne (hmade l' hl') (Nat.le_refl n')⟩
      · rw [List.map_append, hlabels]
        exact List.forall_mem_append.mpr ⟨fun l hl => (hnew l hl).mono (Nat.le_refl n) hle,
          fun l hl => (hmade l hl).mono hle' (Nat.le_refl last)⟩
      · let marks := LiftedMarks f known marked
          (InList (made.map (fun l => (l, Lifted f known P')) ++ assertions))
        have hcalm : Calm marks (Lifted f known P') (settleCode pending i) :=
          settleCode_calm pending i
        have hsettle := hcalm.pre fun held => Lifted.mono hpre
        refine (hsettle.append (hfirst.mono fun l B => ?_)).append (hmore.mono fun l B => ?_)
        · rintro (hB | ⟨hl, rfl⟩)
          · exact .inl hB
          · exact .inr (List.mem_append_left _ (List.mem_map_of_mem hl))
        · exact Or.imp_right fun hB => List.mem_append_right _ hB

/-- On every path registers are loaded for the kinds of what they hold, if the labels of the
intermediate code are distinct and emission makes none of them. -/
theorem Layout.loads_held (hf : Operands f known) {n last : Nat} {instrs : List Ir.Instr}
    (h : Layout f n none instrs code last)
    (hknown : ∀ i ∈ instrs, ∀ o ∈ i.usedOperands, known o)
    (hdest : ∀ i ∈ instrs, ∀ dest value, i = .assign (.var dest) value → known dest)
    {assertions : List (Label × (List Nat → Prop))} (hdistinct : (assertions.map (·.1)).Nodup)
    (hplain : ∀ l ∈ assertions.map (·.1), PlainLabel l)
    (hverified : Verified countAssigned ReadsAssigned (InList assertions) P instrs Q)
    {start held : Holdings} (hstart : Lifted f known P start) {place : Nat} {i : Instr}
    (hpath : Path Instr.keep (FromStart start) code place held) (hi : code[place]? = some i) :
    i.LoadsHeld held := by
  obtain ⟨made, hnodup, hmade, _, hcode⟩ := h.verified hf hknown hdest hverified
  refine hcode.permits_of_path ?_ hstart hpath hi
  have hapart : ∀ {l A B}, InList assertions l A → ¬ InList made l B := fun hA hB =>
    (hmade _ (List.mem_map_of_mem hB)).1 (hplain _ (List.mem_map_of_mem hA))
  rintro l A B (⟨P, hP, rfl⟩ | hA) (⟨Q, hQ, rfl⟩ | hB)
  · rw [InList.unique hdistinct l P Q hP hQ]
  · exact absurd hB (hapart hP)
  · exact absurd hA (hapart hQ)
  · exact InList.unique hnodup l A B hA hB

end Lifting

end Jvm

namespace Semantics

open Ir (Operand)
open Jvm (Frame Holdings Holds Kind MethodEmitted Operands frameOf)
open Lowering

/-! ## Lowered methods -/

/-- The kinds of the receiver, the parameters and the locals of a method. -/
def declaredKinds (s : Signature) : List Kind :=
  (if s.isStatic then [] else [.reference]) ++ s.params.map (fun p => .ofTy p.ty)
    ++ s.locals.map fun var => .ofTy var.ty

/-- What the registers hold when a method is entered. The locals are taken as initialised. -/
def entryHoldings (s : Signature) : Holdings :=
  fun register => (declaredKinds s)[register]?

theorem declaredRegisters_kinds (className : String) (d : Method) :
    (declaredRegisters className d).map (fun entry => Kind.ofTy entry.2) =
      declaredKinds (.ofMethod d) := by
  rw [declaredRegisters, firstRegisters, declaredKinds, List.map_append, List.map_append,
    List.map_map, List.map_map, Signature.ofMethod]
  cases d.isStatic <;> rfl

variable {symbols : SymbolTable} {d : Method} {k k' : Counters} {ir : Ir.Method} {options : Options}
  {c : Ir.Class}

theorem meaning_declared {name : String} {ty : Ty}
    (h : (anyContext symbols d).meaning name = .var ty) :
    (Ir.VarKey.named name, ty) ∈ declaredRegisters symbols.className d := by
  have hlocal : ∀ var, (Signature.ofMethod d).local? name = some var →
      (Ir.VarKey.named name, var.ty) ∈ declaredRegisters symbols.className d := by
    intro var hvar
    have hname : var.name = name := by simpa using List.find?_some hvar
    rw [← hname]
    exact List.mem_append_right _ (List.mem_map.mpr ⟨var, List.mem_of_find?_eq_some hvar, rfl⟩)
  have hparam : ∀ p, (Signature.ofMethod d).param? name = some p →
      (Ir.VarKey.named name, p.ty) ∈ declaredRegisters symbols.className d := by
    intro p hp
    have hname : p.name = name := by simpa using List.find?_some hp
    rw [← hname]
    exact List.mem_append_left _ (List.mem_append_right _
      (List.mem_map.mpr ⟨p, List.mem_of_find?_eq_some hp, rfl⟩))
  rw [Context.meaning] at h
  split at h
  · rename_i var hvar
    cases h
    exact hlocal var hvar
  · rename_i p _ hp
    cases h
    exact hparam p hp
  · cases h
  · split at h <;> cases h

theorem entry_holds (hnames : (d.params.map (·.name) ++ d.locals.map (·.name)).Nodup)
    (hir : Gives (lowerMethod symbols d) k ir k') (defs : List (Nat × Ty)) :
    Holds (frameOf options c ir) (Held (anyContext symbols d) defs) []
      (entryHoldings (.ofMethod d)) := by
  have hvars := lowerMethod_declared hnames hir
  -- what is declared has the register of its place
  have hplace : ∀ {key : Ir.VarKey} {ty : Ty} {register : Nat},
      (key, ty) ∈ declaredRegisters symbols.className d → ir.vars.register? key = some register →
        entryHoldings (.ofMethod d) register = some (.ofTy ty) := by
    intro key ty register hmem hregister
    obtain ⟨place, hentry⟩ := List.getElem?_of_mem hmem
    have hslot := (lowerMethod_reachable hir).wellKept.sequential.slot?_of_front hvars hentry
    rw [Ir.VarTable.register?_eq_some.mpr ⟨ty, hslot⟩] at hregister
    cases hregister
    rw [entryHoldings, ← declaredRegisters_kinds symbols.className, List.getElem?_map, hentry]
    rfl
  intro o ho hassigned register hregister
  cases o with
  | literal | classRef => cases hregister
  | var name ty => exact hplace (meaning_declared ho) hregister
  | receiver name =>
    obtain ⟨rfl, hstatic⟩ := ho
    have hmem : (Ir.VarKey.receiver, Ty.object symbols.className) ∈
        declaredRegisters symbols.className d := by
      have hinstance : d.isStatic = false := hstatic
      rw [declaredRegisters, firstRegisters, hinstance]
      exact List.mem_append_left _ List.mem_cons_self
    exact hplace hmem hregister
  | temp id ty => cases hassigned id ty rfl

theorem lowered_operands {code : List Ir.Instr}
    (hnames : (d.params.map (·.name) ++ d.locals.map (·.name)).Nodup)
    (hir : Gives (lowerMethod symbols d) k ir k')
    (htypes : ∀ x ∈ defsOf code, ∀ y ∈ defsOf code, x.1 = y.1 → x.2 = y.2) :
    Operands (frameOf options c ir) (Held (anyContext symbols d) (defsOf code)) where
  sequential := (lowerMethod_reachable hir).wellKept.sequential
  unique o o' ho ho' hkey heq := by
    cases o with
    | literal | classRef => cases hkey
    | var name ty =>
      cases o' with
      | var name' ty' =>
        cases heq
        exact Meaning.var.inj (ho.symm.trans ho')
      | _ => cases heq
    | temp id ty =>
      cases o' with
      | temp id' ty' =>
        cases heq
        exact htypes _ ho _ ho' rfl
      | _ => cases heq
    | receiver name =>
      cases o' with
      | receiver name' => rw [ho.1, ho'.1]
      | _ => cases heq
  receiver name hname := by
    have hinstance : d.isStatic = false := hname.2
    have hentry : (declaredRegisters symbols.className d)[0]? =
        some (.receiver, .object symbols.className) := by
      rw [declaredRegisters, firstRegisters, hinstance]
      rfl
    exact Ir.VarTable.register?_eq_some.mpr ⟨_, (lowerMethod_reachable hir).wellKept.sequential
      |>.slot?_of_front (lowerMethod_declared hnames hir) hentry⟩

/-- What an instruction assigns is a temporary or a variable. -/
def AssignsVariable (c : Context) (i : Ir.Instr) : Prop :=
  ∀ dest value, i = .assign (.var dest) value → (∃ id ty, dest = .temp id ty) ∨ Free c dest

theorem assignsVariable_temp (c : Context) (id : Nat) (ty : Ty) (value : Ir.Value) :
    AssignsVariable c (.assignVar (.temp id ty) value) := by
  rintro dest value' ⟨⟩
  exact .inl ⟨id, ty, rfl⟩

theorem assignsVariable_other {c : Context} {i : Ir.Instr}
    (h : ∀ dest value, i ≠ .assign (.var dest) value) : AssignsVariable c i :=
  fun dest value heq => absurd heq (h dest value)

theorem lowerBody_assigns {code : List Ir.Instr} (h : Gives (lowerBody symbols d) k code k') :
    ∀ i ∈ code, AssignsVariable (anyContext symbols d) i := by
  have hcode : Code (anyContext symbols d) (AssignsVariable (anyContext symbols d)) [] k code [] k' := by
    refine lowerBody_codes rfl (fun hint e i _ hi => ?_) (fun s i _ hi => ?_)
      (fun _ => assignsVariable_other (by simp)) (Stmt.allKeep_nothing _ d.body) h
    · cases hi with
      | packed h =>
        cases h with
        | allocate => exact assignsVariable_temp _ _ _ _
        | item => exact assignsVariable_other (by simp)
      | test | item | construct | callVoid => exact assignsVariable_other (by simp)
      | _ => exact assignsVariable_temp _ _ _ _
    · cases hi with
      | assign hmeaning =>
        rintro dest value ⟨⟩
        exact .inr hmeaning
      | _ => exact assignsVariable_other (by simp)
  exact hcode.all fun role n _ _ =>
    ⟨assignsVariable_other (by simp), assignsVariable_other (by simp)⟩

theorem lowerBody_dest {code : List Ir.Instr} (h : Gives (lowerBody symbols d) k code k') :
    ∀ i ∈ code, ∀ dest value, i = .assign (.var dest) value →
      Held (anyContext symbols d) (defsOf code) dest := by
  intro i hi dest value heq
  rcases lowerBody_assigns h i hi dest value heq with ⟨id, ty, rfl⟩ | hfree
  · exact List.mem_filterMap.mpr ⟨i, hi, by rw [heq]; rfl⟩
  · exact .of_free hfree

theorem loads_held_of_emitted {n : Nat} {block : Jvm.MethodBlock} {s : Jvm.Emitted}
    (hnames : (d.params.map (·.name) ++ d.locals.map (·.name)).Nodup)
    (hir : Gives (lowerMethod symbols d) k ir k') (h : MethodEmitted options c ir n block s)
    {place : Nat} {held : Holdings} {i : Jvm.Instr}
    (hpath : Path Jvm.Instr.keep (FromStart (entryHoldings (.ofMethod d))) block.code place held)
    (hi : block.code[place]? = some i) : i.LoadsHeld held := by
  have hbody := (lowerMethod_gives hir).body
  have hcode := lowerBody_code hbody
  obtain ⟨assertions, hlabels, hverified⟩ := hcode.assignsFirst (List.Subset.refl _)
  refine h.layout.loads_held (lowered_operands hnames hir hcode.temp_type)
    (fun i hi o ho => hcode.reads_held hi ho) (lowerBody_dest hbody) ?_ ?_ hverified
    ⟨[], fun _ _ => nofun, entry_holds hnames hir _⟩ hpath hi
  · rw [hlabels]
    exact hcode.labels_nodup
  · rw [hlabels]
    exact fun l hl => (lowerBody_labels hbody l hl).plain

end Semantics

end MiniJava
