import MiniJava.Proofs.Emission.Replay

/-!
# The kinds of words on the stack

Emitted code works on machine words and on references, and most instructions take words of fixed kinds
off the stack. Code is kinded between two stacks if every instruction finds what it takes, and if the
stack is empty wherever the code jumps or can be jumped to. The code of an instruction is kinded if
its operands are of the kinds that the instruction works on. Then each place has one stack, whatever
path leads to it.
-/

namespace MiniJava.Jvm

open Ir (Operand Value Call)

/-! ## Instructions on kinds -/

/-- The kinds of the words that stand for a value of a described type. -/
def Descriptor.kinds : Descriptor → List Kind
  | .int | .boolean => [.word]
  | .object _ | .array _ => [.reference]
  | .void => []

/-- The kind of what an array holds. -/
def ElementKind.kind : ElementKind → Kind
  | .int | .boolean => .word
  | .reference => .reference

/-- The kinds that an instruction takes off the stack, the top first. -/
def Instr.takes : Instr → List Kind
  | .push _ | .load .. | .new _ | .dup | .pop | .label _ | .goto _ | .ret none => []
  | .store kind _ | .ret (some kind) => [kind]
  | .newArray _ | .ifTrue _ => [.word]
  | .arrayLength | .getField .. => [.reference]
  | .op _ | .ifLess _ => [.word, .word]
  | .arrayLoad _ => [.word, .reference]
  | .arrayStore element => [element.kind, .word, .reference]
  | .putField _ _ d => d.kinds ++ [.reference]
  | .invoke .static _ _ d => (d.params.flatMap (·.kinds)).reverse
  | .invoke .special _ _ d | .invoke .virtual _ _ d =>
    (d.params.flatMap (·.kinds)).reverse ++ [.reference]

/-- The kinds that an instruction puts on the stack. -/
def Instr.gives : Instr → List Kind
  | .push _ | .op _ | .arrayLength => [.word]
  | .load kind _ => [kind]
  | .new _ | .newArray _ => [.reference]
  | .arrayLoad element => [element.kind]
  | .getField _ _ d => d.kinds
  | .invoke _ _ _ d => d.result.kinds
  | .store .. | .dup | .pop | .arrayStore _ | .putField .. | .label _ | .goto _ => []
  | .ifLess _ | .ifTrue _ | .ret _ => []

/-- What an instruction makes of the kinds on the stack, the top first. There is nothing if it does
not find what it takes. A word of any kind is copied or dropped. -/
def Instr.turn? (i : Instr) (stack : List Kind) : Option (List Kind) :=
  match i, stack with
  | .dup, kind :: rest => some (kind :: kind :: rest)
  | .pop, _ :: rest => some rest
  | .dup, [] | .pop, [] => none
  | i, stack => (i.takes.isPrefixOf? stack).map (i.gives ++ ·)

/-- What an instruction leaves on the stack. -/
def Instr.turn (i : Instr) (stack : List Kind) : List Kind :=
  (i.turn? stack).getD []

/-- Whether the words that an instruction takes are of fixed kinds. -/
def Instr.isFixed : Instr → Bool
  | .dup | .pop => false
  | _ => true

theorem turn_takes {i : Instr} (hfixed : i.isFixed) (stack : List Kind) :
    i.turn? (i.takes ++ stack) = some (i.gives ++ stack) := by
  have htaken : i.takes.isPrefixOf? (i.takes ++ stack) = some stack :=
    List.isPrefixOf?_eq_some_iff_append_eq.mpr rfl
  have hmap : (i.takes.isPrefixOf? (i.takes ++ stack)).map (i.gives ++ ·) =
      some (i.gives ++ stack) := by
    rw [htaken]
    rfl
  cases i with
  | dup | pop => cases hfixed
  | _ => exact hmap

/-! ## Kinded code -/

/-- The push of an operand of a kind. -/
structure Instr.Pushes (i : Instr) (kind : Kind) : Prop where
  load : i.isLoad
  gives : i.gives = [kind]

theorem Instr.Pushes.turn {i : Instr} {kind : Kind} (h : i.Pushes kind) (stack : List Kind) :
    i.turn? stack = some (kind :: stack) := by
  have hgives := h.gives
  cases i with
  | push value =>
    cases hgives
    exact turn_takes (i := .push value) rfl stack
  | load loaded register =>
    cases hgives
    exact turn_takes (i := .load _ register) rfl stack
  | _ => cases h.load

/-- Code of a method with a declared kind of result that leads from the kinds of one stack to those of
another one. A return finds its result and nothing else. -/
inductive Kinded (r : Option Kind) : List Kind → List Instr → List Kind → Prop
  | nil {s : List Kind} : Kinded r s [] s
  | straight {s t u : List Kind} {i : Instr} {rest : List Instr} (hi : i.isStraight)
    (hturn : i.turn? s = some t) (hrest : Kinded r t rest u) : Kinded r s (i :: rest) u
  | label {u : List Kind} {l : Label} {rest : List Instr} (hl : PlainLabel l)
    (hrest : Kinded r [] rest u) : Kinded r [] (.label l :: rest) u
  | jump {s u : List Kind} {i : Instr} {l : Label} {rest : List Instr}
    (hi : i.jumpTarget? = some l) (hl : PlainLabel l) (hturn : i.turn? s = some [])
    (hrest : Kinded r [] rest u) : Kinded r s (i :: rest) u
  | ret {u : List Kind} {kind : Option Kind} {rest : List Instr} (hkind : kind = r ∨ kind = none)
    (hrest : Kinded r [] rest u) : Kinded r kind.toList (.ret kind :: rest) u
  | less {u : List Kind} {n : Nat} {i j : Instr} {rest : List Instr} (hi : i.Pushes .word)
    (hj : j.Pushes .word) (hrest : Kinded r [.word] rest u) : Kinded r [] (lessCode n i j ++ rest) u

namespace Kinded

variable {r : Option Kind} {s t u : List Kind} {code code' : List Instr}

theorem append (h : Kinded r s code t) (h' : Kinded r t code' u) : Kinded r s (code ++ code') u := by
  induction h with
  | nil => exact h'
  | straight hi hturn _ ih => exact .straight hi hturn (ih h')
  | label hl _ ih => exact .label hl (ih h')
  | jump hi hl hturn _ ih => exact .jump hi hl hturn (ih h')
  | ret hkind _ ih => exact .ret hkind (ih h')
  | less hi hj _ ih => exact .less hi hj (ih h')

theorem single {i : Instr} (hi : i.isStraight) (hturn : i.turn? s = some t) : Kinded r s [i] t :=
  .straight hi hturn .nil

theorem push {i : Instr} {kind : Kind} (h : i.Pushes kind) (s : List Kind) :
    Kinded r s [i] (kind :: s) := by
  refine .single ?_ (h.turn s)
  have hload := h.load
  cases i with
  | push | load => rfl
  | _ => cases hload

theorem returns {kind : Option Kind} (hkind : kind = r ∨ kind = none) :
    Kinded r kind.toList [.ret kind] [] :=
  .ret hkind .nil

theorem takes {i : Instr} (hi : i.isStraight) (hfixed : i.isFixed) (s : List Kind) :
    Kinded r (i.takes ++ s) [i] (i.gives ++ s) :=
  .single hi (turn_takes hfixed s)

end Kinded

/-! ## The kinds of types -/

variable {f : Frame} {r : Option Kind}

theorem descriptor_kinds (resolver : Resolver) (ty : Ty) :
    (resolver.descriptor ty).kinds = (returnKind ty).toList := by
  cases ty <;> rfl

theorem kinds_of_value {ty : Ty} (h : ¬ ty.isVoid) : (returnKind ty).toList = [.ofTy ty] := by
  rw [returnKind, if_neg h]
  rfl

theorem elementKind_kind {ty : Ty} (h : ¬ ty.isVoid) :
    (ElementKind.ofTy ty).kind = .ofTy ty := by
  cases ty with
  | void => exact absurd rfl h
  | _ => rfl

theorem kind_of_object {o : Operand} {owner : String} (h : ownerOf f o = .ok owner) :
    Kind.ofTy o.ty = .reference := by
  rw [ownerOf] at h
  cases hty : o.ty with
  | object | string => rfl
  | int | boolean | void | array =>
    rw [hty] at h
    cases h

theorem loadInstr_pushes {o : Operand} {i : Instr} (h : loadInstr f o = .ok i) :
    i.Pushes (.ofTy o.ty) := by
  cases o with
  | literal value =>
    cases h
    cases value <;> exact ⟨rfl, rfl⟩
  | receiver =>
    cases h
    exact ⟨rfl, rfl⟩
  | classRef name => cases h
  | var name ty | temp id ty =>
    obtain ⟨register, _, h⟩ := except_bind h
    cases h
    exact ⟨rfl, rfl⟩

theorem loadInstr_kinded {o : Operand} {i : Instr} (h : loadInstr f o = .ok i) (s : List Kind) :
    Kinded r s [i] (.ofTy o.ty :: s) :=
  .push (loadInstr_pushes h) s

theorem storeInstr_kinded {o : Operand} {i : Instr} (h : storeInstr f o = .ok i) (s : List Kind) :
    Kinded r (.ofTy o.ty :: s) [i] s := by
  cases o with
  | literal | receiver | classRef => cases h
  | var name ty | temp id ty =>
    obtain ⟨register, _, h⟩ := except_bind h
    cases h
    exact .takes (i := .store (.ofTy ty) register) rfl rfl s

theorem Loads.kinded {operands : List Operand} {code : List Instr} (h : Loads f operands code) :
    ∀ s, Kinded r s code ((operands.map fun o => Kind.ofTy o.ty).reverse ++ s) := by
  induction h with
  | nil => exact fun s => .nil
  | cons hi _ ih =>
    intro s
    have hrest := (loadInstr_kinded hi s).append (ih (.ofTy _ :: s))
    rw [List.map_cons, List.reverse_cons, List.append_assoc]
    exact hrest

/-! ## Instructions of fitting kinds -/

/-- The operands of a call are of the kinds that it takes, and the kind of its result is that of its
type. -/
structure CallKinded (f : Frame) (call : Call) : Prop where
  size : call.kind = .new → ∀ o, call.args.head? = some o → Kind.ofTy o.ty = .word
  measured : call.kind = .arrayLength →
    Kind.ofTy call.target.ty = .reference ∧ (returnKind call.returnTy).toList = [.word]
  invoke : ∀ ⦃invocation : Invocation⦄ ⦃owner name : String⦄, call.kind = invocation.callKind →
    call.method = some name → callOwner f invocation call.target = .ok owner →
    (callDescriptor f owner name call).params.flatMap (·.kinds) =
        call.args.map (fun o => Kind.ofTy o.ty) ∧
      (callDescriptor f owner name call).result.kinds = (returnKind call.returnTy).toList

/-- The operands of a value are of the kinds that it is computed from. -/
def ValueKinded (f : Frame) : Value → Prop
  | .operand _ | .getField .. => True
  | .binary _ left right => Kind.ofTy left.ty = .word ∧ Kind.ofTy right.ty = .word
  | .not o => Kind.ofTy o.ty = .word
  | .arrayLoad array index _ => Kind.ofTy array.ty = .reference ∧ Kind.ofTy index.ty = .word
  | .call call => CallKinded f call

/-- The operands of an instruction are of the kinds that it works on. -/
def WellKinded (f : Frame) : Ir.Instr → Prop
  | .assign (.var dest) value => ValueKinded f value ∧ Kind.ofTy value.ty = .ofTy dest.ty
  | .assign (.element array index ty) value =>
    ¬ ty.isVoid ∧ Kind.ofTy array.ty = .reference ∧ Kind.ofTy index.ty = .word ∧
      Kind.ofTy value.ty = .ofTy ty
  | .putField object field value => ∀ owner, ownerOf f object = .ok owner →
      (f.resolver.descriptor (writtenTy f owner field value)).kinds = [.ofTy value.ty]
  | .call call => CallKinded f call
  | .condGoto value _ => ValueKinded f value ∧ ¬ value.ty.isVoid ∧ Kind.ofTy value.ty = .word
  | .ret (some o) => returnKind f.method.returnTy = some (.ofTy o.ty)
  | .label _ | .goto _ | .ret none => True

/-- The kinds of what waits on the stack for its constructor. -/
def waitingKinds (waiting : Bool) : List Kind :=
  if waiting then [.reference] else []

theorem CallCode.kinded {call : Call} {waiting : Bool} {code : List Instr}
    (hcall : CallKinded f call) (h : CallCode f call waiting code) :
    Kinded r (waitingKinds waiting) code (returnKind call.returnTy).toList := by
  cases h with
  | @newArray element size i hkind hty hsize hi =>
    have hpush := loadInstr_kinded (r := r) hi []
    rw [hcall.size hkind size hsize] at hpush
    have hresult : returnKind call.returnTy = some .reference := by
      cases hr : call.returnTy with
      | array => rfl
      | _ =>
        rw [hr] at hty
        cases hty
    rw [hresult]
    exact hpush.append (.takes (i := .newArray (f.resolver.descriptor element).component) rfl rfl [])
  | arrayLength hkind hi =>
    obtain ⟨htarget, hresult⟩ := hcall.measured hkind
    have hpush := loadInstr_kinded (r := r) hi []
    rw [htarget] at hpush
    rw [hresult]
    exact hpush.append (.takes (i := .arrayLength) rfl rfl [])
  | @invoke invocation waiting owner name code hkind hwaiting hname howner hloads =>
    obtain ⟨hparams, hresult⟩ := hcall.invoke hkind hname howner
    have htakes : (Instr.invoke invocation owner name (callDescriptor f owner name call)).takes =
        (call.args.map fun o => Kind.ofTy o.ty).reverse ++
          if invocation = .static then [] else [.reference] := by
      cases invocation <;> simp [Instr.takes, hparams]
    have hpushed : ((pushedOperands invocation waiting call).map fun o => Kind.ofTy o.ty).reverse ++
        waitingKinds waiting = (call.args.map fun o => Kind.ofTy o.ty).reverse ++
          if invocation = .static then [] else [.reference] := by
      have htarget : invocation ≠ .static → Kind.ofTy call.target.ty = .reference := by
        intro hstatic
        cases invocation with
        | static => exact absurd rfl hstatic
        | special | virtual => exact kind_of_object howner
      cases waiting with
      | true =>
        cases hwaiting rfl
        simp [pushedOperands, waitingKinds]
      | false =>
        cases invocation with
        | static => simp [pushedOperands, waitingKinds]
        | special | virtual => simp [pushedOperands, waitingKinds, htarget]
    have hinvoke := Kinded.takes (r := r)
      (i := .invoke invocation owner name (callDescriptor f owner name call)) rfl rfl []
    rw [List.append_nil, List.append_nil, htakes, Instr.gives, hresult, ← hpushed] at hinvoke
    exact (hloads.kinded _).append hinvoke

theorem ValueCode.kinded {n n' : Nat} {value : Value} {code : List Instr}
    (hvalue : ValueKinded f value) (hvoid : ¬ value.ty.isVoid) (h : ValueCode f n value code n') :
    Kinded r [] code [.ofTy value.ty] := by
  cases h with
  | operand hi => exact loadInstr_kinded hi []
  | @less left right i j hi hj =>
    obtain ⟨hleft, hright⟩ := hvalue
    have hless := Kinded.less (r := r) (n := n) (hleft ▸ loadInstr_pushes hi)
      (hright ▸ loadInstr_pushes hj) .nil
    rwa [List.append_nil] at hless
  | @binary op wordOp left right i j hop hi hj =>
    obtain ⟨hleft, hright⟩ := hvalue
    have hpushes := (loadInstr_kinded (r := r) hi []).append (loadInstr_kinded hj [_])
    rw [hleft, hright] at hpushes
    have hresult : Kind.ofTy (Value.binary op left right).ty = .word := by cases op <;> rfl
    rw [hresult]
    exact hpushes.append (.takes (i := .op wordOp) rfl rfl [])
  | @not o i hi =>
    have hpush := loadInstr_kinded (r := r) hi []
    have hnegator : (negator f i).Pushes .word := by
      rw [negator]
      cases f.negation with
      | selfXor => exact hvalue ▸ loadInstr_pushes hi
      | xorOne => exact ⟨rfl, rfl⟩
    rw [show Kind.ofTy o.ty = .word from hvalue] at hpush
    exact hpush.append ((Kinded.push hnegator _).append (.takes (i := .op .xor) rfl rfl []))
  | @getField object field owner ty i howner hi =>
    have hpush := loadInstr_kinded (r := r) hi []
    rw [kind_of_object howner] at hpush
    have hkinds : (returnKind ty).toList = [.ofTy ty] := kinds_of_value hvoid
    have hread :=
      Kinded.takes (r := r) (i := .getField owner field (f.resolver.descriptor ty)) rfl rfl []
    rw [Instr.gives, descriptor_kinds, hkinds] at hread
    exact hpush.append hread
  | @arrayLoad array index ty i j hi hj =>
    obtain ⟨harray, hindex⟩ := hvalue
    have hpushes := (loadInstr_kinded (r := r) hi []).append (loadInstr_kinded hj [_])
    rw [harray, hindex] at hpushes
    have hkind : (ElementKind.ofTy ty).kind = .ofTy ty := elementKind_kind hvoid
    have hread := Kinded.takes (r := r) (i := .arrayLoad (.ofTy ty)) rfl rfl []
    rw [Instr.gives, hkind] at hread
    exact hpushes.append hread
  | @call call code hcall =>
    have hkinds : (returnKind call.returnTy).toList = [.ofTy call.returnTy] := kinds_of_value hvoid
    have hcode := hcall.kinded (r := r) hvalue
    rwa [hkinds] at hcode

theorem InstrCode.kinded (hr : returnKind f.method.returnTy = r) {n n' : Nat}
    {pending pending' : Option Operand} {i : Ir.Instr} {code : List Instr} (hsound : Sound f i)
    (hi : WellKinded f i)
    (h : InstrCode f n pending i code pending' n') :
    Kinded r (waitingKinds pending.isSome) code (waitingKinds pending'.isSome) := by
  cases h with
  | @newObject dest call name st hnew hty hst =>
    have hstore := storeInstr_kinded (r := r) hst [.reference]
    have hkind : Kind.ofTy call.returnTy = .ofTy dest.ty := hi.2
    rw [hty] at hkind
    rw [← hkind] at hstore
    have hnew := Kinded.takes (r := r) (i := .new (f.resolver.internalName name)) rfl rfl []
    exact hnew.append (.straight (i := .dup) rfl rfl hstore)
  | assignVar hnew hty hvalue hst =>
    have hcode := hvalue.kinded (r := r) hi.1 hty
    rw [hi.2] at hcode
    exact hcode.append (storeInstr_kinded hst [])
  | @assignElement array index ty value code n' i j hai haj hvalue =>
    obtain ⟨o, rfl⟩ := hsound.element array index ty value rfl
    obtain ⟨hvoid, harray, hindex, hkind⟩ := hi
    cases hvalue with
    | operand ho =>
      have hpushes := ((loadInstr_kinded (r := r) hai []).append (loadInstr_kinded haj [_])).append
        (loadInstr_kinded ho [_, _])
      have hstored : Kind.ofTy o.ty = .ofTy ty := hkind
      rw [harray, hindex, hstored, ← elementKind_kind hvoid] at hpushes
      exact hpushes.append (.takes (i := .arrayStore (.ofTy ty)) rfl rfl [])
  | @putField object value field owner i j howner hai haj =>
    have hpushes := (loadInstr_kinded (r := r) hai []).append (loadInstr_kinded haj [_])
    rw [kind_of_object howner] at hpushes
    have hwrite := Kinded.takes (r := r) (i := .putField owner field
      (f.resolver.descriptor (writtenTy f owner field value))) rfl rfl []
    rw [Instr.takes, hi owner howner] at hwrite
    exact hpushes.append hwrite
  | @call call pending code hnew hpending hcall =>
    refine (hcall.kinded hi).append ?_
    by_cases hvoid : call.returnTy.isVoid
    · rw [if_pos hvoid, returnKind, if_pos hvoid]
      exact .nil
    · rw [if_neg hvoid, kinds_of_value hvoid]
      exact .single rfl rfl
  | label => exact .label (hsound.defined _ rfl) .nil
  | goto => exact .jump rfl (hsound.target _ rfl) rfl .nil
  | @condLess left right l i j hai haj =>
    have hpushes := (loadInstr_kinded (r := r) hai []).append (loadInstr_kinded haj [_])
    rw [hi.1.1, hi.1.2] at hpushes
    exact hpushes.append (.jump rfl (hsound.target _ rfl) rfl .nil)
  | condValue hless hvalue =>
    obtain ⟨hkinded, hvoid, hword⟩ := hi
    have hcode := hvalue.kinded (r := r) hkinded hvoid
    rw [hword] at hcode
    exact hcode.append (.jump rfl (hsound.target _ rfl) rfl .nil)
  | @ret o i hai =>
    have hpush := loadInstr_kinded (r := r) hai []
    have hkind : returnKind f.method.returnTy = some (.ofTy o.ty) := hi
    rw [hkind] at hr ⊢
    exact hpush.append (.returns (.inl hr))
  | retNone => exact .returns (.inr rfl)

theorem settleCode_kinded (pending : Option Operand) (i : Ir.Instr) :
    Kinded r (waitingKinds pending.isSome) (settleCode pending i)
      (waitingKinds (pending.filter (isConstructorOf · i)).isSome) := by
  rcases settleCode_cases pending i with ⟨hcode, hpending⟩ | ⟨hsome, hcode, hpending⟩
  · rw [hcode, hpending]
    exact .nil
  · rw [hcode, hpending, hsome]
    exact .single rfl rfl

theorem Layout.kinded (hr : returnKind f.method.returnTy = r) {n last : Nat}
    {pending : Option Operand} {instrs : List Ir.Instr} {code : List Instr}
    (hsound : ∀ i ∈ instrs, Sound f i) (hinstrs : ∀ i ∈ instrs, WellKinded f i)
    (h : Layout f n pending instrs code last) :
    Kinded r (waitingKinds pending.isSome) code [] := by
  induction h with
  | @nil n pending =>
    cases pending with
    | none => exact .nil
    | some o => exact .single rfl rfl
  | @cons n n' last pending pending' i rest code more hcode _ ih =>
    rw [List.forall_mem_cons] at hsound hinstrs
    exact ((settleCode_kinded pending i).append (hcode.kinded hr hsound.1 hinstrs.1)).append
      (ih hsound.2 hinstrs.2)

/-! ## One stack at each place -/

/-- The kinds on the stack behind an instruction in the text. -/
def Instr.kindsBehind (stack : List Kind) (i : Instr) : List Kind :=
  if Control.falls i then i.turn stack else []

/-- The kinds on the stack at a label: behind a comparison its result is there. -/
def labelKinds : Label → List Kind
  | .numbered .compareEnd _ => [.word]
  | _ => []

/-- An instruction finds what it takes, a return nothing else, and labels have their stacks. What is
returned is of the declared kind. -/
structure FitsKinds (r : Option Kind) (stack : List Kind) (i : Instr) : Prop where
  finds : (i.turn? stack).isSome
  returns : ∀ kind, i = .ret kind → stack = kind.toList ∧ (kind = r ∨ kind = none)
  marks : ∀ l, Control.marks? i = some l → stack = labelKinds l
  jumps : ∀ l, Control.jumps? i = some l → i.turn stack = labelKinds l

theorem labelKinds_plain {l : Label} (h : PlainLabel l) : labelKinds l = [] := by
  cases l with
  | named => rfl
  | numbered role n =>
    cases role with
    | compareEnd => exact h.elim
    | _ => rfl

theorem turn_of_turn? {i : Instr} {s t : List Kind} (h : i.turn? s = some t) : i.turn s = t := by
  rw [Instr.turn, h]
  rfl

theorem FitsKinds.straight {s t : List Kind} {i : Instr} (hi : i.isStraight)
    (hturn : i.turn? s = some t) : FitsKinds r s i := by
  refine ⟨by rw [hturn]; rfl, fun kind hret => ?_, fun l hl => ?_, fun l hl => ?_⟩
  · subst hret
    cases hi
  · cases (marks_of_straight hi).symm.trans hl
  · cases (jumps_of_straight hi).symm.trans hl

theorem FitsKinds.jump {s : List Kind} {i : Instr} {l : Label} (hi : i.jumpTarget? = some l)
    (hturn : i.turn? s = some (labelKinds l)) : FitsKinds r s i := by
  refine ⟨by rw [hturn]; rfl, fun kind hret => ?_, fun l' hl' => ?_, fun l' hl' => ?_⟩
  · subst hret
    cases hi
  · cases (marks_of_jump hi).symm.trans hl'
  · cases hi.symm.trans hl'
    exact turn_of_turn? hturn

theorem FitsKinds.label {s : List Kind} {l : Label} (hs : s = labelKinds l) :
    FitsKinds r s (.label l) := by
  refine ⟨rfl, by simp, fun l' hl' => ?_, fun l' hl' => by cases hl'⟩
  cases hl'
  exact hs

theorem kindsBehind_of_turn {i : Instr} {s t : List Kind} (hi : Control.falls i)
    (hturn : i.turn? s = some t) : i.kindsBehind s = t := by
  rw [Instr.kindsBehind, if_pos hi, turn_of_turn? hturn]

theorem Kinded.scanned {s t : List Kind} {code : List Instr} (h : Kinded r s code t) :
    MiniJava.Scanned (FitsKinds r) (fun stack i => i.kindsBehind stack) s code t := by
  have hpush : ∀ {i : Instr} {kind : Kind} {s u : List Kind} {rest : List Instr}, i.Pushes kind →
      MiniJava.Scanned (FitsKinds r) (fun stack i => i.kindsBehind stack) (kind :: s) rest u →
      MiniJava.Scanned (FitsKinds r) (fun stack i => i.kindsBehind stack) s (i :: rest) u := by
    intro i kind s u rest hi hrest
    have hstraight := isLoad_straight hi.load
    refine .cons (.straight hstraight (hi.turn s)) ?_
    rwa [kindsBehind_of_turn (falls_of_straight hstraight) (hi.turn s)]
  induction h with
  | nil => exact .nil
  | straight hi hturn _ ih =>
    refine .cons (.straight hi hturn) ?_
    rwa [kindsBehind_of_turn (falls_of_straight hi) hturn]
  | label hl _ ih => exact .cons (.label (labelKinds_plain hl).symm) ih
  | @jump s u i l rest hi hl hturn _ ih =>
    refine .cons (.jump hi (by rw [hturn, labelKinds_plain hl])) ?_
    have hbehind : i.kindsBehind s = [] := by
      rw [Instr.kindsBehind, turn_of_turn? hturn, ite_self]
    rwa [hbehind]
  | @ret u kind rest hkind _ ih =>
    refine .cons ⟨?_, fun kind' hret => ?_, by simp [Control.marks?],
      by simp [Control.jumps?, Instr.jumpTarget?]⟩ ih
    · cases kind with
      | none => rfl
      | some kind =>
        have hturn := turn_takes (i := .ret (some kind)) rfl []
        rw [List.append_nil] at hturn
        exact Option.isSome_of_eq_some hturn
    · cases hret
      exact ⟨rfl, hkind⟩
  | @less u n i j rest hi hj _ ih =>
    have hone : (Instr.push 1).Pushes .word := ⟨rfl, rfl⟩
    have hzero : (Instr.push 0).Pushes .word := ⟨rfl, rfl⟩
    exact hpush hi (hpush hj (.cons (.jump rfl rfl) (hpush hzero (.cons (.jump rfl rfl)
      (.cons (.label rfl) (hpush hone (.cons (.label rfl) ih)))))))

/-- The kinds on the stack at a place of code. -/
def kindsAt (code : List Instr) (n : Nat) : List Kind :=
  stateAt (fun stack i => i.kindsBehind stack) [] code n

/-- A path through kinded code meets the one stack that there is at a place. -/
theorem Kinded.path {t : List Kind} {code : List Instr} (h : Kinded r [] code t) {n : Nat}
    {s : List Kind} (hpath : Path Instr.turn (FromStart []) code n s) : s = kindsAt code n := by
  have hmarks : ∀ u i l, FitsKinds r u i → Control.marks? i = some l → u = labelKinds l :=
    fun u i l hfits => hfits.marks l
  refine h.scanned.path (fun u i _ hfalls => if_pos hfalls) hmarks (fun u i l hfits => hfits.jumps l)
    (fun n u hstart => ?_) hpath
  obtain ⟨rfl, rfl⟩ := hstart
  rfl

theorem Kinded.fits {t : List Kind} {code : List Instr} (h : Kinded r [] code t) {n : Nat} {i : Instr}
    (hi : code[n]? = some i) : FitsKinds r (kindsAt code n) i :=
  h.scanned.fits_at hi

end MiniJava.Jvm
