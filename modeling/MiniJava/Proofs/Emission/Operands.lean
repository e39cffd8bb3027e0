import MiniJava.Proofs.Emission.Layout
import MiniJava.Proofs.Lowering.Registers
import MiniJava.Proofs.Lowering.Simulation
import MiniJava.Proofs.Semantics.StackMachine

/-!
# Operands on the stack

What emitted code and the intermediate code have in common while they run: the registers hold the
values of the variables. A load then pushes the value of its operand. Both sides run on a platform of
machine words that knows the types of the fields that the class declares.
-/

namespace MiniJava.Semantics

open Ir (Operand)
open Jvm

/-- What a run meets outside of its class: how calls answer, and which classes extend which ones. -/
structure Host where
  reply : Heap → Target → String → List Value → Reply
  extends? : String → String → Bool

/-- The platform of machine words that an emitted class runs on. An array takes objects and arrays of
the class of its elements or of one that extends it. -/
def classPlatform (c : Ir.Class) (host : Host) : Platform :=
  let platform := words (Resolver.ofClass c).internalName host.reply
  { platform with
    admits := fun heap element v =>
      match v with
      | .ref address =>
        heap[address]?.all fun cell => cell.descriptor.isSubtype host.extends? element
      | .int _ | .bool _ | .null => true
    fieldHolds := fun owner field v =>
      if owner = c.name then (c.field? field).all (platform.holds ·.ty v) else true }

/-! ## Values of a type -/

section Values

variable {c : Ir.Class} {host : Host} {ty : Ty} {v : Value}

theorem isKind_of_holds (h : (classPlatform c host).holds ty v) : v.isKind (.ofTy ty) := by
  cases ty <;> cases v <;> first | rfl | cases h

theorem isKind_element (h : (classPlatform c host).holds ty v) :
    v.isKind (elementKind (.ofTy ty)) := by
  cases ty <;> cases v <;> first | rfl | cases h

theorem isKind_descriptor (r : Resolver) (h : (classPlatform c host).holds ty v) :
    v.isKind (kindOf (r.descriptor ty)) := by
  cases ty <;> cases v <;> first | rfl | cases h

theorem lowestBit_of_holds (h : (classPlatform c host).holds .boolean v) : v.lowestBit = v := by
  cases v with
  | int n =>
    have hn : (n == 0 || n == 1) = true := h
    rcases (Bool.or_eq_true _ _).mp hn with hn | hn
    · rw [eq_of_beq hn]
      rfl
    · rw [eq_of_beq hn]
      rfl
  | bool | null | ref => cases h

theorem narrow_of_holds (r : Resolver) (h : (classPlatform c host).holds ty v) :
    narrow (r.descriptor ty) v = v := by
  cases ty with
  | boolean => exact lowestBit_of_holds h
  | int | string | void | object | array => rfl

theorem narrowElement_of_holds (h : (classPlatform c host).holds ty v) :
    narrowElement (.ofTy ty) v = v := by
  cases ty with
  | boolean => exact lowestBit_of_holds h
  | int | string | void | object | array => rfl

variable (c host) in
theorem zeroOf_descriptor (r : Resolver) (ty : Ty) :
    zeroOf (r.descriptor ty) = (classPlatform c host).zero ty := by
  cases ty <;> rfl

theorem zeroOf_component (d : Descriptor) : zeroOf d.component = zeroOf d := by
  cases d <;> rfl

variable (c host) in
theorem component_descriptor (ty : Ty) :
    ((Resolver.ofClass c).descriptor ty).component = (classPlatform c host).elementClass ty := by
  have hty : (Resolver.ofClass c).descriptor ty = .ofTy (Resolver.ofClass c).internalName ty := by
    induction ty with
    | array element ih => rw [Resolver.descriptor, ih, Descriptor.ofTy]
    | int | boolean | string | void | object => rfl
  rw [hty]
  rfl

theorem keep_of_isKind {kind : Kind} (h : v.isKind kind) : keep kind v = pure v :=
  if_pos h

theorem not_void_of_holds (h : (classPlatform c host).holds ty v) : ¬ ty.isVoid := by
  cases ty with
  | void => cases v <;> cases h
  | int | boolean | string | object | array => exact Bool.false_ne_true

theorem expect_refines (a : Action Value) :
    Action.Refines (a >>= (classPlatform c host).expect ty) a := by
  intro w hw
  rw [Action.bind_apply] at hw ⊢
  cases ha : a w with
  | ok v w' =>
    rw [ha] at hw
    by_cases hv : (classPlatform c host).holds ty v
    · exact (congrFun (expect_of_holds hv) w').symm
    · have hstuck : (classPlatform c host).expect ty v = Action.stuck := if_neg hv
      exact absurd (congrFun hstuck w') hw
  | threw e w' => rfl
  | stuck => rfl
  | outOfFuel => rfl

/-- A value that has to be of a type has to be of any kind that the values of the type are of. -/
theorem expect_refines_keep {kind : Kind}
    (h : (classPlatform c host).holds ty v → v.isKind kind) :
    Action.Refines ((classPlatform c host).expect ty v) (keep kind v) := by
  intro w hw
  rw [Platform.expect] at hw ⊢
  by_cases hv : (classPlatform c host).holds ty v
  · rw [if_pos hv, keep_of_isKind (h hv)]
  · rw [if_neg hv] at hw
    exact absurd rfl hw

end Values

/-! ## Registers -/

/-- The registers hold the values of the variables, each one that of a single variable, and the first
one that of the receiver. -/
structure Registered (m : Ir.Method) (vars : Vars) (registers : Nat → Option Value) : Prop where
  sequential : m.vars.Sequential
  held : ∀ ⦃key v register⦄, vars key = some v → m.vars.register? key = some register →
    registers register = some v
  receiver : ∀ ⦃v⦄, vars .receiver = some v → m.vars.register? .receiver = some 0

theorem Registered.set {m : Ir.Method} {vars : Vars} {registers : Nat → Option Value}
    {key : Ir.VarKey} {register : Nat} (h : Registered m vars registers)
    (hkey : m.vars.register? key = some register) (hreceiver : key ≠ .receiver) (v : Value) :
    Registered m (vars.set key v) (fun r => if r = register then some v else registers r) where
  sequential := h.sequential
  held key' v' register' hv hregister := by
    rw [Vars.set] at hv
    by_cases hne : key' = key
    · rw [if_pos hne] at hv
      rw [hne, hkey] at hregister
      cases hv
      cases hregister
      exact if_pos rfl
    · rw [if_neg hne] at hv
      have hother : register' ≠ register := fun heq =>
        hne (h.sequential.register_inj (heq ▸ hregister) hkey)
      rw [if_neg hother]
      exact h.held hv hregister
  receiver v' hv := by
    rw [Vars.set, if_neg (Ne.symm hreceiver)] at hv
    exact h.receiver hv

/-! ## Loads -/

section Loads

variable {f : Jvm.Frame} {b : MethodBlock} {vars : Vars} {t : JvmState} {o : Operand} {i : Instr}
  {host : Host}

theorem jvmMachine_at {P : Platform} (h : b.code[t.pc]? = some i) :
    jvmMachine P b t = jvmInstr P b t i := by
  rw [jvmMachine, h]

/-- Reading an operand gives a value of its type or is stuck. -/
theorem readOperand_cases (P : Platform) (vars : Vars) (o : Operand) :
    readOperand P vars o = Action.stuck ∨
      ∃ v, readOperand P vars o = pure v ∧ P.holds o.ty v ∧
        (∀ key, o.key? = some key → vars key = some v) := by
  have hexpect : ∀ {v : Value} {ty : Ty}, P.expect ty v = Action.stuck ∨
      P.expect ty v = pure v ∧ P.holds ty v := by
    intro v ty
    by_cases hv : P.holds ty v
    · exact .inr ⟨expect_of_holds hv, hv⟩
    · exact .inl (if_neg hv)
  have hvar : ∀ key, o.key? = some key → readOperand P vars o = Action.stuck ∨
      ∃ v, readOperand P vars o = pure v ∧ P.holds o.ty v ∧
        (∀ key, o.key? = some key → vars key = some v) := by
    intro key hkey
    have hread : readOperand P vars o = (vars key).elim Action.stuck (P.expect o.ty) :=
      readOperand_of_key hkey
    cases hv : vars key with
    | none =>
      rw [hv] at hread
      exact .inl hread
    | some v =>
      rw [hv] at hread
      rcases @hexpect v o.ty with hstuck | ⟨hpure, hholds⟩
      · exact .inl (hread.trans hstuck)
      · refine .inr ⟨v, hread.trans hpure, hholds, fun key' hkey' => ?_⟩
        rw [hkey] at hkey'
        cases hkey'
        exact hv
  cases o with
  | literal value => exact .inr ⟨_, rfl, P.holds_literal value, fun _ hkey => by cases hkey⟩
  | classRef name => exact .inl rfl
  | var | temp | receiver => exact hvar _ rfl

theorem load_holds (hregs : Registered f.method vars t.registers) (hi : loadInstr f o = .ok i)
    (hat : b.code[t.pc]? = some i) :
    (jvmMachine (classPlatform f.owner host) b).Computes 1 t
      (readOperand (classPlatform f.owner host) vars o) fun v t' =>
        t' = t.next (v :: t.stack) ∧ (classPlatform f.owner host).holds o.ty v := by
  rcases readOperand_cases (classPlatform f.owner host) vars o with hread | ⟨v, hread, hv, hkey⟩
  · rw [hread]
    exact .stuck
  · rw [hread]
    refine .step (t := t.next (v :: t.stack)) ?_ (.pure ⟨rfl, hv⟩)
    rw [jvmMachine_at hat]
    have hload : ∀ {kind : Kind} {register : Nat}, t.registers register = some v → v.isKind kind →
        jvmInstr (classPlatform f.owner host) b t (.load kind register) =
          pure (.next (t.next (v :: t.stack))) := by
      intro kind register hregister hkind
      rw [jvmInstr, hregister]
      show keep kind v >>= _ = _
      rw [keep_of_isKind hkind, pure_bind]
    have hvar : ∀ {key : Ir.VarKey} {register : Nat}, o.key? = some key →
        registerOf f o = .ok register → t.registers register = some v := by
      intro key register ho hregister
      rw [registerOf, Ir.Method.register?, ho, Option.bind_some] at hregister
      cases hr : f.method.vars.register? key with
      | none =>
        rw [hr] at hregister
        cases hregister
      | some r =>
        rw [hr] at hregister
        cases hregister
        exact hregs.held (hkey key ho) hr
    cases o with
    | literal value =>
      cases hi
      have hword := Action.pure_inj hread
      rw [← hword]
      cases value with
      | int n => rfl
      | bool value => cases value <;> rfl
    | classRef name => cases hi
    | var name ty | temp id ty =>
      obtain ⟨register, hregister, hi⟩ := except_bind hi
      cases hi
      exact hload (hvar rfl hregister) (isKind_of_holds hv)
    | receiver className =>
      cases hi
      have hself := hkey .receiver rfl
      have hkind : v.isKind (.ofTy (.object className)) := isKind_of_holds hv
      exact hload (hregs.held hself (hregs.receiver hself)) hkind

theorem load_computes (hregs : Registered f.method vars t.registers) (hi : loadInstr f o = .ok i)
    (hat : b.code[t.pc]? = some i) :
    (jvmMachine (classPlatform f.owner host) b).Computes 1 t
      (readOperand (classPlatform f.owner host) vars o) fun v t' => t' = t.next (v :: t.stack) :=
  (load_holds hregs hi hat).mono (Nat.le_refl 1) fun _ _ h => h.1

theorem loads_computes {operands : List Operand} {code : List Instr} (h : Loads f operands code) :
    ∀ {t : JvmState}, Registered f.method vars t.registers → Placed b.code t.pc code →
      (jvmMachine (classPlatform f.owner host) b).Computes 0 t
        (readOperands (classPlatform f.owner host) vars operands) fun values t' =>
          values.length = operands.length ∧
            t' = { t with pc := t.pc + code.length, stack := values.reverse ++ t.stack } := by
  induction h with
  | nil => exact fun _ _ => .pure ⟨rfl, rfl⟩
  | cons hi _ ih =>
    intro t hregs hplaced
    rw [readOperands]
    refine ((load_computes hregs hi hplaced.head).mono (Nat.zero_le 1) fun _ _ h => h).bind
      fun v t' ht' => ?_
    subst ht'
    have hrest := @ih (t.next (v :: t.stack)) hregs hplaced.tail
    refine hrest.bind fun values t' ⟨hlength, ht'⟩ => .pure ⟨?_, ?_⟩
    · rw [List.length_cons, List.length_cons, hlength]
    · rw [ht', List.reverse_cons, List.append_assoc, List.length_cons]
      simp only [JvmState.next, List.singleton_append, JvmState.mk.injEq, and_true]
      omega

end Loads

end MiniJava.Semantics
