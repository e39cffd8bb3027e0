import Mathlib.Logic.Relation
import MiniJava.Proofs.Emission.Holdings
import MiniJava.Proofs.Emission.Legibility
import MiniJava.Proofs.Emission.Registers
import MiniJava.Proofs.Ir.Installation

/-!
# Registers and the limit of locals

A variable gets the next register when it is first entered and keeps it, with its type, whatever is
done to the method afterwards. So the registers in use are those below the number of variables. This
number is the limit of locals of an emitted method, and no load or store of a lowered method names a
register that is not below it.
-/

namespace MiniJava

namespace Ir

/-- A variable has a register, and a type there. -/
def VarTable.Binds (t : VarTable) (key : VarKey) (register : Nat) (ty : Ty) : Prop :=
  t.slot? key = some ⟨register, ty⟩

theorem VarTable.Binds.register? {t : VarTable} {key : VarKey} {register : Nat} {ty : Ty}
    (h : t.Binds key register ty) : t.register? key = some register :=
  VarTable.register?_eq_some.mpr ⟨ty, h⟩

theorem VarTable.mem_keys_iff_binds {t : VarTable} {key : VarKey} :
    key ∈ t.keys ↔ ∃ register ty, t.Binds key register ty := by
  rw [← VarTable.slot?_isSome, Option.isSome_iff_exists]
  exact ⟨fun ⟨⟨register, ty⟩, h⟩ => ⟨register, ty, h⟩, fun ⟨register, ty, h⟩ => ⟨_, h⟩⟩

/-! ## Methods in the making -/

namespace Method

/-- One step in the making of a method. A body that is installed may be refused. -/
inductive Step (m : Method) : Method → Prop
  | addParam (param : Variable) : Step m (m.addParam param)
  | addLocal (var : Variable) : Step m (m.addLocal var)
  | setBody (body : List Instr) : Step m (m.setBody body).2

/-- A method as it is after any number of further steps. -/
abbrev Later : Method → Method → Prop :=
  Relation.ReflTransGen Step

variable {m m' : Method}

theorem Step.vars_grown (h : m.Step m') : m.vars.slots <+: m'.vars.slots := by
  cases h with
  | addParam | addLocal => exact m.vars.bind_grown _ _
  | setBody body => exact setBody_grown rfl

theorem Later.vars_grown (h : m.Later m') : m.vars.slots <+: m'.vars.slots := by
  induction h with
  | refl => exact List.prefix_refl m.vars.slots
  | tail _ hstep ih => exact ih.trans hstep.vars_grown

/-- The slot that a parameter is passed in: each one takes up one, behind the receiver. -/
def callSlot (m : Method) (i : Nat) : Nat :=
  if m.isStatic then i else i + 1

/-- The variables of a method are numbered: different ones have different registers, the registers in
use are those below the number of variables, the counter of registers and the limit of locals are this
number, and a variable has its place among the variables for its register. -/
structure Numbered (m : Method) : Prop where
  nodup : m.vars.keys.Nodup
  bound : ∀ key, key ∈ m.vars.keys ↔ ∃ register ty, m.vars.Binds key register ty
  apart : ∀ key key' register ty ty', m.vars.Binds key register ty →
    m.vars.Binds key' register ty' → key = key'
  used : ∀ register, (∃ key ty, m.vars.Binds key register ty) ↔ register < m.vars.keys.length
  next : m.vars.next = m.vars.keys.length
  limit : m.localsLimit = m.vars.keys.length
  table : m.vars.zipIdx = m.vars.toList.zipIdx

theorem Reachable.numbered (h : m.Reachable) : m.Numbered where
  nodup := h.wellKept.sequential.nodup
  bound _ := VarTable.mem_keys_iff_binds
  apart _ _ _ _ _ hkey hkey' := h.wellKept.sequential.register_inj hkey.register? hkey'.register?
  used register := by
    rw [← h.wellKept.sequential.next_eq]
    exact h.wellKept.sequential.used_iff
  next := h.wellKept.sequential.next_eq
  limit := h.wellKept.sequential.localsLimit_eq
  table := h.wellKept.sequential.zipIdx_eq

end Method

end Ir

namespace Jvm

open Ir (Operand Value Call)
open Semantics (occurrences)

/-! ## Registers that instructions name -/

/-- The register that an instruction loads or stores. -/
def Instr.register? : Instr → Option Nat
  | .load _ register | .store _ register => some register
  | _ => none

/-- An instruction names the register of one of some operands, or none. That of the receiver is the
first one. -/
def Names (f : Frame) (os : List Operand) (i : Instr) : Prop :=
  ∀ register, i.register? = some register → ∃ o ∈ os,
    f.method.register? o = some register ∨ (∃ name, o = .receiver name) ∧ register = 0

variable {f : Frame} {os os' : List Operand} {i : Instr} {code : List Instr}

theorem Names.mono (h : Names f os i) (hsub : os ⊆ os') : Names f os' i := by
  intro register hi
  obtain ⟨o, ho, hregister⟩ := h register hi
  exact ⟨o, hsub ho, hregister⟩

theorem names_other (hi : i.register? = none) : Names f os i := by
  intro register h
  rw [hi] at h
  cases h

theorem names_load {o : Operand} (ho : o ∈ os) (h : loadInstr f o = .ok i) : Names f os i := by
  cases o with
  | literal value =>
    cases h
    exact names_other rfl
  | receiver name =>
    cases h
    rintro register ⟨⟩
    exact ⟨_, ho, .inr ⟨⟨name, rfl⟩, rfl⟩⟩
  | classRef name => cases h
  | var name ty | temp id ty =>
    obtain ⟨r, hr, h⟩ := except_bind h
    cases h
    rintro register ⟨⟩
    exact ⟨_, ho, .inl (registerOf_eq_ok hr)⟩

theorem names_store {o : Operand} (ho : o ∈ os) (h : storeInstr f o = .ok i) : Names f os i := by
  cases o with
  | literal | receiver | classRef => cases h
  | var name ty | temp id ty =>
    obtain ⟨r, hr, h⟩ := except_bind h
    cases h
    rintro register ⟨⟩
    exact ⟨_, ho, .inl (registerOf_eq_ok hr)⟩

theorem Loads.names (h : Loads f os code) (hsub : os ⊆ os') : ∀ i ∈ code, Names f os' i := by
  induction h with
  | nil => exact List.forall_mem_nil _
  | cons hi _ ih =>
    rw [List.cons_subset] at hsub
    exact List.forall_mem_cons.mpr ⟨names_load hsub.1 hi, ih hsub.2⟩

theorem CallCode.names {call : Call} {waiting : Bool} (h : CallCode f call waiting code) :
    ∀ i ∈ code, Names f call.operands i := by
  cases h with
  | newArray _ _ hsize hi =>
    have hmem := List.mem_cons_of_mem call.target (List.mem_of_head? hsize)
    simp only [List.forall_mem_cons]
    exact ⟨names_load hmem hi, names_other rfl, List.forall_mem_nil _⟩
  | arrayLength _ hi =>
    simp only [List.forall_mem_cons]
    exact ⟨names_load List.mem_cons_self hi, names_other rfl, List.forall_mem_nil _⟩
  | @invoke invocation _ owner name _ _ _ _ _ hloads =>
    refine List.forall_mem_append.mpr ⟨hloads.names ?_,
      List.forall_mem_singleton.mpr (names_other rfl)⟩
    rw [pushedOperands]
    split
    · exact List.subset_cons_self _ _
    · exact List.Subset.refl _

theorem ValueCode.names {n n' : Nat} {value : Value} (h : ValueCode f n value code n') :
    ∀ i ∈ code, Names f value.operands i := by
  have hsecond : ∀ {a b : Operand}, b ∈ [a, b] :=
    List.mem_cons_of_mem _ List.mem_cons_self
  cases h with
  | operand hi => exact List.forall_mem_singleton.mpr (names_load List.mem_cons_self hi)
  | less hi hj =>
    simp only [lessCode, List.forall_mem_cons]
    exact ⟨names_load List.mem_cons_self hi, names_load hsecond hj, names_other rfl, names_other rfl,
      names_other rfl, names_other rfl, names_other rfl, names_other rfl, List.forall_mem_nil _⟩
  | binary _ hi hj | arrayLoad hi hj =>
    simp only [List.forall_mem_cons]
    exact ⟨names_load List.mem_cons_self hi, names_load hsecond hj, names_other rfl,
      List.forall_mem_nil _⟩
  | @not o i hi =>
    have hnegator : Names f [o] (negator f i) := by
      rw [negator]
      cases f.negation with
      | selfXor => exact names_load List.mem_cons_self hi
      | xorOne => exact names_other rfl
    simp only [List.forall_mem_cons]
    exact ⟨names_load List.mem_cons_self hi, hnegator, names_other rfl, List.forall_mem_nil _⟩
  | getField _ hi =>
    simp only [List.forall_mem_cons]
    exact ⟨names_load List.mem_cons_self hi, names_other rfl, List.forall_mem_nil _⟩
  | call hcall => exact hcall.names

theorem InstrCode.names {n n' : Nat} {pending pending' : Option Operand} {i : Ir.Instr}
    (h : InstrCode f n pending i code pending' n') : ∀ j ∈ code, Names f (occurrences i) j := by
  have hsecond : ∀ {a b : Operand}, b ∈ [a, b] :=
    List.mem_cons_of_mem _ List.mem_cons_self
  cases h with
  | newObject _ _ hst =>
    simp only [List.forall_mem_cons]
    exact ⟨names_other rfl, names_other rfl, names_store List.mem_cons_self hst,
      List.forall_mem_nil _⟩
  | assignVar _ _ hvalue hst =>
    exact List.forall_mem_append.mpr
      ⟨fun j hj => (hvalue.names j hj).mono (List.subset_cons_self _ _),
        List.forall_mem_singleton.mpr (names_store List.mem_cons_self hst)⟩
  | @assignElement array index ty value _ _ _ _ hi hj hvalue =>
    have hplace : [array, index] ⊆ occurrences (.assign (.element array index ty) value) :=
      List.subset_append_right _ _
    simp only [List.forall_mem_append, List.forall_mem_cons]
    exact ⟨⟨⟨names_load (hplace List.mem_cons_self) hi, names_load (hplace hsecond) hj,
      List.forall_mem_nil _⟩, fun j hj => (hvalue.names j hj).mono (List.subset_append_left _ _)⟩,
      names_other rfl, List.forall_mem_nil _⟩
  | putField _ hi hj | condLess hi hj =>
    simp only [List.forall_mem_cons]
    exact ⟨names_load List.mem_cons_self hi, names_load hsecond hj, names_other rfl,
      List.forall_mem_nil _⟩
  | call _ _ hcall =>
    refine List.forall_mem_append.mpr ⟨hcall.names, ?_⟩
    split
    · exact List.forall_mem_nil _
    · exact List.forall_mem_singleton.mpr (names_other rfl)
  | label | goto | retNone => exact List.forall_mem_singleton.mpr (names_other rfl)
  | condValue _ hvalue =>
    exact List.forall_mem_append.mpr ⟨hvalue.names,
      List.forall_mem_singleton.mpr (names_other rfl)⟩
  | ret hi =>
    simp only [List.forall_mem_cons]
    exact ⟨names_load List.mem_cons_self hi, names_other rfl, List.forall_mem_nil _⟩

theorem Layout.names {n last : Nat} {pending : Option Operand} {instrs : List Ir.Instr}
    (h : Layout f n pending instrs code last) :
    ∀ j ∈ code, Names f (instrs.flatMap occurrences) j := by
  induction h with
  | nil =>
    split
    · exact List.forall_mem_singleton.mpr (names_other rfl)
    · exact List.forall_mem_nil _
  | @cons _ _ _ pending _ i rest _ _ hcode _ ih =>
    rw [List.flatMap_cons]
    simp only [List.forall_mem_append]
    refine ⟨⟨?_, fun j hj => (hcode.names j hj).mono (List.subset_append_left _ _)⟩,
      fun j hj => (ih j hj).mono (List.subset_append_right _ _)⟩
    rw [settleCode]
    split
    · exact List.forall_mem_nil _
    · exact List.forall_mem_singleton.mpr (names_other rfl)

end Jvm

namespace Lowering

open Semantics (CallsLegible Held NamesLegible anyContext defsOf lowerBody_code lowerBody_dest
  lowered_readMethods occurrences)

/-! ## Lowered methods -/

variable {symbols : SymbolTable} {d : Method} {k k' : Counters} {ir : Ir.Method}

theorem lowerMethod_receiver (hinstance : d.isStatic = false)
    (h : Gives (lowerMethod symbols d) k ir k') :
    ir.vars.Binds .receiver 0 (.object symbols.className) := by
  have hframe : (Ir.VarTable.bind {} .receiver (.object symbols.className)).slots <+: ir.vars.slots := by
    refine .trans ?_ (lowerMethod_frame h)
    rw [frame_vars_bind, declaredRegisters, firstRegisters, hinstance]
    exact Ir.VarTable.bindAll_grown _ _
  exact Ir.VarTable.slot?_grown hframe rfl

theorem lowerMethod_params (hparams : (ir.params.map (·.name)).Nodup)
    (h : Gives (lowerMethod symbols d) k ir k') {i : Nat} {p : Variable}
    (hp : ir.params[i]? = some p) : ir.vars.Binds (.named p.name) (ir.callSlot i) p.ty := by
  have hlowered := lowerMethod_gives h
  rw [hlowered.params, List.map_map] at hparams
  rw [hlowered.params, List.getElem?_map, Option.map_eq_some_iff] at hp
  obtain ⟨p', hp', rfl⟩ := hp
  refine (lowerMethod_reachable h).wellKept.sequential.slot?_of_front
    (lowerMethod_vars hparams h) ?_
  rw [Ir.Method.callSlot, hlowered.isStatic, firstRegisters]
  cases d.isStatic with
  | true => simp [hp']
  | false => simp [hp']

/-- What occurs in a lowered method as the receiver does so in an instance method. -/
theorem receiver_occurs (h : Gives (lowerMethod symbols d) k ir k') {name : String}
    (ho : .receiver name ∈ ir.instructions.flatMap occurrences) : d.isStatic = false := by
  have hbody := (lowerMethod_gives h).body
  obtain ⟨i, hi, ho⟩ := List.mem_flatMap.mp ho
  have hheld : Held (anyContext symbols d) (defsOf ir.instructions)
      (.receiver name) := by
    by_cases hused : .receiver name ∈ i.usedOperands
    · exact (lowerBody_code hbody).reads_held hi hused
    · obtain ⟨value, hassign⟩ := Jvm.assigned_of_unread ho hused
      exact lowerBody_dest hbody i hi _ value hassign
  exact hheld.2

/-- Every register that the code of a lowered method names is below the limit of locals. -/
theorem register_lt_localsLimit (h : Gives (lowerMethod symbols d) k ir k') {options : Options}
    {owner : Ir.Class} {n : Nat} {block : Jvm.MethodBlock} {s : Jvm.Emitted}
    (hblock : Jvm.MethodEmitted options owner ir n block s) {i : Jvm.Instr} (hi : i ∈ block.code)
    {register : Nat} (hregister : i.register? = some register) : register < block.localsLimit := by
  have hnumbered := (lowerMethod_reachable h).numbered
  rw [hblock.localsLimit, hnumbered.limit, ← hnumbered.used]
  obtain ⟨o, ho, hfound | ⟨⟨name, rfl⟩, rfl⟩⟩ := hblock.layout.names i hi register hregister
  · obtain ⟨key, _, hkey⟩ := Option.bind_eq_some_iff.mp hfound
    exact ⟨key, Ir.VarTable.register?_eq_some.mp hkey⟩
  · exact ⟨_, _, lowerMethod_receiver (receiver_occurs h ho) h⟩

/-- Registers are unique, stable and sufficient. However a method was made, refused bodies included,
its variables are numbered, and each one keeps its register and its type through all later steps. A
lowered method was made in this way; parameters of different names have the registers that they are
passed in, and the limit of locals covers each register that is loaded or stored in its emitted code,
which the text is read as. -/
theorem registers_numbered_kept_covered :
    (∀ m : Ir.Method, m.Reachable → m.Numbered ∧
      ∀ m', m.Later m' → ∀ key register ty, m.vars.Binds key register ty →
        m'.vars.Binds key register ty) ∧
    ∀ (symbols : SymbolTable) (d : Method) (k k' : Counters) (ir : Ir.Method),
      Gives (lowerMethod symbols d) k ir k' → ir.Reachable ∧
        ((ir.params.map (·.name)).Nodup → ∀ i p, ir.params[i]? = some p →
          ir.vars.Binds (.named p.name) (ir.callSlot i) p.ty) ∧
        ∀ (options : Options) (owner : Ir.Class) (n n' : Nat) (block : Jvm.MethodBlock),
          Gives (Jvm.assembleMethod options owner ir) n block n' →
            (∀ i ∈ block.code, ∀ register, i.register? = some register →
              register < block.localsLimit) ∧
            (NamesLegible symbols d → (Jvm.Resolver.ofClass owner).Legible →
              Jvm.readMethods block.text = some [block]) := by
  refine ⟨fun m hm => ⟨hm.numbered, fun m' hlater key register ty => ?_⟩,
    fun symbols d k k' ir h => ⟨lowerMethod_reachable h,
      fun hparams i p => lowerMethod_params hparams h, fun options owner n n' block hblock => ?_⟩⟩
  · exact Ir.VarTable.slot?_grown hlater.vars_grown
  · obtain ⟨s, hemitted, _⟩ := Jvm.assembleMethod_gives hblock
    exact ⟨fun i hi register => register_lt_localsLimit h hemitted hi,
      fun hnames howner => lowered_readMethods hnames h howner hemitted⟩

/-- An instance method with a local that hides its first parameter. It returns its receiver. -/
def hidesParam : Method :=
  { name := "f", returnTy := .object "A", params := [⟨"a", .int, false⟩, ⟨"b", .boolean, false⟩]
    locals := [⟨"a", .int⟩]
    body := [.assign "a" (.binary .add (.var "a") (.literal (.int 1))), .ret (some .self)] }

/-- What it is lowered to. The local shares the register of the parameter. -/
def hidesParamLowered : Ir.Method :=
  { name := "f", isStatic := false, params := [⟨"a", .int⟩, ⟨"b", .boolean⟩], returnTy := .object "A"
    locals := [⟨"a", .int⟩]
    vars := .ofList [(.receiver, .object "A"), (.named "a", .int), (.named "b", .boolean), (.temp 0, .int)]
    instructions := [.assignVar (.temp 0 .int) (.binary .add (.var "a" .int) (.int 1)),
      .assignVar (.var "a" .int) (.operand (.temp 0 .int)), .ret (some (.receiver "A"))] }

theorem registers_numbered_kept_covered_hidesParam :
    let symbols : SymbolTable :=
      { className := "A", superclass := none, imports := [], fields := []
        methods := [.ofMethod hidesParam] }
    let loops := (Ir.Method.onceRefused.setBody Ir.Method.loopOnTemps).2
    Ir.Method.onceRefused.Reachable ∧ Ir.Method.onceRefused.Numbered ∧
      Ir.Method.onceRefused.Later loops ∧ loops.vars.Binds (.temp 3) 2 .int ∧
      Gives (lowerMethod symbols hidesParam) {} hidesParamLowered ⟨1, 0⟩ ∧
      hidesParamLowered.vars.Binds (.named "b") 2 .boolean ∧
      ∃ block n', Gives (Jvm.assembleMethod {} { name := "A" } hidesParamLowered) 0 block n' ∧
        .load .reference 0 ∈ block.code ∧ block.localsLimit = 4 ∧
        (∀ i ∈ block.code, ∀ register, i.register? = some register → register < block.localsLimit) ∧
        Jvm.readMethods block.text = some [block] := by
  intro symbols loops
  have hreachable : Ir.Method.onceRefused.Reachable :=
    .setBody (.addParam (.new "f" "A" false .int .everyone false) _) _
  have hlater : Ir.Method.onceRefused.Later loops := .single (.setBody _)
  obtain ⟨hnumbered, hkept⟩ := registers_numbered_kept_covered.1 _ hreachable
  have hlowered : Gives (lowerMethod symbols hidesParam) {} hidesParamLowered ⟨1, 0⟩ := rfl
  have hemitted : Gives (Jvm.assembleMethod {} { name := "A" } hidesParamLowered) 0 _ _ := rfl
  obtain ⟨_, hparams, hcovered⟩ := registers_numbered_kept_covered.2 _ _ _ _ _ hlowered
  have hnames : NamesLegible symbols hidesParam := by
    refine ⟨by decide, List.forall_mem_nil _, ?_⟩
    simp [hidesParam, Semantics.Stmt.AllKeep, Semantics.Stmt.Keeps, Semantics.Expr.Keeps, CallsLegible]
  obtain ⟨hlimit, hread⟩ := hcovered _ _ _ _ _ hemitted
  exact ⟨hreachable, hnumbered, hlater, hkept _ hlater _ _ _ rfl, hlowered,
    hparams (by decide) 1 ⟨"b", .boolean⟩ rfl, _, _, hemitted, by decide, rfl, hlimit,
    hread hnames ⟨by decide, List.forall_mem_nil _⟩⟩

end Lowering

end MiniJava
