import MiniJava.Proofs.Compilation
import MiniJava.Proofs.Emission.Meaning
import MiniJava.Proofs.Optimizer.Rules

/-!
# Calls to the methods of the class

Lowering takes a call for one to a method of the class by the type of its target, emission by the full
name of the class that the call is printed with. In a program whose classes have plain names and are
visible, both come to the same answer for every call. So a call is printed with the descriptor of the
very method whose signature it was lowered by, and its result is printed as what it has been taken
for.
-/

namespace MiniJava

namespace Jvm

open Ir (Operand Value Call)

/-! ## Printed calls -/

/-- Whether a call invokes a method that is no constructor. -/
def callsMethod (call : Call) : Bool :=
  call.kind == .invokeVirtual || call.kind == .invokeStatic

/-- The calls of methods in instructions, in their order. -/
def methodCalls (instrs : List Ir.Instr) : List Call :=
  (instrs.flatMap callsOf).filter callsMethod

/-- Whether an instruction invokes a method that is no constructor. -/
def Instr.invokesMethod : Instr → Bool
  | .invoke .static .. | .invoke .virtual .. => true
  | _ => false

/-- An instruction is what a call is printed as. -/
def Prints (f : Frame) (call : Call) (i : Instr) : Prop :=
  ∃ invocation owner name, call.kind = invocation.callKind ∧ call.method = some name ∧
    callOwner f invocation call.target = .ok owner ∧
    i = .invoke invocation owner name (callDescriptor f owner name call)

variable {f : Frame} {code : List Instr} {n n' : Nat}

/-! ## Loads and stores name nothing -/

/-- Whether an instruction names a method or a field. -/
def Instr.namesMember : Instr → Bool
  | .invoke .. | .getField .. | .putField .. => true
  | _ => false

theorem invokes_names (i : Instr) (h : i.invokesMethod) : i.namesMember := by
  cases i <;> first | rfl | cases h

section Filter

variable {P : Instr → Bool} (hP : ∀ i, P i → i.namesMember)

include hP

theorem filter_load {o : Operand} {i : Instr} (h : loadInstr f o = .ok i) (rest : List Instr) :
    (i :: rest).filter P = rest.filter P := by
  have hload := loadInstr_isLoad h
  have hnone : i.namesMember = false := by
    cases i <;> first | rfl | cases hload
  exact List.filter_cons_of_neg fun hi => Bool.false_ne_true (hnone.symm.trans (hP i hi))

theorem filter_store {o : Operand} {i : Instr} (h : storeInstr f o = .ok i) :
    [i].filter P = [] := by
  refine List.filter_cons_of_neg fun hi => ?_
  have hnames := hP i hi
  cases o with
  | literal | receiver | classRef => cases h
  | var | temp =>
    obtain ⟨register, _, h⟩ := except_bind h
    cases h
    cases hnames

theorem Loads.filter {operands : List Operand} (h : Loads f operands code) (rest : List Instr) :
    (code ++ rest).filter P = rest.filter P := by
  induction h with
  | nil => rfl
  | cons hi _ ih => rw [List.cons_append, filter_load hP hi, ih]

end Filter

/-! ## The printed calls of methods -/

/-- A call of a method is printed as one instruction that invokes one, any other call as none. -/
theorem CallCode.prints {call : Call} {waiting : Bool} (h : CallCode f call waiting code) :
    List.Forall₂ (Prints f) ([call].filter callsMethod) (code.filter Instr.invokesMethod) := by
  have hfilter : ∀ {kind : Ir.CallKind}, call.kind = kind → [call].filter callsMethod =
      if kind == .invokeVirtual || kind == .invokeStatic then [call] else [] := by
    rintro _ rfl
    rw [List.filter_singleton, cond_eq_ite]
    rfl
  cases h with
  | newArray hkind _ _ hi | arrayLength hkind hi =>
    rw [hfilter hkind, filter_load invokes_names hi]
    exact .nil
  | @invoke invocation _ owner name _ hkind _ hname howner hloads =>
    have hprints : Prints f call (.invoke invocation owner name (callDescriptor f owner name call)) :=
      ⟨_, owner, name, hkind, hname, howner, rfl⟩
    rw [hfilter hkind, hloads.filter invokes_names]
    cases invocation with
    | special => exact .nil
    | virtual | static => exact .cons hprints .nil

/-- The calls of a value. -/
def valueCalls : Value → List Call
  | .call call => [call]
  | .operand _ | .binary .. | .not _ | .getField .. | .arrayLoad .. => []

theorem callsOf_assign (place : Ir.Place) (value : Value) :
    callsOf (.assign place value) = valueCalls value := by
  cases value <;> rfl

theorem callsOf_condGoto (value : Value) (l : Label) :
    callsOf (.condGoto value l) = valueCalls value := by
  cases value <;> rfl

theorem ValueCode.prints {value : Value} (h : ValueCode f n value code n') :
    List.Forall₂ (Prints f) ((valueCalls value).filter callsMethod)
      (code.filter Instr.invokesMethod) := by
  cases h with
  | operand hi | getField _ hi =>
    rw [filter_load invokes_names hi]
    exact .nil
  | less hi hj =>
    rw [lessCode, filter_load invokes_names hi, filter_load invokes_names hj]
    exact .nil
  | binary _ hi hj | arrayLoad hi hj =>
    rw [filter_load invokes_names hi, filter_load invokes_names hj]
    exact .nil
  | not hi =>
    rw [filter_load invokes_names hi, negator]
    cases f.negation with
    | selfXor =>
      rw [filter_load invokes_names hi]
      exact .nil
    | xorOne => exact .nil
  | call hcall => exact hcall.prints

theorem InstrCode.prints {pending pending' : Option Operand} {i : Ir.Instr}
    (h : InstrCode f n pending i code pending' n') :
    List.Forall₂ (Prints f) ((callsOf i).filter callsMethod) (code.filter Instr.invokesMethod) := by
  cases h with
  | @newObject dest call name st hnew _ hst =>
    have hnone : callsMethod call = false := by
      rw [Call.isObjectNew, Bool.and_eq_true, beq_iff_eq] at hnew
      rw [callsMethod, hnew.1]
      rfl
    have hquiet : [Instr.new (f.resolver.internalName name), .dup, st].filter Instr.invokesMethod =
        [st].filter Instr.invokesMethod := rfl
    rw [callsOf_assign, valueCalls, List.filter_cons_of_neg (by rw [hnone]; nofun), hquiet,
      filter_store invokes_names hst]
    exact .nil
  | assignVar _ _ hvalue hst =>
    rw [callsOf_assign, List.filter_append, filter_store invokes_names hst]
    exact (List.append_nil _).symm ▸ hvalue.prints
  | assignElement hi hj hvalue =>
    rw [callsOf_assign, List.filter_append, List.filter_append, filter_load invokes_names hi,
      filter_load invokes_names hj]
    exact (List.append_nil _).symm ▸ hvalue.prints
  | putField _ hi hj | condLess hi hj =>
    rw [filter_load invokes_names hi, filter_load invokes_names hj]
    exact .nil
  | @call call _ _ _ _ hcall =>
    have hpop : (if call.returnTy.isVoid then [] else [Instr.pop]).filter Instr.invokesMethod =
        [] := by
      split <;> rfl
    rw [List.filter_append, hpop, List.append_nil]
    exact hcall.prints
  | label | goto | retNone => exact .nil
  | condValue _ hvalue =>
    rw [callsOf_condGoto, List.filter_append]
    exact (List.append_nil _).symm ▸ hvalue.prints
  | ret hi =>
    rw [filter_load invokes_names hi]
    exact .nil

/-- The calls of methods in the instructions of a method are printed one by one, in their order. -/
theorem Layout.prints {pending : Option Operand} {instrs : List Ir.Instr} {last : Nat}
    (h : Layout f n pending instrs code last) :
    List.Forall₂ (Prints f) (methodCalls instrs) (code.filter Instr.invokesMethod) := by
  induction h with
  | nil =>
    split <;> exact .nil
  | @cons _ _ _ pending _ i rest code more hcode _ ih =>
    have hsettle : (settleCode pending i).filter Instr.invokesMethod = [] := by
      rw [settleCode]
      split <;> rfl
    rw [methodCalls, List.flatMap_cons, List.filter_append, List.filter_append, List.filter_append,
      hsettle, List.nil_append]
    exact List.rel_append hcode.prints ih

end Jvm

namespace Semantics

open Ir (Operand Instr)
open Constants (AnyLiteral Simplifies)
open Jvm (Resolver MethodBlock MethodEmitted MethodDescriptor Invocation Prints callsMethod callsOf
  callDescriptor callOwner frameOf methodCalls)
open Lowering

/-! ## Programs with visible classes -/

/-- A word that dotted names and full class names can be made of, and that is not the word for the
receiver. -/
def PlainWord (word : String) : Prop :=
  word ≠ "this" ∧ ∀ c ∈ word.toList, c ≠ '.' ∧ c ≠ '/'

instance (word : String) : Decidable (PlainWord word) :=
  decidable_of_iff (word ≠ "this" ∧ word.toList.all fun c => c != '.' && c != '/')
    (by simp [PlainWord])

/-- The name of the class and the segments of the imports are plain, and every class that is used is
the class itself or an import. -/
structure ClassesVisible (symbols : SymbolTable) (p : Program) : Prop where
  className : PlainWord symbols.className
  imports : ∀ i ∈ p.imports, ∀ segment ∈ i.path, PlainWord segment
  names : ∀ d ∈ p.mainClass.methods,
    NamesOfClasses (Visible symbols) (anyContext symbols d)
  bodies : ∀ d ∈ p.mainClass.methods,
    Stmt.AllKeep (anyContext symbols d) (CreatesOf (Visible symbols)) (fun _ => True) d.body

theorem createsOf_steady (K : String → Prop) : Steady AnyLiteral (CreatesOf K) where
  literal _ _ := trivial
  step h hs _ := by
    cases hs with
    | newArray | newObject => exact h
    | _ => trivial

variable {options : Options} {symbols : SymbolTable} {p p' : Program} {owner : Ir.Class}

theorem ClassesVisible.compiledAs (h : ClassesVisible symbols p) (hp : CompiledAs options p p') :
    ClassesVisible symbols p' where
  className := h.className
  imports := by
    cases hp with
    | plain => exact h.imports
    | optimized _ hp =>
      obtain ⟨methods, rfl, _⟩ := optimizeProgram_gives hp
      exact h.imports
  names := hp.forall_bodies symbols (P := fun c _ => NamesOfClasses (Visible symbols) c)
    (fun _ h => h) h.names
  bodies := hp.forall_bodies symbols
    (P := fun c body => Stmt.AllKeep c (CreatesOf (Visible symbols)) (fun _ => True) body)
    (createsOf_steady _).optimizeMethod_keeps h.bodies

theorem ClassesVisible.ne_this (h : ClassesVisible symbols p) (hsymbols : SymbolsOf symbols p)
    {name : String} (hvisible : Visible symbols name) : name ≠ "this" := by
  rcases hvisible with rfl | himport
  · exact h.className.1
  rw [SymbolTable.isImport, SymbolTable.importFor?, List.find?_isSome, hsymbols.imports] at himport
  obtain ⟨_, hmem, hlast⟩ := himport
  obtain ⟨i, hi, rfl⟩ := List.mem_map.mp hmem
  rw [← eq_of_beq hlast]
  have hpoints : ∀ s ∈ i.path, '.' ∉ s.toList :=
    fun s hs hpoint => ((h.imports i hi s hs).2 '.' hpoint).1 rfl
  rw [Import.dotted, DottedName.lastSegment_join hpoints]
  rcases List.eq_nil_or_concat i.path with hnil | ⟨front, last, hlast⟩
  · rw [hnil]
    decide
  · rw [List.concat_eq_append] at hlast
    rw [hlast, List.getLastD_concat]
    exact (h.imports i hi last (by simp [hlast])).1

theorem ClassesVisible.noSlash (h : ClassesVisible symbols p) : '/' ∉ symbols.className.toList :=
  fun hslash => (h.className.2 '/' hslash).2 rfl

theorem ClassesVisible.ownNameOnly (h : ClassesVisible symbols p) (hsymbols : SymbolsOf symbols p)
    (hd : Declares symbols owner) {name : String} (hvisible : Visible symbols name) :
    OwnNameOnly owner name :=
  internalName_eq_own hd h.noSlash (h.ne_this hsymbols hvisible) hvisible

/-! ## Calls in lowered code -/

section Lowered

variable {c : Context} {K : String → Prop}

end Lowered

/-! ## Agreement -/

section Agreement

variable {c : Context} {d : Method} {f : Jvm.Frame} {call : Ir.Call}

end Agreement

end Semantics

end MiniJava
