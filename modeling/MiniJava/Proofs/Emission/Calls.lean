import MiniJava.Proofs.DottedNames
import MiniJava.Proofs.Emission.Layout
import MiniJava.Proofs.Lowering.Bodies
import MiniJava.Proofs.Lowering.Modules

/-!
# The calls of lowered methods

A call is emitted with the descriptor of the method that the class declares, or with one made of the
types of its operands. Which of the two it is goes by the full name of a class. Where the names of a
program are plain and its classes are known, the full name of another class is never that of the
class itself, so both descriptors tell what the call does to the stack.
-/

namespace MiniJava

namespace Semantics

open Jvm (Resolver Descriptor CallFits Invocation)
open Ir (Operand Instr)
open Lowering

variable {symbols : SymbolTable} {owner : Ir.Class}

/-- A class of the intermediate code declares what a symbol table has. -/
structure Declares (symbols : SymbolTable) (owner : Ir.Class) : Prop where
  name : owner.name = symbols.className
  imports : owner.imports = symbols.imports
  method : ∀ ⦃name m⦄, owner.method? name = some m → ∃ s, symbols.method? name = some s ∧
    m.returnTy = s.returnTy ∧ m.params.map (·.ty) = s.params.map (·.ty)

theorem PlainName.noSlash {name : String} (h : PlainName name) : '/' ∉ name.toList :=
  fun hmem => (h.2 _ hmem).2.1 rfl

/-- A class that is named is the class itself or an import. -/
def Visible (symbols : SymbolTable) (name : String) : Prop :=
  name = symbols.className ∨ symbols.isImport name

instance (symbols : SymbolTable) (name : String) : Decidable (Visible symbols name) :=
  inferInstanceAs (Decidable (_ ∨ _))

/-- The full name of a class that is visible is the name of the class itself only for the class
itself, if this name has no slash. -/
theorem internalName_eq_own (hd : Declares symbols owner) (hslash : '/' ∉ symbols.className.toList)
    {name : String} (hthis : name ≠ "this") (hvisible : Visible symbols name)
    (h : (Resolver.ofClass owner).internalName name = owner.name) : name = owner.name := by
  by_cases hself : name = owner.name
  · exact hself
  have hother : ¬ (name = "this" ∨ name = (Resolver.ofClass owner).className) :=
    not_or.mpr ⟨hthis, hself⟩
  rw [Resolver.internalName, if_neg hother] at h
  rw [hd.name] at hself
  have himport := hvisible.resolve_left hself
  rw [SymbolTable.isImport, SymbolTable.importFor?, List.find?_isSome] at himport
  obtain ⟨i, hmem, hlast⟩ := himport
  have hsome : (owner.imports.find? (DottedName.endsWith · name)).isSome := by
    rw [List.find?_isSome, hd.imports]
    exact ⟨i, hmem, eq_of_beq hlast ▸ DottedName.endsWith_lastSegment i⟩
  obtain ⟨j, hj⟩ := Option.isSome_iff_exists.mp hsome
  have himported : (Resolver.ofClass owner).imported? name = some (DottedName.slashed j) := by
    rw [Resolver.imported?]
    exact congrArg (Option.map DottedName.slashed) hj
  rw [himported, Option.getD_some, hd.name] at h
  obtain ⟨rfl, hpoint⟩ := DottedName.slashed_eq h hslash
  have hends := List.find?_some hj
  rw [DottedName.endsWith, Bool.or_eq_true] at hends
  rcases hends with heq | hsuffix
  · exact absurd (eq_of_beq heq).symm hself
  · exact absurd ((List.isSuffixOf_iff_suffix.mp hsuffix).mem List.mem_cons_self) hpoint

/-- The classes that have the full name of a class only if they are the class itself. -/
def OwnNameOnly (owner : Ir.Class) (name : String) : Prop :=
  (Resolver.ofClass owner).internalName name = owner.name → name = owner.name

theorem Known.ownNameOnly (hd : Declares symbols owner) (hplain : PlainName symbols.className)
    {name : String} (h : Known symbols name) : OwnNameOnly owner name :=
  internalName_eq_own hd hplain.noSlash h.1.1 h.2

/-! ## Calls -/

section Fits

variable {f : Jvm.Frame} {call : Ir.Call}

/-- The method that a call goes to, if the class declares it. -/
def ownMethod? (owner : Ir.Class) (call : Ir.Call) : Option Ir.Method :=
  if call.target.ty = .object owner.name then call.method.bind owner.method? else none

theorem ownMethod?_eq_some {m : Ir.Method} : ownMethod? f.owner call = some m ↔
    call.target.ty = .object f.owner.name ∧
      ∃ name, call.method = some name ∧ f.owner.method? name = some m := by
  rw [ownMethod?, Option.ite_none_right_eq_some, Option.bind_eq_some_iff]

theorem descriptor_eq_void {r : Resolver} {ty : Ty} : r.descriptor ty = .void ↔ ty.isVoid := by
  cases ty <;> simp [Resolver.descriptor, Ty.isVoid]

theorem callOwner_eq_own {invocation : Invocation} (hslash : '/' ∉ f.owner.name.toList)
    (htarget : OfClasses (OwnNameOnly f.owner) call.target.ty)
    (h : Jvm.callOwner f invocation call.target = .ok f.owner.name) :
    call.target.ty = .object f.owner.name := by
  unfold Jvm.callOwner at h
  split at h
  · rename_i name htarget'
    rw [htarget'] at htarget ⊢
    exact congrArg Ty.object (htarget (Except.ok.inj h))
  · unfold Jvm.ownerOf at h
    split at h
    · rename_i name hty
      rw [hty] at htarget ⊢
      exact congrArg Ty.object (htarget (Except.ok.inj h))
    · have hstring : '/' ∈ Jvm.stringClass.toList := by decide
      rw [Except.ok.inj h] at hstring
      exact absurd hstring hslash
    all_goals cases h

theorem callOwner_own (hd : Declares symbols f.owner) (hplain : PlainName symbols.className)
    {invocation : Invocation} (htarget : KnownTy symbols call.target.ty)
    (h : Jvm.callOwner f invocation call.target = .ok f.owner.name) :
    call.target.ty = .object f.owner.name :=
  callOwner_eq_own (hd.name ▸ hplain.noSlash)
    ((ofClasses_known.mpr htarget).mono fun _ => Known.ownNameOnly hd hplain) h

theorem callFits_of_own (hd : Declares symbols f.owner) (hplain : PlainName symbols.className)
    (htarget : KnownTy symbols call.target.ty)
    (hown : ∀ m, ownMethod? f.owner call = some m →
      call.args.length = m.params.length ∧ call.returnTy = m.returnTy)
    (hlength : call.kind ≠ .arrayLength) : CallFits f call where
  length hkind := absurd hkind hlength
  invoke invocation cls name hkind hname howner := by
    rw [Jvm.callDescriptor]
    split
    · rename_i m hdeclared
      split at hdeclared
      · rename_i hcls
        subst hcls
        obtain ⟨hargs, hreturn⟩ :=
          hown m (ownMethod?_eq_some.mpr
            ⟨callOwner_own hd hplain htarget howner, name, hname, hdeclared⟩)
        rw [hargs, hreturn, Resolver.methodDescriptor, List.length_map, List.length_map]
        exact ⟨rfl, descriptor_eq_void⟩
      · cases hdeclared
    · rw [Resolver.methodDescriptor, List.length_map, List.length_map]
      exact ⟨rfl, descriptor_eq_void⟩

theorem callFits_of_kind (hkind : ∀ invocation : Invocation, call.kind ≠ invocation.callKind)
    (hvoid : ¬ call.returnTy.isVoid) : CallFits f call where
  length _ := hvoid
  invoke invocation _ _ h := absurd h (hkind invocation)

theorem newArray_fits (element : Ty) (size : Operand) : CallFits f (.newArray element size) :=
  callFits_of_kind (fun invocation => by cases invocation <;> nofun) nofun

theorem newObject_fits (name : String) : CallFits f (.newObject name) :=
  callFits_of_kind (fun invocation => by cases invocation <;> nofun) nofun

theorem arrayLength_fits (array : Operand) : CallFits f (.arrayLength array) :=
  callFits_of_kind (fun invocation => by cases invocation <;> nofun) nofun

theorem method?_name {name : String} {s : Signature} (h : symbols.method? name = some s) :
    s.name = name :=
  eq_of_beq (List.find?_eq_some_iff_append.mp h).1

theorem no_constructor (hd : Declares symbols f.owner) (hall : KnownTable symbols) {m : Ir.Method} :
    f.owner.method? "<init>" ≠ some m := by
  intro hm
  obtain ⟨s, hs, _⟩ := hd.method hm
  have hplain := (hall.methods s (List.mem_of_find?_eq_some hs)).name
  rw [method?_name hs] at hplain
  exact absurd rfl (hplain.2 '<' (by decide)).2.2

theorem constructor_fits (hd : Declares symbols f.owner) (hall : KnownTable symbols)
    {object : Operand} (htarget : KnownTy symbols object.ty) : CallFits f (.constructor object) := by
  refine callFits_of_own hd hall.className htarget (fun m hown => ?_) nofun
  obtain ⟨_, name, hname, hm⟩ := ownMethod?_eq_some.mp hown
  cases hname
  exact absurd hm (no_constructor hd hall)

end Fits

/-! ## The calls of the source -/

section Source

variable {c : Context} {f : Jvm.Frame}

theorem classTarget_visible {target : Expr} {name : String} (h : c.classTarget? target = some name) :
    Visible c.symbols name := by
  unfold Context.classTarget? at h
  split at h
  · split at h
    · rename_i hmeaning
      cases h
      unfold Context.meaning at hmeaning
      split at hmeaning
      all_goals try cases hmeaning
      split at hmeaning
      · rename_i hclass
        rw [Bool.or_eq_true] at hclass
        exact hclass.symm.imp eq_of_beq id
      · cases hmeaning
    · cases h
  · cases h

theorem IsTarget.known (hall : KnownTable c.symbols) (hmethod : KnownSignature c.symbols c.method)
    {p : Rule} (hp : ∀ hint e, p hint e → Named c hint e) {target : Expr} {o : Operand}
    (h : IsTarget c target o) (hplain : ∀ name, c.classTarget? target = some name → PlainName name)
    (hkeeps : c.classTarget? target = none → Expr.Keeps c p none target) :
    KnownTy c.symbols o.ty := by
  cases h with
  | ofClass h => exact ⟨hplain _ h, classTarget_visible h⟩
  | ofOperand h hty ho => exact typeOf_known hall hmethod hp target none (by simp) (hkeeps h) _ hty

theorem IsTarget.signature {target : Expr} {o : Operand} (h : IsTarget c target o)
    (hown : o.ty = .object c.symbols.className) (method : String) :
    c.signature? target (typeOf c none target) method = c.symbols.method? method := by
  cases h with
  | @ofClass name h =>
    cases hown
    rw [Context.signature?, h]
    exact if_pos (beq_self_eq_true _)
  | ofOperand h hty ho =>
    rw [Context.signature?, h, hty, hown]
    exact if_pos (beq_self_eq_true _)

/-- A call to a method that the class declares passes as many operands as the method has
parameters. -/
def PassesAll (owner : Ir.Class) (call : Ir.Call) : Prop :=
  ∀ m ∈ ownMethod? owner call, call.args.length = m.params.length

instance (owner : Ir.Class) (call : Ir.Call) : Decidable (PassesAll owner call) :=
  inferInstanceAs (Decidable (∀ m ∈ ownMethod? owner call, _))

theorem IsCall.fits (hd : Declares c.symbols f.owner) (hall : KnownTable c.symbols)
    {hint : Option Ty} {discard : Bool} {target : Expr} {method : String} {args : List Expr}
    {call : Ir.Call} (h : IsCall c hint discard target method args call)
    (htarget : KnownTy c.symbols call.target.ty) (hargs : PassesAll f.owner call) :
    CallFits f call := by
  refine callFits_of_own hd hall.className htarget (fun m hown => ⟨hargs m hown, ?_⟩) ?_
  · obtain ⟨hon, name, hname, hm⟩ := ownMethod?_eq_some.mp hown
    obtain ⟨s, hs, hreturn, _⟩ := hd.method hm
    rw [h.name] at hname
    cases hname
    rw [hd.name] at hon
    rw [h.returnTy, h.on.signature hon, hs, hreturn]
    rfl
  · rw [h.kind]
    cases call.target <;> nofun

end Source

/-! ## Instructions -/

section Instructions

variable {c : Context} {f : Jvm.Frame} {p : Rule}

theorem sound_of_calls {i : Instr} (hcalls : ∀ call ∈ Jvm.callsOf i, CallFits f call)
    (hlabel : i.definedLabel? = none) (htarget : i.jumpTarget? = none)
    (helement : ∀ array index ty value, i ≠ .assign (.element array index ty) value) :
    Jvm.Sound f i where
  calls := hcalls
  defined l hl := by
    rw [hlabel] at hl
    cases hl
  target l hl := by
    rw [htarget] at hl
    cases hl
  element array index ty value h := absurd h (helement array index ty value)
  branch call l h := by
    subst h
    cases htarget

theorem sound_compute {dest : Operand} {value : Ir.Value} (h : ∀ call, value ≠ .call call) :
    Jvm.Sound f (.assignVar dest value) := by
  refine sound_of_calls (fun call hcall => ?_) rfl rfl fun _ _ _ _ h => nomatch h
  cases value with
  | call call' => exact absurd rfl (h call')
  | operand | binary | not | getField | arrayLoad => cases hcall

theorem sound_assignCall {dest : Operand} {call : Ir.Call} (h : CallFits f call) :
    Jvm.Sound f (.assignVar dest (.call call)) :=
  sound_of_calls (List.forall_mem_singleton.mpr h) rfl rfl fun _ _ _ _ h => nomatch h

theorem sound_call {call : Ir.Call} (h : CallFits f call) : Jvm.Sound f (.call call) :=
  sound_of_calls (List.forall_mem_singleton.mpr h) rfl rfl fun _ _ _ _ h => nomatch h

theorem sound_element {array index o : Operand} {ty : Ty} :
    Jvm.Sound f (.assign (.element array index ty) (.operand o)) where
  calls _ h := nomatch h
  defined _ h := nomatch h
  target _ h := nomatch h
  element _ _ _ value h := by
    cases h
    exact ⟨o, rfl⟩
  branch _ _ h := nomatch h

theorem sound_branch {value : Ir.Value} {l : Label} (hl : Jvm.PlainLabel l)
    (h : ∀ call, value ≠ .call call) : Jvm.Sound f (.condGoto value l) where
  calls call hcall := by
    cases value with
    | call call' => exact absurd rfl (h call')
    | operand | binary | not | getField | arrayLoad => cases hcall
  defined _ h := nomatch h
  target := by
    rintro _ ⟨⟩
    exact hl
  element _ _ _ _ h := nomatch h
  branch call l' heq := by
    cases heq
    exact h call rfl

theorem sound_label {role : LabelRole} {n : Nat} (htrue : role ≠ .compareTrue)
    (hend : role ≠ .compareEnd) : Jvm.Sound f (.label (.numbered role n)) ∧
      Jvm.Sound f (.goto (.numbered role n)) := by
  have hl : Jvm.PlainLabel (.numbered role n) := by
    cases role with
    | compareTrue => exact htrue rfl
    | compareEnd => exact hend rfl
    | _ => trivial
  constructor
  · exact {
      calls := fun _ h => nomatch h
      defined := by
        rintro _ ⟨⟩
        exact hl
      target := fun _ h => nomatch h
      element := fun _ _ _ _ h => nomatch h
      branch := fun _ _ h => nomatch h }
  · exact {
      calls := fun _ h => nomatch h
      defined := fun _ h => nomatch h
      target := by
        rintro _ ⟨⟩
        exact hl
      element := fun _ _ _ _ h => nomatch h
      branch := fun _ _ h => nomatch h }

theorem NodeInstr.sound (hd : Declares c.symbols f.owner) (hall : KnownTable c.symbols)
    (hmethod : KnownSignature c.symbols c.method) (hp : ∀ hint e, p hint e → Named c hint e)
    {hint : Option Ty} {e : Expr} {i : Instr} (hkeeps : Expr.Keeps c p hint e)
    (h : NodeInstr c hint e i) (hargs : ∀ call ∈ Jvm.callsOf i, PassesAll f.owner call) :
    Jvm.Sound f i := by
  have hcall : ∀ {hint : Option Ty} {target : Expr} {method : String} {args : List Expr}
      {call : Ir.Call}, Expr.Keeps c p hint (.call target method args) →
      IsCall c hint false target method args call → PassesAll f.owner call → CallFits f call := by
    intro hint target method args call hkeeps h hargs
    have hnamed := hp _ _ hkeeps.self
    rw [Expr.Keeps] at hkeeps
    exact h.fits hd hall (h.on.known hall hmethod hp hnamed.2 hkeeps.2.1) hargs
  cases h with
  | test hop hx hl =>
    obtain ⟨n, rfl | rfl⟩ := hl
    · exact sound_branch trivial fun _ h => nomatch h
    · exact sound_branch trivial fun _ h => nomatch h
  | newArray hx => exact sound_assignCall (newArray_fits _ _)
  | literalArray hx => exact sound_assignCall (newArray_fits _ _)
  | length hx helement => exact sound_assignCall (arrayLength_fits _)
  | newObject => exact sound_assignCall (newObject_fits _)
  | construct => exact sound_call (constructor_fits hd hall (hp _ _ hkeeps.self))
  | packed h =>
    cases h with
    | allocate h => exact sound_assignCall (newArray_fits _ _)
    | item h hvalue => exact sound_element
  | call h hvoid => exact sound_assignCall (hcall hkeeps h (hargs _ List.mem_cons_self))
  | callVoid h hvoid => exact sound_call (hcall hkeeps h (hargs _ List.mem_cons_self))
  | item h he hx => exact sound_element
  | field | strict | decided | undecided | not | index => exact sound_compute fun _ h => nomatch h

theorem StmtInstr.sound (hd : Declares c.symbols f.owner) (hall : KnownTable c.symbols)
    (hmethod : KnownSignature c.symbols c.method) (hp : ∀ hint e, p hint e → Named c hint e)
    {q : Stmt → Prop} {s : Stmt} {i : Instr} (hkeeps : Stmt.Keeps c p q s) (h : StmtInstr c s i)
    (hargs : ∀ call ∈ Jvm.callsOf i, PassesAll f.owner call) : Jvm.Sound f i := by
  have htest : ∀ {e : Expr} {value : Ir.Value}, IsTest c e value →
      ∀ call, value ≠ .call call := by
    intro e value h
    cases h <;> exact nofun
  cases h with
  | assign h hx => exact sound_compute fun _ h => nomatch h
  | putField h hx => exact sound_of_calls (fun _ h => nomatch h) rfl rfl fun _ _ _ _ h => nomatch h
  | element harray helement hx hy => exact sound_element
  | branch h => exact sound_branch trivial (htest h)
  | loop h => exact sound_branch trivial (htest h)
  | ret => exact sound_of_calls (fun _ h => nomatch h) rfl rfl fun _ _ _ _ h => nomatch h
  | retValue hx => exact sound_of_calls (fun _ h => nomatch h) rfl rfl fun _ _ _ _ h => nomatch h
  | @call value target method args call hvalue h =>
    rw [Stmt.Keeps] at hkeeps
    have hcall := hkeeps.2.stripParens
    rw [hvalue] at hcall
    have hnamed := hp _ _ hcall.self
    rw [Expr.Keeps] at hcall
    exact sound_call (h.fits hd hall (h.on.known hall hmethod hp hnamed.2 hcall.2.1)
      (hargs _ List.mem_cons_self))

/-- The instructions of a lowered body are sound, if its calls pass what the methods take. -/
theorem lowerBody_sound {d : Method} (hc : c.method = .ofMethod d)
    (hd : Declares c.symbols f.owner) (hall : KnownTable c.symbols)
    (hmethod : KnownSignature c.symbols c.method) (hp : ∀ hint e, p hint e → Named c hint e)
    {q : Stmt → Prop} (hkeeps : Stmt.AllKeep c p q d.body) {k k' : Counters} {code : List Instr}
    (h : Gives (lowerBody c.symbols d) k code k')
    (hargs : ∀ i ∈ code, ∀ call ∈ Jvm.callsOf i, PassesAll f.owner call) :
    ∀ i ∈ code, Jvm.Sound f i := by
  have hcode := lowerBody_codes hc
    (Φ := fun i => (∀ call ∈ Jvm.callsOf i, PassesAll f.owner call) → Jvm.Sound f i)
    (fun _ _ _ hkeeps hi => hi.sound hd hall hmethod hp hkeeps)
    (fun _ _ hkeeps hi => hi.sound hd hall hmethod hp hkeeps)
    (fun _ _ => sound_of_calls (fun _ h => nomatch h) rfl rfl fun _ _ _ _ h => nomatch h) hkeeps h
  have hsound := hcode.all fun role n htrue hend =>
    ⟨fun _ => (sound_label htrue hend).1, fun _ => (sound_label htrue hend).2⟩
  exact fun i hi => hsound i hi (hargs i hi)

end Instructions

end Semantics

end MiniJava
