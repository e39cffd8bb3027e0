import MiniJava.Proofs.Emission.Calls

/-!
# The number of arguments

A call to a method of the class passes one argument for each parameter, and any number of them for a
last one with variable arguments. Then the call that it becomes has as many operands as the method
has parameters.
-/

namespace MiniJava

/-- Whether a call to a method may have some number of arguments. -/
def Signature.Accepts (s : Signature) (count : Nat) : Prop :=
  if s.isVarargs then s.fixedArity ≤ count else count = s.params.length

namespace Semantics

open Ir (Operand Instr)
open Lowering

variable {c : Context} {f : Jvm.Frame}

/-- A call to a method that the class declares has as many arguments as the method accepts. -/
def PassesDeclared (c : Context) : Rule
  | _, .call target method args =>
    ∀ s, c.signature? target (typeOf c none target) method = some s → s.Accepts args.length
  | _, _ => True

/-! ## Operands for arguments -/

theorem argTys_length (args : List Expr) : ∀ {parameters : Parameters}, parameters.rest = none →
    (argTys c parameters args).length = args.length := by
  induction args with
  | nil =>
    intro parameters hrest
    rw [argTys, hrest]
    rfl
  | cons e rest ih =>
    intro parameters hrest
    have hpacking : parameters.packing? = none := by
      rw [Parameters.packing?]
      split
      · exact hrest
      · rfl
    rw [argTys, hpacking]
    exact congrArg Nat.succ (ih hrest)

theorem argTys_length_packed {array : Ty} (args : List Expr) : ∀ {parameters : Parameters},
    parameters.rest = some array → parameters.fixed.length ≤ args.length →
      (argTys c parameters args).length = parameters.fixed.length + 1 := by
  induction args with
  | nil =>
    intro parameters hrest hle
    rw [argTys, hrest, List.length_eq_zero_iff.mp (Nat.le_zero.mp hle)]
    rfl
  | cons e rest ih =>
    rintro ⟨fixed, other⟩ rfl hle
    cases fixed with
    | nil =>
      rw [argTys_packed rfl]
      split <;> rfl
    | cons ty tys =>
      rw [argTys]
      exact congrArg Nat.succ (ih rfl (Nat.le_of_succ_le_succ hle))

theorem argTys_length_accepted {s : Signature} {args : List Expr} (h : s.Accepts args.length) :
    (argTys c (.ofSignature? (some s)) args).length = s.params.length := by
  rw [Signature.Accepts] at h
  rw [Parameters.ofSignature?]
  by_cases hvarargs : s.isVarargs
  · rw [if_pos hvarargs, Signature.fixedArity, if_pos hvarargs] at h
    have hsome : s.params ≠ [] := by
      intro hnil
      rw [Signature.isVarargs, hnil] at hvarargs
      cases hvarargs
    simp only [if_pos hvarargs]
    rw [argTys_length_packed args rfl (by simpa using h)]
    have hlength := List.length_pos_iff.mpr hsome
    simp only [List.length_dropLast, List.length_map]
    omega
  · rw [if_neg hvarargs] at h
    simp only [if_neg hvarargs]
    exact (argTys_length args rfl).trans h

/-! ## Lowered calls -/

theorem passesAll_of_noMethod {owner : Ir.Class} {call : Ir.Call} (h : call.method = none) :
    PassesAll owner call := by
  intro m hm
  rw [ownMethod?, h] at hm
  split at hm <;> cases hm

theorem constructor_passesAll (hd : Declares c.symbols f.owner) (hall : KnownTable c.symbols)
    (object : Operand) : PassesAll f.owner (.constructor object) := by
  intro m hm
  obtain ⟨_, name, hname, hm⟩ := ownMethod?_eq_some.mp hm
  cases hname
  exact absurd hm (no_constructor hd hall)

theorem IsCall.passesAll (hd : Declares c.symbols f.owner) {hint : Option Ty} {discard : Bool}
    {target : Expr} {method : String} {args : List Expr} {call : Ir.Call}
    (h : IsCall c hint discard target method args call) {place : Option Ty}
    (haccepts : PassesDeclared c place (.call target method args)) : PassesAll f.owner call := by
  intro m hm
  obtain ⟨hon, name, hname, hm⟩ := ownMethod?_eq_some.mp hm
  obtain ⟨s, hs, _, hparams⟩ := hd.method hm
  rw [h.name] at hname
  cases hname
  rw [hd.name] at hon
  have hsignature := (h.on.signature hon method).trans hs
  have hargs := congrArg List.length h.args
  rw [hsignature, argTys_length_accepted (haccepts s hsignature), List.length_map] at hargs
  have hlength := congrArg List.length hparams
  rw [List.length_map, List.length_map] at hlength
  exact hargs.trans hlength.symm

/-- Under a rule the calls to the methods of a class pass one operand for each parameter. -/
def PassesUnder (c : Context) (owner : Ir.Class) (p : Rule) : Prop :=
  ∀ ⦃place hint : Option Ty⦄ ⦃discard : Bool⦄ ⦃target : Expr⦄ ⦃method : String⦄ ⦃args : List Expr⦄
    ⦃call : Ir.Call⦄, p place (.call target method args) →
      IsCall c hint discard target method args call → PassesAll owner call

theorem passesDeclared_passes (hd : Declares c.symbols f.owner) :
    PassesUnder c f.owner (PassesDeclared c) :=
  fun _ _ _ _ _ _ _ hrule h => h.passesAll hd hrule

variable {p : Rule}

theorem NodeInstr.passesAll (hd : Declares c.symbols f.owner) (hall : KnownTable c.symbols)
    (hp : PassesUnder c f.owner p) {hint : Option Ty} {e : Expr} {i : Instr} (hrule : p hint e)
    (h : NodeInstr c hint e i) : ∀ call ∈ Jvm.callsOf i, PassesAll f.owner call := by
  cases h with
  | newArray | literalArray | length | newObject =>
    exact List.forall_mem_singleton.mpr (passesAll_of_noMethod rfl)
  | construct => exact List.forall_mem_singleton.mpr (constructor_passesAll hd hall _)
  | packed h =>
    cases h with
    | allocate h => exact List.forall_mem_singleton.mpr (passesAll_of_noMethod rfl)
    | item h hvalue => exact fun _ h => nomatch h
  | call h hvoid | callVoid h hvoid => exact List.forall_mem_singleton.mpr (hp hrule h)
  | field | strict | test | decided | undecided | not | item | index =>
    exact fun _ h => nomatch h

theorem StmtInstr.passesAll (hp : PassesUnder c f.owner p) {q : Stmt → Prop} {s : Stmt}
    {i : Instr} (hkeeps : Stmt.Keeps c p q s) (h : StmtInstr c s i) :
    ∀ call ∈ Jvm.callsOf i, PassesAll f.owner call := by
  cases h with
  | @call value target method args call hvalue h =>
    rw [Stmt.Keeps] at hkeeps
    have hcall := hkeeps.2.stripParens
    rw [hvalue] at hcall
    exact List.forall_mem_singleton.mpr (hp hcall.self h)
  | branch h | loop h => cases h <;> exact fun _ h => nomatch h
  | assign | putField | element | ret | retValue => exact fun _ h => nomatch h

/-- The calls in a lowered body pass what the methods take, if the body keeps to such a rule. -/
theorem lowerBody_passesAll {d : Method} (hc : c.method = .ofMethod d)
    (hd : Declares c.symbols f.owner) (hall : KnownTable c.symbols) (hp : PassesUnder c f.owner p)
    {q : Stmt → Prop} (hkeeps : Stmt.AllKeep c p q d.body) {k k' : Counters} {code : List Instr}
    (h : Gives (lowerBody c.symbols d) k code k') :
    ∀ i ∈ code, ∀ call ∈ Jvm.callsOf i, PassesAll f.owner call := by
  have hcode := lowerBody_codes hc
    (Φ := fun i => ∀ call ∈ Jvm.callsOf i, PassesAll f.owner call)
    (fun _ _ _ hkeeps hi => hi.passesAll hd hall hp hkeeps.self)
    (fun _ _ hkeeps hi => hi.passesAll hp hkeeps)
    (fun _ => (fun _ h => nomatch h)) hkeeps h
  exact hcode.all fun _ _ _ _ => ⟨(fun _ h => nomatch h), (fun _ h => nomatch h)⟩

end Semantics

end MiniJava
