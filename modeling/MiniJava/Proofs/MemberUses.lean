import MiniJava.Proofs.Emission.Members

/-!
# How members are used

A method body calls methods, creates objects, and reads and writes fields by their names. What these
are emitted as goes by the form of the use alone: a call on the name of a class invokes a static
method, any other call a virtual one, and fields are those of the receiver. How the member is declared
is not looked at, so an instruction fits the declaration just if the use does.
-/

namespace MiniJava

/-! ## Uses -/

/-- A use of a member, as the source writes it. A name that is read or written may also be one of a
variable. -/
inductive MemberUse where
  | call (target : Expr) (method : String)
  | create (className : String)
  | read (name : String)
  | write (name : String)

mutual

/-- The uses of members in an expression. -/
def Expr.uses : Expr → List MemberUse
  | .literal _ | .self => []
  | .var name => [.read name]
  | .paren inner => inner.uses
  | .binary _ left right => left.uses ++ right.uses
  | .not operand => operand.uses
  | .newArray _ size => size.uses
  | .arrayLiteral elements => Expr.allUses elements
  | .index array place => array.uses ++ place.uses
  | .length array => array.uses
  | .newObject name => [.create name]
  | .call target method args => .call target method :: (target.uses ++ Expr.allUses args)

/-- The uses of members in several expressions. -/
def Expr.allUses : List Expr → List MemberUse
  | [] => []
  | e :: rest => e.uses ++ Expr.allUses rest

end

mutual

/-- The uses of members in a statement. -/
def Stmt.uses : Stmt → List MemberUse
  | .assign target value => .write target :: value.uses
  | .arrayAssign target index value => .read target :: (index.uses ++ value.uses)
  | .ite condition thenBranch elseBranch => condition.uses ++ (thenBranch.uses ++ elseBranch.uses)
  | .loop condition body => condition.uses ++ body.uses
  | .block body => Stmt.allUses body
  | .ret none => []
  | .ret (some value) => value.uses
  | .expr value => value.uses

/-- The uses of members in several statements. -/
def Stmt.allUses : List Stmt → List MemberUse
  | [] => []
  | s :: rest => s.uses ++ Stmt.allUses rest

end

/-- The class that emitted code names for an object of a type, if it has members. -/
def Jvm.Resolver.ownerOf? (r : Jvm.Resolver) : Ty → Option String
  | .object name => some (r.internalName name)
  | .string => some Jvm.stringClass
  | .int | .boolean | .void | .array _ => none

/-- The lookup of class names in the class of a symbol table. -/
def SymbolTable.resolver (symbols : SymbolTable) : Jvm.Resolver :=
  { className := symbols.className, imports := symbols.imports }

namespace Semantics

open Constants (AnyLiteral Simplifies)
open Ir (Operand)
open Jvm (MethodBlock Prints PrintsMember Resolver usesMember)
open Lowering

/-- The class that a call on a target is printed with: the one that the target names, or that of its
type. Parts of a target may have become literals before. -/
inductive TargetOn (c : Context) (target : Expr) : String → Prop
  | ofClass {name : String} (h : c.classTarget? target = some name) :
    TargetOn c target (c.symbols.resolver.internalName name)
  | ofObject {target' : Expr} {ty : Ty} {owner : String} (h : c.classTarget? target = none)
    (hbecomes : Simplifies AnyLiteral target target') (hty : typeOf c none target' = some ty)
    (howner : c.symbols.resolver.ownerOf? ty = some owner) : TargetOn c target owner

/-- What a use is printed as: which of the instructions goes by whether a call names a class. -/
inductive PrintedAs (c : Context) : MemberUse → Jvm.Instr → Prop
  | call {target : Expr} {method owner : String} {d : Jvm.MethodDescriptor}
    (h : TargetOn c target owner) :
    PrintedAs c (.call target method)
      (.invoke (if (c.classTarget? target).isSome then .static else .virtual) owner method d)
  | create {name : String} {d : Jvm.MethodDescriptor} :
    PrintedAs c (.create name) (.invoke .special (c.symbols.resolver.internalName name) "<init>" d)
  | read {name : String} {ty : Ty} {d : Jvm.Descriptor} (h : c.meaning name = .field ty) :
    PrintedAs c (.read name) (.getField c.symbols.className name d)
  | write {name : String} {ty : Ty} {d : Jvm.Descriptor} (h : c.meaning name = .field ty) :
    PrintedAs c (.write name) (.putField c.symbols.className name d)

/-- A use fits the members of the class that are declared under the name, if it is one of a member of
the class: a method is called on the name of the class just if it is static, no declared method is
called like a constructor, and no field is static. -/
def AsDeclared (c : Context) (cls : Class) : MemberUse → Prop
  | .call target method => TargetOn c target cls.name →
    ∀ m ∈ cls.methods, m.name = method → (m.isStatic ↔ (c.classTarget? target).isSome)
  | .create name => c.symbols.resolver.internalName name = cls.name →
    ∀ m ∈ cls.methods, m.name ≠ "<init>"
  | .read name | .write name => (∃ ty, c.meaning name = .field ty) →
    ∀ f ∈ cls.fields, f.name = name → f.isStatic = false

/-- An instruction names a member of a class. -/
def NamesMemberOf (className : String) : Jvm.Instr → Prop
  | .invoke _ owner .. | .getField owner .. | .putField owner .. => owner = className
  | _ => False

/-- An instruction fits the members of the class that are declared under the name: a method that is
static is invoked as such and any other one virtually, and no field is static. -/
def FitsDeclared (cls : Class) : Jvm.Instr → Prop
  | .invoke invocation owner name _ => owner = cls.name →
    ∀ m ∈ cls.methods, m.name = name → invocation = if m.isStatic then .static else .virtual
  | .getField owner name _ | .putField owner name _ => owner = cls.name →
    ∀ f ∈ cls.fields, f.name = name → f.isStatic = false
  | _ => True

variable {c : Context} {cls : Class} {u : MemberUse} {j : Jvm.Instr}

theorem PrintedAs.fits_iff (hclass : c.symbols.className = cls.name) (h : PrintedAs c u j)
    (hown : NamesMemberOf cls.name j) : FitsDeclared cls j ↔ AsDeclared c cls u := by
  cases h with
  | @call target method owner d h =>
    cases hown
    have hkind : ∀ m : Method,
        (if (c.classTarget? target).isSome then Jvm.Invocation.static else .virtual)
          = (if m.isStatic then .static else .virtual) ↔
        (m.isStatic ↔ (c.classTarget? target).isSome) := by
      intro m
      cases m.isStatic <;> cases (c.classTarget? target).isSome <;> decide
    constructor
    · exact fun hfits _ m hm hname => (hkind m).mp (hfits rfl m hm hname)
    · exact fun hdeclared _ m hm hname => (hkind m).mpr (hdeclared h m hm hname)
  | create =>
    constructor
    · intro hfits _ m hm hname
      have hkind := hfits hown m hm hname
      split at hkind <;> cases hkind
    · exact fun hdeclared _ m hm hname => absurd hname (hdeclared hown m hm)
  | read h | write h =>
    exact ⟨fun hfits _ => hfits hclass, fun hdeclared _ => hdeclared ⟨_, h⟩⟩

/-! ## Uses of a body as a rule -/

/-- The use that an expression is of itself is one of a list, with a target that the target of the
expression may have become of. -/
def UsesFrom (uses : List MemberUse) : Rule
  | _, .var name => .read name ∈ uses
  | _, .newObject name => .create name ∈ uses
  | _, .call target' method _ => ∃ target, .call target method ∈ uses ∧
    Simplifies AnyLiteral target target'
  | _, _ => True

/-- What a statement writes is one of a list. -/
def WritesFrom (uses : List MemberUse) : Stmt → Prop
  | .assign target _ => .write target ∈ uses
  | _ => True

theorem usesFrom_steady (uses : List MemberUse) : Steady AnyLiteral (UsesFrom uses) where
  literal _ _ := trivial
  step h hs _ := by
    cases hs with
    | var | newObject => exact h
    | call ht _ =>
      obtain ⟨target, hmem, hbecomes⟩ := h
      exact ⟨target, hmem, simplifies_trans target hbecomes ht⟩
    | _ => trivial

theorem writesFrom_steady (uses : List MemberUse) : SteadyStmt AnyLiteral (WritesFrom uses) := by
  intro s s' h hs
  cases hs with
  | assign => exact h
  | _ => trivial

section Bodies

variable {uses : List MemberUse}

mutual

theorem Expr.keeps_uses : ∀ (e : Expr) (hint : Option Ty), e.uses ⊆ uses →
    Expr.Keeps c (UsesFrom uses) hint e
  | .literal _, _, _ | .self, _, _ => by
    rw [Expr.Keeps]
    trivial
  | .var name, hint, h => by
    rw [Expr.uses] at h
    rw [Expr.Keeps]
    exact h List.mem_cons_self
  | .newObject name, hint, h => by
    rw [Expr.uses] at h
    rw [Expr.Keeps]
    exact h List.mem_cons_self
  | .paren inner, hint, h => by
    rw [Expr.uses] at h
    rw [Expr.Keeps]
    exact ⟨trivial, Expr.keeps_uses inner hint h⟩
  | .not operand, hint, h => by
    rw [Expr.uses] at h
    rw [Expr.Keeps]
    exact ⟨trivial, Expr.keeps_uses operand _ h⟩
  | .binary op left right, hint, h => by
    rw [Expr.uses, List.append_subset] at h
    rw [Expr.Keeps]
    exact ⟨trivial, Expr.keeps_uses left _ h.1, Expr.keeps_uses right _ h.2⟩
  | .newArray element size, hint, h => by
    rw [Expr.uses] at h
    rw [Expr.Keeps]
    exact ⟨trivial, Expr.keeps_uses size _ h⟩
  | .arrayLiteral elements, hint, h => by
    rw [Expr.uses] at h
    rw [Expr.Keeps]
    exact ⟨trivial, .of_mem (Expr.keep_uses elements h)⟩
  | .index array index, hint, h => by
    rw [Expr.uses, List.append_subset] at h
    rw [Expr.Keeps]
    exact ⟨trivial, Expr.keeps_uses array _ h.1, Expr.keeps_uses index _ h.2⟩
  | .length array, hint, h => by
    rw [Expr.uses] at h
    rw [Expr.Keeps]
    exact ⟨trivial, Expr.keeps_uses array _ h⟩
  | .call target method args, hint, h => by
    rw [Expr.uses, List.cons_subset, List.append_subset] at h
    rw [Expr.Keeps]
    exact ⟨⟨target, h.1, .refl (fun _ => trivial) target⟩, fun _ => Expr.keeps_uses target _ h.2.1,
      .of_mem (Expr.keep_uses args h.2.2)⟩

theorem Expr.keep_uses : ∀ (es : List Expr), Expr.allUses es ⊆ uses →
    ∀ e ∈ es, ∀ hint, Expr.Keeps c (UsesFrom uses) hint e
  | [], _ => nofun
  | e :: rest, h => by
    rw [Expr.allUses, List.append_subset] at h
    exact List.forall_mem_cons.mpr ⟨fun hint => Expr.keeps_uses e hint h.1, Expr.keep_uses rest h.2⟩

end

mutual

theorem Stmt.keeps_uses : ∀ (s : Stmt), s.uses ⊆ uses →
    Stmt.Keeps c (UsesFrom uses) (WritesFrom uses) s
  | .assign target value, h => by
    rw [Stmt.uses, List.cons_subset] at h
    rw [Stmt.Keeps]
    exact ⟨h.1, Expr.keeps_uses value _ h.2⟩
  | .arrayAssign target index value, h => by
    rw [Stmt.uses, List.cons_subset, List.append_subset] at h
    rw [Stmt.Keeps]
    exact ⟨trivial, h.1, Expr.keeps_uses index _ h.2.1, Expr.keeps_uses value _ h.2.2⟩
  | .ite condition thenBranch elseBranch, h => by
    rw [Stmt.uses, List.append_subset, List.append_subset] at h
    rw [Stmt.Keeps]
    exact ⟨trivial, Expr.keeps_uses condition _ h.1, Stmt.keeps_uses thenBranch h.2.1,
      Stmt.keeps_uses elseBranch h.2.2⟩
  | .loop condition body, h => by
    rw [Stmt.uses, List.append_subset] at h
    rw [Stmt.Keeps]
    exact ⟨trivial, Expr.keeps_uses condition _ h.1, Stmt.keeps_uses body h.2⟩
  | .block body, h => by
    rw [Stmt.uses] at h
    rw [Stmt.Keeps]
    exact ⟨trivial, Stmt.allKeep_uses body h⟩
  | .ret none, _ => by
    rw [Stmt.Keeps]
    trivial
  | .ret (some value), h => by
    rw [Stmt.uses] at h
    rw [Stmt.Keeps]
    exact ⟨trivial, Expr.keeps_uses value _ h⟩
  | .expr value, h => by
    rw [Stmt.uses] at h
    rw [Stmt.Keeps]
    exact ⟨trivial, Expr.keeps_uses value _ h⟩

theorem Stmt.allKeep_uses : ∀ (body : List Stmt), Stmt.allUses body ⊆ uses →
    Stmt.AllKeep c (UsesFrom uses) (WritesFrom uses) body
  | [], _ => trivial
  | s :: rest, h => by
    rw [Stmt.allUses, List.append_subset] at h
    rw [Stmt.AllKeep]
    exact ⟨Stmt.keeps_uses s h.1, Stmt.allKeep_uses rest h.2⟩

end

end Bodies

/-! ## Uses in lowered code -/

section Lowered

variable {f : Jvm.Frame} {uses : List MemberUse} {i : Ir.Instr}

/-- Whatever names a member among the instructions printed for an instruction is printed for a use in
a list. -/
def PrintedForUse (c : Context) (uses : List MemberUse) (f : Jvm.Frame) (i : Ir.Instr) : Prop :=
  ∀ j, PrintsMember f i j → ∃ u ∈ uses, PrintedAs c u j

theorem printedForUse_of_none (h : usesMember i = false) : PrintedForUse c uses f i := by
  intro j hprints
  cases h.symm.trans hprints.uses

theorem ownerOf_eq {o : Operand} {owner : String} (h : Jvm.ownerOf f o = .ok owner) :
    f.resolver.ownerOf? o.ty = some owner := by
  unfold Jvm.ownerOf at h
  split at h
  · next hty =>
    cases h
    rw [hty]
    rfl
  · next hty =>
    cases h
    rw [hty]
    rfl
  all_goals cases h

theorem ownerOf_receiver (hresolver : f.resolver = c.symbols.resolver) {owner : String}
    (h : Jvm.ownerOf f (.receiver c.symbols.className) = .ok owner) : owner = c.symbols.className := by
  have howner := ownerOf_eq h
  rw [hresolver] at howner
  have hself : c.symbols.resolver.internalName c.symbols.className = c.symbols.className :=
    if_pos (.inr rfl)
  cases howner
  exact hself

/-- Only the name of a class becomes the name of a class. -/
theorem classTarget_of_becomes {target target' : Expr} {name : String}
    (hbecomes : Simplifies AnyLiteral target target') (h : c.classTarget? target' = some name) :
    c.classTarget? target = some name := by
  cases hbecomes with
  | var => exact h
  | _ => cases h

theorem IsTarget.printed {target target' : Expr} {o : Operand} {invocation : Jvm.Invocation}
    {owner : String} (hresolver : f.resolver = c.symbols.resolver)
    (hbecomes : Simplifies AnyLiteral target target') (h : IsTarget c target' o)
    (hkind : targetKind o = invocation.callKind) (howner : Jvm.callOwner f invocation o = .ok owner) :
    TargetOn c target owner ∧
      invocation = if (c.classTarget? target).isSome then .static else .virtual := by
  cases h with
  | @ofClass name h =>
    have hclass := classTarget_of_becomes hbecomes h
    have hstatic : invocation = .static := by
      cases invocation <;> first | rfl | cases hkind
    subst hstatic
    cases howner
    rw [hresolver, hclass]
    exact ⟨.ofClass hclass, rfl⟩
  | ofOperand h hty ho =>
    have hvirtual : targetKind o = .invokeVirtual := by
      cases o with
      | classRef name => exact absurd rfl (ho name)
      | _ => rfl
    have hinvocation : invocation = .virtual := by
      rw [hvirtual] at hkind
      cases invocation <;> first | rfl | cases hkind
    subst hinvocation
    have hobject : f.resolver.ownerOf? o.ty = some owner := ownerOf_eq howner
    rw [hresolver] at hobject
    have hclass : c.classTarget? target = none := by
      cases hbecomes with
      | @literal _ value =>
        -- a literal has no members, so no call on one is printed
        have hliteral : value.ty = o.ty := Option.some.inj hty
        rw [← hliteral] at hobject
        cases value <;> cases hobject
      | var => exact h
      | _ => rfl
    rw [hclass]
    exact ⟨.ofObject hclass hbecomes hty hobject, rfl⟩

theorem IsCall.printedForUse {hint : Option Ty} {discard : Bool} {target target' : Expr}
    {method : String} {args : List Expr} {call : Ir.Call}
    (hresolver : f.resolver = c.symbols.resolver) (huse : .call target method ∈ uses)
    (hbecomes : Simplifies AnyLiteral target target')
    (h : IsCall c hint discard target' method args call) (hcalls : Jvm.callsOf i = [call]) :
    PrintedForUse c uses f i := by
  intro j hprints
  obtain ⟨invocation, owner, name, hkind, hname, howner, rfl⟩ := hprints.prints hcalls
  rw [h.name] at hname
  cases hname
  obtain ⟨hon, rfl⟩ := h.on.printed hresolver hbecomes (h.kind.symm.trans hkind) howner
  exact ⟨_, huse, .call hon⟩

theorem NodeInstr.printedForUse (hresolver : f.resolver = c.symbols.resolver) {hint : Option Ty}
    {e : Expr} (hfrom : UsesFrom uses hint e) (h : NodeInstr c hint e i) :
    PrintedForUse c uses f i := by
  cases h with
  | strict | test | decided | undecided | not | newArray | literalArray | item | index | length
  | newObject => exact printedForUse_of_none rfl
  | packed h =>
    cases h with
    | allocate | item => exact printedForUse_of_none rfl
  | field h =>
    intro j hprints
    cases hprints with
    | call hcall => cases hcall
    | read hvalue howner =>
      cases hvalue
      cases ownerOf_receiver hresolver howner
      exact ⟨_, hfrom, .read h⟩
    | write hi => cases hi
  | @construct name id =>
    intro j hprints
    obtain ⟨invocation, owner, method, hkind, hname, howner, rfl⟩ := hprints.prints rfl
    cases hname
    have hspecial : invocation = .special := by
      cases invocation <;> first | rfl | cases hkind
    subst hspecial
    have hobject : f.resolver.ownerOf? (.object name) = some owner :=
      ownerOf_eq (o := .temp id (.object name)) howner
    rw [hresolver] at hobject
    cases hobject
    exact ⟨_, hfrom, .create⟩
  | call h _ | callVoid h _ =>
    obtain ⟨target, huse, hbecomes⟩ := hfrom
    exact h.printedForUse hresolver huse hbecomes rfl

theorem StmtInstr.printedForUse (hresolver : f.resolver = c.symbols.resolver) {s : Stmt}
    (hkeeps : Stmt.Keeps c (UsesFrom uses) (WritesFrom uses) s) (h : StmtInstr c s i) :
    PrintedForUse c uses f i := by
  cases h with
  | assign | element | ret | retValue => exact printedForUse_of_none rfl
  | branch h | loop h =>
    cases h <;> exact printedForUse_of_none rfl
  | putField h _ =>
    have hfrom := hkeeps.self
    intro j hprints
    cases hprints with
    | call hcall => cases hcall
    | read hvalue => cases hvalue
    | write hi howner =>
      cases hi
      cases ownerOf_receiver hresolver howner
      exact ⟨_, hfrom, .write h⟩
  | call hvalue h =>
    rw [Stmt.Keeps] at hkeeps
    have hcall := hkeeps.2.stripParens.self
    rw [hvalue] at hcall
    obtain ⟨target, huse, hbecomes⟩ := hcall
    exact h.printedForUse hresolver huse hbecomes rfl

/-- The member instructions of a lowered body are printed for the uses in a list that the body keeps
to. -/
theorem lowerBody_printedForUse {d : Method} (hc : c.method = .ofMethod d)
    (hresolver : f.resolver = c.symbols.resolver)
    (hkeeps : Stmt.AllKeep c (UsesFrom uses) (WritesFrom uses) d.body) {k k' : Counters}
    {code : List Ir.Instr} (h : Gives (lowerBody c.symbols d) k code k') :
    ∀ i ∈ code, PrintedForUse c uses f i := by
  have hcode := lowerBody_codes hc (Φ := PrintedForUse c uses f)
    (fun _ _ _ hkeeps hi => hi.printedForUse hresolver hkeeps.self)
    (fun _ _ hkeeps hi => hi.printedForUse hresolver hkeeps)
    (fun _ => printedForUse_of_none rfl) hkeeps h
  exact hcode.all fun _ _ _ _ => ⟨printedForUse_of_none rfl, printedForUse_of_none rfl⟩

end Lowered

/-! ## Uses in compiled programs -/

/-- The instructions of an emitted method that name members of the class are printed for the uses in
its declaration, and each fits what the class declares just if the use does. So all of them fit if
all uses do. -/
structure MembersFollowUses (symbols : SymbolTable) (cls : Class) (d : Method) (block : MethodBlock) :
    Prop where
  printed : ∀ j ∈ block.code, NamesMemberOf cls.name j → ∃ u ∈ Stmt.allUses d.body,
    PrintedAs (anyContext symbols d) u j ∧
      (FitsDeclared cls j ↔ AsDeclared (anyContext symbols d) cls u)
  fits : (∀ u ∈ Stmt.allUses d.body, AsDeclared (anyContext symbols d) cls u) →
    ∀ j ∈ block.code, FitsDeclared cls j

theorem fitsDeclared_of_foreign (h : ¬ NamesMemberOf cls.name j) : FitsDeclared cls j := by
  cases j with
  | invoke | getField | putField => exact fun hown => absurd hown h
  | _ => trivial

theorem NamesMemberOf.namesMember {className : String} (h : NamesMemberOf className j) :
    j.namesMember := by
  cases j with
  | invoke | getField | putField => rfl
  | _ => exact h.elim

section Compiled

variable {options : Options} {symbols : SymbolTable} {p p' : Program} {owner : Ir.Class}
  {file : Jvm.ClassFile}

/-- What a method becomes keeps to the rule of the uses in its declaration. -/
theorem uses_of_origin (symbols : SymbolTable) {d d' : Method}
    (h : d' = d ∨ ∃ cap, Constants.optimizeMethod d cap = .ok d') :
    anyContext symbols d' = anyContext symbols d ∧
      Stmt.AllKeep (anyContext symbols d) (UsesFrom (Stmt.allUses d.body))
        (WritesFrom (Stmt.allUses d.body)) d'.body := by
  have hown := Stmt.allKeep_uses (c := anyContext symbols d) d.body (List.Subset.refl _)
  obtain rfl | ⟨cap, hcap⟩ := h
  · exact ⟨rfl, hown⟩
  · exact ⟨anyContext_optimized hcap,
      (usesFrom_steady _).optimizeMethod_keeps_both (writesFrom_steady _) hcap hown⟩

theorem compilation_membersFollowUses (h : Compilation options p p' symbols owner file)
    (hclass : symbols.className = p.mainClass.name) :
    List.Forall₂ (MembersFollowUses symbols p.mainClass) p.mainClass.methods file.methods := by
  have hdeclares := lowered_declares h.symbolsOf h.lowered
  refine h.methods.imp fun d block hmethod => ?_
  obtain ⟨d', m, n, s, horigin, hd', ⟨k, k', hir⟩, hblock⟩ := hmethod
  obtain ⟨hcontext, hkeeps⟩ := uses_of_origin symbols horigin
  have hresolver : (Jvm.frameOf options owner m).resolver = symbols.resolver := by
    show Resolver.mk owner.name owner.imports = Resolver.mk symbols.className symbols.imports
    rw [hdeclares.name, hdeclares.imports]
  have hlowered : ∀ i ∈ m.instructions, PrintedForUse (anyContext symbols d)
      (Stmt.allUses d.body) (Jvm.frameOf options owner m) i := by
    rw [← hcontext] at hkeeps ⊢
    exact lowerBody_printedForUse rfl hresolver hkeeps (lowerMethod_gives hir).body
  have hprinted : ∀ j ∈ block.code, NamesMemberOf p.mainClass.name j →
      ∃ u ∈ Stmt.allUses d.body, PrintedAs (anyContext symbols d) u j ∧
        (FitsDeclared p.mainClass j ↔ AsDeclared (anyContext symbols d) p.mainClass u) := by
    intro j hj hown
    obtain ⟨i, hi, hprints⟩ :=
      hblock.layout.members j (List.mem_filter.mpr ⟨hj, hown.namesMember⟩)
    obtain ⟨u, hu, hprintedAs⟩ := hlowered i hi j hprints
    exact ⟨u, hu, hprintedAs, hprintedAs.fits_iff hclass hown⟩
  refine ⟨hprinted, fun huses j hj => ?_⟩
  by_cases hown : NamesMemberOf p.mainClass.name j
  · obtain ⟨u, hu, _, hfits⟩ := hprinted j hj hown
    exact hfits.mpr (huses u hu)
  · exact fitsDeclared_of_foreign hown

/-- In a compiled program every instruction of a declared method that names a member of the class is
printed for a use of the member in the source: a call on the name of a class is static, any other one
virtual, and fields are those of the receiver. It fits what the class declares just if the use
does. -/
theorem compile_members_follow_uses {diagnostics : List Diagnostic} {checked : Checked}
    {units : List AssemblyUnit} (hchecked : Checked.ofProgram p diagnostics = .ok checked)
    (h : Compiler.compile options checked = .ok units) :
    ∃ file, units = Compiler.units [file] ∧
      List.Forall₂ (MembersFollowUses checked.symbols p.mainClass) p.mainClass.methods
        file.methods := by
  obtain ⟨p', c, file, hcompilation, _, hunits⟩ := compile_gives hchecked h
  obtain ⟨symbols, hbuild, hsymbols⟩ := except_bind hchecked
  cases hsymbols
  exact ⟨file, hunits, compilation_membersFollowUses hcompilation (build_symbolsOf hbuild).className⟩

/-- A method whose uses fit: it calls a static method on the class, and writes and reads a field that
is not static. -/
theorem compile_members_follow_uses_fitting :
    let x : Field := { name := "x", ty := .int }
    let g : Method := {
      name := "g", isStatic := true, returnTy := .int, body := [.ret (some (.literal (.int 1)))] }
    let f : Method := {
      name := "f", returnTy := .int
      body := [.assign "x" (.call (.var "A") "g" []), .ret (some (.var "x"))] }
    let p : Program := { mainClass := { name := "A", fields := [x], methods := [g, f] } }
    let symbols : SymbolTable :=
      { className := "A", superclass := none, imports := [], fields := [⟨"x", .int⟩]
        methods := [.ofMethod g, .ofMethod f] }
    let checked : Checked := { program := p, symbols }
    Checked.ofProgram p [] = .ok checked ∧
      ∃ file block, Compiler.compile {} checked = .ok (Compiler.units [file]) ∧
        file.methods[1]? = some block ∧ MembersFollowUses symbols p.mainClass f block ∧
        ∀ j ∈ block.code, FitsDeclared p.mainClass j := by
  intro x g f p symbols checked
  let call : Ir.Call := {
    kind := .invokeStatic, target := .classRef "A", method := some "g", returnTy := .int }
  let irG : Ir.Method := {
    name := "g", isStatic := true, returnTy := .int, instructions := [.ret (some (.int 1))] }
  let irF : Ir.Method := {
    name := "f", isStatic := false, returnTy := .int
    vars := .ofList [(.receiver, .object "A"), (.temp 0, .int), (.temp 1, .int)]
    instructions := [.assignVar (.temp 0 .int) (.call call),
      .putField (.receiver "A") "x" (.temp 0 .int),
      .assignVar (.temp 1 .int) (.getField (.receiver "A") "x" .int),
      .ret (some (.temp 1 .int))] }
  let c : Ir.Class := { name := "A", fields := [{ name := "x", ty := .int }], methods := [irG, irF] }
  have hchecked : Checked.ofProgram p [] = .ok checked := rfl
  have hlower : Compiler.lower {} checked = .ok { classes := [c] } := rfl
  obtain ⟨files, n, hemit⟩ : ∃ files n, Gives (Jvm.assemble {} { classes := [c] }) 0 files n :=
    Gives.of_isOk (by decide)
  have hcompile := compile_of_gives hlower hemit
  obtain ⟨file, hunits, hmethods⟩ := compile_members_follow_uses hchecked hcompile
  obtain ⟨first, rest, _, hrest, hfile⟩ := List.forall₂_cons_left_iff.mp hmethods
  obtain ⟨block, rest', hblock, _, rfl⟩ := List.forall₂_cons_left_iff.mp hrest
  refine ⟨hchecked, file, block, hunits ▸ hcompile, congrArg (·[1]?) hfile, hblock,
    hblock.fits ?_⟩
  have huses : Stmt.allUses f.body =
      [.write "x", .call (.var "A") "g", .read "A", .read "x"] := rfl
  rw [huses]
  simp only [List.forall_mem_cons, List.not_mem_nil, false_implies, implies_true, and_true]
  exact ⟨fun _ => by decide, fun _ => by decide, fun _ => by decide, fun _ => by decide⟩

/-- A static method that is called on the receiver is invoked virtually, and a static field is read
like one of the receiver. -/
theorem static_members_on_receiver :
    let n : Field := { name := "n", ty := .int, isStatic := true }
    let g : Method := {
      name := "g", isStatic := true, returnTy := .int, body := [.ret (some (.literal (.int 1)))] }
    let f : Method := {
      name := "f", returnTy := .int
      body := [.expr (.call .self "g" []), .ret (some (.var "n"))] }
    let p : Program := { mainClass := { name := "A", fields := [n], methods := [g, f] } }
    let symbols : SymbolTable :=
      { className := "A", superclass := none, imports := [], fields := [⟨"n", .int⟩]
        methods := [.ofMethod g, .ofMethod f] }
    let checked : Checked := { program := p, symbols }
    let call : Jvm.Instr := .invoke .virtual "A" "g" ⟨[], .int⟩
    let read : Jvm.Instr := .getField "A" "n" .int
    let blockG : MethodBlock := {
      modifiers := "public static ", name := "g", descriptor := ⟨[], .int⟩, stackLimit := 1
      localsLimit := 0, code := [.push 1, .ret (some .word)] }
    let blockF : MethodBlock := {
      modifiers := "public ", name := "f", descriptor := ⟨[], .int⟩, stackLimit := 2
      localsLimit := 2
      code := [.load .reference 0, call, .pop, .load .reference 0, read, .store .word 1,
        .load .word 1, .ret (some .word)] }
    let file : Jvm.ClassFile := {
      name := "A", superclass := "java/lang/Object"
      fields := [{ modifiers := "public static ", name := "n", descriptor := .int
                   initialValue := none }]
      methods := [blockG, blockF] }
    Checked.ofProgram p [] = .ok checked ∧
      Compiler.compile {} checked = .ok (Compiler.units [file]) ∧
      (call ∈ blockF.code ∧ ¬ FitsDeclared p.mainClass call) ∧
      read ∈ blockF.code ∧ ¬ FitsDeclared p.mainClass read := by
  intro n g f p symbols checked call read blockG blockF file
  let onReceiver : Ir.Call := {
    kind := .invokeVirtual, target := .receiver "A", method := some "g", returnTy := .int }
  let irG : Ir.Method := {
    name := "g", isStatic := true, returnTy := .int, instructions := [.ret (some (.int 1))] }
  let irF : Ir.Method := {
    name := "f", isStatic := false, returnTy := .int
    vars := .ofList [(.receiver, .object "A"), (.temp 0, .int)]
    instructions := [.call onReceiver,
      .assignVar (.temp 0 .int) (.getField (.receiver "A") "n" .int), .ret (some (.temp 0 .int))] }
  let c : Ir.Class := {
    name := "A", fields := [{ name := "n", ty := .int, isStatic := true }], methods := [irG, irF] }
  have hlower : Compiler.lower {} checked = .ok { classes := [c] } := rfl
  have hfile : Gives (Jvm.assemble {} { classes := [c] }) 0 [file] 0 := rfl
  refine ⟨rfl, compile_of_gives hlower hfile, ⟨by decide, fun hcall => ?_⟩, by decide,
    fun hread => ?_⟩
  · cases hcall rfl g List.mem_cons_self rfl
  · cases hread rfl n List.mem_cons_self rfl

end Compiled

end Semantics

end MiniJava
