import MiniJava.Proofs.Compilation
import MiniJava.Proofs.Emission.Layout
import MiniJava.Proofs.Emission.Text
import MiniJava.Proofs.Lowering.Bodies
import MiniJava.Proofs.Optimizer.Rules

/-!
# Names on their way into the text

The names in emitted instructions are full names of classes and the names of fields and methods. They
come from the imports, the fields and the calls of a program. So a program whose names can be read
becomes text that can be read, whether or not it was optimized, with the labels that were given to it.
-/

namespace MiniJava

/-! ## Names in the intermediate code -/

namespace Ir

/-- The names of members that a value asks for. -/
def Value.members : Value → List String
  | .getField _ field _ => [field]
  | .call c => c.method.toList
  | .operand _ | .binary .. | .not _ | .arrayLoad .. => []

/-- The names of members that an instruction asks for. -/
def Instr.members : Instr → List String
  | .assign _ value | .condGoto value _ => value.members
  | .putField _ field _ => [field]
  | .call c => c.method.toList
  | .label _ | .goto _ | .ret _ => []

/-- An instruction whose names can be read, and whose labels have numbers. -/
structure Instr.Legible (i : Instr) : Prop where
  members : ∀ name ∈ i.members, Jvm.Legible name
  defined : ∀ l, i.definedLabel? = some l → ∃ role n, l = .numbered role n
  target : ∀ l, i.jumpTarget? = some l → ∃ role n, l = .numbered role n

end Ir

namespace Jvm

open Ir (Operand Value Call)

/-! ## Classes and types -/

/-- The names that classes are looked up in can be read. -/
structure Resolver.Legible (r : Resolver) : Prop where
  className : Unmarked r.className
  imports : ∀ i ∈ r.imports, Unmarked i

theorem unmarked_slashed {name : String} (h : Unmarked name) :
    Unmarked (DottedName.slashed name) := by
  intro c hc
  rw [DottedName.slashed, String.toList_ofList] at hc
  obtain ⟨c', hc', rfl⟩ := List.mem_map.mp hc
  split
  · decide
  · exact h c' hc'

theorem Descriptor.Legible.component {d : Descriptor} (h : d.Legible) :
    d.component ≠ .void ∧ d.component.Legible := by
  cases d with
  | void => exact ⟨nofun, (by decide : Unmarked Descriptor.void.text)⟩
  | int | boolean | object | array => exact ⟨nofun, h⟩

namespace Resolver.Legible

variable {r : Resolver}

theorem imported (h : r.Legible) {name full : String} (hfull : r.imported? name = some full) :
    Unmarked full := by
  obtain ⟨i, hi, rfl⟩ := Option.map_eq_some_iff.mp hfull
  exact unmarked_slashed (h.imports i (List.mem_of_find?_eq_some hi))

theorem internalName (h : r.Legible) (name : String) : Unmarked (r.internalName name) := by
  rw [Resolver.internalName]
  split
  · exact h.className
  · cases hfull : r.imported? name with
    | none => exact h.className
    | some full => exact h.imported hfull

theorem superclass (h : r.Legible) {name? : Option String} (hname : ∀ name ∈ name?, Unmarked name) :
    Unmarked (r.superclass name?) := by
  cases name? with
  | none => exact (by decide : Unmarked objectClass)
  | some name =>
    rw [Resolver.superclass]
    split
    · decide
    · cases hfull : r.imported? name with
      | none => exact hname name rfl
      | some full => exact h.imported hfull

theorem descriptor (h : r.Legible) (ty : Ty) : (r.descriptor ty).Legible := by
  induction ty with
  | object name => exact h.internalName name
  | string => exact (by decide : Unmarked stringClass)
  | array element ih => exact ih
  | int | boolean | void => trivial

theorem methodDescriptor (h : r.Legible) (params : List Ty) (result : Ty) :
    (r.methodDescriptor params result).Legible where
  params := List.forall_mem_map.mpr fun ty _ => h.descriptor ty
  result := h.descriptor result

end Resolver.Legible

/-! ## Instructions -/

section Instructions

variable {f : Frame} {i : Instr} {o : Operand} {code : List Instr}

theorem legible_load (h : loadInstr f o = .ok i) : i.Legible := by
  cases o with
  | literal | receiver =>
    cases h
    trivial
  | classRef => cases h
  | var | temp =>
    obtain ⟨_, _, h⟩ := except_bind h
    cases h
    trivial

theorem legible_store (h : storeInstr f o = .ok i) : i.Legible := by
  cases o with
  | literal | receiver | classRef => cases h
  | var | temp =>
    obtain ⟨_, _, h⟩ := except_bind h
    cases h
    trivial

theorem Loads.legible {os : List Operand} (h : Loads f os code) : ∀ i ∈ code, i.Legible := by
  induction h with
  | nil => exact List.forall_mem_nil _
  | cons hi _ ih => exact List.forall_mem_cons.mpr ⟨legible_load hi, ih⟩

theorem ownerOf_unmarked (hf : f.resolver.Legible) {owner : String} (h : ownerOf f o = .ok owner) :
    Unmarked owner := by
  rw [ownerOf] at h
  split at h <;> cases h
  · exact hf.internalName _
  · decide

theorem callOwner_unmarked (hf : f.resolver.Legible) {invocation : Invocation} {owner : String}
    (h : callOwner f invocation o = .ok owner) : Unmarked owner := by
  unfold callOwner at h
  split at h
  · cases h
    exact hf.internalName _
  · exact ownerOf_unmarked hf h

theorem callDescriptor_legible (hf : f.resolver.Legible) (owner name : String) (call : Call) :
    (callDescriptor f owner name call).Legible := by
  rw [callDescriptor]
  split <;> exact hf.methodDescriptor _ _

theorem CallCode.legible {call : Call} {waiting : Bool} (hf : f.resolver.Legible)
    (hnames : ∀ name ∈ call.method.toList, Jvm.Legible name) (h : CallCode f call waiting code) :
    ∀ i ∈ code, i.Legible := by
  cases h with
  | newArray _ _ _ hi =>
    simp only [List.forall_mem_cons]
    exact ⟨legible_load hi, (hf.descriptor _).component, List.forall_mem_nil _⟩
  | arrayLength _ hi =>
    simp only [List.forall_mem_cons]
    exact ⟨legible_load hi, trivial, List.forall_mem_nil _⟩
  | invoke _ _ hname howner hloads =>
    refine List.forall_mem_append.mpr ⟨hloads.legible, List.forall_mem_singleton.mpr ?_⟩
    exact ⟨callOwner_unmarked hf howner, hnames _ (Option.mem_toList.mpr hname),
      callDescriptor_legible hf _ _ call⟩

theorem ValueCode.legible {n n' : Nat} {value : Value} (hf : f.resolver.Legible)
    (hnames : ∀ name ∈ value.members, Jvm.Legible name) (h : ValueCode f n value code n') :
    ∀ i ∈ code, i.Legible := by
  cases h with
  | operand hi => exact List.forall_mem_singleton.mpr (legible_load hi)
  | less hi hj =>
    simp only [lessCode, List.forall_mem_cons]
    exact ⟨legible_load hi, legible_load hj, ⟨_, _, rfl⟩, trivial, ⟨_, _, rfl⟩, ⟨_, _, rfl⟩, trivial,
      ⟨_, _, rfl⟩, List.forall_mem_nil _⟩
  | binary _ hi hj | arrayLoad hi hj =>
    simp only [List.forall_mem_cons]
    exact ⟨legible_load hi, legible_load hj, trivial, List.forall_mem_nil _⟩
  | @not o i hi =>
    have hnegator : (negator f i).Legible := by
      rw [negator]
      split
      · exact legible_load hi
      · trivial
    simp only [List.forall_mem_cons]
    exact ⟨legible_load hi, hnegator, trivial, List.forall_mem_nil _⟩
  | getField howner hi =>
    simp only [List.forall_mem_cons]
    exact ⟨legible_load hi, ⟨ownerOf_unmarked hf howner, hnames _ List.mem_cons_self, hf.descriptor _⟩,
      List.forall_mem_nil _⟩
  | call hcall => exact hcall.legible hf hnames

theorem InstrCode.legible {n n' : Nat} {pending pending' : Option Operand} {i : Ir.Instr}
    (hf : f.resolver.Legible) (hi : i.Legible) (h : InstrCode f n pending i code pending' n') :
    ∀ j ∈ code, j.Legible := by
  cases h with
  | newObject _ _ hst =>
    simp only [List.forall_mem_cons]
    exact ⟨hf.internalName _, trivial, legible_store hst, List.forall_mem_nil _⟩
  | assignVar _ _ hvalue hst =>
    exact List.forall_mem_append.mpr ⟨hvalue.legible hf hi.members,
      List.forall_mem_singleton.mpr (legible_store hst)⟩
  | assignElement hx hy hvalue =>
    simp only [List.forall_mem_append, List.forall_mem_cons]
    exact ⟨⟨⟨legible_load hx, legible_load hy, List.forall_mem_nil _⟩, hvalue.legible hf hi.members⟩,
      trivial, List.forall_mem_nil _⟩
  | putField howner hx hy =>
    simp only [List.forall_mem_cons]
    exact ⟨legible_load hx, legible_load hy, ⟨ownerOf_unmarked hf howner,
      hi.members _ List.mem_cons_self, hf.descriptor _⟩, List.forall_mem_nil _⟩
  | call _ _ hcall =>
    refine List.forall_mem_append.mpr ⟨hcall.legible hf hi.members, ?_⟩
    split
    · exact List.forall_mem_nil _
    · exact List.forall_mem_singleton.mpr trivial
  | label => exact List.forall_mem_singleton.mpr (hi.defined _ rfl)
  | goto => exact List.forall_mem_singleton.mpr (hi.target _ rfl)
  | condLess hx hy =>
    simp only [List.forall_mem_cons]
    exact ⟨legible_load hx, legible_load hy, hi.target _ rfl, List.forall_mem_nil _⟩
  | condValue _ hvalue =>
    exact List.forall_mem_append.mpr ⟨hvalue.legible hf hi.members,
      List.forall_mem_singleton.mpr (hi.target _ rfl)⟩
  | ret hx =>
    simp only [List.forall_mem_cons]
    exact ⟨legible_load hx, trivial, List.forall_mem_nil _⟩
  | retNone => exact List.forall_mem_singleton.mpr trivial

theorem Layout.legible {n last : Nat} {pending : Option Operand} {instrs : List Ir.Instr}
    (hf : f.resolver.Legible) (h : Layout f n pending instrs code last)
    (hinstrs : ∀ i ∈ instrs, i.Legible) : ∀ j ∈ code, j.Legible := by
  induction h with
  | nil =>
    split
    · exact List.forall_mem_singleton.mpr trivial
    · exact List.forall_mem_nil _
  | @cons _ _ _ pending _ i _ _ _ hcode _ ih =>
    rw [List.forall_mem_cons] at hinstrs
    simp only [List.forall_mem_append]
    refine ⟨⟨?_, hcode.legible hf hinstrs.1⟩, ih hinstrs.2⟩
    rw [settleCode]
    split
    · exact List.forall_mem_nil _
    · exact List.forall_mem_singleton.mpr trivial

end Instructions

/-! ## Methods and classes -/

section Blocks

variable {options : Options} {owner : Ir.Class} {m : Ir.Method} {block : MethodBlock} {n : Nat}
  {s : Emitted}

theorem modifiers_words (access : Access) (isStatic isFinal : Bool) :
    ∃ ws : List String, (∀ w ∈ ws, IsWord w) ∧
      access.modifiers isStatic isFinal = String.join (ws.map (· ++ " ")) := by
  refine ⟨_, ?_, rfl⟩
  cases access <;> cases isStatic <;> cases isFinal <;> decide

theorem MethodEmitted.legible (howner : (Resolver.ofClass owner).Legible)
    (hname : Jvm.Legible m.name) (hinstrs : ∀ i ∈ m.instructions, i.Legible)
    (h : MethodEmitted options owner m n block s) : block.Legible where
  modifiers := h.modifiers ▸ modifiers_words _ _ _
  name := h.name ▸ hname
  descriptor := h.descriptor ▸ howner.methodDescriptor _ _
  code := Layout.legible (f := frameOf options owner m) howner h.layout hinstrs

theorem MethodEmitted.isStatic (h : MethodEmitted options owner m n block s) :
    block.isStatic = m.isStatic := by
  rw [MethodBlock.isStatic, h.modifiers]
  cases m.access <;> cases m.isStatic <;> cases m.isFinal <;> decide

/-- The names in a class of the intermediate code can be read, those in its methods apart. -/
structure ClassLegible (c : Ir.Class) : Prop where
  resolver : (Resolver.ofClass c).Legible
  superclass : ∀ name ∈ c.superclass, Unmarked name
  fields : ∀ f ∈ c.fields, Jvm.Legible f.name

theorem ClassEmitted.legible {c : Ir.Class} {file : ClassFile} (hc : ClassLegible c)
    (h : ClassEmitted options c file)
    (hmethods : ∀ m ∈ c.methods, Jvm.Legible m.name ∧ ∀ i ∈ m.instructions, i.Legible) :
    file.Legible where
  name := h.name ▸ hc.resolver.className
  superclass := h.superclass ▸ hc.resolver.superclass hc.superclass
  fields := by
    rw [h.fields]
    refine List.forall_mem_map.mpr fun f hf => ⟨modifiers_words _ _ _, hc.fields f hf, ?_⟩
    exact hc.resolver.descriptor f.ty
  methods := by
    obtain ⟨hlength, hblocks⟩ := List.forall₂_iff_get.mp h.methods
    intro b hb
    obtain ⟨i, hi, rfl⟩ := List.getElem_of_mem hb
    have hi' : i < c.methods.length := hlength.symm ▸ hi
    obtain ⟨n, s, hblock⟩ := hblocks i hi' hi
    obtain ⟨hname, hinstrs⟩ := hmethods _ (List.getElem_mem hi')
    exact hblock.legible hc.resolver hname hinstrs

end Blocks

end Jvm

namespace Semantics

open Constants (AnyLiteral Simplifies)
open Lowering

/-! ## Lowered methods -/

/-- The methods that are called have names that can be read. -/
def CallsLegible : Rule
  | _, .call _ method _ => Jvm.Legible method
  | _, _ => True

/-- The names that come into the text of a method can be read. -/
structure NamesLegible (symbols : SymbolTable) (d : Method) : Prop where
  name : Jvm.Legible d.name
  fields : ∀ f ∈ symbols.fields, Jvm.Legible f.name
  calls : Stmt.AllKeep (anyContext symbols d) CallsLegible (fun _ => True) d.body

variable {symbols : SymbolTable} {d : Method} {k k' : Counters} {c : Context}

theorem field_of_meaning {name : String} {ty : Ty} (h : c.meaning name = .field ty) :
    ∃ f ∈ c.symbols.fields, f.name = name := by
  rw [Context.meaning] at h
  split at h <;> try cases h
  · rename_i field _ _ hfield
    rw [SymbolTable.field?] at hfield
    have hname : (field.name == name) = true :=
      List.find?_some (p := fun f : Variable => f.name == name) hfield
    exact ⟨field, List.mem_of_find?_eq_some hfield, eq_of_beq hname⟩
  · split at h <;> cases h

theorem IsCall.legible {hint : Option Ty} {discard : Bool} {target : Expr} {method : String}
    {args : List Expr} {call : Ir.Call} (h : IsCall c hint discard target method args call)
    (hmethod : Jvm.Legible method) : ∀ name ∈ call.method.toList, Jvm.Legible name := by
  rw [h.name]
  exact List.forall_mem_singleton.mpr hmethod

theorem NodeInstr.legible {hint : Option Ty} {e : Expr} {i : Ir.Instr}
    (hfields : ∀ f ∈ c.symbols.fields, Jvm.Legible f.name) (he : CallsLegible hint e)
    (h : NodeInstr c hint e i) : i.Legible := by
  have hcode : (∀ name ∈ i.members, Jvm.Legible name) ∧ i.definedLabel? = none ∧
      ∀ l, i.jumpTarget? = some l → ∃ role n, l = .numbered role n := by
    cases h with
    | field h =>
      obtain ⟨f, hf, rfl⟩ := field_of_meaning h
      exact ⟨List.forall_mem_singleton.mpr (hfields f hf), rfl, nofun⟩
    | construct => exact ⟨List.forall_mem_singleton.mpr (by decide), rfl, nofun⟩
    | call h | callVoid h => exact ⟨h.legible he, rfl, nofun⟩
    | test _ _ hl =>
      refine ⟨List.forall_mem_nil _, rfl, ?_⟩
      rintro _ ⟨⟩
      obtain ⟨n, rfl | rfl⟩ := hl <;> exact ⟨_, n, rfl⟩
    | packed h => cases h <;> exact ⟨List.forall_mem_nil _, rfl, nofun⟩
    | _ => exact ⟨List.forall_mem_nil _, rfl, nofun⟩
  exact ⟨hcode.1, fun l hl => (nomatch hcode.2.1.symm.trans hl), hcode.2.2⟩

theorem StmtInstr.legible {s : Stmt} {i : Ir.Instr}
    (hfields : ∀ f ∈ c.symbols.fields, Jvm.Legible f.name)
    (hs : Stmt.Keeps c CallsLegible (fun _ => True) s) (h : StmtInstr c s i) : i.Legible := by
  cases h with
  | putField h =>
    obtain ⟨f, hf, rfl⟩ := field_of_meaning h
    exact ⟨List.forall_mem_singleton.mpr (hfields f hf), nofun, nofun⟩
  | branch h | loop h =>
    refine ⟨by cases h <;> exact List.forall_mem_nil _, nofun, ?_⟩
    rintro _ ⟨⟩
    exact ⟨_, _, rfl⟩
  | call hvalue h =>
    rw [Stmt.Keeps] at hs
    have hcall := hs.2.stripParens
    rw [hvalue, Expr.Keeps] at hcall
    exact ⟨h.legible hcall.1, nofun, nofun⟩
  | _ => exact ⟨List.forall_mem_nil _, nofun, nofun⟩

theorem lowered_legible {ir : Ir.Method} (hnames : NamesLegible symbols d)
    (h : Gives (lowerMethod symbols d) k ir k') :
    Jvm.Legible ir.name ∧ ∀ i ∈ ir.instructions, i.Legible := by
  have hlowered := lowerMethod_gives h
  have hcode : Code (anyContext symbols d) Ir.Instr.Legible [] k ir.instructions [] k' :=
    lowerBody_codes rfl (fun _ e _ hkeeps hi => hi.legible hnames.fields hkeeps.self)
      (fun _ _ hkeeps hi => hi.legible hnames.fields hkeeps)
      (fun _ => ⟨List.forall_mem_nil _, nofun, nofun⟩) hnames.calls hlowered.body
  refine ⟨hlowered.name ▸ hnames.name, hcode.all fun role n _ _ => ⟨⟨List.forall_mem_nil _, ?_, nofun⟩,
    ⟨List.forall_mem_nil _, nofun, ?_⟩⟩⟩
  · rintro _ ⟨⟩
    exact ⟨role, n, rfl⟩
  · rintro _ ⟨⟩
    exact ⟨role, n, rfl⟩

/-- The text of an emitted method is read as the method. -/
theorem lowered_readMethods {ir : Ir.Method} (hnames : NamesLegible symbols d)
    (h : Gives (lowerMethod symbols d) k ir k') {options : Options} {owner : Ir.Class} {n : Nat}
    {block : Jvm.MethodBlock} {s : Jvm.Emitted} (howner : (Jvm.Resolver.ofClass owner).Legible)
    (hemitted : Jvm.MethodEmitted options owner ir n block s) :
    Jvm.readMethods block.text = some [block] := by
  obtain ⟨hname, hinstrs⟩ := lowered_legible hnames h
  exact Jvm.readMethods_method (hemitted.legible howner hname hinstrs)

/-! ## Programs -/

/-- The names that come into the text of a program can be read. -/
structure ProgramLegible (symbols : SymbolTable) (p : Program) : Prop where
  className : Jvm.Unmarked p.mainClass.name
  superclass : ∀ name ∈ p.mainClass.superclass, Jvm.Unmarked name
  imports : ∀ i ∈ p.imports, Jvm.Unmarked i.dotted
  fields : ∀ f ∈ p.mainClass.fields, Jvm.Legible f.name
  methods : ∀ d ∈ p.mainClass.methods, Jvm.Legible d.name
  calls : ∀ d ∈ p.mainClass.methods,
    Stmt.AllKeep (anyContext symbols d) CallsLegible (fun _ => True) d.body

theorem callsLegible_steady : Steady AnyLiteral CallsLegible where
  literal _ _ := trivial
  step h hs _ := by
    cases hs with
    | call => exact h
    | _ => trivial

variable {options : Options} {p p' : Program} {owner : Ir.Class} {file : Jvm.ClassFile}

theorem ProgramLegible.compiledAs (h : ProgramLegible symbols p) (hp : CompiledAs options p p') :
    ProgramLegible symbols p' := by
  have hcalls := hp.forall_bodies symbols
    (P := fun c body => Stmt.AllKeep c CallsLegible (fun _ => True) body)
    callsLegible_steady.optimizeMethod_keeps h.calls
  have hmethods : ∀ d' ∈ p'.mainClass.methods, Jvm.Legible d'.name := by
    intro d' hd'
    obtain ⟨d, hd, rfl | ⟨cap, hcap⟩⟩ := hp.origin hd'
    · exact h.methods _ hd
    · have hname : d'.name = d.name := congrArg Signature.name (optimizeMethod_signature cap hcap)
      exact hname ▸ h.methods d hd
  cases hp with
  | plain => exact h
  | optimized _ hp =>
    obtain ⟨methods, rfl, _⟩ := optimizeProgram_gives hp
    exact ⟨h.className, h.superclass, h.imports, h.fields, hmethods, hcalls⟩

theorem ProgramLegible.lowered (h : ProgramLegible symbols p) (hsymbols : SymbolsOf symbols p)
    (hclass : LoweredClass symbols p owner) : Jvm.ClassLegible owner where
  resolver := {
    className := (congrArg Jvm.Unmarked hclass.name).mpr h.className
    imports := by
      show ∀ i ∈ owner.imports, Jvm.Unmarked i
      rw [hclass.imports, hsymbols.imports]
      exact List.forall_mem_map.mpr h.imports }
  superclass := hclass.superclass ▸ h.superclass
  fields := by
    obtain ⟨hlength, hsame⟩ := List.forall₂_iff_get.mp hclass.fields
    intro f hf
    obtain ⟨i, hi, rfl⟩ := List.getElem_of_mem hf
    have hi' : i < p.mainClass.fields.length := hlength.symm ▸ hi
    exact (hsame i hi' hi).name ▸ h.fields _ (List.getElem_mem hi')

/-- What a program becomes when it is lowered and emitted can be read. -/
theorem ProgramLegible.emitted (h : ProgramLegible symbols p) (hsymbols : SymbolsOf symbols p)
    (hclass : LoweredClass symbols p owner) (hfile : Jvm.ClassEmitted options owner file) :
    file.Legible := by
  refine hfile.legible (h.lowered hsymbols hclass) fun m hm => ?_
  obtain ⟨d, hd, k, k', hir⟩ := hclass.origin hm
  refine lowered_legible ⟨h.methods d hd, ?_, h.calls d hd⟩ hir
  rw [hsymbols.fields]
  exact List.forall_mem_map.mpr h.fields

/-- What a program is compiled to is read as the constructor and the methods. -/
theorem ProgramLegible.readMethods (h : ProgramLegible symbols p)
    (hcompilation : Compilation options p p' symbols owner file) :
    Jvm.readMethods file.text = some (Jvm.constructorBlock file.superclass :: file.methods) :=
  Jvm.readMethods_class ((h.compiledAs hcompilation.source).emitted hcompilation.symbolsOf
    hcompilation.lowered hcompilation.emitted)

end Semantics

end MiniJava
