import MiniJava.Proofs.Compilation
import MiniJava.Proofs.Emission.Holdings
import MiniJava.Proofs.Emission.Meaning
import MiniJava.Proofs.Emission.Typing
import MiniJava.Proofs.Optimizer.Typing

/-!
# Kind safety

When a program whose types are right is compiled, every instruction of its methods finds what it takes
on the stack and loads what its register holds, along whatever path it is reached. The types that
lowering gives to operands decide which loads, stores and returns are emitted, so they have to agree
from the first place where an operand is written to the last one where it is read.
-/

namespace MiniJava

namespace Jvm

/-! ## Kind-safe code -/

/-- The kinds of the words in a frame: on the stack, the top first, and in the registers. -/
structure FrameKinds where
  stack : List Kind
  registers : Holdings

/-- What an instruction makes of the kinds in a frame. -/
def Instr.act (i : Instr) (kinds : FrameKinds) : FrameKinds :=
  { stack := i.turn kinds.stack, registers := i.keep kinds.registers }

/-- The kinds that a path meets at a place of code, which is entered with an empty stack. -/
def Meets (entry : Holdings) (code : List Instr) (n : Nat) (kinds : FrameKinds) : Prop :=
  Path Instr.act (FromStart { stack := [], registers := entry }) code n kinds

/-- Along every path an instruction finds what it takes on the stack, a load is for the kind of what its
register holds, and a return finds its result and nothing else. The result of a method that has one
is of its kind. All paths meet with one stack. -/
structure KindSafe (entry : Holdings) (result : Option Kind) (code : List Instr) : Prop where
  finds : ∀ n kinds i, Meets entry code n kinds → code[n]? = some i → (i.turn? kinds.stack).isSome
  loads : ∀ n kinds i, Meets entry code n kinds → code[n]? = some i → i.LoadsHeld kinds.registers
  returns : ∀ n kinds kind, Meets entry code n kinds → code[n]? = some (.ret kind) →
    kinds.stack = kind.toList ∧ (kind = result ∨ kind = none)
  agree : ∀ n kinds kinds', Meets entry code n kinds → Meets entry code n kinds' →
    kinds.stack = kinds'.stack

variable {entry : Holdings} {result : Option Kind} {code : List Instr} {n : Nat} {kinds : FrameKinds}

theorem Meets.stack (h : Meets entry code n kinds) :
    Path Instr.turn (FromStart []) code n kinds.stack := by
  refine Path.map (g := FrameKinds.stack) (fun _ _ => rfl) (fun n kinds hstart => ?_) h
  obtain ⟨rfl, rfl⟩ := hstart
  exact ⟨rfl, rfl⟩

theorem Meets.registers (h : Meets entry code n kinds) :
    Path Instr.keep (FromStart entry) code n kinds.registers := by
  refine Path.map (g := FrameKinds.registers) (fun _ _ => rfl) (fun n kinds hstart => ?_) h
  obtain ⟨rfl, rfl⟩ := hstart
  exact ⟨rfl, rfl⟩

theorem Kinded.kindSafe {last : List Kind} (h : Kinded result [] code last)
    (hloads : ∀ n held i, Path Instr.keep (FromStart entry) code n held → code[n]? = some i →
      i.LoadsHeld held) : KindSafe entry result code where
  finds n kinds i hmeets hi := by
    rw [h.path hmeets.stack]
    exact (h.fits hi).finds
  loads n kinds i hmeets hi := hloads n _ i hmeets.registers hi
  returns n kinds kind hmeets hi := by
    rw [h.path hmeets.stack]
    exact (h.fits hi).returns kind rfl
  agree n kinds kinds' hmeets hmeets' := by
    rw [h.path hmeets.stack, h.path hmeets'.stack]

/-- What the registers hold when a constructor is entered: the new object. -/
def constructorHoldings : Holdings :=
  fun register => [Kind.reference][register]?

theorem constructorCode_kindSafe (superclass : String) :
    KindSafe constructorHoldings none (constructorCode superclass) := by
  have hinvoke : (Instr.invoke .special superclass "<init>" ⟨[], .void⟩).turn? [.reference] = some [] :=
    rfl
  have hkinded : Kinded none [] (constructorCode superclass) [] :=
    .straight rfl rfl (.straight rfl hinvoke (.returns (.inl rfl)))
  refine hkinded.kindSafe fun n held i hpath hi => ?_
  let Receives (held : Holdings) : Prop := held 0 = some .reference
  have hload : Calm (fun _ _ => False) Receives [.load .reference 0] := by
    refine .straight rfl rfl (fun held hheld kind register heq => ?_) fun _ _ h => h
    cases heq
    exact hheld
  have hreturn : Calm (fun _ _ => False) Receives [.ret none] :=
    .straight rfl rfl (fun held _ => loadsHeld_of_other rfl held) fun _ _ h => h
  exact (Verified.append hload (Verified.append (calm_stack rfl rfl) hreturn)).permits_of_path
    (fun _ _ _ h => h.elim) rfl hpath hi

end Jvm

namespace Semantics

open Jvm (KindSafe MethodBlock MethodEmitted Sound WellKinded constructorCode constructorHoldings frameOf
  returnKind)
open Lowering

/-! ## Methods -/

section Methods

variable {symbols : SymbolTable} {d : Method} {k k' : Counters} {ir : Ir.Method} {options : Options}
  {c : Ir.Class}

/-- What is emitted for a lowered method is kind-safe, if its instructions have operands of the right
kinds. -/
theorem kindSafe_of_emitted {n : Nat} {block : MethodBlock} {s : Jvm.Emitted}
    (hnames : (d.params.map (·.name) ++ d.locals.map (·.name)).Nodup)
    (hir : Gives (lowerMethod symbols d) k ir k')
    (hsound : ∀ i ∈ ir.instructions, Sound (frameOf options c ir) i)
    (hkinds : ∀ i ∈ ir.instructions, WellKinded (frameOf options c ir) i)
    (h : MethodEmitted options c ir n block s) :
    KindSafe (entryHoldings (.ofMethod d)) (returnKind d.returnTy) block.code := by
  have hreturn : returnKind (frameOf options c ir).method.returnTy = returnKind d.returnTy :=
    congrArg returnKind (lowerMethod_gives hir).returnTy
  exact (h.layout.kinded hreturn hsound hkinds).kindSafe fun _ _ _ hpath hi =>
    loads_held_of_emitted hnames hir h hpath hi

end Methods

/-! ## Programs -/

/-- The names of a program are plain, each class that is named is the class itself or an import, its
types are right, and no two parameters or locals of a method have the same name. -/
structure WellTyped (symbols : SymbolTable) (p : Program) : Prop where
  table : KnownTable symbols
  packs : PacksArrays symbols
  distinct : ∀ d ∈ p.mainClass.methods, (d.params.map (·.name) ++ d.locals.map (·.name)).Nodup
  bodies : ∀ d ∈ p.mainClass.methods,
    Stmt.AllKeep (anyContext symbols d) (Typed (anyContext symbols d))
      (StmtFills (anyContext symbols d)) d.body

variable {options : Options} {symbols : SymbolTable} {p p' : Program} {c : Ir.Class}
  {file : Jvm.ClassFile}

theorem WellTyped.compiledAs (h : WellTyped symbols p) (hp : CompiledAs options p p') :
    WellTyped symbols p' where
  table := h.table
  packs := h.packs
  distinct := hp.forall_bodies symbols
    (P := fun c _ => (c.method.params.map (·.name) ++ c.method.locals.map (·.name)).Nodup)
    (fun _ h => h) h.distinct
  bodies := hp.forall_bodies symbols (P := fun c body => Stmt.AllKeep c (Typed c) (StmtFills c) body)
    optimizeMethod_typed h.bodies

theorem find_field {fields : List Field} {irs : List Ir.Field} {name : String} {ir : Ir.Field}
    (h : List.Forall₂ SameField fields irs) (hfind : irs.find? (·.name == name) = some ir) :
    ∃ var, (fields.map fun f => ({ name := f.name, ty := f.ty } : Variable)).find? (·.name == name) =
      some var ∧ ir.ty = var.ty := by
  induction h with
  | nil => cases hfind
  | @cons f ir' fields irs hsame _ ih =>
    rw [List.find?_cons, hsame.name] at hfind
    rw [List.map_cons, List.find?_cons]
    cases hname : f.name == name with
    | true =>
      rw [hname] at hfind
      cases hfind
      exact ⟨_, rfl, hsame.ty⟩
    | false =>
      rw [hname] at hfind
      exact ih hfind

theorem lowered_declaresFields (hsymbols : SymbolsOf symbols p) (h : LoweredClass symbols p c) :
    DeclaresFields symbols c := by
  intro name field hfield
  rw [SymbolTable.field?, hsymbols.fields]
  exact find_field h.fields hfield

theorem lowered_passes {d : Method} {ir : Ir.Method} (htyped : WellTyped symbols p)
    (hsymbols : SymbolsOf symbols p) (hclass : LoweredClass symbols p c)
    (hd : d ∈ p.mainClass.methods) (hir : LowersTo symbols d ir) :
    ∀ i ∈ ir.instructions, ∀ call ∈ Jvm.callsOf i, PassesAll c call := by
  obtain ⟨k, k', hir⟩ := hir
  have hdeclares := lowered_declares hsymbols hclass
  exact lowerBody_passesAll (c := anyContext symbols d) (f := frameOf {} c ir) rfl hdeclares
    htyped.table (typed_passes hdeclares htyped.packs) (htyped.bodies d hd) (lowerMethod_gives hir).body

theorem lowered_kindSafe {d : Method} {ir : Ir.Method} {block : MethodBlock}
    (htyped : WellTyped symbols p) (hsymbols : SymbolsOf symbols p) (hclass : LoweredClass symbols p c)
    (hd : d ∈ p.mainClass.methods) (hir : LowersTo symbols d ir)
    (h : ∃ n s, MethodEmitted options c ir n block s) :
    KindSafe (entryHoldings (.ofMethod d)) (returnKind d.returnTy) block.code := by
  have hpasses := lowered_passes htyped hsymbols hclass hd hir
  obtain ⟨k, k', hir⟩ := hir
  obtain ⟨n, s, h⟩ := h
  have hlowered := lowerMethod_gives hir
  have hdeclares := lowered_declares hsymbols hclass
  have hmethod := signature_known hsymbols htyped.table hd
  refine kindSafe_of_emitted (htyped.distinct d hd) hir ?_ ?_ h
  · exact lowerBody_sound (c := anyContext symbols d) (f := frameOf options c ir) rfl hdeclares
      htyped.table hmethod (fun _ _ h => h.1) (htyped.bodies d hd) hlowered.body hpasses
  · exact lowerBody_wellKinded (c := anyContext symbols d) (f := frameOf options c ir) rfl hdeclares
      htyped.table hmethod htyped.packs (lowered_declaresFields hsymbols hclass) hlowered.returnTy
      (htyped.bodies d hd) hlowered.body

/-- What becomes of each method of a program whose types are right has its name and is kind-safe. -/
theorem compilation_kindSafe (h : Compilation options p p' symbols c file)
    (htyped : WellTyped symbols p) :
    List.Forall₂ (fun d block => block.name = d.name ∧
      KindSafe (entryHoldings (.ofMethod d)) (returnKind d.returnTy) block.code)
      p.mainClass.methods file.methods := by
  refine h.methods.imp fun d block hmethod => ?_
  obtain ⟨d', m, n, s, horigin, hd', hm, hblock⟩ := hmethod
  have hsafe := lowered_kindSafe (htyped.compiledAs h.source) h.symbolsOf h.lowered hd' hm
    ⟨n, s, hblock⟩
  refine ⟨emitted_name horigin hm hblock, ?_⟩
  obtain rfl | ⟨cap, hcap⟩ := horigin
  · exact hsafe
  · have hsignature := optimizeMethod_signature cap hcap
    have hreturn : d'.returnTy = d.returnTy := congrArg Signature.returnTy hsignature
    rwa [hsignature, hreturn] at hsafe

/-- The text of a compiled program whose types are right is read as kind-safe code: the constructor is
entered with the new object in its register, each method with its receiver and its arguments, the
locals taken as initialised. -/
theorem compile_kindSafe {diagnostics : List Diagnostic} {checked : Checked}
    {units : List AssemblyUnit} (hchecked : Checked.ofProgram p diagnostics = .ok checked)
    (htyped : WellTyped checked.symbols p) (hlegible : ProgramLegible checked.symbols p)
    (h : Compiler.compile options checked = .ok units) :
    ∃ unit first blocks, units = [unit] ∧ Jvm.readMethods unit.text = some (first :: blocks) ∧
      first.name = "<init>" ∧ KindSafe constructorHoldings none first.code ∧
      List.Forall₂ (fun d block => block.name = d.name ∧
        KindSafe (entryHoldings (.ofMethod d)) (returnKind d.returnTy) block.code)
        p.mainClass.methods blocks := by
  obtain ⟨p', c, file, hcompilation, _, rfl⟩ := compile_gives hchecked h
  exact ⟨_, _, _, rfl, hlegible.readMethods hcompilation, rfl, Jvm.constructorCode_kindSafe _,
    compilation_kindSafe hcompilation htyped⟩

/-- A method measures the array that the arguments of a call are packed into. -/
theorem compile_kindSafe_packed :
    let g : Method := {
      name := "g", returnTy := .int
      params := [{ name := "b", ty := .boolean }, .varargs "xs" .int]
      locals := [{ name := "n", ty := .int }]
      body := [.ite (.var "b") (.assign "n" (.length (.var "xs"))) (.assign "n" (.literal (.int 0))),
        .ret (some (.var "n"))] }
    let f : Method := {
      name := "f", returnTy := .int
      body := [.ret (some (.call .self "g" [.binary .lt (.literal (.int 1)) (.literal (.int 2)),
        .literal (.int 3), .literal (.int 4)]))] }
    let p : Program := { mainClass := { name := "A", methods := [g, f] } }
    let symbols : SymbolTable :=
      { className := "A", superclass := none, imports := [], fields := []
        methods := [.ofMethod g, .ofMethod f] }
    let checked : Checked := { program := p, symbols }
    declaredKinds (.ofMethod g) = [.reference, .word, .reference, .word] ∧
      declaredKinds (.ofMethod f) = [.reference] ∧
      Checked.ofProgram p [] = .ok checked ∧ WellTyped symbols p ∧ ProgramLegible symbols p ∧
      ∃ unit first blocks, Compiler.compile { optimize := true } checked = .ok [unit] ∧
        Jvm.readMethods unit.text = some (first :: blocks) ∧
        List.Forall₂ (fun d block => block.name = d.name ∧
          KindSafe (entryHoldings (.ofMethod d)) (returnKind d.returnTy) block.code)
          [g, f] blocks := by
  intro g f p symbols checked
  have hchecked : Checked.ofProgram p [] = .ok checked := rfl
  have hknown : KnownTable symbols := by
    refine ⟨by decide, by simp [symbols], ?_⟩
    rw [List.forall_mem_cons, List.forall_mem_singleton]
    exact ⟨⟨by decide, trivial, by simp [g, Signature.ofMethod, Param.varargs, KnownTy],
      by simp [g, Signature.ofMethod, KnownTy]⟩, ⟨by decide, trivial, by simp [f, Signature.ofMethod],
      by simp [f, Signature.ofMethod]⟩⟩
  have hpacks : PacksArrays symbols := by
    simp [PacksArrays, symbols, g, f, Signature.ofMethod, Param.varargs, Ty.fills]
  have hname : (anyContext symbols f).symbols.className = "A" := rfl
  have hsignature : (anyContext symbols f).signature? .self (some (.object "A")) "g" =
    some (.ofMethod g) := rfl
  have hparameters : Parameters.ofSignature? (some (.ofMethod g)) =
    { fixed := [.boolean], rest := some (.array .int) } := rfl
  have htyped : WellTyped symbols p := by
    refine ⟨hknown, hpacks, by decide, List.forall_mem_cons.mpr ⟨?_, List.forall_mem_singleton.mpr ?_⟩⟩
    · have hb : (anyContext symbols g).nameTy? "b" = some .boolean := rfl
      have hxs : (anyContext symbols g).nameTy? "xs" = some (.array .int) := rfl
      have hn : (anyContext symbols g).nameTy? "n" = some .int := rfl
      have hreturn : (anyContext symbols g).method.returnTy = .int := rfl
      have hplain : PlainName "b" ∧ PlainName "xs" ∧ PlainName "n" := by decide
      have hbody : g.body = [.ite (.var "b") (.assign "n" (.length (.var "xs")))
        (.assign "n" (.literal (.int 0))), .ret (some (.var "n"))] := rfl
      rw [hbody]
      simp [Stmt.AllKeep, Stmt.Keeps, Expr.Keeps, Typed, Named, PartsFill, StmtFills, Fills, typeOf, hb,
        hxs, hn, hreturn, hplain, Ty.fills, Literal.ty]
    · have hclass : (anyContext symbols f).classTarget? .self = none := rfl
      have hcall : ∀ hint, callTy? (some (.ofMethod g)) hint = some .int := fun _ => rfl
      have hreturn : (anyContext symbols f).method.returnTy = .int := rfl
      have hplain : PlainName "g" := by decide
      have hbody : f.body = [.ret (some (.call .self "g" [.binary .lt (.literal (.int 1))
        (.literal (.int 2)), .literal (.int 3), .literal (.int 4)]))] := rfl
      rw [hbody]
      simp [Stmt.AllKeep, Stmt.Keeps, Expr.Keeps, Expr.ArgsKeep, Typed, Named, PartsFill, StmtFills,
        ArgsFill, PackFills, Fills, typeOf, hclass, hname, hsignature, hparameters, hcall, hreturn,
        hplain, Expr.ItemsKeep, Parameters.packing?, Parameters.next, packedTy, Ty.element?,
        BinOp.operandTy, BinOp.isLogical, Ty.fills, Literal.ty]
  have hlegible : ProgramLegible symbols p := by
    refine ⟨by decide, fun name hname => absurd hname (Option.not_mem_none name), List.forall_mem_nil _,
      List.forall_mem_nil _, by decide, List.forall_mem_cons.mpr ⟨?_, List.forall_mem_singleton.mpr ?_⟩⟩
    · simp [g, Stmt.AllKeep, Stmt.Keeps, Expr.Keeps, CallsLegible]
    · have hcalled : Jvm.Legible "g" := by decide
      simp [f, Stmt.AllKeep, Stmt.Keeps, Expr.Keeps, Expr.ArgsKeep, Expr.ItemsKeep, CallsLegible, typeOf,
        hname, hsignature, hparameters, hcalled, Parameters.packing?, Parameters.next]
  have hruns : (Compiler.compile { optimize := true } checked).toBool := by decide +kernel
  cases hcompile : Compiler.compile { optimize := true } checked with
  | error e =>
    rw [hcompile] at hruns
    cases hruns
  | ok units =>
    obtain ⟨unit, first, blocks, rfl, hread, _, _, hmethods⟩ :=
      compile_kindSafe hchecked htyped hlegible hcompile
    exact ⟨rfl, rfl, hchecked, htyped, hlegible, unit, first, blocks, rfl, hread, hmethods⟩

end Semantics

end MiniJava
