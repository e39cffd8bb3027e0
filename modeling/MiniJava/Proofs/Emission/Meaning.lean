import MiniJava.Proofs.Emission.Calls
import MiniJava.Proofs.Emission.Instructions
import MiniJava.Proofs.Emission.Legibility
import MiniJava.Proofs.Lowering.Registers

/-!
# Emission preserves meaning

The methods of a lowered program have the outcomes of their intermediate code when they are emitted and
run as their text is read. Names have to be plain, classes known, and parameters different, and calls to
the methods of the class have to pass what the methods take: none of this is checked on the way.
-/

namespace MiniJava.Semantics

open Jvm (MethodBlock MethodEmitted assemble assemble_class frameOf)
open Lowering

/-! ## Programs -/

/-- The names of a program are plain, and each class that is named is the class itself or an
import. -/
structure NamesKnown (symbols : SymbolTable) (p : Program) : Prop where
  table : KnownTable symbols
  bodies : ∀ d ∈ p.mainClass.methods,
    Stmt.AllKeep (anyContext symbols d) (Named (anyContext symbols d)) (fun _ => True) d.body

variable {symbols : SymbolTable} {p : Program} {c : Ir.Class}

theorem lowered_declares (hsymbols : SymbolsOf symbols p) (h : LoweredClass symbols p c) :
    Declares symbols c where
  name := h.name.trans hsymbols.className.symm
  imports := h.imports
  method name m hm := by
    obtain ⟨d, hd, k, k', hir⟩ := h.method hsymbols hm
    have hlowered := lowerMethod_gives hir
    refine ⟨_, hd, hlowered.returnTy, ?_⟩
    rw [hlowered.params, List.map_map]
    rfl

theorem signature_known (hsymbols : SymbolsOf symbols p) (hall : KnownTable symbols) {d : Method}
    (hd : d ∈ p.mainClass.methods) : KnownSignature symbols (.ofMethod d) := by
  refine hall.methods _ ?_
  rw [hsymbols.methods]
  exact List.mem_map_of_mem hd

/-! ## Methods -/

theorem start_registered {d : Method} {ir : Ir.Method} (hir : LowersTo symbols d ir)
    (hparams : (d.params.map (·.name)).Nodup) (self : Value) (args : List Value) :
    Registered ir (irStart ir self args) (jvmStart ir.isStatic self args).registers := by
  obtain ⟨k, k', hir⟩ := hir
  have hlowered := lowerMethod_gives hir
  have hseq := (lowerMethod_reachable hir).wellKept.sequential
  have hvars := lowerMethod_vars hparams hir
  refine ⟨hseq, fun key v register hv hregister =>
    start_registers hlowered.isStatic hlowered.params hseq hvars hv hregister, fun v hv => ?_⟩
  have hv : (if ir.isStatic then none else some self) = some v := hv
  have hstatic : d.isStatic = false := by
    rw [hlowered.isStatic] at hv
    cases hd : d.isStatic with
    | true =>
      rw [hd] at hv
      cases hv
    | false => rfl
  obtain ⟨rest, hrest⟩ := hvars
  refine Ir.VarTable.register?_eq_some.mpr ⟨.object symbols.className, hseq.slot?_eq_some.mpr ?_⟩
  rw [← hrest, firstRegisters, hstatic]
  rfl

theorem assembled_of_emitted {options : Options} {d : Method} {ir : Ir.Method} {n : Nat}
    {block : MethodBlock} {s : Jvm.Emitted} (hsymbols : SymbolsOf symbols p)
    (hnames : NamesKnown symbols p) (hclass : LoweredClass symbols p c)
    (hd : d ∈ p.mainClass.methods) (hir : LowersTo symbols d ir)
    (hargs : ∀ i ∈ ir.instructions, ∀ call ∈ Jvm.callsOf i, PassesAll c call)
    (hxor : options.negation = .xorOne) (h : MethodEmitted options c ir n block s) :
    Assembled (frameOf options c ir) block := by
  obtain ⟨k, k', hir⟩ := hir
  have hlowered := lowerMethod_gives hir
  refine {
    sound := ?_
    start := ⟨n, ⟨_, _, h.layout, Placed.self _⟩, nofun⟩
    placed := hlowered.placed
    defined := hlowered.defined
    result := congrArg Jvm.MethodDescriptor.result h.descriptor
    negation := hxor }
  exact lowerBody_sound (c := anyContext symbols d) (f := frameOf options c ir) rfl
    (lowered_declares hsymbols hclass) hnames.table (signature_known hsymbols hnames.table hd)
    (fun _ _ h => h) (hnames.bodies d hd) hlowered.body hargs

/-- A method of emitted code has the outcomes of a method of the intermediate code, and no other
ones. -/
def SameOutcomes (c : Ir.Class) (m : Ir.Method) (b : MethodBlock) : Prop :=
  ∀ (host : Host) (self : Value) (args : List Value)
    (w : World) (o : Outcome), HasOutcome (irRun (classPlatform c host) m self args) w o →
    ∀ o', HasOutcome (jvmRun (classPlatform c host) b.isStatic b self args) w o' ↔ o' = o

/-- An emitted method has the outcomes of the lowered method it comes from. -/
theorem sameOutcomes_of_emitted {options : Options} {d : Method} {m : Ir.Method} {n : Nat}
    {block : MethodBlock} {s : Jvm.Emitted} (hsymbols : SymbolsOf symbols p)
    (hnames : NamesKnown symbols p) (hclass : LoweredClass symbols p c) (hd : d ∈ p.mainClass.methods)
    (hparams : (d.params.map (·.name)).Nodup) (hir : LowersTo symbols d m)
    (hargs : ∀ i ∈ m.instructions, ∀ call ∈ Jvm.callsOf i, PassesAll c call)
    (hxor : options.negation = .xorOne) (h : MethodEmitted options c m n block s) :
    SameOutcomes c m block := by
  intro host self args w o hrun o'
  rw [h.isStatic]
  exact assembled_keeps_outcome (f := frameOf options c m)
    (assembled_of_emitted hsymbols hnames hclass hd hir hargs hxor h)
    (start_registered hir hparams self args) hrun o'

/-- Every method of a lowered program returns the same value, throws the same exception or runs
endlessly when it is emitted, with the same heap and the same calls. The methods that run are the ones
that the emitted text is read as. -/
theorem assemble_keeps_outcome {mod : Ir.Module} {options : Options} {n n' : Nat}
    {files : List Jvm.ClassFile} (hbuild : SymbolTable.build p = .ok symbols)
    (hlower : lowerProgram symbols p = .ok mod) (hnames : NamesKnown symbols p)
    (hlegible : ProgramLegible symbols p)
    (hparams : ∀ d ∈ p.mainClass.methods, (d.params.map (·.name)).Nodup)
    (hargs : ∀ c ∈ mod.classes, ∀ m ∈ c.methods, ∀ i ∈ m.instructions,
      ∀ call ∈ Jvm.callsOf i, PassesAll c call)
    (hxor : options.negation = .xorOne) (h : Gives (assemble options mod) n files n') :
    ∃ c file blocks, mod.classes = [c] ∧ files = [file] ∧
      List.Forall₂ (LowersTo symbols) p.mainClass.methods c.methods ∧
      Jvm.readMethods file.text = some (Jvm.constructorBlock file.superclass :: blocks) ∧
      List.Forall₂ (fun m b => b.name = m.name ∧ SameOutcomes c m b) c.methods blocks := by
  have hsymbols := build_symbolsOf hbuild
  obtain ⟨c, rfl, hclass⟩ := lowerProgram_gives hlower
  obtain ⟨file, rfl, hemitted⟩ := assemble_class h
  have hread := Jvm.readMethods_class (hlegible.emitted hsymbols hclass hemitted)
  refine ⟨c, file, file.methods, rfl, rfl, hclass.methods, hread, ?_⟩
  obtain ⟨hlength, hblocks⟩ := List.forall₂_iff_zip.mp hemitted.methods
  refine List.forall₂_iff_zip.mpr ⟨hlength, fun {m block} hmem => ?_⟩
  have hm := (List.of_mem_zip hmem).1
  obtain ⟨n, s, hblock⟩ := hblocks hmem
  obtain ⟨d, hd, hir⟩ := hclass.origin hm
  exact ⟨hblock.name, sameOutcomes_of_emitted hsymbols hnames hclass hd (hparams d hd) hir
    (hargs c List.mem_cons_self m hm) hxor hblock⟩

/-- A method that calls another one of the class on a new object, with a comparison as argument. -/
theorem assemble_keeps_outcome_call :
    let g : Method := {
      name := "g", returnTy := .int, params := [{ name := "b", ty := .boolean }]
      body := [.ret (some (.literal (.int 1)))] }
    let f : Method := {
      name := "f", returnTy := .int, params := [{ name := "n", ty := .int }]
      body := [.ret (some (.call (.newObject "A") "g"
        [.binary .lt (.var "n") (.literal (.int 3))]))] }
    let p : Program := {
      imports := [⟨["java", "io"]⟩], mainClass := { name := "A", methods := [g, f] } }
    let symbols : SymbolTable :=
      { className := "A", superclass := none, imports := ["java.io"], fields := []
        methods := [.ofMethod g, .ofMethod f] }
    let less : Ir.Operand := .temp 1 .boolean
    let call : Ir.Call := {
      kind := .invokeVirtual, target := .temp 0 (.object "A"), method := some "g", args := [less]
      returnTy := .int }
    let irG : Ir.Method := {
      name := "g", isStatic := false, returnTy := .int, params := [{ name := "b", ty := .boolean }]
      vars := .ofList [(.receiver, .object "A"), (.named "b", .boolean)]
      instructions := [.ret (some (.int 1))] }
    let irF : Ir.Method := {
      name := "f", isStatic := false, returnTy := .int, params := [{ name := "n", ty := .int }]
      vars := .ofList [(.receiver, .object "A"), (.named "n", .int), (.temp 0, .object "A"),
        (.temp 1, .boolean), (.temp 2, .int)]
      instructions := [
        .assignVar (.temp 0 (.object "A")) (.call (.newObject "A")),
        .call (.constructor (.temp 0 (.object "A"))),
        .assignVar less (.binary .lt (.var "n" .int) (.int 3)),
        .assignVar (.temp 2 .int) (.call call), .ret (some (.temp 2 .int))] }
    let c : Ir.Class := { name := "A", imports := ["java.io"], methods := [irG, irF] }
    let host : Host := ⟨fun heap _ _ _ => .returned (.int 1) heap, fun _ _ => false⟩
    SymbolTable.build p = .ok symbols ∧ lowerProgram symbols p = .ok { classes := [c] } ∧
      NamesKnown symbols p ∧ ProgramLegible symbols p ∧
      (∀ i ∈ irF.instructions, ∀ call ∈ Jvm.callsOf i, PassesAll c call) ∧
      ∃ file n first second block w,
        Gives (assemble { negation := .xorOne } { classes := [c] }) 0 [file] n ∧
        Jvm.readMethods file.text = some [first, second, block] ∧ block.name = "f" ∧
        HasOutcome (jvmRun (classPlatform c host) block.isStatic block .null [.int 2]) {}
          (.returned (some (.int 1)) w) := by
  intro g f p symbols less call irG irF c host
  have hbuild : SymbolTable.build p = .ok symbols := rfl
  have hlower : lowerProgram symbols p = .ok { classes := [c] } := rfl
  have hknown : KnownTable symbols := by
    refine ⟨by decide, nofun, ?_⟩
    rw [List.forall_mem_cons, List.forall_mem_singleton]
    refine ⟨⟨by decide, trivial, ?_, nofun⟩, ⟨by decide, trivial, ?_, nofun⟩⟩
    all_goals exact List.forall_mem_singleton.mpr trivial
  have hsignature : (anyContext symbols f).signature? (.newObject "A")
      (typeOf (anyContext symbols f) none (.newObject "A")) "g" = some (.ofMethod g) := rfl
  have hparameters : Parameters.ofSignature? (some (.ofMethod g)) = { fixed := [.boolean] } := rfl
  have hnames : NamesKnown symbols p := by
    refine ⟨hknown, List.forall_mem_cons.mpr ⟨?_, List.forall_mem_singleton.mpr ?_⟩⟩
    · simp only [g, Stmt.AllKeep, Stmt.Keeps, Expr.Keeps, Named, and_self]
    · simp only [f, Stmt.AllKeep, Stmt.Keeps, Expr.Keeps, Named, true_and, and_true]
      refine ⟨⟨by decide, nofun⟩, fun _ => by decide, ?_⟩
      rw [hsignature, hparameters, Expr.ArgsKeep]
      simp only [Parameters.packing?, Expr.ArgsKeep, Expr.Keeps, Named, true_and, and_true]
      decide
  have hlegible : ProgramLegible symbols p := by
    refine ⟨by decide, nofun, by decide, nofun, by decide, List.forall_mem_cons.mpr ⟨?_,
      List.forall_mem_singleton.mpr ?_⟩⟩
    · simp only [g, Stmt.AllKeep, Stmt.Keeps, Expr.Keeps, CallsLegible, and_self]
    · simp only [f, Stmt.AllKeep, Stmt.Keeps, Expr.Keeps, CallsLegible, true_and, and_true]
      refine ⟨by decide, fun _ => trivial, ?_⟩
      rw [hsignature, hparameters, Expr.ArgsKeep]
      simp only [Parameters.packing?, Expr.ArgsKeep, Expr.Keeps, CallsLegible, and_self]
  have hparams : ∀ d ∈ p.mainClass.methods, (d.params.map (·.name)).Nodup := by decide
  have hargs : ∀ c' ∈ [c], ∀ m ∈ c'.methods, ∀ i ∈ m.instructions, ∀ call ∈ Jvm.callsOf i,
      PassesAll c' call := by decide
  obtain ⟨files, n, hemit⟩ :
      ∃ files n, Gives (assemble { negation := .xorOne } { classes := [c] }) 0 files n :=
    Gives.of_isOk (by decide)
  obtain ⟨c', file, blocks, hc, rfl, hlowered, hread, hsame⟩ :=
    assemble_keeps_outcome hbuild hlower hnames hlegible hparams hargs rfl hemit
  cases hc
  obtain ⟨second, rest, _, hrest, rfl⟩ := List.forall₂_cons_left_iff.mp hsame
  obtain ⟨block, rest', ⟨hname, hblock⟩, hnil, rfl⟩ := List.forall₂_cons_left_iff.mp hrest
  cases hnil
  have hrun : HasOutcome (irRun (classPlatform c host) irF .null [.int 2]) {}
      (.returned (some (.int 1)) _) := ⟨6, by rfl⟩
  exact ⟨hbuild, hlower, hnames, hlegible, hargs c List.mem_cons_self irF (.tail _ (.head _)), file, n,
    _, second, block, _, hemit, hread, hname, (hblock host .null [.int 2] {} _ hrun _).mpr rfl⟩

end MiniJava.Semantics
