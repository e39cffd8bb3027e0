import MiniJava.Compiler
import MiniJava.Proofs.Emission.Blocks
import MiniJava.Proofs.Lowering.Failures
import MiniJava.Proofs.Lowering.Modules
import MiniJava.Proofs.Optimizer.Meaning

/-!
# What a compilation goes through

A program that compiles is optimized if the options say so, and the methods that are left are lowered
and emitted one by one. Optimized or not, it has the symbols that it began with.
-/

namespace MiniJava

open Constants (optimizeMethod optimizeProgram)
open Lowering (LoweredClass LowersTo lowerProgram_gives)
open Jvm (ClassEmitted ClassFile MethodEmitted)
open Semantics (Context anyContext)

/-- The program that is lowered: the one that is compiled, or what the optimizer makes of it if it
is to run. -/
inductive CompiledAs (options : Options) (p : Program) : Program → Prop
  | plain : CompiledAs options p p
  | optimized {p' : Program} (hon : options.optimize = true)
    (h : optimizeProgram p options.maxPasses.toNat = .ok p') : CompiledAs options p p'

/-- The programs and classes that a compilation goes through. -/
structure Compilation (options : Options) (p p' : Program) (symbols : SymbolTable) (c : Ir.Class)
    (file : ClassFile) : Prop where
  source : CompiledAs options p p'
  symbolsOf : SymbolsOf symbols p'
  lowered : LoweredClass symbols p' c
  emitted : ClassEmitted options c file

variable {options : Options} {p p' : Program} {symbols : SymbolTable}

/-! ## The optimizer on programs -/

theorem optimizeProgram_gives {cap : Nat} (h : optimizeProgram p cap = .ok p') :
    ∃ methods, p' = { p with mainClass := { p.mainClass with methods } } ∧
      List.Forall₂ (fun m m' => optimizeMethod m cap = .ok m') p.mainClass.methods methods := by
  rw [optimizeProgram] at h
  obtain ⟨methods, hmethods, h⟩ := except_bind h
  cases h
  exact ⟨methods, rfl, except_mapM hmethods⟩

theorem optimized_signatures {cap : Nat} {ms ms' : List Method}
    (h : List.Forall₂ (fun m m' => optimizeMethod m cap = .ok m') ms ms') :
    ms'.map Signature.ofMethod = ms.map Signature.ofMethod := by
  induction h with
  | nil => rfl
  | cons hm _ ih => rw [List.map_cons, List.map_cons, ih, Semantics.optimizeMethod_signature cap hm]

theorem CompiledAs.symbolsOf (h : CompiledAs options p p') (hsymbols : SymbolsOf symbols p) :
    SymbolsOf symbols p' := by
  cases h with
  | plain => exact hsymbols
  | optimized _ h =>
    obtain ⟨methods, rfl, hmethods⟩ := optimizeProgram_gives h
    exact ⟨hsymbols.className, hsymbols.imports, hsymbols.fields,
      hsymbols.methods.trans (optimized_signatures hmethods).symm⟩

theorem CompiledAs.fields (h : CompiledAs options p p') :
    p'.mainClass.fields = p.mainClass.fields ∧ p'.mainClass.name = p.mainClass.name := by
  cases h with
  | plain => exact ⟨rfl, rfl⟩
  | optimized _ h =>
    obtain ⟨methods, rfl, _⟩ := optimizeProgram_gives h
    exact ⟨rfl, rfl⟩

theorem CompiledAs.methods (h : CompiledAs options p p') :
    List.Forall₂ (fun d d' => d' = d ∨ ∃ cap, optimizeMethod d cap = .ok d') p.mainClass.methods
      p'.mainClass.methods := by
  cases h with
  | plain => exact List.forall₂_same.mpr fun _ _ => .inl rfl
  | optimized _ h =>
    obtain ⟨methods, rfl, hmethods⟩ := optimizeProgram_gives h
    exact hmethods.imp fun _ _ hd => .inr ⟨_, hd⟩

theorem CompiledAs.origin (h : CompiledAs options p p') {d' : Method}
    (hd : d' ∈ p'.mainClass.methods) :
    ∃ d ∈ p.mainClass.methods, d' = d ∨ ∃ cap, optimizeMethod d cap = .ok d' := by
  obtain ⟨hlength, hget⟩ := List.forall₂_iff_get.mp h.methods
  obtain ⟨i, hi, rfl⟩ := List.getElem_of_mem hd
  have hi' : i < p.mainClass.methods.length := hlength.symm ▸ hi
  exact ⟨_, List.getElem_mem hi', hget i hi' hi⟩

theorem anyContext_optimized {cap : Nat} {d d' : Method} (h : optimizeMethod d cap = .ok d') :
    anyContext symbols d' = anyContext symbols d := by
  rw [anyContext, anyContext, Semantics.optimizeMethod_signature cap h]

/-- What the optimizer keeps for a body, and what holds for the bodies of a program, holds for those
that are lowered. -/
theorem CompiledAs.forall_bodies (h : CompiledAs options p p') (symbols : SymbolTable)
    {P : Context → List Stmt → Prop}
    (hkeeps : ∀ {cap : Nat} {c : Context} {d d' : Method}, optimizeMethod d cap = .ok d' →
      P c d.body → P c d'.body)
    (hbodies : ∀ d ∈ p.mainClass.methods, P (anyContext symbols d) d.body) :
    ∀ d' ∈ p'.mainClass.methods, P (anyContext symbols d') d'.body := by
  intro d' hd'
  obtain ⟨d, hd, rfl | ⟨cap, hcap⟩⟩ := h.origin hd'
  · exact hbodies d' hd
  · rw [anyContext_optimized hcap]
    exact hkeeps hcap (hbodies d hd)

/-! ## Compilations -/

theorem lower_gives {checked : Checked} {mod : Ir.Module}
    (h : Compiler.lower options checked = .ok mod) :
    ∃ p', CompiledAs options checked.program p' ∧
      Lowering.lowerProgram checked.symbols p' = .ok mod := by
  rw [Compiler.lower] at h
  obtain ⟨_, _, h⟩ := except_bind h
  dsimp only at h
  split at h
  · rename_i hon
    obtain ⟨p', hp, h⟩ := except_bind h
    exact ⟨p', .optimized hon hp, h⟩
  · exact ⟨checked.program, .plain, h⟩

theorem emit_eq_ok {mod : Ir.Module} {units : List AssemblyUnit} :
    Compiler.emit options mod = .ok units ↔
      ∃ files n, Gives (Jvm.assemble options mod) 0 files n ∧ units = Compiler.units files := by
  constructor
  · intro h
    rw [Compiler.emit] at h
    cases hrun : (Jvm.assemble options mod).run 0 with
    | mk result n =>
      rw [hrun] at h
      cases result with
      | error e => cases h
      | ok files =>
        cases h
        exact ⟨files, n, hrun, rfl⟩
  · rintro ⟨files, n, hfiles, rfl⟩
    have hrun : (Jvm.assemble options mod).run 0 = (.ok files, n) := hfiles
    show Except.map Compiler.units ((Jvm.assemble options mod).run 0).1 = _
    rw [hrun]
    rfl

/-- A program that compiles becomes one class. -/
theorem compile_gives {diagnostics : List Diagnostic} {checked : Checked}
    {units : List AssemblyUnit} (hchecked : Checked.ofProgram p diagnostics = .ok checked)
    (h : Compiler.compile options checked = .ok units) :
    ∃ p' c file, Compilation options p p' checked.symbols c file ∧
      Compiler.lower options checked = .ok { classes := [c] } ∧ units = Compiler.units [file] := by
  obtain ⟨symbols, hbuild, hchecked⟩ := except_bind hchecked
  cases hchecked
  obtain ⟨mod, hlower, h⟩ := except_bind h
  obtain ⟨p', hsource, hmod⟩ := lower_gives hlower
  obtain ⟨c, rfl, hlowered⟩ := lowerProgram_gives hmod
  obtain ⟨files, n, hfiles, rfl⟩ := emit_eq_ok.mp h
  obtain ⟨file, rfl, hemitted⟩ := Jvm.assemble_class hfiles
  exact ⟨p', c, file, ⟨hsource, hsource.symbolsOf (build_symbolsOf hbuild), hlowered, hemitted⟩, hlower,
    rfl⟩

/-- Each emitted method is what became of a declaration: it may have been optimized, was lowered and
was emitted. -/
theorem Compilation.methods {c : Ir.Class} {file : ClassFile}
    (h : Compilation options p p' symbols c file) :
    List.Forall₂ (fun d block => ∃ d' m n s, (d' = d ∨ ∃ cap, optimizeMethod d cap = .ok d') ∧
      d' ∈ p'.mainClass.methods ∧ LowersTo symbols d' m ∧ MethodEmitted options c m n block s)
      p.mainClass.methods file.methods := by
  obtain ⟨hcompiled, hcompiledAs⟩ := List.forall₂_iff_get.mp h.source.methods
  obtain ⟨hlowered, hlowersTo⟩ := List.forall₂_iff_get.mp h.lowered.methods
  obtain ⟨hemitted, hemittedAs⟩ := List.forall₂_iff_get.mp h.emitted.methods
  refine List.forall₂_iff_get.mpr ⟨(hcompiled.trans hlowered).trans hemitted, fun i hi hi' => ?_⟩
  have hic : i < c.methods.length := hemitted.symm ▸ hi'
  have hip : i < p'.mainClass.methods.length := hlowered.symm ▸ hic
  obtain ⟨n, s, hblock⟩ := hemittedAs i hic hi'
  exact ⟨_, _, n, s, hcompiledAs i hi hip, List.get_mem _ ⟨i, hip⟩, hlowersTo i hip hic, hblock⟩

theorem emitted_name {d d' : Method} {c : Ir.Class} {m : Ir.Method} {n : Nat} {block : Jvm.MethodBlock}
    {s : Jvm.Emitted} (horigin : d' = d ∨ ∃ cap, optimizeMethod d cap = .ok d')
    (hm : LowersTo symbols d' m) (h : MethodEmitted options c m n block s) : block.name = d.name := by
  obtain ⟨k, k', hm⟩ := hm
  have hname : block.name = d'.name := h.name.trans (Lowering.lowerMethod_gives hm).name
  obtain rfl | ⟨cap, hcap⟩ := horigin
  · exact hname
  · exact hname.trans (congrArg Signature.name (Semantics.optimizeMethod_signature cap hcap))

theorem compile_of_gives {checked : Checked} {mod : Ir.Module} {files : List ClassFile} {n : Nat}
    (hlower : Compiler.lower options checked = .ok mod)
    (hfiles : Gives (Jvm.assemble options mod) 0 files n) :
    Compiler.compile options checked = .ok (Compiler.units files) := by
  rw [Compiler.compile, hlower]
  exact emit_eq_ok.mpr ⟨files, n, hfiles, rfl⟩

end MiniJava
