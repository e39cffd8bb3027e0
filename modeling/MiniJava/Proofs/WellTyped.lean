import MiniJava.Proofs.Acceptance
import MiniJava.Proofs.Emission.Limits
import MiniJava.Proofs.KindSafety
import MiniJava.Proofs.Lowering.Meaning

/-!
# Programs whose types are right

What is asked of programs elsewhere, a program has whose types are right: it passes what its methods
take and assigns numbers and truth values where they belong. So its code has its stack in order, and
does what the source does, through all steps from the optimizer to the text that is printed.
-/

namespace MiniJava.Semantics

open Jvm (MethodBlock StackInOrder WellStacked constructorCode)
open Lowering

/-! ## What right types are enough for -/

section Rules

variable {c : Context}

/-- Arguments that fill the parameters are as many as there are parameters that take one. Only an array
takes more. -/
theorem ArgsFill.length : ∀ {args : List Expr} {parameters : Parameters}, ArgsFill c parameters args →
    parameters.fixed.length ≤ args.length ∧
      (parameters.rest = none → args.length = parameters.fixed.length)
  | [], parameters, h => by
    have hfixed : parameters.fixed = [] := h
    rw [hfixed]
    exact ⟨Nat.le_refl 0, fun _ => rfl⟩
  | e :: rest, ⟨[], some array⟩, _ => ⟨Nat.zero_le _, nofun⟩
  | e :: rest, ⟨[], none⟩, h => h.elim
  | e :: rest, ⟨ty :: tys, array⟩, h => by
    obtain ⟨hle, heq⟩ := ArgsFill.length h.2
    exact ⟨Nat.succ_le_succ hle, fun hrest => congrArg Nat.succ (heq hrest)⟩

theorem ArgsFill.accepts {s : Signature} {args : List Expr}
    (h : ArgsFill c (.ofSignature? (some s)) args) : s.Accepts args.length := by
  obtain ⟨hle, heq⟩ := h.length
  rw [Parameters.ofSignature?] at hle heq
  rw [Signature.Accepts]
  by_cases hvarargs : s.isVarargs
  · simp only [if_pos hvarargs, List.length_dropLast, List.length_map] at hle
    rwa [if_pos hvarargs, Signature.fixedArity, if_pos hvarargs]
  · simp only [if_neg hvarargs, List.length_map] at heq
    rw [if_neg hvarargs]
    exact heq trivial

theorem Typed.passesDeclared {hint : Option Ty} {e : Expr} (h : Typed c hint e) :
    PassesDeclared c hint e := by
  cases e with
  | call target method args => exact fun s hs => (h.2 s hs).accepts
  | _ => trivial

theorem StmtFills.storesWord {s : Stmt} (h : StmtFills c s) : StoresWord c s := by
  cases s with
  | assign target value =>
    obtain ⟨ty, hty, found, hfound, hfills⟩ := h
    rw [StoresWord, hty, hfound]
    rintro (hword | hword) <;> cases hword
    · have hint : (Literal.int 0).ty.fills ty := hfills
      exact .inl (congrArg some (Ty.eq_of_literal_fills hint))
    · have hbool : (Literal.bool true).ty.fills ty := hfills
      exact .inr (congrArg some (Ty.eq_of_literal_fills hbool))
  | _ => trivial

end Rules

variable {options : Options} {symbols : SymbolTable} {p p' : Program} {c : Ir.Class}
  {file : Jvm.ClassFile}

namespace WellTyped

theorem namesKnown (h : WellTyped symbols p) : NamesKnown symbols p where
  table := h.table
  bodies d hd := Stmt.AllKeep.mono (fun _ _ he => he.1) (fun _ _ => trivial) d.body (h.bodies d hd)

theorem callsPass (h : WellTyped symbols p) : CallsPass symbols p := fun d hd =>
  Stmt.AllKeep.mono (fun _ _ he => he.passesDeclared) (fun _ _ => trivial) d.body (h.bodies d hd)

theorem assignsWords (h : WellTyped symbols p) : AssignsWords symbols p := fun d hd =>
  Stmt.AllKeep.mono (fun _ _ _ => trivial) (fun _ hs => hs.storesWord) d.body (h.bodies d hd)

end WellTyped

/-! ## What becomes of a program -/

variable {diagnostics : List Diagnostic} {checked : Checked} {units : List AssemblyUnit}

/-- The code of a program whose types are right has its stack in order. -/
theorem compile_stackInOrder (hchecked : Checked.ofProgram p diagnostics = .ok checked)
    (htyped : WellTyped checked.symbols p) (h : Compiler.compile options checked = .ok units) :
    ∃ c file, Compiler.lower options checked = .ok { classes := [c] } ∧
      units = Compiler.units [file] ∧ WellStacked (constructorCode file.superclass) ∧
      List.Forall₂ (StackInOrder options c) c.methods file.methods := by
  obtain ⟨p', c, file, hcompilation, hlower, hunits⟩ := compile_gives hchecked h
  have hcalls := (htyped.compiledAs hcompilation.source).callsPass
  exact ⟨c, file, hlower, hunits, Jvm.constructorCode_wellStacked _,
    compilation_stackInOrder hcompilation htyped.namesKnown hcalls⟩

section Outcomes

variable {d d' : Method} {m : Ir.Method} {platform : Platform} {self : Value} {args : List Value}
  {w : World} {o : Outcome}

theorem optimized_outcome (htyped : WellTyped symbols p) (hd : d ∈ p.mainClass.methods)
    (h : d' = d ∨ ∃ cap, Constants.optimizeMethod d cap = .ok d')
    (hrun : HasOutcome (sourceRun platform symbols d self args) w o) :
    HasOutcome (sourceRun platform symbols d' self args) w o := by
  obtain rfl | ⟨cap, hcap⟩ := h
  · exact hrun
  · let c : Context := { platform, symbols, method := .ofMethod d, self }
    have hsymbols : c.symbols = (anyContext symbols d).symbols := rfl
    refine hrun.of_refines fun fuel => ?_
    rw [sourceRun, sourceRun, optimizeMethod_signature cap hcap]
    exact optimizeMethod_refines_typed hsymbols rfl rfl hcap (htyped.bodies d hd) args fuel

theorem lowered_outcome (h : LowersTo symbols d m)
    (hrun : HasOutcome (sourceRun platform symbols d self args) w o) :
    HasOutcome (irRun platform m self args) w o := by
  obtain ⟨k, k', hir⟩ := h
  let c : Context := { platform, symbols, method := .ofMethod d, self }
  rw [sourceRun_eq c rfl args] at hrun
  exact Machine.keeps_outcome (lowerMethod_follows (c := c) rfl hir args) hrun

end Outcomes

/-- A method of emitted code has the outcomes of a declared method, and no other ones. -/
def DoesAsDeclared (symbols : SymbolTable) (c : Ir.Class) (d : Method) (b : MethodBlock) : Prop :=
  ∀ (host : Host) (self : Value) (args : List Value) (w : World) (o : Outcome),
    HasOutcome (sourceRun (classPlatform c host) symbols d self args) w o →
    ∀ o', HasOutcome (jvmRun (classPlatform c host) b.isStatic b self args) w o' ↔ o' = o

theorem compilation_doesAsDeclared (h : Compilation options p p' symbols c file)
    (htyped : WellTyped symbols p) (hxor : options.negation = .xorOne) :
    List.Forall₂ (fun d block => block.name = d.name ∧ DoesAsDeclared symbols c d block)
      p.mainClass.methods file.methods := by
  have htyped' := htyped.compiledAs h.source
  obtain ⟨hlength, hmethods⟩ := List.forall₂_iff_zip.mp h.methods
  refine List.forall₂_iff_zip.mpr ⟨hlength, fun {d block} hmem => ?_⟩
  have hd := (List.of_mem_zip hmem).1
  obtain ⟨d', m, n, s, horigin, hd', hm, hblock⟩ := hmethods hmem
  have hparams : (d'.params.map (·.name)).Nodup := (htyped'.distinct d' hd').of_append_left
  have hargs := lowered_passes htyped' h.symbolsOf h.lowered hd' hm
  have hsame := sameOutcomes_of_emitted h.symbolsOf htyped'.namesKnown h.lowered hd' hparams hm hargs hxor
    hblock
  exact ⟨emitted_name horigin hm hblock, fun host self args w o hrun =>
    hsame host self args w o (lowered_outcome hm (optimized_outcome htyped hd horigin hrun))⟩

/-- What is printed for a program whose types are right does what the source does. The text is read as
its methods, and a method that is run as it is read returns the same value, throws the same exception
or runs endlessly, with the same heap and the same calls, and does nothing else. -/
theorem compile_keeps_outcome (hchecked : Checked.ofProgram p diagnostics = .ok checked)
    (htyped : WellTyped checked.symbols p) (hlegible : ProgramLegible checked.symbols p)
    (hxor : options.negation = .xorOne) (h : Compiler.compile options checked = .ok units) :
    ∃ c unit first blocks, Compiler.lower options checked = .ok { classes := [c] } ∧ units = [unit] ∧
      Jvm.readMethods unit.text = some (first :: blocks) ∧
      List.Forall₂ (fun d block => block.name = d.name ∧ DoesAsDeclared checked.symbols c d block)
        p.mainClass.methods blocks := by
  obtain ⟨p', c, file, hcompilation, hlower, rfl⟩ := compile_gives hchecked h
  exact ⟨c, _, _, _, hlower, rfl, hlegible.readMethods hcompilation,
    compilation_doesAsDeclared hcompilation htyped hxor⟩

end MiniJava.Semantics
