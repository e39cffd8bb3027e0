import MiniJava.Constants.Optimizer
import MiniJava.Diagnostic
import MiniJava.Ir.Listing
import MiniJava.Jvm.Assembly
import MiniJava.Lowering.Session

/-!
# The compiler

From a checked program to the text of emitted classes: the diagnostics are let through, the program
is optimized if the options say so, lowered to intermediate code, and emitted.
-/

namespace MiniJava

/-- A checked program with its symbol table and the reports on it. -/
structure Checked where
  program : Program
  symbols : SymbolTable
  diagnostics : List Diagnostic := []

/-- A program with the symbol table that is built from it. -/
def Checked.ofProgram (program : Program) (diagnostics : List Diagnostic) :
    Except CompileError Checked :=
  return { program, symbols := ← SymbolTable.build program, diagnostics }

/-- The text that is emitted for one class. -/
structure AssemblyUnit where
  className : String
  text : String

namespace Compiler

/-- The intermediate code of a checked program. -/
def lower (options : Options) (c : Checked) : Except CompileError Ir.Module := do
  Diagnostic.gate c.diagnostics
  let program ←
    if options.optimize then Constants.optimizeProgram c.program options.maxPasses.toNat
    else pure c.program
  Lowering.lowerProgram c.symbols program

/-- The texts of emitted classes. -/
def units (files : List Jvm.ClassFile) : List AssemblyUnit :=
  files.map fun file => { className := file.name, text := file.text }

/-- Emits intermediate code on its own, labels numbered from zero. -/
def emit (options : Options) (m : Ir.Module) : Except CompileError (List AssemblyUnit) :=
  (((Jvm.assemble options m).run 0).1).map units

/-- Compiles a checked program. -/
def compile (options : Options) (c : Checked) : Except CompileError (List AssemblyUnit) := do
  emit options (← lower options c)

/-- Compiles a program without reports. -/
def compileProgram (options : Options) (p : Program) : Except CompileError (List AssemblyUnit) := do
  compile options (← Checked.ofProgram p [])

/-- The listing of the intermediate code of a checked program. -/
def listing (options : Options) (c : Checked) : Except CompileError String := do
  return (← lower options c).listing

end Compiler

end MiniJava
