import MiniJava.CommandLine.Args
import MiniJava.Compiler
import MiniJava.Config
import MiniJava.Interchange.Tree
import MiniJava.Json.Reader

/-!
# Runs of the command

A run depends on the arguments and on the text of the files that they name. It ends with an exit
code and text on both outputs, or with a file to write.
-/

namespace MiniJava.CommandLine

/-- How a run ends. -/
structure Outcome where
  exitCode : UInt32
  stdout : String := ""
  stderr : String := ""

/-- What is left to do. -/
inductive Plan where
  | finish (outcome : Outcome)
  | write (path text : String)

/-- Why a run fails. -/
inductive Failure where
  | configUnreadable (path : String)
  | configInvalid (path : String)
  | inputUnreadable (path : String)
  | inputInvalid (path : String)
  | diagnosticsUnreadable (path : String)
  | diagnosticsInvalid (path : String)
  | outputUnwritable (path : String)
  | compilation (error : CompileError)

/-- The message of a failure. -/
def Failure.message : Failure → String
  | configUnreadable path => "failed to read config " ++ path
  | configInvalid path => "invalid config " ++ path
  | inputUnreadable path => "failed to read " ++ path
  | inputInvalid path => "invalid syntax tree in " ++ path
  | diagnosticsUnreadable path => "failed to read diagnostics " ++ path
  | diagnosticsInvalid path => "invalid diagnostics " ++ path
  | outputUnwritable path => "failed to write " ++ path
  | compilation error => error.message

/-- The end of a run that fails, with the lines printed before. -/
def Failure.outcome (f : Failure) (before : String) : Outcome :=
  { exitCode := 1, stderr := before ++ "Error: " ++ f.message ++ "\n" }

/-- The end of a run that succeeds with text on the output. -/
def Outcome.success (stdout : String) : Outcome :=
  { exitCode := 0, stdout }

/-- The end of a run whose arguments are wrong. -/
def Outcome.usage : Outcome :=
  { exitCode := 2, stderr := "usage: jmmc compile INPUT [OPTIONS]\n" }

/-- How deep the arrays and objects of a document are taken apart. -/
def maxDepth : Nat := 127

/-- The text of a file, if it can be read. -/
abbrev Reading := String → Option String

/-- A value or a failure. -/
def orElse {α : Type} (value : Option α) (failure : Failure) : Except Failure α :=
  match value with
  | some value => .ok value
  | none => .error failure

/-- The options: those of the config file, if there is one, with those of the arguments on top. -/
def options (read : Reading) (args : CompileArgs) : Except Failure Options := do
  let base ← match args.config with
    | none => pure {}
    | some path =>
      let text ← orElse (read path) (.configUnreadable path)
      orElse (Config.options? text) (.configInvalid path)
  return { base with
    optimize := base.optimize || args.optimize
    maxPasses := args.maxPasses.getD base.maxPasses
    stackPolicy := args.stackPolicy.getD base.stackPolicy }

/-- The program of the input file. -/
def program (read : Reading) (path : String) : Except Failure Program := do
  let text ← orElse (read path) (.inputUnreadable path)
  orElse ((Json.read? maxDepth text).bind (Program.ofJson? true)) (.inputInvalid path)

/-- The reports of the diagnostics file, none if there is no such file. -/
def diagnostics (read : Reading) : Option String → Except Failure (List Diagnostic)
  | none => .ok []
  | some path => do
    let text ← orElse (read path) (.diagnosticsUnreadable path)
    orElse ((Json.read? maxDepth text).bind Diagnostic.listOfJson?) (.diagnosticsInvalid path)

/-- The text that is written for a checked program. -/
def render (form : OutputForm) (options : Options) (checked : Checked) :
    Except CompileError String :=
  match form with
  | .listing => Compiler.listing options checked
  | .assembly => do
    return "\n".intercalate ((← Compiler.compile options checked).map (·.text))

/-- Everything that is read before the program is compiled. -/
def prepare (read : Reading) (args : CompileArgs) : Except Failure (Options × Checked) := do
  let options ← options read args
  let program ← program read args.input
  let symbols ← (SymbolTable.build program).mapError Failure.compilation
  let diagnostics ← diagnostics read args.diagnostics
  return (options, { program, symbols, diagnostics })

/-- The lines for the reports that block compilation. -/
def errorLines (ds : List Diagnostic) : String :=
  String.join ((ds.filter (·.isError)).map (·.text ++ "\n"))

/-- Runs the request to compile. -/
def compile (read : Reading) (args : CompileArgs) : Plan :=
  match prepare read args with
  | .error failure => .finish (failure.outcome "")
  | .ok (options, checked) =>
    match render args.form options checked with
    | .error error =>
      .finish ((Failure.compilation error).outcome (errorLines checked.diagnostics))
    | .ok text =>
      match args.output with
      | some path => .write path text
      | none => .finish (.success text)

/-- Runs the command with its arguments. -/
def run (read : Reading) (args : List String) : Plan :=
  match Command.ofArgs? args with
  | none => .finish .usage
  | some .version => .finish (.success "jmmc 0.1.0\n")
  | some .help => .finish (.success "usage: jmmc compile INPUT [OPTIONS]\n")
  | some (.compile request) => compile read request

/-- The files that a run may read. -/
def inputs (args : List String) : List String :=
  match Command.ofArgs? args with
  | some (.compile request) => request.input :: request.config.toList ++ request.diagnostics.toList
  | _ => []

/-- The end of a run after the file was written, or not. -/
def afterWrite (path : String) (written : Bool) : Outcome :=
  if written then .success "" else (Failure.outputUnwritable path).outcome ""

end MiniJava.CommandLine
