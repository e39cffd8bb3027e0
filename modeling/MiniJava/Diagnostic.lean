import MiniJava.Error

/-!
# Diagnostics

Reports that come with a checked program. Warnings and notes are carried along; a single error keeps
the program from being compiled.
-/

namespace MiniJava

/-- How grave a report is. -/
inductive Severity where
  | error
  | warning
  | info
  deriving DecidableEq

/-- A severity in words. -/
def Severity.text : Severity → String
  | error => "error"
  | warning => "warning"
  | info => "info"

/-- Who made a report. -/
inductive Stage where
  | syntactic
  | semantic
  | optimization
  | generation
  deriving DecidableEq

/-- A stage in words. -/
def Stage.text : Stage → String
  | syntactic => "Syntactic"
  | semantic => "Semantic"
  | optimization => "Optimization"
  | generation => "Generation"

/-- A report on a place of the source text. -/
structure Diagnostic where
  severity : Severity
  stage : Stage
  line : UInt32
  column : UInt32
  message : String
  deriving DecidableEq

namespace Diagnostic

/-- Whether the report blocks compilation. -/
def isError (d : Diagnostic) : Bool :=
  d.severity == .error

/-- A report in one line. -/
def text (d : Diagnostic) : String :=
  toString d.line.toNat ++ ":" ++ toString d.column.toNat ++ ": " ++ d.severity.text ++ " ("
    ++ d.stage.text ++ "): " ++ d.message

/-- How many reports block compilation. -/
def errorCount (ds : List Diagnostic) : Nat :=
  ds.countP (·.isError)

/-- Lets a program through that no report blocks. -/
def gate (ds : List Diagnostic) : Except CompileError Unit :=
  if errorCount ds = 0 then .ok () else .error (.semanticErrors (errorCount ds))

end Diagnostic

end MiniJava
