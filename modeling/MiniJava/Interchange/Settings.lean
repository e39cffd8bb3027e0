import MiniJava.Diagnostic
import MiniJava.Json.Decode
import MiniJava.Options

/-!
# Options and diagnostics as JSON
-/

namespace MiniJava

open Json (required optional)

/-- The names of the stack policies. -/
def StackPolicy.tags : List (String × StackPolicy) :=
  [("conservative", .conservative), ("exact", .exact)]

/-- The name of a stack policy. -/
def StackPolicy.name : StackPolicy → String
  | conservative => "conservative"
  | exact => "exact"

/-- The names of the codes for negation. -/
def Negation.tags : List (String × Negation) :=
  [("self_xor", .selfXor), ("xor_one", .xorOne)]

/-- The name of a code for negation. -/
def Negation.name : Negation → String
  | selfXor => "self_xor"
  | xorOne => "xor_one"

/-- The JSON form of options. -/
def Options.toJson (o : Options) : Json :=
  .obj [("optimize", .bool o.optimize), ("max_optimization_passes", .int o.maxPasses.toNat),
    ("stack_limit", .str o.stackPolicy.name), ("negation", .str o.negation.name)]

/-- Reads options. Every part may be left out. -/
def Options.ofJson? (j : Json) : Option Options := do
  let [optimize, maxPasses, stackPolicy, negation] ←
    j.record? ["optimize", "max_optimization_passes", "stack_limit", "negation"] | none
  let default : Options := {}
  return {
    optimize := ← optional optimize default.optimize fun v => v.1.bool?
    maxPasses := ← optional maxPasses default.maxPasses fun v => v.1.uint64?
    stackPolicy := ← optional stackPolicy default.stackPolicy fun v => v.1.tag? StackPolicy.tags
    negation := ← optional negation default.negation fun v => v.1.tag? Negation.tags }

/-- The names of the severities. -/
def Severity.tags : List (String × Severity) :=
  [("error", .error), ("warning", .warning), ("info", .info)]

/-- The names of the stages. -/
def Stage.tags : List (String × Stage) :=
  [("syntactic", .syntactic), ("semantic", .semantic), ("optimization", .optimization),
    ("generation", .generation)]

/-- The name of a stage. -/
def Stage.name : Stage → String
  | syntactic => "syntactic"
  | semantic => "semantic"
  | optimization => "optimization"
  | generation => "generation"

/-- The JSON form of a diagnostic. -/
def Diagnostic.toJson (d : Diagnostic) : Json :=
  .obj [("severity", .str d.severity.text), ("stage", .str d.stage.name),
    ("line", .int d.line.toNat), ("column", .int d.column.toNat), ("message", .str d.message)]

/-- Reads a diagnostic. -/
def Diagnostic.ofJson? (j : Json) : Option Diagnostic := do
  let [severity, stage, line, column, message] ←
    j.record? ["severity", "stage", "line", "column", "message"] | none
  return {
    severity := ← required severity fun v => v.1.tag? Severity.tags
    stage := ← required stage fun v => v.1.tag? Stage.tags
    line := ← required line fun v => v.1.uint32?
    column := ← required column fun v => v.1.uint32?
    message := ← required message fun v => v.1.str? }

/-- The JSON form of a list of diagnostics. -/
def Diagnostic.listToJson (ds : List Diagnostic) : Json :=
  .arr (ds.map (·.toJson))

/-- Reads a list of diagnostics. -/
def Diagnostic.listOfJson? (j : Json) : Option (List Diagnostic) :=
  j.list? Diagnostic.ofJson?

end MiniJava
