import MiniJava.Options

/-!
# Arguments of the command line

The arguments are read one after another. An option that takes a value has it behind an equals sign
or as the next argument; nothing may be given twice, and after two hyphens only the input may come.
-/

namespace MiniJava.CommandLine

/-- What is written. -/
inductive OutputForm where
  | assembly
  | listing
  deriving DecidableEq

/-- The options that take a value. -/
inductive ValueOption where
  | config
  | diagnostics
  | output
  | form
  | maxPasses
  | stackPolicy
  deriving DecidableEq

/-- What was read so far: the input, whether the optimizer is turned on, values in reverse, the
option that waits for its value, and whether only the input may come. -/
structure Draft where
  input : Option String := none
  optimize : Bool := false
  values : List (ValueOption × String) := []
  waiting : Option ValueOption := none
  escaped : Bool := false

/-- The request to compile. -/
structure CompileArgs where
  input : String
  optimize : Bool
  config : Option String
  diagnostics : Option String
  output : Option String
  form : OutputForm
  maxPasses : Option UInt64
  stackPolicy : Option StackPolicy

/-- What the command line asks for. -/
inductive Command where
  | version
  | help
  | compile (args : CompileArgs)

/-- Why reading of the arguments ends early. -/
inductive Stop where
  | usage
  | help

/-- The form of output of a name. -/
def OutputForm.ofName? : String → Option OutputForm
  | "jasmin" => some .assembly
  | "ir" => some .listing
  | _ => none

/-- The stack policy of a name. -/
def stackPolicyOfName? : String → Option StackPolicy
  | "conservative" => some .conservative
  | "exact" => some .exact
  | _ => none

/-- A number without a sign, or with a plus sign, of at most 64 bits. -/
def passCount? (text : String) : Option UInt64 :=
  let digits := match text.toList with
    | '+' :: rest => rest
    | rest => rest
  if digits.isEmpty || !digits.all Char.isDigit then none
  else
    let n := digits.foldl (fun n c => n * 10 + (c.toNat - 48)) 0
    if n < 18446744073709551616 then some (.ofNat n) else none

/-- Whether a text is a value of an option. Paths are not empty. -/
def ValueOption.accepts (text : String) : ValueOption → Bool
  | config | diagnostics | output => !text.isEmpty
  | form => (OutputForm.ofName? text).isSome
  | maxPasses => (passCount? text).isSome
  | stackPolicy => (stackPolicyOfName? text).isSome

/-- The option of a long name. -/
def ValueOption.ofName? : String → Option ValueOption
  | "config" => some config
  | "diagnostics" => some diagnostics
  | "output" => some output
  | "emit" => some form
  | "max-passes" => some maxPasses
  | "stack-limit" => some stackPolicy
  | _ => none

namespace Draft

/-- Gives an option its value. -/
def setValue (d : Draft) (option : ValueOption) (value : String) : Except Stop Draft :=
  if (d.values.lookup option).isSome || !option.accepts value then throw .usage
  else return { d with values := (option, value) :: d.values, waiting := none }

/-- Turns the optimizer on. -/
def setOptimize (d : Draft) : Except Stop Draft :=
  if d.optimize then throw .usage else return { d with optimize := true }

/-- Takes the input. -/
def setInput (d : Draft) (path : String) : Except Stop Draft :=
  if d.input.isSome || path.isEmpty then throw .usage else return { d with input := some path }

/-- Takes an option with a long name, its value perhaps attached. -/
def takeLong (d : Draft) (name : String) (attached : Option String) : Except Stop Draft :=
  match ValueOption.ofName? name, attached with
  | some option, some value => d.setValue option value
  | some option, none => return { d with waiting := some option }
  | none, none =>
    if name = "optimize" then d.setOptimize
    else if name = "help" then throw .help
    else throw .usage
  | none, some _ => throw .usage

/-- Takes options of one letter, written together. The output takes the rest as its value. -/
def takeShorts (d : Draft) : List Char → Except Stop Draft
  | [] => return d
  | 'O' :: rest => do (← d.setOptimize).takeShorts rest
  | 'h' :: _ => throw .help
  | ['o'] => return { d with waiting := some .output }
  | 'o' :: '=' :: value => d.setValue .output (String.ofList value)
  | 'o' :: value => d.setValue .output (String.ofList value)
  | _ :: _ => throw .usage

/-- Takes one argument. -/
def take (d : Draft) (arg : String) : Except Stop Draft :=
  match d.waiting, arg.toList with
  | some _, '-' :: _ :: _ => throw .usage
  | some option, _ => d.setValue option arg
  | none, '-' :: '-' :: name =>
    if d.escaped then d.setInput arg
    else if name.isEmpty then return { d with escaped := true }
    else
      let key := name.takeWhile (· ≠ '=')
      let attached := match name.drop key.length with
        | _ :: value => some (String.ofList value)
        | [] => none
      d.takeLong (String.ofList key) attached
  | none, '-' :: c :: letters =>
    if d.escaped then d.setInput arg else d.takeShorts (c :: letters)
  | none, _ => d.setInput arg

/-- The request, once all arguments are read. -/
def finish (d : Draft) : Except Stop CompileArgs :=
  match d.waiting, d.input with
  | none, some input =>
    let value (option : ValueOption) := d.values.lookup option
    return {
      input, optimize := d.optimize, config := value .config, diagnostics := value .diagnostics
      output := value .output
      form := ((value .form).bind OutputForm.ofName?).getD .assembly
      maxPasses := (value .maxPasses).bind passCount?
      stackPolicy := (value .stackPolicy).bind stackPolicyOfName? }
  | _, _ => throw .usage

end Draft

/-- What an argument in front of everything else asks for. Behind a hyphen only the first letter
counts. -/
def Command.ofFirst? (arg : String) : Option Command :=
  if arg = "--version" then some .version
  else if arg = "--help" then some .help
  else
    match arg.toList with
    | '-' :: 'V' :: _ => some .version
    | '-' :: 'h' :: _ => some .help
    | _ => none

/-- What arguments ask for; `none` if they are not used as they should be. Help is there for the
command as a whole, for compiling and for help itself. -/
def Command.ofArgs? : List String → Option Command
  | [] => none
  | "compile" :: args =>
    match args.foldlM Draft.take {} >>= Draft.finish with
    | .ok request => some (.compile request)
    | .error .help => some .help
    | .error .usage => none
  | "help" :: topic => if topic ∈ [[], ["compile"], ["help"]] then some .help else none
  | arg :: _ => Command.ofFirst? arg

end MiniJava.CommandLine
