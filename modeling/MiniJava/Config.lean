import MiniJava.Config.Value
import MiniJava.Interchange.Settings

/-!
# Config files

A config file gives options: on a line stand a key, an equals sign, and a value. A key may be
several names with points between them, and then gives a value inside a value. Blank lines and
comments do not matter, nor do keys that are no option. A key that comes twice is refused, and so is
one that goes on behind another.
-/

namespace MiniJava.Config

/-- A value with the names that lead to it. -/
structure Setting where
  name : String
  inner : List String
  value : Json

namespace Setting

/-- The names that lead to the value. -/
def path (s : Setting) : List String :=
  s.name :: s.inner

/-- The member of a record that the setting makes. -/
def member (s : Setting) : String × Json :=
  (s.name, s.inner.foldr (fun name value => .obj [(name, value)]) s.value)

/-- Whether two settings have the same place, or that of one is inside that of the other. -/
def clashes (s t : Setting) : Bool :=
  s.path.isPrefixOf t.path || t.path.isPrefixOf s.path

end Setting

/-- A name. -/
def name? (text : List Char) : Option (String × List Char) :=
  match text? false text with
  | some parsed => some parsed
  | none =>
    let word := text.takeWhile isKeyChar
    if word.isEmpty then none else some (String.ofList word, text.drop word.length)

/-- The names behind the first one, each with a point in front, at most as many as `fuel` says. -/
def inner? : (fuel : Nat) → List Char → Option (List String × List Char)
  | 0, _ => none
  | fuel + 1, text =>
    match skipBlanks text with
    | '.' :: rest => do
      let (name, rest) ← name? (skipBlanks rest)
      let (names, rest) ← inner? fuel rest
      return (name :: names, rest)
    | rest => some ([], rest)

/-- A setting at the front of a text. -/
def setting? (text : List Char) : Option (Setting × List Char) := do
  let (name, rest) ← name? (skipBlanks text)
  let (inner, rest) ← inner? (rest.length + 1) rest
  match rest with
  | '=' :: rest =>
    let (value, rest) ← value? (skipBlanks rest)
    return ({ name, inner, value }, rest)
  | _ => none

/-- What follows a line that holds nothing more, except perhaps a comment. -/
def endOfLine? (text : List Char) : Option (List Char) :=
  let rest := match skipBlanks text with
    | '#' :: comment => comment.dropWhile isPrintable
    | rest => rest
  match rest with
  | [] => some []
  | '\n' :: rest => some rest
  | _ => none

/-- The settings of a text in their order, for at most as many lines as `fuel` says. -/
def settingsFrom? : (fuel : Nat) → List Char → Option (List Setting)
  | _, [] => some []
  | 0, _ => none
  | fuel + 1, text =>
    match endOfLine? text with
    | some rest => settingsFrom? fuel rest
    | none => do
      let (setting, rest) ← setting? text
      let settings ← settingsFrom? fuel (← endOfLine? rest)
      return setting :: settings

/-- Text with plain newlines. -/
def plainNewlines : List Char → List Char
  | '\r' :: '\n' :: rest => '\n' :: plainNewlines rest
  | c :: rest => c :: plainNewlines rest
  | [] => []

/-- The settings of a file, which may begin with a byte order mark. -/
def settings? (file : String) : Option (List Setting) := do
  let text := match plainNewlines file.toList with
    | '\ufeff' :: text => text
    | text => text
  let settings ← settingsFrom? text.length text
  if settings.Pairwise fun s t => !s.clashes t then some settings else none

/-- The options that a file gives. -/
def options? (file : String) : Option Options := do
  Options.ofJson? (.obj ((← settings? file).map (·.member)))

end MiniJava.Config
