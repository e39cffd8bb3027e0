import MiniJava.Json.Token
import MiniJava.Json.Writer

/-!
# Reading JSON

Builds the value of a document from its tokens, with the arrays and objects that are still open on a
stack. A document may be nested without a limit, but only the outer arrays and objects are taken
apart if the reader is told how many.
-/

namespace MiniJava.Json

/-- The name of a member: text, or the spelling of what no text stands for. -/
inductive Name where
  | text (value : String)
  | broken (spelling : String)

namespace Name

/-- The text of a name. -/
def text? : Name → Option String
  | text value => some value
  | broken _ => none

/-- How a name is written. -/
def spelling : Name → String
  | text value => quote value
  | broken spelling => spelling

/-- The name that a token gives. -/
def ofToken? : Token → Option Name
  | .str value => some (text value)
  | .broken spelling => some (broken spelling)
  | _ => none

end Name

/-- An object with the given members. -/
def ofMembers (members : List (Name × Json)) : Json :=
  match members.mapM fun (name, value) => name.text?.map (·, value) with
  | some members => .obj members
  | none =>
    .other ("\x7b" ++ ",".intercalate (members.map fun (name, value) =>
      name.spelling ++ ":" ++ value.compact) ++ "\x7d")

/-- An array or object that is still open, what it holds in reverse. An object has the name of the
member that comes next. -/
inductive Frame where
  | items (done : List Json)
  | members (done : List (Name × Json)) (name : Name)

/-- What may come next. -/
inductive Expected where
  | value
  | valueOrClose
  | nameOrClose
  | name
  | colon (name : Name)
  | commaOrClose
  | nothing (result : Json)

/-- The state of reading: the open frames, the innermost first, and what may come next. -/
structure ReadState where
  stack : List Frame := []
  expected : Expected := .value

namespace ReadState

/-- Puts a finished value into the innermost frame. -/
def finish (stack : List Frame) (value : Json) : ReadState :=
  match stack with
  | [] => ⟨[], .nothing value⟩
  | .items done :: rest => ⟨.items (value :: done) :: rest, .commaOrClose⟩
  | .members done name :: rest => ⟨.members ((name, value) :: done) name :: rest, .commaOrClose⟩

/-- Takes a token where a value may begin. -/
def beginValue? (stack : List Frame) : Token → Option ReadState
  | .scalar value => some (finish stack value)
  | .str value => some (finish stack (.str value))
  | .broken spelling => some (finish stack (.other spelling))
  | .openBracket => some ⟨.items [] :: stack, .valueOrClose⟩
  | .openBrace => some ⟨.members [] (.text "") :: stack, .nameOrClose⟩
  | _ => none

/-- Puts a finished array or object into the innermost frame. It keeps its spelling only if just as
many frames are open as are taken apart. -/
def finishNested (maxDepth : Option Nat) (stack : List Frame) (value : Json) : ReadState :=
  finish stack (if maxDepth = some stack.length then .other value.compact else value)

/-- Takes the token that closes the innermost frame. -/
def close? (maxDepth : Option Nat) : List Frame → Token → Option ReadState
  | .items done :: rest, .closeBracket => some (finishNested maxDepth rest (.arr done.reverse))
  | .members done _ :: rest, .closeBrace =>
    some (finishNested maxDepth rest (ofMembers done.reverse))
  | _, _ => none

/-- Takes the name of a member. -/
def takeName? (stack : List Frame) (token : Token) : Option ReadState :=
  (Name.ofToken? token).map fun name => ⟨stack, .colon name⟩

/-- Takes one token. -/
def step? (maxDepth : Option Nat) (s : ReadState) (token : Token) : Option ReadState :=
  match s.expected, token, s.stack with
  | .value, _, stack => beginValue? stack token
  | .valueOrClose, .closeBracket, stack => close? maxDepth stack token
  | .valueOrClose, _, stack => beginValue? stack token
  | .nameOrClose, .closeBrace, stack => close? maxDepth stack token
  | .nameOrClose, _, stack | .name, _, stack => takeName? stack token
  | .colon name, .colon, .members done _ :: rest => some ⟨.members done name :: rest, .value⟩
  | .commaOrClose, .comma, .items done :: rest => some ⟨.items done :: rest, .value⟩
  | .commaOrClose, .comma, .members done name :: rest =>
    some ⟨.members done name :: rest, .name⟩
  | .commaOrClose, _, stack => close? maxDepth stack token
  | _, _, _ => none

end ReadState

/-- The value of a document. Arrays and objects are taken apart as deep as `maxDepth` says; what is
nested deeper keeps its spelling only. -/
def read? (maxDepth : Option Nat) (text : String) : Option Json := do
  let tokens ← tokens? text.toList
  match (← tokens.foldlM (ReadState.step? maxDepth) {}).expected with
  | .nothing result => return result
  | _ => none

end MiniJava.Json
