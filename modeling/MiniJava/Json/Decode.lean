import MiniJava.Json

/-!
# Decoding the parts of a record
-/

namespace MiniJava.Json

variable {α : Type} {whole : Json}

/-- A part that must be there. -/
def required (part : Option (Part whole)) (decode : Part whole → Option α) : Option α :=
  part.bind decode

/-- A part that stands for a default when it is left out. -/
def optional (part : Option (Part whole)) (default : α) (decode : Part whole → Option α) :
    Option α :=
  match part with
  | none => some default
  | some part => decode part

/-- The payload of a variant that carries nothing: none, or `null`. -/
def noPayload (payload : Option (Part whole)) (value : α) : Option α :=
  match payload with
  | none | some ⟨null, _⟩ => some value
  | _ => none

/-- An array of values that are decoded one by one. -/
def list? (decode : Json → Option α) (j : Json) : Option (List α) :=
  match j with
  | arr items => items.mapM decode
  | _ => none

/-- A variant without a payload, found by its tag. -/
def tag? (tags : List (String × α)) (j : Json) : Option α := do
  let (tag, payload) ← j.variant?
  noPayload payload (← tags.lookup tag)

end MiniJava.Json
