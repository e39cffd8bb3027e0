/-!
# JSON values

A value as a document holds it: members of an object stay in their order, and a name may come twice.
Numbers that are integers have their value. What a document may hold but no decoder of this library
takes keeps its spelling only: a number with a fraction or an exponent, text with half of a surrogate
pair, an object that has such text for a name, and what is nested too deep.

The views at the end take a value apart for a decoder. Each part comes with the proof that it is
smaller than the whole, on which decoders of trees recurse.
-/

namespace MiniJava

/-- A JSON value. -/
inductive Json where
  | null
  | bool (value : Bool)
  | int (value : Int)
  | other (spelling : String)
  | str (value : String)
  | arr (items : List Json)
  | obj (members : List (String × Json))

namespace Json

/-- A value inside another one. -/
abbrev Part (whole : Json) := { part : Json // sizeOf part < sizeOf whole }

/-- An item is smaller than its array. -/
theorem sizeOf_item_lt {items : List Json} {item : Json} (h : item ∈ items) :
    sizeOf item < sizeOf (arr items) := by
  have := List.sizeOf_lt_of_mem h
  simp only [arr.sizeOf_spec]
  omega

/-- The value of a member is smaller than its object. -/
theorem sizeOf_member_lt {members : List (String × Json)} {member : String × Json}
    (h : member ∈ members) : sizeOf member.2 < sizeOf (obj members) := by
  have := List.sizeOf_lt_of_mem h
  obtain ⟨name, value⟩ := member
  simp only [obj.sizeOf_spec, Prod.mk.sizeOf_spec] at *
  omega

/-- The items of an array. -/
def items? : (j : Json) → Option (List (Part j))
  | arr items => some (items.attach.map fun item => ⟨item.1, sizeOf_item_lt item.2⟩)
  | _ => none

/-- The tag of a variant with its payload: a bare string has none, an object with one member has the
value of the member. -/
def variant? : (j : Json) → Option (String × Option (Part j))
  | str tag => some (tag, none)
  | obj [(tag, payload)] =>
    some (tag, some ⟨payload, sizeOf_member_lt (List.mem_singleton_self (tag, payload))⟩)
  | _ => none

/-- The members of a record under the given names, each if it is there. Members with other names do
not matter, but none of the given names may come twice. A record may also list its members without
names in an array, which then leaves out none but the last ones. -/
def record? (names : List String) : (j : Json) → Option (List (Option (Part j)))
  | obj members =>
    if names.all fun name => members.countP (·.1 == name) ≤ 1 then
      some (names.map fun name =>
        (members.attach.find? (·.1.1 == name)).map fun member =>
          ⟨member.1.2, sizeOf_member_lt member.2⟩)
    else none
  | arr items =>
    if items.length ≤ names.length then
      some ((items.attach.map fun item => some ⟨item.1, sizeOf_item_lt item.2⟩)
        ++ List.replicate (names.length - items.length) none)
    else none
  | _ => none

/-- Whether a value is an array. -/
def isArr : Json → Bool
  | arr _ => true
  | _ => false

/-- The members of a record that belongs to a variant. Only where `listed` holds may they be listed
in an array. -/
def variantRecord? (listed : Bool) (names : List String) (j : Json) :
    Option (List (Option (Part j))) :=
  if j.isArr && !listed then none else j.record? names

/-- The text of a string. -/
def str? : Json → Option String
  | str value => some value
  | _ => none

/-- The value of a boolean. -/
def bool? : Json → Option Bool
  | bool value => some value
  | _ => none

/-- An integer of 32 bits with a sign. -/
def int32? : Json → Option Int32
  | int value => if -2147483648 ≤ value ∧ value ≤ 2147483647 then some (.ofInt value) else none
  | _ => none

/-- An integer of 32 bits without a sign. -/
def uint32? : Json → Option UInt32
  | int value => if 0 ≤ value ∧ value < 4294967296 then some (.ofNat value.toNat) else none
  | _ => none

/-- An integer of 64 bits without a sign. -/
def uint64? : Json → Option UInt64
  | int value => if 0 ≤ value ∧ value < 18446744073709551616 then some (.ofNat value.toNat) else none
  | _ => none

/-- Something that may be missing, which `null` says. -/
def nullable? {α : Type} (decode : Json → Option α) : Json → Option (Option α)
  | null => some none
  | j => (decode j).map some

end Json

end MiniJava
