import MiniJava.Jvm.Descriptor
import MiniJava.Literal

/-!
# Values, worlds and actions

What the source language, the intermediate code and the emitted code have in common when they run:
values, the heap, the record of the calls made so far, and the operations on them. Every operation
is an `Action`: it gives a value or throws, and where an operand is of the wrong kind it is stuck.

A `Platform` holds what the three languages may differ in: how the booleans are represented, which
values a type has, which class a name denotes, which values an array takes, and how calls answer. The
answer of a call may depend on the heap, the target, the name of the method and the values of the
arguments.
-/

namespace MiniJava

namespace Jvm.Descriptor

/-- The descriptor of a type, given which class a name denotes. -/
def ofTy (classOf : String → String) : Ty → Descriptor
  | .int => .int
  | .boolean => .boolean
  | .void => .void
  | .string => .object stringClass
  | .object name => .object (classOf name)
  | .array element => .array (ofTy classOf element)

/-- The classes beside their own that arrays have. -/
def arrayClasses : List String := [objectClass, "java/lang/Cloneable", "java/io/Serializable"]

/-- Whether what has a descriptor may be stored where another one is asked for, given which classes
extend which other ones. -/
def isSubtype (extends? : String → String → Bool) : Descriptor → Descriptor → Bool
  | .object name, .object super => name == super || super == objectClass || extends? name super
  | .array _, .object super => arrayClasses.contains super
  | .array element, .array element' => element.isSubtype extends? element'
  | d, d' => d == d'

end Jvm.Descriptor

namespace Semantics

open Jvm (Descriptor)

/-- A value: a scalar, or a reference to a cell of the heap. -/
inductive Value where
  | int (value : Int32)
  | bool (value : Bool)
  | null
  | ref (address : Nat)
  deriving DecidableEq

/-- A cell of the heap. A field is known by the class it is read from and its name; one that was
never written is not listed. An array knows what it has elements of. -/
inductive Cell where
  | object (className : String) (fields : List ((String × String) × Value))
  | array (element : Descriptor) (items : List Value)
  deriving DecidableEq

/-- The class of an object or array. -/
def Cell.descriptor : Cell → Descriptor
  | object className _ => .object className
  | array element _ => .array element

/-- The cells by address. New cells are put at the end. -/
abbrev Heap := List Cell

/-- What can be thrown. -/
inductive Exn where
  | arithmetic
  | nullPointer
  | indexOutOfBounds
  | arrayStore
  | negativeArraySize
  | custom (value : Value)
  deriving DecidableEq

/-- What a method is called on. -/
inductive Target where
  | object (value : Value)
  | static (className : String)
  deriving DecidableEq

/-- A call with the values it passes. -/
structure CallEvent where
  target : Target
  method : String
  args : List Value
  deriving DecidableEq

/-- What a run can change: the heap, and the calls made so far, the first one in front. -/
structure World where
  heap : Heap := []
  calls : List CallEvent := []
  deriving DecidableEq

/-- How a call ends, with the heap it leaves. -/
inductive Reply where
  | returned (value : Value) (heap : Heap)
  | threw (exn : Exn) (heap : Heap)

/-! ## Actions -/

/-- How an action ends. It may also be stuck, or stopped because a bound on its length is
reached. -/
inductive Result (α : Type) where
  | ok (value : α) (world : World)
  | threw (exn : Exn) (world : World)
  | stuck
  | outOfFuel

/-- A step of a run. -/
def Action (α : Type) : Type :=
  World → Result α

namespace Action

variable {α β : Type}

/-- Runs an action, and what its value asks for behind it. -/
def bind (a : Action α) (f : α → Action β) : Action β := fun w =>
  match a w with
  | .ok v w' => f v w'
  | .threw e w' => .threw e w'
  | .stuck => .stuck
  | .outOfFuel => .outOfFuel

instance : Monad Action where
  pure v := fun w => .ok v w
  bind := bind

/-- An operand is of the wrong kind. -/
def stuck : Action α := fun _ => .stuck

/-- The bound on the length of the run is reached. -/
def outOfFuel : Action α := fun _ => .outOfFuel

/-- Throws an exception. -/
def throw (e : Exn) : Action α := fun w => .threw e w

/-- Goes on only if a condition on the kinds of operands holds. -/
def check (condition : Bool) : Action Unit :=
  if condition then pure () else stuck

theorem bind_apply (a : Action α) (f : α → Action β) (w : World) :
    (a >>= f) w = match a w with
      | .ok v w' => f v w'
      | .threw e w' => .threw e w'
      | .stuck => .stuck
      | .outOfFuel => .outOfFuel :=
  rfl

theorem pure_inj {v v' : α} (h : (pure v : Action α) = pure v') : v = v' := by
  have hw := congrFun h {}
  cases hw
  rfl

theorem stuck_ne_pure (v : α) : (stuck : Action α) ≠ pure v := by
  intro h
  have hw := congrFun h {}
  cases hw

theorem map_eq_bind (f : α → β) (a : Action α) : f <$> a = a >>= fun v => pure (f v) :=
  rfl

theorem id_map_eq (a : Action α) : id <$> a = a := by
  funext w
  rw [map_eq_bind, bind_apply]
  cases a w <;> rfl

theorem bind_assoc_eq {γ : Type} (a : Action α) (f : α → Action β) (g : β → Action γ) :
    a >>= f >>= g = a >>= fun v => f v >>= g := by
  funext w
  rw [bind_apply, bind_apply, bind_apply]
  cases a w <;> rfl

instance : LawfulMonad Action :=
  LawfulMonad.mk' Action id_map_eq (fun _ _ => rfl) bind_assoc_eq

theorem bind_ne_stuck {a : Action α} {f : α → Action β} {w : World} (h : (a >>= f) w ≠ .stuck) :
    a w ≠ .stuck := by
  intro ha
  rw [bind_apply, ha] at h
  exact h rfl

theorem next_ne_stuck {a : Action α} {f : α → Action β} {w w' : World} {v : α}
    (h : (a >>= f) w ≠ .stuck) (ha : a w = .ok v w') : f v w' ≠ .stuck := by
  rw [bind_apply, ha] at h
  exact h

theorem bind_eq_ok {a : Action α} {f : α → Action β} {w w' : World} {v : β}
    (h : (a >>= f) w = .ok v w') : ∃ x t, a w = .ok x t ∧ f x t = .ok v w' := by
  rw [bind_apply] at h
  cases ha : a w with
  | ok x t =>
    rw [ha] at h
    exact ⟨x, t, rfl, h⟩
  | threw | stuck | outOfFuel =>
    rw [ha] at h
    cases h

theorem bind_congr_at {a a' : Action α} {f f' : α → Action β} {w : World} (ha : a' w = a w)
    (hf : ∀ v w', a w = .ok v w' → f' v w' = f v w') : (a' >>= f') w = (a >>= f) w := by
  rw [bind_apply, bind_apply, ha]
  cases h : a w with
  | ok v w' => exact hf v w' h
  | threw e w' => rfl
  | stuck => rfl
  | outOfFuel => rfl

/-- An action that never stops because of a bound on its length. -/
def Ends (a : Action α) : Prop :=
  ∀ w, a w ≠ .outOfFuel

namespace Ends

theorem pure (v : α) : Ends (pure v) :=
  fun _ => nofun

theorem throw (e : Exn) : Ends (Action.throw e : Action α) :=
  fun _ => nofun

theorem stuck : Ends (Action.stuck : Action α) :=
  fun _ => nofun

theorem bind {a : Action α} {f : α → Action β} (ha : Ends a) (hf : ∀ v, Ends (f v)) :
    Ends (a >>= f) := by
  intro w h
  rw [bind_apply] at h
  cases hw : a w with
  | ok v w' =>
    rw [hw] at h
    exact hf v w' h
  | threw e w' =>
    rw [hw] at h
    cases h
  | stuck =>
    rw [hw] at h
    cases h
  | outOfFuel => exact ha w hw

theorem ite {p : Prop} [Decidable p] {a b : Action α} (ha : Ends a) (hb : Ends b) :
    Ends (if p then a else b) := by
  by_cases h : p
  · rwa [if_pos h]
  · rwa [if_neg h]

theorem check (condition : Bool) : Ends (Action.check condition) :=
  .ite (.pure ()) .stuck

end Ends

end Action

/-! ## Operations on values and the heap -/

/-- An operation that needs two integers. -/
def onInts {α : Type} (f : Int32 → Int32 → Action α) : Value → Value → Action α
  | .int x, .int y => f x y
  | _, _ => Action.stuck

/-- The quotient, truncated. -/
def quotient (x y : Int32) : Action Value :=
  if y = 0 then Action.throw .arithmetic else pure (.int (x / y))

/-- Puts a new cell into the heap. -/
def alloc (cell : Cell) : Action Value := fun w =>
  .ok (.ref w.heap.length) { w with heap := w.heap ++ [cell] }

/-- A new array of the given length, all of whose items are the given one. -/
def newArray (element : Descriptor) (item : Value) : Value → Action Value
  | .int n =>
    if n < 0 then Action.throw .negativeArraySize
    else alloc (.array element (List.replicate n.toInt.toNat item))
  | _ => Action.stuck

/-- The cell a reference leads to, with its address. -/
def deref : Value → Action (Nat × Cell)
  | .null => Action.throw .nullPointer
  | .ref address => fun w =>
    match w.heap[address]? with
    | some cell => .ok (address, cell) w
    | none => .stuck
  | .int _ | .bool _ => Action.stuck

/-- Changes the cell at an address. -/
def setCell (address : Nat) (cell : Cell) : Action Unit := fun w =>
  .ok () { w with heap := w.heap.set address cell }

/-- The items of an array, with its address and what it has elements of. -/
def itemsOf (array : Value) : Action (Nat × Descriptor × List Value) := do
  match ← deref array with
  | (address, .array element items) => return (address, element, items)
  | (_, .object ..) => Action.stuck

/-- The place in a list that an index stands for. -/
def placeOf (index : Value) (length : Nat) : Action Nat :=
  match index with
  | .int n =>
    if 0 ≤ n ∧ n.toInt.toNat < length then pure n.toInt.toNat else Action.throw .indexOutOfBounds
  | .bool _ | .null | .ref _ => Action.stuck

/-- The item of an array at an index. -/
def loadElement (array index : Value) : Action Value := do
  let (_, _, items) ← itemsOf array
  let place ← placeOf index items.length
  return items.getD place .null

/-- The number of items of an array. -/
def arrayLength (array : Value) : Action Value := do
  let (_, _, items) ← itemsOf array
  return .int (.ofNat items.length)

/-- The fields of an object, with its class and address. -/
def fieldsOf (object : Value) : Action (Nat × String × List ((String × String) × Value)) := do
  match ← deref object with
  | (address, .object className fields) => return (address, className, fields)
  | (_, .array ..) => Action.stuck

/-- The value of a field, the given one if it was never written. -/
def getField (initial : Value) (owner field : String) (object : Value) : Action Value := do
  let (_, _, fields) ← fieldsOf object
  return (fields.lookup (owner, field)).getD initial

/-- Changes the value of a field. -/
def putField (owner field : String) (object value : Value) : Action Unit := do
  let (address, className, fields) ← fieldsOf object
  setCell address (.object className
    (((owner, field), value) :: fields.filter (·.1 != (owner, field))))

/-! ## Operations end -/

section Ends

open MiniJava.Semantics.Action (Ends)

theorem onInts_ends {α : Type} {f : Int32 → Int32 → Action α} (hf : ∀ x y, Ends (f x y))
    (v v' : Value) : Ends (onInts f v v') := by
  cases v <;> cases v' <;> first | exact hf _ _ | exact .stuck

theorem quotient_ends (x y : Int32) : Ends (quotient x y) :=
  .ite (.throw _) (.pure _)

theorem alloc_ends (cell : Cell) : Ends (alloc cell) :=
  fun _ => nofun

theorem newArray_ends (element : Descriptor) (item size : Value) :
    Ends (newArray element item size) := by
  cases size with
  | int n => exact .ite (.throw _) (alloc_ends _)
  | bool | null | ref => exact .stuck

theorem deref_ends (v : Value) : Ends (deref v) := by
  cases v with
  | null => exact .throw _
  | ref address =>
    intro w
    show (match w.heap[address]? with
      | some cell => Result.ok (address, cell) w
      | none => .stuck) ≠ .outOfFuel
    cases w.heap[address]? <;> nofun
  | int | bool => exact .stuck

theorem itemsOf_ends (array : Value) : Ends (itemsOf array) := by
  refine (deref_ends array).bind fun (address, cell) => ?_
  cases cell with
  | array element items => exact .pure _
  | object className fields => exact .stuck

theorem placeOf_ends (index : Value) (length : Nat) : Ends (placeOf index length) := by
  cases index with
  | int n => exact .ite (.pure _) (.throw _)
  | bool | null | ref => exact .stuck

theorem loadElement_ends (array index : Value) : Ends (loadElement array index) :=
  (itemsOf_ends array).bind fun _ => (placeOf_ends _ _).bind fun _ => .pure _

theorem arrayLength_ends (array : Value) : Ends (arrayLength array) :=
  (itemsOf_ends array).bind fun _ => .pure _

theorem fieldsOf_ends (object : Value) : Ends (fieldsOf object) := by
  refine (deref_ends object).bind fun (address, cell) => ?_
  cases cell with
  | object className fields => exact .pure _
  | array element items => exact .stuck

theorem getField_ends (initial : Value) (owner field : String) (object : Value) :
    Ends (getField initial owner field object) :=
  (fieldsOf_ends object).bind fun _ => .pure _

theorem putField_ends (owner field : String) (object value : Value) :
    Ends (putField owner field object value) :=
  (fieldsOf_ends object).bind fun _ _ => nofun

end Ends

/-! ## Platforms -/

/-- What a run depends on beside the code. -/
structure Platform where
  /-- The representation of the booleans. -/
  truth : Bool → Value
  /-- The values of a type. -/
  holds : Ty → Value → Bool
  /-- The values that a field of a class may be given. -/
  fieldHolds : String → String → Value → Bool := fun _ _ _ => true
  /-- The class that a name denotes. -/
  classOf : String → String
  /-- Whether an array of the heap takes a value, given what it has elements of. -/
  admits : Heap → Descriptor → Value → Bool := fun _ _ _ => true
  /-- The answer of a call. -/
  reply : Heap → Target → String → List Value → Reply
  truth_ne : truth true ≠ truth false
  holds_int : ∀ n, holds .int (.int n)
  holds_truth : ∀ b, holds .boolean (truth b)
  holds_ref : ∀ ty address, ty.isReference → holds ty (.ref address)

namespace Platform

variable (P : Platform)

/-- The value of a constant. -/
def literal : Literal → Value
  | .int n => .int n
  | .bool b => P.truth b

/-- What the variables of a type hold before they are written. -/
def zero : Ty → Value
  | .int => .int 0
  | .boolean => P.truth false
  | .string | .void | .object _ | .array _ => .null

/-- What the arrays have elements of that are made for a type. -/
def elementClass (ty : Ty) : Descriptor :=
  (Descriptor.ofTy P.classOf ty).component

/-- A new array for items of a type. -/
def newArray (ty : Ty) (size : Value) : Action Value :=
  Semantics.newArray (P.elementClass ty) (P.zero ty) size

/-- Goes on only if an array takes a value. -/
def checkItem (element : Descriptor) (value : Value) : Action Unit := fun w =>
  if P.admits w.heap element value then .ok () w else .threw .arrayStore w

/-- Changes the item of an array at an index. -/
def storeElement (array index value : Value) : Action Unit := do
  let (address, element, items) ← itemsOf array
  let place ← placeOf index items.length
  P.checkItem element value
  setCell address (.array element (items.set place value))

/-- The boolean that a value represents. -/
def test (v : Value) : Action Bool :=
  if v = P.truth true then pure true
  else if v = P.truth false then pure false
  else Action.stuck

/-- A value that has to be of a type. -/
def expect (ty : Ty) (v : Value) : Action Value :=
  if P.holds ty v then pure v else Action.stuck

/-- Changes the value of a field that may be given it. -/
def writeField (owner field : String) (object value : Value) : Action Unit := do
  Action.check (P.fieldHolds owner field value)
  putField owner field object value

/-- Calls a method. The call is recorded, and its answer decides how it ends. -/
def answer (target : Target) (method : String) (args : List Value) : Action Value := fun w =>
  let calls := w.calls ++ [{ target, method, args }]
  match P.reply w.heap target method args with
  | .returned value heap => .ok value { heap, calls }
  | .threw exn heap => .threw exn { heap, calls }

/-- Calls a method on a target, which must not be the null reference. -/
def invoke (target : Target) (method : String) (args : List Value) : Action Value :=
  match target with
  | .object .null => Action.throw .nullPointer
  | .object (.int _) | .object (.bool _) => Action.stuck
  | .object (.ref _) | .static _ => P.answer target method args

theorem test_truth (b : Bool) : P.test (P.truth b) = pure b := by
  cases b
  · rw [test, if_neg (Ne.symm P.truth_ne), if_pos rfl]
  · rw [test, if_pos rfl]

theorem holds_literal (l : Literal) : P.holds l.ty (P.literal l) := by
  cases l with
  | int n => exact P.holds_int n
  | bool b => exact P.holds_truth b

theorem expect_eq_ok {ty : Ty} {v v' : Value} {w w' : World} (h : P.expect ty v w = .ok v' w') :
    v' = v ∧ w' = w ∧ P.holds ty v := by
  rw [expect] at h
  by_cases hv : P.holds ty v
  · rw [if_pos hv] at h
    cases h
    exact ⟨rfl, rfl, hv⟩
  · rw [if_neg hv] at h
    cases h

theorem expect_holds {α : Type} {ty : Ty} {a : Action α} {f : α → Value} {v : Value} {w w' : World}
    (h : (a >>= fun x => P.expect ty (f x)) w = .ok v w') : P.holds ty v := by
  obtain ⟨x, t, _, hx⟩ := Action.bind_eq_ok h
  obtain ⟨rfl, _, hholds⟩ := P.expect_eq_ok hx
  exact hholds

/-- A test is stuck unless the value represents a boolean. -/
theorem test_cases (v : Value) :
    P.test v = Action.stuck ∨ ∃ b, v = P.truth b ∧ P.test v = pure b := by
  by_cases ht : v = P.truth true
  · exact .inr ⟨true, ht, by rw [ht, P.test_truth]⟩
  · by_cases hf : v = P.truth false
    · exact .inr ⟨false, hf, by rw [hf, P.test_truth]⟩
    · exact .inl (by rw [test, if_neg ht, if_neg hf])

theorem test_ends (v : Value) : Action.Ends (P.test v) :=
  .ite (.pure _) (.ite (.pure _) .stuck)

theorem expect_ends (ty : Ty) (v : Value) : Action.Ends (P.expect ty v) :=
  .ite (.pure _) .stuck

theorem newArray_ends (ty : Ty) (size : Value) : Action.Ends (P.newArray ty size) :=
  Semantics.newArray_ends _ _ size

theorem storeElement_ends (array index value : Value) :
    Action.Ends (P.storeElement array index value) := by
  refine (itemsOf_ends array).bind fun _ => (placeOf_ends _ _).bind fun _ => .bind ?_ fun _ _ => nofun
  intro w
  rw [checkItem]
  split <;> nofun

theorem writeField_ends (owner field : String) (object value : Value) :
    Action.Ends (P.writeField owner field object value) :=
  (Action.Ends.check _).bind fun _ => putField_ends _ _ _ _

theorem answer_ends (target : Target) (method : String) (args : List Value) :
    Action.Ends (P.answer target method args) := by
  intro w
  rw [answer]
  cases P.reply w.heap target method args <;> nofun

theorem invoke_ends (target : Target) (method : String) (args : List Value) :
    Action.Ends (P.invoke target method args) := by
  cases target with
  | static className => exact P.answer_ends _ _ _
  | object value =>
    cases value with
    | null => exact .throw _
    | int | bool => exact .stuck
    | ref => exact P.answer_ends _ _ _

end Platform

/-- The platform that tells the kinds of scalars apart and represents booleans by themselves. -/
def typed (classOf : String → String) (reply : Heap → Target → String → List Value → Reply) :
    Platform where
  truth := .bool
  holds ty v := match ty, v with
    | .int, .int _ | .boolean, .bool _ => true
    | .string, .null | .string, .ref _ => true
    | .object _, .null | .object _, .ref _ => true
    | .array _, .null | .array _, .ref _ => true
    | _, _ => false
  classOf
  reply
  truth_ne := by decide
  holds_int _ := rfl
  holds_truth _ := rfl
  holds_ref ty _ h := by cases ty <;> first | rfl | cases h

/-- The platform of machine words, where a boolean is one or zero. -/
def words (classOf : String → String) (reply : Heap → Target → String → List Value → Reply) :
    Platform where
  truth b := .int (if b then 1 else 0)
  holds ty v := match ty, v with
    | .int, .int _ => true
    | .boolean, .int n => n == 0 || n == 1
    | .string, .null | .string, .ref _ => true
    | .object _, .null | .object _, .ref _ => true
    | .array _, .null | .array _, .ref _ => true
    | _, _ => false
  classOf
  reply
  truth_ne := by decide
  holds_int _ := rfl
  holds_truth b := by cases b <;> rfl
  holds_ref ty _ h := by cases ty <;> first | rfl | cases h

/-! ## Runs -/

/-- How a run of a method ends, if it does. -/
inductive Outcome where
  | returned (value : Option Value) (world : World)
  | threw (exn : Exn) (world : World)
  | endless
  deriving DecidableEq

/-- That a run, given by what it does up to every bound on its length, has an outcome from a
world on. -/
def HasOutcome (run : Nat → Action (Option Value)) (w : World) : Outcome → Prop
  | .returned value w' => ∃ fuel, run fuel w = .ok value w'
  | .threw exn w' => ∃ fuel, run fuel w = .threw exn w'
  | .endless => ∀ fuel, run fuel w = .outOfFuel

end Semantics

end MiniJava
