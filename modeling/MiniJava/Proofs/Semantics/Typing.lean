import MiniJava.Proofs.Semantics.Rules

/-!
# Programs whose types are right

An expression has a type whatever its parts are. In a program whose types are right the parts fit:
operators have operands of their types, and what is stored, returned or passed may be put where it is
put. A call to an unknown method has the type that its place wants, so it always fits.
-/

namespace MiniJava

/-! ## Types -/

/-- Whether a value of a type may be put where another one is declared. A class, that of strings
included, counts for any other one, and there are no values without a type. -/
def Ty.fills : Ty → Ty → Bool
  | .int, .int | .boolean, .boolean => true
  | .string, .string | .string, .object _ | .object _, .string | .object _, .object _ => true
  | .array element, .array declared => element.fills declared
  | _, _ => false

namespace Ty

variable {ty declared : Ty}

theorem eq_int_of_fills (h : ty.fills .int) : ty = .int := by
  cases ty with
  | int => rfl
  | _ => cases h

theorem eq_boolean_of_fills (h : ty.fills .boolean) : ty = .boolean := by
  cases ty with
  | boolean => rfl
  | _ => cases h

theorem not_void_of_fills (h : ty.fills declared) : ¬ ty.isVoid ∧ ¬ declared.isVoid := by
  cases ty with
  | void => cases h
  | _ =>
    cases declared with
    | void => cases h
    | _ => exact ⟨Bool.false_ne_true, Bool.false_ne_true⟩

theorem isReference_of_fills (h : ty.fills declared) (hne : ty ≠ declared) :
    ty.isReference ∧ declared.isReference := by
  cases ty with
  | int =>
    cases declared with
    | int => exact absurd rfl hne
    | _ => cases h
  | boolean =>
    cases declared with
    | boolean => exact absurd rfl hne
    | _ => cases h
  | void => cases h
  | string | object | array =>
    cases declared with
    | string | object | array => exact ⟨rfl, rfl⟩
    | int | boolean | void => cases h

theorem element_isReference_of_fills {element : Ty} (h : ty.fills (.array element))
    (hne : ty ≠ .array element) : ty.isReference ∧ element.isReference := by
  cases ty with
  | array item =>
    have hitem : item.fills element := h
    exact ⟨rfl, (isReference_of_fills hitem fun heq => hne (congrArg array heq)).2⟩
  | _ => cases h

/-- What fills a type fills its own. -/
theorem fills_self (h : ty.fills declared) : ty.fills ty := by
  induction ty generalizing declared with
  | void => cases h
  | int | boolean | string | object => rfl
  | array element ih =>
    cases declared with
    | array item =>
      have helement : element.fills item := h
      exact ih helement
    | _ => cases h

theorem eq_of_literal_fills {value : Literal} (h : value.ty.fills declared) :
    declared = value.ty := by
  cases value with
  | int =>
    cases declared with
    | int => rfl
    | _ => cases h
  | bool =>
    cases declared with
    | boolean => rfl
    | _ => cases h

end Ty

namespace Semantics

/-! ## Expressions -/

/-- An expression has a value in a place that wants a type, and the value may be put where a type is
declared. -/
def Fills (c : Context) (hint : Option Ty) (e : Expr) (declared : Ty) : Prop :=
  ∃ ty, typeOf c hint e = some ty ∧ ty.fills declared

/-- Arguments may be packed into an array for a parameter, or the only one is passed for it. -/
def PackFills (c : Context) (array : Ty) (args : List Expr) : Prop :=
  (∃ e, args = [e] ∧ Fills c (some (packedTy array)) e array) ∨
    ∀ e ∈ args, Fills c (some (packedTy array)) e (packedTy array)

/-- Arguments may be passed for parameters. There is one for each that takes one argument. -/
def ArgsFill (c : Context) (parameters : Parameters) : List Expr → Prop
  | [] => parameters.fixed = []
  | e :: rest =>
    match parameters.fixed, parameters.rest with
    | ty :: _, _ => Fills c (some ty) e ty ∧ ArgsFill c parameters.next rest
    | [], some array => PackFills c array (e :: rest)
    | [], none => False

/-- The parts of an expression have values that may be put where they are used. A name that is read and
an element that is loaded have values. -/
def PartsFill (c : Context) : Rule
  | _, .var name => c.nameTy? name ≠ some .void
  | _, .binary op left right =>
    Fills c (some op.operandTy) left op.operandTy ∧ Fills c (some op.operandTy) right op.operandTy
  | _, .not operand => Fills c (some .boolean) operand .boolean
  | _, .newArray _ size => Fills c (some .int) size .int
  | hint, .arrayLiteral elements => ∀ e ∈ elements,
    Fills c (hint.bind (·.element?)) e (itemTy c (hint.bind (·.element?)) elements)
  | _, .index array index =>
    typeOf c none array ≠ some (.array .void) ∧ Fills c (some .int) index .int
  | _, .call target method args => ∀ s,
    c.signature? target (typeOf c none target) method = some s →
      ArgsFill c (.ofSignature? (some s)) args
  | _, .literal _ | _, .self | _, .paren _ | _, .length _ | _, .newObject _ => True

/-- What a node of an expression keeps to in a program whose names are known and whose types are
right. -/
def Typed (c : Context) : Rule := fun hint e => Named c hint e ∧ PartsFill c hint e

/-! ## Statements -/

/-- What a statement stores, tests or returns may be put where it is put. -/
def StmtFills (c : Context) : Stmt → Prop
  | .assign target value => ∃ ty, c.nameTy? target = some ty ∧ Fills c (some ty) value ty
  | .arrayAssign target index value => Fills c (some .int) index .int ∧
    ∀ element, c.nameTy? target = some (.array element) → Fills c (some element) value element
  | .ite condition _ _ | .loop condition _ => Fills c (some .boolean) condition .boolean
  | .ret (some value) => Fills c (some c.method.returnTy) value c.method.returnTy
  | .block _ | .ret none | .expr _ => True

variable {c : Context} {hint : Option Ty}

/-! ## Types with values -/

theorem Fills.int {e : Expr} (h : Fills c hint e .int) : typeOf c hint e = some .int := by
  obtain ⟨ty, hty, hfills⟩ := h
  rw [hty, Ty.eq_int_of_fills hfills]

theorem Fills.boolean {e : Expr} (h : Fills c hint e .boolean) : typeOf c hint e = some .boolean := by
  obtain ⟨ty, hty, hfills⟩ := h
  rw [hty, Ty.eq_boolean_of_fills hfills]

/-- A logical operator is a truth value, as its right operand is. -/
theorem typeOf_logical_of_fills {op : BinOp} {left right : Expr} (hop : op.isLogical)
    (h : Fills c (some .boolean) right .boolean) :
    typeOf c hint (.binary op left right) = some .boolean := by
  cases op with
  | and | or =>
    rw [typeOf, h.boolean]
    exact ite_self _
  | add | sub | mul | div | lt => cases hop

theorem callTy_ne_void (signature : Option Signature) (hint : Option Ty) :
    callTy? signature hint ≠ some .void := by
  intro h
  obtain ⟨hvalue, heq⟩ := Option.ite_none_left_eq_some.mp h
  rw [Option.some.inj heq] at hvalue
  exact hvalue rfl

theorem typeOf_ne_void {e : Expr} (h : Expr.Keeps c (Typed c) hint e) :
    typeOf c hint e ≠ some .void := by
  induction e using Expr.stripParens.induct with
  | case1 inner ih =>
    rw [Expr.Keeps] at h
    rw [typeOf]
    exact ih h.2
  | case2 e hparen =>
    have hfills : PartsFill c hint e := h.self.2
    cases e with
    | paren inner => exact absurd rfl (hparen inner)
    | literal value => cases value <;> simp [typeOf, Literal.ty]
    | var name =>
      rw [typeOf]
      exact hfills
    | binary op left right =>
      cases op with
      | add | sub | mul | div | lt => simp [typeOf]
      | and | or =>
        rw [typeOf_logical_of_fills rfl hfills.2]
        simp
    | index array index =>
      intro hvoid
      rw [typeOf, Option.bind_eq_some_iff] at hvoid
      obtain ⟨ty, hty, helement⟩ := hvoid
      cases ty with
      | array element =>
        cases helement
        exact hfills.1 hty
      | _ => cases helement
    | call target method args =>
      rw [typeOf]
      exact callTy_ne_void _ _
    | _ => simp [typeOf]

end Semantics

end MiniJava
