import MiniJava.Proofs.Semantics.World
import MiniJava.SymbolTable

/-!
# Runs of the source language

Expressions are evaluated from left to right, and the right operand of a logical operator only if
the left one does not decide. A name denotes a local, else a parameter, else a field of the object
the method works on. An array literal is allocated before its elements are evaluated; arguments for
a parameter that takes any number of them are packed into a fresh array after the others are
evaluated.

A run is stuck when an operation gets an operand of the wrong kind, and when a local is read that
was not assigned before. What type an expression has decides which method of the class a call is to,
so types are part of the semantics: `typeOf` gives the type of an expression, `none` for one
without a value. As in lowering, the type that the place of an expression wants is a hint for calls
to unknown methods and for array literals.
-/

namespace MiniJava.Semantics

/-- The values of the variables that have one. -/
abbrev Locals := String → Option Value

/-- The variables after an assignment. -/
def Locals.set (env : Locals) (name : String) (value : Value) : Locals := fun other =>
  if other = name then some value else env other

/-- What a run of a method depends on beside its body. -/
structure Context where
  platform : Platform
  symbols : SymbolTable
  method : Signature
  /-- The object that an instance method works on. -/
  self : Value

/-- What a name denotes. -/
inductive Meaning where
  | var (ty : Ty)
  | field (ty : Ty)
  | className
  | unknown
  deriving DecidableEq

namespace Context

variable (c : Context)

/-- What a name denotes: a local, a parameter, a field or a class, the first of these there is. -/
def meaning (name : String) : Meaning :=
  match c.method.local? name, c.method.param? name, c.symbols.field? name with
  | some var, _, _ => .var var.ty
  | none, some param, _ => .var param.ty
  | none, none, some field => .field field.ty
  | none, none, none =>
    if c.symbols.isImport name || name == c.symbols.className then .className else .unknown

/-- The type of a name that has a value. -/
def nameTy? (name : String) : Option Ty :=
  match c.meaning name with
  | .var ty | .field ty => some ty
  | .className | .unknown => none

/-- The class that the target of a call names, if it is nothing but the name of a class. -/
def classTarget? : Expr → Option String
  | .var name => if c.meaning name = .className then some name else none
  | _ => none

/-- The signature of the method of the class that a call is to, given the type of its target. -/
def signature? (target : Expr) (targetTy : Option Ty) (method : String) : Option Signature :=
  let isOwn : Bool := match c.classTarget? target with
    | some name => name == c.symbols.className
    | none => targetTy == some (.object c.symbols.className)
  if isOwn then c.symbols.method? method else none

end Context

/-- The constant that an operand is, parentheses stripped. -/
def constant? (e : Expr) : Option Bool :=
  match e.stripParens with
  | .literal (.bool value) => some value
  | _ => none

/-- What a call gives: what its signature says, or else what its place wants. -/
def callTy? (signature : Option Signature) (hint : Option Ty) : Option Ty :=
  let ty := match signature with
    | some s => s.returnTy
    | none => hint.getD .int
  if ty.isVoid then none else some ty

mutual

/-- The type of an expression. A logical operator whose left operand is a constant that does not
decide has the type of its right operand. -/
def typeOf (c : Context) (hint : Option Ty) : Expr → Option Ty
  | .literal value => some value.ty
  | .self => some (.object c.symbols.className)
  | .var name => c.nameTy? name
  | .paren inner => typeOf c hint inner
  | .binary op left right =>
    match op with
    | .and =>
      if constant? left = some true then typeOf c (some .boolean) right else some .boolean
    | .or =>
      if constant? left = some false then typeOf c (some .boolean) right else some .boolean
    | .add | .sub | .mul | .div => some .int
    | .lt => some .boolean
  | .not _ => some .boolean
  | .newArray element _ => some (.array element)
  | .arrayLiteral elements => some (.array (itemTy c (hint.bind (·.element?)) elements))
  | .index array _ => (typeOf c none array).bind (·.element?)
  | .length _ => some .int
  | .newObject name => some (.object name)
  | .call target method _ => callTy? (c.signature? target (typeOf c none target) method) hint

/-- The element type of an array literal: the type of its first item, or what its place wants. -/
def itemTy (c : Context) (hint : Option Ty) : List Expr → Ty
  | [] => hint.getD .int
  | e :: _ => (typeOf c hint e).getD (hint.getD .int)

end

/-- The parameters that arguments still to come are for: a type for each that takes one argument,
and the type of the array for one that takes all others. -/
structure Parameters where
  fixed : List Ty := []
  rest : Option Ty := none

namespace Parameters

/-- The parameters of a call, if its signature is known. -/
def ofSignature? : Option Signature → Parameters
  | none => {}
  | some s =>
    let tys := s.params.map (·.ty)
    if s.isVarargs then { fixed := tys.dropLast, rest := some (tys.getLastD (.array .int)) }
    else { fixed := tys }

/-- The type of the array that the next argument is packed into, if it is packed. -/
def packing? (ps : Parameters) : Option Ty :=
  match ps.fixed with
  | [] => ps.rest
  | _ :: _ => none

/-- The parameters after the next argument. -/
def next (ps : Parameters) : Parameters :=
  { ps with fixed := ps.fixed.tail }

end Parameters

/-- The element type of the array that arguments are packed into. -/
def packedTy (array : Ty) : Ty :=
  array.element?.getD .int

/-! ## Expressions -/

namespace Context

variable (c : Context)

/-- The object that the method works on. -/
def receiver : Action Value :=
  if c.method.isStatic then Action.stuck
  else c.platform.expect (.object c.symbols.className) c.self

/-- The class of the method as the platform knows it. -/
def ownClass : String :=
  c.platform.classOf c.symbols.className

/-- The value of a variable or a field. -/
def read (env : Locals) (name : String) : Action Value :=
  match c.meaning name with
  | .var ty =>
    match env name with
    | some v => c.platform.expect ty v
    | none => Action.stuck
  | .field ty => do
    let v ← getField (c.platform.zero ty) c.ownClass name (← c.receiver)
    c.platform.expect ty v
  | .className | .unknown => Action.stuck

theorem read_var {name : String} {ty : Ty} (h : c.meaning name = .var ty) {env : Locals} {v : Value}
    (hv : env name = some v) : c.read env name = c.platform.expect ty v := by
  simp only [read, h, hv]

theorem read_var_none {name : String} {ty : Ty} (h : c.meaning name = .var ty) {env : Locals}
    (hv : env name = none) : c.read env name = Action.stuck := by
  simp only [read, h, hv]

theorem read_field {name : String} {ty : Ty} (h : c.meaning name = .field ty) (env : Locals) :
    c.read env name = (do
      let object ← c.receiver
      let v ← getField (c.platform.zero ty) c.ownClass name object
      c.platform.expect ty v) := by
  simp only [read, h]

/-- A new array for a number of items of a type. -/
def allocate (element : Ty) (count : Nat) : Action Value :=
  alloc (.array (c.platform.elementClass element)
    (List.replicate count (c.platform.zero element)))

/-- A call, given how its target and its arguments are evaluated. -/
def call (target : Expr) (method : String) (signature : Option Signature) (object : Action Value)
    (args : Parameters → Action (List Value)) : Action Value := do
  let on ← match c.classTarget? target with
    | some name => pure (Target.static (c.platform.classOf name))
    | none => Target.object <$> object
  let values ← args (.ofSignature? signature)
  c.platform.invoke on method values

end Context

/-- An operator that needs both operands. -/
def strict (P : Platform) : BinOp → Value → Value → Action Value
  | .add => onInts fun x y => pure (.int (x + y))
  | .sub => onInts fun x y => pure (.int (x - y))
  | .mul => onInts fun x y => pure (.int (x * y))
  | .div => onInts quotient
  | .lt => onInts fun x y => pure (P.truth (decide (x < y)))
  | .and | .or => fun _ _ => Action.stuck

/-- A logical operator, which the given value of the left operand decides. -/
def shortCircuit (P : Platform) (decider : Bool) (left right : Action Value) : Action Value := do
  let v ← left
  let b ← P.test v
  if b = decider then pure (P.truth decider)
  else do
    let v ← right
    let b ← P.test v
    pure (P.truth b)

mutual

/-- Evaluates an expression. -/
def eval (c : Context) (env : Locals) (hint : Option Ty) : Expr → Action Value
  | .literal value => pure (c.platform.literal value)
  | .self => c.receiver
  | .var name => c.read env name
  | .paren inner => eval c env hint inner
  | .binary op left right =>
    match op with
    | .and => shortCircuit c.platform false (eval c env (some .boolean) left) do
        Action.check (typeOf c (some .boolean) right = some .boolean)
        eval c env (some .boolean) right
    | .or => shortCircuit c.platform true (eval c env (some .boolean) left) do
        Action.check (typeOf c (some .boolean) right = some .boolean)
        eval c env (some .boolean) right
    | op => do
      let x ← eval c env (some .int) left
      let y ← eval c env (some .int) right
      strict c.platform op x y
  | .not operand => do
    let v ← eval c env (some .boolean) operand
    let b ← c.platform.test v
    return c.platform.truth !b
  | .newArray element size => do
    let n ← eval c env (some .int) size
    c.platform.newArray element n
  | .arrayLiteral elements => do
    let hint := hint.bind (·.element?)
    let element := itemTy c hint elements
    let array ← c.allocate element elements.length
    evalItems c env hint element array 0 elements
    return array
  | .index array index =>
    match (typeOf c none array).bind (·.element?) with
    | some element => do
      let a ← eval c env none array
      let i ← eval c env (some .int) index
      let v ← loadElement a i
      c.platform.expect element v
    | none => Action.stuck
  | .length array =>
    match (typeOf c none array).bind (·.element?) with
    | some _ => do
      let a ← eval c env none array
      arrayLength a
    | none => Action.stuck
  | .newObject name => do
    let object ← alloc (.object (c.platform.classOf name) [])
    let _ ← c.platform.invoke (.object object) "<init>" []
    return object
  | .call target method args =>
    let signature := c.signature? target (typeOf c none target) method
    match callTy? signature hint with
    | some ty => do
      let v ← c.call target method signature (eval c env none target)
        fun parameters => evalArgs c env parameters args
      c.platform.expect ty v
    | none => Action.stuck

/-- Evaluates items and stores them into an array one after another, from an index on. -/
def evalItems (c : Context) (env : Locals) (hint : Option Ty) (element : Ty) (array : Value)
    (index : Nat) : List Expr → Action Unit
  | [] => pure ()
  | e :: rest => do
    let v ← eval c env hint e
    let item ← c.platform.expect element v
    c.platform.storeElement array (.int (.ofNat index)) item
    evalItems c env hint element array (index + 1) rest

/-- Evaluates the arguments of a call. A single argument that is an array of the packed ones is
passed as it is. -/
def evalArgs (c : Context) (env : Locals) (parameters : Parameters) :
    List Expr → Action (List Value)
  | [] =>
    match parameters.rest with
    | some array => do
      let packed ← c.allocate (packedTy array) 0
      return [packed]
    | none => return []
  | e :: rest =>
    match parameters.packing? with
    | some array =>
      let element := packedTy array
      if rest.isEmpty ∧ typeOf c (some element) e = some array then do
        let v ← eval c env (some element) e
        return [v]
      else do
        let packed ← c.allocate element (rest.length + 1)
        let v ← eval c env (some element) e
        let item ← c.platform.expect element v
        c.platform.storeElement packed (.int 0) item
        evalItems c env (some element) element packed 1 rest
        return [packed]
    | none => do
      let v ← eval c env parameters.fixed.head? e
      let values ← evalArgs c env parameters.next rest
      return v :: values

end

/-- Evaluates an expression whose value is dropped. A call may have none. -/
def effect (c : Context) (env : Locals) : Expr → Action Unit
  | .paren inner => effect c env inner
  | .call target method args => do
    let signature := c.signature? target (typeOf c none target) method
    let _ ← c.call target method signature (eval c env none target)
      fun parameters => evalArgs c env parameters args
  | e => do
    let _ ← eval c env none e

/-! ## Parentheses -/

theorem typeOf_stripParens (c : Context) (hint : Option Ty) (e : Expr) :
    typeOf c hint e.stripParens = typeOf c hint e := by
  induction e using Expr.stripParens.induct with
  | case1 inner ih => rw [Expr.stripParens, ih, typeOf]
  | case2 e hparen => rw [Expr.stripParens.eq_2 e hparen]

theorem eval_stripParens (c : Context) (env : Locals) (hint : Option Ty) (e : Expr) :
    eval c env hint e.stripParens = eval c env hint e := by
  induction e using Expr.stripParens.induct with
  | case1 inner ih => rw [Expr.stripParens, ih, eval]
  | case2 e hparen => rw [Expr.stripParens.eq_2 e hparen]

theorem effect_stripParens (c : Context) (env : Locals) (e : Expr) :
    effect c env e.stripParens = effect c env e := by
  induction e using Expr.stripParens.induct with
  | case1 inner ih => rw [Expr.stripParens, ih, effect]
  | case2 e hparen => rw [Expr.stripParens.eq_2 e hparen]

/-! ## Equations of operators and arguments -/

/-- The value of the left operand that decides, for the operators that have one. -/
def decider? : BinOp → Option Bool
  | .and => some false
  | .or => some true
  | .add | .sub | .mul | .div | .lt => none

theorem eval_logical {op : BinOp} {decider : Bool} (h : decider? op = some decider)
    (c : Context) (env : Locals) (hint : Option Ty) (left right : Expr) :
    eval c env hint (.binary op left right) =
      shortCircuit c.platform decider (eval c env (some .boolean) left) (do
        Action.check (typeOf c (some .boolean) right = some .boolean)
        eval c env (some .boolean) right) := by
  cases op <;> cases h <;> rw [eval]

theorem eval_strict {op : BinOp} (h : decider? op = none) (c : Context) (env : Locals)
    (hint : Option Ty) (left right : Expr) :
    eval c env hint (.binary op left right) = (do
      let x ← eval c env (some .int) left
      let y ← eval c env (some .int) right
      strict c.platform op x y) := by
  cases op <;> cases h <;> rw [eval] <;> nofun

theorem typeOf_logical {op : BinOp} {decider : Bool} (h : decider? op = some decider)
    (c : Context) (hint : Option Ty) (left right : Expr) :
    typeOf c hint (.binary op left right) =
      if constant? left = some !decider then typeOf c (some .boolean) right
      else some .boolean := by
  cases op <;> cases h <;> rw [typeOf] <;> rfl

theorem typeOf_strict {op : BinOp} (h : decider? op = none) (c : Context)
    (hint : Option Ty) (left right left' right' : Expr) :
    typeOf c hint (.binary op left' right') = typeOf c hint (.binary op left right) := by
  cases op <;> cases h <;> rw [typeOf, typeOf]

/-- A constant operand evaluates to the boolean it is, whatever the variables are. -/
theorem eval_of_constant {c : Context} {e : Expr} {b : Bool} (h : constant? e = some b)
    (env : Locals) (hint : Option Ty) : eval c env hint e = pure (c.platform.truth b) := by
  induction e using Expr.stripParens.induct with
  | case1 inner ih =>
    rw [eval]
    exact ih h
  | case2 e hparen =>
    rw [constant?, Expr.stripParens] at h
    · split at h
      · cases h
        rw [eval]
        rfl
      · cases h
    · exact hparen

theorem evalArgs_packed {c : Context} {env : Locals} {parameters : Parameters} {array : Ty}
    (h : parameters.packing? = some array) (e : Expr) (rest : List Expr) :
    evalArgs c env parameters (e :: rest) =
      if rest.isEmpty ∧ typeOf c (some (packedTy array)) e = some array then do
        let v ← eval c env (some (packedTy array)) e
        return [v]
      else do
        let packed ← c.allocate (packedTy array) (rest.length + 1)
        evalItems c env (some (packedTy array)) (packedTy array) packed 0 (e :: rest)
        return [packed] := by
  rw [evalArgs, h]
  simp only [evalItems, bind_assoc]
  rfl

theorem evalArgs_single {c : Context} {env : Locals} {parameters : Parameters}
    (h : parameters.packing? = none) (e : Expr) (rest : List Expr) :
    evalArgs c env parameters (e :: rest) = (do
      let v ← eval c env parameters.fixed.head? e
      let values ← evalArgs c env parameters.next rest
      return v :: values) := by
  rw [evalArgs, h]

/-! ## Expressions end -/

section Ends

open MiniJava.Semantics.Action (Ends)

variable (c : Context) (env : Locals)

theorem receiver_ends : Ends c.receiver :=
  .ite .stuck (c.platform.expect_ends _ _)

theorem read_ends (name : String) : Ends (c.read env name) := by
  rw [Context.read]
  split
  · split
    · exact c.platform.expect_ends _ _
    · exact .stuck
  · exact (receiver_ends c).bind fun _ => (getField_ends _ _ _ _).bind fun _ =>
      c.platform.expect_ends _ _
  · exact .stuck
  · exact .stuck

theorem strict_ends (P : Platform) (op : BinOp) (x y : Value) : Ends (strict P op x y) := by
  cases op with
  | add | sub | mul | lt => exact onInts_ends (fun _ _ => .pure _) x y
  | div => exact onInts_ends quotient_ends x y
  | and | or => exact .stuck

theorem shortCircuit_ends {P : Platform} {decider : Bool} {left right : Action Value}
    (hl : Ends left) (hr : Ends right) : Ends (shortCircuit P decider left right) :=
  hl.bind fun v => (P.test_ends v).bind fun _ =>
    .ite (.pure _) (hr.bind fun v => (P.test_ends v).bind fun _ => .pure _)

theorem call_ends {target : Expr} {method : String} {signature : Option Signature}
    {object : Action Value} {args : Parameters → Action (List Value)} (hobject : Ends object)
    (hargs : ∀ parameters, Ends (args parameters)) :
    Ends (c.call target method signature object args) := by
  have hrest : ∀ on, Ends (args (.ofSignature? signature) >>= fun values =>
      c.platform.invoke on method values) :=
    fun on => (hargs _).bind fun values => c.platform.invoke_ends _ _ _
  rw [Context.call]
  split
  · exact hrest _
  · exact (hobject.bind fun _ => .pure _).bind hrest

mutual

theorem eval_ends : ∀ (hint : Option Ty) (e : Expr), Ends (eval c env hint e)
  | _, .literal _ => .pure _
  | _, .self => receiver_ends c
  | _, .var name => read_ends c env name
  | hint, .paren inner => eval_ends hint inner
  | _, .binary op left right => by
    cases op with
    | and | or =>
      exact shortCircuit_ends (eval_ends _ left) ((Ends.check _).bind fun _ => eval_ends _ right)
    | add | sub | mul | div | lt =>
      exact (eval_ends _ left).bind fun x => (eval_ends _ right).bind fun y => strict_ends _ _ x y
  | _, .not operand =>
    (eval_ends _ operand).bind fun v => (c.platform.test_ends v).bind fun _ => .pure _
  | _, .newArray _ size => (eval_ends _ size).bind fun _ => c.platform.newArray_ends _ _
  | _, .arrayLiteral elements =>
    (alloc_ends _).bind fun array => (evalItems_ends _ _ array 0 elements).bind fun _ => .pure _
  | _, .index array index => by
    rw [eval]
    split
    · exact (eval_ends _ array).bind fun a => (eval_ends _ index).bind fun i =>
        (loadElement_ends a i).bind fun _ => c.platform.expect_ends _ _
    · exact .stuck
  | _, .length array => by
    rw [eval]
    split
    · exact (eval_ends _ array).bind fun a => arrayLength_ends a
    · exact .stuck
  | _, .newObject _ =>
    (alloc_ends _).bind fun _ => (c.platform.invoke_ends _ _ _).bind fun _ => .pure _
  | _, .call target method args => by
    rw [eval]
    split
    · exact (call_ends c (eval_ends _ target) fun _ => evalArgs_ends _ args).bind fun _ =>
        c.platform.expect_ends _ _
    · exact .stuck

theorem evalItems_ends : ∀ (hint : Option Ty) (element : Ty) (array : Value) (index : Nat)
    (es : List Expr), Ends (evalItems c env hint element array index es)
  | _, _, _, _, [] => .pure ()
  | hint, element, array, _, e :: rest =>
    (eval_ends hint e).bind fun v => (c.platform.expect_ends element v).bind fun item =>
      (c.platform.storeElement_ends array _ item).bind fun _ => evalItems_ends hint element array _ rest

theorem evalArgs_ends : ∀ (parameters : Parameters) (es : List Expr),
    Ends (evalArgs c env parameters es)
  | parameters, [] => by
    rw [evalArgs]
    split
    · exact (alloc_ends _).bind fun _ => .pure _
    · exact .pure _
  | parameters, e :: rest => by
    rw [evalArgs]
    split
    · refine .ite ((eval_ends _ e).bind fun _ => .pure _) ((alloc_ends _).bind fun packed => ?_)
      exact (eval_ends _ e).bind fun v => (c.platform.expect_ends _ v).bind fun item =>
        (c.platform.storeElement_ends _ _ item).bind fun _ => (evalItems_ends _ _ packed 1 rest).bind
          fun _ => .pure _
    · exact (eval_ends _ e).bind fun _ => (evalArgs_ends _ rest).bind fun _ => .pure _

end

theorem effect_ends (e : Expr) : Ends (effect c env e) := by
  induction e using Expr.stripParens.induct with
  | case1 inner ih => exact ih
  | case2 e hparen =>
    cases e with
    | paren inner => exact absurd rfl (hparen inner)
    | call target method args =>
      exact (call_ends c (eval_ends c env _ target) fun _ => evalArgs_ends c env _ args).bind
        fun _ => .pure _
    | _ => exact (eval_ends c env none _).bind fun _ => .pure _

end Ends

/-! ## Statements -/

/-- How a statement ends: what comes behind it is next, or the method returns. -/
inductive Flow (σ : Type) where
  | next (state : σ)
  | returned (value : Option Value)

/-- What comes behind an action, unless the method returns. -/
def andThen {σ τ : Type} (a : Action (Flow σ)) (f : σ → Action (Flow τ)) : Action (Flow τ) := do
  match ← a with
  | .next s => f s
  | .returned value => return .returned value

theorem andThen_next {σ : Type} (a : Action (Flow σ)) :
    andThen a (fun s => pure (.next s)) = a :=
  calc andThen a (fun s => pure (.next s))
    _ = a >>= pure := congrArg (a >>= ·) (funext fun flow => by cases flow <;> rfl)
    _ = a := bind_pure a

namespace Context

variable (c : Context)

/-- The test of a condition. -/
def holdsIn (env : Locals) (condition : Expr) : Action Bool := do
  let v ← eval c env (some .boolean) condition
  c.platform.test v

/-- An assignment to a variable or a field. -/
def assign (env : Locals) (target : String) (value : Expr) : Action (Flow Locals) :=
  match c.meaning target with
  | .var ty => do
    let v ← eval c env (some ty) value
    let v ← c.platform.expect ty v
    return .next (env.set target v)
  | .field ty => do
    let v ← eval c env (some ty) value
    let v ← c.platform.expect ty v
    let object ← c.receiver
    c.platform.writeField c.ownClass target object v
    return .next env
  | .className | .unknown => Action.stuck

/-- An assignment to an element. The array is read before index and value. -/
def arrayAssign (env : Locals) (target : String) (index value : Expr) : Action (Flow Locals) :=
  match (c.nameTy? target).bind (·.element?) with
  | some element => do
    let a ← c.read env target
    let i ← eval c env (some .int) index
    let v ← eval c env (some element) value
    let v ← c.platform.expect element v
    c.platform.storeElement a i v
    return .next env
  | none => Action.stuck

/-- A return of a value, which a method without a result drops. -/
def giveBack (v : Value) : Action (Flow Locals) :=
  if c.method.returnTy.isVoid then return .returned none
  else do
    let v ← c.platform.expect c.method.returnTy v
    return .returned (some v)

end Context

/-- Runs a body as long as a test holds, at most the given number of times. -/
def iterate (test : Locals → Action Bool) (body : Locals → Action (Flow Locals)) :
    Nat → Locals → Action (Flow Locals)
  | 0, _ => Action.outOfFuel
  | fuel + 1, env => do
    if ← test env then andThen (body env) (iterate test body fuel)
    else return .next env

mutual

/-- Runs a statement, every loop in it at most the given number of times. -/
def exec (c : Context) (fuel : Nat) : Stmt → Locals → Action (Flow Locals)
  | .assign target value, env => c.assign env target value
  | .arrayAssign target index value, env => c.arrayAssign env target index value
  | .ite condition thenBranch elseBranch, env => do
    if ← c.holdsIn env condition then exec c fuel thenBranch env
    else exec c fuel elseBranch env
  | .loop condition body, env => iterate (c.holdsIn · condition) (exec c fuel body) fuel env
  | .block body, env => execAll c fuel body env
  | .ret none, _ => return .returned none
  | .ret (some value), env => do
    let v ← eval c env (some c.method.returnTy) value
    c.giveBack v
  | .expr value, env => do
    effect c env value
    return .next env

/-- Runs statements in their order. -/
def execAll (c : Context) (fuel : Nat) : List Stmt → Locals → Action (Flow Locals)
  | [], env => return .next env
  | s :: rest, env => andThen (exec c fuel s env) (execAll c fuel rest)

end

/-! ## Methods -/

/-- The argument that is passed for the first parameter of a name. -/
def argument? (params : List String) (args : List Value) (name : String) : Option Value :=
  (params.zip args).lookup name

namespace Context

variable (c : Context)

/-- The variables at the start: a local hides a parameter of its name and has no value yet. -/
def start (args : List Value) : Locals := fun name =>
  if (c.method.local? name).isSome then none else argument? (c.method.params.map (·.name)) args name

/-- Runs a body to the end of the method. A method with a result has to return one. -/
def run (body : List Stmt) (args : List Value) (fuel : Nat) : Action (Option Value) := do
  match ← execAll c fuel body (c.start args) with
  | .returned value => return value
  | .next _ => if c.method.returnTy.isVoid then return none else Action.stuck

end Context

/-- The runs of a method on an object with some arguments. -/
def sourceRun (platform : Platform) (symbols : SymbolTable) (m : Method) (self : Value)
    (args : List Value) (fuel : Nat) : Action (Option Value) :=
  { platform, symbols, method := .ofMethod m, self : Context }.run m.body args fuel

end MiniJava.Semantics
